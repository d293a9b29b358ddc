/-
The graph step of a query (`IndexManager::query`, `index/manager.rs`).

A query spec names relations.  The step looks at the first name only, and searches along all
edges if that name is none of a relation.

* `graphStep_keys` — what the step contributes;
* `graphStep_iff` — when that is what the names ask for.
-/
import Uldb.Breadth
import Uldb.Fusion

namespace Uldb

open BreadthFirst RelationGraph

namespace Relation

def fromStr : String → Option Relation
  | "imports" => some imports
  | "calls" => some calls
  | "inherits" => some inherits
  | "tests" => some tests
  | "defines" => some defines
  | _ => none

def asStr : Relation → String
  | imports => "imports"
  | calls => "calls"
  | inherits => "inherits"
  | tests => "tests"
  | defines => "defines"

/-- The names that are read are those that are written. -/
theorem fromStr_eq_some {s : String} {relation : Relation} :
    fromStr s = some relation ↔ s = relation.asStr := by
  constructor
  · intro h
    rw [fromStr.eq_def] at h
    split at h <;> first | (rw [← Option.some_inj.mp h]; rfl) | exact absurd h (by simp)
  · rintro rfl
    cases relation <;> rfl

end Relation

/-- The fields of a query spec that the graph step reads. -/
structure QuerySpec where
  text : Str
  maxDepth : ℕ
  relations : List String

namespace QuerySpec

/-- `spec.relations.first().and_then(|r| Relation::from_str(r))` -/
def relationFilter (spec : QuerySpec) : Option Relation :=
  spec.relations.head?.bind Relation.fromStr

end QuerySpec

/-- A node that a search returns, as a hit. -/
def hitOfResult (r : TraversalResult × ℕ) : RankedHit :=
  ⟨r.1.key.1, 1 / (1 + (r.1.depth : ℚ)), r.2⟩

/-- The graph step: the lists of hits that it contributes. -/
def graphStep (g : RelationGraph) (spec : QuerySpec) : Option (List (List RankedHit)) :=
  if spec.text.1 = [] then some []
  else do
    let results ← g.bfs spec.text "forward" spec.maxDepth spec.relationFilter
    let hits := (results.filter fun r => 0 < r.depth).zipIdx.map hitOfResult
    return if hits = [] then [] else [hits]

/-! ### Contributions -/

/-- An edge with a relation of some kind. -/
def Along (edges : List (Str × Str × Relation)) (kind : Relation → Prop) (a b : Str) : Prop :=
  ∃ relation, (a, b, relation) ∈ edges ∧ kind relation

/-- The relation passes the filter of the step. -/
def QuerySpec.Searched (spec : QuerySpec) (relation : Relation) : Prop :=
  ∀ r, spec.relationFilter = some r → r = relation

/-- The name of the relation is listed. -/
def QuerySpec.Listed (spec : QuerySpec) (relation : Relation) : Prop :=
  relation.asStr ∈ spec.relations

theorem leads_forward (edges : List (Str × Str × Relation)) (spec : QuerySpec) :
    Leads edges "forward" spec.relationFilter = Along edges spec.Searched := by
  funext a b
  rfl

/-- The nodes that a breadth-first search returns, without their depths. -/
theorem bfs_keys (cs : List GraphCall) (start : Str) (direction : String) (maxDepth : ℕ)
    (relationFilter : Option Relation) :
    ∃ results, (ofCalls cs).bfs start direction maxDepth relationFilter = some results ∧
      (results.map (·.key)).Nodup ∧
      ∀ key, (∃ r ∈ results, 0 < r.depth ∧ r.key = key) ↔ key ≠ start ∧
        ∃ n ≤ maxDepth, Walk (Leads (addedEdges cs) direction relationFilter) n start key := by
  obtain ⟨results, hrun, hunknown, hknown⟩ := bfs_spec cs start direction maxDepth relationFilter
  refine ⟨results, hrun, ?_, fun key => ?_⟩
  · by_cases hstart : start ∈ addedNodes cs
    · exact (hknown hstart).1
    · rw [hunknown hstart]
      exact List.nodup_nil
  · by_cases hstart : start ∈ addedNodes cs
    · obtain ⟨_, _, hdist⟩ := hknown hstart
      constructor
      · rintro ⟨r, hr, hpos, hkey⟩
        obtain ⟨⟨hwalk, hmin⟩, hle⟩ := (hdist key r.depth).mp ⟨r, hr, hkey, rfl⟩
        refine ⟨?_, r.depth, hle, hwalk⟩
        -- the start itself is at distance zero
        rintro rfl
        have hzero := hmin 0 (.nil key)
        omega
      · rintro ⟨hne, n, hn, hwalk⟩
        obtain ⟨m, hm, hshort⟩ := hwalk.exists_isDist
        obtain ⟨r, hr, hkey, hdepth⟩ := (hdist key m).mpr ⟨hshort, hm.trans hn⟩
        refine ⟨r, hr, Nat.pos_of_ne_zero fun hzero => hne ?_, hkey⟩
        obtain rfl : m = 0 := hdepth ▸ hzero
        cases hshort.1
        rfl
    · rw [hunknown hstart]
      constructor
      · rintro ⟨r, hr, _⟩
        exact absurd hr List.not_mem_nil
      · rintro ⟨hne, n, _, hwalk⟩
        exact absurd (hwalk.eq_of_forall_not (not_leads_of_not_mem hstart direction relationFilter))
          hne

/-- The step comes back. -/
theorem graphStep_returns (cs : List GraphCall) (spec : QuerySpec) :
    ∃ lists, graphStep (ofCalls cs) spec = some lists := by
  rw [graphStep]
  split
  · exact ⟨_, rfl⟩
  · obtain ⟨results, hresults⟩ := (valid_ofCalls cs).bfs_isSome spec.text "forward" spec.maxDepth
      spec.relationFilter
    rw [hresults]
    exact ⟨_, rfl⟩

/-- **What the step contributes**: the nodes other than the start within the bound along the edges
that it searches, each once. -/
theorem graphStep_keys (cs : List GraphCall) (spec : QuerySpec) (htext : spec.text.1 ≠ []) :
    ∃ lists, graphStep (ofCalls cs) spec = some lists ∧ (lists.flatten.map (·.key)).Nodup ∧
      ∀ key, key ∈ lists.flatten.map (·.key) ↔ ∃ node : Str, node.1 = key ∧ node ≠ spec.text ∧
        ∃ n ≤ spec.maxDepth, Walk (Along (addedEdges cs) spec.Searched) n spec.text node := by
  obtain ⟨results, hrun, hnodup, hkeys⟩ :=
    bfs_keys cs spec.text "forward" spec.maxDepth spec.relationFilter
  rw [leads_forward] at hkeys
  rw [graphStep, if_neg htext, hrun]
  simp only [Option.bind_eq_bind, Option.bind_some]
  set hits := (results.filter fun r => 0 < r.depth).zipIdx.map hitOfResult with hhits
  have hflat : (if hits = [] then [] else [hits]).flatten = hits := by
    by_cases hempty : hits = []
    · rw [if_pos hempty, hempty]
      rfl
    · rw [if_neg hempty]
      simp
  have hmap : hits.map (·.key) = (results.filter fun r => 0 < r.depth).map (·.key.1) := by
    rw [hhits, List.map_map]
    conv_rhs => rw [← List.zipIdx_map_fst 0 (results.filter fun r => 0 < r.depth), List.map_map]
    rfl
  refine ⟨_, rfl, ?_, fun key => ?_⟩
  · have hnodup' : (results.map (·.key.1)).Nodup := by
      have hinj := hnodup.map Subtype.val_injective
      rwa [List.map_map] at hinj
    rw [hflat, hmap]
    exact hnodup'.sublist (List.filter_sublist.map _)
  · rw [hflat, hmap]
    simp only [List.mem_map, List.mem_filter, decide_eq_true_eq]
    constructor
    · rintro ⟨r, ⟨hr, hpos⟩, rfl⟩
      exact ⟨r.key, rfl, (hkeys r.key).mp ⟨r, hr, hpos, rfl⟩⟩
    · rintro ⟨node, rfl, hnode⟩
      obtain ⟨r, hr, hpos, hkey⟩ := (hkeys node).mpr hnode
      exact ⟨r, ⟨hr, hpos⟩, congrArg Subtype.val hkey⟩

/-- One of the two kinds of edges, those searched and those listed, contains the other. -/
theorem QuerySpec.searched_or_listed (spec : QuerySpec) :
    (∀ relation, spec.Searched relation → spec.Listed relation) ∨
      ∀ relation, spec.Listed relation → spec.Searched relation := by
  cases hfilter : spec.relationFilter with
  | none =>
    refine .inr fun relation _ r hr => ?_
    rw [hfilter] at hr
    exact absurd hr (by simp)
  | some r =>
    -- the first name is that of a relation
    refine .inl fun relation hsearched => ?_
    obtain rfl := hsearched r hfilter
    obtain ⟨name, hname, hr⟩ := Option.bind_eq_some_iff.mp hfilter
    rw [Relation.fromStr_eq_some] at hr
    show r.asStr ∈ spec.relations
    rw [← hr]
    exact List.mem_of_mem_head? hname

/-- **When the step contributes what the names ask for.**  An edge that is searched but not listed,
or listed but not searched, and that leaves a node fewer than `max_depth` steps away, may only lead
to a node within `max_depth` steps along edges that are both. -/
theorem graphStep_iff (cs : List GraphCall) (spec : QuerySpec) (htext : spec.text.1 ≠ []) :
    (∃ lists, graphStep (ofCalls cs) spec = some lists ∧ (lists.flatten.map (·.key)).Nodup ∧
      ∀ key, key ∈ lists.flatten.map (·.key) ↔ ∃ node : Str, node.1 = key ∧ node ≠ spec.text ∧
        ∃ n ≤ spec.maxDepth, Walk (Along (addedEdges cs) spec.Listed) n spec.text node) ↔
    ∀ n < spec.maxDepth, ∀ a b,
      Walk (Along (addedEdges cs) fun r => spec.Searched r ∨ spec.Listed r) n spec.text a →
      Along (addedEdges cs) (fun r => spec.Searched r ∨ spec.Listed r) a b →
      ∃ m ≤ spec.maxDepth,
        Walk (Along (addedEdges cs) fun r => spec.Searched r ∧ spec.Listed r) m spec.text b := by
  obtain ⟨lists, hrun, hnodup, hkeys⟩ := graphStep_keys cs spec htext
  -- both answers, as nodes
  have hsame : (∃ lists, graphStep (ofCalls cs) spec = some lists ∧
      (lists.flatten.map (·.key)).Nodup ∧ ∀ key, key ∈ lists.flatten.map (·.key) ↔
        ∃ node : Str, node.1 = key ∧ node ≠ spec.text ∧
          ∃ n ≤ spec.maxDepth, Walk (Along (addedEdges cs) spec.Listed) n spec.text node) ↔
      ∀ b, b ≠ spec.text →
        ((∃ n ≤ spec.maxDepth, Walk (Along (addedEdges cs) spec.Searched) n spec.text b) ↔
          ∃ n ≤ spec.maxDepth, Walk (Along (addedEdges cs) spec.Listed) n spec.text b) := by
    constructor
    · rintro ⟨lists', hrun', _, hkeys'⟩ b hb
      obtain rfl := Option.some_inj.mp (hrun.symm.trans hrun')
      have hone := (hkeys b.1).symm.trans (hkeys' b.1)
      simp only [← Subtype.ext_iff, exists_eq_left, ne_eq, hb, not_false_eq_true, true_and] at hone
      exact hone
    · intro h
      refine ⟨lists, hrun, hnodup, fun key => ?_⟩
      rw [hkeys]
      refine exists_congr fun node => and_congr_right fun _ => ?_
      exact ⟨fun ⟨hne, hwalk⟩ => ⟨hne, (h node hne).mp hwalk⟩,
        fun ⟨hne, hwalk⟩ => ⟨hne, (h node hne).mpr hwalk⟩⟩
  have hmono : ∀ {P Q : Relation → Prop}, (∀ r, P r → Q r) → ∀ a b,
      Along (addedEdges cs) P a b → Along (addedEdges cs) Q a b :=
    fun hPQ a b ⟨r, hedge, hr⟩ => ⟨r, hedge, hPQ r hr⟩
  rw [hsame]
  rcases spec.searched_or_listed with hsub | hsub
  · have hor : (fun r => spec.Searched r ∨ spec.Listed r) = spec.Listed :=
      funext fun r => propext ⟨fun h => h.elim (hsub r) id, .inr⟩
    have hand : (fun r => spec.Searched r ∧ spec.Listed r) = spec.Searched :=
      funext fun r => propext ⟨And.left, fun h => ⟨h, hsub r h⟩⟩
    rw [hor, hand, ← within_iff (hmono hsub)]
    exact forall_congr' fun b => imp_congr_right fun _ => Iff.comm
  · have hor : (fun r => spec.Searched r ∨ spec.Listed r) = spec.Searched :=
      funext fun r => propext ⟨fun h => h.elim id (hsub r), .inl⟩
    have hand : (fun r => spec.Searched r ∧ spec.Listed r) = spec.Listed :=
      funext fun r => propext ⟨And.right, fun h => ⟨hsub r h, h⟩⟩
    rw [hor, hand, ← within_iff (hmono hsub)]

/-- `a` calls `b`, and `b` tests `c`. -/
def callsThenTests : List GraphCall :=
  [.addEdge ⟨[97], rfl⟩ ⟨[98], rfl⟩ .calls, .addEdge ⟨[98], rfl⟩ ⟨[99], rfl⟩ .tests]

/-- A single name is what the step looks at. -/
theorem graphStep_iff_calls :
    ∃ lists, graphStep (ofCalls callsThenTests) ⟨⟨[97], rfl⟩, 3, ["calls"]⟩ = some lists ∧
      (lists.flatten.map (·.key)).Nodup ∧ ∀ key, key ∈ lists.flatten.map (·.key) ↔
        ∃ node : Str, node.1 = key ∧ node ≠ ⟨[97], rfl⟩ ∧ ∃ n ≤ 3,
          Walk (Along (addedEdges callsThenTests) fun r => r.asStr ∈ ["calls"]) n ⟨[97], rfl⟩ node := by
  have hboth : ∀ r, (⟨⟨[97], rfl⟩, 3, ["calls"]⟩ : QuerySpec).Searched r ↔
      (⟨⟨[97], rfl⟩, 3, ["calls"]⟩ : QuerySpec).Listed r := by
    intro r
    cases r <;> simp [QuerySpec.Searched, QuerySpec.Listed, QuerySpec.relationFilter,
      Relation.fromStr, Relation.asStr]
  refine (graphStep_iff callsThenTests ⟨⟨[97], rfl⟩, 3, ["calls"]⟩ (by simp)).mpr
    fun n hn a b hwalk hstep => ⟨n + 1, hn, ?_⟩
  simp only [hboth, or_self, and_self] at hwalk hstep ⊢
  exact hwalk.snoc hstep

/-- A name that is none of a relation: the step follows all edges, and contributes `b`. -/
theorem unknown_name_searches_all : ¬∀ (cs : List GraphCall) (spec : QuerySpec), spec.text.1 ≠ [] →
    spec.relations ≠ [] →
    ∃ lists, graphStep (ofCalls cs) spec = some lists ∧ (lists.flatten.map (·.key)).Nodup ∧
      ∀ key, key ∈ lists.flatten.map (·.key) ↔ ∃ node : Str, node.1 = key ∧ node ≠ spec.text ∧
        ∃ n ≤ spec.maxDepth, Walk (Along (addedEdges cs) spec.Listed) n spec.text node := by
  intro h
  obtain ⟨lists, hrun, _, hkeys⟩ :=
    h callsThenTests ⟨⟨[97], rfl⟩, 1, ["uses"]⟩ (by simp) (by simp)
  have hb : [98] ∈ lists.flatten.map (·.key) := by
    have hstep : (graphStep (ofCalls callsThenTests) ⟨⟨[97], rfl⟩, 1, ["uses"]⟩).map
        (fun lists => lists.flatten.map (·.key)) = some [[98]] := by decide +kernel
    rw [hrun, Option.map_some, Option.some_inj] at hstep
    rw [hstep]
    exact List.mem_singleton.mpr rfl
  obtain ⟨node, _, hne, n, _, hwalk⟩ := (hkeys [98]).mp hb
  -- no edge has a listed name, so no walk leaves `a`
  refine hne (hwalk.eq_of_forall_not ?_)
  rintro c ⟨r, _, hlisted⟩
  cases r <;> simp [QuerySpec.Listed, Relation.asStr] at hlisted

end Uldb
