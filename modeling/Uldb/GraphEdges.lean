/-
The nodes and edges of a relation graph, by their names (`index/graph.rs`).

A graph that calls have built holds the names and the edges that they have added: the list of a
node has its edges in the order of the calls, in both directions (`holds_ofCalls`).
-/
import Uldb.DepthFirst

namespace Uldb

namespace RelationGraph

/-- The names that calls register. -/
def addedNodes (cs : List GraphCall) : List Str :=
  cs.flatMap fun c => match c with
    | .addNode key => [key]
    | .addEdge src dst _ => [src, dst]
    | .query => []

/-- The edges that calls add: source, target, relation. -/
def addedEdges (cs : List GraphCall) : List (Str × Str × Relation) :=
  cs.flatMap fun c => match c with
    | .addEdge src dst relation => [(src, dst, relation)]
    | _ => []

/-- An edge as it is followed in a direction. -/
def oriented (direction : String) (edge : Str × Str × Relation) : Str × Str × Relation :=
  if direction = "backward" then (edge.2.1, edge.1, edge.2.2) else edge

/-- The edges from a node in a direction, with their other ends. -/
def edgesAt (direction : String) (edges : List (Str × Str × Relation)) (key : Str) :
    List (Str × Relation) :=
  ((edges.map (oriented direction)).filter fun edge => edge.1 = key).map Prod.snd

/-- A list of edges with the names of the nodes that they lead to. -/
def named (keys : List Str) (out : List Edge) : List (Option Str × Relation) :=
  out.map fun e => (keys[e.dst]?, e.relation)

/-- The graph holds these names and these edges. -/
structure Holds (g : RelationGraph) (nodes : List Str) (edges : List (Str × Str × Relation)) :
    Prop where
  valid : g.Valid
  known : ∀ key, key ∈ g.idxToKey ↔ key ∈ nodes
  ends : ∀ edge ∈ edges, edge.1 ∈ nodes ∧ edge.2.1 ∈ nodes
  lists : ∀ (direction : String) (i : ℕ) (key : Str), g.idxToKey[i]? = some key →
    ∃ out, (g.adj direction)[i]? = some out ∧
      named g.idxToKey out = (edgesAt direction edges key).map fun t => (some t.1, t.2)

theorem holds_new : new.Holds [] [] where
  valid := valid_new
  known := by simp [new]
  ends := by simp
  lists := by simp [new]

/-- Names are found again in a longer numbering. -/
theorem named_append {keys : List Str} {out : List Edge} (hdst : ∀ e ∈ out, e.dst < keys.length)
    (more : List Str) : named (keys ++ more) out = named keys out := by
  refine List.map_congr_left fun e he => ?_
  rw [List.getElem?_append_left (hdst e he)]

theorem edgesAt_append (direction : String) (edges more : List (Str × Str × Relation)) (key : Str) :
    edgesAt direction (edges ++ more) key
      = edgesAt direction edges key ++ edgesAt direction more key := by
  rw [edgesAt, List.map_append, List.filter_append, List.map_append]
  rfl

theorem mem_edgesAt {direction : String} {edges : List (Str × Str × Relation)} {a b : Str}
    {relation : Relation} : (b, relation) ∈ edgesAt direction edges a ↔
      if direction = "backward" then (b, a, relation) ∈ edges else (a, b, relation) ∈ edges := by
  have hmem : (b, relation) ∈ edgesAt direction edges a ↔
      ∃ edge ∈ edges, oriented direction edge = (a, b, relation) := by
    simp only [edgesAt, List.mem_map, List.mem_filter, decide_eq_true_eq]
    constructor
    · rintro ⟨⟨a', t⟩, ⟨⟨edge, hedge, horiented⟩, rfl⟩, rfl⟩
      exact ⟨edge, hedge, horiented⟩
    · rintro ⟨edge, hedge, horiented⟩
      exact ⟨(a, b, relation), ⟨⟨edge, hedge, horiented⟩, rfl⟩, rfl⟩
  rw [hmem]
  by_cases hd : direction = "backward"
  · simp only [oriented, if_pos hd]
    constructor
    · rintro ⟨⟨src, dst, r⟩, hedge, heq⟩
      obtain ⟨rfl, rfl, rfl⟩ := (by simpa using heq : dst = a ∧ src = b ∧ r = relation)
      exact hedge
    · intro hedge
      exact ⟨_, hedge, rfl⟩
  · simp only [oriented, if_neg hd]
    constructor
    · rintro ⟨_, hedge, rfl⟩
      exact hedge
    · intro hedge
      exact ⟨_, hedge, rfl⟩

variable {g : RelationGraph} {nodes : List Str} {edges : List (Str × Str × Relation)}

/-- No edge leads from a name that is not there. -/
theorem Holds.edgesAt_eq_nil (hg : g.Holds nodes edges) (direction : String) {key : Str}
    (hkey : key ∉ nodes) : edgesAt direction edges key = [] := by
  refine List.eq_nil_iff_forall_not_mem.mpr fun ⟨b, relation⟩ hmem => hkey ?_
  rw [mem_edgesAt] at hmem
  split at hmem
  · exact (hg.ends _ hmem).2
  · exact (hg.ends _ hmem).1

theorem Holds.addNode (hg : g.Holds nodes edges) (key : Str) :
    (g.addNode key).1.Holds (nodes ++ [key]) edges := by
  have hends : ∀ edge ∈ edges, edge.1 ∈ nodes ++ [key] ∧ edge.2.1 ∈ nodes ++ [key] :=
    fun edge hedge => ⟨List.mem_append_left _ (hg.ends edge hedge).1,
      List.mem_append_left _ (hg.ends edge hedge).2⟩
  by_cases hkey : key ∈ g.idxToKey
  · obtain ⟨i, hi⟩ := List.getElem?_of_mem hkey
    -- the graph stays as it is, and the name was among the others
    rw [hg.valid.addNode_of_known hi]
    refine ⟨hg.valid, fun k => ?_, hends, hg.lists⟩
    rw [hg.known, List.mem_append, List.mem_singleton]
    constructor
    · exact fun hk => .inl hk
    · rintro (hk | rfl)
      · exact hk
      · exact (hg.known k).mp hkey
  · have hvalid := (hg.valid.addNode key).1
    have hnodes : ∀ k, k ∈ g.idxToKey ++ [key] ↔ k ∈ nodes ++ [key] := fun k => by
      rw [List.mem_append, hg.known, List.mem_append]
    rw [hg.valid.addNode_of_new hkey] at hvalid ⊢
    refine ⟨hvalid, hnodes, hends, fun direction i k hk => ?_⟩
    have hadj : RelationGraph.adj { g with
        keyToIdx := g.keyToIdx.insert key.1 g.idxToKey.length, idxToKey := g.idxToKey ++ [key],
        fwdAdj := g.fwdAdj ++ [[]], bwdAdj := g.bwdAdj ++ [[]], built := false } direction
          = g.adj direction ++ [[]] := by
      rw [RelationGraph.adj, RelationGraph.adj]
      split <;> rfl
    rw [hadj]
    rcases getElem?_concat_eq_some.mp hk with hold | ⟨rfl, rfl⟩
    · obtain ⟨out, hout, hnamed⟩ := hg.lists direction i k hold
      refine ⟨out, getElem?_concat_eq_some.mpr (.inl hout), ?_⟩
      rw [named_append (hg.valid.adj_lt direction out (List.mem_of_getElem? hout)), hnamed]
    · -- the new node has an empty list, and no edge has its name at an end
      refine ⟨[], ?_, ?_⟩
      · rw [← hg.valid.adj_length direction]
        exact List.getElem?_concat_length
      · rw [hg.edgesAt_eq_nil direction fun hmem => hkey ((hg.known key).mpr hmem)]
        rfl

/-- The two ends of an edge, as they are followed in a direction. -/
theorem adj_pushEdge (g : RelationGraph) (s d : ℕ) (relation : Relation) (direction : String) :
    (g.pushEdge s d relation).adj direction
      = (g.adj direction).modify (if direction = "backward" then d else s)
        (· ++ [⟨if direction = "backward" then s else d, relation⟩]) := by
  rw [RelationGraph.adj, RelationGraph.adj]
  by_cases hd : direction = "backward"
  · rw [if_pos hd, if_pos hd, if_pos hd, if_pos hd]
    rfl
  · rw [if_neg hd, if_neg hd, if_neg hd, if_neg hd]
    rfl

/-- A name has one number. -/
theorem Valid.index_unique (hg : g.Valid) {i j : ℕ} {key : Str} (hi : g.idxToKey[i]? = some key)
    (hj : g.idxToKey[j]? = some key) : i = j :=
  Option.some_inj.mp (((hg.index key.1 i).mpr ⟨key, hi, rfl⟩).symm.trans
    ((hg.index key.1 j).mpr ⟨key, hj, rfl⟩))

theorem Holds.pushEdge (hg : g.Holds nodes edges) {s d : ℕ} {src dst : Str}
    (hs : g.idxToKey[s]? = some src) (hd : g.idxToKey[d]? = some dst) (relation : Relation) :
    (g.pushEdge s d relation).Holds nodes (edges ++ [(src, dst, relation)]) := by
  have hlt : ∀ {i : ℕ} {key : Str}, g.idxToKey[i]? = some key → i < g.idxToKey.length :=
    fun h => (List.getElem?_eq_some_iff.mp h).1
  refine ⟨hg.valid.pushEdge (hlt hs) (hlt hd) relation, hg.known, fun edge hedge => ?_,
    fun direction i key hi => ?_⟩
  · rcases List.mem_append.mp hedge with hold | hnew
    · exact hg.ends edge hold
    · rw [List.mem_singleton.mp hnew, ← hg.known, ← hg.known]
      exact ⟨List.mem_of_getElem? hs, List.mem_of_getElem? hd⟩
  · -- the end where the edge is followed from, and the other one
    obtain ⟨a, b, horiented, ha, hb⟩ : ∃ a b, oriented direction (src, dst, relation)
        = (a, b, relation) ∧ g.idxToKey[if direction = "backward" then d else s]? = some a ∧
          g.idxToKey[if direction = "backward" then s else d]? = some b := by
      by_cases hdir : direction = "backward"
      · exact ⟨dst, src, if_pos hdir, by rw [if_pos hdir, hd], by rw [if_pos hdir, hs]⟩
      · exact ⟨src, dst, if_neg hdir, by rw [if_neg hdir, hs], by rw [if_neg hdir, hd]⟩
    have hone : edgesAt direction [(src, dst, relation)] key
        = if a = key then [(b, relation)] else [] := by
      rw [edgesAt, List.map_singleton, horiented]
      by_cases hk : a = key
      · simp [hk]
      · simp [hk]
    obtain ⟨out, hout, hnamed⟩ := hg.lists direction i key hi
    rw [adj_pushEdge, List.getElem?_modify, hout, edgesAt_append, hone, List.map_append, ← hnamed]
    simp only [Option.map_eq_map, Option.map_some]
    -- the list of `a` grows by one, and every other list stays
    by_cases hk : a = key
    · subst hk
      refine ⟨_, rfl, ?_⟩
      rw [if_pos (hg.valid.index_unique ha hi), if_pos rfl, named, List.map_append, ← named]
      show named g.idxToKey out ++ [(g.idxToKey[if direction = "backward" then s else d]?, relation)]
        = _
      rw [hb]
      rfl
    · have hne : (if direction = "backward" then d else s) ≠ i := by
        rintro rfl
        exact hk (Option.some_inj.mp (ha.symm.trans hi))
      refine ⟨_, rfl, ?_⟩
      rw [if_neg hne, if_neg hk, List.map_nil, List.append_nil]
      rfl

theorem Holds.addEdge (hg : g.Holds nodes edges) (src dst : Str) (relation : Relation) :
    (g.addEdge src dst relation).Holds (nodes ++ [src, dst]) (edges ++ [(src, dst, relation)]) := by
  have h₁ := hg.addNode src
  have h₂ := h₁.addNode dst
  obtain ⟨_, hsrc, _⟩ := hg.valid.addNode src
  obtain ⟨_, hdst, more, hmore⟩ := h₁.valid.addNode dst
  rw [List.append_assoc] at h₂
  refine h₂.pushEdge ?_ hdst relation
  -- the second name does not renumber the first
  rw [← hmore]
  exact List.getElem?_append_left (List.getElem?_eq_some_iff.mp hsrc).1 ▸ hsrc

theorem Holds.ensureBuilt (hg : g.Holds nodes edges) : g.ensureBuilt.Holds nodes edges := by
  have hadj : ∀ direction, g.ensureBuilt.adj direction = g.adj direction := by
    intro direction
    rw [RelationGraph.ensureBuilt]
    split <;> rfl
  refine ⟨hg.valid.ensureBuilt, ?_, hg.ends, fun direction i key hi => ?_⟩
  · rw [ensureBuilt_idxToKey]
    exact hg.known
  · rw [ensureBuilt_idxToKey] at hi ⊢
    rw [hadj]
    exact hg.lists direction i key hi

/-- **A graph holds what calls have added.** -/
theorem holds_ofCalls (cs : List GraphCall) : (ofCalls cs).Holds (addedNodes cs) (addedEdges cs) := by
  induction cs using List.reverseRecOn with
  | nil => exact holds_new
  | append_singleton cs c ih =>
    rw [ofCalls, List.foldl_append, ← ofCalls, addedNodes, List.flatMap_append, ← addedNodes,
      addedEdges, List.flatMap_append, ← addedEdges]
    cases c with
    | addNode key =>
      rw [List.flatMap_singleton, List.flatMap_singleton, List.append_nil]
      exact ih.addNode key
    | addEdge src dst relation => exact ih.addEdge src dst relation
    | query =>
      rw [List.flatMap_singleton, List.flatMap_singleton, List.append_nil, List.append_nil]
      exact ih.ensureBuilt

end RelationGraph

end Uldb
