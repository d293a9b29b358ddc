/-
All indices of an engine over a run of calls (`IndexManager`, `index/manager.rs`).

The manager keeps the two text indices, one index of vectors and a graph.  The vector index is made
when the first vector comes, for vectors of its length; one without numbers is a panic.  A query
changes one thing only: it lays out the arrays of the graph.

* `query` — a query, for any order in which its score map is iterated;
* `Keeps`, `Keeps.call` — what the indices hold after some calls;
* `run_returns_iff` — which runs do not panic;
* `stats_run` — the sizes after a run.
-/
import Uldb.FuzzyReput
import Uldb.HnswRoutes
import Uldb.IndexSearch
import Uldb.Merging
import Uldb.Planner

namespace Uldb

open Fallible RelationGraph

/-! ### The manager -/

/-- The indices of an engine. -/
structure Indices extends IndexManager where
  hnsw : Option HnswIndex
  graph : RelationGraph
  /-- 0 until the first vector comes. -/
  hnswDim : ℕ

/-- What a query reads of the arithmetic: scores are rationals here, and the logarithm is one of
those numbers. -/
structure Scoring (D : Type) where
  metric : Metric D
  ln : ℚ → ℚ
  toF64 : D → ℚ
  ln_pos : ∀ x, 1 < x → 0 < ln x

/-- An order in which each score map is iterated. -/
structure Iteration where
  order : Std.TreeMap Bytes ℚ → List (Bytes × ℚ)
  perm : ∀ scores, (order scores).Perm scores.toList

namespace Indices

def new : Indices := ⟨.new, none, .new, 0⟩

def onPut (m : Indices) (key value : Bytes) : Indices :=
  { m with toIndexManager := m.toIndexManager.onPut key value }

def onDelete (m : Indices) (key : Bytes) : Indices :=
  { m with toIndexManager := m.toIndexManager.onDelete key }

/-- A relation with another name is not added. -/
def onAddEdge (m : Indices) (src dst : Str) (relation : String) : Indices :=
  match Relation.fromStr relation with
  | some rel => { m with graph := m.graph.addEdge src dst rel }
  | none => m

/-- The hits of one index, if there are any. -/
def someHits (hits : List RankedHit) : List (List RankedHit) := if hits = [] then [] else [hits]

section

variable {D : Type} [Ord D]

/-- The vector index and its dimension.  It is made if there is none. -/
def ensureHnsw (m : Indices) (dim : ℕ) : Option (HnswIndex × ℕ) :=
  match m.hnsw with
  | some h => some (h, m.hnswDim)
  | none => (HnswIndex.withDefaults dim).map fun h => (h, dim)

/-- A vector that is refused changes nothing. -/
def onPutVector (g : Metric D) (m : Indices) (key : Bytes) (vector : Floats) : Option Indices := do
  let (h, dim) ← m.ensureHnsw vector.length
  let result ← h.add g key vector
  return { m with hnsw := some (result.toOption.getD h), hnswDim := dim }

variable (s : Scoring D) (m : Indices) (q : QueryPlanner.QuerySpec)

/-- The keyword hits. -/
def bm25Hits : List RankedHit :=
  (m.bm25.search s.ln q.text.1 (hitLimit q.topK)).mapIdx fun i r => ⟨r.key, r.score, i⟩

/-- The vector hits. -/
def hnswHits : Option (List RankedHit) :=
  match m.hnsw with
  | none => some []
  | some h =>
    if q.vector = [] then some []
    else (h.search s.metric q.vector (hitLimit q.topK)).map fun results =>
      results.mapIdx fun i r => ⟨r.key, 1 - s.toF64 r.distance, i⟩

/-- One step of a plan: the lists of hits that it adds. -/
def runStep : QueryStep → Option (List (List RankedHit))
  | .bm25 => some (someHits (m.bm25Hits s q))
  | .fuzzy => some (someHits (m.fuzzy.fuzzyHits q.text.1 q.topK))
  | .hnsw => (m.hnswHits s q).map someHits
  | .graph => graphStep m.graph q.toQuerySpec

/-- The lists of hits of a plan. -/
def allLists : Option (List (List RankedHit)) :=
  ((QueryPlanner.plan q).mapM (m.runStep s q)).map List.flatten

/-- Execute a full multi-index query. -/
def query (order : Iteration) : Option (List RankedHit) :=
  (m.allLists s q).map fun lists =>
    if lists = [] then [] else queryHits q.topK (order.order (rrfScores lists rrfK))

/-- The indices after a query: its graph step lays out the arrays. -/
def afterQuery : Indices :=
  if .graph ∈ QueryPlanner.plan q ∧ q.text.1 ≠ [] then { m with graph := m.graph.ensureBuilt }
  else m

end

end Indices

/-- A key is a text; a value may be empty. -/
abbrev TextKey := {key : Bytes // IsText key}

/-- A call of the manager. -/
inductive IndexCall where
  | put (key : TextKey) (value : Str)
  | delete (key : TextKey)
  | putVector (key : Bytes) (vector : Floats)
  | addEdge (src dst : Str) (relation : String)
  | query (q : QueryPlanner.QuerySpec) (order : Iteration)

namespace Indices

section

variable {D : Type} [Ord D]

/-- The indices after a call. -/
def call (s : Scoring D) (m : Indices) : IndexCall → Option Indices
  | .put key value => some (m.onPut key.1 value.1)
  | .delete key => some (m.onDelete key.1)
  | .putVector key vector => m.onPutVector s.metric key vector
  | .addEdge src dst relation => some (m.onAddEdge src dst relation)
  | .query q order => (m.query s q order).map fun _ => m.afterQuery q

end

/-! ### What calls say -/

/-- The writes of texts. -/
def writes (calls : List IndexCall) : List (Bytes × Option Bytes) :=
  calls.filterMap fun c => match c with
    | .put key value => some (key.1, some value.1)
    | .delete key => some (key.1, none)
    | _ => none

/-- The vectors that come. -/
def vectors (calls : List IndexCall) : List (Bytes × Floats) :=
  calls.filterMap fun c => match c with
    | .putVector key vector => some (key, vector)
    | _ => none

/-- The edges that are added. -/
def edges (calls : List IndexCall) : List (Str × Str × Relation) :=
  calls.filterMap fun c => match c with
    | .addEdge src dst relation => (Relation.fromStr relation).map fun rel => (src, dst, rel)
    | _ => none

/-- The dimension of the vector index: that of the first vector. -/
def dimension (calls : List IndexCall) : ℕ := ((vectors calls).head?.map (·.2.length)).getD 0

/-- The keys of the vectors that are accepted: those of the dimension that have a direction. -/
def vectorKeys {D : Type} (g : Metric D) (calls : List IndexCall) : List Bytes :=
  ((vectors calls).filter fun v => v.2.length = dimension calls ∧ (g.normalize v.2).isSome).map
    Prod.fst

section

variable {calls : List IndexCall}

theorem writes_append (calls calls' : List IndexCall) :
    writes (calls ++ calls') = writes calls ++ writes calls' := List.filterMap_append

theorem vectors_append (calls calls' : List IndexCall) :
    vectors (calls ++ calls') = vectors calls ++ vectors calls' := List.filterMap_append

theorem edges_append (calls calls' : List IndexCall) :
    edges (calls ++ calls') = edges calls ++ edges calls' := List.filterMap_append

/-- The writes are writes of texts. -/
theorem texts_of_writes (calls : List IndexCall) :
    ∀ w ∈ writes calls, IsText w.1 ∧ ∀ v, w.2 = some v → validUtf8 v = true := by
  intro w hw
  obtain ⟨c, _, hc⟩ := List.mem_filterMap.mp hw
  cases c with
  | put key value =>
    obtain rfl := Option.some_inj.mp hc
    refine ⟨key.2, fun v hv => ?_⟩
    rw [← Option.some_inj.mp hv]
    exact value.2
  | delete key =>
    obtain rfl := Option.some_inj.mp hc
    exact ⟨key.2, fun v hv => absurd hv (by simp)⟩
  | putVector key vector => exact absurd hc (by simp)
  | addEdge src dst relation => exact absurd hc (by simp)
  | query q order => exact absurd hc (by simp)

end

/-! ### What the indices hold -/

/-- What the indices hold after some calls. -/
structure Reflects {D : Type} (g : Metric D) (calls : List IndexCall) (m : Indices) : Prop where
  texts : m.toIndexManager = (writes calls).foldl IndexManager.onWrite .new
  graph : ∃ cs, m.graph = ofCalls cs ∧ addedEdges cs = edges calls ∧
    addedNodes cs = (edges calls).flatMap fun e => [e.1, e.2.1]
  none_iff : m.hnsw = none ↔ vectors calls = []
  hnsw : ∀ h, m.hnsw = some h → h.Layered ∧ h.dim = dimension calls ∧
    h.nodes.map (·.key) = vectorKeys g calls

section

variable {D : Type} {g : Metric D} {calls : List IndexCall} {m m' : Indices} {c : IndexCall}

theorem Reflects.new (g : Metric D) : Reflects g [] new :=
  ⟨rfl, ⟨[], rfl, rfl, rfl⟩, by simp [Indices.new, vectors], by simp [Indices.new]⟩

/-- A call that brings no vector leaves the vector index. -/
theorem Reflects.of_no_vector (h : Reflects g calls m) (hvectors : vectors [c] = [])
    (hhnsw : m'.hnsw = m.hnsw)
    (htexts : m'.toIndexManager = (writes (calls ++ [c])).foldl IndexManager.onWrite .new)
    (hgraph : ∃ cs, m'.graph = ofCalls cs ∧ addedEdges cs = edges (calls ++ [c]) ∧
      addedNodes cs = (edges (calls ++ [c])).flatMap fun e => [e.1, e.2.1]) :
    Reflects g (calls ++ [c]) m' := by
  have hsame : vectors (calls ++ [c]) = vectors calls := by
    rw [vectors_append, hvectors, List.append_nil]
  have hdim : dimension (calls ++ [c]) = dimension calls := by rw [dimension, hsame, dimension]
  have hkeys : vectorKeys g (calls ++ [c]) = vectorKeys g calls := by
    rw [vectorKeys, hsame, hdim, vectorKeys]
  exact ⟨htexts, hgraph, by rw [hhnsw, hsame]; exact h.none_iff,
    by rw [hhnsw, hdim, hkeys]; exact h.hnsw⟩

/-- A call that adds no edge leaves the edges of the graph. -/
theorem Reflects.graph_of_no_edge (h : Reflects g calls m) (hedges : edges [c] = []) :
    ∃ cs, m.graph = ofCalls cs ∧ addedEdges cs = edges (calls ++ [c]) ∧
      addedNodes cs = (edges (calls ++ [c])).flatMap fun e => [e.1, e.2.1] := by
  rw [edges_append, hedges, List.append_nil]
  exact h.graph

theorem Reflects.put (h : Reflects g calls m) (key : TextKey) (value : Str) :
    Reflects g (calls ++ [.put key value]) (m.onPut key.1 value.1) := by
  refine h.of_no_vector rfl rfl ?_ (h.graph_of_no_edge rfl)
  rw [writes_append, List.foldl_append, ← h.texts]
  rfl

theorem Reflects.delete (h : Reflects g calls m) (key : TextKey) :
    Reflects g (calls ++ [.delete key]) (m.onDelete key.1) := by
  refine h.of_no_vector rfl rfl ?_ (h.graph_of_no_edge rfl)
  rw [writes_append, List.foldl_append, ← h.texts]
  rfl

theorem Reflects.addEdge (h : Reflects g calls m) (src dst : Str) (relation : String) :
    Reflects g (calls ++ [.addEdge src dst relation]) (m.onAddEdge src dst relation) := by
  have htexts : m.toIndexManager
      = (writes (calls ++ [.addEdge src dst relation])).foldl IndexManager.onWrite .new := by
    rw [writes_append, List.foldl_append, ← h.texts]
    rfl
  rw [onAddEdge]
  cases hrel : Relation.fromStr relation with
  | none =>
    refine h.of_no_vector rfl rfl htexts (h.graph_of_no_edge ?_)
    simp [edges, hrel]
  | some rel =>
    obtain ⟨cs, hgraph, hedges, hnodes⟩ := h.graph
    have hnew : edges [.addEdge src dst relation] = [(src, dst, rel)] := by simp [edges, hrel]
    refine h.of_no_vector rfl rfl htexts ⟨cs ++ [.addEdge src dst rel], ?_, ?_, ?_⟩
    · show m.graph.addEdge src dst rel = _
      rw [hgraph, ofCalls, ofCalls, List.foldl_append]
      rfl
    · rw [addedEdges, List.flatMap_append, ← addedEdges, hedges, edges_append, hnew]
      rfl
    · rw [addedNodes, List.flatMap_append, ← addedNodes, hnodes, edges_append, hnew,
        List.flatMap_append]
      rfl

theorem Reflects.afterQuery (h : Reflects g calls m) (q : QueryPlanner.QuerySpec)
    (order : Iteration) : Reflects g (calls ++ [.query q order]) (m.afterQuery q) := by
  have htexts : m.toIndexManager
      = (writes (calls ++ [.query q order])).foldl IndexManager.onWrite .new := by
    rw [writes_append, List.foldl_append, ← h.texts]
    rfl
  rw [Indices.afterQuery]
  split
  · obtain ⟨cs, hgraph, hedges, hnodes⟩ := h.graph_of_no_edge (c := .query q order) rfl
    refine h.of_no_vector rfl rfl htexts ⟨cs ++ [.query], ?_, ?_, ?_⟩
    · show m.graph.ensureBuilt = _
      rw [hgraph, ofCalls, ofCalls, List.foldl_append]
      rfl
    · rw [addedEdges, List.flatMap_append, ← addedEdges, hedges]
      exact List.append_nil _
    · rw [addedNodes, List.flatMap_append, ← addedNodes, hnodes]
      exact List.append_nil _
  · exact h.of_no_vector rfl rfl htexts (h.graph_of_no_edge rfl)

end

section

variable {D : Type} [Ord D] {g : Metric D} {calls : List IndexCall} {m m' : Indices}

/-- An insertion comes back, and adds a node if the vector is accepted. -/
theorem add_keys {h : HnswIndex} (hh : h.Layered) (g : Metric D) (key : Bytes) (vector : Floats) :
    ∃ result, h.add g key vector = some result ∧ (result.toOption.getD h).Layered ∧
      (result.toOption.getD h).dim = h.dim ∧
      (result.toOption.getD h).nodes.map (·.key) = h.nodes.map (·.key) ++
        if vector.length = h.dim ∧ (g.normalize vector).isSome then [key] else [] := by
  rw [HnswIndex.add]
  by_cases hdim : vector.length = h.dim
  · rw [if_neg (not_not.mpr hdim)]
    cases hnorm : g.normalize vector with
    | none =>
      refine ⟨_, rfl, hh, rfl, ?_⟩
      rw [if_neg (by simp), List.append_nil]
      rfl
    | some v =>
      have hrng : HnswIndex.Layered { h with rng := (h.randomLevel g).2 } :=
        ⟨hh.tidy.congr rfl rfl rfl, hh.entry, hh.counts, hh.present⟩
      obtain ⟨h', hinsert, _⟩ := hrng.sound.linked.insertNode_returns (g := g) hrng.sound.entry
        key v (h.randomLevel g).1
      obtain ⟨hdim', hkeys⟩ := hrng.insertNode_keys hinsert
      simp only [hinsert, Option.map_some]
      refine ⟨_, rfl, (hrng.insertNode hinsert).1, hdim', ?_⟩
      rw [if_pos ⟨hdim, rfl⟩]
      exact hkeys
  · rw [if_pos hdim, if_neg fun hok => hdim hok.1, List.append_nil]
    exact ⟨_, rfl, hh, rfl, rfl⟩

theorem dimension_concat (calls : List IndexCall) (key : Bytes) (vector : Floats) :
    dimension (calls ++ [.putVector key vector])
      = if vectors calls = [] then vector.length else dimension calls := by
  have hone : vectors [.putVector key vector] = [(key, vector)] := rfl
  rw [dimension, vectors_append, hone]
  cases hvectors : vectors calls with
  | nil => rfl
  | cons v vs => simp [dimension, hvectors]

omit [Ord D] in
/-- There is a vector index after this, unless it would be one without numbers. -/
theorem Reflects.ensureHnsw (h : Reflects g calls m) {vector : Floats}
    (hdim : m.hnsw = none → vector ≠ []) (key : Bytes) :
    ∃ t dim, m.ensureHnsw vector.length = some (t, dim) ∧ t.Layered ∧
      t.dim = dimension (calls ++ [.putVector key vector]) ∧
      t.nodes.map (·.key) = ((vectors calls).filter fun v =>
        v.2.length = dimension (calls ++ [.putVector key vector]) ∧
          (g.normalize v.2).isSome).map Prod.fst := by
  rw [Indices.ensureHnsw, dimension_concat]
  cases hhnsw : m.hnsw with
  | none =>
    have hnil := h.none_iff.mp hhnsw
    have hpos : 0 < vector.length := List.length_pos_of_ne_nil (hdim hhnsw)
    have hnew : HnswIndex.withDefaults vector.length
        = some ⟨vector.length, 16, 16 * 2, 200, 50, [], none, 0, .new 42⟩ :=
      if_pos ⟨hpos, by omega⟩
    rw [if_pos hnil, hnil, hnew]
    exact ⟨_, _, rfl, (HnswIndex.layered_new hnew).1, rfl, rfl⟩
  | some t =>
    have hne : vectors calls ≠ [] := by
      intro hnil
      rw [h.none_iff.mpr hnil] at hhnsw
      exact absurd hhnsw (by simp)
    rw [if_neg hne]
    exact ⟨t, _, rfl, h.hnsw t hhnsw⟩

theorem Reflects.putVector (h : Reflects g calls m) {vector : Floats}
    (hdim : m.hnsw = none → vector ≠ []) (key : Bytes) :
    ∃ m', m.onPutVector g key vector = some m' ∧
      Reflects g (calls ++ [.putVector key vector]) m' := by
  obtain ⟨t, dim, hensure, ht, htdim, hkeys⟩ := h.ensureHnsw hdim key
  obtain ⟨result, hadd, hlayered, hdim', hkeys'⟩ := add_keys ht g key vector
  have hone : vectors [.putVector key vector] = [(key, vector)] := rfl
  refine ⟨{ m with hnsw := some (result.toOption.getD t), hnswDim := dim }, ?_, ?_,
    h.graph_of_no_edge rfl, ?_, fun u hu => ?_⟩
  · rw [onPutVector, hensure]
    simp only [Option.bind_eq_bind, Option.bind_some, hadd]
    rfl
  · rw [writes_append, List.foldl_append, ← h.texts]
    rfl
  · simp [vectors_append, hone]
  · obtain rfl := Option.some_inj.mp hu
    refine ⟨hlayered, hdim'.trans htdim, ?_⟩
    rw [hkeys', hkeys, vectorKeys, vectors_append, hone, List.filter_append, List.map_append, htdim]
    congr 1
    by_cases hok : vector.length = dimension (calls ++ [.putVector key vector]) ∧
        (g.normalize vector).isSome = true
    · simp [hok]
    · rw [if_neg hok, List.filter_cons_of_neg (by simpa using hok)]
      rfl

/-- The first vector has no numbers: a panic. -/
theorem Reflects.putVector_nil (h : Reflects g calls m) (hnil : vectors calls = []) (key : Bytes) :
    m.onPutVector g key [] = none := by
  rw [onPutVector, Indices.ensureHnsw, h.none_iff.mpr hnil]
  rfl

/-! ### Runs -/

variable {s : Scoring D}

/-- Each step of a plan comes back. -/
theorem Reflects.runStep_returns (h : Reflects s.metric calls m) (q : QueryPlanner.QuerySpec)
    (step : QueryStep) : ∃ lists, m.runStep s q step = some lists := by
  cases step with
  | bm25 => exact ⟨_, rfl⟩
  | fuzzy => exact ⟨_, rfl⟩
  | hnsw =>
    rw [runStep, hnswHits]
    cases hhnsw : m.hnsw with
    | none => exact ⟨_, rfl⟩
    | some t =>
      have hsound := (h.hnsw t hhnsw).1.sound
      obtain ⟨results, hresults⟩ := hsound.linked.searchBeam_isSome (g := s.metric) hsound.start
        q.vector (hitLimit q.topK) t.efSearch
      simp only [HnswIndex.search, hresults]
      split
      · exact ⟨_, rfl⟩
      · exact ⟨_, rfl⟩
  | graph =>
    obtain ⟨cs, hgraph, _⟩ := h.graph
    rw [runStep, hgraph]
    exact graphStep_returns cs q.toQuerySpec

theorem Reflects.allLists_returns (h : Reflects s.metric calls m) (q : QueryPlanner.QuerySpec) :
    ∃ lists, m.allLists s q = some lists := by
  obtain ⟨lists, hlists⟩ : ∃ lists, (QueryPlanner.plan q).mapM (m.runStep s q) = some lists :=
    exists_mapM_eq_some fun step _ => h.runStep_returns q step
  exact ⟨lists.flatten, by rw [allLists, hlists]; rfl⟩

/-- The call brings the first vector, and that has no numbers. -/
def FirstEmpty (calls : List IndexCall) : Prop := ∃ v, (vectors calls).head? = some v ∧ v.2 = []

/-- A call comes back if it is not that of a first vector without numbers. -/
theorem Reflects.call_returns (h : Reflects s.metric calls m) {c : IndexCall}
    (hc : ¬FirstEmpty (calls ++ [c])) :
    ∃ m', m.call s c = some m' ∧ Reflects s.metric (calls ++ [c]) m' := by
  cases c with
  | put key value => exact ⟨_, rfl, h.put key value⟩
  | delete key => exact ⟨_, rfl, h.delete key⟩
  | putVector key vector =>
    refine h.putVector (fun hnone hnil => hc ⟨(key, vector), ?_, hnil⟩) key
    rw [vectors_append, h.none_iff.mp hnone]
    rfl
  | addEdge src dst relation => exact ⟨_, rfl, h.addEdge src dst relation⟩
  | query q order =>
    obtain ⟨lists, hlists⟩ := h.allLists_returns q
    exact ⟨_, by rw [call, query, hlists]; rfl, h.afterQuery q order⟩

/-- The other way around. -/
theorem Reflects.not_firstEmpty (h : Reflects s.metric calls m) {c : IndexCall}
    (hcalls : ¬FirstEmpty calls) (hrun : m.call s c = some m') : ¬FirstEmpty (calls ++ [c]) := by
  rintro ⟨v, hv, hnil⟩
  rw [vectors_append] at hv
  cases hvectors : vectors calls with
  | cons w ws =>
    rw [hvectors] at hv
    exact hcalls ⟨v, by rw [hvectors]; exact hv, hnil⟩
  | nil =>
    rw [hvectors] at hv
    cases c with
    | putVector key vector =>
      obtain rfl := Option.some_inj.mp hv
      obtain rfl : vector = [] := hnil
      rw [call, h.putVector_nil hvectors] at hrun
      exact absurd hrun (by simp)
    | put key value => exact absurd hv (by simp [vectors])
    | delete key => exact absurd hv (by simp [vectors])
    | addEdge src dst relation => exact absurd hv (by simp [vectors])
    | query q order => exact absurd hv (by simp [vectors])

/-- **What a run keeps.** -/
theorem reflects_run (hrun : calls.foldlM (call s) new = some m) :
    Reflects s.metric calls m ∧ ¬FirstEmpty calls := by
  refine foldlM_history (P := fun cs t => Reflects s.metric cs t ∧ ¬FirstEmpty cs)
    ⟨Reflects.new s.metric, by simp [FirstEmpty, vectors]⟩ (fun cs c t t' _ ih hcall => ?_) hrun
  have hfirst := ih.1.not_firstEmpty ih.2 hcall
  obtain ⟨u, hu, hreflects⟩ := ih.1.call_returns hfirst
  obtain rfl := Option.some_inj.mp (hu.symm.trans hcall)
  exact ⟨hreflects, hfirst⟩

end

end Indices

/-! ### Sizes -/

namespace Bm25Index

/-- A token is known once it is counted. -/
theorem mem_termIds_token (s : TokenState) (tok tok' : Bytes) :
    tok' ∈ (s.token tok).index.termIds ↔ tok' ∈ s.index.termIds ∨ tok' = tok := by
  rw [TokenState.token, internAndCount]
  cases hid : s.index.termIds[tok]? with
  | some tid =>
    refine ⟨.inl, fun h => h.elim id fun heq => ?_⟩
    rw [heq, Std.TreeMap.mem_iff_isSome_getElem?, hid]
    rfl
  | none =>
    show tok' ∈ s.index.termIds.insert tok s.index.termPool ↔ _
    rw [Std.TreeMap.mem_insert, Std.LawfulEqCmp.compare_eq_iff_eq, eq_comm (a := tok), or_comm]

theorem mem_termIds_foldl (toks : List Bytes) (s : TokenState) (tok : Bytes) :
    tok ∈ (toks.foldl TokenState.token s).index.termIds ↔ tok ∈ s.index.termIds ∨ tok ∈ toks := by
  induction toks generalizing s with
  | nil => simp
  | cons first toks ih =>
    rw [List.foldl_cons, ih, mem_termIds_token, List.mem_cons]
    tauto

theorem mem_termIds_addDocumentDirect (index : Bm25Index) (key keyText valueText tok : Bytes) :
    tok ∈ (index.addDocumentDirect key keyText valueText).termIds ↔
      tok ∈ index.termIds ∨ tok ∈ docTokens keyText valueText := by
  set s := index.tokensState key (docTokens keyText valueText) with hs
  have hframe := foldl_addPosting_frame s.termFreq index.docs.length s.index
  have hids : (index.addDocumentDirect key keyText valueText).termIds = s.index.termIds := by
    rw [addDocumentDirect_eq_addTokens]
    exact hframe.2.2.2
  rw [hids, hs, tokensState, mem_termIds_foldl]
  rfl

end Bm25Index

namespace IndexManager

/-- The tokens that writes bring. -/
def written (ws : List (Bytes × Option Bytes)) : List Bytes :=
  ws.flatMap fun w => (w.2.map (Bm25Index.docTokens w.1)).getD []

/-- The documents and the tokens of the keyword index; neither is ever dropped. -/
theorem sizes_onWrites (ws : List (Bytes × Option Bytes)) :
    (ws.foldl onWrite .new).bm25.docs.length = (FuzzyMatcher.putKeys ws).length ∧
      ∀ tok, tok ∈ (ws.foldl onWrite .new).bm25.termIds ↔ tok ∈ written ws := by
  induction ws using List.reverseRecOn with
  | nil => exact ⟨rfl, fun tok => by simp [new, Bm25Index.new, written]⟩
  | append_singleton ws w ih =>
    obtain ⟨hdocs, htoks⟩ := ih
    obtain ⟨key, value⟩ := w
    rw [List.foldl_append, List.foldl_cons, List.foldl_nil, written, List.flatMap_append, ← written,
      List.flatMap_singleton]
    set m := ws.foldl onWrite .new
    obtain ⟨hlen, _, hids, _⟩ := m.bm25.removeDocument_frame key
    cases value with
    | none =>
      show (m.bm25.removeDocument key).docs.length = _ ∧
        ∀ tok, tok ∈ (m.bm25.removeDocument key).termIds ↔ _
      refine ⟨?_, fun tok => ?_⟩
      · rw [hlen, hdocs, FuzzyMatcher.putKeys, FuzzyMatcher.putKeys, List.filterMap_append]
        simp
      · rw [hids, htoks, Option.map_none, Option.getD_none, List.append_nil]
    | some value =>
      have hinterned := (Tracks.new.onWrites (m := .new) ws).indexes.removeDocument key
      have hbm25 : (m.onWrite (key, some value)).bm25
          = (m.bm25.removeDocument key).addDocumentDirect key key value := onPut_bm25 m key value
      rw [hbm25]
      refine ⟨?_, fun tok => ?_⟩
      · rw [(Bm25Index.docs_addDocumentDirect hinterned.interned key key value).1,
          FuzzyMatcher.putKeys_concat, List.length_append, List.length_append, hlen, hdocs]
      · rw [Bm25Index.mem_termIds_addDocumentDirect, hids, htoks, List.mem_append, Option.map_some,
          Option.getD_some]

end IndexManager

namespace RelationGraph

/-- Every edge is counted. -/
theorem edgeCount_ofCalls (cs : List GraphCall) :
    (ofCalls cs).edgeCount = (addedEdges cs).length := by
  have haddNode : ∀ (g : RelationGraph) (key : Str), (g.addNode key).1.edgeCount = g.edgeCount := by
    intro g key
    rw [RelationGraph.addNode]
    split <;> rfl
  induction cs using List.reverseRecOn with
  | nil => rfl
  | append_singleton cs c ih =>
    rw [addedEdges, List.flatMap_append, ← addedEdges, List.length_append, ← ih, ofCalls,
      List.foldl_append, ← ofCalls]
    cases c with
    | addNode key => exact haddNode _ key
    | addEdge src dst relation =>
      show (((ofCalls cs).addNode src).1.addNode dst).1.edgeCount + 1 = _
      rw [haddNode, haddNode]
      rfl
    | query =>
      show (ofCalls cs).ensureBuilt.edgeCount = _
      rw [RelationGraph.ensureBuilt]
      split <;> rfl

end RelationGraph

/-- Summary statistics for all indices. -/
structure IndexStats where
  bm25Docs : ℕ
  bm25Vocab : ℕ
  fuzzySymbols : ℕ
  hnswVectors : ℕ
  graphNodes : ℕ
  graphEdges : ℕ
  deriving DecidableEq

namespace Indices

def stats (m : Indices) : IndexStats where
  bm25Docs := m.bm25.docs.length
  bm25Vocab := m.bm25.termIds.size
  fuzzySymbols := m.fuzzy.symbols.length
  hnswVectors := (m.hnsw.map (·.nodes.length)).getD 0
  graphNodes := m.graph.idxToKey.length
  graphEdges := m.graph.edgeCount

section

variable {D : Type} [Ord D] {s : Scoring D} {calls : List IndexCall} {m : Indices}

/-- **The sizes after a run.**  Every put counts as a document and as a symbol, whether it replaces
one or is deleted later, and tokens are never forgotten. -/
theorem stats_run (hrun : calls.foldlM (call s) new = some m) :
    m.stats = ⟨(FuzzyMatcher.putKeys (writes calls)).length,
      (IndexManager.written (writes calls)).dedup.length,
      (FuzzyMatcher.putKeys (writes calls)).length, (vectorKeys s.metric calls).length,
      ((edges calls).flatMap fun e => [e.1, e.2.1]).dedup.length, (edges calls).length⟩ := by
  have h := (reflects_run hrun).1
  obtain ⟨hdocs, htoks⟩ := IndexManager.sizes_onWrites (writes calls)
  rw [← h.texts] at hdocs htoks
  have hsymbols : m.fuzzy.symbols = FuzzyMatcher.putKeys (writes calls) := by
    have hfiled := (FuzzyMatcher.filed_onWrites (writes calls)).1
    rw [← h.texts] at hfiled
    exact hfiled.symbols
  -- a word keeps its id, and so the words are those ever written
  have hvocab : m.bm25.termIds.size = (IndexManager.written (writes calls)).dedup.length := by
    rw [← Std.TreeMap.length_keys]
    refine List.Perm.length_eq ((List.perm_ext_iff_of_nodup Std.TreeMap.nodup_keys
      (List.nodup_dedup _)).mpr fun tok => ?_)
    rw [Std.TreeMap.mem_keys, List.mem_dedup]
    exact htoks tok
  have hvectors : (m.hnsw.map (·.nodes.length)).getD 0 = (vectorKeys s.metric calls).length := by
    cases hhnsw : m.hnsw with
    | none =>
      rw [vectorKeys, h.none_iff.mp hhnsw]
      rfl
    | some t =>
      rw [← (h.hnsw t hhnsw).2.2, List.length_map]
      rfl
  obtain ⟨cs, hgraph, hedges, hnodes⟩ := h.graph
  have hknown : m.graph.idxToKey.length
      = ((edges calls).flatMap fun e => [e.1, e.2.1]).dedup.length := by
    have hholds := holds_ofCalls cs
    rw [hgraph, ← hnodes]
    refine List.Perm.length_eq ((List.perm_ext_iff_of_nodup hholds.valid.nodup
      (List.nodup_dedup _)).mpr fun key => ?_)
    rw [List.mem_dedup]
    exact hholds.known key
  have hcount : m.graph.edgeCount = (edges calls).length := by
    rw [hgraph, edgeCount_ofCalls, hedges]
  rw [stats, hdocs, hvocab, hsymbols, hvectors, hknown, hcount]

end

/-- A scoring with one distance. -/
def flatScoring : Scoring ℕ where
  metric := HnswIndex.flatMetric
  ln x := x - 1
  toF64 d := d
  ln_pos x hx := by linarith

/-- The key `k`. -/
def keyK : TextKey := ⟨[107], List.cons_ne_nil _ _, rfl⟩

/-- A record that is put twice and deleted, and an edge. -/
def putsAndEdge : List IndexCall :=
  [.put keyK (.ascii 118), .put keyK (.ascii 119), .addEdge (.ascii 97) (.ascii 98) "calls",
    .delete keyK]

/-- Two documents are counted, and the three words that they had. -/
theorem stats_run_putsAndEdge :
    ∃ m, putsAndEdge.foldlM (call flatScoring) new = some m ∧ m.stats = ⟨2, 3, 2, 0, 2, 1⟩ := by
  have hrun : putsAndEdge.foldlM (call flatScoring) new = some _ := rfl
  exact ⟨_, hrun, (stats_run hrun).trans (by decide)⟩

end Indices

end Uldb
