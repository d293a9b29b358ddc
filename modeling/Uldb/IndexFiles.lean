/-
The vector index and the graph over many sessions (`Engine::open`, `Engine::close`).

Both indices are saved when an engine is closed, and read when it is opened; a session that
ends without a close leaves the files of the last one that was closed.  The text indices come
from the log, and the generator of levels starts again.

* `insertNode_frame` — an insertion keeps the parameters, and adds one vector;
* `SameForward` — graphs with the same nodes and forward lists;
* `endSession` — one session, on the files of the sessions before it;
* `restarts_invisible` — any number of sessions is like one session with the calls of those
  that were closed.
-/
import Uldb.GraphFile
import Uldb.HnswFile
import Uldb.Indices

namespace Uldb

open Fallible RelationGraph

/-! ### The vectors of an index -/

namespace HnswIndex

/-- The keys and vectors, in the order of their insertion. -/
def stored (h : HnswIndex) : List (Bytes × Floats) := h.nodes.map fun n => (n.key, n.vector)

/-- The parameters. -/
def params (h : HnswIndex) : ℕ × ℕ × ℕ × ℕ := (h.dim, h.m, h.efBuild, h.efSearch)

/-- The index afterwards differs in its links at most. -/
structure Frames (h h' : HnswIndex) : Prop where
  params : h'.params = h.params
  stored : h'.stored = h.stored

section

variable {D : Type} {g : Metric D} {h h' : HnswIndex}

theorem Frames.refl (h : HnswIndex) : h.Frames h := ⟨rfl, rfl⟩

theorem Frames.trans {h'' : HnswIndex} (h₁ : h.Frames h') (h₂ : h'.Frames h'') : h.Frames h'' :=
  ⟨h₂.params.trans h₁.params, h₂.stored.trans h₁.stored⟩

theorem frames_modifyLists (h : HnswIndex) (node : ℕ) (f : List (List ℕ) → List (List ℕ)) :
    h.Frames (h.modifyLists node f) := ⟨rfl, (relinked_modifyLists node f).nodes⟩

end

section

variable {D : Type} [Ord D] {g : Metric D} {h h' : HnswIndex}

theorem frames_linkBack {newIdx layer mMax nb : ℕ}
    (hrun : linkBack g newIdx layer mMax h nb = some h') : h.Frames h' := by
  obtain ⟨node, _, hrun⟩ := Option.bind_eq_some_iff.mp hrun
  obtain ⟨list, _, hrun⟩ := Option.bind_eq_some_iff.mp hrun
  set t := h.padLayers nb layer with ht
  have hpad : h.Frames t := frames_modifyLists h nb _
  generalize (if newIdx ∈ list then list else list ++ [newIdx]) = linked at hrun
  simp only at hrun
  split at hrun
  · obtain ⟨pruned, _, hrun⟩ := Option.bind_eq_some_iff.mp hrun
    rw [← Option.some_inj.mp hrun]
    exact (hpad.trans (frames_modifyLists t nb _)).trans (frames_modifyLists _ nb _)
  · rw [← Option.some_inj.mp hrun]
    exact hpad.trans (frames_modifyLists t nb _)

theorem frames_connectLayer {newIdx layer ep ep' : ℕ}
    (hrun : connectLayer g newIdx (h, ep) layer = some (h', ep')) : h.Frames h' := by
  obtain ⟨_, selected, _, _, hlinks, _⟩ := connectLayer_eq_some hrun
  refine foldlM_induction hlinks (P := fun t => h.Frames t) (frames_modifyLists h newIdx _) ?_
  intro nb _ t t' ht hlink
  exact ht.trans (frames_linkBack hlink)

/-- An insertion keeps the parameters, and adds one vector. -/
theorem insertNode_frame {key : Bytes} {vector : Floats} {level : ℕ}
    (hrun : h.insertNode g key vector level = some h') :
    h'.params = h.params ∧ h'.stored = h.stored ++ [(key, vector)] := by
  have hpush : (h.pushNode key vector level).stored = h.stored ++ [(key, vector)] := by
    rw [stored, pushNode, List.map_append]
    rfl
  cases hpoint : h.entryPoint with
  | none =>
    have hsame : (h.pushNode key vector level).entryPoint = none := hpoint
    rw [insertNode] at hrun
    simp only [hsame] at hrun
    rw [← Option.some_inj.mp hrun]
    exact ⟨rfl, hpush⟩
  | some ep =>
    obtain ⟨ep', t, ep'', _, hlinks, rfl⟩ := insertNode_eq_some hpoint hrun
    have hframes : (h.pushNode key vector level).Frames t := by
      refine foldlM_induction hlinks
        (P := fun s => (h.pushNode key vector level).Frames s.1) (Frames.refl _) ?_
      rintro layer _ ⟨u, ep⟩ ⟨u', ep'⟩ hu hconnect
      exact hu.trans (frames_connectLayer hconnect)
    split
    · exact ⟨hframes.params, hframes.stored.trans hpush⟩
    · exact ⟨hframes.params, hframes.stored.trans hpush⟩

end

end HnswIndex

/-! ### Graphs with the same forward lists -/

namespace RelationGraph

/-- The graphs have the same nodes and forward lists.  The lists into a node may differ in
their order. -/
structure SameForward (g g' : RelationGraph) : Prop where
  valid : g.Valid
  valid' : g'.Valid
  idxToKey : g.idxToKey = g'.idxToKey
  fwdAdj : g.fwdAdj = g'.fwdAdj

section

variable {g g' : RelationGraph}

theorem SameForward.refl (hg : g.Valid) : SameForward g g := ⟨hg, hg, rfl, rfl⟩

theorem SameForward.keyToIdx (h : SameForward g g') (key : Bytes) :
    g.keyToIdx[key]? = g'.keyToIdx[key]? := keyToIdx_congr h.valid' h.valid h.idxToKey key

theorem SameForward.edgeCount (h : SameForward g g') : g.edgeCount = g'.edgeCount := by
  rw [h.valid.count, h.valid'.count, h.fwdAdj]

theorem SameForward.ensureBuilt (h : SameForward g g') :
    SameForward g.ensureBuilt g'.ensureBuilt := by
  have hlists : ∀ g : RelationGraph,
      g.ensureBuilt.idxToKey = g.idxToKey ∧ g.ensureBuilt.fwdAdj = g.fwdAdj := by
    intro g
    rw [RelationGraph.ensureBuilt]
    split
    · exact ⟨rfl, rfl⟩
    · exact ⟨rfl, rfl⟩
  obtain ⟨hidx, hfwd⟩ := hlists g
  obtain ⟨hidx', hfwd'⟩ := hlists g'
  refine ⟨h.valid.ensureBuilt, h.valid'.ensureBuilt, ?_, ?_⟩
  · rw [hidx, hidx', h.idxToKey]
  · rw [hfwd, hfwd', h.fwdAdj]

/-- A node gets the same number in both. -/
theorem SameForward.addNode (h : SameForward g g') (key : Str) :
    SameForward (g.addNode key).1 (g'.addNode key).1 ∧
      (g.addNode key).2 = (g'.addNode key).2 := by
  have hvalid := (h.valid.addNode key).1
  have hvalid' := (h.valid'.addNode key).1
  have hkey := h.keyToIdx key.1
  by_cases hknown : key ∈ g.idxToKey
  · obtain ⟨i, hi⟩ := List.getElem?_of_mem hknown
    have hi' : g'.idxToKey[i]? = some key := by rw [← h.idxToKey, hi]
    rw [h.valid.addNode_of_known hi, h.valid'.addNode_of_known hi']
    exact ⟨h, rfl⟩
  · have hknown' : key ∉ g'.idxToKey := by rwa [← h.idxToKey]
    rw [h.valid.addNode_of_new hknown] at hvalid ⊢
    rw [h.valid'.addNode_of_new hknown'] at hvalid' ⊢
    refine ⟨⟨hvalid, hvalid', ?_, ?_⟩, ?_⟩
    · show g.idxToKey ++ [key] = g'.idxToKey ++ [key]
      rw [h.idxToKey]
    · show g.fwdAdj ++ [[]] = g'.fwdAdj ++ [[]]
      rw [h.fwdAdj]
    · show g.idxToKey.length = g'.idxToKey.length
      rw [h.idxToKey]

theorem SameForward.addEdge (h : SameForward g g') (src dst : Str) (relation : Relation) :
    SameForward (g.addEdge src dst relation) (g'.addEdge src dst relation) := by
  obtain ⟨h₁, hsrc⟩ := h.addNode src
  obtain ⟨h₂, hdst⟩ := h₁.addNode dst
  refine ⟨h.valid.addEdge src dst relation, h.valid'.addEdge src dst relation, h₂.idxToKey, ?_⟩
  show ((g.addNode src).1.addNode dst).1.fwdAdj.modify (g.addNode src).2
      (· ++ [⟨((g.addNode src).1.addNode dst).2, relation⟩])
    = ((g'.addNode src).1.addNode dst).1.fwdAdj.modify (g'.addNode src).2
      (· ++ [⟨((g'.addNode src).1.addNode dst).2, relation⟩])
  rw [hsrc, hdst, h₂.fwdAdj]

theorem SameForward.bfs (h : SameForward g g') (start : Str) {direction : String}
    (hdir : direction ≠ "backward") (maxDepth : ℕ) (relationFilter : Option Relation) :
    g.bfs start direction maxDepth relationFilter
      = g'.bfs start direction maxDepth relationFilter :=
  bfs_congr h.valid' h.valid h.idxToKey h.keyToIdx h.fwdAdj hdir start maxDepth relationFilter

/-- A graph that is read back has the same nodes and forward lists. -/
theorem sameForward_rebuild (hg : g.Valid) :
    SameForward (rebuild g.idxToKey (edgeList g.fwdAdj)) g := by
  obtain ⟨hvalid, hidx, hfrom⟩ := rebuild_spec hg.nodup fun edge hedge => hg.edgeList_lt hedge
  refine ⟨hvalid, hg, hidx, List.ext_getElem? fun i => ?_⟩
  by_cases hi : i < g.idxToKey.length
  · have hi' : i < g.fwdAdj.length := hg.fwd_length ▸ hi
    rw [hfrom i hi, List.getElem?_eq_getElem hi',
      edgesFrom_edgeList (List.getElem?_eq_getElem hi')]
  · rw [List.getElem?_eq_none (by rw [hvalid.fwd_length, hidx]; omega),
      List.getElem?_eq_none (by rw [hg.fwd_length]; omega)]

end

end RelationGraph

/-! ### Files and sessions -/

/-- The index files of a data directory. -/
structure IndexFiles where
  hnsw : Option Bytes
  graph : Option Bytes

/-- One session: what the log brings, the calls, and whether it ends with a close. -/
structure IndexSession where
  texts : IndexManager
  calls : List IndexCall
  closed : Bool

namespace Indices

/-- The indices of an engine that is opened.  A file that cannot be read is as if it were not
there. -/
def load (files : IndexFiles) (texts : IndexManager) : Indices where
  toIndexManager := texts
  hnsw := files.hnsw.bind fun data => (HnswIndex.deserialize data).toOption
  graph := (files.graph.bind fun data => (RelationGraph.deserialize data).toOption).getD .new
  hnswDim := 0

/-- The files after a close. -/
def save (m : Indices) (files : IndexFiles) : IndexFiles where
  hnsw := match m.hnsw with
    | some h => some h.serialize
    | none => files.hnsw
  graph :=
    if m.graph.serialize ≠ [] ∧ 0 < m.graph.idxToKey.length then some m.graph.serialize
    else files.graph

/-- The files after a session; none where a call panics. -/
def endSession {D : Type} [Ord D] (s : Scoring D) (files : IndexFiles) (session : IndexSession) :
    Option IndexFiles :=
  (session.calls.foldlM (call s) (load files session.texts)).map fun m =>
    if session.closed then m.save files else files

/-- The calls of the sessions that were closed. -/
def closedCalls (sessions : List IndexSession) : List IndexCall :=
  (sessions.filter (·.closed)).flatMap (·.calls)

/-- The vectors that are accepted, normalized, with their keys. -/
def acceptedVectors {D : Type} (g : Metric D) (calls : List IndexCall) : List (Bytes × Floats) :=
  (vectors calls).filterMap fun v =>
    if v.2.length = dimension calls then (g.normalize v.2).map fun w => (v.1, w) else none

end Indices

/-- The lengths in the call fit into the fields of the files. -/
def IndexCall.Small : IndexCall → Prop
  | .putVector key vector => key.length < 2 ^ 32 ∧ vector.length < 2 ^ 32
  | .addEdge src dst _ => src.1.length < 2 ^ 32 ∧ dst.1.length < 2 ^ 32
  | .put _ _ | .delete _ | .query _ _ => True

namespace Indices

/-! ### The vector index -/

/-- What a vector index holds after some calls. -/
structure Stores {D : Type} (g : Metric D) (calls : List IndexCall) (o : Option HnswIndex) :
    Prop where
  none_iff : o = none ↔ vectors calls = []
  layered : ∀ h, o = some h → h.Layered ∧ h.Valid
  params : ∀ h, o = some h → h.params = (dimension calls, 16, 200, 50)
  stored : ∀ h, o = some h → h.stored = acceptedVectors g calls

section

variable {D : Type} {g : Metric D} {calls : List IndexCall} {o : Option HnswIndex}

theorem Stores.of_no_vector (h : Stores g calls o) {c : IndexCall} (hvectors : vectors [c] = []) :
    Stores g (calls ++ [c]) o := by
  have hsame : vectors (calls ++ [c]) = vectors calls := by
    rw [vectors_append, hvectors, List.append_nil]
  have hdim : dimension (calls ++ [c]) = dimension calls := by rw [dimension, hsame, dimension]
  have haccepted : acceptedVectors g (calls ++ [c]) = acceptedVectors g calls := by
    rw [acceptedVectors, hsame, hdim, acceptedVectors]
  refine ⟨by rw [hsame]; exact h.none_iff, h.layered, ?_, ?_⟩
  · rw [hdim]
    exact h.params
  · rw [haccepted]
    exact h.stored

/-- The generator of levels does not matter. -/
theorem Stores.reseeded {h : HnswIndex} (hh : Stores g calls (some h)) (rng : Rng) :
    Stores g calls (some { h with rng := rng }) := by
  obtain ⟨hlayered, hvalid⟩ := hh.layered h rfl
  refine ⟨⟨fun hnone => absurd hnone (by simp), fun hnil => ?_⟩, fun t ht => ?_, fun t ht => ?_,
    fun t ht => ?_⟩
  · exact absurd (hh.none_iff.mpr hnil) (by simp)
  · rw [← Option.some_inj.mp ht]
    exact ⟨⟨hlayered.tidy.congr rfl rfl rfl, hlayered.entry, hlayered.counts, hlayered.present⟩,
      ⟨hvalid.m0, hvalid.level, hvalid.entry, hvalid.vector, hvalid.layers, hvalid.nodup, hvalid.lt⟩⟩
  · rw [← Option.some_inj.mp ht]
    exact hh.params h rfl
  · rw [← Option.some_inj.mp ht]
    exact hh.stored h rfl

end

section

variable {D : Type} [Ord D] {g : Metric D} {calls : List IndexCall}

/-- An insertion adds the vector if it is accepted. -/
theorem add_stored {h : HnswIndex} {key : Bytes} {vector : Floats}
    {result : Except String HnswIndex} (hh : h.Layered) (hvalid : h.Valid)
    (hrun : h.add g key vector = some result) :
    ((result.toOption.getD h).Layered ∧ (result.toOption.getD h).Valid) ∧
      (result.toOption.getD h).params = h.params ∧
      (result.toOption.getD h).stored = h.stored ++
        if vector.length = h.dim then ((g.normalize vector).map fun w => (key, w)).toList else [] := by
  obtain ⟨result', hadd, hlayered, _⟩ := add_keys hh g key vector
  obtain rfl : result' = result := Option.some_inj.mp (hadd.symm.trans hrun)
  have hvalid' : (result'.toOption.getD h).Valid := by
    cases result' with
    | error e => exact hvalid
    | ok h' => exact (hvalid.add hrun).1
  refine ⟨⟨hlayered, hvalid'⟩, ?_⟩
  rw [HnswIndex.add] at hrun
  by_cases hdim : vector.length = h.dim
  · rw [if_neg (not_not.mpr hdim)] at hrun
    rw [if_pos hdim]
    cases hnorm : g.normalize vector with
    | none =>
      rw [hnorm] at hrun
      rw [← Option.some_inj.mp hrun]
      exact ⟨rfl, (List.append_nil _).symm⟩
    | some w =>
      simp only [hnorm] at hrun
      obtain ⟨h', hinsert, rfl⟩ := Option.map_eq_some_iff.mp hrun
      obtain ⟨hparams, hstored⟩ := HnswIndex.insertNode_frame hinsert
      exact ⟨hparams, hstored⟩
  · rw [if_pos hdim] at hrun
    rw [if_neg hdim, List.append_nil, ← Option.some_inj.mp hrun]
    exact ⟨rfl, rfl⟩

theorem Stores.putVector {m m' : Indices} (h : Stores g calls m.hnsw) {key : Bytes}
    {vector : Floats} (hcall : m.onPutVector g key vector = some m') :
    Stores g (calls ++ [.putVector key vector]) m'.hnsw := by
  obtain ⟨⟨t, dim⟩, hensure, hcall⟩ := Option.bind_eq_some_iff.mp hcall
  obtain ⟨result, hadd, hcall⟩ := Option.bind_eq_some_iff.mp hcall
  obtain rfl := Option.some_inj.mp hcall
  have hone : vectors [.putVector key vector] = [(key, vector)] := rfl
  have haccepted : acceptedVectors g (calls ++ [.putVector key vector])
      = (vectors calls).filterMap (fun v =>
          if v.2.length = dimension (calls ++ [.putVector key vector]) then
            (g.normalize v.2).map fun w => (v.1, w) else none) ++
        if vector.length = dimension (calls ++ [.putVector key vector]) then
          ((g.normalize vector).map fun w => (key, w)).toList else [] := by
    rw [acceptedVectors, vectors_append, hone, List.filterMap_append]
    congr 1
    rw [List.filterMap_cons, List.filterMap_nil]
    by_cases hdim : vector.length = dimension (calls ++ [.putVector key vector])
    · rw [if_pos hdim, if_pos hdim]
      cases g.normalize vector <;> rfl
    · rw [if_neg hdim, if_neg hdim]
  -- the index before the insertion: the one of the earlier vectors, or a new one
  have hbefore : (t.Layered ∧ t.Valid) ∧
      t.params = (dimension (calls ++ [.putVector key vector]), 16, 200, 50) ∧
      t.stored = (vectors calls).filterMap fun v =>
        if v.2.length = dimension (calls ++ [.putVector key vector]) then
          (g.normalize v.2).map fun w => (v.1, w) else none := by
    rw [dimension_concat]
    rw [Indices.ensureHnsw] at hensure
    cases hhnsw : m.hnsw with
    | some u =>
      rw [hhnsw] at hensure h
      obtain ⟨rfl, -⟩ := Prod.mk.inj (Option.some_inj.mp hensure)
      have hne : vectors calls ≠ [] := fun hnil => absurd (h.none_iff.mpr hnil) (by simp)
      rw [if_neg hne]
      exact ⟨h.layered u rfl, h.params u rfl, h.stored u rfl⟩
    | none =>
      rw [hhnsw] at hensure h
      have hnil : vectors calls = [] := h.none_iff.mp rfl
      obtain ⟨u, hnew, heq⟩ := Option.map_eq_some_iff.mp hensure
      obtain ⟨rfl, -⟩ := Prod.mk.inj heq
      rw [if_pos hnil, hnil]
      refine ⟨⟨(HnswIndex.layered_new hnew).1, HnswIndex.valid_new hnew⟩, ?_⟩
      rw [HnswIndex.withDefaults, HnswIndex.new] at hnew
      split at hnew
      · rw [← Option.some_inj.mp hnew]
        exact ⟨rfl, rfl⟩
      · exact absurd hnew (by simp)
  obtain ⟨⟨hlayered, hvalid⟩, hparams, hstored⟩ := hbefore
  obtain ⟨hkept, hparams', hstored'⟩ := add_stored hlayered hvalid hadd
  have hdim : t.dim = dimension (calls ++ [.putVector key vector]) := congrArg Prod.fst hparams
  refine ⟨⟨fun hnone => absurd hnone (by simp), fun hnil => ?_⟩, fun u hu => ?_, fun u hu => ?_,
    fun u hu => ?_⟩
  · rw [vectors_append, hone] at hnil
    exact absurd hnil (by simp)
  · rw [← Option.some_inj.mp hu]
    exact hkept
  · rw [← Option.some_inj.mp hu]
    exact hparams'.trans hparams
  · rw [← Option.some_inj.mp hu, hstored', hstored, haccepted, hdim]

end

/-! ### Restarts -/

/-- The indices `m` are those of `m₀`, which has made all the calls in one session, but for the
order of the backward lists and for the links between the vectors. -/
structure Resembles {D : Type} (g : Metric D) (calls : List IndexCall) (m m₀ : Indices) : Prop where
  hnsw : Stores g calls m.hnsw
  graph : SameForward m.graph m₀.graph

section

variable {D : Type} [Ord D] {s : Scoring D} {calls : List IndexCall} {m m₀ m' : Indices}

/-- A vector without numbers is no first vector. -/
theorem Resembles.not_firstEmpty (h : Resembles s.metric calls m m₀) (hcalls : ¬FirstEmpty calls)
    {c : IndexCall} (hcall : m.call s c = some m') : ¬FirstEmpty (calls ++ [c]) := by
  rintro ⟨v, hv, hempty⟩
  rw [vectors_append, List.head?_append] at hv
  cases hhead : (vectors calls).head? with
  | some w =>
    rw [hhead] at hv
    obtain rfl : w = v := Option.some_inj.mp hv
    exact hcalls ⟨w, hhead, hempty⟩
  | none =>
    have hnone : m.hnsw = none := h.hnsw.none_iff.mpr (List.head?_eq_none_iff.mp hhead)
    rw [hhead, Option.none_or] at hv
    cases c with
    | putVector key vector =>
      obtain rfl : (key, vector) = v := Option.some_inj.mp hv
      obtain rfl : vector = [] := hempty
      rw [call, onPutVector, ensureHnsw, hnone] at hcall
      exact absurd hcall (by simp [HnswIndex.withDefaults, HnswIndex.new])
    | put key value => exact absurd hv (by simp [vectors])
    | delete key => exact absurd hv (by simp [vectors])
    | addEdge src dst relation => exact absurd hv (by simp [vectors])
    | query q order => exact absurd hv (by simp [vectors])

/-- A call that comes back does so in the one session, too. -/
theorem Resembles.call (h : Resembles s.metric calls m m₀)
    (hrun : calls.foldlM (call s) new = some m₀) {c : IndexCall} (hcall : m.call s c = some m') :
    ∃ m₀', m₀.call s c = some m₀' ∧ Resembles s.metric (calls ++ [c]) m' m₀' := by
  obtain ⟨hreflects, hfirst⟩ := reflects_run hrun
  obtain ⟨m₀', hcall₀, -⟩ := hreflects.call_returns (h.not_firstEmpty hfirst hcall)
  refine ⟨m₀', hcall₀, ?_⟩
  cases c with
  | put key value =>
    obtain rfl := Option.some_inj.mp hcall
    obtain rfl := Option.some_inj.mp hcall₀
    exact ⟨h.hnsw.of_no_vector rfl, h.graph⟩
  | delete key =>
    obtain rfl := Option.some_inj.mp hcall
    obtain rfl := Option.some_inj.mp hcall₀
    exact ⟨h.hnsw.of_no_vector rfl, h.graph⟩
  | putVector key vector =>
    refine ⟨h.hnsw.putVector hcall, ?_⟩
    have hgraph : ∀ {t t' : Indices}, t.onPutVector s.metric key vector = some t' →
        t'.graph = t.graph := by
      intro t t' ht
      obtain ⟨_, _, ht⟩ := Option.bind_eq_some_iff.mp ht
      obtain ⟨_, _, ht⟩ := Option.bind_eq_some_iff.mp ht
      rw [← Option.some_inj.mp ht]
    rw [hgraph hcall, hgraph hcall₀]
    exact h.graph
  | addEdge src dst relation =>
    obtain rfl := Option.some_inj.mp hcall
    obtain rfl := Option.some_inj.mp hcall₀
    rw [onAddEdge, onAddEdge]
    cases Relation.fromStr relation with
    | none => exact ⟨h.hnsw.of_no_vector rfl, h.graph⟩
    | some rel => exact ⟨h.hnsw.of_no_vector rfl, h.graph.addEdge src dst rel⟩
  | query q order =>
    obtain ⟨_, _, rfl⟩ := Option.map_eq_some_iff.mp hcall
    obtain ⟨_, _, rfl⟩ := Option.map_eq_some_iff.mp hcall₀
    rw [afterQuery, afterQuery]
    split
    · exact ⟨h.hnsw.of_no_vector rfl, h.graph.ensureBuilt⟩
    · exact ⟨h.hnsw.of_no_vector rfl, h.graph⟩

/-- The calls of a session, after some calls. -/
theorem Resembles.run (h : Resembles s.metric calls m m₀)
    (hrun : calls.foldlM (Indices.call s) new = some m₀) {more : List IndexCall}
    (hmore : more.foldlM (Indices.call s) m = some m') :
    ∃ m₀', (calls ++ more).foldlM (Indices.call s) new = some m₀' ∧
      Resembles s.metric (calls ++ more) m' m₀' := by
  refine foldlM_history (P := fun cs t => ∃ t₀, (calls ++ cs).foldlM (Indices.call s) new = some t₀ ∧
    Resembles s.metric (calls ++ cs) t t₀) ?_ (fun cs c t t' _ ih hcall => ?_) hmore
  · rw [List.append_nil]
    exact ⟨m₀, hrun, h⟩
  · obtain ⟨t₀, hrun₀, ht⟩ := ih
    obtain ⟨t₀', hcall₀, ht'⟩ := ht.call hrun₀ hcall
    rw [← List.append_assoc]
    exact ⟨t₀', foldlM_append_eq_some.mpr ⟨t₀, hrun₀, foldlM_cons_eq_some.mpr ⟨t₀', hcall₀, rfl⟩⟩, ht'⟩

/-- The lengths of the calls fit into the fields of the files. -/
def Fits (calls : List IndexCall) : Prop := 2 * calls.length < 2 ^ 32 ∧ ∀ c ∈ calls, c.Small

theorem Fits.left {more : List IndexCall} (h : Fits (calls ++ more)) : Fits calls := by
  obtain ⟨hlen, hsmall⟩ := h
  rw [List.length_append] at hlen
  exact ⟨by omega, fun c hc => hsmall c (List.mem_append_left more hc)⟩

omit [Ord D] in
/-- The vector index is read back. -/
theorem hnsw_deserialize {g : Metric D} {h : HnswIndex} (hh : Stores g calls (some h))
    (hfits : Fits calls) :
    HnswIndex.deserialize h.serialize = .ok { h with rng := .new 42 } := by
  have hparams := hh.params h rfl
  simp only [HnswIndex.params, Prod.mk.injEq] at hparams
  obtain ⟨hdim, hm, hbuild, hsearch⟩ := hparams
  have hcalls : (vectors calls).length ≤ calls.length := List.length_filterMap_le _ _
  have hlen : h.nodes.length ≤ calls.length := by
    have hstored := congrArg List.length (hh.stored h rfl)
    rw [HnswIndex.stored, List.length_map] at hstored
    have haccepted : (acceptedVectors g calls).length ≤ (vectors calls).length :=
      List.length_filterMap_le _ _
    omega
  have hsmall : ∀ v ∈ vectors calls, v.1.length < 2 ^ 32 ∧ v.2.length < 2 ^ 32 := by
    intro v hv
    obtain ⟨c, hc, hvc⟩ := List.mem_filterMap.mp hv
    have hcsmall := hfits.2 c hc
    cases c with
    | putVector key vector =>
      obtain rfl : (key, vector) = v := Option.some_inj.mp hvc
      exact hcsmall
    | put key value => exact absurd hvc (by simp)
    | delete key => exact absurd hvc (by simp)
    | addEdge src dst relation => exact absurd hvc (by simp)
    | query q order => exact absurd hvc (by simp)
  -- every number that is written fits in its four bytes
  refine HnswIndex.deserialize_serialize (hh.layered h rfl).2 ?_ (by rw [hm]; norm_num)
    (by rw [hbuild]; norm_num) (by rw [hsearch]; norm_num) ?_ fun node hnode => ?_
  · rw [hdim, dimension]
    cases hhead : (vectors calls).head? with
    | none => norm_num
    | some v => exact (hsmall v (List.mem_of_head? hhead)).2
  · have hbound := hfits.1
    omega
  · have hmem : (node.key, node.vector) ∈ acceptedVectors g calls := by
      rw [← hh.stored h rfl]
      exact List.mem_map_of_mem hnode
    obtain ⟨v, hv, haccept⟩ := List.mem_filterMap.mp hmem
    split at haccept
    · obtain ⟨w, -, heq⟩ := Option.map_eq_some_iff.mp haccept
      rw [← (Prod.mk.inj heq).1]
      exact (hsmall v hv).1
    · exact absurd haccept (by simp)

/-- The nodes of the graph are the ends of the edges. -/
theorem mem_idxToKey_run (hrun : calls.foldlM (Indices.call s) new = some m₀) (key : Str) :
    key ∈ m₀.graph.idxToKey ↔ key ∈ (edges calls).flatMap fun e => [e.1, e.2.1] := by
  obtain ⟨cs, hgraph, -, hnodes⟩ := (reflects_run hrun).1.graph
  rw [hgraph, (holds_ofCalls cs).known, hnodes]

/-- The graph is read back. -/
theorem graph_deserialize {g : RelationGraph}
    (h : SameForward g m₀.graph) (hrun : calls.foldlM (Indices.call s) new = some m₀)
    (hfits : Fits calls) :
    ∃ g', RelationGraph.deserialize g.serialize = .ok g' ∧ SameForward g' m₀.graph := by
  have hmem := mem_idxToKey_run hrun
  obtain ⟨cs, hgraph, hedges, -⟩ := (reflects_run hrun).1.graph
  have hcalls : (edges calls).length ≤ calls.length := List.length_filterMap_le _ _
  have hbound := hfits.1
  -- an edge brings two nodes at most
  have hnodes : g.idxToKey.length ≤ 2 * calls.length := by
    have hsub : g.idxToKey ⊆ (edges calls).flatMap fun e => [e.1, e.2.1] := by
      intro key hkey
      rw [h.idxToKey] at hkey
      exact (hmem key).mp hkey
    have hle := (h.valid.nodup.subperm hsub).length_le
    have hends : ((edges calls).flatMap fun e => [e.1, e.2.1]).length = 2 * (edges calls).length := by
      rw [List.length_flatMap]
      simp [mul_comm]
    omega
  have hcount : g.edgeCount ≤ calls.length := by
    rw [h.edgeCount, hgraph, edgeCount_ofCalls, hedges]
    exact hcalls
  have hkeys : ∀ key ∈ g.idxToKey, key.1.length < 2 ^ 32 := by
    intro key hkey
    rw [h.idxToKey, hmem, List.mem_flatMap] at hkey
    obtain ⟨edge, hedge, hkey⟩ := hkey
    obtain ⟨c, hc, hce⟩ := List.mem_filterMap.mp hedge
    have hcsmall := hfits.2 c hc
    cases c with
    | addEdge src dst relation =>
      obtain ⟨rel, -, rfl⟩ := Option.map_eq_some_iff.mp hce
      rcases List.mem_pair.mp hkey with rfl | rfl
      · exact hcsmall.1
      · exact hcsmall.2
    | put key value => exact absurd hce (by simp)
    | delete key => exact absurd hce (by simp)
    | putVector key vector => exact absurd hce (by simp)
    | query q order => exact absurd hce (by simp)
  refine ⟨_, RelationGraph.deserialize_serialize h.valid (by omega) (by omega) hkeys, ?_⟩
  have hread := sameForward_rebuild h.valid
  exact ⟨hread.valid, h.valid', hread.idxToKey.trans h.idxToKey, hread.fwdAdj.trans h.fwdAdj⟩

omit [Ord D] in
theorem resembles_new (g : Metric D) : Resembles g [] (load ⟨none, none⟩ .new) new where
  hnsw := ⟨⟨fun _ => rfl, fun _ => rfl⟩, fun h hh => absurd hh (by simp [load]),
    fun h hh => absurd hh (by simp [load]), fun h hh => absurd hh (by simp [load])⟩
  graph := SameForward.refl valid_new

/-- The indices that are read after a close are those before it. -/
theorem Resembles.save {files : IndexFiles} {m₀' : Indices} {more : List IndexCall}
    (hfiles : Resembles s.metric calls (load files .new) m₀)
    (hrun : calls.foldlM (Indices.call s) new = some m₀)
    (h : Resembles s.metric (calls ++ more) m m₀')
    (hrun' : (calls ++ more).foldlM (Indices.call s) new = some m₀') (hfits : Fits (calls ++ more)) :
    Resembles s.metric (calls ++ more) (load (m.save files) .new) m₀' := by
  constructor
  · cases hhnsw : m.hnsw with
    | some u =>
      have hstores : Stores s.metric (calls ++ more) (some u) := hhnsw ▸ h.hnsw
      have hread : (load (m.save files) .new).hnsw = some { u with rng := .new 42 } := by
        simp only [load, Indices.save, hhnsw, Option.bind_some, hnsw_deserialize hstores hfits]
        rfl
      rw [hread]
      exact hstores.reseeded _
    | none =>
      -- no session has made a vector index
      have hnil := h.hnsw.none_iff.mp hhnsw
      rw [vectors_append, List.append_eq_nil_iff] at hnil
      have hbefore : (load files .new).hnsw = none := hfiles.hnsw.none_iff.mpr hnil.1
      have hread : (load (m.save files) .new).hnsw = none := by
        simp only [load, Indices.save, hhnsw]
        exact hbefore
      rw [hread, ← hhnsw]
      exact h.hnsw
  · by_cases hnodes : m.graph.serialize ≠ [] ∧ 0 < m.graph.idxToKey.length
    · obtain ⟨g', hok, hsame⟩ := graph_deserialize h.graph hrun' hfits
      have hread : (load (m.save files) .new).graph = g' := by
        simp only [load, Indices.save, if_pos hnodes, Option.bind_some, hok]
        rfl
      rw [hread]
      exact hsame
    · -- no session has made a node
      have hmagic : m.graph.serialize ≠ [] := by
        simp [RelationGraph.serialize, graphMagic]
      have hempty : m.graph.idxToKey = [] := by
        by_contra hne
        exact hnodes ⟨hmagic, List.length_pos_of_ne_nil hne⟩
      have hempty' : m₀'.graph.idxToKey = [] := h.graph.idxToKey ▸ hempty
      have hbefore : (load files .new).graph.idxToKey = [] := by
        rw [hfiles.graph.idxToKey, List.eq_nil_iff_forall_not_mem]
        intro key hkey
        rw [mem_idxToKey_run hrun] at hkey
        have hkey' : key ∈ m₀'.graph.idxToKey := by
          rw [mem_idxToKey_run hrun', edges_append, List.flatMap_append]
          exact List.mem_append_left _ hkey
        rw [hempty'] at hkey'
        exact absurd hkey' List.not_mem_nil
      have hread : (load (m.save files) .new).graph = (load files .new).graph := by
        simp only [load, Indices.save, if_neg hnodes]
      have hnil : ∀ g : RelationGraph, g.Valid → g.idxToKey = [] → g.fwdAdj = [] := by
        intro g hg hidx
        rw [← List.length_eq_zero_iff, hg.fwd_length, hidx]
        rfl
      rw [hread]
      exact ⟨hfiles.graph.valid, h.graph.valid', hbefore.trans hempty'.symm,
        (hnil _ hfiles.graph.valid hbefore).trans (hnil _ h.graph.valid' hempty').symm⟩

/-- What the files hold after some sessions. -/
theorem saved_run {sessions : List IndexSession} {files : IndexFiles}
    (hrun : sessions.foldlM (endSession s) ⟨none, none⟩ = some files)
    (hfits : Fits (closedCalls sessions)) :
    ∃ m₀, (closedCalls sessions).foldlM (Indices.call s) new = some m₀ ∧
      Resembles s.metric (closedCalls sessions) (load files .new) m₀ := by
  refine foldlM_history (P := fun ss files => Fits (closedCalls ss) →
    ∃ m₀, (closedCalls ss).foldlM (Indices.call s) new = some m₀ ∧
      Resembles s.metric (closedCalls ss) (load files .new) m₀)
    (fun _ => ⟨new, rfl, resembles_new s.metric⟩) (fun ss session files files' _ ih hend hfits => ?_)
    hrun hfits
  have hsplit : closedCalls (ss ++ [session])
      = closedCalls ss ++ if session.closed then session.calls else [] := by
    rw [closedCalls, List.filter_append, List.flatMap_append, ← closedCalls]
    cases hclosed : session.closed with
    | true => simp [hclosed]
    | false => simp [hclosed]
  rw [hsplit] at hfits ⊢
  obtain ⟨m₀, hrun₀, hsaved⟩ := ih hfits.left
  obtain ⟨m, hm, rfl⟩ := Option.map_eq_some_iff.mp hend
  have hopened : Resembles s.metric (closedCalls ss) (load files session.texts) m₀ :=
    ⟨hsaved.hnsw, hsaved.graph⟩
  obtain ⟨m₀', hrun₀', hm'⟩ := hopened.run hrun₀ hm
  cases hclosed : session.closed with
  | true =>
    rw [hclosed, if_pos rfl] at hfits
    rw [if_pos rfl, if_pos rfl]
    exact ⟨m₀', hrun₀', hsaved.save hrun₀ hm' hrun₀' hfits⟩
  | false =>
    rw [if_neg Bool.false_ne_true, if_neg Bool.false_ne_true, List.append_nil]
    exact ⟨m₀, hrun₀, hsaved⟩

/-- **Restarts are invisible**: after any number of sessions, each of which ends with a close or
with a crash, the vector index holds the vectors and the graph the nodes and edges of one session
with the calls of those that were closed, and the graph steps of queries answer the same. -/
theorem restarts_invisible {sessions : List IndexSession} {files : IndexFiles}
    {texts : IndexManager} {more : List IndexCall}
    (hrun : sessions.foldlM (endSession s) ⟨none, none⟩ = some files)
    (hmore : more.foldlM (Indices.call s) (load files texts) = some m)
    (hfits : Fits (closedCalls sessions)) :
    ∃ m₀, (closedCalls sessions ++ more).foldlM (Indices.call s) new = some m₀ ∧
      m.hnsw.map (fun h => (h.params, h.stored)) = m₀.hnsw.map (fun h => (h.params, h.stored)) ∧
      (∀ h, m.hnsw = some h →
        h.stored = acceptedVectors s.metric (closedCalls sessions ++ more)) ∧
      m.graph.idxToKey = m₀.graph.idxToKey ∧ m.graph.edgeCount = m₀.graph.edgeCount ∧
      ∀ q, graphStep m.graph q = graphStep m₀.graph q := by
  obtain ⟨m₁, hrun₁, hsaved⟩ := saved_run hrun hfits
  have hopened : Resembles s.metric (closedCalls sessions) (load files texts) m₁ :=
    ⟨hsaved.hnsw, hsaved.graph⟩
  obtain ⟨m₀, hrun₀, hm⟩ := hopened.run hrun₁ hmore
  -- the one session is a session, too
  have hone : Resembles s.metric [] new new := ⟨(resembles_new s.metric).hnsw, SameForward.refl valid_new⟩
  obtain ⟨m₀', hrun₀', hm₀⟩ := hone.run rfl hrun₀
  rw [List.nil_append] at hrun₀' hm₀
  refine ⟨m₀, hrun₀, ?_, hm.hnsw.stored, hm.graph.idxToKey, hm.graph.edgeCount, fun q => ?_⟩
  · cases hhnsw : m.hnsw with
    | none =>
      rw [hm₀.hnsw.none_iff.mpr (hm.hnsw.none_iff.mp hhnsw)]
    | some h =>
      cases hhnsw₀ : m₀.hnsw with
      | none => exact absurd (hm.hnsw.none_iff.mpr (hm₀.hnsw.none_iff.mp hhnsw₀)) (by simp [hhnsw])
      | some h₀ =>
        rw [Option.map_some, Option.map_some, hm.hnsw.params h hhnsw, hm.hnsw.stored h hhnsw,
          hm₀.hnsw.params h₀ hhnsw₀, hm₀.hnsw.stored h₀ hhnsw₀]
  · rw [graphStep, graphStep, hm.graph.bfs q.text (by decide) q.maxDepth q.relationFilter]

end

/-- A session that is closed, and one that is not. -/
def closedAndCrashed : List IndexSession :=
  [⟨.new, [.putVector [107] [1, 2], .addEdge (.ascii 97) (.ascii 98) "calls"], true⟩,
    ⟨.new, [.putVector [108] [3, 4], .addEdge (.ascii 98) (.ascii 99) "calls"], false⟩]

/-- The vector of the session that was not closed is lost; the dimension is the one of the first
session. -/
theorem restarts_invisible_crash : ∃ files m h,
    closedAndCrashed.foldlM (endSession flatScoring) ⟨none, none⟩ = some files ∧
    [IndexCall.putVector [109] [5, 6], .putVector [110] [7]].foldlM (call flatScoring)
      (load files .new) = some m ∧
    m.hnsw = some h ∧ h.stored = [([107], [1, 2]), ([109], [5, 6])] := by
  have hsome : ((closedAndCrashed.foldlM (endSession flatScoring) ⟨none, none⟩).bind fun files =>
      ([IndexCall.putVector [109] [5, 6], .putVector [110] [7]].foldlM (call flatScoring)
        (load files .new)).bind fun m => m.hnsw).isSome = true := by
    decide +kernel
  obtain ⟨h, hh⟩ := Option.isSome_iff_exists.mp hsome
  obtain ⟨files, hfiles, hh⟩ := Option.bind_eq_some_iff.mp hh
  obtain ⟨m, hm, hh⟩ := Option.bind_eq_some_iff.mp hh
  have hfits : Fits (closedCalls closedAndCrashed) := by
    refine ⟨by decide, fun c hc => ?_⟩
    rw [show closedCalls closedAndCrashed = [.putVector [107] [1, 2],
      .addEdge (.ascii 97) (.ascii 98) "calls"] from rfl] at hc
    rcases List.mem_pair.mp hc with rfl | rfl
    · exact ⟨by decide, by decide⟩
    · exact ⟨by decide, by decide⟩
  obtain ⟨_, _, _, hstored, _⟩ := restarts_invisible hfiles hm hfits
  exact ⟨files, m, h, hfiles, hm, hh, (hstored h hh).trans (by decide)⟩

end Indices

end Uldb
