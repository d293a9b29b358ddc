/-
The relation graph (`index/graph.rs`).

Nodes are numbered in the order in which they come; every edge is kept twice, at its source
and at its target.  `build` lays the adjacency lists out in flat arrays, which the queries
read.  An index out of range is a panic in the source: queries return `none` there, and on
the graphs that calls can build they never do (`Valid.bfs_isSome`,
`Valid.neighbours_isSome`).

* `Valid` — what all calls keep;
* `valid_ofCalls` — a graph built by any calls is valid.
-/
import Uldb.Index
import Uldb.Lib.Fallible

namespace Uldb

/-- A `String` or a `&str`: well-formed UTF-8. -/
abbrev Str := {text : Bytes // validUtf8 text = true}

/-- The text of one ASCII character. -/
def Str.ascii (c : BitVec 7) : Str :=
  ⟨[UInt8.ofBitVec (c.setWidth 8)], by
    revert c
    decide⟩

/-- Supported relation types between code entities. -/
inductive Relation where
  | imports
  | calls
  | inherits
  | tests
  | defines
  deriving DecidableEq, Repr

/-- Edge in the relation graph. -/
structure Edge where
  dst : ℕ
  relation : Relation
  deriving DecidableEq, Repr

/-- The arrays of one direction: the edges of node `i` are at `ptr[i]..ptr[i + 1]`. -/
structure Csr where
  ptr : List ℕ
  dst : List ℕ
  rel : List Relation

structure RelationGraph where
  keyToIdx : Std.TreeMap Bytes ℕ
  idxToKey : List Str
  fwdAdj : List (List Edge)
  bwdAdj : List (List Edge)
  fwd : Csr
  bwd : Csr
  built : Bool
  edgeCount : ℕ

/-- One result from a BFS traversal. -/
structure TraversalResult where
  key : Str
  depth : ℕ
  relation : Option Relation

/-- The loop of `build` for one direction: the arrays and the running offset. -/
def csrLoop (adj : List (List Edge)) : Csr × ℕ :=
  adj.foldl (fun (csr, offset) edges =>
    (⟨csr.ptr ++ [offset], csr.dst ++ edges.map (·.dst), csr.rel ++ edges.map (·.relation)⟩,
      offset + edges.length)) (⟨[], [], []⟩, 0)

def csrOf (adj : List (List Edge)) : Csr :=
  let (csr, offset) := csrLoop adj
  { csr with ptr := csr.ptr ++ [offset] }

/-- The edges `ptr[idx]..ptr[idx + 1]`. -/
def Csr.edges (csr : Csr) (idx : ℕ) : Option (List Edge) := do
  let start ← csr.ptr[idx]?
  let stop ← csr.ptr[idx + 1]?
  (List.range' start (stop - start)).mapM fun i => do
    let dst ← csr.dst[i]?
    let relation ← csr.rel[i]?
    return ⟨dst, relation⟩

namespace RelationGraph

def new : RelationGraph := ⟨∅, [], [], [], ⟨[], [], []⟩, ⟨[], [], []⟩, false, 0⟩

/-- Register a node; its internal index. -/
def addNode (g : RelationGraph) (key : Str) : RelationGraph × ℕ :=
  match g.keyToIdx[key.1]? with
  | some idx => (g, idx)
  | none =>
    let idx := g.idxToKey.length
    ({ g with
        keyToIdx := g.keyToIdx.insert key.1 idx
        idxToKey := g.idxToKey ++ [key]
        fwdAdj := g.fwdAdj ++ [[]]
        bwdAdj := g.bwdAdj ++ [[]]
        built := false }, idx)

/-- Append an edge to both adjacency lists. -/
def pushEdge (g : RelationGraph) (s d : ℕ) (relation : Relation) : RelationGraph :=
  { g with
    fwdAdj := g.fwdAdj.modify s (· ++ [⟨d, relation⟩])
    bwdAdj := g.bwdAdj.modify d (· ++ [⟨s, relation⟩])
    edgeCount := g.edgeCount + 1
    built := false }

/-- Add a directed edge; its nodes are created if they do not exist. -/
def addEdge (g : RelationGraph) (src dst : Str) (relation : Relation) : RelationGraph :=
  let (g, s) := g.addNode src
  let (g, d) := g.addNode dst
  g.pushEdge s d relation

/-- Build the arrays from the adjacency lists. -/
def build (g : RelationGraph) : RelationGraph :=
  { g with fwd := csrOf g.fwdAdj, bwd := csrOf g.bwdAdj, built := true }

def ensureBuilt (g : RelationGraph) : RelationGraph := if g.built then g else g.build

/-- The arrays of a direction. -/
def arrays (g : RelationGraph) (direction : String) : Csr :=
  if direction = "backward" then g.bwd else g.fwd

/-- The edge passes the filter of a query. -/
def passes (relationFilter : Option Relation) (e : Edge) : Bool :=
  relationFilter.all (· = e.relation)

/-- Forward or backward neighbours of a node. -/
def neighbours (g : RelationGraph) (key : Str) (direction : String)
    (relationFilter : Option Relation) : Option (List (Str × Relation)) :=
  let g := g.ensureBuilt
  match g.keyToIdx[key.1]? with
  | none => some []
  | some idx => do
    let edges ← (g.arrays direction).edges idx
    (edges.filter (passes relationFilter)).mapM fun e => do
      let key ← g.idxToKey[e.dst]?
      return (key, e.relation)

/-- What a breadth-first search keeps: visited nodes, the queue, the results. -/
structure BfsState where
  visited : Finset ℕ
  queue : List (ℕ × ℕ)
  results : List TraversalResult

/-- One edge of the node under work; `keys` is `idx_to_key`. -/
def bfsEdge (keys : List Str) (depth : ℕ) (s : BfsState) (e : Edge) : Option BfsState :=
  if e.dst ∈ s.visited then some s
  else do
    let key ← keys[e.dst]?
    return ⟨insert e.dst s.visited, s.queue ++ [(e.dst, depth + 1)],
      s.results ++ [⟨key, depth + 1, some e.relation⟩]⟩

/-- The queue loop.  Every turn takes a node off the queue, and no node is queued twice:
the number of nodes is enough fuel. -/
def bfsLoop (keys : List Str) (csr : Csr) (maxDepth : ℕ) (relationFilter : Option Relation) :
    ℕ → BfsState → Option (List TraversalResult)
  | fuel, s =>
    match s.queue with
    | [] => some s.results
    | (node, depth) :: queue =>
      match fuel with
      | 0 => none
      | fuel + 1 =>
        let s := { s with queue := queue }
        if maxDepth ≤ depth then bfsLoop keys csr maxDepth relationFilter fuel s
        else do
          let edges ← csr.edges node
          let s ← (edges.filter (passes relationFilter)).foldlM (bfsEdge keys depth) s
          bfsLoop keys csr maxDepth relationFilter fuel s

/-- Breadth-first search from a start node. -/
def bfs (g : RelationGraph) (start : Str) (direction : String) (maxDepth : ℕ)
    (relationFilter : Option Relation) : Option (List TraversalResult) :=
  let g := g.ensureBuilt
  match g.keyToIdx[start.1]? with
  | none => some []
  | some idx => do
    let key ← g.idxToKey[idx]?
    bfsLoop g.idxToKey (g.arrays direction) maxDepth relationFilter g.idxToKey.length
      ⟨{idx}, [(idx, 0)], [⟨key, 0, none⟩]⟩

end RelationGraph

/-! ### Flat arrays -/

/-- The number of edges of the first `i` nodes. -/
def offsetOf (adj : List (List Edge)) (i : ℕ) : ℕ := (adj.take i).flatten.length

theorem offsetOf_length (adj : List (List Edge)) : offsetOf adj adj.length = adj.flatten.length := by
  rw [offsetOf, List.take_length]

theorem offsetOf_append {adj : List (List Edge)} (more : List (List Edge)) {i : ℕ}
    (hi : i ≤ adj.length) :
    offsetOf (adj ++ more) i = offsetOf adj i := by
  rw [offsetOf, List.take_append_of_le_length hi, offsetOf]

theorem offsetOf_succ {adj : List (List Edge)} {i : ℕ} {edges : List Edge}
    (h : adj[i]? = some edges) : offsetOf adj (i + 1) = offsetOf adj i + edges.length := by
  rw [offsetOf, List.take_add_one, h, List.flatten_append, List.length_append, offsetOf]
  simp

theorem csrLoop_eq (adj : List (List Edge)) :
    csrLoop adj = (⟨(List.range adj.length).map (offsetOf adj), adj.flatten.map (·.dst),
      adj.flatten.map (·.relation)⟩, adj.flatten.length) := by
  induction adj using List.reverseRecOn with
  | nil => rfl
  | append_singleton adj edges ih =>
    rw [csrLoop, List.foldl_append, ← csrLoop, ih]
    have hptr : (List.range adj.length).map (offsetOf adj)
        = (List.range adj.length).map (offsetOf (adj ++ [edges])) :=
      List.map_congr_left fun i hi => (offsetOf_append _ (List.mem_range.mp hi).le).symm
    rw [hptr, ← offsetOf_length, ← offsetOf_append [edges] le_rfl]
    simp [List.range_succ, offsetOf]

theorem ptr_csrOf {adj : List (List Edge)} {i : ℕ} (hi : i ≤ adj.length) :
    (csrOf adj).ptr[i]? = some (offsetOf adj i) := by
  have hptr : (csrOf adj).ptr = (List.range (adj.length + 1)).map (offsetOf adj) := by
    rw [csrOf, csrLoop_eq, ← offsetOf_length, List.range_succ, List.map_append]
    rfl
  rw [hptr, List.getElem?_map, List.getElem?_range (by omega)]
  rfl

theorem dst_csrOf (adj : List (List Edge)) : (csrOf adj).dst = adj.flatten.map (·.dst) := by
  rw [csrOf, csrLoop_eq]

theorem rel_csrOf (adj : List (List Edge)) : (csrOf adj).rel = adj.flatten.map (·.relation) := by
  rw [csrOf, csrLoop_eq]

/-- Reading a stretch of positions. -/
theorem mapM_range'_eq {α : Type} {f : ℕ → Option α} {items : List α} {start : ℕ}
    (h : ∀ j (hj : j < items.length), f (start + j) = some items[j]) :
    (List.range' start items.length).mapM f = some items := by
  induction items generalizing start with
  | nil => rfl
  | cons a items ih =>
    have hrest : (List.range' (start + 1) items.length).mapM f = some items := by
      refine ih fun j hj => ?_
      have hnext := h (j + 1) (by simpa using hj)
      rwa [show start + (j + 1) = start + 1 + j by omega] at hnext
    rw [List.length_cons, List.range'_succ, List.mapM_cons, show f start = some a from h 0 (by simp),
      hrest]
    rfl

/-- **The arrays hold the adjacency lists.** -/
theorem edges_csrOf {adj : List (List Edge)} {i : ℕ} {edges : List Edge}
    (h : adj[i]? = some edges) : (csrOf adj).edges i = some edges := by
  obtain ⟨hi, hedges⟩ := List.getElem?_eq_some_iff.mp h
  have hsplit : adj = adj.take i ++ (edges :: adj.drop (i + 1)) := by
    rw [← hedges, ← List.drop_eq_getElem_cons, List.take_append_drop]
  rw [Csr.edges, ptr_csrOf hi.le, ptr_csrOf hi, offsetOf_succ h]
  simp only [Option.bind_eq_bind, Option.bind_some, Nat.add_sub_cancel_left]
  refine mapM_range'_eq fun j hj => ?_
  have hflat : adj.flatten[offsetOf adj i + j]? = some edges[j] := by
    have hstart : adj.flatten = (adj.take i).flatten ++ (edges ++ (adj.drop (i + 1)).flatten) := by
      rw [← List.flatten_cons, ← List.flatten_append, ← hsplit]
    rw [hstart, offsetOf, List.getElem?_append_right (Nat.le_add_right _ _),
      Nat.add_sub_cancel_left, List.getElem?_append_left hj, List.getElem?_eq_getElem hj]
  rw [dst_csrOf, rel_csrOf, List.getElem?_map, List.getElem?_map, hflat]
  rfl

/-! ### Valid graphs -/

theorem getElem?_concat_eq_some {α : Type} {l : List α} {a b : α} {i : ℕ} :
    (l ++ [a])[i]? = some b ↔ l[i]? = some b ∨ l.length = i ∧ a = b := by
  rw [List.getElem?_append]
  by_cases hi : i < l.length
  · rw [if_pos hi]
    simp [hi.ne']
  · rw [if_neg hi, List.getElem?_eq_none (not_lt.mp hi)]
    rcases Nat.eq_or_lt_of_le (not_lt.mp hi) with rfl | hlt
    · simp
    · rw [List.getElem?_eq_none (by simp; omega)]
      simp [hlt.ne]

/-- The edges into a node, by source and then by place. -/
def sourcesOf (adj : List (List Edge)) (d : ℕ) : List Edge :=
  adj.zipIdx.flatMap fun (edges, s) =>
    (edges.filter fun e => e.dst = d).map fun e => ⟨s, e.relation⟩

theorem sourcesOf_concat (adj : List (List Edge)) (edges : List Edge) (d : ℕ) :
    sourcesOf (adj ++ [edges]) d = sourcesOf adj d ++
      (edges.filter fun e => e.dst = d).map fun e => ⟨adj.length, e.relation⟩ := by
  rw [sourcesOf, List.zipIdx_append, List.flatMap_append, ← sourcesOf]
  simp

theorem sourcesOf_append_nil (adj : List (List Edge)) (d : ℕ) :
    sourcesOf (adj ++ [[]]) d = sourcesOf adj d := by
  rw [sourcesOf_concat, List.filter_nil, List.map_nil, List.append_nil]

theorem sourcesOf_eq_nil {adj : List (List Edge)} {d : ℕ}
    (h : ∀ edges ∈ adj, ∀ e ∈ edges, e.dst ≠ d) : sourcesOf adj d = [] := by
  rw [sourcesOf, List.flatMap_eq_nil_iff]
  rintro ⟨edges, s⟩ hmem
  rw [List.map_eq_nil_iff, List.filter_eq_nil_iff]
  intro e he
  simpa using h edges (List.fst_mem_of_mem_zipIdx hmem) e he

theorem sourcesOf_modify {adj : List (List Edge)} {s : ℕ} (hs : s < adj.length) (e : Edge) (d : ℕ) :
    (sourcesOf (adj.modify s (· ++ [e])) d).Perm
      (sourcesOf adj d ++ if e.dst = d then [⟨s, e.relation⟩] else []) := by
  obtain ⟨pre, edges, post, rfl, rfl, hmod⟩ := List.exists_of_modify (· ++ [e]) hs
  rw [hmod, sourcesOf, sourcesOf]
  simp only [List.zipIdx_append, List.zipIdx_cons, List.flatMap_append, List.flatMap_cons,
    List.filter_append, List.map_append, List.append_assoc, Nat.zero_add]
  refine (List.Perm.append_left _ ?_)
  have hone : ([e].filter fun e => e.dst = d).map (fun e => (⟨pre.length, e.relation⟩ : Edge))
      = if e.dst = d then [⟨pre.length, e.relation⟩] else [] := by
    by_cases hd : e.dst = d <;> simp [hd]
  rw [hone]
  exact List.Perm.append_left _ List.perm_append_comm

theorem length_flatten_modify {adj : List (List Edge)} {s : ℕ} (hs : s < adj.length) (e : Edge) :
    (adj.modify s (· ++ [e])).flatten.length = adj.flatten.length + 1 := by
  obtain ⟨pre, edges, post, rfl, -, hmod⟩ := List.exists_of_modify (· ++ [e]) hs
  rw [hmod]
  simp only [List.flatten_append, List.flatten_cons, List.length_append, List.length_singleton]
  omega

namespace RelationGraph

/-- What all calls keep: the two numberings are inverse to each other, the backward lists
mirror the forward ones, and arrays that count as built are those of the lists. -/
structure Valid (g : RelationGraph) : Prop where
  nodup : g.idxToKey.Nodup
  index : ∀ key i, g.keyToIdx[key]? = some i ↔ ∃ k : Str, g.idxToKey[i]? = some k ∧ k.1 = key
  fwd_length : g.fwdAdj.length = g.idxToKey.length
  bwd_length : g.bwdAdj.length = g.idxToKey.length
  dst_lt : ∀ edges ∈ g.fwdAdj, ∀ e ∈ edges, e.dst < g.idxToKey.length
  mirror : ∀ (d : ℕ) (edges : List Edge), g.bwdAdj[d]? = some edges →
    edges.Perm (sourcesOf g.fwdAdj d)
  count : g.edgeCount = g.fwdAdj.flatten.length
  arrays : g.built = true → g.fwd = csrOf g.fwdAdj ∧ g.bwd = csrOf g.bwdAdj

theorem valid_new : new.Valid where
  nodup := List.nodup_nil
  index := by simp [new]
  fwd_length := rfl
  bwd_length := rfl
  dst_lt := by simp [new]
  mirror := by simp [new]
  count := rfl
  arrays := by simp [new]

variable {g : RelationGraph}

theorem Valid.build (hg : g.Valid) : g.build.Valid :=
  ⟨hg.nodup, hg.index, hg.fwd_length, hg.bwd_length, hg.dst_lt, hg.mirror, hg.count,
    fun _ => ⟨rfl, rfl⟩⟩

/-- A node that is known. -/
theorem Valid.addNode_of_known (hg : g.Valid) {key : Str} {i : ℕ}
    (hi : g.idxToKey[i]? = some key) : g.addNode key = (g, i) := by
  rw [addNode, (hg.index key.1 i).mpr ⟨key, hi, rfl⟩]

theorem Valid.index_of_new (hg : g.Valid) {key : Str} (hkey : key ∉ g.idxToKey) :
    g.keyToIdx[key.1]? = none := by
  refine Option.eq_none_iff_forall_ne_some.mpr fun i hi => ?_
  obtain ⟨k, hk, heq⟩ := (hg.index _ _).mp hi
  exact hkey (Subtype.ext heq ▸ List.mem_of_getElem? hk)

/-- A node that is new. -/
theorem Valid.addNode_of_new (hg : g.Valid) {key : Str} (hkey : key ∉ g.idxToKey) :
    g.addNode key = ({ g with
      keyToIdx := g.keyToIdx.insert key.1 g.idxToKey.length
      idxToKey := g.idxToKey ++ [key]
      fwdAdj := g.fwdAdj ++ [[]]
      bwdAdj := g.bwdAdj ++ [[]]
      built := false }, g.idxToKey.length) := by
  rw [addNode, hg.index_of_new hkey]

/-- **Registering a node** keeps the numbers of the others. -/
theorem Valid.addNode (hg : g.Valid) (key : Str) :
    (g.addNode key).1.Valid ∧ (g.addNode key).1.idxToKey[(g.addNode key).2]? = some key ∧
      g.idxToKey <+: (g.addNode key).1.idxToKey := by
  by_cases hkey : key ∈ g.idxToKey
  · obtain ⟨i, hi⟩ := List.getElem?_of_mem hkey
    rw [hg.addNode_of_known hi]
    exact ⟨hg, hi, List.prefix_rfl⟩
  · rw [hg.addNode_of_new hkey]
    have hnone := hg.index_of_new hkey
    have hlast : (g.idxToKey ++ [key])[g.idxToKey.length]? = some key := by simp
    refine ⟨⟨by simpa using hg.nodup.concat hkey, fun k i => ?_, ?_, ?_, ?_,
      fun d edges hd => ?_, ?_, fun h => absurd h (by simp)⟩, hlast, List.prefix_append _ _⟩
    · simp only [Std.TreeMap.getElem?_insert, Std.LawfulEqCmp.compare_eq_iff_eq,
        getElem?_concat_eq_some, or_and_right, exists_or, ← hg.index]
      by_cases hk : key.1 = k
      · subst hk
        simp [hnone, eq_comm]
      · simp [hk]
    · simp [hg.fwd_length]
    · simp [hg.bwd_length]
    · intro edges hedges e he
      rcases List.mem_append.mp hedges with hedges | hedges
      · simpa using Nat.lt_succ_of_lt (hg.dst_lt edges hedges e he)
      · rw [List.mem_singleton.mp hedges] at he
        exact absurd he List.not_mem_nil
    · rw [sourcesOf_append_nil]
      rcases getElem?_concat_eq_some.mp hd with hd | ⟨rfl, rfl⟩
      · exact hg.mirror d edges hd
      · -- no edge leads to the new node
        rw [sourcesOf_eq_nil fun edges hedges e he => ?_]
        rw [hg.bwd_length]
        exact (hg.dst_lt edges hedges e he).ne
    · simpa using hg.count

theorem Valid.pushEdge (hg : g.Valid) {s d : ℕ} (hs : s < g.idxToKey.length)
    (hd : d < g.idxToKey.length) (relation : Relation) : (g.pushEdge s d relation).Valid := by
  have hs' : s < g.fwdAdj.length := hg.fwd_length ▸ hs
  refine ⟨hg.nodup, hg.index, ?_, ?_, ?_, fun t edges ht => ?_, ?_, fun h => absurd h (by simp
    [RelationGraph.pushEdge])⟩
  · simpa [RelationGraph.pushEdge] using hg.fwd_length
  · simpa [RelationGraph.pushEdge] using hg.bwd_length
  · intro edges hedges e he
    obtain ⟨pre, old, post, hadj, -, hmod⟩ := List.exists_of_modify (· ++ [⟨d, relation⟩]) hs'
    have hold := hg.dst_lt old (by rw [hadj]; simp)
    rw [RelationGraph.pushEdge, hmod] at hedges
    rcases (by simpa using hedges : edges ∈ pre ∨ edges = old ++ [⟨d, relation⟩] ∨ edges ∈ post)
      with h | rfl | h
    · exact hg.dst_lt edges (by rw [hadj]; simp [h]) e he
    · rcases List.mem_append.mp he with he | he
      · exact hold e he
      · rw [List.mem_singleton.mp he]
        exact hd
    · exact hg.dst_lt edges (by rw [hadj]; simp [h]) e he
  · refine List.Perm.trans ?_ (sourcesOf_modify hs' ⟨d, relation⟩ t).symm
    rw [RelationGraph.pushEdge, List.getElem?_modify] at ht
    by_cases hdt : d = t
    · subst hdt
      obtain ⟨old, hold, rfl⟩ := Option.map_eq_some_iff.mp ht
      simpa using (hg.mirror d old hold).append_right _
    · obtain ⟨old, hold, heq⟩ := Option.map_eq_some_iff.mp ht
      rw [if_neg hdt] at heq
      simpa [hdt, ← heq] using hg.mirror t old hold
  · show g.edgeCount + 1 = _
    rw [hg.count, RelationGraph.pushEdge, length_flatten_modify hs']

/-- **Adding an edge** between the numbers of its nodes. -/
theorem Valid.addEdge (hg : g.Valid) (src dst : Str) (relation : Relation) :
    (g.addEdge src dst relation).Valid := by
  obtain ⟨h₁, hsrc, _⟩ := hg.addNode src
  obtain ⟨h₂, hdst, hpre⟩ := h₁.addNode dst
  have hlt : ∀ {i : ℕ} {k : Str} {l : List Str}, l[i]? = some k → i < l.length :=
    fun h => (List.getElem?_eq_some_iff.mp h).1
  exact h₂.pushEdge ((hlt hsrc).trans_le hpre.length_le) (hlt hdst) relation

end RelationGraph

/-- A call that changes a graph; a query builds the arrays. -/
inductive GraphCall where
  | addNode (key : Str)
  | addEdge (src dst : Str) (relation : Relation)
  | query

namespace RelationGraph

def exec (g : RelationGraph) : GraphCall → RelationGraph
  | .addNode key => (g.addNode key).1
  | .addEdge src dst relation => g.addEdge src dst relation
  | .query => g.ensureBuilt

/-- A new graph after a run of calls. -/
def ofCalls (cs : List GraphCall) : RelationGraph := cs.foldl exec new

theorem Valid.ensureBuilt {g : RelationGraph} (hg : g.Valid) : g.ensureBuilt.Valid := by
  rw [RelationGraph.ensureBuilt]
  by_cases hb : g.built = true
  · rwa [if_pos hb]
  · rw [if_neg hb]
    exact hg.build

theorem Valid.exec {g : RelationGraph} (hg : g.Valid) (c : GraphCall) : (g.exec c).Valid := by
  cases c with
  | addNode key => exact (hg.addNode key).1
  | addEdge src dst relation => exact hg.addEdge src dst relation
  | query => exact hg.ensureBuilt

/-- **Every graph that calls build is valid.** -/
theorem valid_ofCalls (cs : List GraphCall) : (ofCalls cs).Valid := by
  induction cs using List.reverseRecOn with
  | nil => exact valid_new
  | append_singleton cs c ih =>
    rw [ofCalls, List.foldl_append]
    exact ih.exec c

/-! ### Queries return -/

section

variable {g : RelationGraph} {keys : List Str}

/-- The adjacency lists of a direction. -/
def adj (g : RelationGraph) (direction : String) : List (List Edge) :=
  if direction = "backward" then g.bwdAdj else g.fwdAdj

theorem ensureBuilt_idxToKey : g.ensureBuilt.idxToKey = g.idxToKey := by
  rw [RelationGraph.ensureBuilt]
  split <;> rfl

theorem ensureBuilt_keyToIdx : g.ensureBuilt.keyToIdx = g.keyToIdx := by
  rw [RelationGraph.ensureBuilt]
  split <;> rfl

theorem Valid.arrays_ensureBuilt (hg : g.Valid) (direction : String) :
    g.ensureBuilt.arrays direction = csrOf (g.adj direction) := by
  have harrays : g.ensureBuilt.fwd = csrOf g.fwdAdj ∧ g.ensureBuilt.bwd = csrOf g.bwdAdj := by
    rw [RelationGraph.ensureBuilt]
    by_cases hb : g.built = true
    · rw [if_pos hb]
      exact hg.arrays hb
    · rw [if_neg hb]
      exact ⟨rfl, rfl⟩
  rw [RelationGraph.arrays, adj]
  by_cases hd : direction = "backward"
  · rw [if_pos hd, if_pos hd, harrays.2]
  · rw [if_neg hd, if_neg hd, harrays.1]

/-- The lists of a direction have one entry for each node, with numbers of nodes in it. -/
theorem Valid.adj (hg : g.Valid) (direction : String) {i : ℕ} (hi : i < g.idxToKey.length) :
    ∃ edges, (g.adj direction)[i]? = some edges ∧ ∀ e ∈ edges, e.dst < g.idxToKey.length := by
  rw [RelationGraph.adj]
  by_cases hd : direction = "backward"
  · rw [if_pos hd]
    have hi' : i < g.bwdAdj.length := hg.bwd_length ▸ hi
    refine ⟨_, List.getElem?_eq_getElem hi', fun e he => ?_⟩
    rw [(hg.mirror i _ (List.getElem?_eq_getElem hi')).mem_iff, sourcesOf,
      List.mem_flatMap] at he
    obtain ⟨⟨edges, s⟩, hmem, he⟩ := he
    obtain ⟨_, _, rfl⟩ := List.mem_map.mp he
    rw [← hg.fwd_length]
    exact (List.getElem?_eq_some_iff.mp (List.mk_mem_zipIdx_iff_getElem?.mp hmem)).1
  · rw [if_neg hd]
    have hi' : i < g.fwdAdj.length := hg.fwd_length ▸ hi
    exact ⟨_, List.getElem?_eq_getElem hi', hg.dst_lt _ (List.getElem_mem hi')⟩

theorem Valid.adj_length (hg : g.Valid) (direction : String) :
    (g.adj direction).length = g.idxToKey.length := by
  rw [RelationGraph.adj]
  split
  · exact hg.bwd_length
  · exact hg.fwd_length

theorem Valid.adj_lt (hg : g.Valid) (direction : String) :
    ∀ edges ∈ g.adj direction, ∀ e ∈ edges, e.dst < g.idxToKey.length := by
  intro edges hedges e he
  obtain ⟨i, hi⟩ := List.getElem?_of_mem hedges
  have hlt := (List.getElem?_eq_some_iff.mp hi).1
  obtain ⟨edges', hedges', hdst⟩ := hg.adj direction (hg.adj_length direction ▸ hlt)
  obtain rfl : edges = edges' := Option.some_inj.mp (hi.symm.trans hedges')
  exact hdst e he

/-- A search holds numbers of nodes, and has fuel for the turns that are left. -/
structure BfsState.Fits (n : ℕ) (s : BfsState) (fuel : ℕ) : Prop where
  visited : s.visited ⊆ Finset.range n
  queue : ∀ p ∈ s.queue, p.1 < n
  left : n - s.visited.card + s.queue.length ≤ fuel

theorem bfsEdge_fits (depth : ℕ) {fuel : ℕ} {s : BfsState} {e : Edge}
    (hs : s.Fits keys.length fuel) (he : e.dst < keys.length) :
    ∃ s', bfsEdge keys depth s e = some s' ∧ s'.Fits keys.length fuel := by
  rw [bfsEdge]
  by_cases hv : e.dst ∈ s.visited
  · exact ⟨s, if_pos hv, hs⟩
  · rw [if_neg hv, List.getElem?_eq_getElem he]
    refine ⟨_, rfl, ?_, ?_, ?_⟩
    · exact Finset.insert_subset (Finset.mem_range.mpr he) hs.visited
    · intro p hp
      rcases List.mem_append.mp hp with hp | hp
      · exact hs.queue p hp
      · rw [List.mem_singleton.mp hp]
        exact he
    · -- a node leaves the unvisited ones and joins the queue
      have hlt : s.visited.card < keys.length := by
        have hcard := Finset.card_le_card
          (Finset.insert_subset (Finset.mem_range.mpr he) hs.visited)
        rw [Finset.card_insert_of_notMem hv, Finset.card_range] at hcard
        exact hcard
      have hleft := hs.left
      rw [Finset.card_insert_of_notMem hv, List.length_append, List.length_singleton]
      omega

theorem bfsEdges_fits (depth : ℕ) {fuel : ℕ} {edges : List Edge} {s : BfsState}
    (hs : s.Fits keys.length fuel) (he : ∀ e ∈ edges, e.dst < keys.length) :
    ∃ s', edges.foldlM (bfsEdge keys depth) s = some s' ∧ s'.Fits keys.length fuel := by
  exact Fallible.exists_foldlM_eq_some hs fun e hmem t ht => bfsEdge_fits depth ht (he e hmem)

theorem bfsLoop_isSome {csr : Csr} {maxDepth fuel : ℕ} {relationFilter : Option Relation}
    {s : BfsState} (hs : s.Fits keys.length fuel)
    (hcsr : ∀ i < keys.length, ∃ edges, csr.edges i = some edges ∧
      ∀ e ∈ edges, e.dst < keys.length) :
    ∃ results, bfsLoop keys csr maxDepth relationFilter fuel s = some results := by
  induction fuel generalizing s with
  | zero =>
    have hqueue : s.queue = [] := by
      have := hs.left
      exact List.length_eq_zero_iff.mp (by omega)
    rw [bfsLoop, hqueue]
    exact ⟨_, rfl⟩
  | succ fuel ih =>
    rw [bfsLoop]
    cases hq : s.queue with
    | nil => exact ⟨_, rfl⟩
    | cons p queue =>
      obtain ⟨node, depth⟩ := p
      have hpop : BfsState.Fits keys.length { s with queue := queue } fuel := by
        refine ⟨hs.visited, fun p hp => hs.queue p (hq ▸ List.mem_cons_of_mem _ hp), ?_⟩
        have hleft := hs.left
        rw [hq, List.length_cons] at hleft
        exact Nat.le_of_succ_le_succ hleft
      by_cases hdepth : maxDepth ≤ depth
      · simp only [if_pos hdepth]
        exact ih hpop
      · simp only [if_neg hdepth]
        obtain ⟨edges, hedges, hdst⟩ := hcsr node (hs.queue (node, depth) (by simp [hq]))
        obtain ⟨s', hs', hfits⟩ := bfsEdges_fits depth hpop
          fun e (he : e ∈ edges.filter (passes relationFilter)) => hdst e (List.mem_of_mem_filter he)
        rw [hedges, Option.bind_eq_bind, Option.bind_some, hs']
        exact ih hfits

theorem Valid.lt_of_index (hg : g.Valid) {key : Bytes} {i : ℕ} (hi : g.keyToIdx[key]? = some i) :
    i < g.idxToKey.length := by
  obtain ⟨_, hk, _⟩ := (hg.index key i).mp hi
  exact (List.getElem?_eq_some_iff.mp hk).1

theorem Valid.edges (hg : g.Valid) (direction : String) {i : ℕ} (hi : i < g.idxToKey.length) :
    ∃ edges, (g.ensureBuilt.arrays direction).edges i = some edges ∧
      ∀ e ∈ edges, e.dst < g.idxToKey.length := by
  obtain ⟨edges, hedges, hdst⟩ := hg.adj direction hi
  exact ⟨edges, by rw [hg.arrays_ensureBuilt, edges_csrOf hedges], hdst⟩

/-- **A search of a valid graph returns**: no index is out of range, and the fuel is enough. -/
theorem Valid.bfs_isSome (hg : g.Valid) (start : Str) (direction : String) (maxDepth : ℕ)
    (relationFilter : Option Relation) :
    ∃ results, g.bfs start direction maxDepth relationFilter = some results := by
  rw [bfs]
  simp only [ensureBuilt_keyToIdx, ensureBuilt_idxToKey]
  cases hidx : g.keyToIdx[start.1]? with
  | none => exact ⟨_, rfl⟩
  | some idx =>
    have hlt := hg.lt_of_index hidx
    simp only [List.getElem?_eq_getElem hlt, Option.bind_eq_bind, Option.bind_some]
    refine bfsLoop_isSome ⟨?_, ?_, ?_⟩ fun i hi => hg.edges direction hi
    · exact Finset.singleton_subset_iff.mpr (Finset.mem_range.mpr hlt)
    · simpa using hlt
    · rw [Finset.card_singleton, List.length_singleton]
      omega

/-- **The neighbours** in a valid graph are looked up within it. -/
theorem Valid.neighbours_isSome (hg : g.Valid) (key : Str) (direction : String)
    (relationFilter : Option Relation) :
    ∃ results, g.neighbours key direction relationFilter = some results := by
  rw [neighbours]
  simp only [ensureBuilt_keyToIdx, ensureBuilt_idxToKey]
  cases hidx : g.keyToIdx[key.1]? with
  | none => exact ⟨_, rfl⟩
  | some idx =>
    obtain ⟨edges, hedges, hdst⟩ := hg.edges direction (hg.lt_of_index hidx)
    simp only [hedges, Option.bind_eq_bind, Option.bind_some]
    refine Fallible.exists_mapM_eq_some fun e he => ?_
    rw [List.getElem?_eq_getElem (hdst e (List.mem_of_mem_filter he))]
    exact ⟨_, rfl⟩

end

end RelationGraph

end Uldb
