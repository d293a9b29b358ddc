/-
The nearest neighbour index (`index/hnsw.rs`).

Every node has a list of neighbours on each of its layers.  A search walks down the layers
from the entry point, one beam search on each; an insertion does the same, and links the new
node on its layers.  An index out of range, or a missing entry point, is a panic in the
source: these functions return `none` there.

The graph reads floating point numbers only through distances, their order, and the test of
the level loop.  `Metric` holds these, and `cosine` are those of the source.

* `searchLayer_spec` — what a beam search returns;
* `Valid`, `valid_ofCalls` — what all insertions keep.
-/
import Uldb.Basic
import Uldb.Lib.BinaryHeap
import Uldb.Lib.Fallible

namespace Uldb

/-- A `Vec<f32>`, as bit patterns. -/
abbrev Floats := List UInt32

/-- What the graph reads of the arithmetic. -/
structure Metric (D : Type) where
  dist : Floats → Floats → D
  /-- `OrdF32(f32::MAX)` -/
  maxDist : D
  /-- `none` for a vector without a direction. -/
  normalize : Floats → Option Floats
  /-- The test of the loop of `random_level`, for `m` and the bits of the number drawn. -/
  deeper : ℕ → UInt64 → Bool
  normalize_length : ∀ v v', normalize v = some v' → v'.length = v.length

/-! ### The metric of the source -/

/-- The arithmetic of `f32` on bit patterns, and `next_f64() < (-1.0 / ml).exp()`. -/
class FloatOps where
  mul : UInt32 → UInt32 → UInt32
  sub : UInt32 → UInt32 → UInt32
  div : UInt32 → UInt32 → UInt32
  sum : Floats → UInt32
  sqrt : UInt32 → UInt32
  clamp : UInt32 → UInt32 → UInt32 → UInt32
  partialCmp : UInt32 → UInt32 → Option Ordering
  deeper : ℕ → UInt64 → Bool

/-- f32 wrapper that treats NaN as greater than everything. -/
structure OrdF32 where
  val : UInt32
  deriving DecidableEq

section

variable [FloatOps]

open FloatOps

instance : Ord OrdF32 := ⟨fun a b => (partialCmp a.val b.val).getD .gt⟩

/-- Cosine distance between two unit vectors: `1.0 - dot.clamp(-1.0, 1.0)`. -/
def cosineDist (a b : Floats) : UInt32 :=
  let dot := sum (List.zipWith mul a b)
  sub 0x3F800000 (clamp dot 0xBF800000 0x3F800000)

/-- Unit length; `none` if the norm is below `1e-10`. -/
def normalize (v : Floats) : Option Floats :=
  let norm := sqrt (sum (v.map fun x => mul x x))
  if partialCmp norm 0x2EDBE6FF = some .lt then none else some (v.map fun x => div x norm)

def cosine : Metric OrdF32 where
  dist a b := ⟨cosineDist a b⟩
  maxDist := ⟨0x7F7FFFFF⟩
  normalize := normalize
  deeper := deeper
  normalize_length v v' h := by
    rw [normalize] at h
    split at h
    · exact absurd h (by simp)
    · rw [← Option.some_inj.mp h, List.length_map]

end

/-! ### The index -/

structure HnswNode where
  /-- Normalized. -/
  vector : Floats
  key : Bytes
  /-- The neighbours on each layer. -/
  neighbours : List (List ℕ)
  deriving DecidableEq

/-- The linear congruential generator of the levels. -/
structure Rng where
  state : UInt64
  deriving DecidableEq

def Rng.new (seed : UInt64) : Rng := ⟨seed ^^^ 0x123456789ABCDEF0⟩

/-- The bits of a number in `[1, 2)`, which `next_f64` lowers by one. -/
def Rng.nextF64 (rng : Rng) : UInt64 × Rng :=
  let state := rng.state * 6364136223846793005 + 1442695040888963407
  ((0x3FF0000000000000 : UInt64) ||| (state >>> 11), ⟨state⟩)

/-- One result of a search. -/
structure SearchResult (D : Type) where
  key : Bytes
  distance : D
  rank : ℕ
  deriving DecidableEq

structure HnswIndex where
  dim : ℕ
  m : ℕ
  m0 : ℕ
  efBuild : ℕ
  efSearch : ℕ
  nodes : List HnswNode
  entryPoint : Option ℕ
  entryLevel : ℕ
  rng : Rng
  deriving DecidableEq

/-- What a beam search keeps: the nodes seen, those to expand, and the best found. -/
structure Beam (D : Type) where
  visited : Finset ℕ
  cands : List (D × ℕ)
  results : List (D × ℕ)

section

variable {D : Type} [Ord D]

/-- The order of the pairs in a max-heap. -/
def leFar (a b : D × ℕ) : Bool := ((compare a.1 b.1).then (compare a.2 b.2)).isLE

/-- The order of the pairs in a min-heap (`Reverse`). -/
def leNear (a b : D × ℕ) : Bool := leFar b a

/-- `sort_by(|a, b| a.0.cmp(&b.0))`, which is stable. -/
def sortByDist (cands : List (D × ℕ)) : List (D × ℕ) :=
  cands.insertionSort fun a b => (compare a.1 b.1).isLE

/-- The best candidate, if there is one, is where the next layer starts. -/
def nearest (cands : List (D × ℕ)) (ep : ℕ) : ℕ := (cands.head?.map Prod.snd).getD ep

end

namespace HnswIndex

/-- The source asserts that `dim > 0` and `m >= 2`. -/
def new (dim m efBuild efSearch : ℕ) : Option HnswIndex :=
  if 0 < dim ∧ 2 ≤ m then
    some ⟨dim, m, m * 2, efBuild, efSearch, [], none, 0, .new 42⟩
  else none

def withDefaults (dim : ℕ) : Option HnswIndex := new dim 16 200 50

def getLayerNeighbours (h : HnswIndex) (node layer : ℕ) : Option (List ℕ) := do
  let node ← h.nodes[node]?
  return node.neighbours[layer]?.getD []

section

variable {D : Type} (g : Metric D)

def nodeDist (h : HnswIndex) (a b : ℕ) : Option D := do
  let a ← h.nodes[a]?
  let b ← h.nodes[b]?
  return g.dist a.vector b.vector

def vecDist (h : HnswIndex) (vec : Floats) (node : ℕ) : Option D := do
  let node ← h.nodes[node]?
  return g.dist node.vector vec

/-- The loop of `random_level`, with at most `left` more levels. -/
def levelLoop (m : ℕ) : ℕ → Rng → ℕ × Rng
  | left, rng =>
    let (bits, rng) := rng.nextF64
    if g.deeper m bits then
      match left with
      -- a number is drawn before the bound is tested
      | 0 => (0, rng)
      | left + 1 =>
        let (level, rng) := levelLoop m left rng
        (level + 1, rng)
    else (0, rng)

def randomLevel (h : HnswIndex) : ℕ × Rng := levelLoop g h.m 16 h.rng

variable [Ord D]

/-- One neighbour of the node under work. -/
def visitNeighbour (dist : ℕ → Option D) (ef : ℕ) (s : Beam D) (nb : ℕ) : Option (Beam D) :=
  if nb ∈ s.visited then some s
  else do
    let nbD ← dist nb
    let s := { s with visited := insert nb s.visited }
    -- the farthest result is on top of its heap
    let worst := (s.results.head?.map Prod.fst).getD g.maxDist
    if compare nbD worst = .lt ∨ s.results.length < ef then
      let results := BinaryHeap.push leFar s.results (nbD, nb)
      return { s with
        cands := BinaryHeap.push leNear s.cands (nbD, nb)
        results := if ef < results.length then
          ((BinaryHeap.pop leFar results).map Prod.snd).getD results else results }
    else return s

/-- The loop of a beam search.  Every turn takes a candidate, and no node becomes a
candidate twice: the number of nodes is enough fuel. -/
def beamLoop (h : HnswIndex) (dist : ℕ → Option D) (ef layer : ℕ) :
    ℕ → Beam D → Option (List (D × ℕ))
  | fuel, s =>
    match BinaryHeap.pop leNear s.cands with
    | none => some s.results
    | some ((cDist, cIdx), cands) =>
      match fuel with
      | 0 => none
      | fuel + 1 =>
        -- the nearest candidate is farther than all results of a full beam
        if s.results.head?.any (fun worst => compare cDist worst.1 = .gt)
            ∧ ef ≤ s.results.length then some s.results
        else do
          let nbs ← h.getLayerNeighbours cIdx layer
          let s ← nbs.foldlM (visitNeighbour g dist ef) { s with cands := cands }
          beamLoop h dist ef layer fuel s

/-- Beam search on a layer from a node. -/
def searchLayer (h : HnswIndex) (dist : ℕ → Option D) (ep ef layer : ℕ) :
    Option (List (D × ℕ)) := do
  let epD ← dist ep
  let results ← h.beamLoop g dist ef layer h.nodes.length ⟨{ep}, [(epD, ep)], [(epD, ep)]⟩
  return sortByDist results

def searchLayerNode (h : HnswIndex) (query ep ef layer : ℕ) : Option (List (D × ℕ)) :=
  h.searchLayer g (h.nodeDist g query) ep ef layer

def searchLayerVec (h : HnswIndex) (queryVec : Floats) (ep ef layer : ℕ) :
    Option (List (D × ℕ)) :=
  h.searchLayer g (h.vecDist g queryVec) ep ef layer

/-- The loop of `select_neighbours_heuristic`; the vectors of the selected nodes are kept
beside them. -/
def selectLoop (h : HnswIndex) (query m : ℕ) :
    List (D × ℕ) → List (ℕ × Floats) → Option (List ℕ)
  | [], selected => some (selected.map Prod.fst)
  | (dist, idx) :: candidates, selected =>
    if idx = query then selectLoop h query m candidates selected
    else if m ≤ selected.length then some (selected.map Prod.fst)
    else do
      let node ← h.nodes[idx]?
      -- not closer to a selected node than to the query
      let good := selected.all fun s => compare (g.dist node.vector s.2) dist ≠ .lt
      selectLoop h query m candidates
        (if good then selected ++ [(idx, node.vector)] else selected)

/-- Prefers diverse neighbours over the closest. -/
def selectNeighboursHeuristic (h : HnswIndex) (query : ℕ) (candidates : List (D × ℕ)) (m : ℕ) :
    Option (List ℕ) := h.selectLoop g query m candidates []

def prune (h : HnswIndex) (node layer mMax : ℕ) : Option (List ℕ) := do
  let n ← h.nodes[node]?
  let current ← n.neighbours[layer]?
  let cands ← current.mapM fun nb => do return (← h.nodeDist g node nb, nb)
  h.selectNeighboursHeuristic g node (sortByDist cands) mMax

end

/-- Change the lists of a node. -/
def modifyLists (h : HnswIndex) (node : ℕ) (f : List (List ℕ) → List (List ℕ)) : HnswIndex :=
  { h with nodes := h.nodes.modify node fun n => { n with neighbours := f n.neighbours } }

/-- `self.nodes[node].neighbours[layer] = list`, on a layer that the node has. -/
def setNeighbours (h : HnswIndex) (node layer : ℕ) (list : List ℕ) : HnswIndex :=
  h.modifyLists node fun lists => lists.set layer list

/-- `while neighbours.len() <= layer { neighbours.push(Vec::new()) }` -/
def padLayers (h : HnswIndex) (node layer : ℕ) : HnswIndex :=
  h.modifyLists node fun lists => lists ++ List.replicate (layer + 1 - lists.length) []

section

variable {D : Type} [Ord D] (g : Metric D)

/-- The link from a selected neighbour back to the new node. -/
def linkBack (newIdx layer mMax : ℕ) (h : HnswIndex) (nb : ℕ) : Option HnswIndex := do
  let h := h.padLayers nb layer
  let node ← h.nodes[nb]?
  let list ← node.neighbours[layer]?
  let list := if newIdx ∈ list then list else list ++ [newIdx]
  let h := h.setNeighbours nb layer list
  if mMax < list.length then
    let pruned ← h.prune g nb layer mMax
    return h.setNeighbours nb layer pruned
  else return h

/-- The most neighbours that a node keeps on a layer. -/
def mMax (h : HnswIndex) (layer : ℕ) : ℕ := if layer = 0 then h.m0 else h.m

/-- Link the new node on one layer; where the next layer starts. -/
def connectLayer (newIdx : ℕ) (s : HnswIndex × ℕ) (layer : ℕ) : Option (HnswIndex × ℕ) := do
  let (h, ep) := s
  let cands ← h.searchLayerNode g newIdx ep h.efBuild layer
  let selected ← h.selectNeighboursHeuristic g newIdx cands (h.mMax layer)
  let node ← h.nodes[newIdx]?
  -- the lists of the new node were made when it was pushed
  if node.neighbours.length ≤ layer then none
  else do
    let h' ← selected.foldlM (linkBack g newIdx layer (h.mMax layer))
      (h.setNeighbours newIdx layer selected)
    return (h', nearest cands ep)

/-- `for lyr in (lo..=hi).rev()` with a beam of one. -/
def descend (h : HnswIndex) (dist : ℕ → Option D) (lo hi ep : ℕ) : Option ℕ :=
  (List.range' lo (hi + 1 - lo)).reverse.foldlM (fun ep layer => do
    return nearest (← h.searchLayer g dist ep 1 layer) ep) ep

/-- A node without neighbours on the layers up to `level`. -/
def pushNode (h : HnswIndex) (key : Bytes) (vector : Floats) (level : ℕ) : HnswIndex :=
  let node : HnswNode := ⟨vector, key, List.replicate (level + 1) []⟩
  { h with nodes := h.nodes ++ [node] }

/-- `add` once the vector is normalized and the level is drawn. -/
def insertNode (h : HnswIndex) (key : Bytes) (vector : Floats) (level : ℕ) : Option HnswIndex :=
  let newIdx := h.nodes.length
  let h := h.pushNode key vector level
  match h.entryPoint with
  | none => some { h with entryPoint := some newIdx, entryLevel := level }
  | some ep => do
    -- down to the layer above the new node, then a beam search on each common layer
    let ep ← h.descend g (h.nodeDist g newIdx) (level + 1) h.entryLevel ep
    let (h', _) ← (List.range (min level h.entryLevel + 1)).reverse.foldlM
      (connectLayer g newIdx) (h, ep)
    if h.entryLevel < level then
      return { h' with entryPoint := some newIdx, entryLevel := level }
    else return h'

/-- Add a vector to the index. -/
def add (h : HnswIndex) (key : Bytes) (vector : Floats) : Option (Except String HnswIndex) :=
  if vector.length ≠ h.dim then
    some (.error ("dimension mismatch: index has dim=" ++ toString h.dim ++ ", got dim="
      ++ toString vector.length))
  else
    match g.normalize vector with
    | none => some (.error "vector has zero norm and cannot be normalized")
    | some v =>
      let (level, rng) := h.randomLevel g
      (insertNode g { h with rng := rng } key v level).map .ok

def searchResult (h : HnswIndex) (cand : (D × ℕ) × ℕ) : Option (SearchResult D) := do
  let node ← h.nodes[cand.1.2]?
  return ⟨node.key, cand.1.1, cand.2⟩

/-- `search_with_ef` once the width of the beam is known. -/
def searchBeam (h : HnswIndex) (query : Floats) (k efSearch : ℕ) :
    Option (List (SearchResult D)) :=
  if h.nodes = [] ∨ k = 0 ∨ query.length ≠ h.dim then some []
  else
    match g.normalize query with
    | none => some []
    | some qv => do
      let ep ← h.entryPoint
      let ep ← h.descend g (h.vecDist g qv) 1 h.entryLevel ep
      let cands ← h.searchLayerVec g qv ep (max efSearch k) 0
      ((sortByDist cands).take k).zipIdx.mapM h.searchResult

/-- The `k` approximate nearest neighbours. -/
def search (h : HnswIndex) (query : Floats) (k : ℕ) : Option (List (SearchResult D)) :=
  h.searchBeam g query k h.efSearch

/-- `search` with its own beam width. -/
def searchWithEf (h : HnswIndex) (query : Floats) (k efOverride : ℕ) :
    Option (List (SearchResult D)) := h.searchBeam g query k efOverride

/-- The index after successful insertions. -/
def ofCalls (dim m efBuild efSearch : ℕ) (calls : List (Bytes × Floats)) : Option HnswIndex := do
  let h ← new dim m efBuild efSearch
  calls.foldlM (fun h call => (h.add g call.1 call.2).bind Except.toOption) h

end

end HnswIndex

/-! ### Beam search -/

namespace HnswIndex

open Fallible

section

variable {D : Type} [Ord D] {g : Metric D} {h : HnswIndex} {dist : ℕ → Option D}
  {ef layer fuel : ℕ} {s s' : Beam D} {P : ℕ → Prop}

/-- What a beam search keeps, for a property of nodes. -/
structure BeamOf (P : ℕ → Prop) (s : Beam D) : Prop where
  cands : ∀ c ∈ s.cands, P c.2
  results : ∀ c ∈ s.results, P c.2 ∧ c.2 ∈ s.visited
  nodup : (s.results.map Prod.snd).Nodup

/-- The results with the farthest put out. -/
theorem evict_perm {α : Type} (le : α → α → Bool) (results : List α) :
    ∃ out, results.Perm (out ++ ((BinaryHeap.pop le results).map Prod.snd).getD results) := by
  cases hpop : BinaryHeap.pop le results with
  | none => exact ⟨[], List.Perm.refl _⟩
  | some p => exact ⟨[p.1], BinaryHeap.pop_perm hpop⟩

/-- What one neighbour can do: nothing, or it is seen for the first time, and then it is a
new candidate and result, perhaps in the place of another one, or it is too far. -/
theorem visitNeighbour_eq_some {nb : ℕ} (h : visitNeighbour g dist ef s nb = some s') :
    s' = s ∨ nb ∉ s.visited ∧ s'.visited = insert nb s.visited ∧
      (s'.cands = s.cands ∧ s'.results = s.results ∨
        ∃ nbD, dist nb = some nbD ∧ s'.cands.Perm ((nbD, nb) :: s.cands) ∧
          ∃ out, ((nbD, nb) :: s.results).Perm (out ++ s'.results)) := by
  rw [visitNeighbour] at h
  split at h
  · exact .inl (Option.some_inj.mp h).symm
  · rename_i hnew
    refine .inr ⟨hnew, ?_⟩
    obtain ⟨nbD, hdist, h⟩ := Option.bind_eq_some_iff.mp h
    simp only at h
    split at h
    · rw [← Option.some_inj.mp h]
      refine ⟨rfl, .inr ⟨nbD, hdist, BinaryHeap.push_perm _ _, ?_⟩⟩
      have hpush : ((nbD, nb) :: s.results).Perm (BinaryHeap.push leFar s.results (nbD, nb)) :=
        (BinaryHeap.push_perm _ _).symm
      simp only
      split
      · obtain ⟨out, hout⟩ := evict_perm leFar (BinaryHeap.push leFar s.results (nbD, nb))
        exact ⟨out, hpush.trans hout⟩
      · exact ⟨[], hpush⟩
    · rw [← Option.some_inj.mp h]
      exact ⟨rfl, .inl ⟨rfl, rfl⟩⟩

theorem BeamOf.visitNeighbour (hs : BeamOf P s) {nb : ℕ} (hnb : P nb)
    (h : visitNeighbour g dist ef s nb = some s') : BeamOf P s' := by
  rcases visitNeighbour_eq_some h with rfl | ⟨hnew, hvisited, ⟨hcands, hresults⟩ |
    ⟨nbD, _, hcands, out, hresults⟩⟩
  · exact hs
  · refine ⟨hcands ▸ hs.cands, fun c hc => ?_, hresults ▸ hs.nodup⟩
    rw [hresults] at hc
    rw [hvisited]
    exact ⟨(hs.results c hc).1, Finset.mem_insert_of_mem (hs.results c hc).2⟩
  · refine ⟨fun c hc => ?_, fun c hc => ?_, ?_⟩
    · rcases List.mem_cons.mp (hcands.mem_iff.mp hc) with rfl | hc
      · exact hnb
      · exact hs.cands c hc
    · rw [hvisited]
      rcases List.mem_cons.mp (hresults.mem_iff.mpr (List.mem_append_right _ hc)) with rfl | hc
      · exact ⟨hnb, Finset.mem_insert_self _ _⟩
      · exact ⟨(hs.results c hc).1, Finset.mem_insert_of_mem (hs.results c hc).2⟩
    · -- a node that was not visited is in no result yet
      have hall : (((nbD, nb) :: s.results).map Prod.snd).Nodup := by
        rw [List.map_cons, List.nodup_cons]
        refine ⟨fun hmem => ?_, hs.nodup⟩
        obtain ⟨c, hc, rfl⟩ := List.mem_map.mp hmem
        exact hnew (hs.results c hc).2
      rw [(hresults.map Prod.snd).nodup_iff, List.map_append] at hall
      exact (List.nodup_append.mp hall).2.1

/-- The neighbours of such nodes are such nodes. -/
def ClosedOn (h : HnswIndex) (layer : ℕ) (P : ℕ → Prop) : Prop :=
  ∀ i nbs, P i → h.getLayerNeighbours i layer = some nbs → ∀ nb ∈ nbs, P nb

/-- A turn of the loop ends with the results, or goes on after the neighbours of the nearest
candidate. -/
theorem beamLoop_eq_some {out : List (D × ℕ)} (hrun : h.beamLoop g dist ef layer fuel s = some out) :
    out = s.results ∨ ∃ c cands nbs s' fuel', fuel = fuel' + 1 ∧
      BinaryHeap.pop leNear s.cands = some (c, cands) ∧
      h.getLayerNeighbours c.2 layer = some nbs ∧
      nbs.foldlM (HnswIndex.visitNeighbour g dist ef) { s with cands := cands } = some s' ∧
      h.beamLoop g dist ef layer fuel' s' = some out := by
  unfold beamLoop at hrun
  cases hpop : BinaryHeap.pop leNear s.cands with
  | none =>
    simp only [hpop] at hrun
    exact .inl (Option.some_inj.mp hrun).symm
  | some p =>
    obtain ⟨⟨cDist, cIdx⟩, cands⟩ := p
    cases fuel with
    | zero => simp [hpop] at hrun
    | succ fuel =>
      simp only [hpop] at hrun
      split at hrun
      · exact .inl (Option.some_inj.mp hrun).symm
      · obtain ⟨nbs, hnbs, hrun⟩ := Option.bind_eq_some_iff.mp hrun
        obtain ⟨s', hs', hrun⟩ := Option.bind_eq_some_iff.mp hrun
        exact .inr ⟨(cDist, cIdx), cands, nbs, s', fuel, rfl, rfl, hnbs, hs', hrun⟩

theorem BeamOf.beamLoop (hclosed : h.ClosedOn layer P) (hs : BeamOf P s) {out : List (D × ℕ)}
    (hrun : h.beamLoop g dist ef layer fuel s = some out) :
    (∀ c ∈ out, P c.2) ∧ (out.map Prod.snd).Nodup := by
  induction fuel using Nat.strong_induction_on generalizing s with
  | h fuel ih =>
    rcases beamLoop_eq_some hrun with rfl | ⟨c, cands, nbs, s', fuel', rfl, hpop, hnbs, hs', hrun⟩
    · exact ⟨fun c hc => (hs.results c hc).1, hs.nodup⟩
    · have hperm := BinaryHeap.pop_perm hpop
      have hidx : P c.2 := hs.cands c (hperm.mem_iff.mpr List.mem_cons_self)
      have hrest : BeamOf P { s with cands := cands } :=
        ⟨fun c hc => hs.cands c (hperm.mem_iff.mpr (List.mem_cons_of_mem _ hc)), hs.results,
          hs.nodup⟩
      refine ih fuel' (Nat.lt_succ_self _) ?_ hrun
      exact foldlM_induction hs' hrest fun nb hnb _ _ ht => ht.visitNeighbour (hclosed _ _ hidx hnbs nb hnb)

/-- **A beam search** finds nodes with every property that its first node has and that is
closed under neighbours, and each node once. -/
theorem searchLayer_spec (hclosed : h.ClosedOn layer P) {ep : ℕ} (hep : P ep)
    {out : List (D × ℕ)} (hrun : h.searchLayer g dist ep ef layer = some out) :
    (∀ c ∈ out, P c.2) ∧ (out.map Prod.snd).Nodup := by
  obtain ⟨epD, _, hrun⟩ := Option.bind_eq_some_iff.mp hrun
  obtain ⟨results, hresults, hrun⟩ := Option.bind_eq_some_iff.mp hrun
  obtain rfl := Option.some_inj.mp hrun
  have hstart : BeamOf P (⟨{ep}, [(epD, ep)], [(epD, ep)]⟩ : Beam D) :=
    ⟨by simpa using hep, by simpa using hep, by simp⟩
  obtain ⟨hall, hnodup⟩ := hstart.beamLoop hclosed hresults
  have hperm : (sortByDist results).Perm results := List.perm_insertionSort _ _
  exact ⟨fun c hc => hall c (hperm.mem_iff.mp hc), (hperm.map Prod.snd).nodup_iff.mpr hnodup⟩

omit [Ord D] in
theorem nearest_spec {cands : List (D × ℕ)} {ep : ℕ} (hep : P ep) (hall : ∀ c ∈ cands, P c.2) :
    P (nearest cands ep) := by
  cases cands with
  | nil => exact hep
  | cons c cands => exact hall c List.mem_cons_self

theorem descend_spec {lo hi ep ep' : ℕ} (hclosed : ∀ layer, lo ≤ layer → h.ClosedOn layer P)
    (hep : P ep) (hrun : h.descend g dist lo hi ep = some ep') : P ep' := by
  refine foldlM_induction hrun hep fun layer hlayer ep ep' hep h => ?_
  have hlo : lo ≤ layer := (List.mem_range'_1.mp (List.mem_reverse.mp hlayer)).1
  obtain ⟨cands, hcands, h⟩ := Option.bind_eq_some_iff.mp h
  obtain rfl := Option.some_inj.mp h
  exact nearest_spec hep (searchLayer_spec (hclosed layer hlo) hep hcands).1

/-! ### Selection -/

/-- The loop picks candidates in their order, and none of them is the query. -/
theorem selectLoop_spec {query m : ℕ} {candidates : List (D × ℕ)} {selected : List (ℕ × Floats)}
    {out : List ℕ} (hrun : h.selectLoop g query m candidates selected = some out) :
    ∃ picked, out = selected.map Prod.fst ++ picked ∧
      picked.Sublist (candidates.map Prod.snd) ∧ query ∉ picked ∧
      (selected.length ≤ m → out.length ≤ m) := by
  induction candidates generalizing selected with
  | nil =>
    obtain rfl := Option.some_inj.mp hrun
    exact ⟨[], by simp, List.Sublist.refl _, by simp, by simp⟩
  | cons c candidates ih =>
    obtain ⟨d, idx⟩ := c
    rw [selectLoop] at hrun
    split at hrun
    · obtain ⟨picked, hout, hsub, hquery, hlen⟩ := ih hrun
      exact ⟨picked, hout, hsub.trans (List.sublist_cons_self _ _), hquery, hlen⟩
    · rename_i hidx
      split at hrun
      · obtain rfl := Option.some_inj.mp hrun
        exact ⟨[], by simp, List.nil_sublist _, by simp, by simp⟩
      · rename_i hroom
        obtain ⟨node, _, hrun⟩ := Option.bind_eq_some_iff.mp hrun
        simp only at hrun
        obtain ⟨picked, hout, hsub, hquery, hlen⟩ := ih hrun
        split at hout
        · refine ⟨idx :: picked, by simpa using hout, hsub.cons_cons idx, ?_, fun _ => hlen ?_⟩
          · rw [List.mem_cons, not_or]
            exact ⟨fun h => hidx h.symm, hquery⟩
          · split <;> simp <;> omega
        · refine ⟨picked, hout, hsub.trans (List.sublist_cons_self _ _), hquery, fun h => hlen ?_⟩
          rwa [if_neg ‹_›]

theorem select_spec {query m : ℕ} {candidates : List (D × ℕ)} {out : List ℕ}
    (hrun : h.selectNeighboursHeuristic g query candidates m = some out) :
    out.Sublist (candidates.map Prod.snd) ∧ query ∉ out ∧ out.length ≤ m := by
  obtain ⟨picked, rfl, hsub, hquery, hlen⟩ := selectLoop_spec hrun
  exact ⟨hsub, hquery, hlen (Nat.zero_le m)⟩

omit [Ord D] in
/-- The candidates of a pruning are the list, with distances. -/
theorem map_snd_of_mapM {node : ℕ} {list : List ℕ} {cands : List (D × ℕ)}
    (hcands : list.mapM (fun nb => do return (← h.nodeDist g node nb, nb)) = some cands) :
    cands.map Prod.snd = list := by
  refine map_of_mapM_eq_some (fun nb c hc => ?_) hcands
  obtain ⟨d, _, hc⟩ := Option.bind_eq_some_iff.mp hc
  rw [← Option.some_inj.mp hc]

/-- A pruned list is a part of the list. -/
theorem prune_spec {node mMax : ℕ} {out : List ℕ} (hrun : h.prune g node layer mMax = some out) :
    ∃ n list, h.nodes[node]? = some n ∧ n.neighbours[layer]? = some list ∧
      out.Subperm list ∧ node ∉ out ∧ out.length ≤ mMax := by
  obtain ⟨n, hn, hrun⟩ := Option.bind_eq_some_iff.mp hrun
  obtain ⟨list, hlist, hrun⟩ := Option.bind_eq_some_iff.mp hrun
  obtain ⟨cands, hcands, hrun⟩ := Option.bind_eq_some_iff.mp hrun
  obtain ⟨hsub, hnode, hlen⟩ := select_spec hrun
  have hsnd := map_snd_of_mapM hcands
  have hperm : ((sortByDist cands).map Prod.snd).Perm list :=
    hsnd ▸ (List.perm_insertionSort _ cands).map Prod.snd
  exact ⟨n, list, hn, hlist, hsub.subperm.trans hperm.subperm, hnode, hlen⟩

end

/-! ### Valid indexes -/

/-- What all insertions keep: a level is at most 16, a node has at most 17 layers, and the
lists of neighbours name nodes, each once. -/
structure Valid (h : HnswIndex) : Prop where
  m0 : h.m0 = h.m * 2
  level : h.entryLevel ≤ 16
  entry : ∀ ep, h.entryPoint = some ep → ep < h.nodes.length
  vector : ∀ node ∈ h.nodes, node.vector.length = h.dim
  layers : ∀ node ∈ h.nodes, node.neighbours.length ≤ 17
  nodup : ∀ node ∈ h.nodes, ∀ list ∈ node.neighbours, list.Nodup
  lt : ∀ node ∈ h.nodes, ∀ list ∈ node.neighbours, ∀ nb ∈ list, nb < h.nodes.length

theorem valid_new {dim m efBuild efSearch : ℕ} {h : HnswIndex}
    (hnew : new dim m efBuild efSearch = some h) : h.Valid := by
  rw [new] at hnew
  split at hnew
  · rw [← Option.some_inj.mp hnew]
    exact ⟨rfl, by simp, by simp, by simp, by simp, by simp, by simp⟩
  · exact absurd hnew (by simp)

section

variable {D : Type} {g : Metric D} {h h' : HnswIndex}

/-- The lists of neighbours name nodes only. -/
def Linked (h : HnswIndex) : Prop :=
  ∀ node ∈ h.nodes, ∀ list ∈ node.neighbours, ∀ nb ∈ list, nb < h.nodes.length

theorem Valid.linked (hh : h.Valid) : h.Linked := hh.lt

/-- Only nodes have neighbours on a layer, and these are nodes. -/
theorem Linked.closedOn (hl : h.Linked) (layer : ℕ) : h.ClosedOn layer (· < h.nodes.length) := by
  intro i nbs _ hnbs nb hnb
  obtain ⟨node, hnode, hnbs⟩ := Option.bind_eq_some_iff.mp hnbs
  obtain rfl := Option.some_inj.mp hnbs
  cases hlist : node.neighbours[layer]? with
  | none =>
    rw [hlist] at hnb
    exact absurd hnb (by simp)
  | some list =>
    rw [hlist] at hnb
    exact hl node (List.mem_of_getElem? hnode) list (List.mem_of_getElem? hlist) nb hnb

/-- The same index with other lists of neighbours. -/
structure Relinked (h h' : HnswIndex) : Prop where
  dim : h'.dim = h.dim
  entryPoint : h'.entryPoint = h.entryPoint
  entryLevel : h'.entryLevel = h.entryLevel
  nodes : h'.nodes.map (fun n => (n.key, n.vector)) = h.nodes.map fun n => (n.key, n.vector)

theorem Relinked.refl (h : HnswIndex) : h.Relinked h := ⟨rfl, rfl, rfl, rfl⟩

theorem Relinked.trans {h'' : HnswIndex} (h₁ : h.Relinked h') (h₂ : h'.Relinked h'') :
    h.Relinked h'' :=
  ⟨h₂.dim.trans h₁.dim, h₂.entryPoint.trans h₁.entryPoint, h₂.entryLevel.trans h₁.entryLevel,
    h₂.nodes.trans h₁.nodes⟩

theorem Relinked.length (hl : h.Relinked h') : h'.nodes.length = h.nodes.length := by
  simpa using congrArg List.length hl.nodes

theorem relinked_modifyLists (i : ℕ) (f : List (List ℕ) → List (List ℕ)) :
    h.Relinked (h.modifyLists i f) := by
  refine ⟨rfl, rfl, rfl, List.ext_getElem? fun j => ?_⟩
  rw [modifyLists, List.getElem?_map, List.getElem?_map, List.getElem?_modify]
  cases h.nodes[j]? with
  | none => rfl
  | some n => by_cases hij : i = j <;> simp [hij]

@[simp] theorem length_modifyLists (i : ℕ) (f : List (List ℕ) → List (List ℕ)) :
    (h.modifyLists i f).nodes.length = h.nodes.length := List.length_modify _ _ _

@[simp] theorem length_setNeighbours (node layer : ℕ) (list : List ℕ) :
    (h.setNeighbours node layer list).nodes.length = h.nodes.length := length_modifyLists _ _

@[simp] theorem length_padLayers (node layer : ℕ) :
    (h.padLayers node layer).nodes.length = h.nodes.length := length_modifyLists _ _

theorem mem_modifyLists {i : ℕ} {f : List (List ℕ) → List (List ℕ)} {node : HnswNode}
    (hnode : node ∈ (h.modifyLists i f).nodes) :
    node ∈ h.nodes ∨ ∃ n, h.nodes[i]? = some n ∧ node = { n with neighbours := f n.neighbours } := by
  obtain ⟨j, hj⟩ := List.getElem?_of_mem hnode
  rw [modifyLists, List.getElem?_modify] at hj
  obtain ⟨n, hn, rfl⟩ := Option.map_eq_some_iff.mp hj
  by_cases hij : i = j
  · subst hij
    exact .inr ⟨n, hn, by simp⟩
  · refine .inl ?_
    simpa [hij] using List.mem_of_getElem? hn

/-- A change to the lists of a node that adds good lists only. -/
theorem Valid.modifyLists (hh : h.Valid) {i : ℕ} {f : List (List ℕ) → List (List ℕ)}
    (hlen : ∀ lists : List (List ℕ), lists.length ≤ 17 → (f lists).length ≤ 17)
    (hf : ∀ lists, ∀ list ∈ f lists, list ∈ lists ∨
      list.Nodup ∧ ∀ nb ∈ list, nb < h.nodes.length) :
    (h.modifyLists i f).Valid where
  m0 := hh.m0
  level := hh.level
  entry ep hep := (length_modifyLists i f).symm ▸ hh.entry ep hep
  vector node hnode := by
    rcases mem_modifyLists hnode with hnode | ⟨n, hn, rfl⟩
    · exact hh.vector node hnode
    · exact hh.vector n (List.mem_of_getElem? hn)
  layers node hnode := by
    rcases mem_modifyLists hnode with hnode | ⟨n, hn, rfl⟩
    · exact hh.layers node hnode
    · exact hlen _ (hh.layers n (List.mem_of_getElem? hn))
  nodup node hnode list hlist := by
    rcases mem_modifyLists hnode with hnode | ⟨n, hn, rfl⟩
    · exact hh.nodup node hnode list hlist
    · rcases hf _ list hlist with hold | hnew
      · exact hh.nodup n (List.mem_of_getElem? hn) list hold
      · exact hnew.1
  lt node hnode list hlist nb hnb := by
    rw [length_modifyLists]
    rcases mem_modifyLists hnode with hnode | ⟨n, hn, rfl⟩
    · exact hh.lt node hnode list hlist nb hnb
    · rcases hf _ list hlist with hold | hnew
      · exact hh.lt n (List.mem_of_getElem? hn) list hold nb hnb
      · exact hnew.2 nb hnb

theorem Valid.setNeighbours (hh : h.Valid) (node layer : ℕ) {list : List ℕ} (hnodup : list.Nodup)
    (hlt : ∀ nb ∈ list, nb < h.nodes.length) : (h.setNeighbours node layer list).Valid := by
  refine hh.modifyLists (fun lists hlists => by simpa using hlists) fun lists l hl => ?_
  rcases List.mem_or_eq_of_mem_set hl with hl | rfl
  · exact .inl hl
  · exact .inr ⟨hnodup, hlt⟩

theorem Valid.padLayers (hh : h.Valid) (node : ℕ) {layer : ℕ} (hlayer : layer ≤ 16) :
    (h.padLayers node layer).Valid := by
  refine hh.modifyLists (fun lists hlists => ?_) fun lists l hl => ?_
  · rw [List.length_append, List.length_replicate]
    omega
  · rcases List.mem_append.mp hl with hl | hl
    · exact .inl hl
    · rw [List.eq_of_mem_replicate hl]
      exact .inr ⟨List.nodup_nil, by simp⟩

/-- A new node has no neighbours yet. -/
theorem Valid.pushNode (hh : h.Valid) (key : Bytes) {vector : Floats} {level : ℕ}
    (hvector : vector.length = h.dim) (hlevel : level ≤ 16) :
    (h.pushNode key vector level).Valid := by
  rw [HnswIndex.pushNode]
  refine ⟨hh.m0, hh.level, fun ep hep => ?_, fun node hnode => ?_, fun node hnode => ?_,
    fun node hnode list hlist => ?_, fun node hnode list hlist nb hnb => ?_⟩
  · rw [List.length_append]
    exact Nat.lt_add_right _ (hh.entry ep hep)
  all_goals rcases List.mem_append.mp hnode with hnode | hnode
  · exact hh.vector node hnode
  · rw [List.mem_singleton.mp hnode]
    exact hvector
  · exact hh.layers node hnode
  · rw [List.mem_singleton.mp hnode, List.length_replicate]
    omega
  · exact hh.nodup node hnode list hlist
  · rw [List.mem_singleton.mp hnode] at hlist
    rw [List.eq_of_mem_replicate hlist]
    exact List.nodup_nil
  · rw [List.length_append]
    exact Nat.lt_add_right _ (hh.lt node hnode list hlist nb hnb)
  · rw [List.mem_singleton.mp hnode] at hlist
    rw [List.eq_of_mem_replicate hlist] at hnb
    exact absurd hnb List.not_mem_nil

theorem levelLoop_le (m left : ℕ) (rng : Rng) : (levelLoop g m left rng).1 ≤ left := by
  induction left generalizing rng with
  | zero =>
    rw [levelLoop.eq_def]
    simp only
    split <;> rfl
  | succ left ih =>
    rw [levelLoop.eq_def]
    simp only
    split
    · exact Nat.succ_le_succ (ih _)
    · exact Nat.zero_le _

variable [Ord D]

theorem Valid.linkBack (hh : h.Valid) {newIdx layer mMax nb : ℕ} (hnew : newIdx < h.nodes.length)
    (hlayer : layer ≤ 16) (hrun : linkBack g newIdx layer mMax h nb = some h') :
    h'.Valid ∧ h.Relinked h' := by
  have hpad := hh.padLayers nb hlayer
  obtain ⟨node, hnode, hrun⟩ := Option.bind_eq_some_iff.mp hrun
  obtain ⟨list, hlist, hrun⟩ := Option.bind_eq_some_iff.mp hrun
  have hmem := List.mem_of_getElem? hnode
  have hnodup := hpad.nodup node hmem list (List.mem_of_getElem? hlist)
  have hlt := hpad.lt node hmem list (List.mem_of_getElem? hlist)
  rw [length_padLayers] at hlt
  set list' := if newIdx ∈ list then list else list ++ [newIdx] with hlist'
  have hlink : list'.Nodup ∧ ∀ nb ∈ list', nb < h.nodes.length := by
    rw [hlist']
    split
    · exact ⟨hnodup, hlt⟩
    · rename_i hnot
      refine ⟨by simpa using hnodup.concat hnot, fun nb hnb => ?_⟩
      rcases List.mem_append.mp hnb with hnb | hnb
      · exact hlt nb hnb
      · rwa [List.mem_singleton.mp hnb]
  have hrelinked : h.Relinked ((h.padLayers nb layer).setNeighbours nb layer list') :=
    (relinked_modifyLists _ _).trans (relinked_modifyLists _ _)
  have hset := hpad.setNeighbours nb layer hlink.1 (by simpa using hlink.2)
  simp only at hrun
  split at hrun
  · obtain ⟨pruned, hpruned, hrun⟩ := Option.bind_eq_some_iff.mp hrun
    obtain ⟨n, l, hn, hl, hsub, _, _⟩ := prune_spec hpruned
    rw [← Option.some_inj.mp hrun]
    have hl' := List.mem_of_getElem? hl
    obtain ⟨l', hperm, hsub'⟩ := hsub
    refine ⟨hset.setNeighbours nb layer ?_ ?_, hrelinked.trans (relinked_modifyLists _ _)⟩
    · exact hperm.nodup_iff.mp ((hset.nodup n (List.mem_of_getElem? hn) l hl').sublist hsub')
    · intro i hi
      exact hset.lt n (List.mem_of_getElem? hn) l hl' i (hsub'.subset (hperm.mem_iff.mpr hi))
  · rw [← Option.some_inj.mp hrun]
    exact ⟨hset, hrelinked⟩

theorem Valid.connectLayer (hh : h.Valid) {newIdx layer ep ep' : ℕ} (hnew : newIdx < h.nodes.length)
    (hep : ep < h.nodes.length) (hlayer : layer ≤ 16)
    (hrun : connectLayer g newIdx (h, ep) layer = some (h', ep')) :
    h'.Valid ∧ h.Relinked h' ∧ ep' < h.nodes.length := by
  obtain ⟨cands, hcands, hrun⟩ := Option.bind_eq_some_iff.mp hrun
  obtain ⟨selected, hselected, hrun⟩ := Option.bind_eq_some_iff.mp hrun
  obtain ⟨node, _, hrun⟩ := Option.bind_eq_some_iff.mp hrun
  obtain ⟨hall, hnodup⟩ := searchLayer_spec (hh.linked.closedOn layer) hep hcands
  obtain ⟨hsub, _, _⟩ := select_spec hselected
  split at hrun
  · exact absurd hrun (by simp)
  · obtain ⟨h'', hlinks, hrun⟩ := Option.bind_eq_some_iff.mp hrun
    obtain ⟨rfl, rfl⟩ := Prod.mk.inj (Option.some_inj.mp hrun)
    have hset := hh.setNeighbours newIdx layer (hnodup.sublist hsub) fun nb hnb => by
      obtain ⟨c, hc, rfl⟩ := List.mem_map.mp (hsub.subset hnb)
      exact hall c hc
    have hkeep := foldlM_induction (P := fun t => t.Valid ∧ h.Relinked t) hlinks
      ⟨hset, relinked_modifyLists _ _⟩ fun nb _ t t' ht hstep => by
        obtain ⟨hvalid, hlinked⟩ := ht.1.linkBack (ht.2.length ▸ hnew) hlayer hstep
        exact ⟨hvalid, ht.2.trans hlinked⟩
    exact ⟨hkeep.1, hkeep.2, nearest_spec (P := (· < h.nodes.length)) hep hall⟩

/-- **An insertion** at one of the levels that can be drawn. -/
theorem Valid.insertNode (hh : h.Valid) {key : Bytes} {vector : Floats} {level : ℕ}
    (hvector : vector.length = h.dim) (hlevel : level ≤ 16)
    (hrun : h.insertNode g key vector level = some h') : h'.Valid ∧ h'.entryPoint ≠ none := by
  have hpush := hh.pushNode key hvector hlevel
  have hnew : h.nodes.length < (h.pushNode key vector level).nodes.length := by
    simp [HnswIndex.pushNode]
  rw [HnswIndex.insertNode] at hrun
  set t := h.pushNode key vector level
  simp only at hrun
  split at hrun
  · rw [← Option.some_inj.mp hrun]
    exact ⟨⟨hpush.m0, hlevel, fun ep hep => Option.some_inj.mp hep ▸ hnew, hpush.vector,
      hpush.layers, hpush.nodup, hpush.lt⟩, by simp⟩
  · rename_i ep hep
    obtain ⟨ep', hep', hrun⟩ := Option.bind_eq_some_iff.mp hrun
    obtain ⟨⟨h'', ep''⟩, hlinks, hrun⟩ := Option.bind_eq_some_iff.mp hrun
    -- the walk down stays among the nodes, and so does the start of each layer
    have hstart : ep' < t.nodes.length :=
      descend_spec (P := (· < t.nodes.length)) (fun layer _ => hpush.linked.closedOn layer)
        (hpush.entry ep hep) hep'
    obtain ⟨hvalid, hlinked, _⟩ := foldlM_induction
      (P := fun s => s.1.Valid ∧ t.Relinked s.1 ∧ s.2 < t.nodes.length) hlinks
      ⟨hpush, Relinked.refl t, hstart⟩ fun layer hlayer s s' hs hstep => by
        have hle : layer ≤ level := by
          have := List.mem_range.mp (List.mem_reverse.mp hlayer)
          omega
        obtain ⟨hvalid, hlinked, hep⟩ := hs.1.connectLayer (hs.2.1.length ▸ hnew)
          (hs.2.1.length ▸ hs.2.2) (hle.trans hlevel) hstep
        exact ⟨hvalid, hs.2.1.trans hlinked, hs.2.1.length ▸ hep⟩
    split at hrun
    · rw [← Option.some_inj.mp hrun]
      exact ⟨⟨hvalid.m0, hlevel, fun ep hep => Option.some_inj.mp hep ▸ hlinked.length ▸ hnew,
        hvalid.vector, hvalid.layers, hvalid.nodup, hvalid.lt⟩, by simp⟩
    · rw [← Option.some_inj.mp hrun, hlinked.entryPoint, hep]
      exact ⟨hvalid, by simp⟩

theorem Valid.add (hh : h.Valid) {key : Bytes} {vector : Floats}
    (hrun : h.add g key vector = some (.ok h')) : h'.Valid ∧ h'.entryPoint ≠ none := by
  rw [HnswIndex.add] at hrun
  split at hrun
  · exact absurd hrun (by simp)
  · rename_i hdim
    split at hrun
    · exact absurd hrun (by simp)
    · rename_i v hv
      obtain ⟨h'', hinsert, hok⟩ := Option.map_eq_some_iff.mp hrun
      obtain rfl : h'' = h' := by simpa using hok
      have hrng : { h with rng := (h.randomLevel g).2 }.Valid :=
        ⟨hh.m0, hh.level, hh.entry, hh.vector, hh.layers, hh.nodup, hh.lt⟩
      refine hrng.insertNode ?_ (levelLoop_le _ _ _) hinsert
      exact (g.normalize_length _ _ hv).trans (not_not.mp hdim)

/-- **Every run of insertions** ends in a valid index, with an entry point if there are nodes. -/
theorem valid_ofCalls {dim m efBuild efSearch : ℕ} {calls : List (Bytes × Floats)}
    (hrun : ofCalls g dim m efBuild efSearch calls = some h) :
    h.Valid ∧ (h.nodes ≠ [] → h.entryPoint ≠ none) := by
  obtain ⟨h₀, hnew, hrun⟩ := Option.bind_eq_some_iff.mp hrun
  have hempty : h₀.nodes = [] := by
    rw [new] at hnew
    split at hnew
    · rw [← Option.some_inj.mp hnew]
    · exact absurd hnew (by simp)
  refine foldlM_induction (P := fun t => t.Valid ∧ (t.nodes ≠ [] → t.entryPoint ≠ none)) hrun
    ⟨valid_new hnew, fun hne => absurd hempty hne⟩ fun call _ t t' ht hstep => ?_
  obtain ⟨r, hr, hok⟩ := Option.bind_eq_some_iff.mp hstep
  cases r with
  | error e => exact absurd hok (by simp [Except.toOption])
  | ok t'' =>
    obtain rfl : t'' = t' := by simpa [Except.toOption] using hok
    exact ⟨(ht.1.add hr).1, fun _ => (ht.1.add hr).2⟩

/-! ### Searches return -/

/-- A beam holds numbers of nodes, and has fuel for the turns that are left. -/
structure Fits (n : ℕ) (s : Beam D) (fuel : ℕ) : Prop where
  visited : s.visited ⊆ Finset.range n
  cands : ∀ c ∈ s.cands, c.2 < n
  left : n - s.visited.card + s.cands.length ≤ fuel

variable {dist : ℕ → Option D} {ef layer fuel n : ℕ} {s s' : Beam D}

theorem Fits.visitNeighbour (g : Metric D) (ef : ℕ) {nb : ℕ} (hs : Fits n s fuel) (hnb : nb < n)
    (hdist : ∃ d, dist nb = some d) :
    ∃ s', visitNeighbour g dist ef s nb = some s' ∧ Fits n s' fuel := by
  have hsome : ∃ s', HnswIndex.visitNeighbour g dist ef s nb = some s' := by
    obtain ⟨d, hd⟩ := hdist
    rw [HnswIndex.visitNeighbour, hd]
    split
    · exact ⟨_, rfl⟩
    · simp only [Option.bind_eq_bind, Option.bind_some]
      split <;> exact ⟨_, rfl⟩
  obtain ⟨s', hvisit⟩ := hsome
  refine ⟨s', hvisit, ?_⟩
  rcases visitNeighbour_eq_some hvisit with rfl | ⟨hv, hvisited, hcands⟩
  · exact hs
  · -- a node leaves the unvisited ones, and may become a candidate
    have hsub : s'.visited ⊆ Finset.range n := by
      rw [hvisited]
      exact Finset.insert_subset (Finset.mem_range.mpr hnb) hs.visited
    have hcard : s'.visited.card = s.visited.card + 1 := by
      rw [hvisited, Finset.card_insert_of_notMem hv]
    have hle : s'.visited.card ≤ n := by simpa using Finset.card_le_card hsub
    have hleft := hs.left
    rcases hcands with ⟨hcands, _⟩ | ⟨nbD, _, hcands, _⟩
    · exact ⟨hsub, hcands ▸ hs.cands, by rw [hcands]; omega⟩
    · refine ⟨hsub, fun c hc => ?_, ?_⟩
      · rcases List.mem_cons.mp (hcands.mem_iff.mp hc) with rfl | hc
        · exact hnb
        · exact hs.cands c hc
      · rw [hcands.length_eq, List.length_cons]
        omega

/-- The loop has fuel for all its turns, and finds something. -/
theorem Fits.beamLoop (g : Metric D) (ef : ℕ) (hn : h.nodes.length = n) (hclosed : h.ClosedOn layer (· < n))
    (hdist : ∀ i < n, ∃ d, dist i = some d) (hs : Fits n s fuel) :
    ∃ out, h.beamLoop g dist ef layer fuel s = some out := by
  induction fuel generalizing s with
  | zero =>
    have hcands : s.cands = [] := by
      have := hs.left
      exact List.length_eq_zero_iff.mp (by omega)
    rw [HnswIndex.beamLoop, hcands]
    exact ⟨_, rfl⟩
  | succ fuel ih =>
    rw [HnswIndex.beamLoop]
    cases hpop : BinaryHeap.pop leNear s.cands with
    | none => exact ⟨_, rfl⟩
    | some p =>
      obtain ⟨⟨cDist, cIdx⟩, cands⟩ := p
      have hperm := BinaryHeap.pop_perm hpop
      have hidx : cIdx < n := hs.cands (cDist, cIdx) (hperm.mem_iff.mpr List.mem_cons_self)
      have hrest : Fits n { s with cands := cands } fuel := by
        refine ⟨hs.visited, fun c hc => hs.cands c (hperm.mem_iff.mpr (List.mem_cons_of_mem _ hc)), ?_⟩
        have hleft := hs.left
        rw [hperm.length_eq, List.length_cons] at hleft
        exact Nat.le_of_succ_le_succ hleft
      simp only
      split
      · exact ⟨_, rfl⟩
      · obtain ⟨nbs, hnbs⟩ : ∃ nbs, h.getLayerNeighbours cIdx layer = some nbs := by
          rw [getLayerNeighbours, List.getElem?_eq_getElem (hn ▸ hidx)]
          exact ⟨_, rfl⟩
        obtain ⟨s', hs', hfits⟩ := exists_foldlM_eq_some (P := fun t => Fits n t fuel) hrest fun nb hnb t ht =>
          ht.visitNeighbour g ef (hclosed cIdx nbs hidx hnbs nb hnb)
            (hdist nb (hclosed cIdx nbs hidx hnbs nb hnb))
        rw [hnbs, Option.bind_eq_bind, Option.bind_some, hs']
        exact ih hfits

theorem Linked.searchLayer_isSome (hl : h.Linked) (g : Metric D) (ef layer : ℕ)
    (hdist : ∀ i < h.nodes.length, ∃ d, dist i = some d) {ep : ℕ} (hep : ep < h.nodes.length) :
    ∃ out, h.searchLayer g dist ep ef layer = some out := by
  obtain ⟨epD, hepD⟩ := hdist ep hep
  have hstart : Fits h.nodes.length (⟨{ep}, [(epD, ep)], [(epD, ep)]⟩ : Beam D) h.nodes.length := by
    refine ⟨by simpa using hep, by simpa using hep, ?_⟩
    rw [Finset.card_singleton, List.length_singleton]
    omega
  obtain ⟨results, hresults⟩ := hstart.beamLoop g ef rfl (hl.closedOn layer) hdist
  rw [searchLayer, hepD, Option.bind_eq_bind, Option.bind_some, hresults]
  exact ⟨_, rfl⟩

theorem Linked.descend_isSome (hl : h.Linked) (hdist : ∀ i < h.nodes.length, ∃ d, dist i = some d)
    (lo hi : ℕ) {ep : ℕ} (hep : ep < h.nodes.length) :
    ∃ ep', h.descend g dist lo hi ep = some ep' ∧ ep' < h.nodes.length := by
  refine exists_foldlM_eq_some (P := (· < h.nodes.length)) hep fun layer _ ep hep => ?_
  obtain ⟨cands, hcands⟩ := hl.searchLayer_isSome g 1 layer hdist hep
  have hall := (searchLayer_spec (hl.closedOn layer) hep hcands).1
  exact ⟨nearest cands ep, by rw [hcands]; rfl, nearest_spec (P := (· < h.nodes.length)) hep hall⟩

/-- **Every search of linked nodes returns**, if its entry point is one of them. -/
theorem Linked.searchBeam_isSome (hl : h.Linked)
    (hentry : h.nodes ≠ [] → ∃ ep, h.entryPoint = some ep ∧ ep < h.nodes.length)
    (query : Floats) (k efSearch : ℕ) : ∃ results, h.searchBeam g query k efSearch = some results := by
  rw [searchBeam]
  split
  · exact ⟨_, rfl⟩
  · rename_i hne
    split
    · exact ⟨_, rfl⟩
    · rename_i qv _
      obtain ⟨ep, hep, hep_lt⟩ := hentry fun h => hne (.inl h)
      have hdist : ∀ i < h.nodes.length, ∃ d, h.vecDist g qv i = some d := by
        intro i hi
        rw [vecDist, List.getElem?_eq_getElem hi]
        exact ⟨_, rfl⟩
      obtain ⟨ep', hep', hlt⟩ := hl.descend_isSome (g := g) hdist 1 h.entryLevel hep_lt
      obtain ⟨cands, hcands⟩ :=
        hl.searchLayer_isSome g (max efSearch k) 0 hdist hlt
      have hall := (searchLayer_spec (hl.closedOn 0) hlt hcands).1
      rw [hep, Option.bind_eq_bind, Option.bind_some, hep', Option.bind_eq_bind, Option.bind_some,
        searchLayerVec, hcands]
      refine exists_mapM_eq_some fun c hc => ?_
      have hmem : c.1 ∈ cands :=
        (List.perm_insertionSort _ _).mem_iff.mp (List.mem_of_mem_take (List.fst_mem_of_mem_zipIdx hc))
      rw [searchResult, List.getElem?_eq_getElem (hall c.1 hmem)]
      exact ⟨_, rfl⟩

end

end HnswIndex

end Uldb
