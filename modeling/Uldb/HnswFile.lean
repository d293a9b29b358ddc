/-
The file of the nearest neighbour index (`HnswIndex::serialize` and `HnswIndex::deserialize`).

The file holds everything but the state of the level generator, which starts again after a
load; no search reads it.

* `deserialize_serialize` — what is saved is read;
* `hnsw_survives` — every index that insertions build, its fields and its searches.
-/
import Uldb.Hnsw
import Uldb.Lib.Reader

namespace Uldb

open BigEndian Reader

/-- `b"HNSW"` -/
def hnswMagic : Bytes := [72, 78, 83, 87]

namespace HnswIndex

/-- `(n as u32).to_be_bytes()` -/
def u32Bytes (n : ℕ) : Bytes := be 4 n

/-- The file entry of a list of neighbours. -/
def layerBytes (layer : List ℕ) : Bytes := u32Bytes layer.length ++ layer.flatMap u32Bytes

/-- The file entry of a vector. -/
def vectorBytes (vector : Floats) : Bytes := vector.flatMap fun v => u32Bytes v.toNat

/-- The file entry of a node; the number of its layers is one byte. -/
def nodeBytes (node : HnswNode) : Bytes :=
  u32Bytes node.key.length ++ (node.key ++ (vectorBytes node.vector ++
    (be 1 node.neighbours.length ++ node.neighbours.flatMap layerBytes)))

def entryBytes : Option ℕ → Bytes
  | some ep => be 1 1 ++ u32Bytes ep
  | none => be 1 0

def serialize (h : HnswIndex) : Bytes :=
  hnswMagic ++ (u32Bytes h.dim ++ (u32Bytes h.m ++ (u32Bytes h.efBuild ++ (u32Bytes h.efSearch ++
    (u32Bytes h.nodes.length ++ (h.nodes.flatMap nodeBytes ++
      (entryBytes h.entryPoint ++ u32Bytes h.entryLevel)))))))

def readU32 : Reader String ℕ := number 4 "unexpected EOF reading u32"

def readU8 : Reader String ℕ := number 1 "unexpected EOF reading u8"

/-- The bit patterns of a vector of `dim` numbers. -/
def floatsOf : ℕ → Bytes → Floats
  | 0, _ => []
  | dim + 1, bytes => UInt32.ofNat (toNat (bytes.take 4)) :: floatsOf dim (bytes.drop 4)

def readVector (dim : ℕ) : Reader String Floats := do
  let bytes ← take (dim * 4) "unexpected EOF reading vector"
  return floatsOf dim bytes

def readLayer : Reader String (List ℕ) := do
  let nNb ← readU32
  times nNb readU32

def readNode (dim : ℕ) : Reader String HnswNode := do
  let keyLen ← readU32
  let key ← take keyLen "unexpected EOF reading key"
  let vector ← readVector dim
  let nLayers ← readU8
  let neighbours ← times nLayers readLayer
  return ⟨vector, key, neighbours⟩

def readEntry : Reader String (Option ℕ) := do
  let hasEp ← readU8
  if hasEp = 1 then
    let ep ← readU32
    return some ep
  else return none

def readIndex : Reader String HnswIndex := do
  let magic ← take 4 "bad HNSW magic"
  if magic ≠ hnswMagic then fail "bad HNSW magic"
  else do
    let dim ← readU32
    let m ← readU32
    let efBuild ← readU32
    let efSearch ← readU32
    let nNodes ← readU32
    let nodes ← times nNodes (readNode dim)
    let entryPoint ← readEntry
    let entryLevel ← readU32
    return ⟨dim, m, m * 2, efBuild, efSearch, nodes, entryPoint, entryLevel, .new 42⟩

/-- Bytes after the entry level are not read. -/
def deserialize (data : Bytes) : Except String HnswIndex := readIndex.parse data

/-! ### The file is read back -/

theorem reads_u32 {n : ℕ} (hn : n < 2 ^ 32) : Reads readU32 (u32Bytes n) n :=
  reads_number (by simpa using hn)

theorem length_vectorBytes (vector : Floats) : (vectorBytes vector).length = vector.length * 4 := by
  induction vector with
  | nil => rfl
  | cons v vector ih =>
    rw [vectorBytes, List.flatMap_cons, ← vectorBytes, List.length_append, ih, u32Bytes, be_length,
      List.length_cons]
    omega

theorem floatsOf_vectorBytes (vector : Floats) :
    floatsOf vector.length (vectorBytes vector) = vector := by
  induction vector with
  | nil => rfl
  | cons v vector ih =>
    have hlen : (u32Bytes v.toNat).length = 4 := be_length 4 _
    have hv : toNat (u32Bytes v.toNat) = v.toNat := toNat_be v.toNat_lt
    rw [vectorBytes, List.flatMap_cons, ← vectorBytes, List.length_cons, floatsOf,
      List.take_left' hlen, List.drop_left' hlen, ih, hv, UInt32.ofNat_toNat]

theorem reads_vector (vector : Floats) :
    Reads (readVector vector.length) (vectorBytes vector) vector := by
  have htake : Reads (take (vectorBytes vector).length "unexpected EOF reading vector")
      (vectorBytes vector) (vectorBytes vector) := reads_take _
  rw [length_vectorBytes] at htake
  refine htake.last ?_
  rw [floatsOf_vectorBytes]
  exact Reads.pure vector

theorem reads_layer {layer : List ℕ} (hlen : layer.length < 2 ^ 32)
    (hlt : ∀ nb ∈ layer, nb < 2 ^ 32) : Reads readLayer (layerBytes layer) layer :=
  (reads_u32 hlen).bind (reads_times fun nb hnb => reads_u32 (hlt nb hnb))

theorem reads_node {node : HnswNode} (hkey : node.key.length < 2 ^ 32)
    (hlayers : node.neighbours.length < 256)
    (hlists : ∀ layer ∈ node.neighbours, layer.length < 2 ^ 32 ∧ ∀ nb ∈ layer, nb < 2 ^ 32) :
    Reads (readNode node.vector.length) (nodeBytes node) node := by
  refine (reads_u32 hkey).bind ((reads_take node.key).bind ((reads_vector node.vector).bind ?_))
  refine (reads_number (by simpa using hlayers)).bind (Reads.last ?_ (Reads.pure _))
  exact reads_times fun layer hlayer => reads_layer (hlists layer hlayer).1 (hlists layer hlayer).2

theorem reads_entry {entryPoint : Option ℕ} (hep : ∀ ep, entryPoint = some ep → ep < 2 ^ 32) :
    Reads readEntry (entryBytes entryPoint) entryPoint := by
  cases entryPoint with
  | none => exact (reads_number (by decide)).last (Reads.pure _)
  | some ep => exact (reads_number (by decide)).bind ((reads_u32 (hep ep rfl)).last (Reads.pure _))

/-- A list of different nodes is not longer than the list of nodes. -/
theorem Valid.length_le {h : HnswIndex} (hh : h.Valid) {node : HnswNode} (hnode : node ∈ h.nodes)
    {layer : List ℕ} (hlayer : layer ∈ node.neighbours) : layer.length ≤ h.nodes.length := by
  have hsub : layer ⊆ List.range h.nodes.length := fun nb hnb =>
    List.mem_range.mpr (hh.lt node hnode layer hlayer nb hnb)
  simpa using ((hh.nodup node hnode layer hlayer).subperm hsub).length_le

/-- **What is saved is read**, but for the level generator. -/
theorem deserialize_serialize {h : HnswIndex} (hh : h.Valid) (hdim : h.dim < 2 ^ 32)
    (hm : h.m < 2 ^ 32) (hbuild : h.efBuild < 2 ^ 32) (hsearch : h.efSearch < 2 ^ 32)
    (hnodes : h.nodes.length < 2 ^ 32) (hkeys : ∀ node ∈ h.nodes, node.key.length < 2 ^ 32) :
    deserialize h.serialize = .ok { h with rng := .new 42 } := by
  have hreadNodes : Reads (times h.nodes.length (readNode h.dim)) (h.nodes.flatMap nodeBytes)
      h.nodes := by
    refine reads_times fun node hnode => ?_
    rw [← hh.vector node hnode]
    refine reads_node (hkeys node hnode) ?_ fun layer hlayer => ⟨?_, fun nb hnb => ?_⟩
    · exact (hh.layers node hnode).trans_lt (by norm_num)
    · exact (hh.length_le hnode hlayer).trans_lt hnodes
    · exact (hh.lt node hnode layer hlayer nb hnb).trans hnodes
  have hreadEntry : Reads readEntry (entryBytes h.entryPoint) h.entryPoint :=
    reads_entry fun ep hep => (hh.entry ep hep).trans hnodes
  have hlevel : h.entryLevel < 2 ^ 32 := hh.level.trans_lt (by norm_num)
  -- the parts of the file in their order
  refine parse_eq ((reads_take hnswMagic).bind ?_)
  rw [if_neg (by simp), hh.m0]
  exact (reads_u32 hdim).bind ((reads_u32 hm).bind ((reads_u32 hbuild).bind ((reads_u32 hsearch).bind
    ((reads_u32 hnodes).bind (hreadNodes.bind (hreadEntry.bind
      ((reads_u32 hlevel).last (Reads.pure _))))))))

/-! ### The loaded index -/

section

variable {D : Type} [Ord D] {g : Metric D} {h h' : HnswIndex}

/-- A beam search reads the nodes only. -/
theorem beamLoop_congr (hnodes : h'.nodes = h.nodes) (dist : ℕ → Option D) (ef layer fuel : ℕ)
    (s : Beam D) : h'.beamLoop g dist ef layer fuel s = h.beamLoop g dist ef layer fuel s := by
  induction fuel generalizing s with
  | zero => rw [beamLoop, beamLoop]
  | succ fuel ih =>
    rw [beamLoop, beamLoop]
    simp only [getLayerNeighbours, hnodes, ih]

theorem searchLayer_congr (hnodes : h'.nodes = h.nodes) (dist : ℕ → Option D) (ep ef layer : ℕ) :
    h'.searchLayer g dist ep ef layer = h.searchLayer g dist ep ef layer := by
  simp only [searchLayer, beamLoop_congr hnodes, hnodes]

/-- A search reads the dimension, the nodes and the entry point. -/
theorem searchBeam_congr (hdim : h'.dim = h.dim) (hnodes : h'.nodes = h.nodes)
    (hpoint : h'.entryPoint = h.entryPoint) (hlevel : h'.entryLevel = h.entryLevel)
    (query : Floats) (k efSearch : ℕ) :
    h'.searchBeam g query k efSearch = h.searchBeam g query k efSearch := by
  have hdist : h'.vecDist g = h.vecDist g := by
    funext vec node
    rw [vecDist, vecDist, hnodes]
  have hresult : (h'.searchResult : (D × ℕ) × ℕ → _) = h.searchResult := by
    funext cand
    rw [searchResult, searchResult, hnodes]
  simp only [searchBeam, descend, searchLayerVec, searchLayer_congr hnodes, hdim, hnodes, hpoint,
    hlevel, hdist, hresult]

/-- **A nearest neighbour index survives a restart.**  The file of every index that insertions
build is read back, to the same parameters, nodes and entry point, and every search of the
loaded index returns what it returned before. -/
theorem hnsw_survives (g : Metric D) {dim m efBuild efSearch : ℕ} {calls : List (Bytes × Floats)}
    {h : HnswIndex} (hrun : ofCalls g dim m efBuild efSearch calls = some h)
    (hdim : h.dim < 2 ^ 32) (hm : h.m < 2 ^ 32) (hbuild : h.efBuild < 2 ^ 32)
    (hsearch : h.efSearch < 2 ^ 32) (hnodes : h.nodes.length < 2 ^ 32)
    (hkeys : ∀ node ∈ h.nodes, node.key.length < 2 ^ 32) :
    ∃ h', deserialize h.serialize = .ok h' ∧
      h'.dim = h.dim ∧ h'.m = h.m ∧ h'.m0 = h.m0 ∧ h'.efBuild = h.efBuild ∧
      h'.efSearch = h.efSearch ∧ h'.nodes = h.nodes ∧ h'.entryPoint = h.entryPoint ∧
      h'.entryLevel = h.entryLevel ∧
      (∀ query k, ∃ results, h.search g query k = some results ∧
        h'.search g query k = some results) ∧
      ∀ query k efOverride, ∃ results, h.searchWithEf g query k efOverride = some results ∧
        h'.searchWithEf g query k efOverride = some results := by
  obtain ⟨hh, hentry⟩ := valid_ofCalls hrun
  have hstart : h.nodes ≠ [] → ∃ ep, h.entryPoint = some ep ∧ ep < h.nodes.length := by
    intro hne
    obtain ⟨ep, hep⟩ := Option.ne_none_iff_exists'.mp (hentry hne)
    exact ⟨ep, hep, hh.entry ep hep⟩
  have hsame : ∀ query k ef, ({ h with rng := .new 42 } : HnswIndex).searchBeam g query k ef
      = h.searchBeam g query k ef := searchBeam_congr rfl rfl rfl rfl
  refine ⟨{ h with rng := .new 42 },
    deserialize_serialize hh hdim hm hbuild hsearch hnodes hkeys, rfl, rfl, rfl, rfl, rfl, rfl, rfl,
    rfl, fun query k => ?_, fun query k efOverride => ?_⟩
  · obtain ⟨results, hresults⟩ := hh.linked.searchBeam_isSome (g := g) hstart query k h.efSearch
    exact ⟨results, hresults, (hsame query k _).trans hresults⟩
  · obtain ⟨results, hresults⟩ := hh.linked.searchBeam_isSome (g := g) hstart query k efOverride
    exact ⟨results, hresults, (hsame query k _).trans hresults⟩

end

/-- Whole numbers as vectors, compared place by place. -/
def gridMetric : Metric ℕ where
  dist a b := (List.zipWith (fun x y => (x ^^^ y).toNat) a b).sum
  maxDist := 2 ^ 32
  normalize v := if v.all (· = 0) then none else some v
  deeper _ bits := bits.toNat % 4 = 0
  normalize_length v v' h := by
    split at h
    · exact absurd h (by simp)
    · rw [Option.some_inj.mp h]

def gridCalls : List (Bytes × Floats) :=
  [([97], [1, 0]), ([98], [0, 1]), ([97], [3, 3]), ([], [1, 0]), ([99], [7, 1])]

/-- Five vectors, two of them equal and two under one key. -/
theorem hnsw_survives_grid :
    ∃ h h', ofCalls gridMetric 2 2 4 4 gridCalls = some h ∧ h.nodes.length = 5 ∧
      deserialize h.serialize = .ok h' ∧ h'.nodes = h.nodes := by
  have hsizes : (ofCalls gridMetric 2 2 4 4 gridCalls).any (fun h =>
      h.dim < 2 ^ 32 ∧ h.m < 2 ^ 32 ∧ h.efBuild < 2 ^ 32 ∧ h.efSearch < 2 ^ 32 ∧
      h.nodes.length = 5 ∧ ∀ node ∈ h.nodes, node.key.length < 2 ^ 32) = true := by
    decide +kernel
  obtain ⟨h, hrun, hsizes⟩ := Option.any_eq_true _ _ |>.mp hsizes
  obtain ⟨hdim, hm, hbuild, hsearch, hnodes, hkeys⟩ := of_decide_eq_true hsizes
  obtain ⟨h', hok, _, _, _, _, _, hsame, _⟩ := hnsw_survives gridMetric hrun hdim hm hbuild hsearch
    (by rw [hnodes]; norm_num) hkeys
  exact ⟨h, h', hrun, hnodes, hok, hsame⟩

end HnswIndex

end Uldb
