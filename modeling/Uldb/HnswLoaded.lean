/-
What `HnswIndex::deserialize` lets through (`index/hnsw.rs`).

The parser checks the lengths in a file and nothing else: a file is accepted exactly if it begins
with the bytes of some contents (`deserialize_eq_ok`).  The entry point and the neighbours are
numbers of nodes, and the parser does not compare them with the number of nodes.

* `loaded_sound_iff` — the files whose indexes can be searched and extended;
* `entryless_panics` — a file that is accepted, and then no search returns.
-/
import Uldb.HnswCalls
import Uldb.HnswFile

namespace Uldb

open BigEndian Reader

namespace HnswIndex

/-! ### Accepted files -/

theorem readU32_eq_ok {data rest : Bytes} {n : ℕ} :
    readU32 data = .ok (n, rest) ↔ n < 2 ^ 32 ∧ data = u32Bytes n ++ rest := number_eq_ok

theorem length_floatsOf (dim : ℕ) (bytes : Bytes) : (floatsOf dim bytes).length = dim := by
  induction dim generalizing bytes with
  | zero => rfl
  | succ dim ih => rw [floatsOf, List.length_cons, ih]

theorem vectorBytes_floatsOf {dim : ℕ} {bytes : Bytes} (hlen : bytes.length = dim * 4) :
    vectorBytes (floatsOf dim bytes) = bytes := by
  induction dim generalizing bytes with
  | zero => exact (List.eq_nil_of_length_eq_zero (by omega)).symm
  | succ dim ih =>
    have htake : (bytes.take 4).length = 4 := List.length_take_of_le (by omega)
    have hdrop : (bytes.drop 4).length = dim * 4 := by
      rw [List.length_drop]
      omega
    have hlt : toNat (bytes.take 4) < UInt32.size := by
      have := toNat_lt (bytes.take 4)
      rwa [htake] at this
    have hbe := be_toNat (bytes.take 4)
    rw [htake] at hbe
    rw [floatsOf, vectorBytes, List.flatMap_cons, ← vectorBytes, ih hdrop, u32Bytes,
      UInt32.toNat_ofNat_of_lt' hlt, hbe, List.take_append_drop]

theorem readVector_eq_ok {dim : ℕ} {data rest : Bytes} {vector : Floats} :
    readVector dim data = .ok (vector, rest) ↔
      vector.length = dim ∧ data = vectorBytes vector ++ rest := by
  constructor
  · intro h
    obtain ⟨bytes, mid, hbytes, hlast⟩ := bind_eq_ok.mp h
    obtain ⟨hlen, rfl⟩ := take_eq_ok.mp hbytes
    obtain ⟨rfl, rfl⟩ := pure_eq_ok.mp hlast
    exact ⟨length_floatsOf dim bytes, by rw [vectorBytes_floatsOf hlen]⟩
  · rintro ⟨rfl, rfl⟩
    exact reads_vector vector rest

theorem readLayer_eq_ok {data rest : Bytes} {layer : List ℕ} :
    readLayer data = .ok (layer, rest) ↔
      (layer.length < 2 ^ 32 ∧ ∀ nb ∈ layer, nb < 2 ^ 32) ∧ data = layerBytes layer ++ rest := by
  constructor
  · intro h
    obtain ⟨nNb, mid, hlen, htimes⟩ := bind_eq_ok.mp h
    obtain ⟨hlt, rfl⟩ := readU32_eq_ok.mp hlen
    obtain ⟨rfl, hall, rfl⟩ := (times_eq_ok fun _ _ _ => readU32_eq_ok).mp htimes
    exact ⟨⟨hlt, hall⟩, by rw [layerBytes, List.append_assoc]⟩
  · rintro ⟨⟨hlen, hall⟩, rfl⟩
    exact reads_layer hlen hall rest

/-- The lengths and numbers of a node have room in their fields. -/
structure NodeFits (dim : ℕ) (node : HnswNode) : Prop where
  key : node.key.length < 2 ^ 32
  vector : node.vector.length = dim
  layers : node.neighbours.length < 256
  lists : ∀ layer ∈ node.neighbours, layer.length < 2 ^ 32 ∧ ∀ nb ∈ layer, nb < 2 ^ 32

theorem readNode_eq_ok {dim : ℕ} {data rest : Bytes} {node : HnswNode} :
    readNode dim data = .ok (node, rest) ↔ NodeFits dim node ∧ data = nodeBytes node ++ rest := by
  constructor
  · intro h
    obtain ⟨keyLen, mid₁, hkeyLen, h₁⟩ := bind_eq_ok.mp h
    obtain ⟨key, mid₂, hkey, h₂⟩ := bind_eq_ok.mp h₁
    obtain ⟨vector, mid₃, hvector, h₃⟩ := bind_eq_ok.mp h₂
    obtain ⟨nLayers, mid₄, hlayers, h₄⟩ := bind_eq_ok.mp h₃
    obtain ⟨neighbours, mid₅, hlists, h₅⟩ := bind_eq_ok.mp h₄
    obtain ⟨hkeyLt, rfl⟩ := readU32_eq_ok.mp hkeyLen
    obtain ⟨rfl, rfl⟩ := take_eq_ok.mp hkey
    obtain ⟨hdim, rfl⟩ := readVector_eq_ok.mp hvector
    obtain ⟨hlayersLt, rfl⟩ := number_eq_ok.mp hlayers
    obtain ⟨rfl, hfits, rfl⟩ := (times_eq_ok fun _ _ _ => readLayer_eq_ok).mp hlists
    obtain ⟨rfl, rfl⟩ := pure_eq_ok.mp h₅
    refine ⟨⟨hkeyLt, hdim, hlayersLt, hfits⟩, ?_⟩
    simp only [nodeBytes, List.append_assoc]
  · rintro ⟨hfits, rfl⟩
    have hreads := reads_node hfits.key hfits.layers hfits.lists
    rw [hfits.vector] at hreads
    exact hreads rest

/-- The entry point in a file: a byte, and a number if the byte is one. -/
def entryField (hasEp ep : ℕ) : Bytes := be 1 hasEp ++ if hasEp = 1 then u32Bytes ep else []

def entryOf (hasEp ep : ℕ) : Option ℕ := if hasEp = 1 then some ep else none

theorem readEntry_eq_ok {data rest : Bytes} {entryPoint : Option ℕ} :
    readEntry data = .ok (entryPoint, rest) ↔ ∃ hasEp ep, hasEp < 256 ∧ ep < 2 ^ 32 ∧
      entryPoint = entryOf hasEp ep ∧ data = entryField hasEp ep ++ rest := by
  constructor
  · intro h
    obtain ⟨hasEp, mid, hbyte, hrest⟩ := bind_eq_ok.mp h
    obtain ⟨hlt, rfl⟩ := number_eq_ok.mp hbyte
    -- any byte but one stands for no entry point
    by_cases hone : hasEp = 1
    · rw [if_pos hone] at hrest
      obtain ⟨ep, mid', hep, hlast⟩ := bind_eq_ok.mp hrest
      obtain ⟨hepLt, rfl⟩ := readU32_eq_ok.mp hep
      obtain ⟨rfl, rfl⟩ := pure_eq_ok.mp hlast
      refine ⟨hasEp, ep, hlt, hepLt, (if_pos hone).symm, ?_⟩
      rw [entryField, if_pos hone, List.append_assoc]
    · rw [if_neg hone] at hrest
      obtain ⟨rfl, rfl⟩ := pure_eq_ok.mp hrest
      refine ⟨hasEp, 0, hlt, by norm_num, (if_neg hone).symm, ?_⟩
      rw [entryField, if_neg hone, List.append_nil]
  · rintro ⟨hasEp, ep, hlt, hepLt, rfl, rfl⟩
    refine bind_eq_ok.mpr ⟨hasEp, (if hasEp = 1 then u32Bytes ep else []) ++ rest, ?_, ?_⟩
    · exact number_eq_ok.mpr ⟨by simpa using hlt, by rw [entryField, List.append_assoc]⟩
    · by_cases hone : hasEp = 1
      · rw [if_pos hone, if_pos hone, entryOf, if_pos hone]
        exact bind_eq_ok.mpr ⟨ep, rest, readU32_eq_ok.mpr ⟨hepLt, rfl⟩, rfl⟩
      · rw [if_neg hone, if_neg hone, entryOf, if_neg hone]
        rfl

/-- The contents of a file. -/
structure Contents where
  dim : ℕ
  m : ℕ
  efBuild : ℕ
  efSearch : ℕ
  nodes : List HnswNode
  hasEp : ℕ
  ep : ℕ
  entryLevel : ℕ

namespace Contents

/-- Everything has room in its field. -/
structure Fits (c : Contents) : Prop where
  dim : c.dim < 2 ^ 32
  m : c.m < 2 ^ 32
  efBuild : c.efBuild < 2 ^ 32
  efSearch : c.efSearch < 2 ^ 32
  count : c.nodes.length < 2 ^ 32
  nodes : ∀ node ∈ c.nodes, NodeFits c.dim node
  hasEp : c.hasEp < 256
  ep : c.ep < 2 ^ 32
  entryLevel : c.entryLevel < 2 ^ 32

def bytes (c : Contents) : Bytes :=
  hnswMagic ++ (u32Bytes c.dim ++ (u32Bytes c.m ++ (u32Bytes c.efBuild ++ (u32Bytes c.efSearch ++
    (u32Bytes c.nodes.length ++ (c.nodes.flatMap nodeBytes ++
      (entryField c.hasEp c.ep ++ u32Bytes c.entryLevel)))))))

/-- The index that is made of them. -/
def index (c : Contents) : HnswIndex :=
  ⟨c.dim, c.m, c.m * 2, c.efBuild, c.efSearch, c.nodes, entryOf c.hasEp c.ep, c.entryLevel,
    .new 42⟩

/-- The entry point is there if there are nodes, and it and the neighbours are below the number
of nodes. -/
structure InRange (c : Contents) : Prop where
  present : c.nodes ≠ [] → c.hasEp = 1
  ep : c.hasEp = 1 → c.ep < c.nodes.length
  neighbours : ∀ node ∈ c.nodes, ∀ layer ∈ node.neighbours, ∀ nb ∈ layer, nb < c.nodes.length

end Contents

/-- **The accepted files** begin with contents whose parts fit, and those are loaded. -/
theorem deserialize_eq_ok {data : Bytes} {h : HnswIndex} : deserialize data = .ok h ↔
    ∃ (c : Contents) (rest : Bytes), c.Fits ∧ data = c.bytes ++ rest ∧ h = c.index := by
  rw [deserialize, parse_eq_ok]
  constructor
  · rintro ⟨rest, hread⟩
    obtain ⟨magic, mid₀, hmagic, h₀⟩ := bind_eq_ok.mp hread
    obtain ⟨_, rfl⟩ := take_eq_ok.mp hmagic
    by_cases hne : magic ≠ hnswMagic
    · rw [if_pos hne] at h₀
      exact absurd h₀ (by simp [fail])
    · rw [if_neg hne] at h₀
      obtain ⟨dim, mid₁, hdim, h₁⟩ := bind_eq_ok.mp h₀
      obtain ⟨m, mid₂, hm, h₂⟩ := bind_eq_ok.mp h₁
      obtain ⟨efBuild, mid₃, hbuild, h₃⟩ := bind_eq_ok.mp h₂
      obtain ⟨efSearch, mid₄, hsearch, h₄⟩ := bind_eq_ok.mp h₃
      obtain ⟨nNodes, mid₅, hcount, h₅⟩ := bind_eq_ok.mp h₄
      obtain ⟨nodes, mid₆, hnodes, h₆⟩ := bind_eq_ok.mp h₅
      obtain ⟨entryPoint, mid₇, hentry, h₇⟩ := bind_eq_ok.mp h₆
      obtain ⟨entryLevel, mid₈, hlevel, h₈⟩ := bind_eq_ok.mp h₇
      -- from the front, each part takes its bytes off the data
      obtain ⟨hdimLt, rfl⟩ := readU32_eq_ok.mp hdim
      obtain ⟨hmLt, rfl⟩ := readU32_eq_ok.mp hm
      obtain ⟨hbuildLt, rfl⟩ := readU32_eq_ok.mp hbuild
      obtain ⟨hsearchLt, rfl⟩ := readU32_eq_ok.mp hsearch
      obtain ⟨hcountLt, rfl⟩ := readU32_eq_ok.mp hcount
      obtain ⟨rfl, hfits, rfl⟩ := (times_eq_ok fun _ _ _ => readNode_eq_ok).mp hnodes
      obtain ⟨hasEp, ep, hbyte, hepLt, rfl, rfl⟩ := readEntry_eq_ok.mp hentry
      obtain ⟨hlevelLt, rfl⟩ := readU32_eq_ok.mp hlevel
      obtain ⟨rfl, rfl⟩ := pure_eq_ok.mp h₈
      refine ⟨⟨dim, m, efBuild, efSearch, nodes, hasEp, ep, entryLevel⟩, rest,
        ⟨hdimLt, hmLt, hbuildLt, hsearchLt, hcountLt, hfits, hbyte, hepLt, hlevelLt⟩, ?_, rfl⟩
      simp only [Contents.bytes, not_not.mp hne, List.append_assoc]
  · rintro ⟨c, rest, hc, rfl, rfl⟩
    have hnodes : Reads (times c.nodes.length (readNode c.dim)) (c.nodes.flatMap nodeBytes)
        c.nodes := reads_times fun node hnode rest =>
      readNode_eq_ok.mpr ⟨hc.nodes node hnode, rfl⟩
    have hentry : Reads readEntry (entryField c.hasEp c.ep) (entryOf c.hasEp c.ep) := fun rest =>
      readEntry_eq_ok.mpr ⟨c.hasEp, c.ep, hc.hasEp, hc.ep, rfl, rfl⟩
    have hread : Reads readIndex c.bytes c.index := by
      refine (reads_take hnswMagic).bind ?_
      rw [if_neg (by simp)]
      exact (reads_u32 hc.dim).bind ((reads_u32 hc.m).bind ((reads_u32 hc.efBuild).bind
        ((reads_u32 hc.efSearch).bind ((reads_u32 hc.count).bind (hnodes.bind (hentry.bind
          ((reads_u32 hc.entryLevel).last (Reads.pure _))))))))
    exact ⟨rest, hread rest⟩

/-! ### Sound files -/

theorem Contents.sound_iff (c : Contents) : c.index.Sound ↔ c.InRange := by
  constructor
  · intro h
    refine ⟨fun hne => ?_, fun hone => ?_, h.linked⟩
    · by_contra hzero
      exact h.present hne (if_neg hzero)
    · exact h.entry c.ep (if_pos hone)
  · intro h
    refine ⟨h.neighbours, fun ep hep => ?_, fun hne => ?_⟩
    · by_cases hone : c.hasEp = 1
      · obtain rfl : c.ep = ep := Option.some_inj.mp ((if_pos hone).symm.trans hep)
        exact h.ep hone
      · exact absurd ((if_neg hone).symm.trans hep) (by simp)
    · show entryOf c.hasEp c.ep ≠ none
      rw [entryOf, if_pos (h.present hne)]
      simp

/-- The file is refused, or its numbers are in range. -/
def RefersInRange (data : Bytes) : Prop :=
  ∀ (c : Contents) (rest : Bytes), c.Fits → data = c.bytes ++ rest → c.InRange

/-- **The files that are loaded soundly**: every later run of calls returns and all numbers are
in range exactly where the numbers in the file are. -/
theorem loaded_sound_iff {D : Type} [Ord D] (g : Metric D) (data : Bytes) :
    (∀ h, deserialize data = .ok h →
      (∀ calls : List HnswCall, ∃ h', calls.foldlM (call g) h = some h') ∧
      (h.nodes ≠ [] → h.entryPoint ≠ none) ∧
      (∀ ep, h.entryPoint = some ep → ep < h.nodes.length) ∧
      ∀ node ∈ h.nodes, ∀ list ∈ node.neighbours, ∀ nb ∈ list, nb < h.nodes.length) ↔
      RefersInRange data := by
  constructor
  · intro h c rest hc hdata
    obtain ⟨_, hpresent, hentry, hlinked⟩ :=
      h c.index (deserialize_eq_ok.mpr ⟨c, rest, hc, hdata, rfl⟩)
    exact c.sound_iff.mp ⟨hlinked, hentry, hpresent⟩
  · intro hdata h hok
    obtain ⟨c, rest, hc, hbytes, rfl⟩ := deserialize_eq_ok.mp hok
    have hsound : c.index.Sound := c.sound_iff.mpr (hdata c rest hc hbytes)
    refine ⟨fun calls => ?_, hsound.present, hsound.entry, hsound.linked⟩
    obtain ⟨h', hrun, _⟩ := hsound.run_returns (g := g) calls
    exact ⟨h', hrun⟩

/-! ### Files without an entry point among their nodes -/

/-- The walk down reads the node where it begins, unless it has no layers to go through. -/
theorem descend_of_dist_none {D : Type} [Ord D] {g : Metric D} {h : HnswIndex}
    {dist : ℕ → Option D} {ep : ℕ} (hdist : dist ep = none) (lo hi : ℕ) :
    h.descend g dist lo hi ep = none ∨ h.descend g dist lo hi ep = some ep := by
  rw [descend]
  cases (List.range' lo (hi + 1 - lo)).reverse with
  | nil => exact .inr rfl
  | cons layer layers =>
    refine .inl ?_
    rw [List.foldlM_cons, searchLayer, hdist]
    rfl

/-- Without an entry point among the nodes, no search returns. -/
theorem search_eq_none {D : Type} [Ord D] {g : Metric D} {h : HnswIndex} (hne : h.nodes ≠ [])
    (hentry : ∀ ep, h.entryPoint = some ep → h.nodes.length ≤ ep) {query v : Floats} {k : ℕ}
    (hk : k ≠ 0) (hdim : query.length = h.dim) (hv : g.normalize query = some v) :
    h.search g query k = none := by
  rw [search, searchBeam, if_neg (by simp [hne, hk, hdim]), hv]
  cases hpoint : h.entryPoint with
  | none => rfl
  | some ep =>
    have hdist : h.vecDist g v ep = none := by
      rw [vecDist, List.getElem?_eq_none (hentry ep hpoint)]
      rfl
    simp only [Option.bind_eq_bind, Option.bind_some]
    rcases descend_of_dist_none (h := h) (g := g) hdist 1 h.entryLevel with hdescend | hdescend
    · rw [hdescend]
      rfl
    · rw [hdescend, Option.bind_some, searchLayerVec, searchLayer, hdist]
      rfl

/-- One node, of the vector `[1.0]`, and no entry point. -/
def entrylessContents : Contents := ⟨1, 2, 4, 4, [⟨[0x3F800000], [97], [[]]⟩], 0, 0, 0⟩

def entryless : Bytes :=
  [72, 78, 83, 87, 0, 0, 0, 1, 0, 0, 0, 2, 0, 0, 0, 4, 0, 0, 0, 4, 0, 0, 0, 1,
    0, 0, 0, 1, 97, 63, 128, 0, 0, 1, 0, 0, 0, 0, 0, 0, 0, 0, 0]

/-- The file is accepted, and every search for a vector that can be normalized panics. -/
theorem entryless_panics : deserialize entryless = .ok entrylessContents.index ∧
    (∀ (D : Type) [Ord D] (g : Metric D) (query v : Floats), query.length = 1 →
      g.normalize query = some v → entrylessContents.index.search g query 1 = none) ∧
    ¬∀ data h, deserialize data = .ok h →
      ∀ calls : List HnswCall, ∃ h', calls.foldlM (call gridMetric) h = some h' := by
  have hok : deserialize entryless = .ok entrylessContents.index := by
    refine deserialize_eq_ok.mpr ⟨entrylessContents, [], ?_, by decide, rfl⟩
    exact ⟨by decide, by decide, by decide, by decide, by decide,
      by simp [entrylessContents]; exact ⟨by decide, by decide, by decide, by decide⟩,
      by decide, by decide, by decide⟩
  have hpanics : ∀ (D : Type) [Ord D] (g : Metric D) (query v : Floats), query.length = 1 →
      g.normalize query = some v → entrylessContents.index.search g query 1 = none :=
    fun D _ g query v hdim hv => search_eq_none (by simp [Contents.index, entrylessContents])
      (fun ep hep => absurd hep (by simp [Contents.index, entrylessContents, entryOf]))
      (by decide) hdim hv
  refine ⟨hok, hpanics, fun h => ?_⟩
  obtain ⟨h', hrun⟩ := h entryless _ hok [.search [1] 1]
  rw [List.foldlM_cons, call, hpanics ℕ gridMetric [1] [1] rfl (by decide)] at hrun
  exact absurd hrun (by simp)

end HnswIndex

end Uldb
