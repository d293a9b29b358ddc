/-
The Bloom filter of a page (`index/bloom.rs`, `build_bloom` in `storage/page.rs`).

A filter sets a few bits for every key that is added, and a key may be there if all its bits are
set.  A page adds the keys of its live records only, so a tombstone is found where live keys happen
to share all its bits.  The sizes are computed in floating point, and are a parameter.

* `mayContain_addAll` — no added key is missed;
* `built_conservative_iff` — when a page that is skipped has no record of the key.
-/
import Uldb.Compaction
import Uldb.Lib.BitArray

namespace Uldb

open BitArray

/-- FNV-1a of byte strings one after the other. -/
def fnv1aParts (parts : List Bytes) : UInt64 :=
  parts.foldl (fun h part => part.foldl (fun h b => (h ^^^ b.toUInt64) * fnvPrime) h) fnvOffset

/-- The two formulas of a filter for a false positive rate: the number of bits for a capacity, and
the number of hashes for both. -/
structure Sizing where
  bits (capacity : ℕ) : ℕ
  hashes (numBits capacity : ℕ) : ℕ

structure BloomFilter where
  bits : List UInt64
  numBits : ℕ
  numHashes : ℕ
  count : ℕ
  /-- There is a bit. -/
  numBits_pos : 0 < numBits
  /-- The words have room for all bits. -/
  fits : numBits ≤ 64 * bits.length

namespace BloomFilter

/-- A filter sized for `capacity` elements. -/
def new (s : Sizing) (capacity : ℕ) : BloomFilter :=
  let m := max (s.bits capacity) 64
  let k := min (max (s.hashes m capacity) 1) 20
  { bits := List.replicate ((m + 63) / 64) 0
    numBits := m
    numHashes := k
    count := 0
    numBits_pos := Nat.lt_of_lt_of_le (by decide) (le_max_right _ _)
    fits := by
      rw [List.length_replicate]
      omega }

/-- `_bloom_salt` -/
def salt : Bytes := [95, 98, 108, 111, 111, 109, 95, 115, 97, 108, 116]

/-- The bit positions of a key, by double hashing. -/
def positions (bf : BloomFilter) (key : Bytes) : List ℕ :=
  let h1 := fnv1a key
  let h2 := fnv1aParts [key, salt]
  (List.range bf.numHashes).map fun i => (h1 + i.toUInt64 * h2).toNat % bf.numBits

/-- Set one bit. -/
def setPos (bf : BloomFilter) (pos : ℕ) : BloomFilter :=
  { bf with
    bits := setBit bf.bits pos
    fits := by
      rw [length_setBit]
      exact bf.fits }

/-- Add a key to the filter. -/
def add (bf : BloomFilter) (key : Bytes) : BloomFilter :=
  let bf := (bf.positions key).foldl setPos bf
  { bf with count := bf.count + 1 }

/-- Whether a key might be in the filter. -/
def mayContain (bf : BloomFilter) (key : Bytes) : Bool :=
  (bf.positions key).all fun pos => getBit bf.bits pos

/-! ### Added keys -/

/-- All positions are in range. -/
theorem lt_of_mem_positions {bf : BloomFilter} {key : Bytes} {pos : ℕ}
    (h : pos ∈ bf.positions key) : pos < bf.numBits := by
  obtain ⟨i, _, rfl⟩ := List.mem_map.mp h
  exact Nat.mod_lt _ bf.numBits_pos

theorem positions_ne_nil (s : Sizing) (capacity : ℕ) (key : Bytes) :
    (new s capacity).positions key ≠ [] := by
  have hpos : 0 < (new s capacity).numHashes := by
    show 0 < min (max _ 1) 20
    omega
  rw [positions, Ne, List.map_eq_nil_iff, List.range_eq_nil]
  exact hpos.ne'

/-- Filters of the same size. -/
def SameSize (bf bf' : BloomFilter) : Prop :=
  bf.numBits = bf'.numBits ∧ bf.numHashes = bf'.numHashes

theorem SameSize.positions_eq {bf bf' : BloomFilter} (h : SameSize bf bf') (key : Bytes) :
    bf.positions key = bf'.positions key := by
  rw [positions, positions, h.1, h.2]

theorem getBit_foldl_setPos (ps : List ℕ) (bf : BloomFilter) (hps : ∀ p ∈ ps, p < bf.numBits)
    (pos : ℕ) :
    SameSize (ps.foldl setPos bf) bf ∧
      (getBit (ps.foldl setPos bf).bits pos = true ↔ getBit bf.bits pos = true ∨ pos ∈ ps) := by
  induction ps generalizing bf with
  | nil => exact ⟨⟨rfl, rfl⟩, by simp⟩
  | cons p ps ih =>
    obtain ⟨hsize, hbit⟩ := ih (bf.setPos p) fun q hq => hps q (List.mem_cons_of_mem _ hq)
    refine ⟨hsize, ?_⟩
    have hroom : p < 64 * bf.bits.length := (hps p List.mem_cons_self).trans_le bf.fits
    rw [List.foldl_cons, hbit, setPos, getBit_setBit hroom, Bool.or_eq_true, decide_eq_true_iff,
      List.mem_cons, or_assoc, @eq_comm _ p pos]

theorem sameSize_add (bf : BloomFilter) (key : Bytes) : SameSize (bf.add key) bf :=
  (getBit_foldl_setPos (bf.positions key) bf (fun _ => lt_of_mem_positions) 0).1

/-- **Adding a key** sets its bits, and no others. -/
theorem getBit_add (bf : BloomFilter) (key : Bytes) (pos : ℕ) :
    getBit (bf.add key).bits pos = true ↔ getBit bf.bits pos = true ∨ pos ∈ bf.positions key :=
  (getBit_foldl_setPos (bf.positions key) bf (fun _ => lt_of_mem_positions) pos).2

/-- Add many keys. -/
def addAll (bf : BloomFilter) (keys : List Bytes) : BloomFilter := keys.foldl add bf

theorem addAll_spec (keys : List Bytes) (bf : BloomFilter) (pos : ℕ) :
    SameSize (bf.addAll keys) bf ∧ (getBit (bf.addAll keys).bits pos = true ↔
      getBit bf.bits pos = true ∨ ∃ key ∈ keys, pos ∈ bf.positions key) := by
  induction keys generalizing bf with
  | nil => exact ⟨⟨rfl, rfl⟩, by simp [addAll]⟩
  | cons key keys ih =>
    obtain ⟨hsize, hbit⟩ := ih (bf.add key)
    have hadd := sameSize_add bf key
    refine ⟨⟨hsize.1.trans hadd.1, hsize.2.trans hadd.2⟩, ?_⟩
    rw [addAll, List.foldl_cons, ← addAll, hbit, getBit_add, or_assoc]
    simp only [hadd.positions_eq, List.exists_mem_cons_iff]

/-- **What a filter contains**: the keys whose bits are all bits of added keys. -/
theorem mayContain_addAll (s : Sizing) (capacity : ℕ) (keys : List Bytes) (key : Bytes) :
    ((new s capacity).addAll keys).mayContain key = true ↔
      ∀ pos ∈ (new s capacity).positions key, ∃ k ∈ keys, pos ∈ (new s capacity).positions k := by
  have hsize := (addAll_spec keys (new s capacity) 0).1
  rw [mayContain, hsize.positions_eq, List.all_eq_true]
  refine forall₂_congr fun pos _ => ?_
  rw [(addAll_spec keys (new s capacity) pos).2]
  refine or_iff_right ?_
  rw [new, getBit_replicate]
  exact Bool.false_ne_true

end BloomFilter

/-! ### Pages -/

/-- A page with its filter. -/
structure BloomPage extends Page where
  bloom : Option BloomFilter

namespace BloomPage

def new (level : ℕ) : BloomPage := ⟨Page.new level, none⟩

def push (p : BloomPage) (key value : Bytes) (tombstone : Bool) : BloomPage :=
  { p with toPage := p.toPage.push key value tombstone }

def sort (p : BloomPage) : BloomPage := { p with toPage := p.toPage.sort }

/-- Build a filter from the records, if there are any. -/
def buildBloom (s : Sizing) (p : BloomPage) : BloomPage :=
  if p.records = [] then p
  else
    let bf := p.records.foldl (fun bf rec => if !rec.tombstone then bf.add rec.key else bf)
      (BloomFilter.new s (max p.records.length 16))
    { p with bloom := some bf }

/-- Whether a key might be in the page. -/
def bloomMayContain (p : BloomPage) (key : Bytes) : Bool :=
  match p.bloom with
  | some bf => bf.mayContain key
  | none => true

/-- The page of some records, sorted and with its filter. -/
def built (s : Sizing) (level : ℕ) (pushed : List PageRecord) : BloomPage :=
  ((pushed.foldl (fun p r => p.push r.key r.value r.tombstone) (new level)).sort).buildBloom s

/-- A negative answer means that no record has the key, live or not. -/
def Conservative (p : BloomPage) : Prop :=
  ∀ key, p.bloomMayContain key = false → ∀ r ∈ p.records, r.key ≠ key

/-- Skipping the page on a negative answer changes no read. -/
def SkipHarmless (p : BloomPage) : Prop :=
  ∀ (before after : List Page) (key : Bytes), p.bloomMayContain key = false →
    getFrom (before ++ after) key = getFrom (before ++ p.toPage :: after) key

theorem Conservative.skipHarmless {p : BloomPage} (hp : p.Conservative) : p.SkipHarmless := by
  intro before after key hnot
  have hfind : p.toPage.find key = none := by
    cases hf : p.toPage.find key with
    | none => rfl
    | some r =>
      obtain ⟨hr, hkey⟩ := Page.find_eq_some hf
      exact absurd hkey (hp key hnot r hr)
  rw [getFrom_eq, getFrom_eq, List.findSome?_append, List.findSome?_append, List.findSome?_cons,
    hfind]

section

variable {s : Sizing} {level : ℕ} {pushed : List PageRecord}

/-- The filter of a page with these records, before their keys are added. -/
def emptyFilter (s : Sizing) (pushed : List PageRecord) : BloomFilter :=
  BloomFilter.new s (max pushed.length 16)

/-- The bits that are probed for the key of every tombstone are bits of live keys. -/
def TombstonesCovered (s : Sizing) (pushed : List PageRecord) : Prop :=
  ∀ r ∈ pushed, r.tombstone = true → ∀ pos ∈ (emptyFilter s pushed).positions r.key,
    ∃ r' ∈ pushed, r'.tombstone = false ∧ pos ∈ (emptyFilter s pushed).positions r'.key

theorem foldl_push (pushed : List PageRecord) (p : BloomPage) :
    pushed.foldl (fun p r => p.push r.key r.value r.tombstone) p
      = { p with records := p.records ++ pushed } := by
  induction pushed generalizing p with
  | nil => simp
  | cons r pushed ih =>
    rw [List.foldl_cons, ih, push, Page.push]
    simp

theorem toPage_buildBloom (s : Sizing) (p : BloomPage) : (p.buildBloom s).toPage = p.toPage := by
  rw [buildBloom]
  split <;> rfl

theorem records_built (s : Sizing) (level : ℕ) (pushed : List PageRecord) :
    (built s level pushed).records.Perm pushed := by
  rw [built, toPage_buildBloom, foldl_push]
  exact List.mergeSort_perm _ _

/-- The filter holds the keys of the live records. -/
theorem foldl_add_live (records : List PageRecord) (bf : BloomFilter) :
    records.foldl (fun bf rec => if !rec.tombstone then bf.add rec.key else bf) bf
      = bf.addAll ((records.filter fun r => !r.tombstone).map PageRecord.key) := by
  rw [BloomFilter.addAll, List.foldl_map, List.foldl_filter]

theorem bloomMayContain_built (hne : pushed ≠ []) (key : Bytes) :
    (built s level pushed).bloomMayContain key = true ↔
      ∀ pos ∈ (emptyFilter s pushed).positions key,
        ∃ r ∈ pushed, r.tombstone = false ∧ pos ∈ (emptyFilter s pushed).positions r.key := by
  obtain ⟨q, hbuilt, hperm⟩ : ∃ q : BloomPage, built s level pushed = q.buildBloom s ∧
      q.records.Perm pushed := by
    refine ⟨_, rfl, ?_⟩
    have h := records_built s level pushed
    rwa [built, toPage_buildBloom] at h
  have hrecords : q.records ≠ [] := by
    rw [← List.length_pos_iff, hperm.length_eq, List.length_pos_iff]
    exact hne
  rw [hbuilt, bloomMayContain, buildBloom, if_neg hrecords]
  simp only
  rw [foldl_add_live, BloomFilter.mayContain_addAll, hperm.length_eq, ← emptyFilter]
  refine forall₂_congr fun pos _ => ?_
  constructor
  · rintro ⟨k, hk, hpos⟩
    obtain ⟨r, hr, rfl⟩ := List.mem_map.mp hk
    obtain ⟨hr, hlive⟩ := List.mem_filter.mp hr
    exact ⟨r, hperm.mem_iff.mp hr, by simpa using hlive, hpos⟩
  · rintro ⟨r, hr, hlive, hpos⟩
    refine ⟨r.key, List.mem_map_of_mem (List.mem_filter.mpr ⟨hperm.mem_iff.mpr hr, ?_⟩), hpos⟩
    rw [hlive, Bool.not_false]

/-- **When skipping is safe**: a page that was built from some records is conservative, and may be
skipped on a negative answer, exactly if the bits of its tombstones are all bits of live keys. -/
theorem built_conservative_iff (s : Sizing) (level : ℕ) (pushed : List PageRecord) :
    (built s level pushed).Conservative ∧ (built s level pushed).SkipHarmless ↔
      TombstonesCovered s pushed := by
  rw [and_iff_left_of_imp Conservative.skipHarmless]
  have hmem : ∀ {r}, r ∈ (built s level pushed).records ↔ r ∈ pushed :=
    (records_built s level pushed).mem_iff
  constructor
  · intro h r hr _
    have hne : pushed ≠ [] := List.ne_nil_of_mem hr
    have hfound : (built s level pushed).bloomMayContain r.key = true := by
      by_contra hnot
      exact h r.key (Bool.eq_false_iff.mpr hnot) r (hmem.mpr hr) rfl
    exact (bloomMayContain_built hne r.key).mp hfound
  · rintro h key hnot r hr rfl
    rw [hmem] at hr
    have hne : pushed ≠ [] := List.ne_nil_of_mem hr
    rw [Bool.eq_false_iff, Ne, bloomMayContain_built hne] at hnot
    apply hnot
    intro pos hpos
    cases htomb : r.tombstone with
    | false => exact ⟨r, hr, htomb, hpos⟩
    | true => exact h r hr htomb pos hpos

end

/-- The sizes for 16 keys and one percent: 154 bits, 7 hashes. -/
def onePercent : Sizing := ⟨fun _ => 154, fun _ _ => 7⟩

/-- The page of one deleted key. -/
def deleted : BloomPage := built onePercent 0 [⟨[1], [], true⟩]

/-- **A deleted key is not in the filter**: with the page skipped, a read finds the value of an
older page. -/
theorem bloomMayContain_deleted :
    deleted.bloomMayContain [1] = false ∧ (⟨[1], [], true⟩ : PageRecord) ∈ deleted.records ∧
      getFrom [deleted.toPage, ⟨[⟨[1], [7], false⟩], 1⟩] [1] = none ∧
      getFrom [⟨[⟨[1], [7], false⟩], 1⟩] [1] = some [7] := by
  have hpage : deleted.toPage = ⟨[⟨[1], [], true⟩], 0⟩ := by
    rw [deleted, built, toPage_buildBloom]
    exact congrArg (Page.mk · 0) (List.mergeSort_singleton _)
  refine ⟨?_, ?_, ?_, by decide⟩
  · rw [Bool.eq_false_iff, deleted, Ne, bloomMayContain_built (by simp)]
    intro h
    obtain ⟨pos, hpos⟩ := List.exists_mem_of_ne_nil _
      (BloomFilter.positions_ne_nil onePercent 16 [1])
    obtain ⟨r, hr, hlive, _⟩ := h pos hpos
    rw [List.mem_singleton.mp hr] at hlive
    exact absurd hlive (by decide)
  · rw [hpage]
    exact List.mem_singleton_self _
  · rw [hpage]
    decide

end BloomPage

end Uldb
