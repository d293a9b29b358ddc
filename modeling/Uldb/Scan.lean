/-
What a scan returns.

Before the first flush a scan asks the memtable alone, afterwards it overlays the
frozen memtables and the memtable on the scan of the levels.  `scan_spec` describes
both: the pairs of the range, in key order, under what the scan finds below the
memtable (`scannedBelow`).
-/
import Uldb.Replay

namespace Uldb

/-- Every key lies in some range. -/
theorem inRange_self (k : Bytes) : InRange k (k ++ [0]) k := by
  refine ⟨by rw [Page.compare_self]; simp, ?_⟩
  induction k with
  | nil => rfl
  | cons b k ih =>
    have hself : compare b b = .eq := Std.ReflCmp.compare_self
    rw [List.cons_append, List.compare_cons_cons, hself]
    exact ih

/-- The pairs are in strictly ascending key order. -/
def Ascending {α : Type} (out : List (Bytes × α)) : Prop :=
  out.Pairwise fun a b => compare a.1 b.1 = .lt

theorem Memtable.ascending_toList (m : Memtable) : Ascending m.entries.toList :=
  Std.TreeMap.ordered_keys_toList

/-- The entries of a range, as the records they are flushed as. -/
theorem Memtable.find?_range (m : Memtable) (start stop k : Bytes) :
    ((m.entries.toList.filter fun ke => InRange start stop ke.1).map toRecord).find?
        (fun r => r.key = k)
      = if InRange start stop k then m.toPage.1.lookup k else none := by
  rw [Page.lookup, toPage_records, List.find?_map, List.find?_map, List.find?_filter]
  by_cases hk : InRange start stop k
  · rw [if_pos hk]
    congr 2
    funext ke
    by_cases hkey : ke.1 = k
    · simp [toRecord, hkey, hk]
    · simp [toRecord, hkey]
  · rw [if_neg hk, Option.map_eq_none_iff, List.find?_eq_none]
    intro ke _ hboth
    simp only [decide_eq_true_eq] at hboth
    obtain ⟨hin, hkey⟩ := hboth
    have hkey' : ke.1 = k := of_decide_eq_true hkey
    exact hk (hkey' ▸ hin)

/-- The page of a flush answers as the memtable's entries do. -/
theorem Memtable.live_lookup_toPage (m : Memtable) (k : Bytes) :
    (m.toPage.1.lookup k).map PageRecord.live = (m.getEntry k).map MemEntry.value := by
  rw [lookup_toPage, Option.map_map]
  congr 1
  funext entry
  exact toRecord_live (k, entry)

/-- The memtable has no entry for a key of the range that it does not answer for. -/
theorem Memtable.getEntry_eq_none {m : Memtable} {start stop k : Bytes}
    (hin : InRange start stop k)
    (hfree : ¬(InRange start stop k ∧ (m.getEntry k).isSome = true)) : m.getEntry k = none := by
  cases hentry : m.getEntry k with
  | none => rfl
  | some entry => exact absurd ⟨hin, by rw [hentry]; rfl⟩ hfree

namespace Engine

/-- An entry acts on the results of a scan as the record it is flushed as. -/
theorem overlay_eq {m : Memtable} {start stop : Bytes}
    (h : compare start stop ≠ .gt ∨ m.isEmpty = true) (results : Std.TreeMap Bytes Bytes) :
    overlay start stop results m
      = .ok (((m.entries.toList.filter fun ke => InRange start stop ke.1).map
          Memtable.toRecord).foldl
        (fun m r => if r.tombstone then m.erase r.key else m.insert r.key r.value) results) := by
  rw [overlay, Memtable.range_eq_some h, List.foldl_map, Except.ok.injEq]
  congr 1
  funext results ke
  obtain ⟨key, value, seq⟩ := ke
  cases value <;> rfl

/-- An overlay is the memtable's entry where the range has one, and the results below
elsewhere. -/
theorem overlay_spec (m : Memtable) {start stop : Bytes} (hle : compare start stop ≠ .gt)
    (results : Std.TreeMap Bytes Bytes) :
    ∃ results', overlay start stop results m = .ok results' ∧ ∀ k, results'[k]?
      = if InRange start stop k then ((m.getEntry k).map MemEntry.value).getD results[k]?
        else results[k]? := by
  refine ⟨_, overlay_eq (.inl hle) results, fun k => ?_⟩
  have hsub : ((m.entries.toList.filter fun ke => InRange start stop ke.1).map
      Memtable.toRecord).Sublist m.toPage.1.records := by
    rw [Memtable.toPage_records]
    exact List.filter_sublist.map _
  rw [getElem?_foldl_records (m.toPage_sorted.sublist hsub), Memtable.find?_range]
  by_cases hk : InRange start stop k
  · rw [if_pos hk, if_pos hk, Memtable.live_lookup_toPage]
  · rw [if_neg hk, if_neg hk]
    rfl

/-- Drained memtables change nothing. -/
theorem foldlM_overlay {ms : List Memtable} (hms : ∀ m ∈ ms, ∀ k, m.getEntry k = none)
    {start stop : Bytes} (hle : compare start stop ≠ .gt) (results : Std.TreeMap Bytes Bytes) :
    ∃ results', ms.foldlM (overlay start stop) results = .ok results' ∧
      ∀ k : Bytes, results'[k]? = results[k]? := by
  induction ms generalizing results with
  | nil => exact ⟨results, rfl, fun _ => rfl⟩
  | cons m ms ih =>
    obtain ⟨r₁, hr₁, hget₁⟩ := overlay_spec m hle results
    obtain ⟨r₂, hr₂, hget₂⟩ := ih (fun m' hm' => hms m' (by simp [hm'])) r₁
    refine ⟨r₂, ?_, fun k => ?_⟩
    · rw [List.foldlM_cons, hr₁]
      exact hr₂
    · rw [hget₂ k, hget₁ k, hms m (by simp) k, Option.map_none, Option.getD_none, ite_self]

variable {e : Engine}

/-- No flush yet: a scan asks the memtable only. -/
def Unflushed (e : Engine) : Prop := e.frozen = [] ∧ e.flushCount = 0

instance (e : Engine) : Decidable e.Unflushed := inferInstanceAs (Decidable (_ ∧ _))

/-- What a scan finds for a key below the memtable. -/
def scannedBelow (e : Engine) (start stop k : Bytes) : Option Bytes :=
  if e.Unflushed then none else (e.compactor.compaction.scan start stop)[k]?

/-- What a scan answers for a key: the memtable's entry in the range, and what is below
elsewhere. -/
def scanned (e : Engine) (start stop k : Bytes) : Option Bytes :=
  if InRange start stop k then
    ((e.memtable.getEntry k).map MemEntry.value).getD (e.scannedBelow start stop k)
  else e.scannedBelow start stop k

theorem scan_unflushed (hfast : e.Unflushed) {start stop : Bytes}
    (hle : compare start stop ≠ .gt) :
    ∃ out, e.scan start stop = .ok out ∧ Ascending out ∧
      ∀ k v, (k, v) ∈ out ↔ e.scanned start stop k = some v := by
  have hscan : e.scan start stop
      = .ok ((e.memtable.entries.toList.filter fun ke => InRange start stop ke.1).filterMap
        fun ke => ke.2.value.map fun v => (ke.1, v)) := by
    rw [Unflushed] at hfast
    rw [scan, if_pos hfast, Memtable.range_eq_some (.inl hle)]
  -- the fast path lists the live entries of the memtable, and nothing below it
  refine ⟨_, hscan, ?_, fun k v => ?_⟩
  · refine (e.memtable.ascending_toList.sublist List.filter_sublist).filterMap _ ?_
    rintro ⟨k, entry⟩ ⟨k', entry'⟩ hlt kv hkv kv' hkv'
    obtain ⟨v, _, rfl⟩ := Option.map_eq_some_iff.mp hkv
    obtain ⟨v', _, rfl⟩ := Option.map_eq_some_iff.mp hkv'
    exact hlt
  · rw [scanned, scannedBelow, if_pos hfast, List.mem_filterMap]
    constructor
    · rintro ⟨⟨k', entry⟩, hmem, hv⟩
      obtain ⟨w, hw, heq⟩ := Option.map_eq_some_iff.mp hv
      rw [Prod.mk.injEq] at heq
      obtain ⟨rfl, rfl⟩ := heq
      obtain ⟨hentry, hin⟩ := List.mem_filter.mp hmem
      rw [if_pos (of_decide_eq_true hin), Memtable.getEntry,
        Std.TreeMap.mem_toList_iff_getElem?_eq_some.mp hentry]
      exact hw
    · by_cases hk : InRange start stop k
      · rw [if_pos hk]
        intro hv
        cases hentry : e.memtable.getEntry k with
        | none =>
          rw [hentry] at hv
          exact absurd hv (by simp)
        | some entry =>
          rw [hentry] at hv
          have hv' : entry.value = some v := hv
          refine ⟨(k, entry), List.mem_filter.mpr ⟨?_, decide_eq_true hk⟩, by simp [hv']⟩
          exact Std.TreeMap.mem_toList_iff_getElem?_eq_some.mpr hentry
      · rw [if_neg hk]
        intro hv
        exact absurd hv (by simp)

theorem scan_flushed (he : e.Drained) (hfull : ¬e.Unflushed) {start stop : Bytes}
    (hle : compare start stop ≠ .gt) :
    ∃ out, e.scan start stop = .ok out ∧ Ascending out ∧
      ∀ k v, (k, v) ∈ out ↔ e.scanned start stop k = some v := by
  obtain ⟨r₁, hr₁, hget₁⟩ := foldlM_overlay he hle (e.compactor.compaction.scan start stop)
  obtain ⟨r₂, hr₂, hget₂⟩ := overlay_spec e.memtable hle r₁
  refine ⟨r₂.toList, ?_, Std.TreeMap.ordered_keys_toList, fun k v => ?_⟩
  · rw [Unflushed] at hfull
    rw [scan, if_neg hfull]
    simp only [hr₁, bind, Except.bind, hr₂]
  · rw [Std.TreeMap.mem_toList_iff_getElem?_eq_some, hget₂ k, hget₁ k, scanned, scannedBelow,
      if_neg hfull]

/-- **Scans**: the pairs of a range in key order, the memtable's entries over what is
below. -/
theorem scan_spec (he : e.Drained) {start stop : Bytes} (hle : compare start stop ≠ .gt) :
    ∃ out, e.scan start stop = .ok out ∧ Ascending out ∧
      ∀ k v, (k, v) ∈ out ↔ e.scanned start stop k = some v := by
  by_cases hfast : e.Unflushed
  · exact scan_unflushed hfast hle
  · exact scan_flushed he hfast hle

/-! ### Scans against a map -/

/-- Scans return the pairs of their range that the map has, in key order. -/
def Scans (e : Engine) (f : Bytes → Option Bytes) : Prop :=
  ∀ start stop, compare start stop ≠ .gt → ∃ out, e.scan start stop = .ok out ∧ Ascending out ∧
    ∀ k v, (k, v) ∈ out ↔ InRange start stop k ∧ f k = some v

/-- One scan returns the pairs of its range that the map has, in key order. -/
def ScansRange (e : Engine) (f : Bytes → Option Bytes) (start stop : Bytes) : Prop :=
  ∃ out, e.scan start stop = .ok out ∧ Ascending out ∧
    ∀ k v, (k, v) ∈ out ↔ InRange start stop k ∧ f k = some v

section

variable {start stop : Bytes} {f : Bytes → Option Bytes}

theorem scansRange_iff_scanned (he : e.Drained) (hle : compare start stop ≠ .gt) :
    e.ScansRange f start stop ↔
      ∀ k, e.scanned start stop k = if InRange start stop k then f k else none := by
  constructor
  -- a scan has one answer, so that its pairs are those of both functions
  · rintro ⟨out, hout, _, hpairs⟩ k
    obtain ⟨out', hout', _, hscanned⟩ := scan_spec he hle
    obtain rfl : out = out' := Except.ok.inj (hout.symm.trans hout')
    apply Option.ext
    intro v
    rw [← hscanned, hpairs]
    by_cases hk : InRange start stop k
    · rw [if_pos hk]
      exact ⟨fun hv => hv.2, fun hv => ⟨hk, hv⟩⟩
    · rw [if_neg hk]
      exact ⟨fun hv => absurd hv.1 hk, fun hv => absurd hv (by simp)⟩
  · intro h
    obtain ⟨out, hout, hasc, hscanned⟩ := scan_spec he hle
    refine ⟨out, hout, hasc, fun k v => ?_⟩
    rw [hscanned, h k]
    by_cases hk : InRange start stop k
    · rw [if_pos hk]
      exact ⟨fun hv => ⟨hk, hv⟩, fun hv => hv.2⟩
    · rw [if_neg hk]
      exact ⟨fun hv => absurd hv (by simp), fun hv => absurd hv.1 hk⟩

/-- **A scan returns a map that the memtable agrees with** exactly if, before the first flush,
the map has nothing for the keys of the range without an entry, and after it the scan of the
levels returns the map for them. -/
theorem scansRange_iff (he : e.Drained) (hle : compare start stop ≠ .gt)
    (hmem : ∀ k entry, e.memtable.getEntry k = some entry → entry.value = f k) :
    e.ScansRange f start stop ↔
      (e.Unflushed → ∀ k, InRange start stop k → e.memtable.getEntry k = none → f k = none) ∧
        (¬e.Unflushed → ∀ k, ¬(InRange start stop k ∧ (e.memtable.getEntry k).isSome = true) →
          (e.compactor.compaction.scan start stop)[k]?
            = if InRange start stop k then f k else none) := by
  rw [scansRange_iff_scanned he hle]
  constructor
  · intro h
    constructor
    · intro hfast k hin hnone
      have hk := h k
      rw [scanned, if_pos hin, if_pos hin, hnone, scannedBelow, if_pos hfast] at hk
      exact hk.symm
    · intro hfull k hfree
      have hk := h k
      rw [scanned, scannedBelow, if_neg hfull] at hk
      by_cases hin : InRange start stop k
      · rw [if_pos hin, if_pos hin, Memtable.getEntry_eq_none hin hfree] at hk
        rw [if_pos hin]
        exact hk
      · rw [if_neg hin, if_neg hin] at hk
        rw [if_neg hin]
        exact hk
  · rintro ⟨hfast, hfull⟩ k
    rw [scanned]
    by_cases hin : InRange start stop k
    · rw [if_pos hin, if_pos hin]
      cases hentry : e.memtable.getEntry k with
      | some entry => exact hmem k entry hentry
      | none =>
        rw [scannedBelow]
        by_cases h : e.Unflushed
        · rw [if_pos h, hfast h k hin hentry]
          rfl
        · rw [if_neg h, hfull h k (by rw [hentry]; simp), if_pos hin]
          rfl
    · rw [if_neg hin, if_neg hin, scannedBelow]
      by_cases h : e.Unflushed
      · rw [if_pos h]
      · rw [if_neg h, hfull h k (fun hboth => hin hboth.1), if_neg hin]

end

/-- **Scans return a map that the memtable agrees with** exactly if, before the first flush,
the map has nothing for the keys without an entry, and after it the scans of the levels
return the map for them. -/
theorem scans_iff (he : e.Drained) {f : Bytes → Option Bytes}
    (hmem : ∀ k entry, e.memtable.getEntry k = some entry → entry.value = f k) :
    e.Scans f ↔ (e.Unflushed → ∀ k, e.memtable.getEntry k = none → f k = none) ∧
      (¬e.Unflushed → ∀ start stop k, compare start stop ≠ .gt →
        ¬(InRange start stop k ∧ (e.memtable.getEntry k).isSome = true) →
          (e.compactor.compaction.scan start stop)[k]?
            = if InRange start stop k then f k else none) := by
  constructor
  · intro h
    constructor
    · intro hfast k
      have hle := (inRange_self k).start_le
      exact ((scansRange_iff he hle hmem).mp (h _ _ hle)).1 hfast k (inRange_self k)
    · intro hfull start stop k hle
      exact ((scansRange_iff he hle hmem).mp (h start stop hle)).2 hfull k
  · rintro ⟨hfast, hfull⟩ start stop hle
    exact (scansRange_iff he hle hmem).mpr
      ⟨fun h k _ => hfast h k, fun h k => hfull h start stop k hle⟩

end Engine

end Uldb
