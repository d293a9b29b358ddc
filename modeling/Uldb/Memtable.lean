/-
The memtable (`storage/memtable.rs`) and the pages it is flushed to.

* `getEntry_write` — a write replaces the entry of its key and no other;
* `toPage_sorted`, `lookup_toPage` — the page of a flush is strictly sorted and
  holds exactly the entries of the memtable;
* `sizeBytes_foldl_call` — the size counter is the size of the entries, after any calls.
-/
import Uldb.Page

namespace Uldb

/-- An entry; no value means a tombstone. -/
structure MemEntry where
  value : Option Bytes
  seq : ℕ
  deriving DecidableEq, Repr

structure Memtable where
  entries : Std.TreeMap Bytes MemEntry
  sizeBytes : ℕ
  nextSeq : ℕ
  flushThreshold : ℕ

namespace Memtable

def new (flushThreshold : ℕ) : Memtable := ⟨∅, 0, 0, flushThreshold⟩

def shouldFlush (m : Memtable) : Bool := m.flushThreshold ≤ m.sizeBytes

/-- The accounted size of an entry: key, value and 8 bytes for the sequence number. -/
def entrySize (key : Bytes) (value : Option Bytes) : ℕ :=
  key.length + (value.map List.length).getD 0 + 8

/-- Store an entry; an overwritten one no longer counts.  (Subtraction saturates.) -/
def write (m : Memtable) (key : Bytes) (value : Option Bytes) : Memtable :=
  let sizeBytes := match m.entries[key]? with
    | some old => m.sizeBytes - entrySize key old.value
    | none => m.sizeBytes
  { m with
    entries := m.entries.insert key ⟨value, m.nextSeq + 1⟩
    sizeBytes := sizeBytes + entrySize key value
    nextSeq := m.nextSeq + 1 }

/-- Insert or update a key; also tells whether the threshold is reached. -/
def put (m : Memtable) (key value : Bytes) : Memtable × Bool :=
  (m.write key (some value), (m.write key (some value)).shouldFlush)

/-- Mark a key as deleted. -/
def delete (m : Memtable) (key : Bytes) : Memtable × Bool :=
  (m.write key none, (m.write key none).shouldFlush)

def getEntry (m : Memtable) (key : Bytes) : Option MemEntry := m.entries[key]?

def isEmpty (m : Memtable) : Bool := m.entries.isEmpty

/-- The entries of a range.  `BTreeMap::range` panics if `start` is above `stop`, unless the
map is empty: then it has no tree to search, and does not look at the bounds. -/
def range (m : Memtable) (start stop : Bytes) : Option (List (Bytes × MemEntry)) :=
  if compare start stop = .gt ∧ m.isEmpty = false then none
  else some (m.entries.toList.filter fun ke => InRange start stop ke.1)

/-- Take all entries; the memtable is empty afterwards. -/
def drain (m : Memtable) : List (Bytes × MemEntry) × Memtable :=
  (m.entries.toList, { m with entries := ∅, sizeBytes := 0, nextSeq := 0 })

/-- `frozen_to_page` and `memtable_to_page`: drain into a sorted page. -/
def toPage (m : Memtable) : Page × Memtable :=
  let (entries, m) := m.drain
  let page := entries.foldl
    (fun p ke => p.push ke.1 (ke.2.value.getD []) ke.2.value.isNone) (Page.new 0)
  (page.sort, m)

/-! ### Writes -/

theorem getEntry_write (m : Memtable) (key : Bytes) (value : Option Bytes) (k : Bytes) :
    (m.write key value).getEntry k
      = if key = k then some ⟨value, m.nextSeq + 1⟩ else m.getEntry k := by
  rw [getEntry, write, Std.TreeMap.getElem?_insert]
  by_cases hk : key = k
  · rw [if_pos hk, hk, if_pos (Page.compare_self k)]
  · rw [if_neg hk, if_neg fun hc => hk (Std.LawfulEqCmp.eq_of_compare hc)]
    rfl

@[simp] theorem getEntry_new (t : ℕ) (k : Bytes) : (new t).getEntry k = none := by
  simp [getEntry, new]

/-! ### Ranges -/

/-- An empty memtable is one without entries. -/
theorem isEmpty_iff {m : Memtable} : m.isEmpty = true ↔ ∀ k, m.getEntry k = none := by
  rw [isEmpty, Std.TreeMap.isEmpty_iff_forall_not_mem]
  simp only [getEntry, getElem?_eq_none_iff]

/-- A range returns if its bounds are in order or nothing is stored. -/
theorem range_eq_some {m : Memtable} {start stop : Bytes}
    (h : compare start stop ≠ .gt ∨ m.isEmpty = true) : m.range start stop
      = some (m.entries.toList.filter fun ke => InRange start stop ke.1) := by
  rw [range, if_neg]
  rintro ⟨hgt, hsome⟩
  rcases h with hle | hempty
  · exact hle hgt
  · exact absurd (hempty.symm.trans hsome) (by simp)

theorem range_eq_none {m : Memtable} {start stop : Bytes} (hgt : compare start stop = .gt)
    (hsome : m.isEmpty = false) : m.range start stop = none := by
  rw [range, if_pos ⟨hgt, hsome⟩]

/-! ### The page of a flush -/

/-- The record an entry is flushed as. -/
def toRecord (ke : Bytes × MemEntry) : PageRecord :=
  ⟨ke.1, ke.2.value.getD [], ke.2.value.isNone⟩

theorem toRecord_live (ke : Bytes × MemEntry) : (toRecord ke).live = ke.2.value := by
  obtain ⟨k, v, s⟩ := ke
  cases v <;> rfl

theorem records_foldl_push (es : List (Bytes × MemEntry)) (p : Page) :
    (es.foldl (fun p ke => p.push ke.1 (ke.2.value.getD []) ke.2.value.isNone) p).records
      = p.records ++ es.map toRecord := by
  induction es generalizing p with
  | nil => simp
  | cons e es ih =>
    rw [List.foldl_cons, ih, Page.push, List.map_cons]
    simp [toRecord]

/-- The entries come out in key order, so sorting does nothing. -/
theorem toPage_records (m : Memtable) : m.toPage.1.records = m.entries.toList.map toRecord := by
  rw [toPage, drain]
  simp only [Page.sort, records_foldl_push, Page.new, List.nil_append]
  refine List.mergeSort_of_pairwise ?_
  rw [List.pairwise_map]
  refine Std.TreeMap.ordered_keys_toList.imp fun {a b} hlt => ?_
  show (compare a.1 b.1).isLE = true
  rw [hlt]
  rfl

theorem toPage_sorted (m : Memtable) : m.toPage.1.Sorted := by
  rw [Page.Sorted, toPage_records, List.pairwise_map]
  exact Std.TreeMap.ordered_keys_toList

theorem lookup_toPage (m : Memtable) (k : Bytes) :
    m.toPage.1.lookup k = (m.getEntry k).map fun e => toRecord (k, e) := by
  apply Option.ext
  intro r
  rw [m.toPage_sorted.lookup_eq_some_iff, toPage_records, List.mem_map, Option.map_eq_some_iff]
  constructor
  · rintro ⟨⟨⟨k', e⟩, hmem, rfl⟩, hk⟩
    obtain rfl : k' = k := hk
    exact ⟨e, Std.TreeMap.mem_toList_iff_getElem?_eq_some.mp hmem, rfl⟩
  · rintro ⟨e, he, rfl⟩
    exact ⟨⟨(k, e), Std.TreeMap.mem_toList_iff_getElem?_eq_some.mpr he, rfl⟩, rfl⟩

theorem getEntry_toPage (m : Memtable) (k : Bytes) : m.toPage.2.getEntry k = none := by
  simp [toPage, drain, getEntry]

theorem key_mem_toPage {m : Memtable} {r : PageRecord} (h : r ∈ m.toPage.1.records) :
    ∃ e, m.getEntry r.key = some e := by
  have hl := m.toPage_sorted.lookup_eq_some_iff.mpr ⟨h, rfl⟩
  rw [lookup_toPage, Option.map_eq_some_iff] at hl
  obtain ⟨e, he, _⟩ := hl
  exact ⟨e, he⟩

/-! ### The size -/

section

variable {V : Type} {entries : Std.TreeMap Bytes V} {key : Bytes}

theorem sum_toList_insert (entries : Std.TreeMap Bytes V) (f : Bytes × V → ℕ) (key : Bytes)
    (v : V) : ((entries.insert key v).toList.map f).sum
      = f (key, v) + ((entries.toList.filter fun ke => ¬(key == ke.1) = true).map f).sum := by
  have hperm := @Std.TreeMap.toList_insert_perm _ _ _ entries _ _ _ key v
  rw [(hperm.map f).sum_eq, List.map_cons, List.sum_cons]

theorem toList_insert_self {old : V} (h : entries[key]? = some old) :
    (entries.insert key old).toList = entries.toList := by
  refine (Std.TreeMap.Equiv.of_forall_constGet?_eq fun k => ?_).toList_eq
  show (entries.insert key old)[k]? = entries[k]?
  rw [Std.TreeMap.getElem?_insert]
  split
  · rename_i hk
    rw [← h, Std.LawfulEqCmp.eq_of_compare hk]
  · rfl

theorem filter_of_getElem?_eq_none (h : entries[key]? = none) :
    (entries.toList.filter fun ke => ¬(key == ke.1) = true) = entries.toList := by
  rw [List.filter_eq_self]
  rintro ⟨k, v⟩ hmem
  have hget := Std.TreeMap.mem_toList_iff_getElem?_eq_some.mp hmem
  have hne : key ≠ k := by
    rintro rfl
    rw [h] at hget
    exact absurd hget (by simp)
  simpa using hne

end

/-- The sizes of the entries together. -/
def totalSize (m : Memtable) : ℕ := (m.entries.toList.map fun ke => entrySize ke.1 ke.2.value).sum

/-- The counter is the size of the entries. -/
def Sized (m : Memtable) : Prop := m.sizeBytes = m.totalSize

theorem sized_new (t : ℕ) : Sized (new t) := rfl

theorem sized_drain (m : Memtable) : Sized m.drain.2 := rfl

/-- An entry is counted. -/
theorem totalSize_eq {m : Memtable} {key : Bytes} {old : MemEntry}
    (h : m.entries[key]? = some old) : m.totalSize = entrySize key old.value
      + ((m.entries.toList.filter fun ke => ¬(key == ke.1) = true).map
          fun ke => entrySize ke.1 ke.2.value).sum := by
  rw [totalSize, ← toList_insert_self h,
    sum_toList_insert m.entries (fun ke => entrySize ke.1 ke.2.value), toList_insert_self h]

/-- **Overwriting** never takes more than there is. -/
theorem Sized.entrySize_le {m : Memtable} (hm : Sized m) {key : Bytes} {old : MemEntry}
    (h : m.entries[key]? = some old) : entrySize key old.value ≤ m.sizeBytes := by
  rw [hm, totalSize_eq h]
  exact Nat.le_add_right _ _

/-- **A write keeps the counter** in step with the entries. -/
theorem Sized.write {m : Memtable} (hm : Sized m) (key : Bytes) (value : Option Bytes) :
    Sized (m.write key value) := by
  have hins := sum_toList_insert m.entries (fun ke => entrySize ke.1 ke.2.value) key
    ⟨value, m.nextSeq + 1⟩
  rw [Sized, totalSize, Memtable.write]
  simp only [hins]
  cases hold : m.entries[key]? with
  | none =>
    rw [filter_of_getElem?_eq_none hold, Nat.add_comm]
    exact congrArg _ hm
  | some old =>
    have htotal := totalSize_eq hold
    rw [← hm] at htotal
    simp only
    omega

/-- A call of a memtable. -/
inductive Call
  | put (key value : Bytes)
  | delete (key : Bytes)
  | drain

/-- The memtable after a call. -/
def call (m : Memtable) : Call → Memtable
  | .put key value => (m.put key value).1
  | .delete key => (m.delete key).1
  | .drain => m.drain.2

theorem Sized.call {m : Memtable} (hm : Sized m) (c : Call) : Sized (m.call c) := by
  cases c with
  | put key value => exact hm.write key (some value)
  | delete key => exact hm.write key none
  | drain => exact sized_drain m

theorem Sized.foldl_call {m : Memtable} (hm : Sized m) (calls : List Call) :
    Sized (calls.foldl Memtable.call m) := by
  induction calls generalizing m with
  | nil => exact hm
  | cons c calls ih => exact ih (hm.call c)

theorem flushThreshold_foldl_call (m : Memtable) (calls : List Call) :
    (calls.foldl Memtable.call m).flushThreshold = m.flushThreshold := by
  induction calls generalizing m with
  | nil => rfl
  | cons c calls ih =>
    rw [List.foldl_cons, ih]
    cases c <;> rfl

/-- **The size of a memtable** after any calls: the counter is the size of the entries, an
overwritten entry is subtracted in full, and a write tells whether the entries reach the
threshold. -/
theorem sizeBytes_foldl_call (t : ℕ) (calls : List Call) :
    let m := calls.foldl call (new t)
    m.sizeBytes = m.totalSize ∧
    (∀ key old, m.entries[key]? = some old → entrySize key old.value ≤ m.sizeBytes) ∧
    (∀ key value, (m.put key value).2 = true ↔ t ≤ (m.put key value).1.totalSize) ∧
    ∀ key, (m.delete key).2 = true ↔ t ≤ (m.delete key).1.totalSize := by
  intro m
  have hm : Sized m := (sized_new t).foldl_call calls
  have ht : m.flushThreshold = t := flushThreshold_foldl_call (new t) calls
  have hflush : ∀ key value, (m.write key value).shouldFlush = true ↔
      t ≤ (m.write key value).totalSize := by
    intro key value
    rw [shouldFlush, decide_eq_true_iff, hm.write key value]
    show m.flushThreshold ≤ _ ↔ _
    rw [ht]
  exact ⟨hm, fun key old h => hm.entrySize_le h, fun key value => hflush key (some value),
    fun key => hflush key none⟩

end Memtable

end Uldb
