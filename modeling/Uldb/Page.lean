/-
Sorted pages of records (`storage/page.rs`).

A page is searched by binary search on its keys; on a page strictly sorted by
key that is the plain lookup of the key (`find_eq_lookup`), and `range` is the
records of the interval (`mem_range_iff`).

The bloom filter of a page is left out here: `get`, `range` and the page format
do not read it.
-/
import Uldb.Basic
import Uldb.Lib.BigEndian
import Uldb.Lib.BinarySearch

namespace Uldb

open BigEndian BinarySearch

/-- A single record within a page. -/
structure PageRecord where
  key : Bytes
  value : Bytes
  tombstone : Bool
  deriving DecidableEq, Repr

/-- The value a record stands for: none for a tombstone. -/
def PageRecord.live (r : PageRecord) : Option Bytes := if r.tombstone then none else some r.value

/-- A page of key-value records. -/
structure Page where
  records : List PageRecord
  level : ℕ
  deriving DecidableEq, Repr

namespace Page

def new (level : ℕ) : Page := ⟨[], level⟩

def push (p : Page) (key value : Bytes) (tombstone : Bool) : Page :=
  { p with records := p.records ++ [⟨key, value, tombstone⟩] }

def sort (p : Page) : Page :=
  { p with records := p.records.mergeSort fun a b => (compare a.key b.key).isLE }

/-- Binary search for a key. -/
def search (p : Page) (key : Bytes) : Except ℕ ℕ :=
  binarySearchBy p.records fun r => compare r.key key

/-- The record the search hits. -/
def find (p : Page) (key : Bytes) : Option PageRecord :=
  match p.search key with
  | .ok i => p.records[i]?
  | .error _ => none

def get (p : Page) (key : Bytes) : Option Bytes :=
  (p.find key).bind PageRecord.live

/-- The records of the half-open interval from `start` to `stop`. -/
def range (p : Page) (start stop : Bytes) : List PageRecord :=
  let first := match p.search start with
    | .ok i => i
    | .error i => i
  (p.records.drop first).takeWhile fun r => compare r.key stop = .lt

/-! ### Lookup in a sorted page -/

theorem compare_self (k : Bytes) : compare k k = .eq := Std.ReflCmp.compare_self

/-- Strictly sorted by key. -/
def Sorted (p : Page) : Prop := p.records.Pairwise fun a b => compare a.key b.key = .lt

/-- The first record of a key. -/
def lookup (p : Page) (key : Bytes) : Option PageRecord := p.records.find? fun r => r.key = key

theorem lookup_eq_some_key {p : Page} {key : Bytes} {r : PageRecord}
    (h : p.lookup key = some r) : r.key = key := by
  simpa using List.find?_some h

theorem mem_of_lookup {p : Page} {key : Bytes} {r : PageRecord}
    (h : p.lookup key = some r) : r ∈ p.records := List.mem_of_find?_eq_some h

theorem Sorted.ordered {p : Page} (hp : p.Sorted) (key : Bytes) :
    Ordered (fun r => compare r.key key) p.records := by
  refine hp.imp fun {a b} hab => ⟨fun hgt => ?_, fun hlt => ?_⟩
  · rw [← Std.OrientedCmp.gt_iff_lt] at hab
    exact Std.TransCmp.gt_trans hab hgt
  · exact Std.TransCmp.lt_trans hab hlt

/-- Different positions of a sorted page hold different keys. -/
theorem Sorted.eq_of_mem {p : Page} (hp : p.Sorted) {r r' : PageRecord} (hr : r ∈ p.records)
    (hr' : r' ∈ p.records) (hkey : r.key = r'.key) : r = r' := by
  by_contra hne
  have hirr : ∀ k : Bytes, compare k k ≠ .lt := fun k => by
    rw [compare_self]
    simp
  obtain ⟨i, hi, rfl⟩ := List.getElem_of_mem hr
  obtain ⟨j, hj, rfl⟩ := List.getElem_of_mem hr'
  rcases Nat.lt_trichotomy i j with h | h | h
  · have := List.pairwise_iff_getElem.mp hp i j hi hj h
    rw [hkey] at this
    exact hirr _ this
  · subst h
    exact hne rfl
  · have := List.pairwise_iff_getElem.mp hp j i hj hi h
    rw [hkey] at this
    exact hirr _ this

theorem Sorted.lookup_eq_some_iff {p : Page} (hp : p.Sorted) {key : Bytes} {r : PageRecord} :
    p.lookup key = some r ↔ r ∈ p.records ∧ r.key = key := by
  constructor
  · intro h
    exact ⟨mem_of_lookup h, lookup_eq_some_key h⟩
  · rintro ⟨hr, hkey⟩
    cases hl : p.lookup key with
    | none =>
      have := List.find?_eq_none.mp hl r hr
      simp [hkey] at this
    | some r' =>
      rw [hp.eq_of_mem (mem_of_lookup hl) hr ((lookup_eq_some_key hl).trans hkey.symm)]

/-- A hit is a record of the key, in any page. -/
theorem find_eq_some {p : Page} {key : Bytes} {r : PageRecord} (h : p.find key = some r) :
    r ∈ p.records ∧ r.key = key := by
  rw [find] at h
  split at h
  · rename_i i hi
    obtain ⟨x, hx, heq⟩ := getElem?_of_ok hi
    rw [hx, Option.some_inj] at h
    subst h
    exact ⟨List.mem_of_getElem? hx, Std.LawfulEqCmp.eq_of_compare heq⟩
  · exact absurd h (by simp)

/-- Binary search in a sorted page is the lookup of the key. -/
theorem find_eq_lookup {p : Page} (hp : p.Sorted) (key : Bytes) : p.find key = p.lookup key := by
  cases hf : p.find key with
  | some r => exact (hp.lookup_eq_some_iff.mpr (find_eq_some hf)).symm
  | none =>
    symm
    rw [lookup, List.find?_eq_none]
    intro r hr hkey
    rw [find] at hf
    split at hf
    · rename_i i hi
      obtain ⟨x, hx, _⟩ := getElem?_of_ok hi
      rw [hx] at hf
      exact absurd hf (by simp)
    · rename_i i hi
      obtain ⟨hlow, hhigh⟩ := of_error (hp.ordered key) hi
      obtain ⟨j, hj, rfl⟩ := List.getElem_of_mem hr
      have heq : compare p.records[j].key key = .eq := by
        rw [of_decide_eq_true hkey]
        exact compare_self key
      rcases Nat.lt_or_ge j i with h | h
      · rw [hlow j _ h (List.getElem?_eq_getElem hj)] at heq
        exact absurd heq (by simp)
      · rw [hhigh j _ h (List.getElem?_eq_getElem hj)] at heq
        exact absurd heq (by simp)

/-! ### Range scans of a sorted page -/

/-- The records before the start position are below `start`, the others are not. -/
theorem search_split {p : Page} (hp : p.Sorted) (start : Bytes) :
    ∃ first, (match p.search start with | .ok i => i | .error i => i) = first ∧
      (∀ j r, j < first → p.records[j]? = some r → compare r.key start = .lt) ∧
      ∀ j r, first ≤ j → p.records[j]? = some r → compare r.key start ≠ .lt := by
  cases hs : p.search start with
  | ok i =>
    obtain ⟨x, hx, heq⟩ := getElem?_of_ok hs
    have hkey : x.key = start := Std.LawfulEqCmp.eq_of_compare heq
    obtain ⟨hi, rfl⟩ := List.getElem?_eq_some_iff.mp hx
    refine ⟨i, rfl, fun j r hj hr => ?_, fun j r hj hr => ?_⟩
    · obtain ⟨hjl, rfl⟩ := List.getElem?_eq_some_iff.mp hr
      rw [← hkey]
      exact List.pairwise_iff_getElem.mp hp j i hjl hi hj
    · obtain ⟨hjl, rfl⟩ := List.getElem?_eq_some_iff.mp hr
      rcases Nat.eq_or_lt_of_le hj with h | h
      · subst h
        rw [hkey, compare_self]
        simp
      · have hlt := List.pairwise_iff_getElem.mp hp i j hi hjl h
        rw [hkey, ← Std.OrientedCmp.gt_iff_lt] at hlt
        rw [hlt]
        simp
  | error i =>
    obtain ⟨hlow, hhigh⟩ := of_error (hp.ordered start) hs
    refine ⟨i, rfl, hlow, fun j r hj hr => ?_⟩
    have hgt : compare r.key start = .gt := hhigh j r hj hr
    rw [hgt]
    simp

theorem mem_takeWhile_of_sorted {rs : List PageRecord}
    (hrs : rs.Pairwise fun a b => compare a.key b.key = .lt) (stop : Bytes) (r : PageRecord) :
    r ∈ (rs.takeWhile fun r => compare r.key stop = .lt) ↔
      r ∈ rs ∧ compare r.key stop = .lt := by
  induction rs with
  | nil => simp
  | cons a rs ih =>
    rw [List.pairwise_cons] at hrs
    by_cases ha : compare a.key stop = .lt
    · rw [List.takeWhile_cons_of_pos (by simpa using ha), List.mem_cons, List.mem_cons,
        ih hrs.2]
      constructor
      · rintro (rfl | ⟨hr, hlt⟩)
        · exact ⟨.inl rfl, ha⟩
        · exact ⟨.inr hr, hlt⟩
      · rintro ⟨rfl | hr, hlt⟩
        · exact .inl rfl
        · exact .inr ⟨hr, hlt⟩
    · rw [List.takeWhile_cons_of_neg (by simpa using ha)]
      constructor
      · intro h
        exact absurd h (by simp)
      · rintro ⟨hr, hlt⟩
        rcases List.mem_cons.mp hr with rfl | hr
        · exact absurd hlt ha
        · exact absurd (Std.TransCmp.lt_trans (hrs.1 r hr) hlt) ha

/-- A range scan of a sorted page returns the records of the interval. -/
theorem mem_range_iff {p : Page} (hp : p.Sorted) (start stop : Bytes) (r : PageRecord) :
    r ∈ p.range start stop ↔
      r ∈ p.records ∧ compare r.key start ≠ .lt ∧ compare r.key stop = .lt := by
  obtain ⟨first, hfirst, hlow, hhigh⟩ := search_split hp start
  rw [range, hfirst, mem_takeWhile_of_sorted (hp.sublist (List.drop_sublist first _))]
  constructor
  · rintro ⟨hr, hlt⟩
    obtain ⟨j, hj, rfl⟩ := List.getElem_of_mem hr
    rw [List.getElem_drop]
    refine ⟨List.getElem_mem _, hhigh (first + j) _ (by omega) (by simp), ?_⟩
    rwa [List.getElem_drop] at hlt
  · rintro ⟨hr, hge, hlt⟩
    obtain ⟨j, hj, rfl⟩ := List.getElem_of_mem hr
    refine ⟨?_, hlt⟩
    have hle : first ≤ j := by
      by_contra hc
      exact hge (hlow j _ (by omega) (List.getElem?_eq_getElem hj))
    rw [List.mem_iff_getElem?]
    exact ⟨j - first, by rw [List.getElem?_drop, show first + (j - first) = j by omega,
      List.getElem?_eq_getElem hj]⟩

/-- Every page, also an unsorted one, has an empty range between bounds that are not in order:
the record that the search ends at has the key of the first bound, or a key above it. -/
theorem range_of_not_lt (p : Page) {start stop : Bytes} (hbounds : compare start stop ≠ .lt) :
    p.range start stop = [] := by
  obtain ⟨first, hfirst, hhead⟩ : ∃ first,
      (match p.search start with | .ok i => i | .error i => i) = first ∧
        ∀ r, p.records[first]? = some r → compare r.key start ≠ .lt := by
    cases hs : p.search start with
    | ok i =>
      obtain ⟨x, hx, heq⟩ := BinarySearch.getElem?_of_ok hs
      refine ⟨i, rfl, fun r hr => ?_⟩
      rw [hr, Option.some_inj] at hx
      rw [hx, heq]
      simp
    | error i =>
      refine ⟨i, rfl, fun r hr => ?_⟩
      have hgt : compare r.key start = .gt := BinarySearch.gt_of_error hs hr
      rw [hgt]
      simp
  rw [range, hfirst]
  cases hdrop : p.records.drop first with
  | nil => rfl
  | cons r rest =>
    have hr : p.records[first]? = some r := by
      rw [← Nat.add_zero first, ← List.getElem?_drop, hdrop]
      rfl
    have hstart := hhead r hr
    rw [List.takeWhile_cons_of_neg]
    intro hlt
    have hstop : compare r.key stop = .lt := of_decide_eq_true hlt
    -- a key below the second bound and not below the first puts the bounds in order
    exact hbounds (InRange.start_lt ⟨hstart, hstop⟩)

end Page

end Uldb
