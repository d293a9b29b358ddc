/-
The LRU cache of hot reads (`storage/cache.rs`).

Every hit and every insert draws a new generation; a full cache evicts the entry
with the lowest one.  What the engine needs is that the cache only ever answers
with a value that was inserted for the key (`lookup_insert`, `lookup_invalidate`).
-/
import Uldb.Basic

namespace Uldb

structure CacheEntry where
  value : Bytes
  generation : ℕ
  deriving DecidableEq, Repr

structure LruCache where
  entries : Std.TreeMap Bytes CacheEntry
  capacity : ℕ
  generation : ℕ

namespace LruCache

def new (capacity : ℕ) : LruCache := ⟨∅, capacity, 0⟩

/-- Lookup; a hit becomes the most recently used entry. -/
def get (c : LruCache) (key : Bytes) : Option Bytes × LruCache :=
  match c.entries[key]? with
  | some entry =>
    (some entry.value,
      { c with
        entries := c.entries.insert key { entry with generation := c.generation + 1 }
        generation := c.generation + 1 })
  | none => (none, c)

/-- The key with the lowest generation, with the running minimum of the scan. -/
def oldest (c : LruCache) : Option Bytes × ℕ :=
  c.entries.toList.foldl
    (fun best ke => if ke.2.generation < best.2 then (some ke.1, ke.2.generation) else best)
    (none, 2 ^ 64 - 1)

/-- Make room for one more entry. -/
def evict (c : LruCache) : LruCache :=
  if c.capacity ≤ c.entries.size then
    match c.oldest.1 with
    | some k => { c with entries := c.entries.erase k }
    | none => c
  else c

def insert (c : LruCache) (key value : Bytes) : LruCache :=
  let c := { c with generation := c.generation + 1 }
  let c := if (c.entries[key]?).isSome then c else c.evict
  { c with entries := c.entries.insert key ⟨value, c.generation⟩ }

def invalidate (c : LruCache) (key : Bytes) : LruCache :=
  { c with entries := c.entries.erase key }

def clear (c : LruCache) : LruCache := { c with entries := ∅ }

def isEmpty (c : LruCache) : Bool := c.entries.isEmpty

/-! ### What the cache holds -/

/-- The value held for a key. -/
def lookup (c : LruCache) (key : Bytes) : Option Bytes := (c.entries[key]?).map (·.value)

theorem get_fst (c : LruCache) (key : Bytes) : (c.get key).1 = c.lookup key := by
  rw [get, lookup]
  cases c.entries[key]? <;> rfl

theorem compare_eq_iff {k k' : Bytes} : compare k k' = .eq ↔ k = k' :=
  ⟨Std.LawfulEqCmp.eq_of_compare, fun h => by rw [h]; exact Std.ReflCmp.compare_self⟩

/-- A read changes what is held for no key. -/
theorem lookup_get (c : LruCache) (key k : Bytes) : (c.get key).2.lookup k = c.lookup k := by
  rw [get]
  cases he : c.entries[key]? with
  | none => rfl
  | some entry =>
    simp only [lookup, Std.TreeMap.getElem?_insert, compare_eq_iff]
    by_cases hk : key = k
    · subst hk
      simp [he]
    · simp [hk]

theorem lookup_invalidate (c : LruCache) (key k : Bytes) :
    (c.invalidate key).lookup k = if key = k then none else c.lookup k := by
  simp only [lookup, invalidate, Std.TreeMap.getElem?_erase, compare_eq_iff]
  by_cases hk : key = k
  · simp [hk]
  · simp [hk]

theorem lookup_of_isEmpty {c : LruCache} (h : c.isEmpty = true) (k : Bytes) :
    c.lookup k = none := by
  rw [lookup, Std.TreeMap.getElem?_of_isEmpty h]
  rfl

@[simp] theorem lookup_clear (c : LruCache) (k : Bytes) : c.clear.lookup k = none := by
  simp [lookup, clear]

@[simp] theorem lookup_new (n : ℕ) (k : Bytes) : (new n).lookup k = none := by
  simp [lookup, new]

/-- Eviction forgets values and invents none. -/
theorem lookup_evict {c : LruCache} {k v : Bytes} (h : c.evict.lookup k = some v) :
    c.lookup k = some v := by
  rw [evict] at h
  by_cases hfull : c.capacity ≤ c.entries.size
  · rw [if_pos hfull] at h
    cases ho : c.oldest.1 with
    | none =>
      rw [ho] at h
      exact h
    | some k' =>
      rw [ho] at h
      have h' : (c.invalidate k').lookup k = some v := h
      rw [lookup_invalidate] at h'
      by_cases hk : k' = k
      · rw [if_pos hk] at h'
        exact absurd h' (by simp)
      · rwa [if_neg hk] at h'
  · rwa [if_neg hfull] at h

/-- After an insert the cache holds the new value, and otherwise only old ones. -/
theorem lookup_insert {c : LruCache} {key value k v : Bytes}
    (h : (c.insert key value).lookup k = some v) :
    (key = k ∧ v = value) ∨ (key ≠ k ∧ c.lookup k = some v) := by
  rw [lookup, insert] at h
  simp only [Std.TreeMap.getElem?_insert, compare_eq_iff] at h
  by_cases hk : key = k
  · rw [if_pos hk] at h
    exact .inl ⟨hk, by simpa using h.symm⟩
  · rw [if_neg hk] at h
    refine .inr ⟨hk, ?_⟩
    by_cases hin : (c.entries[key]?).isSome
    · rw [if_pos hin] at h
      exact h
    · rw [if_neg hin] at h
      exact @lookup_evict { c with generation := c.generation + 1 } k v h

end LruCache

end Uldb
