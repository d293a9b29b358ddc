/-
The cache evicts the least recently used entry.

Recency is kept in generations: the lowest one marks the entry to evict, and it is found by a scan
of a hash map, in whatever order.  The generations of the entries are different, and decrease along
the list of the entries by recency (`Recent`), so every order finds the last entry of this list.

* `scan_spec` — what the scan finds;
* `Recent.step`, `lru_refines` — every call does to the cache what it does to the list.
-/
import Uldb.Cache
import Uldb.Lib.RecencyList

namespace Uldb

open RecencyList

namespace LruCache

/-! ### Any order of the map -/

/-- The scan for the lowest generation, through the entries in some order. -/
def scan (order : List (Bytes × CacheEntry)) : Option Bytes × ℕ :=
  order.foldl
    (fun best ke => if ke.2.generation < best.2 then (some ke.1, ke.2.generation) else best)
    (none, 2 ^ 64 - 1)

/-- `evict`, where the map is iterated in some order. -/
def evictIn (order : List (Bytes × CacheEntry)) (c : LruCache) : LruCache :=
  if c.capacity ≤ c.entries.size then
    match (scan order).1 with
    | some k => { c with entries := c.entries.erase k }
    | none => c
  else c

/-- `insert`, where the map is iterated in some order. -/
def insertIn (order : List (Bytes × CacheEntry)) (c : LruCache) (key value : Bytes) : LruCache :=
  let c := { c with generation := c.generation + 1 }
  let c := if (c.entries[key]?).isSome then c else c.evictIn order
  { c with entries := c.entries.insert key ⟨value, c.generation⟩ }

theorem insert_eq_insertIn (c : LruCache) (key value : Bytes) :
    c.insert key value = c.insertIn c.entries.toList key value := rfl

/-- A call, with its answer and the cache after it. -/
inductive Step (c : LruCache) : Op Bytes Bytes → Option Bytes → LruCache → Prop
  | get (key : Bytes) : Step c (.get key) (c.get key).1 (c.get key).2
  | insert {order : List (Bytes × CacheEntry)} (horder : order.Perm c.entries.toList)
    (key value : Bytes) : Step c (.insert key value) none (c.insertIn order key value)
  | invalidate (key : Bytes) : Step c (.invalidate key) none (c.invalidate key)
  | clear : Step c .clear none c.clear

/-- Calls one after the other. -/
inductive Runs : LruCache → List (Op Bytes Bytes) → List (Option Bytes) → LruCache → Prop
  | nil (c : LruCache) : Runs c [] [] c
  | cons {c c' c'' : LruCache} {op : Op Bytes Bytes} {ops : List (Op Bytes Bytes)}
    {answer : Option Bytes} {answers : List (Option Bytes)} (hstep : Step c op answer c')
    (hrun : Runs c' ops answers c'') : Runs c (op :: ops) (answer :: answers) c''

/-! ### The scan -/

/-- The key of an entry of lowest generation, if one is below the bound. -/
theorem foldl_scan (order : List (Bytes × CacheEntry)) (best : Option Bytes × ℕ) :
    (order.foldl
      (fun best ke => if ke.2.generation < best.2 then (some ke.1, ke.2.generation) else best)
      best = best ∧ ∀ ke ∈ order, best.2 ≤ ke.2.generation) ∨
    ∃ ke ∈ order, order.foldl
      (fun best ke => if ke.2.generation < best.2 then (some ke.1, ke.2.generation) else best)
      best = (some ke.1, ke.2.generation) ∧ ke.2.generation < best.2 ∧
        ∀ ke' ∈ order, ke.2.generation ≤ ke'.2.generation := by
  induction order generalizing best with
  | nil => exact .inl ⟨rfl, by simp⟩
  | cons e order ih =>
    rw [List.foldl_cons]
    by_cases hlt : e.2.generation < best.2
    · rw [if_pos hlt]
      right
      rcases ih (some e.1, e.2.generation) with ⟨heq, hle⟩ | ⟨ke, hmem, heq, hbelow, hle⟩
      · exact ⟨e, List.mem_cons_self, heq, hlt, List.forall_mem_cons.mpr ⟨le_refl _, hle⟩⟩
      · exact ⟨ke, List.mem_cons_of_mem _ hmem, heq, hbelow.trans hlt,
          List.forall_mem_cons.mpr ⟨hbelow.le, hle⟩⟩
    · rw [if_neg hlt]
      rcases ih best with ⟨heq, hle⟩ | ⟨ke, hmem, heq, hbelow, hle⟩
      · exact .inl ⟨heq, List.forall_mem_cons.mpr ⟨not_lt.mp hlt, hle⟩⟩
      · exact .inr ⟨ke, List.mem_cons_of_mem _ hmem, heq, hbelow,
          List.forall_mem_cons.mpr ⟨hbelow.le.trans (not_lt.mp hlt), hle⟩⟩

/-- **The scan** finds the entry of lowest generation, in every order. -/
theorem scan_spec {order : List (Bytes × CacheEntry)} {ke : Bytes × CacheEntry} (hmem : ke ∈ order)
    (hlow : ∀ ke' ∈ order, ke' ≠ ke → ke.2.generation < ke'.2.generation)
    (hmax : ke.2.generation < 2 ^ 64 - 1) : (scan order).1 = some ke.1 := by
  rcases foldl_scan order (none, 2 ^ 64 - 1) with ⟨_, hle⟩ | ⟨found, hfound, heq, _, hle⟩
  · exact absurd (hle ke hmem) (not_le.mpr hmax)
  · have hsame : found = ke := by
      by_contra hne
      exact absurd (hle ke hmem) (not_le.mpr (hlow found hfound hne))
    rw [scan, heq, hsame]

/-! ### The entries by recency -/

/-- The entries of a cache, the most recently used first. -/
structure Recent (c : LruCache) (es : List (Bytes × CacheEntry)) : Prop where
  perm : es.Perm c.entries.toList
  sorted : es.Pairwise fun x y => y.2.generation < x.2.generation
  le : ∀ x ∈ es, x.2.generation ≤ c.generation

/-- A key with its value. -/
def pairOf (x : Bytes × CacheEntry) : Bytes × Bytes := (x.1, x.2.value)

/-- Store a value with a new generation. -/
def store (c : LruCache) (key value : Bytes) : LruCache :=
  { c with
    entries := c.entries.insert key ⟨value, c.generation + 1⟩
    generation := c.generation + 1 }

section

variable {c : LruCache} {es order : List (Bytes × CacheEntry)} {key value : Bytes}

theorem insertIn_eq (order : List (Bytes × CacheEntry)) (c : LruCache) (key value : Bytes) :
    c.insertIn order key value
      = (if (c.entries[key]?).isSome then c else c.evictIn order).store key value := by
  rw [insertIn]
  by_cases hin : (c.entries[key]?).isSome
  · simp only [if_pos hin]
    rfl
  · simp only [if_neg hin, evictIn]
    split
    · split <;> rfl
    · rfl

theorem Recent.new (capacity : ℕ) : Recent (new capacity) [] :=
  ⟨.nil, .nil, by simp⟩

theorem Recent.mem_iff (h : Recent c es) {entry : CacheEntry} :
    (key, entry) ∈ es ↔ c.entries[key]? = some entry := by
  rw [h.perm.mem_iff, Std.TreeMap.mem_toList_iff_getElem?_eq_some]

theorem Recent.nodup_keys (h : Recent c es) : (es.map Prod.fst).Nodup := by
  rw [(h.perm.map Prod.fst).nodup_iff, Std.TreeMap.map_fst_toList_eq_keys]
  exact Std.TreeMap.nodup_keys

theorem Recent.length_eq (h : Recent c es) : es.length = c.entries.size := by
  rw [h.perm.length_eq, Std.TreeMap.length_toList]

theorem map_fst_map_pairOf (es : List (Bytes × CacheEntry)) :
    (es.map pairOf).map Prod.fst = es.map Prod.fst := by
  rw [List.map_map]
  rfl

theorem forget_map_pairOf (key : Bytes) (es : List (Bytes × CacheEntry)) :
    forget key (es.map pairOf) = (forget key es).map pairOf := by
  rw [forget, List.filter_map, forget]
  rfl

/-- The list and the cache hold the same values. -/
theorem Recent.lookup_eq (h : Recent c es) (key : Bytes) :
    RecencyList.lookup key (es.map pairOf) = c.lookup key := by
  have hnodup : ((es.map pairOf).map Prod.fst).Nodup := by
    rw [map_fst_map_pairOf]
    exact h.nodup_keys
  apply Option.ext
  intro v
  rw [lookup_eq_some_iff hnodup, List.mem_map, LruCache.lookup, Option.map_eq_some_iff]
  constructor
  · rintro ⟨⟨k, entry⟩, hmem, hpair⟩
    obtain ⟨rfl, rfl⟩ := Prod.mk.inj hpair
    exact ⟨entry, h.mem_iff.mp hmem, rfl⟩
  · rintro ⟨entry, hget, rfl⟩
    exact ⟨(key, entry), h.mem_iff.mpr hget, rfl⟩

/-- A stored value is the most recent one. -/
theorem Recent.store (h : Recent c es) (key value : Bytes) :
    Recent (c.store key value) ((key, ⟨value, c.generation + 1⟩) :: forget key es) where
  perm := by
    refine List.Perm.trans ?_ Std.TreeMap.toList_insert_perm.symm
    refine List.Perm.cons _ ((h.perm.filter _).trans (List.Perm.of_eq ?_))
    refine List.filter_congr fun x _ => ?_
    rw [decide_eq_decide, beq_iff_eq]
    exact ne_comm
  sorted := by
    refine List.pairwise_cons.mpr ⟨fun x hx => ?_, h.sorted.filter _⟩
    exact Nat.lt_succ_of_le (h.le x (List.mem_of_mem_filter hx))
  le := by
    refine List.forall_mem_cons.mpr ⟨le_refl _, fun x hx => ?_⟩
    exact (h.le x (List.mem_of_mem_filter hx)).trans (Nat.le_succ _)

theorem Recent.invalidate (h : Recent c es) (key : Bytes) :
    Recent (c.invalidate key) (forget key es) where
  perm := by
    have hnodup : (c.invalidate key).entries.toList.Nodup :=
      (Std.TreeMap.map_fst_toList_eq_keys ▸ Std.TreeMap.nodup_keys).of_map _
    have hforget : (forget key es).Nodup := (h.nodup_keys.of_map _).filter _
    refine (List.perm_ext_iff_of_nodup hforget hnodup).mpr fun x => ?_
    obtain ⟨k, entry⟩ := x
    rw [forget, List.mem_filter, h.mem_iff, Std.TreeMap.mem_toList_iff_getElem?_eq_some,
      LruCache.invalidate, Std.TreeMap.getElem?_erase, decide_eq_true_iff]
    by_cases hk : key = k
    · simp [hk]
    · simp [hk, Ne.symm hk]
  sorted := h.sorted.filter _
  le := fun x hx => h.le x (List.mem_of_mem_filter hx)

/-- **Eviction** takes the least recent entry, in every order of the map. -/
theorem Recent.evictIn (h : Recent c es) (horder : order.Perm c.entries.toList)
    (hcap : 1 ≤ c.capacity) (hgen : c.generation < 2 ^ 64 - 1) :
    Recent (c.evictIn order) (RecencyList.evict c.capacity es) := by
  rw [LruCache.evictIn, RecencyList.evict, h.length_eq]
  split
  · rename_i hfull
    have hne : es ≠ [] := by
      rintro rfl
      rw [← h.length_eq, List.length_nil] at hfull
      omega
    obtain ⟨front, last, rfl⟩ : ∃ front last, es = front ++ [last] :=
      ⟨_, _, (List.dropLast_append_getLast hne).symm⟩
    have hlast : last ∈ front ++ [last] := List.mem_append_right _ (List.mem_singleton_self _)
    -- the last entry has the lowest generation
    have hlow : ∀ x ∈ front, last.2.generation < x.2.generation := fun x hx =>
      (List.pairwise_append.mp h.sorted).2.2 x hx last (List.mem_singleton_self _)
    have hmem : ∀ {x}, x ∈ order ↔ x ∈ front ++ [last] := by
      intro x
      rw [horder.mem_iff, ← h.perm.mem_iff]
    have hscan : (scan order).1 = some last.1 := by
      refine scan_spec (hmem.mpr hlast) (fun x hx hne => ?_) ((h.le last hlast).trans_lt hgen)
      rcases List.mem_append.mp (hmem.mp hx) with hx | hx
      · exact hlow x hx
      · exact absurd (List.mem_singleton.mp hx) hne
    have hforget : forget last.1 (front ++ [last]) = front := forget_concat h.nodup_keys
    have herase := h.invalidate last.1
    rw [hforget] at herase
    rw [hscan, List.dropLast_concat]
    exact herase
  · exact h

theorem evictIn_counters (order : List (Bytes × CacheEntry)) (c : LruCache) :
    (c.evictIn order).capacity = c.capacity ∧ (c.evictIn order).generation = c.generation := by
  rw [LruCache.evictIn]
  split
  · split <;> exact ⟨rfl, rfl⟩
  · exact ⟨rfl, rfl⟩

/-! ### Calls -/

/-- **One call** does to the cache what it does to the list. -/
theorem Recent.step {c' : LruCache} {op : Op Bytes Bytes} {answer : Option Bytes}
    (h : Recent c es) (hcap : 1 ≤ c.capacity) (hgen : c.generation < 2 ^ 64 - 1)
    (hstep : Step c op answer c') :
    ∃ es', Recent c' es' ∧ c'.capacity = c.capacity ∧ c'.generation ≤ c.generation + 1 ∧
      step c.capacity (es.map pairOf) op = (answer, es'.map pairOf) := by
  cases hstep with
  | get key =>
    have hlook := h.lookup_eq key
    rw [LruCache.lookup] at hlook
    rw [RecencyList.step, hlook, LruCache.get]
    cases hget : c.entries[key]? with
    | none => exact ⟨es, h, rfl, Nat.le_succ _, rfl⟩
    | some entry =>
      refine ⟨_, h.store key entry.value, rfl, le_refl _, ?_⟩
      rw [List.map_cons, ← forget_map_pairOf]
      rfl
  | @insert order horder key value =>
    have hin : (RecencyList.lookup key (es.map pairOf)).isSome = (c.entries[key]?).isSome := by
      rw [h.lookup_eq, LruCache.lookup, Option.isSome_map]
    rw [insertIn_eq, RecencyList.step, hin]
    by_cases hsome : (c.entries[key]?).isSome
    · rw [if_pos hsome, if_pos hsome]
      refine ⟨_, h.store key value, rfl, le_refl _, ?_⟩
      rw [List.map_cons, ← forget_map_pairOf]
      rfl
    · rw [if_neg hsome, if_neg hsome]
      obtain ⟨hcapacity, hgeneration⟩ := evictIn_counters order c
      -- a new key: the oldest one makes room, and no older entry has to be forgotten
      have hfresh : forget key (RecencyList.evict c.capacity es)
          = RecencyList.evict c.capacity es := by
        refine forget_of_notMem fun hkey => hsome ?_
        obtain ⟨⟨k, entry⟩, hmem, rfl⟩ := List.mem_map.mp hkey
        rw [h.mem_iff.mp ((evict_sublist _ es).mem hmem)]
        rfl
      have hstored := (h.evictIn horder hcap hgen).store key value
      rw [hfresh, hgeneration] at hstored
      refine ⟨_, hstored, hcapacity, by rw [LruCache.store, hgeneration], ?_⟩
      rw [List.map_cons, evict_map]
      rfl
  | invalidate key =>
    refine ⟨_, h.invalidate key, rfl, Nat.le_succ _, ?_⟩
    rw [← forget_map_pairOf]
    rfl
  | clear =>
    refine ⟨[], ⟨?_, .nil, by simp⟩, rfl, Nat.le_succ _, rfl⟩
    exact .nil

/-- **Many calls** do to the cache what they do to the list. -/
theorem Recent.runs {c' : LruCache} {ops : List (Op Bytes Bytes)} {answers : List (Option Bytes)}
    (h : Recent c es) (hcap : 1 ≤ c.capacity) (hgen : c.generation + ops.length < 2 ^ 64)
    (hrun : Runs c ops answers c') :
    ∃ es', Recent c' es' ∧ c'.capacity = c.capacity ∧
      c'.generation ≤ c.generation + ops.length ∧
      run c.capacity (es.map pairOf) ops = (answers, es'.map pairOf) := by
  induction hrun generalizing es with
  | nil c => exact ⟨es, h, rfl, le_refl _, rfl⟩
  | @cons c c₁ c₂ op ops answer answers hstep _ ih =>
    rw [List.length_cons] at hgen ⊢
    obtain ⟨es₁, h₁, hcap₁, hgen₁, heq₁⟩ := h.step hcap (by omega) hstep
    obtain ⟨es₂, h₂, hcap₂, hgen₂, heq₂⟩ := ih h₁ (by rwa [hcap₁]) (by omega)
    refine ⟨es₂, h₂, hcap₂.trans hcap₁, by omega, ?_⟩
    rw [hcap₁] at heq₂
    simp only [run, heq₁, heq₂]

/-- **A full cache** loses its last entry to a new key, and no other. -/
theorem Recent.lookup_insertIn (h : Recent c es) (horder : order.Perm c.entries.toList)
    (hcap : 1 ≤ c.capacity) (hgen : c.generation < 2 ^ 64 - 1) (hnew : c.lookup key = none)
    (hfull : c.entries.size = c.capacity) (value : Bytes) :
    ∃ front last, es.map pairOf = front ++ [last] ∧
      ∀ k, (c.insertIn order key value).lookup k = if key = k then some value
        else if last.1 = k then none else c.lookup k := by
  have hlen : (es.map pairOf).length = c.capacity := by
    rw [List.length_map, h.length_eq, hfull]
  have hne : es.map pairOf ≠ [] := by
    rw [← List.length_pos_iff, hlen]
    exact hcap
  obtain ⟨front, last, hes⟩ : ∃ front last, es.map pairOf = front ++ [last] :=
    ⟨_, _, (List.dropLast_append_getLast hne).symm⟩
  have hnodup : ((front ++ [last]).map Prod.fst).Nodup := by
    rw [← hes, map_fst_map_pairOf]
    exact h.nodup_keys
  refine ⟨front, last, hes, fun k => ?_⟩
  obtain ⟨es', h', _, _, hstep⟩ := h.step hcap hgen (.insert horder key value)
  rw [RecencyList.step, h.lookup_eq, hnew, RecencyList.evict, if_pos hlen.ge] at hstep
  rw [← h'.lookup_eq, ← (Prod.mk.inj hstep).2, ← h.lookup_eq k, hes, List.dropLast_concat]
  show (if key = k then some value else RecencyList.lookup k front) = _
  rw [lookup_front hnodup]

end

/-- **The cache is the list**: after fewer than `2 ^ 64` calls, whatever the order of the map was
at each of them, all answers are those of the list of this capacity, the cache holds its entries and
no more than that, and one more insert of a new key into a full cache evicts its last entry. -/
theorem lru_refines {capacity : ℕ} (hcap : 1 ≤ capacity) {ops : List (Op Bytes Bytes)}
    (hops : ops.length < 2 ^ 64) {answers : List (Option Bytes)} {c : LruCache}
    (hrun : Runs (new capacity) ops answers c) :
    answers = (run capacity [] ops).1 ∧
    (∀ key, c.lookup key = RecencyList.lookup key (run capacity [] ops).2) ∧
    c.entries.size ≤ capacity ∧
    ∀ order key value, ops.length + 1 < 2 ^ 64 → order.Perm c.entries.toList →
      c.lookup key = none → c.entries.size = capacity →
      ∃ front last, (run capacity [] ops).2 = front ++ [last] ∧
        ∀ k, (c.insertIn order key value).lookup k = if key = k then some value
          else if last.1 = k then none else c.lookup k := by
  have hgen₀ : (new capacity).generation + ops.length < 2 ^ 64 := by
    rw [new, Nat.zero_add]
    exact hops
  obtain ⟨es, h, hcapacity, hgen, heq⟩ := (Recent.new capacity).runs hcap hgen₀ hrun
  have hzero : (new capacity).generation = 0 := rfl
  have hcapacity : c.capacity = capacity := hcapacity
  have heq : run capacity [] ops = (answers, es.map pairOf) := heq
  rw [heq]
  refine ⟨rfl, fun key => (h.lookup_eq key).symm, ?_, ?_⟩
  · have hle : (run capacity ([] : List (Bytes × Bytes)) ops).2.length ≤ capacity :=
      length_run_le hcap (Nat.zero_le _) ops
    rw [heq, List.length_map, h.length_eq] at hle
    exact hle
  · intro order key value hmore horder hnew hfull
    exact h.lookup_insertIn horder (by rwa [hcapacity]) (by omega) hnew
      (hfull.trans hcapacity.symm) value

/-- Two keys, and room for one. -/
theorem get_evicted : ((((new 1).insert [1] [10]).insert [2] [20]).get [1]).1 = none := by
  have hrun : Runs (new 1) [.insert [1] [10], .insert [2] [20], .get [1]]
      [none, none, ((((new 1).insert [1] [10]).insert [2] [20]).get [1]).1]
      ((((new 1).insert [1] [10]).insert [2] [20]).get [1]).2 :=
    .cons (.insert (List.Perm.refl _) [1] [10]) (.cons (.insert (List.Perm.refl _) [2] [20])
      (.cons (.get [1]) (.nil _)))
  have hanswers : [none, none, ((((new 1).insert [1] [10]).insert [2] [20]).get [1]).1]
      = [none, none, (none : Option Bytes)] := (lru_refines (le_refl 1) (by decide) hrun).1
  exact (List.cons.inj (List.cons.inj (List.cons.inj hanswers).2).2).1

end LruCache

end Uldb
