/-
A cache kept as a list, the most recently used entry first.

A hit moves its entry to the front; a new key goes to the front, and where the list is full the
last entry, the least recently used one, makes room for it.

* `length_run_le` — the capacity is kept.
-/
import Mathlib

namespace RecencyList

variable {α β : Type*} [DecidableEq α]

/-- What a cache is asked for. -/
inductive Op (α β : Type*)
  | get (key : α)
  | insert (key : α) (value : β)
  | invalidate (key : α)
  | clear

def lookup (key : α) : List (α × β) → Option β
  | [] => none
  | (k, value) :: es => if k = key then some value else lookup key es

def forget (key : α) (es : List (α × β)) : List (α × β) := es.filter fun e => e.1 ≠ key

/-- Make room for one more entry. -/
def evict (capacity : ℕ) (es : List (α × β)) : List (α × β) :=
  if capacity ≤ es.length then es.dropLast else es

/-- The answer to a request, if it is one for a value, and the entries after it. -/
def step (capacity : ℕ) (es : List (α × β)) : Op α β → Option β × List (α × β)
  | .get key =>
    match lookup key es with
    | some value => (some value, (key, value) :: forget key es)
    | none => (none, es)
  | .insert key value =>
    (none, (key, value) ::
      if (lookup key es).isSome then forget key es else evict capacity es)
  | .invalidate key => (none, forget key es)
  | .clear => (none, [])

/-- All answers to some requests, and the entries after them. -/
def run (capacity : ℕ) : List (α × β) → List (Op α β) → List (Option β) × List (α × β)
  | es, [] => ([], es)
  | es, op :: ops =>
    let (answer, es) := step capacity es op
    let (answers, es) := run capacity es ops
    (answer :: answers, es)

variable {capacity : ℕ} {es : List (α × β)} {key : α}

theorem forget_of_notMem (h : key ∉ es.map Prod.fst) : forget key es = es := by
  rw [forget, List.filter_eq_self]
  intro e he
  exact decide_eq_true fun hkey => h (hkey ▸ List.mem_map_of_mem he)

theorem lookup_isSome_iff : (lookup key es).isSome ↔ key ∈ es.map Prod.fst := by
  induction es with
  | nil => simp [lookup]
  | cons e es ih =>
    obtain ⟨k, v⟩ := e
    rw [lookup, List.map_cons, List.mem_cons]
    by_cases hk : k = key
    · simp [hk]
    · rw [if_neg hk]
      exact ih.trans (or_iff_right fun h => hk h.symm).symm

theorem lookup_eq_some_iff {value : β} (hnodup : (es.map Prod.fst).Nodup) :
    lookup key es = some value ↔ (key, value) ∈ es := by
  induction es with
  | nil => simp [lookup]
  | cons e es ih =>
    obtain ⟨k, v⟩ := e
    rw [List.map_cons, List.nodup_cons] at hnodup
    rw [lookup, List.mem_cons, Prod.mk.injEq]
    by_cases hk : k = key
    · subst hk
      have hnot : (k, value) ∉ es := fun hmem => hnodup.1 (List.mem_map.mpr ⟨_, hmem, rfl⟩)
      simp [hnot, eq_comm]
    · rw [if_neg hk]
      exact (ih hnodup.2).trans (or_iff_right fun h => hk h.1.symm).symm

/-- What is found without the last entry. -/
theorem lookup_front {front : List (α × β)} {last : α × β}
    (hnodup : ((front ++ [last]).map Prod.fst).Nodup) :
    lookup key front = if last.1 = key then none else lookup key (front ++ [last]) := by
  induction front with
  | nil =>
    obtain ⟨k, v⟩ := last
    by_cases hk : k = key
    · simp [lookup, hk]
    · simp [lookup, hk]
  | cons e front ih =>
    obtain ⟨k, v⟩ := e
    rw [List.cons_append, List.map_cons, List.nodup_cons] at hnodup
    rw [List.cons_append, lookup, lookup]
    by_cases hk : k = key
    · have hlast : last.1 ≠ key := by
        rintro hlast
        exact hnodup.1 (List.mem_map.mpr ⟨last, by simp, hlast.trans hk.symm⟩)
      rw [if_pos hk, if_neg hlast, if_pos hk]
    · rw [if_neg hk, if_neg hk]
      exact ih hnodup.2

/-- Taking out the last key. -/
theorem forget_concat {value : β} (hnodup : ((es ++ [(key, value)]).map Prod.fst).Nodup) :
    forget key (es ++ [(key, value)]) = es := by
  rw [List.map_append, List.map_singleton, List.nodup_append] at hnodup
  have hnot : key ∉ es.map Prod.fst := fun hmem =>
    hnodup.2.2 key hmem key List.mem_cons_self rfl
  have hkeep := forget_of_notMem hnot
  rw [forget, List.filter_append] at *
  rw [hkeep]
  simp

/-- Taking out a key that is there makes the list shorter. -/
theorem length_forget_lt (h : key ∈ es.map Prod.fst) : (forget key es).length < es.length := by
  obtain ⟨e, he, rfl⟩ := List.mem_map.mp h
  exact List.length_filter_lt_length_iff_exists.mpr ⟨e, he, by simp⟩

omit [DecidableEq α] in
theorem evict_sublist (capacity : ℕ) (es : List (α × β)) : (evict capacity es).Sublist es := by
  rw [evict]
  split
  · exact List.dropLast_sublist es
  · exact List.Sublist.refl es

omit [DecidableEq α] in
theorem evict_map {γ : Type*} (f : α × γ → α × β) (capacity : ℕ) (es : List (α × γ)) :
    evict capacity (es.map f) = (evict capacity es).map f := by
  rw [evict, evict, List.length_map]
  split
  · exact List.map_dropLast.symm
  · rfl

/-- **The capacity is kept.** -/
theorem length_step_le (hcap : 1 ≤ capacity) (hes : es.length ≤ capacity) (op : Op α β) :
    (step capacity es op).2.length ≤ capacity := by
  have hforget : ∀ key, (forget key es).length ≤ es.length := fun _ => List.length_filter_le _ _
  cases op with
  | get key =>
    rw [step]
    cases hlook : lookup key es with
    | none => exact hes
    | some value =>
      have hlt := length_forget_lt (lookup_isSome_iff.mp (Option.isSome_of_eq_some hlook))
      rw [List.length_cons]
      omega
  | insert key value =>
    rw [step, List.length_cons]
    split
    · have hlt := length_forget_lt (lookup_isSome_iff.mp ‹_›)
      omega
    · rw [evict]
      split
      · rw [List.length_dropLast]
        omega
      · omega
  | invalidate key => exact (hforget key).trans hes
  | clear => exact Nat.zero_le _

theorem length_run_le (hcap : 1 ≤ capacity) (hes : es.length ≤ capacity) (ops : List (Op α β)) :
    (run capacity es ops).2.length ≤ capacity := by
  induction ops generalizing es with
  | nil => exact hes
  | cons op ops ih => exact ih (length_step_le hcap hes op)

end RecencyList
