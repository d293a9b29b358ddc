/-
Binary search by a three-way comparison.

`binarySearchBy` is the search of the Rust standard library: it halves the
interval while more than one element is left, and compares the last one.

* `getElem?_of_ok` — a hit is an element that compares equal, in any list;
* `of_error` — on a list ordered by the comparison, a miss returns the
  insertion point: everything before it compares less, everything from it on
  compares greater;
* `gt_of_error` — what is at the position that a miss returns compares greater, in any list.
-/
import Mathlib

namespace BinarySearch

variable {α : Type*}

/-- The halving loop: `size` elements are left, starting at `base`.  The fuel
bounds the number of halvings. -/
def loop (f : α → Ordering) (xs : List α) : ℕ → ℕ → ℕ → ℕ
  | 0, _, base => base
  | fuel + 1, size, base =>
    if size ≤ 1 then base
    else
      loop f xs fuel (size - size / 2)
        (if xs[base + size / 2]?.map f = some .gt then base else base + size / 2)

/-- The position of an element that compares equal, or the insertion point. -/
def binarySearchBy (xs : List α) (f : α → Ordering) : Except ℕ ℕ :=
  match xs[loop f xs xs.length xs.length 0]? with
  | none => .error 0
  | some x =>
    match f x with
    | .eq => .ok (loop f xs xs.length xs.length 0)
    | .lt => .error (loop f xs xs.length xs.length 0 + 1)
    | .gt => .error (loop f xs xs.length xs.length 0)

/-- The list is ordered by the comparison: less, then equal, then greater. -/
def Ordered (f : α → Ordering) (xs : List α) : Prop :=
  xs.Pairwise fun a b => (f a = .gt → f b = .gt) ∧ (f b = .lt → f a = .lt)

theorem getElem?_of_ok {xs : List α} {f : α → Ordering} {i : ℕ}
    (h : binarySearchBy xs f = .ok i) : ∃ x, xs[i]? = some x ∧ f x = .eq := by
  rw [binarySearchBy] at h
  split at h
  · exact absurd h (by simp)
  · rename_i x hx
    cases hf : f x <;> rw [hf] at h
    · exact absurd h (by simp)
    · exact ⟨x, by rw [← Except.ok.inj h, hx], hf⟩
    · exact absurd h (by simp)

/-- The loop ends at an element with only greater ones after it, which is not
greater itself unless it is the first. -/
theorem loop_spec {f : α → Ordering} {xs : List α} (hord : Ordered f xs) :
    ∀ {fuel size base : ℕ}, size ≤ fuel → 0 < size → base + size ≤ xs.length →
      (base = 0 ∨ ∀ x, xs[base]? = some x → f x ≠ .gt) →
      (∀ j x, base + size ≤ j → xs[j]? = some x → f x = .gt) →
      loop f xs fuel size base < xs.length ∧
      (loop f xs fuel size base = 0 ∨
        ∀ x, xs[loop f xs fuel size base]? = some x → f x ≠ .gt) ∧
      ∀ j x, loop f xs fuel size base < j → xs[j]? = some x → f x = .gt := by
  intro fuel
  induction fuel with
  | zero =>
    intro size base hsize hpos
    omega
  | succ fuel ih =>
    intro size base hsize hpos hlen hbase hhigh
    rw [loop]
    by_cases hone : size ≤ 1
    · rw [if_pos hone]
      exact ⟨by omega, hbase, fun j x hj => hhigh j x (by omega)⟩
    · rw [if_neg hone]
      have hmid : base + size / 2 < xs.length := by omega
      have hget : xs[base + size / 2]? = some xs[base + size / 2] := List.getElem?_eq_getElem hmid
      rw [hget, Option.map_some]
      by_cases hgt : f xs[base + size / 2] = .gt
      · rw [if_pos (by rw [hgt])]
        refine ih (by omega) (by omega) (by omega) hbase fun j x hj hx => ?_
        -- Everything from the middle on is greater.
        by_cases hjm : j = base + size / 2
        · subst hjm
          rw [hget, Option.some_inj] at hx
          rw [← hx]
          exact hgt
        · obtain ⟨hjl, rfl⟩ := List.getElem?_eq_some_iff.mp hx
          exact (List.pairwise_iff_getElem.mp hord _ _ hmid hjl (by omega)).1 hgt
      · rw [if_neg (by simpa using hgt)]
        refine ih (by omega) (by omega) (by omega) (.inr fun x hx => ?_)
          (fun j x hj => hhigh j x (by omega))
        rw [hget, Option.some_inj] at hx
        rw [← hx]
        exact hgt

/-- A miss on an ordered list returns the insertion point. -/
theorem of_error {xs : List α} {f : α → Ordering} (hord : Ordered f xs) {i : ℕ}
    (h : binarySearchBy xs f = .error i) :
    (∀ j x, j < i → xs[j]? = some x → f x = .lt) ∧
      ∀ j x, i ≤ j → xs[j]? = some x → f x = .gt := by
  rcases xs with _ | ⟨x₀, xs⟩
  · exact ⟨fun j x _ hx => absurd hx (by simp), fun j x _ hx => absurd hx (by simp)⟩
  · obtain ⟨hlt, hle, hgt⟩ := loop_spec hord (le_refl _) (by simp : 0 < (x₀ :: xs).length)
      (by simp) (.inl rfl) (fun j x hj hx => absurd hx (by
        rw [List.getElem?_eq_none (by omega)]
        simp))
    rw [binarySearchBy] at h
    generalize loop f (x₀ :: xs) (x₀ :: xs).length (x₀ :: xs).length 0 = base at h hlt hle hgt
    rw [List.getElem?_eq_getElem hlt] at h
    simp only at h
    cases hf : f (x₀ :: xs)[base] <;> rw [hf] at h
    · -- Less: everything up to the base is less as well.
      have hi := Except.error.inj h
      refine ⟨fun j x hj hx => ?_, fun j x hj => hgt j x (by omega)⟩
      obtain ⟨hjl, rfl⟩ := List.getElem?_eq_some_iff.mp hx
      by_cases hjb : j = base
      · subst hjb
        exact hf
      · exact (List.pairwise_iff_getElem.mp hord j base hjl hlt (by omega)).2 hf
    · exact absurd h (by simp)
    · -- Greater: the base is the first element.
      have hi := Except.error.inj h
      rcases hle with hzero | hle
      · subst hzero
        refine ⟨fun j x hj => absurd hj (by omega), fun j x hj hx => ?_⟩
        rcases Nat.eq_zero_or_pos j with rfl | hjpos
        · rw [List.getElem?_eq_getElem hlt, Option.some_inj] at hx
          rw [← hx]
          exact hf
        · exact hgt j x hjpos hx
      · exact absurd hf (hle _ (List.getElem?_eq_getElem hlt))

/-- The element behind the one that the loop ends at compares greater, in any list: the
last element of the interval but one, or the one behind the interval, always does. -/
theorem loop_succ {f : α → Ordering} {xs : List α} :
    ∀ {fuel size base : ℕ}, size ≤ fuel → 0 < size → base + size ≤ xs.length →
      (∃ j, base < j ∧ j ≤ base + size ∧ base + size ≤ j + 1 ∧
        ∀ x, xs[j]? = some x → f x = .gt) →
      loop f xs fuel size base < xs.length ∧
        ∀ x, xs[loop f xs fuel size base + 1]? = some x → f x = .gt := by
  intro fuel
  induction fuel with
  | zero =>
    intro size base hsize hpos
    omega
  | succ fuel ih =>
    intro size base hsize hpos hlen hend
    obtain ⟨j, hbase, hle, hge, hgt⟩ := hend
    rw [loop]
    by_cases hone : size ≤ 1
    · rw [if_pos hone]
      obtain rfl : j = base + 1 := by omega
      exact ⟨by omega, hgt⟩
    · rw [if_neg hone]
      have hget : xs[base + size / 2]? = some xs[base + size / 2] :=
        List.getElem?_eq_getElem (by omega)
      rw [hget, Option.map_some]
      by_cases hmid : f xs[base + size / 2] = .gt
      · rw [if_pos (by rw [hmid])]
        refine ih (by omega) (by omega) (by omega)
          ⟨base + size / 2, by omega, by omega, by omega, fun x hx => ?_⟩
        rw [hget, Option.some_inj] at hx
        rw [← hx]
        exact hmid
      · rw [if_neg (by simpa using hmid)]
        -- with two elements left, the one in the middle is not the one that compares greater
        have hne : j ≠ base + size / 2 := by
          rintro rfl
          exact hmid (hgt _ hget)
        exact ih (by omega) (by omega) (by omega) ⟨j, by omega, by omega, by omega, hgt⟩

/-- What is at the position that a miss returns compares greater, in any list. -/
theorem gt_of_error {xs : List α} {f : α → Ordering} {i : ℕ}
    (h : binarySearchBy xs f = .error i) {x : α} (hx : xs[i]? = some x) : f x = .gt := by
  rcases xs with _ | ⟨x₀, xs⟩
  · exact absurd hx (by simp)
  · obtain ⟨hlt, hsucc⟩ := @loop_succ _ f (x₀ :: xs) _ _ 0
      (le_refl (x₀ :: xs).length) (by simp) (by simp)
      ⟨(x₀ :: xs).length, by simp, by omega, by omega, fun y hy => absurd hy (by simp)⟩
    rw [binarySearchBy, List.getElem?_eq_getElem hlt] at h
    simp only at h
    cases hf : f (x₀ :: xs)[loop f (x₀ :: xs) (x₀ :: xs).length (x₀ :: xs).length 0] <;>
      rw [hf] at h
    · rw [← Except.error.inj h] at hx
      exact hsucc x hx
    · exact absurd h (by simp)
    · rw [← Except.error.inj h, List.getElem?_eq_getElem hlt, Option.some_inj] at hx
      rw [← hx]
      exact hf

end BinarySearch
