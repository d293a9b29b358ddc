/-
Edit distance of lists.

An edit deletes, inserts or replaces one item.  `Edits n xs ys` says that `n` edits turn `xs` into
`ys`, and `distance` is the usual recursion over both lists.

* `edits_distance`, `Edits.distance_le` — the distance is the least number of edits;
* `distance_reverse` — it may as well be computed from the ends;
* `exists_distance_le` — no row of the table lies above its last cell;
* `Edits.sum_map_le` — few edits change the total size of the items a little;
* `Edits.common_window` — few edits of a long list leave a window of the list as it was.
-/
import Mathlib

namespace EditDistance

variable {α : Type*}

/-- So many edits turn one list into the other. -/
inductive Edits : ℕ → List α → List α → Prop
  | nil : Edits 0 [] []
  | keep {n : ℕ} {xs ys : List α} (a : α) (h : Edits n xs ys) : Edits n (a :: xs) (a :: ys)
  | replace {n : ℕ} {xs ys : List α} (a b : α) (h : Edits n xs ys) :
    Edits (n + 1) (a :: xs) (b :: ys)
  | delete {n : ℕ} {xs ys : List α} (a : α) (h : Edits n xs ys) : Edits (n + 1) (a :: xs) ys
  | insert {n : ℕ} {xs ys : List α} (b : α) (h : Edits n xs ys) : Edits (n + 1) xs (b :: ys)

variable {xs ys xs' ys' : List α} {m n : ℕ}

theorem Edits.refl (xs : List α) : Edits 0 xs xs := by
  induction xs with
  | nil => exact .nil
  | cons a xs ih => exact .keep a ih

theorem Edits.symm (h : Edits n xs ys) : Edits n ys xs := by
  induction h with
  | nil => exact .nil
  | keep a _ ih => exact .keep a ih
  | replace a b _ ih => exact .replace b a ih
  | delete a _ ih => exact .insert a ih
  | insert b _ ih => exact .delete b ih

theorem Edits.append (h : Edits m xs ys) (h' : Edits n xs' ys') :
    Edits (m + n) (xs ++ xs') (ys ++ ys') := by
  induction h with
  | nil =>
    rw [Nat.zero_add]
    exact h'
  | keep a _ ih => exact .keep a ih
  | replace a b _ ih =>
    rw [Nat.add_right_comm]
    exact .replace a b ih
  | delete a _ ih =>
    rw [Nat.add_right_comm]
    exact .delete a ih
  | insert b _ ih =>
    rw [Nat.add_right_comm]
    exact .insert b ih

theorem Edits.map {β : Type*} (f : α → β) (h : Edits n xs ys) :
    Edits n (xs.map f) (ys.map f) := by
  induction h with
  | nil => exact .nil
  | keep a _ ih => exact .keep (f a) ih
  | replace a b _ ih => exact .replace (f a) (f b) ih
  | delete a _ ih => exact .delete (f a) ih
  | insert b _ ih => exact .insert (f b) ih

theorem Edits.reverse (h : Edits n xs ys) : Edits n xs.reverse ys.reverse := by
  induction h with
  | nil => exact .nil
  | keep a _ ih =>
    rw [List.reverse_cons, List.reverse_cons]
    exact ih.append (.keep a .nil)
  | replace a b _ ih =>
    rw [List.reverse_cons, List.reverse_cons]
    exact ih.append (.replace a b .nil)
  | delete a _ ih =>
    have h := ih.append (.delete a .nil)
    rwa [List.append_nil, ← List.reverse_cons] at h
  | insert b _ ih =>
    have h := ih.append (.insert b .nil)
    rwa [List.append_nil, ← List.reverse_cons] at h

/-- An edit changes the length by one at most. -/
theorem Edits.length_le (h : Edits n xs ys) : xs.length ≤ ys.length + n := by
  induction h with
  | nil => exact Nat.zero_le _
  | keep a _ ih | replace a b _ ih | delete a _ ih | insert b _ ih =>
    simp only [List.length_cons] at ih ⊢
    omega

/-- An edit changes the total size by the size of one item at most. -/
theorem Edits.sum_map_le {size : α → ℕ} {w : ℕ} (h : Edits n xs ys) (hw : ∀ x ∈ xs, size x ≤ w) :
    (xs.map size).sum ≤ (ys.map size).sum + w * n := by
  induction h with
  | nil => exact Nat.zero_le _
  | keep a _ ih =>
    have hrest := ih fun x hx => hw x (List.mem_cons_of_mem _ hx)
    simp only [List.map_cons, List.sum_cons]
    omega
  | replace a b _ ih | delete a _ ih =>
    have ha := hw a List.mem_cons_self
    have hrest := ih fun x hx => hw x (List.mem_cons_of_mem _ hx)
    simp only [List.map_cons, List.sum_cons, Nat.mul_succ]
    omega
  | insert b _ ih =>
    have hrest := ih hw
    simp only [List.map_cons, List.sum_cons, Nat.mul_succ]
    omega

theorem edits_nil_left (ys : List α) : Edits ys.length [] ys := by
  induction ys with
  | nil => exact .nil
  | cons b ys ih => exact .insert b ih

/-- **Few edits of a long list** leave a window of length `q` in both lists, where the lists may
go on from a common beginning `u`. -/
theorem Edits.common_window {q : ℕ} (h : Edits n xs ys) {u : List α} (hu : u.length < q)
    (hlen : q * n + q ≤ u.length + xs.length) :
    ∃ w : List α, w.length = q ∧ w <:+: u ++ xs ∧ w <:+: u ++ ys := by
  -- `u` are the last items that were kept, at most `q - 1` of them
  induction h generalizing u with
  | nil =>
    rw [List.length_nil] at hlen
    omega
  | keep a h ih =>
    rw [List.length_cons] at hlen
    by_cases hfull : u.length + 1 = q
    · have hbegin : ∀ zs : List α, u ++ [a] <:+: u ++ a :: zs := by
        intro zs
        rw [List.append_cons u a zs]
        exact (List.prefix_append _ _).isInfix
      exact ⟨u ++ [a], by simpa using hfull, hbegin _, hbegin _⟩
    · obtain ⟨w, hw, hx, hy⟩ := ih (u := u ++ [a]) (by simp; omega) (by simp; omega)
      rw [List.append_assoc] at hx hy
      exact ⟨w, hw, hx, hy⟩
  | @replace n xs ys a b h ih =>
    rw [List.length_cons, Nat.mul_succ] at hlen
    obtain ⟨w, hw, hx, hy⟩ := ih (u := []) (by simp; omega) (by simp; omega)
    refine ⟨w, hw, hx.trans ?_, hy.trans ?_⟩
    all_goals rw [List.nil_append, List.append_cons]; exact (List.suffix_append _ _).isInfix
  | @delete n xs ys a h ih =>
    rw [List.length_cons, Nat.mul_succ] at hlen
    obtain ⟨w, hw, hx, hy⟩ := ih (u := []) (by simp; omega) (by simp; omega)
    refine ⟨w, hw, hx.trans ?_, hy.trans (List.suffix_append _ _).isInfix⟩
    rw [List.nil_append, List.append_cons]
    exact (List.suffix_append _ _).isInfix
  | @insert n xs ys b h ih =>
    rw [Nat.mul_succ] at hlen
    obtain ⟨w, hw, hx, hy⟩ := ih (u := []) (by simp; omega) (by simp; omega)
    refine ⟨w, hw, hx.trans (List.suffix_append _ _).isInfix, hy.trans ?_⟩
    rw [List.nil_append, List.append_cons]
    exact (List.suffix_append _ _).isInfix

/-- The edits of the end of the second list are edits of an end of the first one. -/
theorem Edits.exists_suffix {ys₁ ys₂ : List α} (h : Edits n xs (ys₁ ++ ys₂)) :
    ∃ xs₁ xs₂, xs = xs₁ ++ xs₂ ∧ ∃ k ≤ n, Edits k xs₂ ys₂ := by
  generalize hys : ys₁ ++ ys₂ = ys at h
  induction h generalizing ys₁ with
  | nil =>
    obtain ⟨rfl, rfl⟩ := List.append_eq_nil_iff.mp hys
    exact ⟨[], [], rfl, 0, le_refl _, .nil⟩
  | @keep n xs ys a h ih =>
    rcases List.append_eq_cons_iff.mp hys with ⟨rfl, rfl⟩ | ⟨t, rfl, rfl⟩
    · exact ⟨[], a :: xs, rfl, n, le_refl _, .keep a h⟩
    · obtain ⟨xs₁, xs₂, rfl, k, hk, h⟩ := ih rfl
      exact ⟨a :: xs₁, xs₂, rfl, k, hk, h⟩
  | @replace n xs ys a b h ih =>
    rcases List.append_eq_cons_iff.mp hys with ⟨rfl, rfl⟩ | ⟨t, rfl, rfl⟩
    · exact ⟨[], a :: xs, rfl, n + 1, le_refl _, .replace a b h⟩
    · obtain ⟨xs₁, xs₂, rfl, k, hk, h⟩ := ih rfl
      exact ⟨a :: xs₁, xs₂, rfl, k, hk.trans (Nat.le_succ n), h⟩
  | @delete n xs ys a h ih =>
    obtain ⟨xs₁, xs₂, rfl, k, hk, h⟩ := ih hys
    exact ⟨a :: xs₁, xs₂, rfl, k, hk.trans (Nat.le_succ n), h⟩
  | @insert n xs ys b h ih =>
    rcases List.append_eq_cons_iff.mp hys with ⟨rfl, rfl⟩ | ⟨t, rfl, rfl⟩
    · exact ⟨[], xs, rfl, n + 1, le_refl _, .insert b h⟩
    · obtain ⟨xs₁, xs₂, rfl, k, hk, h⟩ := ih rfl
      exact ⟨xs₁, xs₂, rfl, k, hk.trans (Nat.le_succ n), h⟩

variable [DecidableEq α]

/-- The edit distance. -/
def distance : List α → List α → ℕ
  | [], ys => ys.length
  | _ :: xs, [] => xs.length + 1
  | x :: xs, y :: ys =>
    min (min (distance xs (y :: ys) + 1) (distance (x :: xs) ys + 1))
      (distance xs ys + if x = y then 0 else 1)
termination_by xs ys => xs.length + ys.length

theorem distance_nil_right (xs : List α) : distance xs [] = xs.length := by
  cases xs <;> simp [distance]

theorem distance_cons_left_le (a : α) (xs ys : List α) :
    distance (a :: xs) ys ≤ distance xs ys + 1 := by
  cases ys with
  | nil => rw [distance_nil_right, distance_nil_right, List.length_cons]
  | cons b ys =>
    rw [distance]
    omega

theorem distance_cons_right_le (b : α) (xs ys : List α) :
    distance xs (b :: ys) ≤ distance xs ys + 1 := by
  cases xs with
  | nil => simp [distance]
  | cons a xs =>
    rw [distance]
    omega

/-- No script has fewer edits. -/
theorem Edits.distance_le (h : Edits n xs ys) : distance xs ys ≤ n := by
  induction h with
  | nil => simp [distance]
  | keep a _ ih =>
    rw [distance, if_pos rfl]
    omega
  | replace a b _ ih =>
    rw [distance]
    split <;> omega
  | @delete n xs ys a _ ih =>
    have hle := distance_cons_left_le a xs ys
    omega
  | @insert n xs ys b _ ih =>
    have hle := distance_cons_right_le b xs ys
    omega

/-- **The distance** is the length of a script. -/
theorem edits_distance (xs ys : List α) : Edits (distance xs ys) xs ys := by
  induction xs, ys using distance.induct with
  | case1 ys =>
    rw [distance]
    exact edits_nil_left ys
  | case2 x xs =>
    rw [distance]
    exact (edits_nil_left (x :: xs)).symm
  | case3 x xs y ys hdelete hinsert hboth =>
    rw [distance]
    rcases min_choice (min (distance xs (y :: ys) + 1) (distance (x :: xs) ys + 1))
      (distance xs ys + if x = y then 0 else 1) with hmin | hmin
    · rw [hmin]
      rcases min_choice (distance xs (y :: ys) + 1) (distance (x :: xs) ys + 1) with hmin | hmin
      · rw [hmin]
        exact .delete x hdelete
      · rw [hmin]
        exact .insert y hinsert
    · rw [hmin]
      by_cases hxy : x = y
      · rw [if_pos hxy, ← hxy]
        exact .keep x hboth
      · rw [if_neg hxy]
        exact .replace x y hboth

theorem distance_comm (xs ys : List α) : distance xs ys = distance ys xs :=
  le_antisymm (edits_distance ys xs).symm.distance_le (edits_distance xs ys).symm.distance_le

theorem distance_self (xs : List α) : distance xs xs = 0 :=
  Nat.le_zero.mp (Edits.refl xs).distance_le

/-- **From the ends** the distance is the same. -/
theorem distance_reverse (xs ys : List α) : distance xs.reverse ys.reverse = distance xs ys := by
  refine le_antisymm (edits_distance xs ys).reverse.distance_le ?_
  have h := (edits_distance xs.reverse ys.reverse).reverse
  rw [List.reverse_reverse, List.reverse_reverse] at h
  exact h.distance_le

/-- In every row of the table some cell is not above the last one. -/
theorem exists_distance_le (xs ys₁ ys₂ : List α) :
    ∃ xs₁ xs₂, xs = xs₁ ++ xs₂ ∧ distance ys₂ xs₂ ≤ distance (ys₁ ++ ys₂) xs := by
  rw [distance_comm]
  obtain ⟨xs₁, xs₂, hxs, k, hk, h⟩ := (edits_distance xs (ys₁ ++ ys₂)).exists_suffix
  exact ⟨xs₁, xs₂, hxs, h.symm.distance_le.trans hk⟩

end EditDistance
