/-
Stable sorts by a descending score, cut after some places.

`sort f l` leaves items with the same score in the order of `l`.  The number of items above
an item, `(above f l a).length`, does not depend on the order of `l`, and the first of the
items with its score stands at that place (`getElem?_sort_cons`).

So what the cut keeps depends on the order exactly if it cuts into, or keeps, items with the
same score (`take_sort_eq` and `take_sort_swap`).  Where all scores differ the sort does not
depend on the order (`sort_eq`), and the cut keeps an item exactly if there are few enough
above it (`mem_take_sort`).  To cut and then filter is not to filter and then cut
(`filter_take_eq_iff`).
-/
import Mathlib

namespace Ranking

variable {α β γ : Type*} [LinearOrder β] (f : α → β)

/-- Sort by descending score. -/
def sort (l : List α) : List α := l.mergeSort fun a b => f b ≤ f a

/-- The items with a larger score. -/
def above (l : List α) (a : α) : List α := l.filter fun b => f a < f b

variable {f} {l l' : List α} {a b : α}

theorem sort_perm : (sort f l).Perm l := List.mergeSort_perm _ _

theorem pairwise_sort : (sort f l).Pairwise fun a b => f b ≤ f a := by
  refine (List.pairwise_mergeSort ?_ ?_ l).imp fun h => of_decide_eq_true h
  · intro a b c hab hbc
    exact decide_eq_true ((of_decide_eq_true hbc).trans (of_decide_eq_true hab))
  · intro a b
    simpa using le_total (f b) (f a)

theorem length_above_perm (h : l.Perm l') : (above f l a).length = (above f l' a).length :=
  (h.filter _).length_eq

/-- The items above an item stand before it. -/
theorem length_above_le {l₁ l₂ : List α} (h : (l₁ ++ a :: l₂).Pairwise fun a b => f b ≤ f a) :
    (above f (l₁ ++ a :: l₂) a).length ≤ l₁.length := by
  have hrest : above f (a :: l₂) a = [] := by
    refine List.filter_eq_nil_iff.mpr fun b hb => ?_
    rcases List.mem_cons.mp hb with rfl | hb
    · simp
    · simpa using List.rel_of_pairwise_cons (List.pairwise_append.mp h).2.1 hb
  rw [above, List.filter_append, ← above, ← above, hrest, List.append_nil]
  exact List.length_filter_le _ _

/-- The first item of a list comes right after the items above it. -/
theorem getElem?_sort_cons : (sort f (a :: l))[(above f (a :: l) a).length]? = some a := by
  obtain ⟨l₁, l₂, hcons, _, hlt⟩ := @List.mergeSort_cons α (fun a b => decide (f b ≤ f a))
    (fun a b c hab hbc => decide_eq_true ((of_decide_eq_true hbc).trans (of_decide_eq_true hab)))
    (fun a b => by simpa using le_total (f b) (f a)) a l
  have hsort : sort f (a :: l) = l₁ ++ a :: l₂ := hcons
  have hle : l₁.length ≤ (above f (l₁ ++ a :: l₂) a).length := by
    have hall : above f l₁ a = l₁ := by
      refine List.filter_eq_self.mpr fun b hb => ?_
      simpa using hlt b hb
    rw [above, List.filter_append, ← above, hall, List.length_append]
    exact Nat.le_add_right _ _
  have hlen : (above f (a :: l) a).length = l₁.length := by
    rw [← length_above_perm (sort_perm (f := f)), hsort]
    exact le_antisymm (length_above_le (hsort ▸ pairwise_sort)) hle
  rw [hsort, hlen, List.getElem?_append_right le_rfl, Nat.sub_self]
  rfl

/-- **Orders that agree.**  If two items with the same score both have `n` items above them,
the first `n` places are the same for every order. -/
theorem take_sort_eq {n : ℕ} (hperm : l.Perm l')
    (h : ∀ a ∈ l, ∀ b ∈ l, f a = f b → a ≠ b → n ≤ (above f l a).length) :
    (sort f l).take n = (sort f l').take n := by
  have hsorts : (sort f l).Perm (sort f l') := sort_perm.trans (hperm.trans sort_perm.symm)
  have hscores : (sort f l).map f = (sort f l').map f := by
    refine List.Perm.eq_of_pairwise (fun x y _ _ hxy hyx => le_antisymm hyx hxy) ?_ ?_
      (hsorts.map f)
    · exact List.pairwise_map.mpr pairwise_sort
    · exact List.pairwise_map.mpr pairwise_sort
  refine List.ext_getElem (by rw [List.length_take, List.length_take, hsorts.length_eq])
    fun i hi hi' => ?_
  rw [List.getElem_take, List.getElem_take]
  rw [List.length_take, lt_min_iff] at hi hi'
  by_contra hne
  have hscore : f (sort f l)[i] = f (sort f l')[i] := by
    have := congrArg (·[i]?) hscores
    simpa [hi.2, hi'.2] using this
  have hle := h _ (sort_perm.mem_iff.mp (List.getElem_mem hi.2)) _
    ((sort_perm.trans hperm.symm).mem_iff.mp (List.getElem_mem hi'.2)) hscore hne
  rw [← length_above_perm (sort_perm (f := f))] at hle
  -- the item at place `i` has at most `i` items above it
  have hsplit : sort f l = (sort f l).take i ++ (sort f l)[i] :: (sort f l).drop (i + 1) := by
    rw [← List.drop_eq_getElem_cons, List.take_append_drop]
  have habove := length_above_le (hsplit ▸ pairwise_sort (f := f) (l := l))
  rw [← hsplit, List.length_take] at habove
  omega

/-- **Orders that do not agree**: of two items with the same score, the one that comes first
takes the place. -/
theorem take_sort_swap {n : ℕ} (hscore : f a = f b)
    (hn : (above f (a :: b :: l) a).length < n) :
    ((sort f (a :: b :: l)).take n)[(above f (a :: b :: l) a).length]? = some a ∧
      ((sort f (b :: a :: l)).take n)[(above f (a :: b :: l) a).length]? = some b := by
  have habove : (above f (a :: b :: l) a).length = (above f (b :: a :: l) b).length := by
    rw [length_above_perm (List.Perm.swap b a l)]
    simp only [above, hscore]
  rw [List.getElem?_take_of_lt hn, List.getElem?_take_of_lt hn]
  refine ⟨getElem?_sort_cons, ?_⟩
  rw [habove]
  exact getElem?_sort_cons

theorem sort_map (g : γ → α) (l : List γ) : sort f (l.map g) = (sort (f ∘ g) l).map g := by
  rw [sort, sort, List.map_mergeSort]
  intro a _ b _
  rfl

/-- **Different scores**: the sort is the same for every order. -/
theorem sort_eq (hperm : l.Perm l') (hinj : ∀ a ∈ l, ∀ b ∈ l, f a = f b → a = b) :
    sort f l = sort f l' := by
  have htake := take_sort_eq (n := l.length) hperm
    fun a ha b hb hscore hne => absurd (hinj a ha b hb hscore) hne
  have hlen : ∀ m : List α, m.length = l.length → (sort f m).take l.length = sort f m := by
    intro m hm
    rw [List.take_of_length_le]
    rw [sort_perm.length_eq, hm]
  rwa [hlen l rfl, hlen l' hperm.length_eq.symm] at htake

/-- **What the cut keeps** of items with different scores. -/
theorem mem_take_sort {n : ℕ} (hinj : ∀ a ∈ l, ∀ b ∈ l, f a = f b → a = b) (hnodup : l.Nodup)
    (ha : a ∈ l) : a ∈ (sort f l).take n ↔ (above f l a).length < n := by
  classical
  have hperm : l.Perm (a :: l.erase a) := List.perm_cons_erase ha
  have hplace : (sort f l)[(above f l a).length]? = some a := by
    rw [sort_eq hperm hinj, length_above_perm hperm]
    exact getElem?_sort_cons
  constructor
  · intro hmem
    obtain ⟨i, hi⟩ := List.getElem?_of_mem hmem
    have hin : i < n := (List.length_take_le _ _).trans_lt' (List.getElem?_eq_some_iff.mp hi).1
    rw [List.getElem?_take_of_lt hin] at hi
    have hieq := (List.getElem?_inj (List.getElem?_eq_some_iff.mp hi).1
      ((sort_perm (f := f)).nodup_iff.mpr hnodup)).mp (hi.trans hplace.symm)
    omega
  · intro hlt
    rw [← List.getElem?_take_of_lt hlt] at hplace
    exact List.mem_of_getElem? hplace

/-- The first place belongs to the item that none is above. -/
theorem head?_sort (hinj : ∀ a ∈ l, ∀ b ∈ l, f a = f b → a = b) (ha : a ∈ l)
    (hbest : ∀ b ∈ l, f b ≤ f a) : (sort f l).head? = some a := by
  classical
  have hperm : l.Perm (a :: l.erase a) := List.perm_cons_erase ha
  have habove : above f l a = [] := by
    refine List.filter_eq_nil_iff.mpr fun b hb => ?_
    simpa using hbest b hb
  have hplace := getElem?_sort_cons (f := f) (a := a) (l := l.erase a)
  rwa [← sort_eq hperm hinj, ← length_above_perm hperm, habove, List.length_nil,
    ← List.head?_eq_getElem?] at hplace

/-- The cut keeps no item that one behind it is above. -/
theorem le_of_mem_drop_sort {n : ℕ} (ha : a ∈ (sort f l).take n) (hb : b ∈ (sort f l).drop n) :
    f b ≤ f a := by
  have hsorted : (sort f l).Pairwise fun a b => f b ≤ f a := pairwise_sort
  rw [← List.take_append_drop n (sort f l), List.pairwise_append] at hsorted
  exact hsorted.2.2 a ha b hb

/-- An item stands before every item that it is above. -/
theorem exists_getElem?_sort {j : ℕ} (ha : a ∈ l) (hlt : f b < f a)
    (hj : (sort f l)[j]? = some b) : ∃ i < j, (sort f l)[i]? = some a := by
  obtain ⟨i, hi⟩ := List.getElem?_of_mem (sort_perm (f := f).mem_iff.mpr ha)
  refine ⟨i, ?_, hi⟩
  by_contra hle
  rcases Nat.lt_or_eq_of_le (not_lt.mp hle) with hji | rfl
  · obtain ⟨hjlen, hjget⟩ := List.getElem?_eq_some_iff.mp hj
    obtain ⟨hilen, higet⟩ := List.getElem?_eq_some_iff.mp hi
    have hrel := List.pairwise_iff_getElem.mp (pairwise_sort (f := f) (l := l)) j i hjlen hilen hji
    rw [hjget, higet] at hrel
    exact absurd hlt (not_lt.mpr hrel)
  · rw [hi] at hj
    rw [Option.some_inj.mp hj] at hlt
    exact lt_irrefl _ hlt

/-! ### Filters -/

/-- What is left of the cut are the first of the items that the filter keeps. -/
theorem filter_take_initial {p : α → Bool} {n : ℕ} {l : List α} :
    (l.take n).filter p <+: (l.filter p).take n := by
  have hlen : ((l.take n).filter p).length ≤ n :=
    (List.length_filter_le _ _).trans (List.length_take_le n l)
  rw [← List.take_of_length_le hlen]
  exact ((List.take_prefix n l).filter p).take n

/-- A cut and a filter commute exactly if the filter keeps nothing behind the cut, or drops
nothing before it. -/
theorem filter_take_eq_iff {p : α → Bool} {n : ℕ} {l : List α} :
    (l.take n).filter p = (l.filter p).take n ↔
      (∀ a ∈ l.drop n, p a = false) ∨ ∀ a ∈ l.take n, p a = true := by
  have hsplit : l.filter p = (l.take n).filter p ++ (l.drop n).filter p := by
    rw [← List.filter_append, List.take_append_drop]
  have hcut : (l.take n).length ≤ n := List.length_take_le n l
  have hle : ((l.take n).filter p).length ≤ (l.take n).length := List.length_filter_le _ _
  have hbehind : (l.drop n).filter p = [] ↔ ∀ a ∈ l.drop n, p a = false := by
    simp [List.filter_eq_nil_iff]
  have hbefore : (l.take n).length ≤ ((l.take n).filter p).length ↔ ∀ a ∈ l.take n, p a = true := by
    rw [← List.length_filter_eq_length_iff]
    omega
  rw [hsplit, List.take_append, List.take_of_length_le (hle.trans hcut), List.self_eq_append_right,
    List.take_eq_nil_iff, hbehind, ← hbefore, or_comm]
  refine or_congr_right' fun hrest => ?_
  -- something is left behind the cut, so the cut is as long as it can be
  have hlen : n ≤ l.length := by
    by_contra hshort
    exact hrest fun a ha => by
      rw [List.drop_eq_nil_of_le (by omega)] at ha
      exact absurd ha (by simp)
  rw [List.length_take] at hbefore ⊢
  omega

end Ranking
