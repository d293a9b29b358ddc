/-
Sparse arrays: a 32-bit bitmap together with the dense list of the entries
whose bit is set.

An entry of bit `b` sits in the dense list at position `rank m b`, the number
of set bits below `b`.  The file reduces the three updates of such an array to
statements about the list `slots m xs` of (bit, entry) pairs:

* `getElem?_rank` — reading the dense list at `rank m b` reads slot `b`;
* `mem_slots_set` — overwriting the entry of a set bit;
* `mem_slots_insert` — inserting the entry of a new bit;
* `mem_slots_erase` — erasing the entry of a set bit.

Design note: everything is derived from one decomposition, `bits_eq`: the set
bits are those below `b`, then `b` itself if it is set, then those above.
-/
import Mathlib

namespace SparseArray

/-- Number of set bits. -/
def countOnes (m : UInt32) : ℕ := (List.range 32).countP fun i => m.toNat.testBit i

/-- The bitmap whose only set bit is `b`. -/
def flag (b : ℕ) : UInt32 := 1 <<< b.toUInt32

/-- Number of set bits strictly below `b`: the dense position of bit `b`. -/
def rank (m : UInt32) (b : ℕ) : ℕ := countOnes (m &&& (flag b - 1))

/-- The set bits of `m`, ascending. -/
def bits (m : UInt32) : List ℕ := (List.range 32).filter fun i => m.toNat.testBit i

/-- The set bits paired with the entries of the dense list. -/
def slots {α : Type*} (m : UInt32) (xs : List α) : List (ℕ × α) := (bits m).zip xs

/-! ### Bit tests -/

theorem flag_toNat {b : ℕ} (hb : b < 32) : (flag b).toNat = 2 ^ b := by
  have h32 : b.toUInt32.toNat = b := by
    simpa using Nat.mod_eq_of_lt (show b < 2 ^ 32 by omega)
  have hlt : 2 ^ b < 2 ^ 32 := Nat.pow_lt_pow_right (by norm_num) hb
  rw [flag, UInt32.toNat_shiftLeft, h32, Nat.mod_eq_of_lt hb]
  simpa [Nat.shiftLeft_eq] using Nat.mod_eq_of_lt hlt

theorem testBit_and_flag {m : UInt32} {b : ℕ} (hb : b < 32) (i : ℕ) :
    (m &&& flag b).toNat.testBit i = (m.toNat.testBit i && decide (b = i)) := by
  rw [UInt32.toNat_and, flag_toNat hb, Nat.testBit_and, Nat.testBit_two_pow]

/-- The membership test the trie makes before it follows a slot. -/
theorem and_flag_eq_zero {m : UInt32} {b : ℕ} (hb : b < 32) :
    m &&& flag b = 0 ↔ m.toNat.testBit b = false := by
  constructor
  · intro h
    have hbit := testBit_and_flag (m := m) hb b
    rw [h] at hbit
    simpa using hbit.symm
  · intro h
    apply UInt32.toNat_inj.mp
    apply Nat.eq_of_testBit_eq
    intro i
    rw [testBit_and_flag hb]
    by_cases hi : b = i
    · subst hi
      simp [h]
    · simp [hi]

theorem testBit_or_flag {m : UInt32} {b : ℕ} (hb : b < 32) (i : ℕ) :
    (m ||| flag b).toNat.testBit i = (m.toNat.testBit i || decide (b = i)) := by
  rw [UInt32.toNat_or, flag_toNat hb, Nat.testBit_or, Nat.testBit_two_pow]

theorem testBit_and_not_flag {m : UInt32} {b : ℕ} (hb : b < 32) {i : ℕ} (hi : i < 32) :
    (m &&& ~~~flag b).toNat.testBit i = (m.toNat.testBit i && !decide (b = i)) := by
  have hnot : (~~~flag b).toNat = 2 ^ 32 - (2 ^ b + 1) := by
    rw [UInt32.toNat_not, flag_toNat hb]
    simp only [UInt32.size]
    omega
  have hlt : 2 ^ b < 2 ^ 32 := Nat.pow_lt_pow_right (by norm_num) hb
  rw [UInt32.toNat_and, Nat.testBit_and, hnot,
    Nat.testBit_two_pow_sub_succ hlt, Nat.testBit_two_pow]
  simp [hi]

theorem testBit_and_flag_pred {m : UInt32} {b : ℕ} (hb : b < 32) (i : ℕ) :
    (m &&& (flag b - 1)).toNat.testBit i = (m.toNat.testBit i && decide (i < b)) := by
  have hpos : 1 ≤ 2 ^ b := Nat.one_le_two_pow
  have hsub : (flag b - 1).toNat = 2 ^ b - 1 := by
    rw [UInt32.toNat_sub_of_le _ _ (by rw [UInt32.le_iff_toNat_le, flag_toNat hb]; simpa using hpos),
      flag_toNat hb]
    rfl
  rw [UInt32.toNat_and, hsub, Nat.and_two_pow_sub_one_eq_mod, Nat.testBit_mod_two_pow,
    Bool.and_comm]

/-! ### The decomposition of the set bits -/

/-- The set bits below `b`. -/
def lower (m : UInt32) (b : ℕ) : List ℕ := (List.range b).filter fun i => m.toNat.testBit i

/-- The set bits above `b`. -/
def upper (m : UInt32) (b : ℕ) : List ℕ :=
  (List.range' (b + 1) (31 - b)).filter fun i => m.toNat.testBit i

theorem range_split {b : ℕ} (hb : b < 32) :
    List.range 32 = List.range b ++ b :: List.range' (b + 1) (31 - b) := by
  have h : List.range' b (32 - b) = b :: List.range' (b + 1) (31 - b) := by
    rw [show 32 - b = (31 - b) + 1 by omega, List.range'_succ]
  have happ := List.range'_append_1 (s := 0) (m := b) (n := 32 - b)
  rw [Nat.zero_add, show b + (32 - b) = 32 by omega] at happ
  rw [← h, List.range_eq_range', List.range_eq_range']
  exact happ.symm

theorem bits_eq {m : UInt32} {b : ℕ} (hb : b < 32) :
    bits m = lower m b ++ ((if m.toNat.testBit b then [b] else []) ++ upper m b) := by
  rw [bits, range_split hb, List.filter_append, List.filter_cons]
  split <;> rfl

theorem rank_eq_length_lower {m : UInt32} {b : ℕ} (hb : b < 32) :
    rank m b = (lower m b).length := by
  have htail : (List.range' (b + 1) (31 - b)).countP
      (fun i => m.toNat.testBit i && decide (i < b)) = 0 := by
    rw [List.countP_eq_zero]
    intro i hi
    have := (List.mem_range'_1.mp hi).1
    simp
    omega
  have hhead : (List.range b).countP (fun i => m.toNat.testBit i && decide (i < b))
      = (List.range b).countP fun i => m.toNat.testBit i := by
    apply List.countP_congr
    intro i hi
    simp [List.mem_range.mp hi]
  rw [rank, countOnes, List.countP_congr (fun i _ => by rw [testBit_and_flag_pred hb]),
    range_split hb, List.countP_append, List.countP_cons, htail, hhead, lower,
    List.countP_eq_length_filter]
  simp

theorem mem_bits {m : UInt32} {b : ℕ} : b ∈ bits m ↔ b < 32 ∧ m.toNat.testBit b = true := by
  simp [bits]

theorem bits_nodup (m : UInt32) : (bits m).Nodup := List.nodup_range.filter _

theorem lower_congr (m m' : UInt32) {b : ℕ}
    (h : ∀ i < b, m.toNat.testBit i = m'.toNat.testBit i) : lower m b = lower m' b :=
  List.filter_congr fun i hi => h i (List.mem_range.mp hi)

theorem upper_congr (m m' : UInt32) {b : ℕ}
    (h : ∀ i, b < i → i < 32 → m.toNat.testBit i = m'.toNat.testBit i) :
    upper m b = upper m' b := by
  refine List.filter_congr fun i hi => ?_
  obtain ⟨h1, h2⟩ := List.mem_range'_1.mp hi
  exact h i (by omega) (by omega)

/-- Setting a clear bit inserts it at its rank. -/
theorem bits_or_flag {m : UInt32} {b : ℕ} (hb : b < 32) (hm : m.toNat.testBit b = false) :
    bits m = lower m b ++ upper m b ∧
      bits (m ||| flag b) = lower m b ++ b :: upper m b := by
  constructor
  · rw [bits_eq hb, hm]
    simp
  · rw [bits_eq hb, testBit_or_flag hb,
      lower_congr _ m fun i hi => by rw [testBit_or_flag hb]; simp; omega,
      upper_congr _ m fun i hi _ => by rw [testBit_or_flag hb]; simp; omega]
    simp

/-- Clearing a set bit erases it from its rank. -/
theorem bits_and_not_flag {m : UInt32} {b : ℕ} (hb : b < 32) (hm : m.toNat.testBit b = true) :
    bits m = lower m b ++ b :: upper m b ∧
      bits (m &&& ~~~flag b) = lower m b ++ upper m b := by
  constructor
  · rw [bits_eq hb, hm]
    simp
  · rw [bits_eq hb, testBit_and_not_flag hb hb,
      lower_congr _ m fun i hi => by
        rw [testBit_and_not_flag hb (by omega)]
        simp
        omega,
      upper_congr _ m fun i hi hi' => by
        rw [testBit_and_not_flag hb hi']
        simp
        omega]
    simp

theorem bits_flag {b : ℕ} (hb : b < 32) : bits (flag b) = [b] := by
  have h := (bits_or_flag (m := 0) hb (by simp)).2
  have hlow : lower 0 b = [] := by simp [lower]
  have hup : upper 0 b = [] := by simp [upper]
  rwa [hlow, hup, UInt32.zero_or] at h

theorem rank_flag {a b : ℕ} (ha : a < 32) (hb : b < 32) :
    rank (flag a) b = if a < b then 1 else 0 := by
  have hbeq : ∀ i ∈ List.range b, (flag a).toNat.testBit i = true ↔ (i == a) = true := by
    intro i _
    rw [flag_toNat ha, Nat.testBit_two_pow, decide_eq_true_eq, beq_iff_eq]
    exact eq_comm
  rw [rank_eq_length_lower hb, lower, ← List.countP_eq_length_filter, List.countP_congr hbeq]
  exact List.count_range

/-! ### Reading and updating the dense list -/

variable {α : Type*} {m : UInt32} {xs : List α} {b : ℕ}

/-- The dense list splits at the rank of a set bit. -/
theorem exists_split_of_testBit (hb : b < 32) (hm : m.toNat.testBit b = true)
    (hlen : xs.length = (bits m).length) :
    ∃ ys x zs, xs = ys ++ x :: zs ∧ ys.length = rank m b ∧
      slots m xs = (lower m b).zip ys ++ (b, x) :: (upper m b).zip zs := by
  have hbits := (bits_and_not_flag hb hm).1
  have hlt : rank m b < xs.length := by
    rw [hlen, hbits, rank_eq_length_lower hb]
    simp
  refine ⟨xs.take (rank m b), xs[rank m b], xs.drop (rank m b + 1), ?_, ?_, ?_⟩
  · simp
  · simp
    omega
  · have hsplit : xs = xs.take (rank m b) ++ xs[rank m b] :: xs.drop (rank m b + 1) := by simp
    have hpre : (lower m b).length = (xs.take (rank m b)).length := by
      rw [← rank_eq_length_lower hb]
      simp
      omega
    rw [slots, hbits]
    conv_lhs => rw [hsplit]
    rw [List.zip_append hpre, List.zip_cons_cons]

/-- The dense list splits at the rank of a clear bit. -/
theorem exists_split_of_not_testBit (hb : b < 32) (hm : m.toNat.testBit b = false)
    (hlen : xs.length = (bits m).length) :
    ∃ ys zs, xs = ys ++ zs ∧ ys.length = rank m b ∧
      slots m xs = (lower m b).zip ys ++ (upper m b).zip zs := by
  have hbits := (bits_or_flag hb hm).1
  have hle : rank m b ≤ xs.length := by
    rw [hlen, hbits, rank_eq_length_lower hb]
    simp
  refine ⟨xs.take (rank m b), xs.drop (rank m b), by simp, by simp [hle], ?_⟩
  have hpre : (lower m b).length = (xs.take (rank m b)).length := by
    rw [← rank_eq_length_lower hb]
    simp [hle]
  rw [slots, hbits]
  conv_lhs => rw [← List.take_append_drop (rank m b) xs]
  rw [List.zip_append hpre]

theorem not_mem_lower : b ∉ lower m b := by simp [lower]

theorem not_mem_upper : b ∉ upper m b := by
  intro h
  have := (List.mem_range'_1.mp (List.mem_filter.mp h).1).1
  omega

/-- Reading the dense list at the rank of `b` reads slot `b`. -/
theorem getElem?_rank (hb : b < 32) (hm : m.toNat.testBit b = true)
    (hlen : xs.length = (bits m).length) :
    ∃ x, xs[rank m b]? = some x ∧ ∀ y, (b, y) ∈ slots m xs ↔ y = x := by
  obtain ⟨ys, x, zs, hxs, hys, hslots⟩ := exists_split_of_testBit hb hm hlen
  refine ⟨x, ?_, fun y => ?_⟩
  · rw [hxs, ← hys]
    simp
  · rw [hslots]
    simp only [List.mem_append, List.mem_cons, Prod.mk.injEq, true_and]
    constructor
    · rintro (h | h | h)
      · exact absurd (List.of_mem_zip h).1 not_mem_lower
      · exact h
      · exact absurd (List.of_mem_zip h).1 not_mem_upper
    · intro h
      exact .inr (.inl h)

theorem mem_slots_set (hb : b < 32) (hm : m.toNat.testBit b = true)
    (hlen : xs.length = (bits m).length) (x' : α) (p : ℕ × α) :
    p ∈ slots m (xs.set (rank m b) x') ↔ p = (b, x') ∨ (p ∈ slots m xs ∧ p.1 ≠ b) := by
  obtain ⟨ys, x, zs, hxs, hys, hslots⟩ := exists_split_of_testBit hb hm hlen
  have hset : xs.set (rank m b) x' = ys ++ x' :: zs := by
    rw [hxs, ← hys]
    simp
  have hpre : (lower m b).length = ys.length := by rw [hys, rank_eq_length_lower hb]
  have hslots' : slots m (xs.set (rank m b) x')
      = (lower m b).zip ys ++ (b, x') :: (upper m b).zip zs := by
    rw [slots, hset, (bits_and_not_flag hb hm).1, List.zip_append hpre, List.zip_cons_cons]
  have hlow : ∀ p ∈ (lower m b).zip ys, p.1 ≠ b := fun p hp he =>
    not_mem_lower (he ▸ (List.of_mem_zip hp).1)
  have hup : ∀ p ∈ (upper m b).zip zs, p.1 ≠ b := fun p hp he =>
    not_mem_upper (he ▸ (List.of_mem_zip hp).1)
  rw [hslots, hslots']
  simp only [List.mem_append, List.mem_cons]
  constructor
  · rintro (h | h | h)
    · exact .inr ⟨.inl h, hlow p h⟩
    · exact .inl h
    · exact .inr ⟨.inr (.inr h), hup p h⟩
  · rintro (h | ⟨h | h | h, hne⟩)
    · exact .inr (.inl h)
    · exact .inl h
    · exact absurd (by rw [h]) hne
    · exact .inr (.inr h)

theorem insertIdx_length_append (ys zs : List α) (x : α) :
    (ys ++ zs).insertIdx ys.length x = ys ++ x :: zs := by
  induction ys with
  | nil => simp
  | cons y ys ih => simp [ih]

theorem mem_slots_insert (hb : b < 32) (hm : m.toNat.testBit b = false)
    (hlen : xs.length = (bits m).length) (x : α) :
    (xs.insertIdx (rank m b) x).length = (bits (m ||| flag b)).length ∧
      ∀ p, p ∈ slots (m ||| flag b) (xs.insertIdx (rank m b) x) ↔
        p = (b, x) ∨ p ∈ slots m xs := by
  obtain ⟨ys, zs, hxs, hys, hslots⟩ := exists_split_of_not_testBit hb hm hlen
  obtain ⟨hbits, hbits'⟩ := bits_or_flag hb hm
  have hins : xs.insertIdx (rank m b) x = ys ++ x :: zs := by
    rw [hxs, ← hys, insertIdx_length_append]
  have hpre : (lower m b).length = ys.length := by rw [hys, rank_eq_length_lower hb]
  constructor
  · have hcount : ys.length + zs.length = (lower m b).length + (upper m b).length := by
      rw [← List.length_append, ← hxs, hlen, hbits, List.length_append]
    rw [hins, hbits']
    simp only [List.length_append, List.length_cons]
    omega
  · intro p
    rw [slots, hins, hbits', List.zip_append hpre, List.zip_cons_cons, hslots]
    simp only [List.mem_append, List.mem_cons]
    tauto

/-- An array with two set bits. -/
theorem mem_slots_two {a : ℕ} (ha : a < 32) (hb : b < 32) (hne : a ≠ b) (x y : α) :
    (if a < b then [x, y] else [y, x]).length = (bits (flag a ||| flag b)).length ∧
      ∀ p, p ∈ slots (flag a ||| flag b) (if a < b then [x, y] else [y, x]) ↔
        p = (a, x) ∨ p = (b, y) := by
  have hclear : (flag a).toNat.testBit b = false := by
    rw [flag_toNat ha, Nat.testBit_two_pow]
    simpa using hne
  have hins : [x].insertIdx (rank (flag a) b) y = if a < b then [x, y] else [y, x] := by
    rw [rank_flag ha hb]
    split <;> rfl
  have hlen : [x].length = (bits (flag a)).length := by
    rw [bits_flag ha]
    rfl
  have h := mem_slots_insert hb hclear hlen y
  rw [hins] at h
  refine ⟨h.1, fun p => (h.2 p).trans ?_⟩
  rw [slots, bits_flag ha]
  exact or_comm.trans (or_congr_left List.mem_singleton)

theorem mem_slots_erase (hb : b < 32) (hm : m.toNat.testBit b = true)
    (hlen : xs.length = (bits m).length) :
    (xs.eraseIdx (rank m b)).length = (bits (m &&& ~~~flag b)).length ∧
      ∀ p, p ∈ slots (m &&& ~~~flag b) (xs.eraseIdx (rank m b)) ↔
        p ∈ slots m xs ∧ p.1 ≠ b := by
  obtain ⟨ys, x, zs, hxs, hys, hslots⟩ := exists_split_of_testBit hb hm hlen
  obtain ⟨hbits, hbits'⟩ := bits_and_not_flag hb hm
  have hera : xs.eraseIdx (rank m b) = ys ++ zs := by
    rw [hxs, ← hys, List.eraseIdx_append_of_length_le (le_refl _)]
    simp
  have hpre : (lower m b).length = ys.length := by rw [hys, rank_eq_length_lower hb]
  constructor
  · have hcount : ys.length + (zs.length + 1) = (lower m b).length + ((upper m b).length + 1) := by
      have := hlen
      rw [hxs, hbits] at this
      simpa using this
    rw [hera, hbits']
    simp only [List.length_append]
    omega
  · intro p
    have hlow : ∀ p ∈ (lower m b).zip ys, p.1 ≠ b := fun p hp he =>
      not_mem_lower (he ▸ (List.of_mem_zip hp).1)
    have hup : ∀ p ∈ (upper m b).zip zs, p.1 ≠ b := fun p hp he =>
      not_mem_upper (he ▸ (List.of_mem_zip hp).1)
    rw [slots, hera, hbits', List.zip_append hpre, hslots]
    simp only [List.mem_append, List.mem_cons]
    constructor
    · rintro (h | h)
      · exact ⟨.inl h, hlow p h⟩
      · exact ⟨.inr (.inr h), hup p h⟩
    · rintro ⟨h | h | h, hne⟩
      · exact .inl h
      · exact absurd (by rw [h]) hne
      · exact .inr h

end SparseArray
