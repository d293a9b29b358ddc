/-
Bits in 64-bit words.

`getBit_setBit` — setting a bit that the words have room for sets it, and no other.
-/
import Mathlib

namespace BitArray

def getBit (words : List UInt64) (pos : ℕ) : Bool :=
  (words.getD (pos / 64) 0 >>> (pos % 64).toUInt64) &&& 1 == 1

def setBit (words : List UInt64) (pos : ℕ) : List UInt64 :=
  words.set (pos / 64) (words.getD (pos / 64) 0 ||| 1 <<< (pos % 64).toUInt64)

theorem toNat_mod_toUInt64 (pos : ℕ) : (pos % 64).toUInt64.toNat = pos % 64 := by
  have hlt := Nat.mod_lt pos (show 0 < 64 by decide)
  exact Nat.mod_eq_of_lt (by omega)

/-- The test for a bit of a word. -/
theorem shiftRight_and_one (w : UInt64) (pos : ℕ) :
    ((w >>> (pos % 64).toUInt64) &&& 1 == 1) = w.toNat.testBit (pos % 64) := by
  have hand : ((w >>> (pos % 64).toUInt64) &&& 1).toNat = w.toNat / 2 ^ (pos % 64) % 2 := by
    rw [UInt64.toNat_and, UInt64.toNat_shiftRight, toNat_mod_toUInt64, Nat.mod_mod,
      Nat.shiftRight_eq_div_pow]
    exact Nat.and_one_is_mod _
  rw [Bool.eq_iff_iff, beq_iff_eq, ← UInt64.toNat_inj, hand, Nat.testBit_eq_decide_div_mod_eq,
    decide_eq_true_iff]
  rfl

theorem toNat_or_shiftLeft (w : UInt64) (pos i : ℕ) :
    (w ||| 1 <<< (pos % 64).toUInt64).toNat.testBit i
      = (w.toNat.testBit i || decide (pos % 64 = i)) := by
  have hlt := Nat.mod_lt pos (show 0 < 64 by decide)
  have hpow : 2 ^ (pos % 64) < 2 ^ 64 := Nat.pow_lt_pow_right (by norm_num) hlt
  have hflag : (1 <<< (pos % 64).toUInt64 : UInt64).toNat = 2 ^ (pos % 64) := by
    rw [UInt64.toNat_shiftLeft, toNat_mod_toUInt64, Nat.mod_mod, Nat.shiftLeft_eq,
      UInt64.toNat_one, Nat.one_mul]
    exact Nat.mod_eq_of_lt hpow
  rw [UInt64.toNat_or, hflag, Nat.testBit_or, Nat.testBit_two_pow]

theorem getBit_eq (words : List UInt64) (pos : ℕ) :
    getBit words pos = (words.getD (pos / 64) 0).toNat.testBit (pos % 64) :=
  shiftRight_and_one _ _

@[simp] theorem length_setBit (words : List UInt64) (pos : ℕ) :
    (setBit words pos).length = words.length := List.length_set

/-- **Setting a bit.** -/
theorem getBit_setBit {words : List UInt64} {pos : ℕ} (h : pos < 64 * words.length) (pos' : ℕ) :
    getBit (setBit words pos) pos' = (getBit words pos' || decide (pos = pos')) := by
  have hdiv := Nat.div_add_mod pos 64
  have hdiv' := Nat.div_add_mod pos' 64
  rw [getBit_eq, getBit_eq, setBit, List.getD_eq_getElem?_getD, List.getElem?_set]
  by_cases hword : pos / 64 = pos' / 64
  · rw [if_pos hword, if_pos (by omega), Option.getD_some, toNat_or_shiftLeft, hword]
    congr 1
    rw [decide_eq_decide]
    omega
  · rw [if_neg hword, ← List.getD_eq_getElem?_getD, decide_eq_false (by omega), Bool.or_false]

@[simp] theorem getBit_replicate (n pos : ℕ) : getBit (List.replicate n 0) pos = false := by
  have hword : (List.replicate n (0 : UInt64)).getD (pos / 64) 0 = 0 := by
    rw [List.getD_eq_getElem?_getD, List.getElem?_replicate]
    split <;> rfl
  rw [getBit_eq, hword]
  exact Nat.zero_testBit _

end BitArray
