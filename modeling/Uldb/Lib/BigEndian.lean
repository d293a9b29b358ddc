/-
Big-endian byte encodings of natural numbers.

`be w n` is the `w`-byte encoding of `n` modulo `256 ^ w`: a fixed-width cast
followed by `to_be_bytes`.  `toNat` is the decoding, and the two are inverse on
the numbers that fit (`toNat_be`) and on the byte strings of the width
(`be_toNat`).  The byte order of encodings is the order of the numbers (`compare_be`).
-/
import Mathlib

namespace BigEndian

/-- The `w` low bytes of `n`, most significant first. -/
def be : ℕ → ℕ → List UInt8
  | 0, _ => []
  | w + 1, n => be w (n / 256) ++ [UInt8.ofNat n]

/-- The number a big-endian byte string denotes. -/
def toNat (bytes : List UInt8) : ℕ := bytes.foldl (fun n b => n * 256 + b.toNat) 0

@[simp] theorem be_length (w n : ℕ) : (be w n).length = w := by
  induction w generalizing n with
  | zero => rfl
  | succ w ih => simp [be, ih]

theorem toNat_concat (bytes : List UInt8) (b : UInt8) :
    toNat (bytes ++ [b]) = toNat bytes * 256 + b.toNat := by
  simp [toNat]

theorem toNat_be_mod (w n : ℕ) : toNat (be w n) = n % 256 ^ w := by
  induction w generalizing n with
  | zero => simp [be, toNat, Nat.mod_one]
  | succ w ih =>
    have hlast : (UInt8.ofNat n).toNat = n % 256 := by simp
    rw [be, toNat_concat, ih, hlast, pow_succ, Nat.mul_comm (256 ^ w), Nat.mod_mul]
    omega

theorem toNat_be {w n : ℕ} (hn : n < 256 ^ w) : toNat (be w n) = n := by
  rw [toNat_be_mod, Nat.mod_eq_of_lt hn]

theorem be_toNat (bytes : List UInt8) : be bytes.length (toNat bytes) = bytes := by
  induction bytes using List.reverseRecOn with
  | nil => rfl
  | append_singleton bytes b ih =>
    have hb : b.toNat < 256 := UInt8.toNat_lt b
    have hdiv : (toNat bytes * 256 + b.toNat) / 256 = toNat bytes := by omega
    have hlast : UInt8.ofNat (toNat bytes * 256 + b.toNat) = b := by
      apply UInt8.toNat_inj.mp
      simp
    rw [List.length_append, List.length_singleton, be, toNat_concat, hdiv, ih, hlast]

theorem toNat_lt (bytes : List UInt8) : toNat bytes < 256 ^ bytes.length := by
  induction bytes using List.reverseRecOn with
  | nil => simp [toNat]
  | append_singleton bytes b ih =>
    have hb : b.toNat < 256 := UInt8.toNat_lt b
    rw [toNat_concat, List.length_append, List.length_singleton, pow_succ]
    omega

/-! ### The order of encodings -/

/-- Behind prefixes of one length the order of the prefixes decides first. -/
theorem compare_append {p q : List UInt8} (hlen : p.length = q.length) (a b : List UInt8) :
    compare (p ++ a) (q ++ b) = (compare p q).then (compare a b) := by
  induction p generalizing q with
  | nil =>
    obtain rfl : q = [] := List.length_eq_zero_iff.mp hlen.symm
    rfl
  | cons c p ih =>
    cases q with
    | nil => exact absurd hlen (by simp)
    | cons d q =>
      have hlen' : p.length = q.length := by simpa using hlen
      rw [List.cons_append, List.cons_append, List.compare_cons_cons, List.compare_cons_cons,
        ih hlen', Ordering.then_assoc]

/-- The quotients decide before the remainders. -/
theorem compare_div_mod (m n b : ℕ) :
    (compare (m / b) (n / b)).then (compare (m % b) (n % b)) = compare m n := by
  have hm := Nat.div_add_mod m b
  have hn := Nat.div_add_mod n b
  rcases lt_trichotomy (m / b) (n / b) with h | h | h
  · rw [compare_lt_iff_lt.mpr h, compare_lt_iff_lt.mpr (Nat.lt_of_div_lt_div h)]
    rfl
  · rw [compare_eq_iff_eq.mpr h]
    show compare (m % b) (n % b) = compare m n
    rcases lt_trichotomy (m % b) (n % b) with hr | hr | hr
    · rw [compare_lt_iff_lt.mpr hr, compare_lt_iff_lt.mpr]
      rw [← hm, ← hn, h]
      omega
    · rw [compare_eq_iff_eq.mpr hr, compare_eq_iff_eq.mpr]
      rw [← hm, ← hn, h, hr]
    · rw [compare_gt_iff_gt.mpr hr, compare_gt_iff_gt.mpr]
      rw [← hm, ← hn, h]
      omega
  · rw [compare_gt_iff_gt.mpr h, compare_gt_iff_gt.mpr (Nat.lt_of_div_lt_div h)]
    rfl

theorem compare_uint8_toNat (a b : UInt8) : compare a.toNat b.toNat = compare a b := by
  show compareOfLessAndEq _ _ = compareOfLessAndEq _ _
  simp only [compareOfLessAndEq, UInt8.toNat_inj, UInt8.lt_iff_toNat_lt]

/-- **The byte order of encodings** is the order of the numbers that fit. -/
theorem compare_be {w m n : ℕ} (hm : m < 256 ^ w) (hn : n < 256 ^ w) :
    compare (be w m) (be w n) = compare m n := by
  induction w generalizing m n with
  | zero =>
    obtain rfl : m = 0 := by simpa using hm
    obtain rfl : n = 0 := by simpa using hn
    rfl
  | succ w ih =>
    have hlast : compare [UInt8.ofNat m] [UInt8.ofNat n] = compare (m % 256) (n % 256) := by
      rw [List.compare_cons_cons, ← compare_uint8_toNat, UInt8.toNat_ofNat', UInt8.toNat_ofNat']
      exact Ordering.then_eq
    rw [pow_succ] at hm hn
    rw [be, be, compare_append (by simp), ih (by omega) (by omega), hlast, compare_div_mod]

end BigEndian
