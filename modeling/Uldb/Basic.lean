/-
Byte strings, the FNV-1a hash (`storage/fnv.rs`) and the third-party codecs.

Keys and values are byte strings (`Vec<u8>`), compared bytewise.  The hash is
the 64-bit FNV-1a fold with wrapping multiplication, which `UInt64` has.

`crc32fast` and `flate2` are not part of the repository: the checksum and the
two directions of the compression are the fields of `Codec`, and what a result
needs of them is a hypothesis of that result.
-/
import Mathlib

/-- A byte string (`Vec<u8>` or `&[u8]`). -/
abbrev Bytes := List UInt8

namespace Uldb

def fnvOffset : UInt64 := 0xcbf29ce484222325

def fnvPrime : UInt64 := 0x100000001b3

/-- FNV-1a hash of a byte string. -/
def fnv1a (data : Bytes) : UInt64 :=
  data.foldl (fun h b => (h ^^^ b.toUInt64) * fnvPrime) fnvOffset

/-- The key lies in the half-open interval from `start` to `stop`. -/
def InRange (start stop k : Bytes) : Prop := compare k start ≠ .lt ∧ compare k stop = .lt

instance (start stop k : Bytes) : Decidable (InRange start stop k) :=
  inferInstanceAs (Decidable (_ ∧ _))

theorem InRange.start_lt {start stop k : Bytes} (h : InRange start stop k) :
    compare start stop = .lt := by
  obtain ⟨hstart, hstop⟩ := h
  cases hk : compare k start with
  | lt => exact absurd hk hstart
  | eq =>
    rw [← Std.LawfulEqCmp.eq_of_compare hk]
    exact hstop
  | gt => exact Std.TransCmp.lt_trans (Std.OrientedCmp.lt_of_gt hk) hstop

theorem InRange.start_le {start stop k : Bytes} (h : InRange start stop k) :
    compare start stop ≠ .gt := by
  rw [h.start_lt]
  simp

/-- How a call fails: with an error and its text, or by a panic. -/
inductive Failure where
  | error (msg : String)
  | panic
  deriving DecidableEq, Repr

/-- Put a text in front of an error's text. -/
def Failure.prepend (text : String) : Failure → Failure
  | error msg => error (text ++ msg)
  | panic => panic

/-- The third-party codecs: `crc32fast::Hasher` over the bytes fed to it, and
`flate2`'s raw DEFLATE stream (`inflate` fails on a malformed stream). -/
class Codec where
  crc32 : Bytes → UInt32
  deflate : Bytes → Bytes
  inflate : Bytes → Option Bytes

/-- Decoding inverts encoding, as `flate2` documents. -/
def Codec.Lossless [Codec] : Prop := ∀ body : Bytes, Codec.inflate (Codec.deflate body) = some body

end Uldb
