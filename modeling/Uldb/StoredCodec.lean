/-
A codec that runs: CRC-32 as `crc32fast` computes it, and raw DEFLATE restricted
to stored blocks, the form `flate2` writes at compression level 0.

Results about the engine are about every `Codec`; this one shows that what they
ask of a codec can be had (`storedCodec_lossless`), and runs the examples.
-/
import Uldb.Basic

namespace Uldb

namespace StoredCodec

/-- One bit of the reflected CRC-32 polynomial division. -/
def crcBit (c : UInt32) : UInt32 :=
  if c &&& 1 = 1 then (c >>> 1) ^^^ 0xEDB88320 else c >>> 1

def crcByte (c : UInt32) (b : UInt8) : UInt32 :=
  Nat.iterate crcBit 8 (c ^^^ b.toUInt32)

def crc32 (data : Bytes) : UInt32 := ~~~data.foldl crcByte 0xFFFFFFFF

/-- The largest stored block. -/
def blockSize : ℕ := 65535

/-- A stored block: the final bit, the little-endian length, its complement, the data. -/
def block (final : Bool) (data : Bytes) : Bytes :=
  let lo := UInt8.ofNat data.length
  let hi := UInt8.ofNat (data.length / 256)
  (if final then 1 else 0) :: lo :: hi :: ~~~lo :: ~~~hi :: data

def deflateAux : ℕ → Bytes → Bytes
  | 0, data => block true data
  | fuel + 1, data =>
    if data.length ≤ blockSize then block true data
    else block false (data.take blockSize) ++ deflateAux fuel (data.drop blockSize)

/-- Read stored blocks up to the final one; bytes after it are not read. -/
def inflateAux : ℕ → Bytes → Option Bytes
  | 0, _ => none
  | fuel + 1, head :: lo :: hi :: nlo :: nhi :: rest =>
    let len := lo.toNat + 256 * hi.toNat
    if nlo ≠ ~~~lo ∨ nhi ≠ ~~~hi ∨ rest.length < len then none
    else if head = 1 then some (rest.take len)
    else if head = 0 then (inflateAux fuel (rest.drop len)).map (rest.take len ++ ·)
    else none
  | _ + 1, _ => none

theorem toNat_length {data : Bytes} (h : data.length ≤ blockSize) :
    (UInt8.ofNat data.length).toNat + 256 * (UInt8.ofNat (data.length / 256)).toNat
      = data.length := by
  rw [blockSize] at h
  simp only [UInt8.toNat_ofNat']
  omega

theorem inflateAux_final {data : Bytes} (h : data.length ≤ blockSize) (fuel : ℕ) :
    inflateAux (fuel + 1) (block true data) = some data := by
  simp only [block, inflateAux, toNat_length h]
  simp

theorem inflateAux_block {data : Bytes} (h : data.length ≤ blockSize) (fuel : ℕ) (rest : Bytes) :
    inflateAux (fuel + 1) (block false data ++ rest) = (inflateAux fuel rest).map (data ++ ·) := by
  simp only [block, inflateAux, List.cons_append, toNat_length h]
  simp

/-- Enough fuel for the writer and the reader gives the data back. -/
theorem inflateAux_deflateAux (fuel : ℕ) (data : Bytes) (h : data.length ≤ fuel)
    (more : ℕ) : inflateAux (fuel + 1 + more) (deflateAux fuel data) = some data := by
  induction fuel generalizing data with
  | zero =>
    rw [deflateAux, show 0 + 1 + more = more + 1 by omega]
    exact inflateAux_final (by omega) more
  | succ fuel ih =>
    rw [deflateAux]
    by_cases hs : data.length ≤ blockSize
    · rw [if_pos hs, show fuel + 1 + 1 + more = fuel + 1 + more + 1 by omega]
      exact inflateAux_final hs _
    · rw [if_neg hs, show fuel + 1 + 1 + more = fuel + 1 + more + 1 by omega,
        inflateAux_block (by simp), ih _ (by simp [blockSize]; omega)]
      simp

theorem length_le_block (final : Bool) (data : Bytes) :
    data.length ≤ (block final data).length := by
  simp only [block, List.length_cons]
  omega

theorem length_le_deflateAux (fuel : ℕ) (data : Bytes) :
    data.length ≤ (deflateAux fuel data).length := by
  induction fuel generalizing data with
  | zero => exact length_le_block true data
  | succ fuel ih =>
    rw [deflateAux]
    by_cases hs : data.length ≤ blockSize
    · rw [if_pos hs]
      exact length_le_block true data
    · rw [if_neg hs, List.length_append]
      have hblock := length_le_block false (data.take blockSize)
      have hrest := ih (data.drop blockSize)
      rw [List.length_take] at hblock
      rw [List.length_drop] at hrest
      omega

end StoredCodec

/-- CRC-32 and stored DEFLATE blocks. -/
@[reducible] def storedCodec : Codec where
  crc32 := StoredCodec.crc32
  deflate data := StoredCodec.deflateAux data.length data
  inflate data := StoredCodec.inflateAux (data.length + 1) data

theorem storedCodec_lossless : @Codec.Lossless storedCodec := by
  intro data
  obtain ⟨more, hmore⟩ := Nat.exists_eq_add_of_le
    (StoredCodec.length_le_deflateAux data.length data)
  show StoredCodec.inflateAux ((StoredCodec.deflateAux data.length data).length + 1) _ = _
  rw [hmore, show data.length + more + 1 = data.length + 1 + more by omega]
  exact StoredCodec.inflateAux_deflateAux _ _ le_rfl more

/-- The check value of CRC-32, the checksum of `123456789`. -/
example : StoredCodec.crc32 [49, 50, 51, 52, 53, 54, 55, 56, 57] = 0xCBF43926 := by decide +kernel

end Uldb
