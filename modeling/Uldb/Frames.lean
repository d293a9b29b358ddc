/-
The payloads of responses (`server.rs`, `bin/uldb.rs`).

A payload is a list of tagged fields and an end tag.  The tag of a field tells how long its
data is: one, four or eight bytes, or as long as the 32-bit number in front of it.

* `encData_selfDelimiting` — behind its tag, a field that fits tells where it ends;
* `enc_append_inj` — a payload of such fields tells its fields and where it ends.
-/
import Uldb.QueryNamespace
import Uldb.Lib.SelfDelimiting

namespace Uldb

open BigEndian

/-- The data of a field, behind its tag. -/
def encData (tag : UInt8) (data : Bytes) : Bytes :=
  if tag = tagU8 then data.take 1
  else if tag = tagU32 ∨ tag = tagU64 ∨ tag = tagF64 then data
  else if tag = tagBytes ∨ tag = tagString then be 4 data.length ++ data
  else []

/-- The length of the data of a number. -/
def width (tag : UInt8) : Option ℕ :=
  if tag = tagU8 then some 1
  else if tag = tagU32 then some 4
  else if tag = tagU64 ∨ tag = tagF64 then some 8
  else none

/-- The data has the length that its tag stands for: that of the number, or one that a 32-bit
number can tell. -/
def Fits (field : UInt8 × Bytes) : Prop :=
  match width field.1 with
  | some w => field.2.length = w
  | none => (field.1 = tagBytes ∨ field.1 = tagString) ∧ field.2.length < 256 ^ 4

instance (field : UInt8 × Bytes) : Decidable (Fits field) := by
  rw [Fits]
  cases width field.1 with
  | some w => exact inferInstanceAs (Decidable (_ = w))
  | none => exact inferInstanceAs (Decidable (_ ∧ _))

/-! ### Fields -/

theorem fits_u8Field (v : UInt8) : Fits (u8Field v) := rfl

theorem fits_u32Field (v : ℕ) : Fits (u32Field v) := be_length 4 v

theorem fits_f64Field (f64Bits : ℚ → ℕ) (v : ℚ) : Fits (UmpHandler.f64Field f64Bits v) :=
  be_length 8 _

theorem fits_f64Zero : Fits f64Zero := be_length 8 0

theorem fits_stringField {s : Bytes} (hs : s.length < 256 ^ 4) : Fits (stringField s) :=
  ⟨.inr rfl, hs⟩

theorem fits_bytesField {b : Bytes} (hb : b.length < 256 ^ 4) : Fits (bytesField b) :=
  ⟨.inl rfl, hb⟩

theorem be_selfDelimiting (w : ℕ) : SelfDelimiting (· < 256 ^ w) (be w) := by
  refine SelfDelimiting.ofLength (fun n _ => be_length w n) fun n n' hn hn' heq => ?_
  rw [← toNat_be hn, ← toNat_be hn', heq]

/-- A number is as long as its tag says, and is coded as it is. -/
theorem encData_of_width {tag : UInt8} {w : ℕ} (hw : width tag = some w) {data : Bytes}
    (hdata : data.length = w) : encData tag data = data := by
  rw [width] at hw
  rw [encData]
  by_cases h8 : tag = tagU8
  · rw [if_pos h8, Option.some_inj] at hw
    rw [if_pos h8, List.take_of_length_le (by omega)]
  · rw [if_neg h8] at hw ⊢
    by_cases h32 : tag = tagU32
    · rw [if_pos (.inl h32)]
    · rw [if_neg h32] at hw
      by_cases h64 : tag = tagU64 ∨ tag = tagF64
      · rw [if_pos (.inr h64)]
      · rw [if_neg h64] at hw
        exact absurd hw (by simp)

/-- A text is coded behind its length. -/
theorem encData_of_text {tag : UInt8} (htag : tag = tagBytes ∨ tag = tagString) (data : Bytes) :
    encData tag data = be 4 data.length ++ data := by
  rcases htag with rfl | rfl <;> rfl

theorem encData_selfDelimiting (tag : UInt8) :
    SelfDelimiting (fun data => Fits (tag, data)) (encData tag) := by
  intro data data' rest rest' hdata hdata' heq
  cases hw : width tag with
  | some w =>
    have hfits : ∀ d, Fits (tag, d) → d.length = w := by
      intro d hd
      simpa only [Fits, hw] using hd
    rw [encData_of_width hw (hfits data hdata), encData_of_width hw (hfits data' hdata')] at heq
    refine List.append_inj heq ?_
    rw [hfits data hdata, hfits data' hdata']
  | none =>
    have hfits : ∀ d, Fits (tag, d) →
        (tag = tagBytes ∨ tag = tagString) ∧ d.length < 256 ^ 4 := by
      intro d hd
      simpa only [Fits, hw] using hd
    obtain ⟨htag, hlen⟩ := hfits data hdata
    obtain ⟨_, hlen'⟩ := hfits data' hdata'
    rw [encData_of_text htag, encData_of_text htag] at heq
    exact SelfDelimiting.lengthPrefixed (be_selfDelimiting 4) _ _ _ _ hlen hlen' heq

/-- No field starts with the end tag. -/
theorem ne_tagEnd_of_fits {field : UInt8 × Bytes} (h : Fits field) : field.1 ≠ tagEnd := by
  intro hend
  have hwidth : width tagEnd = none := rfl
  simp only [Fits, hend, hwidth] at h
  obtain ⟨htag | htag, _⟩ := h
  · exact absurd htag (by decide)
  · exact absurd htag (by decide)

/-! ### Payloads -/

/-- **A payload tells its fields** and where it ends. -/
theorem enc_selfDelimiting : SelfDelimiting (fun fields => ∀ f ∈ fields, Fits f) enc := by
  have hfields : SelfDelimiting Fits fun field : UInt8 × Bytes =>
      field.1 :: encData field.1 field.2 :=
    SelfDelimiting.tagged fun tag => encData_selfDelimiting tag
  refine hfields.marked fun field hfield => ⟨_, _, rfl, ?_⟩
  exact ne_tagEnd_of_fits hfield

/-- **No payload is the beginning of another one**: whatever follows, the bytes of a payload
tell its fields and where it ends, as long as every field fits. -/
theorem enc_append_inj {fields fields' : List (UInt8 × Bytes)} (h : ∀ f ∈ fields, Fits f)
    (h' : ∀ f ∈ fields', Fits f) {rest rest' : Bytes} :
    enc fields ++ rest = enc fields' ++ rest' ↔ fields = fields' ∧ rest = rest' :=
  enc_selfDelimiting.eq_iff h h'

/-- The error of a missing key is not its first two fields with other bytes behind them. -/
theorem enc_append_inj_error :
    enc [u8Field 0x40, u32Field 0, stringField [107]]
      ≠ enc [u8Field 0x40, u32Field 0] ++ [0x08, 0, 0] := by
  intro h
  have hfields := ((@enc_append_inj [u8Field 0x40, u32Field 0, stringField [107]]
    [u8Field 0x40, u32Field 0] (by decide) (by decide) [] [0x08, 0, 0]).mp
    ((List.append_nil _).trans h)).1
  exact absurd (congrArg List.length hfields) (by decide)

/-! ### The payloads of the binary -/

/-- `enc` of the server binary, which has no tag for floating-point numbers. -/
def binEnc (fields : List (UInt8 × Bytes)) : Bytes :=
  (fields.flatMap fun field =>
    field.1 ::
      if field.1 = tagU8 then field.2.take 1
      else if field.1 = tagU32 ∨ field.1 = tagU64 then field.2
      else if field.1 = tagBytes ∨ field.1 = tagString then be 4 field.2.length ++ field.2
      else []) ++ [tagEnd]

/-- The binary and the handler build the same payloads, as long as there are no scores. -/
theorem binEnc_eq_enc {fields : List (UInt8 × Bytes)} (h : ∀ f ∈ fields, f.1 ≠ tagF64) :
    binEnc fields = enc fields := by
  rw [binEnc, enc]
  congr 1
  refine List.flatMap_congr fun field hfield => ?_
  have hf64 : field.1 ≠ tagF64 := h field hfield
  simp only [hf64, or_false]

end Uldb
