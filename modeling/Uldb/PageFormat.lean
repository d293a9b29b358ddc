/-
The binary page format (`Page::serialize` and `Page::deserialize`).

The three sizes of the header are 32-bit casts.  `Fits` collects the limits
under which no cast truncates; within them

* `deserialize_serialize` — a page file decodes to the records of its page;
* `deserialize_of_prefix` — a page file cut short is rejected as invalid data,
  so `load_all` skips it.

Outside the limits the header disagrees with the body, and the record count
assertion at the end of `deserialize` can fail (`PageFailure.assertionFailed`).
-/
import Uldb.Page

namespace Uldb

open BigEndian

/-- How `deserialize` fails: an `InvalidData` error with its text, or the
failed assertion on the record count, which is a panic. -/
inductive PageFailure where
  | invalidData (msg : String)
  | assertionFailed
  deriving DecidableEq, Repr

/-- The lengths of a record fit its header. -/
def PageRecord.Fits (r : PageRecord) : Prop := r.key.length < 2 ^ 16 ∧ r.value.length < 2 ^ 32

namespace Page

/-- `b"ULPG"` -/
def pageMagic : Bytes := [85, 76, 80, 71]

def pageVersion : UInt8 := 1

/-- `b"ULRC"` -/
def recordMagic : Bytes := [85, 76, 82, 67]

/-- One record of the page body. -/
def recordBytes (r : PageRecord) : Bytes :=
  recordMagic ++ (be 2 r.key.length ++ (be 4 r.value.length ++
    (r.key ++ (r.value ++ [if r.tombstone then 1 else 0]))))

def body (p : Page) : Bytes := p.records.flatMap recordBytes

/-- The stored form of the body: compressed where that is smaller, with the
32-bit sizes of the header. -/
def stored [Codec] (p : Page) : Bytes × ℕ :=
  if (Codec.deflate p.body).length % 2 ^ 32 < p.body.length % 2 ^ 32 then
    (Codec.deflate p.body, (Codec.deflate p.body).length % 2 ^ 32)
  else (p.body, p.body.length % 2 ^ 32)

/-- The page file.  Writing into a vector does not fail. -/
def serialize [Codec] (p : Page) : Bytes :=
  pageMagic ++ ([pageVersion] ++ (be 4 p.records.length ++ (be 4 p.body.length ++
    (be 4 p.stored.2 ++ p.stored.1))))

/-- One turn of the record loop: the record and the bytes after it, `none` where
the loop breaks off. -/
def parseRecord (body : Bytes) : Except PageFailure (Option (PageRecord × Bytes)) :=
  if body.length < 4 then .ok none
  else if body.take 4 ≠ recordMagic then .error (.invalidData "bad record magic")
  else
    let rest := body.drop 4
    if rest.length < 6 then .ok none
    else
      let keyLen := toNat (rest.take 2)
      let valLen := toNat ((rest.drop 2).take 4)
      let rest := rest.drop 6
      if rest.length < keyLen + valLen + 1 then .ok none
      else
        let key := rest.take keyLen
        let value := (rest.drop keyLen).take valLen
        let tombstone := rest[keyLen + valLen]? ≠ some 0
        .ok (some (⟨key, value, tombstone⟩, rest.drop (keyLen + valLen + 1)))

/-- The record loop.  Every turn consumes bytes, so the length is enough fuel. -/
def parseRecords : ℕ → Bytes → Except PageFailure (List PageRecord)
  | 0, _ => .ok []
  | fuel + 1, body => do
    match ← parseRecord body with
    | none => .ok []
    | some (r, rest) =>
      let rs ← parseRecords fuel rest
      .ok (r :: rs)

/-- The body of a page file, decompressed if it was compressed. -/
def decodeBody [Codec] (raw : Bytes) (uncompressedSize compressedSize : ℕ) :
    Except PageFailure Bytes :=
  if compressedSize < uncompressedSize then
    match Codec.inflate raw with
    | some body => .ok body
    | none => .error (.invalidData "corrupt deflate stream")
  else .ok raw

def deserialize [Codec] (data : Bytes) : Except PageFailure Page :=
  if data.length < 17 then .error (.invalidData "page too short")
  else if data.take 4 ≠ pageMagic then .error (.invalidData "bad page magic")
  else
    let recordCount := toNat ((data.drop 5).take 4)
    let uncompressedSize := toNat ((data.drop 9).take 4)
    let compressedSize := toNat ((data.drop 13).take 4)
    if data.length < 17 + compressedSize then .error (.invalidData "page truncated")
    else do
      let body ← decodeBody ((data.drop 17).take compressedSize) uncompressedSize compressedSize
      let records ← parseRecords body.length body
      if records.length = recordCount then .ok ⟨records, 0⟩ else .error .assertionFailed

/-! ### The record loop inverts the record encoding -/

theorem recordBytes_length (r : PageRecord) :
    (recordBytes r).length = 11 + r.key.length + r.value.length := by
  simp [recordBytes, recordMagic]
  omega

/-- A record turn on a body that begins with a record header. -/
theorem parseRecord_header {keyLen valLen tail : Bytes} (hkey : keyLen.length = 2)
    (hval : valLen.length = 4) :
    parseRecord (recordMagic ++ (keyLen ++ (valLen ++ tail)))
      = if tail.length < toNat keyLen + toNat valLen + 1 then .ok none
        else .ok (some (⟨tail.take (toNat keyLen), (tail.drop (toNat keyLen)).take (toNat valLen),
          tail[toNat keyLen + toNat valLen]? ≠ some 0⟩,
          tail.drop (toNat keyLen + toNat valLen + 1))) := by
  have hmagic : (recordMagic ++ (keyLen ++ (valLen ++ tail))).take 4 = recordMagic :=
    List.take_left' rfl
  have hdrop : (recordMagic ++ (keyLen ++ (valLen ++ tail))).drop 4
      = keyLen ++ (valLen ++ tail) := List.drop_left' rfl
  have hdrop2 : (keyLen ++ (valLen ++ tail)).drop 2 = valLen ++ tail := List.drop_left' hkey
  have hdrop6 : (keyLen ++ (valLen ++ tail)).drop 6 = tail := by
    rw [← List.append_assoc]
    exact List.drop_left' (by simp [hkey, hval])
  have hlen : ¬(recordMagic ++ (keyLen ++ (valLen ++ tail))).length < 4 := by
    simp [recordMagic]
  have hlen6 : ¬(keyLen ++ (valLen ++ tail)).length < 6 := by
    rw [List.length_append, List.length_append, hkey, hval]
    omega
  rw [parseRecord, if_neg hlen, if_neg (not_not.mpr hmagic)]
  simp only [hdrop, if_neg hlen6, hdrop2, hdrop6, List.take_left' hkey, List.take_left' hval]

/-- The fields of a record in order; any flag but zero marks a tombstone. -/
theorem parseRecord_fields {key value : Bytes} (hkey : key.length < 2 ^ 16)
    (hval : value.length < 2 ^ 32) (flag : UInt8) (rest : Bytes) :
    parseRecord (recordMagic ++ (be 2 key.length ++ (be 4 value.length ++
        (key ++ (value ++ (flag :: rest)))))) = .ok (some (⟨key, value, flag ≠ 0⟩, rest)) := by
  have hk : toNat (be 2 key.length) = key.length := toNat_be (by simpa using hkey)
  have hv : toNat (be 4 value.length) = value.length := toNat_be (by simpa using hval)
  have hlen : ¬(key ++ (value ++ (flag :: rest))).length < key.length + value.length + 1 := by
    simp only [List.length_append, List.length_cons]
    omega
  have htake : (key ++ (value ++ (flag :: rest))).take key.length = key := List.take_left' rfl
  have hdrop : (key ++ (value ++ (flag :: rest))).drop key.length = value ++ (flag :: rest) :=
    List.drop_left' rfl
  have hflag : (key ++ (value ++ (flag :: rest)))[key.length + value.length]? = some flag := by
    rw [List.getElem?_append_right (by omega), Nat.add_sub_cancel_left,
      List.getElem?_append_right (by omega), Nat.sub_self]
    rfl
  have hrest : (key ++ (value ++ (flag :: rest))).drop (key.length + value.length + 1) = rest := by
    rw [Nat.add_assoc, ← List.drop_drop, hdrop, ← List.drop_drop, List.drop_left' rfl]
    rfl
  rw [parseRecord_header (be_length _ _) (be_length _ _), hk, hv, if_neg hlen, htake, hdrop,
    List.take_left' rfl, hflag, hrest]
  simp

theorem parseRecord_recordBytes {r : PageRecord} (hr : r.Fits) (rest : Bytes) :
    parseRecord (recordBytes r ++ rest) = .ok (some (r, rest)) := by
  obtain ⟨hkey, hval⟩ := hr
  have hsplit : recordBytes r ++ rest = recordMagic ++ (be 2 r.key.length ++
      (be 4 r.value.length ++ (r.key ++ (r.value ++ ((if r.tombstone then 1 else 0) :: rest))))) := by
    simp [recordBytes]
  have hflag : decide ((if r.tombstone then (1 : UInt8) else 0) ≠ 0) = r.tombstone := by
    cases r.tombstone <;> rfl
  rw [hsplit, parseRecord_fields hkey hval, hflag]

theorem parseRecords_flatMap {rs : List PageRecord} (hrs : ∀ r ∈ rs, r.Fits) {fuel : ℕ}
    (hfuel : rs.length ≤ fuel) : parseRecords fuel (rs.flatMap recordBytes) = .ok rs := by
  induction rs generalizing fuel with
  | nil =>
    rcases fuel with _ | fuel
    · rfl
    · rfl
  | cons r rs ih =>
    obtain ⟨fuel, rfl⟩ : ∃ f, fuel = f + 1 := ⟨fuel - 1, by simp at hfuel; omega⟩
    rw [List.flatMap_cons, parseRecords, parseRecord_recordBytes (hrs r List.mem_cons_self)]
    simp only [bind, Except.bind]
    rw [ih (fun r' hr' => hrs r' (List.mem_cons_of_mem _ hr')) (by simpa using hfuel)]

/-! ### Round trip and truncation -/

/-- The limits of the page format: no size in a header is truncated. -/
structure Fits [Codec] (p : Page) : Prop where
  records_fit : ∀ r ∈ p.records, r.Fits
  body_lt : p.body.length < 2 ^ 32
  deflate_lt : (Codec.deflate p.body).length < 2 ^ 32

theorem length_le_flatMap (rs : List PageRecord) :
    rs.length ≤ (rs.flatMap recordBytes).length := by
  induction rs with
  | nil => simp
  | cons r rs ih =>
    rw [List.flatMap_cons, List.length_append, recordBytes_length, List.length_cons]
    omega

variable [Codec] {p : Page}

/-- The header of a page within the limits: its sizes, and the stored bytes. -/
theorem Fits.stored_eq (hp : p.Fits) :
    p.stored = if (Codec.deflate p.body).length < p.body.length then
        (Codec.deflate p.body, (Codec.deflate p.body).length)
      else (p.body, p.body.length) := by
  rw [stored, Nat.mod_eq_of_lt hp.deflate_lt, Nat.mod_eq_of_lt hp.body_lt]

theorem Fits.stored_length (hp : p.Fits) : p.stored.1.length = p.stored.2 := by
  rw [hp.stored_eq]
  split <;> rfl

theorem Fits.stored_lt (hp : p.Fits) : p.stored.2 < 2 ^ 32 := by
  rw [hp.stored_eq]
  split
  · exact hp.deflate_lt
  · exact hp.body_lt

theorem serialize_length (p : Page) : p.serialize.length = 17 + p.stored.1.length := by
  simp [serialize, pageMagic]
  omega

/-- The fields of a page file, at their offsets. -/
theorem serialize_fields (p : Page) :
    p.serialize.take 4 = pageMagic ∧
      (p.serialize.drop 5).take 4 = be 4 p.records.length ∧
      (p.serialize.drop 9).take 4 = be 4 p.body.length ∧
      (p.serialize.drop 13).take 4 = be 4 p.stored.2 ∧
      p.serialize.drop 17 = p.stored.1 := by
  have h5 : p.serialize.drop 5 = be 4 p.records.length ++ (be 4 p.body.length ++
      (be 4 p.stored.2 ++ p.stored.1)) := rfl
  have h9 : p.serialize.drop 9 = be 4 p.body.length ++ (be 4 p.stored.2 ++ p.stored.1) := by
    rw [show 9 = 5 + 4 from rfl, ← List.drop_drop, h5, List.drop_left' (be_length 4 _)]
  have h13 : p.serialize.drop 13 = be 4 p.stored.2 ++ p.stored.1 := by
    rw [show 13 = 9 + 4 from rfl, ← List.drop_drop, h9, List.drop_left' (be_length 4 _)]
  have h17 : p.serialize.drop 17 = p.stored.1 := by
    rw [show 17 = 13 + 4 from rfl, ← List.drop_drop, h13, List.drop_left' (be_length 4 _)]
  refine ⟨rfl, ?_, ?_, ?_, h17⟩
  · rw [h5, List.take_left' (be_length 4 _)]
  · rw [h9, List.take_left' (be_length 4 _)]
  · rw [h13, List.take_left' (be_length 4 _)]

theorem decodeBody_stored (hflate : Codec.Lossless) (hp : p.Fits) :
    decodeBody p.stored.1 p.body.length p.stored.2 = .ok p.body := by
  rw [hp.stored_eq]
  by_cases hlt : (Codec.deflate p.body).length < p.body.length
  · rw [if_pos hlt, decodeBody, if_pos hlt, hflate p.body]
  · rw [if_neg hlt, decodeBody, if_neg (lt_irrefl _)]

/-- **Round trip**: a page file decodes to the records of its page. -/
theorem deserialize_serialize (hflate : Codec.Lossless) (hp : p.Fits) :
    deserialize p.serialize = .ok ⟨p.records, 0⟩ := by
  obtain ⟨hmagic, hcount, hbody, hstored, hraw⟩ := serialize_fields p
  have hlen := serialize_length p
  have hn : toNat (be 4 p.records.length) = p.records.length :=
    toNat_be (lt_of_le_of_lt (length_le_flatMap p.records) hp.body_lt)
  have hb : toNat (be 4 p.body.length) = p.body.length := toNat_be (by simpa using hp.body_lt)
  have hs : toNat (be 4 p.stored.2) = p.stored.2 := toNat_be (by simpa using hp.stored_lt)
  rw [deserialize, if_neg (by omega), if_neg (by rw [hmagic]; simp)]
  simp only [hcount, hbody, hstored, hraw, hn, hb, hs]
  rw [if_neg (by rw [hlen, hp.stored_length]; omega),
    List.take_of_length_le (le_of_eq hp.stored_length), decodeBody_stored hflate hp]
  simp only [bind, Except.bind]
  rw [show p.body = p.records.flatMap recordBytes from rfl,
    parseRecords_flatMap hp.records_fit (length_le_flatMap p.records)]
  simp

/-- **Truncation**: a page file cut short is invalid data. -/
theorem deserialize_of_prefix (hp : p.Fits) {data : Bytes} (hpre : data <+: p.serialize)
    (hne : data ≠ p.serialize) : ∃ msg, deserialize data = .error (.invalidData msg) := by
  obtain ⟨hmagic, _, _, hstored, _⟩ := serialize_fields p
  have hlen := serialize_length p
  have hlt : data.length < p.serialize.length := by
    refine lt_of_le_of_ne hpre.length_le fun heq => hne (hpre.eq_of_length heq)
  by_cases h17 : data.length < 17
  · exact ⟨_, by rw [deserialize, if_pos h17]⟩
  · -- The header is complete, and asks for more bytes than there are.
    obtain ⟨tail, htail⟩ := hpre
    have hmagic' : data.take 4 = pageMagic := by
      rw [← hmagic, ← htail, List.take_append_of_le_length (by omega)]
    have hstored' : (data.drop 13).take 4 = be 4 p.stored.2 := by
      rw [← hstored, ← htail, List.drop_append_of_le_length (by omega),
        List.take_append_of_le_length (by simp; omega)]
    have hs : toNat (be 4 p.stored.2) = p.stored.2 := toNat_be (by simpa using hp.stored_lt)
    refine ⟨"page truncated", ?_⟩
    rw [deserialize, if_neg h17, if_neg (by rw [hmagic']; simp)]
    simp only [hstored', hs]
    rw [if_pos (by rw [← hp.stored_length]; omega)]

end Page

end Uldb
