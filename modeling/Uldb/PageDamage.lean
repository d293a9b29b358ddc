/-
Damaged page files (`storage/page.rs`, `storage/page_store.rs`).

Every slice that `deserialize` takes is in bounds, but at its end it asserts that it has read
as many records as the header says, and the loop before it ends without an error where the last
record is cut short.

* `deserializeAt_eq` — no index is out of bounds;
* `parseRecords_iff` — the bodies that the record loop reads to their end;
* `deserialize_returns_iff`, `loadAll_returns_iff` — the files that do not fail the assertion.
-/
import Uldb.Durability
import Uldb.PageFiles

namespace Uldb

open BigEndian

namespace Page

/-! ### Records as they are stored -/

/-- A record of a page body; any flag but zero marks a tombstone. -/
structure StoredRecord where
  key : Bytes
  value : Bytes
  flag : UInt8
  deriving DecidableEq, Repr

namespace StoredRecord

/-- The lengths fit their fields. -/
def Fits (r : StoredRecord) : Prop := r.key.length < 2 ^ 16 ∧ r.value.length < 2 ^ 32

def bytes (r : StoredRecord) : Bytes :=
  recordMagic ++ (be 2 r.key.length ++ (be 4 r.value.length ++ (r.key ++ (r.value ++ [r.flag]))))

/-- The record it is read as. -/
def record (r : StoredRecord) : PageRecord := ⟨r.key, r.value, r.flag ≠ 0⟩

theorem bytes_length (r : StoredRecord) :
    r.bytes.length = 11 + r.key.length + r.value.length := by
  simp [bytes, recordMagic]
  omega

end StoredRecord

/-- Less than a record, and nothing that the loop takes for a wrong magic number. -/
def Incomplete (rest : Bytes) : Prop :=
  rest.length < 4 ∨ ∃ r : StoredRecord, r.Fits ∧ rest <+: r.bytes ∧ rest.length < r.bytes.length

/-- A header and enough bytes behind it are a record. -/
theorem exists_stored {keyLen valLen data : Bytes} (hkey : keyLen.length = 2)
    (hval : valLen.length = 4) (hdata : data.length = toNat keyLen + toNat valLen + 1) :
    ∃ r : StoredRecord, r.Fits ∧ r.bytes = recordMagic ++ (keyLen ++ (valLen ++ data)) := by
  have hk := toNat_lt keyLen
  have hv := toNat_lt valLen
  rw [hkey] at hk
  rw [hval] at hv
  have hlast : toNat keyLen + toNat valLen < data.length := by omega
  refine ⟨⟨data.take (toNat keyLen), (data.drop (toNat keyLen)).take (toNat valLen),
    data[toNat keyLen + toNat valLen]⟩, ?_, ?_⟩
  · constructor
    · show (data.take (toNat keyLen)).length < _
      rw [List.length_take]
      omega
    · show ((data.drop (toNat keyLen)).take (toNat valLen)).length < _
      rw [List.length_take]
      omega
  · have hkeyLen : (data.take (toNat keyLen)).length = toNat keyLen := by
      rw [List.length_take]
      omega
    have hvalLen : ((data.drop (toNat keyLen)).take (toNat valLen)).length = toNat valLen := by
      rw [List.length_take, List.length_drop]
      omega
    have hbe : be 2 (toNat keyLen) = keyLen := hkey ▸ be_toNat keyLen
    have hbe' : be 4 (toNat valLen) = valLen := hval ▸ be_toNat valLen
    have hflag : data.drop (toNat keyLen + toNat valLen)
        = [data[toNat keyLen + toNat valLen]] := by
      rw [List.drop_eq_getElem_cons hlast, List.drop_eq_nil_of_le (by omega)]
    -- the flag is what is left behind the key and the value
    rw [StoredRecord.bytes, hkeyLen, hvalLen, hbe, hbe', ← hflag, ← List.drop_drop,
      List.take_append_drop, List.take_append_drop]

theorem parseRecord_bytes {r : StoredRecord} (hr : r.Fits) (rest : Bytes) :
    parseRecord (r.bytes ++ rest) = .ok (some (r.record, rest)) := by
  obtain ⟨hkey, hval⟩ := hr
  have hsplit : r.bytes ++ rest = recordMagic ++ (be 2 r.key.length ++ (be 4 r.value.length ++
      (r.key ++ (r.value ++ (r.flag :: rest))))) := by
    simp [StoredRecord.bytes]
  rw [hsplit, parseRecord_fields hkey hval]
  rfl

/-- What lacks the last bytes of a record. -/
theorem incomplete_of_split {keyLen valLen : Bytes} (hkey : keyLen.length = 2)
    (hval : valLen.length = 4) {data tail more : Bytes}
    (hdata : data.length = toNat keyLen + toNat valLen + 1)
    (hsplit : tail ++ more = keyLen ++ (valLen ++ data)) (hmore : 0 < more.length) :
    Incomplete (recordMagic ++ tail) := by
  obtain ⟨r, hr, hbytes⟩ := exists_stored hkey hval hdata
  have hprefix : recordMagic ++ tail ++ more = r.bytes := by
    rw [hbytes, List.append_assoc, hsplit]
  refine .inr ⟨r, hr, ⟨more, hprefix⟩, ?_⟩
  rw [← hprefix]
  simp only [List.length_append]
  omega

/-- Not even the two lengths are there. -/
theorem incomplete_of_short {tail : Bytes} (htail : tail.length < 6) :
    Incomplete (recordMagic ++ tail) := by
  set header : Bytes := tail ++ List.replicate (6 - tail.length) 0 with hheader
  have hlen : header.length = 6 := by
    rw [hheader, List.length_append, List.length_replicate]
    omega
  have hkey : (header.take 2).length = 2 := by
    rw [List.length_take]
    omega
  have hval : (header.drop 2).length = 4 := by
    rw [List.length_drop]
    omega
  set n := toNat (header.take 2) + toNat (header.drop 2) + 1 with hn
  have hsplit : tail ++ (List.replicate (6 - tail.length) 0 ++ List.replicate n 0)
      = header.take 2 ++ (header.drop 2 ++ List.replicate n 0) := by
    rw [← List.append_assoc, ← List.append_assoc, List.take_append_drop]
  refine incomplete_of_split hkey hval (by rw [List.length_replicate]) hsplit ?_
  rw [List.length_append, List.length_replicate]
  omega

theorem parseRecord_short {tail : Bytes} (htail : tail.length < 6) :
    parseRecord (recordMagic ++ tail) = .ok none := by
  have hlen : ¬(recordMagic ++ tail).length < 4 := by simp [recordMagic]
  have hmagic : (recordMagic ++ tail).take 4 = recordMagic := List.take_left' rfl
  have hdrop : (recordMagic ++ tail).drop 4 = tail := List.drop_left' rfl
  rw [parseRecord, if_neg hlen, if_neg (not_not.mpr hmagic)]
  simp only [hdrop, if_pos htail]

/-- The three outcomes of a record turn: the body is too short for a record, it begins with
one, or its magic number is wrong. -/
theorem parseRecord_cases (body : Bytes) :
    (Incomplete body ∧ parseRecord body = .ok none) ∨
    (∃ (r : StoredRecord) (rest : Bytes), r.Fits ∧ body = r.bytes ++ rest) ∨
    4 ≤ body.length ∧ body.take 4 ≠ recordMagic ∧
      parseRecord body = .error (.invalidData "bad record magic") := by
  by_cases hlen : body.length < 4
  · refine .inl ⟨.inl hlen, ?_⟩
    rw [parseRecord, if_pos hlen]
  by_cases hmagic : body.take 4 ≠ recordMagic
  · refine .inr (.inr ⟨by omega, hmagic, ?_⟩)
    rw [parseRecord, if_neg hlen, if_pos hmagic]
  have hbody : body = recordMagic ++ body.drop 4 := by
    rw [← not_not.mp hmagic, List.take_append_drop]
  generalize body.drop 4 = tail at hbody
  subst hbody
  by_cases hshort : tail.length < 6
  · exact .inl ⟨incomplete_of_short hshort, parseRecord_short hshort⟩
  -- the two lengths are there, and then the record or less
  have hkey : (tail.take 2).length = 2 := by
    rw [List.length_take]
    omega
  have hval : ((tail.drop 2).take 4).length = 4 := by
    rw [List.length_take, List.length_drop]
    omega
  have htail : tail = tail.take 2 ++ ((tail.drop 2).take 4 ++ tail.drop 6) := by
    rw [show tail.drop 6 = (tail.drop 2).drop 4 by rw [List.drop_drop], List.take_append_drop,
      List.take_append_drop]
  generalize tail.take 2 = keyLen at hkey htail
  generalize (tail.drop 2).take 4 = valLen at hval htail
  generalize tail.drop 6 = data at htail
  subst htail
  set n := toNat keyLen + toNat valLen + 1 with hn
  by_cases hdata : data.length < n
  · refine .inl ⟨?_, by rw [parseRecord_header hkey hval, if_pos hdata]⟩
    have hsplit : keyLen ++ (valLen ++ data) ++ List.replicate (n - data.length) 0
        = keyLen ++ (valLen ++ (data ++ List.replicate (n - data.length) 0)) := by
      rw [List.append_assoc, List.append_assoc]
    refine incomplete_of_split hkey hval ?_ hsplit ?_
    · rw [List.length_append, List.length_replicate]
      omega
    · rw [List.length_replicate]
      omega
  · obtain ⟨r, hr, hbytes⟩ := exists_stored hkey hval
      (show (data.take n).length = n by rw [List.length_take]; omega)
    refine .inr (.inl ⟨r, data.drop n, hr, ?_⟩)
    rw [hbytes, List.append_assoc, List.append_assoc, List.append_assoc, List.take_append_drop]

/-- A turn on less than a record ends the loop. -/
theorem parseRecord_of_incomplete {body : Bytes} (h : Incomplete body) :
    parseRecord body = .ok none := by
  rcases parseRecord_cases body with ⟨_, hnone⟩ | ⟨r', rest, hr', rfl⟩ | ⟨hlen, hmagic, _⟩
  · exact hnone
  · exfalso
    rcases h with hlen | ⟨r, hr, ⟨more, hmore⟩, hlen⟩
    · rw [List.length_append, StoredRecord.bytes_length] at hlen
      omega
    · -- the longer record has the same lengths in its header
      have hlong := parseRecord_bytes hr []
      rw [List.append_nil, ← hmore, List.append_assoc, parseRecord_bytes hr', Except.ok.injEq,
        Option.some_inj, Prod.mk.injEq] at hlong
      obtain ⟨_, hnil⟩ := hlong
      obtain ⟨rfl, rfl⟩ := List.append_eq_nil_iff.mp hnil
      rw [List.append_nil] at hmore
      rw [hmore] at hlen
      exact absurd hlen (Nat.lt_irrefl _)
  · exfalso
    rcases h with hlt | ⟨r, hr, ⟨more, hmore⟩, _⟩
    · omega
    · apply hmagic
      rw [← List.take_append_of_le_length hlen, hmore, StoredRecord.bytes]
      exact List.take_left' rfl

/-- **The bodies that the record loop reads to their end**: complete records, and less than one
behind them. -/
theorem parseRecords_iff {fuel : ℕ} {body : Bytes} (hfuel : body.length ≤ fuel)
    {records : List PageRecord} : parseRecords fuel body = .ok records ↔
      ∃ (rs : List StoredRecord) (rest : Bytes), (∀ r ∈ rs, r.Fits) ∧ Incomplete rest ∧
        body = rs.flatMap StoredRecord.bytes ++ rest ∧ records = rs.map StoredRecord.record := by
  -- the induction is on the fuel: a record that is read leaves a shorter body
  induction fuel generalizing body records with
  | zero =>
    obtain rfl : body = [] := List.eq_nil_of_length_eq_zero (by omega)
    constructor
    · intro h
      rw [parseRecords, Except.ok.injEq] at h
      exact ⟨[], [], by simp, .inl (by simp), rfl, h.symm⟩
    · rintro ⟨rs, rest, _, _, hbody, rfl⟩
      obtain ⟨hnil, _⟩ := List.append_eq_nil_iff.mp hbody.symm
      cases rs with
      | nil => rfl
      | cons r rs => exact absurd hnil (by simp [StoredRecord.bytes, recordMagic])
  | succ fuel ih =>
    rw [parseRecords]
    constructor
    · intro h
      rcases parseRecord_cases body with ⟨hrest, hnone⟩ | ⟨r, rest, hr, rfl⟩ | ⟨_, _, herr⟩
      · rw [hnone] at h
        obtain rfl : records = [] := (Except.ok.inj h).symm
        exact ⟨[], body, by simp, hrest, rfl, rfl⟩
      · rw [parseRecord_bytes hr] at h
        cases hloop : parseRecords fuel rest with
        | error failure =>
          simp only [hloop, bind, Except.bind] at h
          exact absurd h (by simp)
        | ok records' =>
          simp only [hloop, bind, Except.bind, Except.ok.injEq] at h
          rw [List.length_append, StoredRecord.bytes_length] at hfuel
          obtain ⟨rs, rest', hrs, hrest', rfl, rfl⟩ := (ih (by omega)).mp hloop
          refine ⟨r :: rs, rest', ?_, hrest', ?_, h.symm⟩
          · rintro r' (_ | ⟨_, hr'⟩)
            · exact hr
            · exact hrs r' hr'
          · rw [List.flatMap_cons, List.append_assoc]
      · rw [herr] at h
        exact absurd h (by simp [bind, Except.bind])
    · rintro ⟨rs, rest, hrs, hrest, rfl, rfl⟩
      cases rs with
      | nil =>
        rw [List.flatMap_nil, List.nil_append, parseRecord_of_incomplete hrest]
        rfl
      | cons r rs =>
        have hloop : parseRecords fuel (rs.flatMap StoredRecord.bytes ++ rest)
            = .ok (rs.map StoredRecord.record) := by
          refine (ih ?_).mpr
            ⟨rs, rest, fun r' hr' => hrs r' (List.mem_cons_of_mem _ hr'), hrest, rfl, rfl⟩
          rw [List.flatMap_cons, List.length_append, List.length_append,
            StoredRecord.bytes_length] at hfuel
          rw [List.length_append]
          omega
        rw [List.flatMap_cons, List.append_assoc, parseRecord_bytes (hrs r List.mem_cons_self)]
        simp only [hloop, bind, Except.bind, List.map_cons]

/-! ### Checked indices -/

/-- `&data[start..start + len]`, which panics where it is out of bounds. -/
def slice (data : Bytes) (start len : ℕ) : Option Bytes :=
  if start + len ≤ data.length then some ((data.drop start).take len) else none

/-- The record loop by the position in the body; none where an index is out of bounds. -/
def recordsAt (body : Bytes) : ℕ → ℕ → Option (Except PageFailure (List PageRecord))
  | 0, _ => some (.ok [])
  | fuel + 1, pos =>
    if body.length ≤ pos then some (.ok [])
    else if body.length < pos + 4 then some (.ok [])
    else do
      let magic ← slice body pos 4
      if magic ≠ recordMagic then some (.error (.invalidData "bad record magic"))
      else if body.length < pos + 4 + 6 then some (.ok [])
      else do
        let keyLen ← slice body (pos + 4) 2
        let valLen ← slice body (pos + 4 + 2) 4
        let pos := pos + 4 + 6
        if body.length < pos + toNat keyLen + toNat valLen + 1 then some (.ok [])
        else do
          let key ← slice body pos (toNat keyLen)
          let value ← slice body (pos + toNat keyLen) (toNat valLen)
          let flag ← body[pos + toNat keyLen + toNat valLen]?
          let rest ← recordsAt body fuel (pos + toNat keyLen + toNat valLen + 1)
          some (rest.map fun rs => ⟨key, value, flag ≠ 0⟩ :: rs)

/-- `deserialize` with its indices checked; none where one is out of bounds. -/
def deserializeAt [Codec] (data : Bytes) : Option (Except PageFailure Page) :=
  if data.length < 17 then some (.error (.invalidData "page too short"))
  else do
    let magic ← slice data 0 4
    if magic ≠ pageMagic then some (.error (.invalidData "bad page magic"))
    else do
      let _ ← data[4]?
      let recordCount ← slice data 5 4
      let uncompressedSize ← slice data 9 4
      let compressedSize ← slice data 13 4
      if data.length < 17 + toNat compressedSize then
        some (.error (.invalidData "page truncated"))
      else do
        let raw ← slice data 17 (toNat compressedSize)
        match decodeBody raw (toNat uncompressedSize) (toNat compressedSize) with
        | .error failure => some (.error failure)
        | .ok body => do
          match ← recordsAt body body.length 0 with
          | .error failure => some (.error failure)
          | .ok records =>
            some (if records.length = toNat recordCount then .ok ⟨records, 0⟩
              else .error .assertionFailed)

theorem slice_of_le {data : Bytes} {start len : ℕ} (h : start + len ≤ data.length) :
    slice data start len = some ((data.drop start).take len) := if_pos h

/-- **No index of the record loop is out of bounds.** -/
theorem recordsAt_eq (body : Bytes) (fuel pos : ℕ) :
    recordsAt body fuel pos = some (parseRecords fuel (body.drop pos)) := by
  induction fuel generalizing pos with
  | zero => rfl
  | succ fuel ih =>
    rw [recordsAt, parseRecords, parseRecord]
    have hlen : (body.drop pos).length = body.length - pos := List.length_drop
    by_cases hend : body.length ≤ pos
    · rw [if_pos hend, if_pos (show (body.drop pos).length < 4 by omega)]
      rfl
    by_cases hshort : body.length < pos + 4
    · rw [if_neg hend, if_pos hshort, if_pos (show (body.drop pos).length < 4 by omega)]
      rfl
    rw [if_neg hend, if_neg hshort, if_neg (show ¬(body.drop pos).length < 4 by omega),
      slice_of_le (show pos + 4 ≤ body.length by omega)]
    simp only [Option.bind_eq_bind, Option.bind_some]
    -- both check the mark, the two lengths and the room for the rest, in this order
    by_cases hmagic : (body.drop pos).take 4 ≠ recordMagic
    · rw [if_pos hmagic, if_pos hmagic]
      rfl
    rw [if_neg hmagic, if_neg hmagic, List.drop_drop]
    have hlen4 : (body.drop (pos + 4)).length = body.length - (pos + 4) := List.length_drop
    by_cases hhead : body.length < pos + 4 + 6
    · rw [if_pos hhead, if_pos (show (body.drop (pos + 4)).length < 6 by omega)]
      rfl
    rw [if_neg hhead, if_neg (show ¬(body.drop (pos + 4)).length < 6 by omega),
      slice_of_le (show pos + 4 + 2 ≤ body.length by omega),
      slice_of_le (show pos + 4 + 2 + 4 ≤ body.length by omega), List.drop_drop, List.drop_drop]
    simp only [Option.bind_some]
    -- from here on, only where the record's bytes start matters
    generalize toNat ((body.drop (pos + 4)).take 2) = keyLen
    generalize toNat ((body.drop (pos + 4 + 2)).take 4) = valLen
    generalize pos + 4 + 6 = start
    have hlen10 : (body.drop start).length = body.length - start := List.length_drop
    by_cases hrecord : body.length < start + keyLen + valLen + 1
    · rw [if_pos hrecord, if_pos (show (body.drop start).length < keyLen + valLen + 1 by omega)]
      rfl
    have hflag : start + keyLen + valLen < body.length := by omega
    rw [if_neg hrecord, if_neg (show ¬(body.drop start).length < keyLen + valLen + 1 by omega),
      slice_of_le (show start + keyLen ≤ body.length by omega),
      slice_of_le (show start + keyLen + valLen ≤ body.length by omega),
      List.getElem?_eq_getElem hflag, ih, List.drop_drop, List.drop_drop, List.getElem?_drop,
      ← Nat.add_assoc, List.getElem?_eq_getElem hflag, ← Nat.add_assoc, ← Nat.add_assoc]
    simp only [Option.bind_some]
    cases hloop : parseRecords fuel (body.drop (start + keyLen + valLen + 1)) with
    | error failure => simp [hloop, bind, Except.bind, Except.map]
    | ok rs => simp [hloop, bind, Except.bind, Except.map]

/-- **No index of `deserialize` is out of bounds.** -/
theorem deserializeAt_eq [Codec] (data : Bytes) :
    deserializeAt data = some (deserialize data) := by
  rw [deserializeAt, deserialize]
  by_cases hshort : data.length < 17
  · rw [if_pos hshort, if_pos hshort]
  rw [if_neg hshort, if_neg hshort, slice_of_le (show 0 + 4 ≤ data.length by omega),
    slice_of_le (show 5 + 4 ≤ data.length by omega),
    slice_of_le (show 9 + 4 ≤ data.length by omega),
    slice_of_le (show 13 + 4 ≤ data.length by omega),
    List.getElem?_eq_getElem (show 4 < data.length by omega)]
  simp only [Option.bind_eq_bind, Option.bind_some, List.drop_zero]
  by_cases hmagic : data.take 4 ≠ pageMagic
  · rw [if_pos hmagic, if_pos hmagic]
  rw [if_neg hmagic, if_neg hmagic]
  generalize toNat ((data.drop 5).take 4) = recordCount
  generalize toNat ((data.drop 9).take 4) = uncompressedSize
  generalize toNat ((data.drop 13).take 4) = compressedSize
  by_cases htrunc : data.length < 17 + compressedSize
  · rw [if_pos htrunc, if_pos htrunc]
  rw [if_neg htrunc, if_neg htrunc,
    slice_of_le (show 17 + compressedSize ≤ data.length by omega)]
  simp only [Option.bind_some]
  cases decodeBody ((data.drop 17).take compressedSize) uncompressedSize compressedSize with
  | error failure => rfl
  | ok body =>
    simp only [recordsAt_eq, List.drop_zero, Option.bind_some]
    cases hloop : parseRecords body.length body with
    | error failure => simp [hloop, bind, Except.bind]
    | ok records => simp [hloop, bind, Except.bind]

/-! ### The count of the records -/

/-- `deserialize` returns, with a page or an error. -/
def Returns [Codec] (data : Bytes) : Prop :=
  ∃ result, deserializeAt data = some result ∧ result ≠ .error .assertionFailed

/-- The body of a file whose header is accepted. -/
def HasBody [Codec] (data body : Bytes) : Prop :=
  17 ≤ data.length ∧ data.take 4 = pageMagic ∧
    17 + toNat ((data.drop 13).take 4) ≤ data.length ∧
    decodeBody ((data.drop 17).take (toNat ((data.drop 13).take 4)))
      (toNat ((data.drop 9).take 4)) (toNat ((data.drop 13).take 4)) = .ok body

/-- Where the body is complete records and less than one more, their number is the one in the
header. -/
def WellCounted [Codec] (data : Bytes) : Prop :=
  ∀ body, HasBody data body → ∀ (rs : List StoredRecord) (rest : Bytes), (∀ r ∈ rs, r.Fits) →
    Incomplete rest → body = rs.flatMap StoredRecord.bytes ++ rest →
      rs.length = toNat ((data.drop 5).take 4)

theorem decodeBody_ne_assertion [Codec] (raw : Bytes) (uncompressedSize compressedSize : ℕ) :
    decodeBody raw uncompressedSize compressedSize ≠ .error .assertionFailed := by
  rw [decodeBody]
  split
  · split
    · simp
    · simp
  · simp

theorem parseRecords_ne_assertion (fuel : ℕ) (body : Bytes) :
    parseRecords fuel body ≠ .error .assertionFailed := by
  induction fuel generalizing body with
  | zero => simp [parseRecords]
  | succ fuel ih =>
    rw [parseRecords]
    rcases parseRecord_cases body with ⟨_, hnone⟩ | ⟨r, rest, hr, rfl⟩ | ⟨_, _, herr⟩
    · rw [hnone]
      simp [bind, Except.bind]
    · rw [parseRecord_bytes hr]
      cases hloop : parseRecords fuel rest with
      | error failure =>
        simp only [hloop, bind, Except.bind]
        rw [← hloop]
        exact ih rest
      | ok records => simp [hloop, bind, Except.bind]
    · rw [herr]
      simp [bind, Except.bind]

theorem HasBody.unique [Codec] {data body body' : Bytes} (h : HasBody data body)
    (h' : HasBody data body') : body = body' :=
  Except.ok.inj (h.2.2.2.symm.trans h'.2.2.2)

/-- Behind an accepted header, the records of the body are read and counted. -/
theorem deserialize_of_hasBody [Codec] {data body : Bytes} (h : HasBody data body) :
    deserialize data = (parseRecords body.length body).bind fun records =>
      if records.length = toNat ((data.drop 5).take 4) then .ok ⟨records, 0⟩
      else .error .assertionFailed := by
  obtain ⟨hlen, hmagic, htrunc, hbody⟩ := h
  rw [deserialize, if_neg (by omega), if_neg (not_not.mpr hmagic)]
  dsimp only
  rw [if_neg (by omega), hbody]
  rfl

/-- Every other file is an error. -/
theorem deserialize_ne_assertion [Codec] {data : Bytes} (h : ∀ body, ¬HasBody data body) :
    deserialize data ≠ .error .assertionFailed := by
  rw [deserialize]
  by_cases hshort : data.length < 17
  · rw [if_pos hshort]
    simp
  by_cases hmagic : data.take 4 ≠ pageMagic
  · rw [if_neg hshort, if_pos hmagic]
    simp
  rw [if_neg hshort, if_neg hmagic]
  dsimp only
  by_cases htrunc : data.length < 17 + toNat ((data.drop 13).take 4)
  · rw [if_pos htrunc]
    simp
  rw [if_neg htrunc]
  cases hdecode : decodeBody ((data.drop 17).take (toNat ((data.drop 13).take 4)))
      (toNat ((data.drop 9).take 4)) (toNat ((data.drop 13).take 4)) with
  | ok body => exact absurd ⟨by omega, not_not.mp hmagic, by omega, hdecode⟩ (h body)
  | error failure =>
    intro hassert
    have hne := decodeBody_ne_assertion ((data.drop 17).take (toNat ((data.drop 13).take 4)))
      (toNat ((data.drop 9).take 4)) (toNat ((data.drop 13).take 4))
    rw [hdecode] at hne
    have herr : (Except.error failure : Except PageFailure Page) = .error .assertionFailed := hassert
    exact hne (congrArg _ (Except.error.inj herr))

/-- The assertion is reached with a body that the record loop reads to its end. -/
theorem deserialize_eq_assertion [Codec] (data : Bytes) :
    deserialize data = .error .assertionFailed ↔ ∃ body records, HasBody data body ∧
      parseRecords body.length body = .ok records ∧
      records.length ≠ toNat ((data.drop 5).take 4) := by
  constructor
  · intro hassert
    by_cases hbody : ∃ body, HasBody data body
    · obtain ⟨body, hbody⟩ := hbody
      rw [deserialize_of_hasBody hbody] at hassert
      cases hloop : parseRecords body.length body with
      | error failure =>
        rw [hloop] at hassert
        have hne := parseRecords_ne_assertion body.length body
        rw [hloop] at hne
        exact absurd (congrArg _ (Except.error.inj hassert)) hne
      | ok records =>
        refine ⟨body, records, hbody, hloop, fun hcount => ?_⟩
        simp only [hloop, Except.bind, if_pos hcount] at hassert
        exact absurd hassert (by simp)
    · exact absurd hassert (deserialize_ne_assertion fun body h => hbody ⟨body, h⟩)
  · rintro ⟨body, records, hbody, hloop, hcount⟩
    rw [deserialize_of_hasBody hbody, hloop]
    simp only [Except.bind, if_neg hcount]

/-- **`deserialize` returns exactly on the files whose records are as many as they say.** -/
theorem deserialize_returns_iff [Codec] (data : Bytes) : Returns data ↔ WellCounted data := by
  have hreturns : Returns data ↔ ¬deserialize data = .error .assertionFailed := by
    rw [Returns, deserializeAt_eq]
    constructor
    · rintro ⟨result, hresult, hne⟩
      rw [Option.some_inj.mp hresult]
      exact hne
    · exact fun hne => ⟨_, rfl, hne⟩
  rw [hreturns, deserialize_eq_assertion]
  constructor
  · intro h body hbody rs rest hrs hrest hsplit
    by_contra hcount
    refine h ⟨body, rs.map StoredRecord.record, hbody,
      (parseRecords_iff (le_refl _)).mpr ⟨rs, rest, hrs, hrest, hsplit, rfl⟩, ?_⟩
    rwa [List.length_map]
  · rintro h ⟨body, records, hbody, hloop, hcount⟩
    obtain ⟨rs, rest, hrs, hrest, hsplit, rfl⟩ := (parseRecords_iff (le_refl _)).mp hloop
    rw [List.length_map] at hcount
    exact hcount (h body hbody rs rest hrs hrest hsplit)

end Page

/-! ### The pages directory -/

namespace PageStore

/-- The level and the index of a file that `load_all` reads. -/
def recognised (name : Bytes) : Option (ℕ × ℕ) :=
  if extension name = some pageExt ∧ validUtf8 (fileStem name) = true then
    (parsePageFilename (fileStem name)).filter fun li => li.1 ≤ 2
  else none

variable [Codec]

/-- The levels are loaded, and they are the pages of the files that decode; every other file is
skipped. -/
def LoadsRest (dir : Dir) : Prop :=
  ∃ cm, loadAll dir = .ok cm ∧ ∀ level ≤ 2, ∀ page, page ∈ levelOf cm level ↔
    ∃ name data index p, dir[name]? = some data ∧ recognised name = some (level, index) ∧
      Page.deserialize data = .ok p ∧ page = { p with level := level }

theorem loadFile_eq (name data : Bytes) : loadFile name data = match recognised name with
    | none => .ok none
    | some (level, index) => match Page.deserialize data with
      | .ok page => .ok (some (level, index, { page with level := level }))
      | .error (.invalidData _) => .ok none
      | .error .assertionFailed => .error .panic := by
  rw [loadFile, recognised]
  by_cases hext : extension name = some pageExt
  · by_cases hutf : validUtf8 (fileStem name) = true
    · rw [if_neg (not_not.mpr hext), if_neg (by rw [hutf]; simp), if_pos ⟨hext, hutf⟩]
      cases parsePageFilename (fileStem name) with
      | none => rfl
      | some li =>
        obtain ⟨level, index⟩ := li
        by_cases hlevel : 2 < level
        · simp only [if_pos hlevel, Option.filter, decide_eq_false (by omega : ¬level ≤ 2)]
          rfl
        · simp only [if_neg hlevel, Option.filter, decide_eq_true (by omega : level ≤ 2)]
          rfl
    · rw [if_neg (not_not.mpr hext), if_pos (Bool.not_eq_true _ ▸ hutf), if_neg fun h => hutf h.2]
  · rw [if_pos hext, if_neg fun h => hext h.1]

/-- What the load loop keeps of a file. -/
def loadedFile (name data : Bytes) : Option (ℕ × ℕ × Page) :=
  (recognised name).bind fun li =>
    (Page.deserialize data).toOption.map fun p => (li.1, li.2, { p with level := li.1 })

theorem loadFile_of_wellCounted {name data : Bytes}
    (h : (recognised name).isSome = true → Page.WellCounted data) :
    loadFile name data = .ok (loadedFile name data) := by
  rw [loadFile_eq, loadedFile]
  cases hname : recognised name with
  | none => rfl
  | some li =>
    obtain ⟨level, index⟩ := li
    rw [hname] at h
    obtain ⟨result, hresult, hne⟩ := (Page.deserialize_returns_iff data).mpr (h rfl)
    rw [Page.deserializeAt_eq, Option.some_inj] at hresult
    subst hresult
    cases hpage : Page.deserialize data with
    | ok p => rfl
    | error failure =>
      cases failure with
      | invalidData msg => rfl
      | assertionFailed => exact absurd hpage hne

theorem wellCounted_of_loadFile {name data : Bytes} {loaded : Option (ℕ × ℕ × Page)}
    (h : loadFile name data = .ok loaded) (hname : (recognised name).isSome = true) :
    Page.WellCounted data := by
  obtain ⟨li, hli⟩ := Option.isSome_iff_exists.mp hname
  rw [← Page.deserialize_returns_iff, Page.Returns, Page.deserializeAt_eq]
  refine ⟨_, rfl, fun hassert => ?_⟩
  rw [loadFile_eq, hli, hassert] at h
  exact absurd h (by simp)

theorem loadFiles_of_wellCounted {files : List (Bytes × Bytes)}
    (h : ∀ f ∈ files, (recognised f.1).isSome = true → Page.WellCounted f.2) :
    loadFiles files = .ok (files.filterMap fun f => loadedFile f.1 f.2) := by
  induction files with
  | nil => rfl
  | cons f files ih =>
    obtain ⟨name, data⟩ := f
    rw [loadFiles, loadFile_of_wellCounted (h (name, data) List.mem_cons_self),
      ih fun g hg => h g (List.mem_cons_of_mem _ hg), List.filterMap_cons]
    cases loadedFile name data <;> rfl

theorem wellCounted_of_loadFiles {files : List (Bytes × Bytes)} {loaded : List (ℕ × ℕ × Page)}
    (h : loadFiles files = .ok loaded) :
    ∀ f ∈ files, (recognised f.1).isSome = true → Page.WellCounted f.2 := by
  induction files generalizing loaded with
  | nil =>
    intro f hf
    exact absurd hf (by simp)
  | cons g files ih =>
    rw [loadFiles] at h
    cases hfile : loadFile g.1 g.2 with
    | error failure =>
      rw [hfile] at h
      exact absurd h (by simp [bind, Except.bind])
    | ok one =>
      cases hrest : loadFiles files with
      | error failure =>
        simp only [hfile, hrest, bind, Except.bind] at h
        exact absurd h (by simp)
      | ok rest =>
        intro f hf
        rcases List.mem_cons.mp hf with rfl | hf
        · exact wellCounted_of_loadFile hfile
        · exact ih hrest f hf

omit [Codec] in
theorem mem_levelPages_iff {loaded : List (ℕ × ℕ × Page)} {level : ℕ} {page : Page} :
    page ∈ levelPages loaded level ↔ ∃ index, (level, index, page) ∈ loaded := by
  rw [levelPages, List.mem_map]
  constructor
  · rintro ⟨⟨level', index, p⟩, hx, rfl⟩
    rw [List.mem_mergeSort, List.mem_filter] at hx
    obtain ⟨hmem, hlevel⟩ := hx
    obtain rfl : level' = level := of_decide_eq_true hlevel
    exact ⟨index, hmem⟩
  · rintro ⟨index, hmem⟩
    refine ⟨(level, index, page), ?_, rfl⟩
    rw [List.mem_mergeSort, List.mem_filter]
    exact ⟨hmem, decide_eq_true rfl⟩

/-- **Which directories are loaded**: those without a page file that fails the assertion. -/
theorem loadAll_returns_iff (dir : Dir) : LoadsRest dir ↔ ∀ name data, dir[name]? = some data →
    (recognised name).isSome = true → Page.WellCounted data := by
  constructor
  · rintro ⟨cm, hload, _⟩ name data hfile
    cases hfiles : loadFiles dir.toList with
    | error failure =>
      rw [loadAll, hfiles] at hload
      exact absurd hload (by simp [bind, Except.bind])
    | ok loaded =>
      exact wellCounted_of_loadFiles hfiles (name, data)
        (Std.TreeMap.mem_toList_iff_getElem?_eq_some.mpr hfile)
  · intro h
    have hfiles : loadFiles dir.toList = .ok (dir.toList.filterMap fun f => loadedFile f.1 f.2) :=
      loadFiles_of_wellCounted fun f hf =>
        h f.1 f.2 (Std.TreeMap.mem_toList_iff_getElem?_eq_some.mp hf)
    set loaded := dir.toList.filterMap fun f => loadedFile f.1 f.2 with hloaded
    refine ⟨_, by rw [loadAll, hfiles]; rfl, fun level hlevel page => ?_⟩
    -- the three levels get the files of their own names
    have hpages : levelOf (((CompactionManager.new.loadPages 0 (levelPages loaded 0)).loadPages 1
        (levelPages loaded 1)).loadPages 2 (levelPages loaded 2)) level
          = levelPages loaded level := by
      rcases level with _ | _ | _ | level
      · rfl
      · rfl
      · rfl
      · omega
    rw [hpages, mem_levelPages_iff]
    constructor
    · rintro ⟨index, hmem⟩
      rw [hloaded, List.mem_filterMap] at hmem
      obtain ⟨⟨name, data⟩, hfile, hkept⟩ := hmem
      obtain ⟨⟨level', index'⟩, hname, hpage⟩ := Option.bind_eq_some_iff.mp hkept
      obtain ⟨p, hp, heq⟩ := Option.map_eq_some_iff.mp hpage
      simp only [Prod.mk.injEq] at heq
      obtain ⟨rfl, rfl, rfl⟩ := heq
      refine ⟨name, data, index', p, Std.TreeMap.mem_toList_iff_getElem?_eq_some.mp hfile, hname,
        ?_, rfl⟩
      cases hpage : Page.deserialize data with
      | error failure =>
        rw [hpage] at hp
        exact absurd hp (by simp [Except.toOption])
      | ok p' =>
        rw [hpage] at hp
        rw [show p' = p from Option.some_inj.mp hp]
    · rintro ⟨name, data, index, p, hfile, hname, hpage, rfl⟩
      refine ⟨index, ?_⟩
      rw [hloaded, List.mem_filterMap]
      refine ⟨(name, data), Std.TreeMap.mem_toList_iff_getElem?_eq_some.mpr hfile, ?_⟩
      rw [loadedFile, hname, hpage]
      rfl

/-- **Robust loading**: `deserialize` and `load_all` return on the files whose records are as
many as the header says, and on no others. -/
theorem returns_iff : (∀ data, Page.Returns data ↔ Page.WellCounted data) ∧
    ∀ dir : Dir, LoadsRest dir ↔ ∀ name data, dir[name]? = some data →
      (recognised name).isSome = true → Page.WellCounted data :=
  ⟨Page.deserialize_returns_iff, loadAll_returns_iff⟩

omit [Codec]

/-- A page file that ends after its header, which announces a record. -/
def headerOnly : Bytes := [85, 76, 80, 71, 1, 0, 0, 0, 1, 0, 0, 0, 0, 0, 0, 0, 0]

/-- It fails the assertion, and a directory that has it as a page file is not loaded. -/
theorem headerOnly_panics : ¬(∀ data, @Page.Returns storedCodec data) ∧
    ¬∀ dir : Dir, @LoadsRest storedCodec dir := by
  have hpanics : @Page.deserialize storedCodec headerOnly = .error .assertionFailed := by decide
  have hname : (recognised (pageFilename 0 0)).isSome = true := by decide
  have hheader : ¬@Page.Returns storedCodec headerOnly := by
    rintro ⟨result, hresult, hne⟩
    rw [@Page.deserializeAt_eq storedCodec, hpanics] at hresult
    exact hne (Option.some_inj.mp hresult).symm
  constructor
  · intro h
    exact hheader (h headerOnly)
  · intro h
    have hfile : ((∅ : Dir).insert (pageFilename 0 0) headerOnly)[pageFilename 0 0]?
        = some headerOnly := Std.TreeMap.getElem?_insert_self
    have hcounted := (@loadAll_returns_iff storedCodec _).mp (h _) _ _ hfile hname
    exact hheader ((@Page.deserialize_returns_iff storedCodec headerOnly).mpr hcounted)

end PageStore

end Uldb
