/-
The write-ahead log (`storage/wal.rs`).

A record is a checksum, a header with the two lengths, the key and the value.
`replay` reads records until the bytes run out or a record does not check.

* `replay_encode` — the records in front of any bytes are replayed first;
* `replay_eq_iff` — what is replayed is exactly the longest run of record
  encodings that the bytes start with;
* `replay_torn` — a record cut short replays to nothing;
* `forall_cut_iff` — the byte prefixes of an append replay to the record
  prefixes of what it adds.
-/
import Uldb.Basic
import Uldb.Lib.BigEndian

namespace Uldb

open BigEndian

/-- One WAL record: a key-value pair.  An empty value is a delete marker. -/
structure WalRecord where
  key : Bytes
  value : Bytes
  deriving DecidableEq, Repr

/-- The sizes the reader accepts. -/
def WalRecord.Fits (r : WalRecord) : Prop :=
  r.key.length ≤ 65535 ∧ r.value.length ≤ 100000000

instance (r : WalRecord) : Decidable r.Fits := inferInstanceAs (Decidable (_ ∧ _))

namespace Wal

variable [Codec]

/-- The lengths of the key (16 bit) and the value (32 bit). -/
def header (r : WalRecord) : Bytes := be 2 r.key.length ++ be 4 r.value.length

/-- The header, key and value: what the checksum covers. -/
def body (r : WalRecord) : Bytes := header r ++ (r.key ++ r.value)

/-- The bytes of one record. -/
def serialize (r : WalRecord) : Bytes := be 4 (Codec.crc32 (body r)).toNat ++ body r

/-- The bytes of a run of records. -/
def encode (rs : List WalRecord) : Bytes := rs.flatMap serialize

/-- What one turn of the replay loop finds. -/
inductive ReadResult where
  | eof
  | corrupted
  | record (r : WalRecord) (rest : Bytes)
  deriving DecidableEq

/-- One turn of the replay loop. -/
def readRecord (data : Bytes) : ReadResult :=
  if data.length < 4 then .eof
  else
    let crcStored := toNat (data.take 4)
    let rest := data.drop 4
    if rest.length < 6 then .corrupted
    else
      let header := rest.take 6
      let keyLen := toNat (header.take 2)
      let valLen := toNat (header.drop 2)
      let rest := rest.drop 6
      if 1000000 < keyLen ∨ 100000000 < valLen then .corrupted
      else if rest.length < keyLen + valLen then .corrupted
      else
        let payload := rest.take (keyLen + valLen)
        if (Codec.crc32 (header ++ payload)).toNat ≠ crcStored then .corrupted
        else .record ⟨payload.take keyLen, payload.drop keyLen⟩ (rest.drop (keyLen + valLen))

/-- The replay loop: the records and the number of corrupted ones.  Every record
takes bytes, so the length is enough fuel. -/
def replayAux : ℕ → Bytes → List WalRecord × ℕ
  | 0, _ => ([], 0)
  | fuel + 1, data =>
    match readRecord data with
    | .eof => ([], 0)
    | .corrupted => ([], 1)
    | .record r rest => (r :: (replayAux fuel rest).1, (replayAux fuel rest).2)

def replay (data : Bytes) : List WalRecord × ℕ := replayAux data.length data

/-! ### Reading one record -/

omit [Codec] in
theorem header_length (r : WalRecord) : (header r).length = 6 := by simp [header]

theorem serialize_length (r : WalRecord) :
    (serialize r).length = 10 + (r.key.length + r.value.length) := by
  simp [serialize, body, header_length]
  omega

omit [Codec] in
/-- The header of a record that fits gives its lengths back. -/
theorem header_fields {r : WalRecord} (hr : r.Fits) :
    toNat ((header r).take 2) = r.key.length ∧ toNat ((header r).drop 2) = r.value.length := by
  obtain ⟨hkey, hval⟩ := hr
  rw [header, List.take_left' (be_length 2 _), List.drop_left' (be_length 2 _)]
  exact ⟨toNat_be (by omega), toNat_be (by omega)⟩

/-- A frame with the header of a record that fits is read if its checksum is the stored one. -/
theorem readRecord_frame {r : WalRecord} (hr : r.Fits) (crc : UInt32) {payload : Bytes}
    (hlen : payload.length = r.key.length + r.value.length) (rest : Bytes) :
    readRecord (be 4 crc.toNat ++ (header r ++ (payload ++ rest)))
      = if Codec.crc32 (header r ++ payload) = crc then
          .record ⟨payload.take r.key.length, payload.drop r.key.length⟩ rest
        else .corrupted := by
  obtain ⟨hk, hv⟩ := header_fields hr
  have hstored : toNat (be 4 crc.toNat) = crc.toNat := toNat_be (by simpa using crc.toNat_lt)
  rw [readRecord, if_neg (by simp), List.take_left' (be_length 4 _),
    List.drop_left' (be_length 4 _), hstored]
  simp only
  rw [if_neg (by simp [header_length]), List.take_left' (header_length r),
    List.drop_left' (header_length r), hk, hv,
    if_neg (by obtain ⟨h1, h2⟩ := hr; omega), if_neg (by simp [hlen]), List.take_left' hlen,
    List.drop_left' hlen]
  by_cases hcrc : Codec.crc32 (header r ++ payload) = crc
  · rw [if_pos hcrc, if_neg (by simp [hcrc])]
  · rw [if_neg hcrc, if_pos fun h => hcrc (UInt32.toNat_inj.mp h)]

/-- A record that fits is read back, whatever follows it. -/
theorem readRecord_serialize {r : WalRecord} (hr : r.Fits) (rest : Bytes) :
    readRecord (serialize r ++ rest) = .record r rest := by
  have hsplit : serialize r ++ rest
      = be 4 (Codec.crc32 (body r)).toNat ++ (header r ++ ((r.key ++ r.value) ++ rest)) := by
    simp [serialize, body]
  rw [hsplit, readRecord_frame hr _ (by simp), if_pos (by rw [body]), List.take_left' rfl,
    List.drop_left' rfl]

/-- Whatever is read as a record is the encoding of a record that fits. -/
theorem eq_of_readRecord {data rest : Bytes} {r : WalRecord}
    (h : readRecord data = .record r rest) : r.Fits ∧ data = serialize r ++ rest := by
  rw [readRecord] at h
  by_cases h4 : data.length < 4
  · rw [if_pos h4] at h
    exact absurd h (by simp)
  by_cases h6 : (data.drop 4).length < 6
  · rw [if_neg h4] at h
    simp only [if_pos h6] at h
    exact absurd h (by simp)
  rw [if_neg h4] at h
  simp only [if_neg h6] at h
  set hdr := (data.drop 4).take 6 with hhdr
  set rest' := (data.drop 4).drop 6 with hrest'
  set kl := toNat (hdr.take 2) with hkl
  set vl := toNat (hdr.drop 2) with hvl
  by_cases hsane : 1000000 < kl ∨ 100000000 < vl
  · rw [if_pos hsane] at h
    exact absurd h (by simp)
  rw [if_neg hsane] at h
  by_cases hlen : rest'.length < kl + vl
  · rw [if_pos hlen] at h
    exact absurd h (by simp)
  rw [if_neg hlen] at h
  by_cases hcrc : (Codec.crc32 (hdr ++ rest'.take (kl + vl))).toNat ≠ toNat (data.take 4)
  · rw [if_pos hcrc] at h
    exact absurd h (by simp)
  rw [if_neg hcrc, ReadResult.record.injEq] at h
  obtain ⟨rfl, rfl⟩ := h
  have hhdr6 : hdr.length = 6 := by
    rw [hhdr, List.length_take]
    omega
  have hkl_len : ((rest'.take (kl + vl)).take kl).length = kl := by
    simp
    omega
  have hvl_len : ((rest'.take (kl + vl)).drop kl).length = vl := by
    simp
    omega
  -- the lengths in the header encode to the header again
  have hheader : header ⟨(rest'.take (kl + vl)).take kl, (rest'.take (kl + vl)).drop kl⟩ = hdr := by
    have h2 := be_toNat (hdr.take 2)
    have h4' := be_toNat (hdr.drop 2)
    rw [List.length_take, hhdr6, Nat.min_eq_left (by omega)] at h2
    rw [List.length_drop, hhdr6] at h4'
    rw [header, hkl_len, hvl_len, hkl, hvl, h2, h4', List.take_append_drop]
  constructor
  · have hkl_lt := toNat_lt (hdr.take 2)
    rw [List.length_take, hhdr6, Nat.min_eq_left (by omega)] at hkl_lt
    refine ⟨?_, ?_⟩
    · rw [hkl_len]
      omega
    · rw [hvl_len]
      omega
  · have hbe := be_toNat (data.take 4)
    rw [List.length_take, Nat.min_eq_left (by omega)] at hbe
    rw [serialize, body, hheader]
    simp only [List.take_append_drop]
    rw [not_not.mp hcrc, hbe, List.append_assoc, List.append_assoc, List.take_append_drop, hhdr,
      hrest', List.take_append_drop, List.take_append_drop]

theorem readRecord_length {data rest : Bytes} {r : WalRecord}
    (h : readRecord data = .record r rest) : rest.length < data.length := by
  rw [(eq_of_readRecord h).2, List.length_append, serialize_length]
  omega

/-! ### Replay -/

theorem replayAux_eq {fuel : ℕ} {data : Bytes} (h : data.length ≤ fuel) :
    replayAux fuel data = replay data := by
  suffices hall : ∀ n m (data : Bytes), data.length ≤ n → data.length ≤ m →
      replayAux n data = replayAux m data from hall _ _ data h le_rfl
  intro n
  induction n with
  | zero =>
    intro m data hn _
    obtain rfl := List.length_eq_zero_iff.mp (Nat.le_zero.mp hn)
    cases m with
    | zero => rfl
    | succ m => rfl
  | succ n ih =>
    intro m data hn hm
    cases m with
    | zero =>
      obtain rfl := List.length_eq_zero_iff.mp (Nat.le_zero.mp hm)
      rfl
    | succ m =>
      rw [replayAux, replayAux]
      cases hr : readRecord data with
      | eof => rfl
      | corrupted => rfl
      | record r rest =>
        have hlt := readRecord_length hr
        simp only
        rw [ih m rest (by omega) (by omega)]

/-- The loop, without its fuel. -/
theorem replay_eq (data : Bytes) :
    replay data = match readRecord data with
      | .eof => ([], 0)
      | .corrupted => ([], 1)
      | .record r rest => (r :: (replay rest).1, (replay rest).2) := by
  rw [← replayAux_eq (Nat.le_succ data.length), replayAux]
  cases hr : readRecord data with
  | eof => rfl
  | corrupted => rfl
  | record r rest =>
    have hlt := readRecord_length hr
    simp only
    rw [replayAux_eq (by omega : rest.length ≤ data.length)]

@[simp] theorem replay_nil : replay [] = ([], 0) := rfl

@[simp] theorem encode_nil : encode [] = [] := rfl

theorem encode_cons (r : WalRecord) (rs : List WalRecord) :
    encode (r :: rs) = serialize r ++ encode rs := rfl

theorem encode_append (rs rs' : List WalRecord) : encode (rs ++ rs') = encode rs ++ encode rs' := by
  rw [encode, List.flatMap_append]
  rfl

/-- **Replay of a run of records**, whatever follows it. -/
theorem replay_encode {rs : List WalRecord} (hrs : ∀ r ∈ rs, r.Fits) (rest : Bytes) :
    replay (encode rs ++ rest) = (rs ++ (replay rest).1, (replay rest).2) := by
  induction rs with
  | nil => rfl
  | cons r rs ih =>
    rw [encode_cons, List.append_assoc, replay_eq, readRecord_serialize (hrs r (by simp))]
    simp only
    rw [ih fun r' hr' => hrs r' (by simp [hr'])]
    rfl

/-- A log of records that fit is replayed as it was written. -/
theorem replay_intact {rs : List WalRecord} (hrs : ∀ r ∈ rs, r.Fits) :
    replay (encode rs) = (rs, 0) := by
  rw [← List.append_nil (encode rs), replay_encode hrs, replay_nil, List.append_nil]

/-- The bytes do not start with the encoding of a record. -/
def NoRecord (data : Bytes) : Prop := ∀ r : WalRecord, r.Fits → ¬serialize r <+: data

theorem replay_eq_nil_iff (data : Bytes) : (replay data).1 = [] ↔ NoRecord data := by
  constructor
  · rintro h r hr ⟨rest, rfl⟩
    rw [replay_eq, readRecord_serialize hr] at h
    exact absurd h (by simp)
  · intro h
    rw [replay_eq]
    cases hr : readRecord data with
    | eof => rfl
    | corrupted => rfl
    | record r rest =>
      obtain ⟨hfit, heq⟩ := eq_of_readRecord hr
      exact absurd ⟨rest, heq.symm⟩ (h r hfit)

/-- **What is replayed** is the longest run of record encodings at the front. -/
theorem replay_eq_iff (data : Bytes) (rs : List WalRecord) :
    (replay data).1 = rs ↔
      (∀ r ∈ rs, r.Fits) ∧ ∃ rest, data = encode rs ++ rest ∧ NoRecord rest := by
  induction rs generalizing data with
  | nil =>
    rw [replay_eq_nil_iff]
    constructor
    · intro h
      exact ⟨by simp, data, rfl, h⟩
    · rintro ⟨_, rest, rfl, h⟩
      exact h
  | cons r rs ih =>
    constructor
    · intro h
      rw [replay_eq] at h
      cases hr : readRecord data with
      | eof =>
        rw [hr] at h
        exact absurd h (by simp)
      | corrupted =>
        rw [hr] at h
        exact absurd h (by simp)
      | record r' rest =>
        rw [hr] at h
        obtain ⟨rfl, htail⟩ := List.cons_eq_cons.mp h
        obtain ⟨hfit, rfl⟩ := eq_of_readRecord hr
        obtain ⟨hrs, rest', rfl, hno⟩ := (ih rest).mp htail
        refine ⟨fun r'' hr'' => ?_, rest', by rw [encode_cons, List.append_assoc], hno⟩
        rcases List.mem_cons.mp hr'' with rfl | hmem
        · exact hfit
        · exact hrs r'' hmem
    · rintro ⟨hrs, rest, rfl, hno⟩
      rw [replay_encode hrs, (replay_eq_nil_iff rest).mpr hno, List.append_nil]

/-- The encoding of a record is no proper prefix of another one. -/
theorem not_serialize_prefix {r r' : WalRecord} (hr : r.Fits) (hr' : r'.Fits) {torn : Bytes}
    (htorn : torn <+: serialize r) (hne : torn ≠ serialize r) : ¬serialize r' <+: torn := by
  intro hpre
  obtain ⟨rest, hrest⟩ := hpre.trans htorn
  have hread := readRecord_serialize hr' rest
  rw [hrest, ← List.append_nil (serialize r), readRecord_serialize hr, ReadResult.record.injEq]
    at hread
  obtain ⟨rfl, _⟩ := hread
  exact hne (htorn.eq_of_length (le_antisymm htorn.length_le hpre.length_le))

/-- **A record cut short replays to nothing.** -/
theorem replay_torn {r : WalRecord} (hr : r.Fits) {torn : Bytes} (htorn : torn <+: serialize r)
    (hne : torn ≠ serialize r) : (replay torn).1 = [] :=
  (replay_eq_nil_iff torn).mpr fun _ hr' => not_serialize_prefix hr hr' htorn hne

/-! ### Prefixes of a log -/

/-- A longer log replays to more records. -/
theorem replay_mono {data data' : Bytes} (h : data <+: data') :
    (replay data).1 <+: (replay data').1 := by
  obtain ⟨more, rfl⟩ := h
  obtain ⟨hfits, rest, hdata, hno⟩ := (replay_eq_iff data _).mp rfl
  rw [hdata, List.append_assoc, replay_encode hfits, replay_encode hfits,
    (replay_eq_nil_iff rest).mpr hno, List.prefix_append_right_inj]
  exact List.nil_prefix

/-- Every stage between two logs is reached by a cut between them. -/
theorem exists_cut {data data' : Bytes} (h : data <+: data') {rs : List WalRecord}
    (hlow : (replay data).1 <+: rs) (hhigh : rs <+: (replay data').1) :
    ∃ cut, data <+: cut ∧ cut <+: data' ∧ (replay cut).1 = rs := by
  obtain ⟨hfits', rest', hdata', _⟩ := (replay_eq_iff data' _).mp rfl
  obtain ⟨more, hmore⟩ := hhigh
  have hfits : ∀ r ∈ rs, r.Fits := fun r hr => hfits' r (by rw [← hmore]; simp [hr])
  have hpre : encode rs <+: data' := by
    rw [hdata', ← hmore, encode_append, List.append_assoc]
    exact List.prefix_append _ _
  have hrs : (replay (encode rs)).1 = rs := by rw [replay_intact hfits]
  rcases Nat.le_total data.length (encode rs).length with hle | hle
  · exact ⟨encode rs, List.prefix_of_prefix_length_le h hpre hle, hpre, hrs⟩
  · -- the cut would come before the end of `data`, which has these records already
    have hmono := replay_mono (List.prefix_of_prefix_length_le hpre h hle)
    rw [hrs] at hmono
    exact ⟨data, List.prefix_refl _, h, hlow.eq_of_length (le_antisymm hlow.length_le
      hmono.length_le)⟩

/-- The records that a replay reads behind those of `log` once `data` is appended. -/
def added (log data : Bytes) : List WalRecord :=
  (replay (log ++ data)).1.drop (replay log).1.length

theorem replay_append_added (log data : Bytes) :
    (replay (log ++ data)).1 = (replay log).1 ++ added log data := by
  obtain ⟨more, hmore⟩ := replay_mono (List.prefix_append log data)
  rw [added, ← hmore, List.drop_left]

/-- On an intact log, records that fit are read back as they are. -/
theorem added_encode {old rs : List WalRecord} (hold : ∀ r ∈ old, r.Fits) (hrs : ∀ r ∈ rs, r.Fits) :
    added (encode old) (encode rs) = rs := by
  have hall : ∀ r ∈ old ++ rs, r.Fits := fun r hr => (List.mem_append.mp hr).elim (hold r) (hrs r)
  rw [added, ← encode_append, replay_intact hall, replay_intact hold]
  simp

/-- **All byte prefixes of an append** replay to the record prefixes of what it adds. -/
theorem forall_cut_iff (log data : Bytes) (P : List WalRecord → Prop) :
    (∀ cut, cut <+: data → P (replay (log ++ cut)).1) ↔
      ∀ i ≤ (added log data).length, P ((replay log).1 ++ (added log data).take i) := by
  constructor
  · intro h i _
    have hstage : (replay log).1 ++ (added log data).take i <+: (replay (log ++ data)).1 := by
      rw [replay_append_added, List.prefix_append_right_inj]
      exact List.take_prefix i _
    obtain ⟨cut, hlow, hhigh, hcut⟩ :=
      exists_cut (List.prefix_append log data) (List.prefix_append _ _) hstage
    obtain ⟨part, rfl⟩ := hlow
    rw [← hcut]
    exact h part ((List.prefix_append_right_inj log).mp hhigh)
  · rintro h cut ⟨more, rfl⟩
    have hmono := replay_mono (List.prefix_append (log ++ cut) more)
    rw [List.append_assoc, replay_append_added, replay_append_added,
      List.prefix_append_right_inj] at hmono
    rw [replay_append_added, List.prefix_iff_eq_take.mp hmono]
    exact h _ hmono.length_le

end Wal

end Uldb
