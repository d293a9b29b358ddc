/-
What a replay gives back of a log.

* `replay_prefix_eq` — of a log cut anywhere, the records that are still whole;
* `replay_appended_iff` — of appends that all succeeded, exactly the records, as long
  as every record is within the limits of the reader;
* `replay_damaged_iff` — of a log with one damaged record, the records in front of it:
  the reader stops there, and does not go on behind it.
-/
import Uldb.WalWriter
import Uldb.StoredCodec

namespace Uldb

open BigEndian Fallible

namespace Wal

section

variable [Codec]

/-! ### Cut logs -/

theorem readRecord_eq_eof {data : Bytes} : readRecord data = .eof ↔ data.length < 4 := by
  rw [readRecord]
  by_cases h : data.length < 4
  · simp [h]
  · simp only [if_neg h]
    split_ifs <;> simp <;> omega

/-- A record cut short counts as corrupted, once its checksum is there. -/
theorem replay_torn_eq {r : WalRecord} (hr : r.Fits) {torn : Bytes} (htorn : torn <+: serialize r)
    (hne : torn ≠ serialize r) : replay torn = ([], if torn.length < 4 then 0 else 1) := by
  have hnil := replay_torn hr htorn hne
  rw [replay_eq] at hnil ⊢
  cases hread : readRecord torn with
  | eof =>
    rw [if_pos (readRecord_eq_eof.mp hread)]
  | corrupted =>
    have hlen : ¬torn.length < 4 := by
      intro hlt
      rw [readRecord_eq_eof.mpr hlt] at hread
      exact absurd hread (by simp)
    rw [if_neg hlen]
  | record r' rest =>
    rw [hread] at hnil
    exact absurd hnil (by simp)

/-- **Cut logs.**  A byte prefix of a log replays to the records that lie within it, and
to one corrupted record if four bytes or more are left behind them. -/
theorem replay_prefix_eq {rs : List WalRecord} (hrs : ∀ r ∈ rs, r.Fits) {data : Bytes}
    (hdata : data <+: encode rs) :
    ∃ n ≤ rs.length, (∀ m ≤ rs.length, encode (rs.take m) <+: data ↔ m ≤ n) ∧
      replay data
        = (rs.take n, if data.length - (encode (rs.take n)).length < 4 then 0 else 1) := by
  induction rs generalizing data with
  | nil =>
    obtain rfl := List.prefix_nil.mp hdata
    refine ⟨0, le_rfl, fun m hm => ?_, rfl⟩
    rw [Nat.le_zero.mp hm]
    simp
  | cons r rs ih =>
    have hr : r.Fits := hrs r (by simp)
    rw [encode_cons] at hdata
    by_cases hlen : (serialize r).length ≤ data.length
    · -- the first record is whole
      have hfirst := List.prefix_of_prefix_length_le (List.prefix_append _ _) hdata hlen
      obtain ⟨rest, rfl⟩ := hfirst
      have hrest := (List.prefix_append_right_inj (serialize r)).mp hdata
      obtain ⟨n, hn, hwhole, hreplay⟩ := ih (fun r' hr' => hrs r' (by simp [hr'])) hrest
      refine ⟨n + 1, by simpa using hn, fun m hm => ?_, ?_⟩
      · cases m with
        | zero => simp
        | succ m =>
          rw [List.take_succ_cons, encode_cons, List.prefix_append_right_inj,
            hwhole m (by simpa using hm), Nat.add_le_add_iff_right]
      · rw [replay_eq, readRecord_serialize hr]
        simp only [hreplay, List.take_succ_cons, encode_cons, List.length_append]
        rw [Nat.add_sub_add_left]
    · -- the cut is in the first record
      have hcut : data <+: serialize r :=
        List.prefix_of_prefix_length_le hdata (List.prefix_append _ _) (by omega)
      have hne : data ≠ serialize r := by
        rintro rfl
        exact hlen le_rfl
      refine ⟨0, Nat.zero_le _, fun m hm => ?_, ?_⟩
      · cases m with
        | zero => simp
        | succ m =>
          rw [List.take_succ_cons, encode_cons]
          constructor
          · intro hpre
            have hle := hpre.length_le
            rw [List.length_append] at hle
            omega
          · intro hm0
            omega
      · rw [replay_torn_eq hr hcut hne]
        simp

omit [Codec] in
/-- One record, cut before its last byte. -/
theorem replay_prefix_eq_one :
    ∃ n ≤ 1, (∀ m ≤ 1, @encode storedCodec (List.take m [⟨[107], [118]⟩]) <+:
        (@encode storedCodec [⟨[107], [118]⟩]).take 11 ↔ m ≤ n) ∧
      @replay storedCodec ((@encode storedCodec [⟨[107], [118]⟩]).take 11)
        = (List.take n [⟨[107], [118]⟩],
          if ((@encode storedCodec [⟨[107], [118]⟩]).take 11).length
            - (@encode storedCodec (List.take n [⟨[107], [118]⟩])).length < 4 then 0 else 1) := by
  have hfits : ∀ r ∈ [WalRecord.mk [107] [118]], r.Fits := by decide
  exact @replay_prefix_eq storedCodec [⟨[107], [118]⟩] hfits _ (List.take_prefix _ _)

/-! ### Appended records -/

/-- **Appended records** are replayed exactly if they are within the limits of the reader.
Longer ones are written with their lengths cut to 16 and 32 bits. -/
theorem replay_appended_iff {rs : List WalRecord} {outcomes : List (Option WriteFault)}
    {w w' : WalWriter} (happend : forM rs WalWriter.append (WalWriter.open [] outcomes) = .ok () w)
    (hflush : WalWriter.flush w = .ok () w') :
    replay w'.file = (rs, 0) ↔ ∀ r ∈ rs, r.Fits := by
  have hfile : w'.file = encode rs := by
    rw [(WalWriter.flush_eq_ok hflush).1, WalWriter.forM_append_eq_ok happend]
    rfl
  rw [hfile]
  constructor
  · intro h
    exact ((replay_eq_iff (encode rs) rs).mp (by rw [h])).1
  · intro hrs
    exact replay_intact hrs

omit [Codec] in
/-- Two records, the second one with an empty key. -/
theorem replay_appended_two : ∃ w w',
    forM [⟨[107], [118]⟩, ⟨[], []⟩] (@WalWriter.append storedCodec) (WalWriter.open [] [])
        = .ok () w ∧ WalWriter.flush w = .ok () w' ∧
      @replay storedCodec w'.file = ([⟨[107], [118]⟩, ⟨[], []⟩], 0) := by
  obtain ⟨w, happend, hw⟩ := @WalWriter.forM_append_of_reliable (WalWriter.open [] []) storedCodec
    [⟨[107], [118]⟩, ⟨[], []⟩] rfl
  obtain ⟨w', hflush, _⟩ := WalWriter.flush_of_reliable hw
  exact ⟨w, w', happend, hflush,
    (@replay_appended_iff storedCodec _ [] w w' happend hflush).mpr (by decide)⟩

omit [Codec] in
/-- A key of 65536 bytes is written with the length 0, and not replayed. -/
theorem replay_appended_long_key :
    ¬∀ (rs : List WalRecord) (outcomes : List (Option WriteFault)) (w w' : WalWriter),
      forM rs (@WalWriter.append storedCodec) (WalWriter.open [] outcomes) = .ok () w →
      WalWriter.flush w = .ok () w' → @replay storedCodec w'.file = (rs, 0) := by
  intro h
  set r : WalRecord := ⟨List.replicate 65536 107, []⟩ with hr
  obtain ⟨w, happend, hw⟩ := @WalWriter.forM_append_of_reliable (WalWriter.open [] []) storedCodec
    [r] rfl
  obtain ⟨w', hflush, _⟩ := WalWriter.flush_of_reliable hw
  have hreplay := h [r] [] w w' happend hflush
  -- what is replayed has lengths that the header can hold
  have hfits := ((@replay_eq_iff storedCodec w'.file [r]).mp (by rw [hreplay])).1 r (by simp)
  have hlong : r.key.length = 65536 := List.length_replicate
  have hshort := hfits.1
  omega

/-! ### Damaged records -/

/-- The bytes of a record whose key and value have been overwritten. -/
def damaged (r : WalRecord) (payload : Bytes) : Bytes :=
  be 4 (Codec.crc32 (body r)).toNat ++ (header r ++ payload)

/-- **Damaged records.**  If the checksum of one record no longer matches, the replay
returns all the other records exactly if it was the last one. -/
theorem replay_damaged_iff {before after : List WalRecord} {r : WalRecord} {payload : Bytes}
    (hbefore : ∀ r ∈ before, r.Fits) (hr : r.Fits)
    (hlen : payload.length = r.key.length + r.value.length)
    (hcrc : Codec.crc32 (header r ++ payload) ≠ Codec.crc32 (body r)) :
    replay (encode before ++ (damaged r payload ++ encode after)) = (before ++ after, 1) ↔
      after = [] := by
  have hread : readRecord (damaged r payload ++ encode after) = .corrupted := by
    rw [damaged, List.append_assoc, List.append_assoc, readRecord_frame hr _ hlen, if_neg hcrc]
  have hreplay : replay (encode before ++ (damaged r payload ++ encode after)) = (before, 1) := by
    rw [replay_encode hbefore, replay_eq (damaged r payload ++ encode after), hread]
    simp
  rw [hreplay, Prod.mk.injEq]
  constructor
  · rintro ⟨h, _⟩
    exact List.self_eq_append_right.mp h
  · rintro rfl
    exact ⟨(List.append_nil before).symm, rfl⟩

end

/-- One flipped bit in the last of two records. -/
theorem replay_damaged_last :
    @replay storedCodec (@encode storedCodec [⟨[107], [118]⟩] ++
      (@damaged storedCodec ⟨[108], [118]⟩ [108, 119] ++ @encode storedCodec []))
        = ([⟨[107], [118]⟩] ++ [], 1) :=
  (@replay_damaged_iff storedCodec [⟨[107], [118]⟩] [] ⟨[108], [118]⟩ [108, 119] (by decide)
    (by decide) (by decide) (by decide +kernel)).mpr rfl

/-- One flipped bit in the first of two records: the second one is not replayed. -/
theorem replay_damaged_first :
    ¬∀ (before after : List WalRecord) (r : WalRecord) (payload : Bytes),
      (∀ r ∈ before, r.Fits) → r.Fits → (∀ r ∈ after, r.Fits) →
      payload.length = r.key.length + r.value.length →
      @Codec.crc32 storedCodec (header r ++ payload) ≠ @Codec.crc32 storedCodec (body r) →
      @replay storedCodec (@encode storedCodec before ++
        (@damaged storedCodec r payload ++ @encode storedCodec after)) = (before ++ after, 1) := by
  intro h
  have hall := h [] [⟨[108], [118]⟩] ⟨[107], [118]⟩ [107, 119] (by decide) (by decide) (by decide)
    (by decide) (by decide +kernel)
  exact absurd hall (by decide +kernel)

end Wal

end Uldb
