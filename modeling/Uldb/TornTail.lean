/-
Two recoveries with a torn tail in between.

A crash can leave the front part of a record at the end of the log.  `open`
replays up to the tear, and then appends behind the torn bytes; the next replay
stops at the same tear and does not see what was appended.

`replay_after_torn_iff` says exactly when the second replay does return all
records: when the torn bytes, followed by the new records, happen to read as the
new records again.
-/
import Uldb.Replay
import Uldb.StoredCodec

namespace Uldb

/-- The torn bytes and the log of `S` start with the log of `S` again, and no
further record follows. -/
def Resyncs [Codec] (torn : Bytes) (S : List WalRecord) : Prop :=
  ∃ rest, torn ++ Wal.encode S = Wal.encode S ++ rest ∧ Wal.NoRecord rest

/-- Nothing is lost where nothing was written. -/
theorem resyncs_nil [Codec] {r : WalRecord} (hr : r.Fits) {torn : Bytes}
    (htorn : torn <+: Wal.serialize r) (hne : torn ≠ Wal.serialize r) : Resyncs torn [] :=
  ⟨torn, by simp, fun _ hr' => Wal.not_serialize_prefix hr hr' htorn hne⟩

namespace Engine

/-- **The second replay returns all records exactly when the tail resyncs.**
The bytes behind `R` can be any; a torn record is the case the name is for. -/
theorem replay_after_torn_iff [Codec] {R : List WalRecord} (hR : ∀ r ∈ R, r.Fits) {torn : Bytes}
    {t : ℕ} {dir : Dir} {outcomes : List (Option WriteFault)} {e e' : Engine}
    (hopen : Engine.open t dir (some (Wal.encode R ++ torn)) outcomes = .ok e)
    {cs : List Call} (hcs : ∀ c ∈ cs, c.isPutOrDelete = true)
    (hfits : ∀ r ∈ runRecords cs, r.Fits) (hrun : e.run cs = some e') :
    (Wal.replay e'.wal.file).1 = R ++ runRecords cs ↔ Resyncs torn (runRecords cs) := by
  -- `open` leaves the log as it is: the torn bytes stay in the file, in front of the new records
  have hfile : e'.wal.file = Wal.encode R ++ (torn ++ Wal.encode (runRecords cs)) := by
    rw [file_of_run hopen hcs hrun, Option.getD_some, List.append_assoc]
  rw [hfile, Wal.replay_encode hR, List.append_cancel_left_eq, Wal.replay_eq_iff, Resyncs]
  exact and_iff_right hfits

/-! ### A lost write -/

/-- Recover a log that ends in the first byte of a record, and put a key. -/
def tornRun : Option Engine := @openRun storedCodec 1000 ∅ (some [253]) [.put [107] [118]]

theorem exists_tornRun : ∃ e e',
    @Engine.open storedCodec 1000 ∅ (some [253]) [] = .ok e ∧
      @run storedCodec e [.put [107] [118]] = some e' ∧ tornRun = some e' := by
  have hsome : tornRun.isSome = true := by decide +kernel
  obtain ⟨e', he'⟩ := Option.isSome_iff_exists.mp hsome
  obtain ⟨e, hopen, hrun⟩ := @exists_of_openRun storedCodec _ _ _ _ _ he'
  exact ⟨e, e', hopen, hrun, he'⟩

/-- On this run the condition decides: the put is replayed if and only if the
byte in front of it resyncs. -/
theorem replay_after_torn_put : ∃ e', tornRun = some e' ∧
    ((@Wal.replay storedCodec e'.wal.file).1 = [⟨[107], [118]⟩] ↔
      @Resyncs storedCodec [253] [⟨[107], [118]⟩]) := by
  obtain ⟨e, e', hopen, hrun, he'⟩ := exists_tornRun
  exact ⟨e', he', @replay_after_torn_iff storedCodec [] (by simp) [253] 1000 ∅ [] e e' hopen
    [.put [107] [118]] (by simp [Call.isPutOrDelete])
    (by simp [runRecords, Call.records, WalRecord.Fits]) hrun⟩

/-- The put was acknowledged, and the second replay returns nothing. -/
theorem replay_after_torn_lost :
    ¬∀ R : List WalRecord, (∀ r ∈ R, r.Fits) → ∀ (lost : WalRecord) (torn : Bytes), lost.Fits →
      torn ≠ [] → torn <+: @Wal.serialize storedCodec lost →
      torn ≠ @Wal.serialize storedCodec lost →
      ∀ (t : ℕ) (dir : Dir) (outcomes : List (Option WriteFault)) (e e' : Engine),
      @Engine.open storedCodec t dir (some (@Wal.encode storedCodec R ++ torn)) outcomes = .ok e →
      ∀ cs : List Call, (∀ c ∈ cs, c.isPutOrDelete = true) → (∀ r ∈ runRecords cs, r.Fits) →
      @run storedCodec e cs = some e' →
      (@Wal.replay storedCodec e'.wal.file).1 = R ++ runRecords cs := by
  intro h
  obtain ⟨e, e', hopen, hrun, he'⟩ := exists_tornRun
  have hall := h [] (by simp) ⟨[107], [118]⟩ [253] (by decide) (by simp)
    (List.isPrefixOf_iff_prefix.mp (by decide +kernel)) (by decide +kernel) 1000 ∅ [] e e' hopen
    [.put [107] [118]] (by simp [Call.isPutOrDelete])
    (by simp [runRecords, Call.records, WalRecord.Fits]) hrun
  have hnone : (tornRun.map fun e' => (@Wal.replay storedCodec e'.wal.file).1) = some [] := by
    decide +kernel
  rw [he', Option.map_some, Option.some_inj] at hnone
  rw [hnone] at hall
  exact absurd hall (by simp [runRecords, Call.records])

end Engine

end Uldb
