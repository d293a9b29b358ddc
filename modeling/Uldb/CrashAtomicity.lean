/-
Crash atomicity of multi-record writes.

`put_batch` and the apply loop of `commit_tx` append one log record per write and
no mark that says where the group ends.  A crash in the middle of the append
therefore recovers an initial segment of the group, over whatever the page files
hold.

`crash_atomic_iff`: what the next `open` reads is all or nothing exactly if it is
for every initial segment of the records that the replay finds.  As long as the
replay stays below the threshold, that means that the group changes one key at
most, and no record of it leaves a third value there.
-/
import Uldb.HamtDigits
import Uldb.Lib.PointWrites
import Uldb.Reopen
import Uldb.Server

namespace Uldb

/-- A key-value state. -/
abbrev KvState := Bytes → Option Bytes

/-- A write of several records: a batch, or the write buffer of a commit. -/
inductive MultiWrite where
  | batch (entries : List (Bytes × Bytes))
  | commit (ops : List TxOp)

namespace MultiWrite

/-- The call. -/
def exec [Codec] : MultiWrite → EngineM Unit
  | batch entries => Engine.putBatch entries
  | commit ops => applyBuffer ops

/-- The writes: a key and what it is to hold afterwards. -/
def writes : MultiWrite → List (Bytes × Option Bytes)
  | batch entries => entries.map fun kv => (kv.1, some kv.2)
  | commit ops => ops.map fun op => (op.key, op.value)

/-- The log records. -/
def records : MultiWrite → List WalRecord
  | batch entries => Engine.batchRecords entries
  | commit ops => Engine.runRecords (ops.map TxOp.call)

/-- The state after all of the writes. -/
def after (w : MultiWrite) (s : KvState) : KvState :=
  w.writes.foldl (fun s kv => Function.update s kv.1 kv.2) s

end MultiWrite

namespace Engine

/-- What the reads of an engine answer. -/
def reads (e : Engine) : KvState := fun k => (e.get k).1

/-- The memtable that is rebuilt from records. -/
def replayed (t : ℕ) (rs : List WalRecord) : Memtable :=
  (rs.foldl replayRecord (Memtable.new t, IndexManager.new)).1

/-- The reads of records that are kept in the memtable, over the page files. -/
def readsOver (levels : CompactionManager) (rs : List WalRecord) : KvState := fun k =>
  ((lastRecord rs k).map WalRecord.live).getD (levels.get k)

theorem getEntry_replayed (t : ℕ) (rs : List WalRecord) (k : Bytes) :
    ((replayed t rs).getEntry k).map MemEntry.value = (lastRecord rs k).map WalRecord.live := by
  rw [replayed, getEntry_foldl_replayRecord, Memtable.getEntry_new, Option.map_none, Option.or_none]

/-- Records are point writes to what is read. -/
theorem readsOver_append (levels : CompactionManager) (rs more : List WalRecord) :
    readsOver levels (rs ++ more)
      = updateAll (readsOver levels rs) (more.map fun r => (r.key, r.live)) := by
  induction more generalizing rs with
  | nil => rw [List.append_nil, List.map_nil, updateAll_nil]
  | cons r more ih =>
    have hfirst : readsOver levels (rs ++ [r])
        = Function.update (readsOver levels rs) r.key r.live := by
      funext k
      rw [readsOver, lastRecord_append, Option.map_or]
      rcases eq_or_ne k r.key with rfl | hk
      · rw [Function.update_self]
        simp [lastRecord]
      · rw [Function.update_of_ne hk]
        simp [lastRecord, Ne.symm hk, readsOver]
    rw [List.append_cons, ih, hfirst, List.map_cons, updateAll_cons]

/-- A trie can be rebuilt exactly if the live keys have different hashes. -/
theorem exists_rebuildState_iff {m : Memtable} : (∃ state, rebuildState m = some state) ↔
    Set.InjOn fnv1a {k | (((m.getEntry k).map MemEntry.value).join).isSome} := by
  constructor
  · rintro ⟨state, hstate⟩ k hk k' hk' heq
    rw [Set.mem_ofPred_eq, ← get_rebuildState hstate] at hk hk'
    exact Hamt.eq_of_fnv1a_eq hk hk' heq
  · intro hinj
    refine Hamt.foldlM_put_isSome hinj (fun kv hkv => ?_) fun k hk => ?_
    · rw [Set.mem_ofPred_eq, mem_liveEntries.mp hkv]
      rfl
    · rw [Hamt.get_new] at hk
      exact absurd hk (by simp)

variable [Codec]

/-- What is read after `open` has found records and page files: if the replay is kept, then
the trie can be rebuilt and the records are read over the page files; if it is flushed, then
the page files are read first, and the page of the replay is among them once the worker has
added it. -/
structure Restores (t : ℕ) (levels : CompactionManager) (rs : List WalRecord)
    (P : KvState → Prop) : Prop where
  kept : (replayed t rs).shouldFlush = false →
    Set.InjOn fnv1a {k | (finalValue rs k).isSome} ∧ P (readsOver levels rs)
  flushed : (replayed t rs).shouldFlush = true →
    P levels.get ∧ P (levels.addL0Page (replayed t rs).toPage.1).get

/-- The next session opens, and what it reads has a property, both at once and when the
worker has processed what `open` submitted. -/
def Reopens (t : ℕ) (dir : Dir) (log : Bytes) (outcomes : List (Option WriteFault))
    (P : KvState → Prop) : Prop :=
  ∃ e, Engine.open t dir (some log) outcomes = .ok e ∧ P e.reads ∧ P e.work.reads

section

variable {t : ℕ} {dir : Dir} {log : Option Bytes} {outcomes : List (Option WriteFault)} {e : Engine}

/-- The levels that `open` loads, and the levels once the worker has processed what it
submitted, are all that is read once a replay is flushed. -/
theorem Opened.reads_flushed (ho : Opened t dir log outcomes e) (hflush : ReplayFlushes t log) :
    e.reads = e.compactor.compaction.get ∧
      e.work.reads = (e.compactor.compaction.addL0Page (replayPage t log)).get := by
  have hmem : ∀ k, e.memtable.getEntry k = none := fun k => by
    rw [(ho.flushed hflush).1, Memtable.getEntry_toPage]
  have hwork : e.work.Uncached := ⟨ho.uncached.drained, ho.uncached.cache⟩
  constructor <;> funext k
  · rw [reads, ho.uncached.get_fst, hmem]
    rfl
  · have hmem' : e.work.memtable.getEntry k = none := hmem k
    rw [reads, hwork.get_fst, ho.levels_work.1 hflush, hmem']
    rfl

/-- A replay that is kept is read over the page files. -/
theorem Opened.reads_kept (ho : Opened t dir log outcomes e) (hkept : ¬ReplayFlushes t log) :
    e.reads = readsOver e.compactor.compaction (Wal.replay (log.getD [])).1 ∧
      e.work.reads = e.reads := by
  have hmem : ∀ k, (e.memtable.getEntry k).map MemEntry.value
      = (lastRecord (Wal.replay (log.getD [])).1 k).map WalRecord.live := fun k => by
    rw [(ho.kept hkept).1, getEntry_replayLog]
  have hwork : e.work.Uncached := ⟨ho.uncached.drained, ho.uncached.cache⟩
  constructor <;> funext k
  · rw [reads, ho.uncached.get_fst, hmem, readsOver]
  · rw [reads, reads, hwork.get_fst, ho.uncached.get_fst, ho.levels_work.2 hkept]
    rfl

end

omit [Codec] in
theorem liveKeys_replayed (t : ℕ) (rs : List WalRecord) :
    {k | ((((replayed t rs).getEntry k).map MemEntry.value).join).isSome}
      = {k | (finalValue rs k).isSome} := by
  ext k
  rw [Set.mem_ofPred_eq, Set.mem_ofPred_eq, getEntry_replayed, finalValue]
  cases lastRecord rs k <;> rfl

/-- The database opens if its pages load and the live keys of a replay that is kept have
different hashes. -/
theorem exists_open {t : ℕ} {dir : Dir} {log : Bytes} {outcomes : List (Option WriteFault)}
    {levels : CompactionManager} (hload : PageStore.loadAll dir = .ok levels)
    (hkept : (replayed t (Wal.replay log).1).shouldFlush = false →
      Set.InjOn fnv1a {k | (finalValue (Wal.replay log).1 k).isSome}) :
    ∃ e, Engine.open t dir (some log) outcomes = .ok e := by
  have hmem : (replayLog t log).1 = replayed t (Wal.replay log).1 := rfl
  rw [Engine.open, hload]
  simp only [bind, Except.bind, Option.isSome_some, true_and, Option.getD_some, hmem]
  cases hflush : (replayed t (Wal.replay log).1).shouldFlush with
  | true =>
    -- the memtable was drained
    obtain ⟨state, hstate⟩ : ∃ state,
        rebuildState (replayed t (Wal.replay log).1).toPage.2 = some state :=
      exists_rebuildState_iff.mpr (by simp [Memtable.getEntry_toPage])
    simp only [if_true, hstate]
    exact ⟨_, rfl⟩
  | false =>
    have hlive := hkept hflush
    rw [← liveKeys_replayed t] at hlive
    obtain ⟨state, hstate⟩ := exists_rebuildState_iff.mpr hlive
    simp only [Bool.false_eq_true, if_false, hstate]
    exact ⟨_, rfl⟩

/-- **What is read after `open`**, from a log and page files. -/
theorem reopens_iff (t : ℕ) (dir : Dir) (log : Bytes) (outcomes : List (Option WriteFault))
    (P : KvState → Prop) : Reopens t dir log outcomes P ↔
      ∃ levels, PageStore.loadAll dir = .ok levels ∧ Restores t levels (Wal.replay log).1 P := by
  have hflushes : ReplayFlushes t (some log)
      ↔ (replayed t (Wal.replay log).1).shouldFlush = true := by
    rw [ReplayFlushes]
    exact and_iff_right rfl
  constructor
  · rintro ⟨e, hopen, hfirst, hworked⟩
    have ho := opened_of_open hopen
    refine ⟨_, ho.levels, fun hsmall => ?_, fun hlarge => ?_⟩
    · have hkept : ¬ReplayFlushes t (some log) := fun h => by
        rw [hflushes.mp h] at hsmall
        exact absurd hsmall (by simp)
      refine ⟨?_, (ho.reads_kept hkept).1 ▸ hfirst⟩
      rw [← liveKeys_replayed t]
      refine exists_rebuildState_iff.mp ⟨e.state, ?_⟩
      rw [← ho.state, (ho.kept hkept).1]
      rfl
    · have hreads := ho.reads_flushed (hflushes.mpr hlarge)
      exact ⟨hreads.1 ▸ hfirst, hreads.2 ▸ hworked⟩
  -- the other way round, the pages load and the trie is rebuilt, so that `open` succeeds
  · rintro ⟨levels, hload, hkept, hflushed⟩
    obtain ⟨e, hopen⟩ := exists_open hload fun hsmall => (hkept hsmall).1
    have ho := opened_of_open hopen
    obtain rfl : levels = e.compactor.compaction := Except.ok.inj (hload.symm.trans ho.levels)
    refine ⟨e, hopen, ?_⟩
    by_cases hflush : ReplayFlushes t (some log)
    · obtain ⟨hfirst, hworked⟩ := ho.reads_flushed hflush
      rw [hfirst, hworked]
      exact hflushed (hflushes.mp hflush)
    · have hsmall : (replayed t (Wal.replay log).1).shouldFlush = false := by
        rw [Bool.eq_false_iff]
        exact fun h => hflush (hflushes.mpr h)
      obtain ⟨hfirst, hworked⟩ := ho.reads_kept hflush
      rw [hworked, hfirst]
      exact ⟨(hkept hsmall).2, (hkept hsmall).2⟩

end Engine

/-! ### All or nothing -/

section

variable [Codec]

namespace MultiWrite

/-- The log bytes of a group of writes are its records, behind what was there. -/
theorem exec_content {w : MultiWrite} {e e' : Engine} {u : Unit}
    (h : w.exec e = .ok u e') : e'.wal.content = e.wal.content ++ Wal.encode w.records := by
  cases w with
  | batch entries =>
    have hexec : Engine.exec (.putBatch entries) e = .ok u e' := h
    exact (Engine.exec_wal rfl hexec).1
  | commit ops =>
    refine (Engine.run_wal (fun c hc => ?_) (run_of_applyBuffer h)).1
    obtain ⟨op, _, rfl⟩ := List.mem_map.mp hc
    cases op <;> rfl

/-- The records that a replay reads back from the append.  On an intact log, records within
the log's limits are read back as they are (`Wal.added_encode`). -/
def added (w : MultiWrite) (log : Bytes) : List WalRecord := Wal.added log (Wal.encode w.records)

/-- What the replay finds if the crash has cut the append behind its `i`th record. -/
def segment (w : MultiWrite) (log : Bytes) (i : ℕ) : List WalRecord :=
  (Wal.replay log).1 ++ (w.added log).take i

/-- A state is the one before the group of writes or the one after all of them. -/
def AllOrNothing (w : MultiWrite) (s x : KvState) : Prop := x = s ∨ x = w.after s

/-- After every crash during the append, whatever byte prefix it preserves, the next session
opens and reads what was there before, or what is there after all of the writes. -/
def CrashAtomic (w : MultiWrite) (e : Engine) (t : ℕ) (dir : Dir)
    (outcomes : List (Option WriteFault)) : Prop :=
  ∀ cut, cut <+: Wal.encode w.records →
    Engine.Reopens t dir (e.wal.content ++ cut) outcomes (w.AllOrNothing e.reads)

/-- The group of writes changes one key at most, and none of its records leaves a value there
that is neither the one before nor the one after, or its records change nothing. -/
structure OneKey (w : MultiWrite) (s start : KvState) (rs : List WalRecord) : Prop where
  first : w.AllOrNothing s start
  values : ∀ r ∈ rs, r.live = s r.key ∨ r.live = w.after s r.key
  once : (∀ r ∈ rs, r.live = start r.key) ∨ DifferOnce s (w.after s)

/-- The next session reads, from every initial segment of the records, the state before or
the state after. -/
def SegmentsAtomic (w : MultiWrite) (e : Engine) (t : ℕ) (levels : CompactionManager) : Prop :=
  ∀ i ≤ (w.added e.wal.content).length,
    Engine.Restores t levels (w.segment e.wal.content i) (w.AllOrNothing e.reads)

/-- No crash during the append leaves a log whose replay reaches the threshold. -/
def StaysSmall (w : MultiWrite) (e : Engine) (t : ℕ) : Prop :=
  ∀ i ≤ (w.added e.wal.content).length,
    (Engine.replayed t (w.segment e.wal.content i)).shouldFlush = false

/-- No initial segment of the records leaves two live keys with the same hash. -/
def HashesDiffer (w : MultiWrite) (e : Engine) : Prop :=
  ∀ i ≤ (w.added e.wal.content).length,
    Set.InjOn fnv1a {k | (finalValue (w.segment e.wal.content i) k).isSome}

/-- All initial segments of the records are all or nothing over the page files exactly if
one key at most is changed. -/
theorem forall_segment_iff (w : MultiWrite) (log : Bytes) (levels : CompactionManager)
    (s : KvState) :
    (∀ i ≤ (w.added log).length, w.AllOrNothing s (Engine.readsOver levels (w.segment log i))) ↔
      w.OneKey s (Engine.readsOver levels (Wal.replay log).1) (w.added log) := by
  have hstages : (∀ i ≤ (w.added log).length,
      w.AllOrNothing s (Engine.readsOver levels (w.segment log i))) ↔
      Stages (Engine.readsOver levels (Wal.replay log).1)
        ((w.added log).map fun r => (r.key, r.live)) s (w.after s) := by
    rw [Stages, List.length_map]
    refine forall₂_congr fun i _ => ?_
    rw [segment, Engine.readsOver_append, List.map_take]
    rfl
  rw [hstages, stages_iff]
  simp only [List.forall_mem_map]
  exact ⟨fun ⟨hfirst, hvalues, honce⟩ => ⟨hfirst, hvalues, honce⟩,
    fun ⟨hfirst, hvalues, honce⟩ => ⟨hfirst, hvalues, honce⟩⟩

end MultiWrite

/-- **Crash atomicity.**  A group of writes on any engine, and any page files that the next
session finds: the group is all or nothing under every crash exactly if the page files load
and the next session, from every initial segment of the records, can rebuild its trie and
reads the state before or the state after.  As long as the replay stays below the threshold,
this means that the group changes one key at most. -/
theorem crash_atomic_iff (w : MultiWrite) {e e' : Engine} (h : w.exec e = .ok () e') (t : ℕ)
    (dir : Dir) (outcomes : List (Option WriteFault)) :
    e'.wal.content = e.wal.content ++ Wal.encode w.records ∧
      (w.CrashAtomic e t dir outcomes ↔
        ∃ levels, PageStore.loadAll dir = .ok levels ∧ w.SegmentsAtomic e t levels) ∧
      ∀ levels, PageStore.loadAll dir = .ok levels → w.StaysSmall e t →
        (w.CrashAtomic e t dir outcomes ↔ w.HashesDiffer e ∧
          w.OneKey e.reads (Engine.readsOver levels (Wal.replay e.wal.content).1)
            (w.added e.wal.content)) := by
  have hatomic : w.CrashAtomic e t dir outcomes ↔
      ∃ levels, PageStore.loadAll dir = .ok levels ∧ w.SegmentsAtomic e t levels := by
    -- a cut of the bytes is an initial segment of the records
    have hcuts := Wal.forall_cut_iff e.wal.content (Wal.encode w.records) fun rs =>
      ∃ levels, PageStore.loadAll dir = .ok levels ∧
        Engine.Restores t levels rs (w.AllOrNothing e.reads)
    simp only [MultiWrite.CrashAtomic, Engine.reopens_iff]
    rw [hcuts]
    constructor
    · intro hall
      obtain ⟨levels, hload, -⟩ := hall 0 (Nat.zero_le _)
      refine ⟨levels, hload, fun i hi => ?_⟩
      obtain ⟨levels', hload', hrestores⟩ := hall i hi
      obtain rfl : levels' = levels := Except.ok.inj (hload'.symm.trans hload)
      exact hrestores
    · rintro ⟨levels, hload, hall⟩ i hi
      exact ⟨levels, hload, hall i hi⟩
  refine ⟨w.exec_content h, hatomic, fun levels hload hsmall => ?_⟩
  rw [hatomic, ← w.forall_segment_iff]
  constructor
  · rintro ⟨levels', hload', hall⟩
    obtain rfl : levels' = levels := Except.ok.inj (hload'.symm.trans hload)
    exact ⟨fun i hi => ((hall i hi).kept (hsmall i hi)).1,
      fun i hi => ((hall i hi).kept (hsmall i hi)).2⟩
  · rintro ⟨hhash, hall⟩
    refine ⟨levels, hload, fun i hi => ⟨fun _ => ⟨hhash i hi, hall i hi⟩, fun hlarge => ?_⟩⟩
    rw [hsmall i hi] at hlarge
    exact absurd hlarge (by simp)

end

/-! ### A key in a page -/

theorem finalValue_eq_none {rs : List WalRecord} (h : ∀ r ∈ rs, r.live = none) (k : Bytes) :
    finalValue rs k = none := by
  rw [finalValue]
  cases hr : lastRecord rs k with
  | none => rfl
  | some r => exact h r (key_of_lastRecord hr).1

/-- Page files that hold one key, and an engine that was opened on them without a log. -/
def pagedKey : Option (Dir × Engine) :=
  (Engine.reopen 1 [.put [97] [1], .work]).bind fun s =>
    (@Engine.open storedCodec 1000 s.1.compactor.dir none []).toOption.map fun e =>
      (s.1.compactor.dir, e)

theorem exists_pagedKey : ∃ dir e, pagedKey = some (dir, e) ∧
    @Engine.open storedCodec 1000 dir none [] = .ok e := by
  have hsome : pagedKey.isSome = true := by decide +kernel
  obtain ⟨⟨dir, e⟩, he⟩ := Option.isSome_iff_exists.mp hsome
  have hbind := he
  rw [pagedKey, Option.bind_eq_some_iff] at hbind
  obtain ⟨s, -, hopened⟩ := hbind
  obtain ⟨e', hopen, hpair⟩ := Option.map_eq_some_iff.mp hopened
  rw [Prod.mk.injEq] at hpair
  obtain ⟨rfl, rfl⟩ := hpair
  exact ⟨_, _, he, Engine.eq_ok_of_toOption hopen⟩

/-- To delete the key is all or nothing; to delete it and to put another one is not: the
delete alone, over the page, is neither of the two states. -/
theorem crash_atomic_pagedKey : ∃ dir e, pagedKey = some (dir, e) ∧
    @MultiWrite.CrashAtomic storedCodec (.commit [.delete [97]]) e 1000 dir [] ∧
    ¬@MultiWrite.CrashAtomic storedCodec (.commit [.delete [97], .put [98] [2]]) e 1000 dir [] := by
  obtain ⟨dir, e, he, hopen⟩ := exists_pagedKey
  have ho := @Engine.opened_of_open storedCodec _ _ _ _ _ hopen
  have hlog : e.wal.content = [] := by
    rw [@Engine.Opened.wal storedCodec _ _ _ _ _ ho]
    rfl
  -- the page is read, and both calls return
  have heval : (pagedKey.map fun s => ((s.2.reads [97], s.2.reads [98]),
      ((Fallible.success (@MultiWrite.exec storedCodec (.commit [.delete [97]]) s.2)).isSome,
        (Fallible.success (@MultiWrite.exec storedCodec
          (.commit [.delete [97], .put [98] [2]]) s.2)).isSome)))
      = some ((some [1], none), (true, true)) := by decide +kernel
  rw [he, Option.map_some, Option.some_inj] at heval
  simp only [Prod.mk.injEq] at heval
  obtain ⟨⟨ha, hb⟩, hdelete, hboth⟩ := heval
  have hkept : ¬@Engine.ReplayFlushes storedCodec 1000 none := fun h => absurd h.1 (by simp)
  have hreads := (@Engine.Opened.reads_kept storedCodec _ _ _ _ _ ho hkept).1
  rw [Option.getD_none, @Wal.replay_nil storedCodec] at hreads
  refine ⟨dir, e, he, ?_, fun hatomic => ?_⟩
  -- the delete alone: without its record the page is read, and with it the state after
  · obtain ⟨⟨_, e'⟩, hsucc⟩ := Option.isSome_iff_exists.mp hdelete
    obtain ⟨_, hexec⟩ := Fallible.success_eq_some hsucc
    have hsmall : @MultiWrite.StaysSmall storedCodec (.commit [.delete [97]]) e 1000 := by
      rw [@MultiWrite.StaysSmall.eq_1 storedCodec, hlog]
      decide +kernel
    have hrecords : @MultiWrite.added storedCodec (.commit [.delete [97]]) [] = [⟨[97], []⟩] := by
      decide +kernel
    refine ((@crash_atomic_iff storedCodec _ _ _ hexec 1000 dir []).2.2 _
      (@Engine.Opened.levels storedCodec _ _ _ _ _ ho) hsmall).mpr ⟨fun i _ k hk => ?_, ?_⟩
    · rw [@MultiWrite.segment.eq_1 storedCodec, hlog, hrecords, Set.mem_ofPred_eq,
        finalValue_eq_none] at hk
      · exact absurd hk (by simp)
      · exact fun r hr => by
          rw [@Wal.replay_nil storedCodec, List.nil_append] at hr
          rw [List.mem_singleton.mp (List.mem_of_mem_take hr)]
          rfl
    · rw [hlog, hrecords, @Wal.replay_nil storedCodec, ← hreads]
      refine ⟨.inl rfl, fun r hr => .inr ?_, .inr ⟨[97], fun k hk => ?_⟩⟩
      · rw [List.mem_singleton.mp hr]
        simp [MultiWrite.after, MultiWrite.writes, TxOp.key, TxOp.value, WalRecord.live]
      · simp [MultiWrite.after, MultiWrite.writes, TxOp.key, hk]
  · obtain ⟨⟨_, e'⟩, hsucc⟩ := Option.isSome_iff_exists.mp hboth
    obtain ⟨_, hexec⟩ := Fallible.success_eq_some hsucc
    have hsmall : @MultiWrite.StaysSmall storedCodec (.commit [.delete [97], .put [98] [2]]) e
        1000 := by
      rw [@MultiWrite.StaysSmall.eq_1 storedCodec, hlog]
      decide +kernel
    have hrecords : @MultiWrite.added storedCodec (.commit [.delete [97], .put [98] [2]]) []
        = [⟨[97], []⟩, ⟨[98], [2]⟩] := by
      decide +kernel
    have honce := (((@crash_atomic_iff storedCodec _ _ _ hexec 1000 dir []).2.2 _
      (@Engine.Opened.levels storedCodec _ _ _ _ _ ho) hsmall).mp hatomic).2.once
    rw [hlog, hrecords, @Wal.replay_nil storedCodec, ← hreads] at honce
    rcases honce with hkept | ⟨key, hkey⟩
    · have hdeleted := hkept ⟨[97], []⟩ (by simp)
      rw [ha] at hdeleted
      exact absurd hdeleted (by simp [WalRecord.live])
    · -- both keys change
      rcases eq_or_ne [98] key with rfl | hne
      · have hread := hkey [97] (by simp)
        rw [ha] at hread
        simp [MultiWrite.after, MultiWrite.writes, TxOp.key, TxOp.value] at hread
      · have hread := hkey [98] hne
        rw [hb] at hread
        simp [MultiWrite.after, MultiWrite.writes, TxOp.key, TxOp.value] at hread

/-! ### Half a batch -/

/-- An engine on an empty directory, after a batch of two keys. -/
def twoKeys : Option (Engine × Engine) :=
  (@Engine.open storedCodec 1000 ∅ none []).toOption.bind fun e =>
    (Fallible.success (@MultiWrite.exec storedCodec (.batch [([97], [1]), ([98], [2])]) e)).map
      fun e' => (e, e')

theorem exists_twoKeys : ∃ e e',
    @MultiWrite.exec storedCodec (.batch [([97], [1]), ([98], [2])]) e = .ok () e' ∧
      twoKeys = some (e, e') := by
  have hsome : twoKeys.isSome = true := by decide +kernel
  obtain ⟨⟨e, e'⟩, he⟩ := Option.isSome_iff_exists.mp hsome
  have hbind := he
  rw [twoKeys, Option.bind_eq_some_iff] at hbind
  obtain ⟨e₀, _, hrun⟩ := hbind
  obtain ⟨e₁, hsucc, heq⟩ := Option.map_eq_some_iff.mp hrun
  rw [Prod.mk.injEq] at heq
  obtain ⟨rfl, rfl⟩ := heq
  obtain ⟨_, hexec⟩ := Fallible.success_eq_some hsucc
  exact ⟨e₀, e₁, hexec, he⟩

/-- A crash between the two records recovers the first key without the second. -/
theorem crash_between_two_keys :
    ¬∀ (w : MultiWrite) (e e' : Engine), @MultiWrite.exec storedCodec w e = .ok () e' →
      @MultiWrite.CrashAtomic storedCodec w e e.flushThreshold e'.compactor.dir [] := by
  intro h
  obtain ⟨e, e', hexec, he⟩ := exists_twoKeys
  have heval : (twoKeys.map fun s => ((s.1.wal.content, s.1.flushThreshold),
      (s.2.compactor.dir.isEmpty, s.1.reads [97]))) = some (([], 1000), (true, none)) := by
    decide +kernel
  rw [he, Option.map_some, Option.some_inj] at heval
  simp only [Prod.mk.injEq] at heval
  obtain ⟨⟨hlog, ht⟩, hdir, ha⟩ := heval
  -- keep the first record only
  have hcut : @Wal.encode storedCodec [⟨[97], [1]⟩] <+:
      @Wal.encode storedCodec (MultiWrite.batch [([97], [1]), ([98], [2])]).records :=
    List.isPrefixOf_iff_prefix.mp (by decide +kernel)
  have hone := h _ e e' hexec _ hcut
  rw [hlog, ht, List.nil_append, @Engine.reopens_iff storedCodec,
    @PageStore.loadAll_empty storedCodec _ hdir] at hone
  obtain ⟨levels, hload, hrestores⟩ := hone
  obtain rfl := Except.ok.inj hload
  have hfirst : (@Wal.replay storedCodec (@Wal.encode storedCodec [⟨[97], [1]⟩])).1
      = [⟨[97], [1]⟩] := by decide +kernel
  rw [hfirst] at hrestores
  obtain ⟨-, hone⟩ := @Engine.Restores.kept storedCodec _ _ _ _ hrestores (by decide +kernel)
  rcases hone with hone | hone
  · have hread := congrFun hone [97]
    rw [ha] at hread
    exact absurd hread (by decide +kernel)
  · have hafter : (MultiWrite.batch [([97], [1]), ([98], [2])]).after e.reads [98] = some [2] := by
      simp [MultiWrite.after, MultiWrite.writes]
    have hread := congrFun hone [98]
    rw [hafter] at hread
    exact absurd hread (by decide +kernel)

end Uldb
