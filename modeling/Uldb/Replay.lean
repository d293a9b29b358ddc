/-
What `open` rebuilds from a log.

The memtable after a replay holds, for every key, the last record of the key:
`finalValue` is that record's value, none for a delete marker.

* `getEntry_replayLog` — the memtable after the replay;
* `open_of_small` — a database whose replay stays below the threshold opens, and
  reads as the last record of every key, if its pages load and its trie can be
  rebuilt.
-/
import Uldb.EngineCalls

namespace Uldb

/-- What a record leaves at its key.  An empty value is a delete marker. -/
def WalRecord.live (r : WalRecord) : Option Bytes := if r.value = [] then none else some r.value

/-- The last record of a key. -/
def lastRecord (rs : List WalRecord) (k : Bytes) : Option WalRecord :=
  rs.reverse.find? fun r => r.key = k

/-- The value of a key after a run of records. -/
def finalValue (rs : List WalRecord) (k : Bytes) : Option Bytes :=
  (lastRecord rs k).bind WalRecord.live

theorem lastRecord_cons (r : WalRecord) (rs : List WalRecord) (k : Bytes) :
    lastRecord (r :: rs) k = (lastRecord rs k).or (if r.key = k then some r else none) := by
  rw [lastRecord, List.reverse_cons, List.find?_append, lastRecord]
  congr 1
  by_cases h : r.key = k <;> simp [h]

theorem key_of_lastRecord {rs : List WalRecord} {k : Bytes} {r : WalRecord}
    (h : lastRecord rs k = some r) : r ∈ rs ∧ r.key = k :=
  ⟨List.mem_reverse.mp (List.mem_of_find?_eq_some h), by simpa using List.find?_some h⟩

namespace Call

/-- A call of a plain workload: a put, a delete, or a step of the worker. -/
def isPutOrDelete : Call → Bool
  | put _ _ => true
  | delete _ => true
  | work => true
  | _ => false

theorem isMerge_of_isPutOrDelete {c : Call} (hc : c.isPutOrDelete = true) : c.isMerge = false := by
  cases c <;> first | rfl | exact absurd hc (by simp [isPutOrDelete])

end Call

namespace Engine

/-- The memtable after the replay of a run of records. -/
theorem getEntry_foldl_replayRecord (rs : List WalRecord) (m : Memtable × IndexManager)
    (k : Bytes) :
    ((rs.foldl replayRecord m).1.getEntry k).map MemEntry.value
      = ((lastRecord rs k).map WalRecord.live).or ((m.1.getEntry k).map MemEntry.value) := by
  induction rs generalizing m with
  | nil => rfl
  | cons r rs ih =>
    have hstep : ((replayRecord m r).1.getEntry k).map MemEntry.value
        = if r.key = k then some r.live else (m.1.getEntry k).map MemEntry.value := by
      have hwrite : (replayRecord m r).1 = m.1.write r.key r.live := by
        rw [replayRecord, WalRecord.live]
        by_cases hv : r.value = []
        · rw [if_pos hv, if_pos hv]
          rfl
        · rw [if_neg hv, if_neg hv]
          rfl
      rw [hwrite, Memtable.getEntry_write]
      by_cases hk : r.key = k
      · rw [if_pos hk, if_pos hk]
        rfl
      · rw [if_neg hk, if_neg hk]
    rw [List.foldl_cons, ih, hstep, lastRecord_cons]
    cases lastRecord rs k with
    | some r' => rfl
    | none => by_cases hk : r.key = k <;> simp [hk]

variable [Codec]

theorem getEntry_replayLog (t : ℕ) (log : Bytes) (k : Bytes) :
    ((replayLog t log).1.getEntry k).map MemEntry.value
      = (lastRecord (Wal.replay log).1 k).map WalRecord.live := by
  rw [replayLog, getEntry_foldl_replayRecord]
  simp

omit [Codec] in
/-- A key is a live entry of the memtable exactly if it is one of the trie's pairs. -/
theorem mem_liveEntries {m : Memtable} {k v : Bytes} :
    (k, v) ∈ liveEntries m ↔ (m.getEntry k).map MemEntry.value = some (some v) := by
  rw [liveEntries, List.mem_filterMap]
  constructor
  · rintro ⟨⟨k', entry⟩, hmem, hv⟩
    obtain ⟨v', hv', heq⟩ := Option.map_eq_some_iff.mp hv
    rw [Prod.mk.injEq] at heq
    obtain ⟨rfl, rfl⟩ := heq
    rw [Memtable.getEntry, Std.TreeMap.mem_toList_iff_getElem?_eq_some.mp hmem, Option.map_some,
      show entry.value = some v' from hv']
  · intro h
    obtain ⟨entry, hentry, hv⟩ := Option.map_eq_some_iff.mp h
    exact ⟨(k, entry), Std.TreeMap.mem_toList_iff_getElem?_eq_some.mpr hentry, by simp [hv]⟩

/-- The replay reaches the threshold, so that `open` flushes it. -/
def ReplayFlushes (t : ℕ) (log : Option Bytes) : Prop :=
  log.isSome = true ∧ (replayLog t (log.getD [])).1.shouldFlush = true

/-- The engine that `open` returns. -/
structure Opened (t : ℕ) (dir : Dir) (log : Option Bytes) (outcomes : List (Option WriteFault))
    (e : Engine) : Prop where
  levels : PageStore.loadAll dir = .ok e.compactor.compaction
  frozen : e.frozen = []
  cache : ∀ k, e.cache.lookup k = none
  wal : e.wal = WalWriter.open (log.getD []) outcomes
  flushCount : e.flushCount = 0
  flushThreshold : e.flushThreshold = t
  alive : e.compactor.alive = true
  indices : e.indices = (replayLog t (log.getD [])).2
  /-- The trie is rebuilt from what is in the memtable then. -/
  state : rebuildState e.memtable = some e.state
  kept : ¬ReplayFlushes t log →
    e.memtable = (replayLog t (log.getD [])).1 ∧ e.compactor.queue = []
  flushed : ReplayFlushes t log →
    e.memtable = (replayLog t (log.getD [])).1.toPage.2 ∧
      e.compactor.queue = [(replayLog t (log.getD [])).1.toPage.1]

theorem opened_of_open {t : ℕ} {dir : Dir} {log : Option Bytes}
    {outcomes : List (Option WriteFault)} {e : Engine}
    (h : Engine.open t dir log outcomes = .ok e) : Opened t dir log outcomes e := by
  rw [Engine.open] at h
  cases hload : PageStore.loadAll dir with
  | error f =>
    rw [hload] at h
    exact absurd h (by simp [bind, Except.bind])
  | ok cm =>
    rw [hload] at h
    simp only [bind, Except.bind] at h
    split at h
    · exact absurd h (by simp)
    · rename_i state hstate
      rw [Except.ok.injEq] at h
      subst h
      refine ⟨hload, rfl, fun k => LruCache.lookup_new _ k, rfl, rfl, rfl, rfl, rfl, hstate,
        fun hkept => ?_, fun hflush => ?_⟩
      · rw [ReplayFlushes] at hkept
        simp only [if_neg hkept, and_self]
      · rw [ReplayFlushes] at hflush
        simp only [if_pos hflush, and_self]

/-- Nothing is frozen yet. -/
theorem Opened.drained {t : ℕ} {dir : Dir} {log : Option Bytes}
    {outcomes : List (Option WriteFault)} {e : Engine} (ho : Opened t dir log outcomes e) :
    e.Drained := by
  rw [Drained, ho.frozen]
  exact fun m hm => absurd hm List.not_mem_nil

/-- The log after puts and deletes that all succeed: what was there, and their records. -/
theorem file_of_run {t : ℕ} {dir : Dir} {log : Option Bytes} {outcomes : List (Option WriteFault)}
    {e e' : Engine} (hopen : Engine.open t dir log outcomes = .ok e) {cs : List Call}
    (hcs : ∀ c ∈ cs, c.isPutOrDelete = true) (hrun : e.run cs = some e') :
    e'.wal.file = log.getD [] ++ Wal.encode (runRecords cs) := by
  obtain ⟨hcontent, hbuf⟩ := run_wal (fun c hc => Call.isMerge_of_isPutOrDelete (hcs c hc)) hrun
  rw [(opened_of_open hopen).wal] at hcontent hbuf
  have hempty : e'.wal.buffer = [] := hbuf rfl
  rw [WalWriter.content, hempty, List.append_nil] at hcontent
  rw [hcontent]
  simp [WalWriter.content, WalWriter.open]

/-- A replay below the threshold stays in the memtable, and is what is read. -/
theorem open_of_small {t : ℕ} {dir : Dir} {log : Option Bytes}
    (outcomes : List (Option WriteFault)) {cm : CompactionManager} {state : Hamt}
    (hload : PageStore.loadAll dir = .ok cm)
    (hsmall : (replayLog t (log.getD [])).1.shouldFlush = false)
    (hstate : rebuildState (replayLog t (log.getD [])).1 = some state) :
    ∃ e, Engine.open t dir log outcomes = .ok e ∧
      ∀ k, (e.get k).1 = ((lastRecord (Wal.replay (log.getD [])).1 k).map WalRecord.live).getD
        (cm.get k) := by
  have hkept : ¬ReplayFlushes t log := by
    rintro ⟨_, hflush⟩
    rw [hsmall] at hflush
    exact absurd hflush (by simp)
  obtain ⟨e, he⟩ : ∃ e, Engine.open t dir log outcomes = .ok e := by
    rw [ReplayFlushes] at hkept
    rw [Engine.open, hload]
    simp only [bind, Except.bind, if_neg hkept, hstate]
    exact ⟨_, rfl⟩
  have hopened := opened_of_open he
  have hlevels : e.compactor.compaction = cm := by
    have := hopened.levels
    rw [hload, Except.ok.injEq] at this
    exact this.symm
  refine ⟨e, he, fun k => ?_⟩
  rw [get_fst, (hopened.kept hkept).1, getEntry_replayLog, below, hopened.frozen, hopened.cache,
    hlevels]
  rfl

omit [Codec] in
theorem eq_ok_of_toOption {x : Except Failure Engine} {e : Engine} (h : x.toOption = some e) :
    x = .ok e := by
  cases x with
  | error f => exact absurd h (by simp [Except.toOption])
  | ok e₀ => rw [show e₀ = e by simpa [Except.toOption] using h]

/-- Open a database and run calls on it that all succeed. -/
def openRun (t : ℕ) (dir : Dir) (log : Option Bytes) (cs : List Call) : Option Engine :=
  (Engine.open t dir log []).toOption.bind fun e => e.run cs

theorem exists_of_openRun {t : ℕ} {dir : Dir} {log : Option Bytes} {cs : List Call} {e' : Engine}
    (h : openRun t dir log cs = some e') :
    ∃ e, Engine.open t dir log [] = .ok e ∧ e.run cs = some e' := by
  rw [openRun, Option.bind_eq_some_iff] at h
  obtain ⟨e, hopen, hrun⟩ := h
  exact ⟨e, eq_ok_of_toOption hopen, hrun⟩

end Engine

end Uldb
