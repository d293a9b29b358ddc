/-
What a database reads after it is opened again.

`open` rebuilds the memtable, and from it the trie, from the log, and the levels from
the page files.  Three things can tell the parts apart:

* `state_agrees_iff` — a replay that reaches the threshold is flushed before the trie
  is rebuilt, so the trie misses what the flushed page holds;
* `scan_agrees_iff` — the flush counter starts at zero, so a scan takes its fast path
  and misses what the levels hold;
* `reopened_iff` — an empty value is logged as a delete marker.
-/
import Uldb.Sessions
import Uldb.Writes
import Uldb.Scan

namespace Uldb

open Fallible

/-! ### Log records -/

/-- What is left of a value after the log: an empty value is a delete marker. -/
def logged (v : Option Bytes) : Option Bytes :=
  v.bind fun bytes => if bytes = [] then none else some bytes

theorem logged_eq_self {v : Option Bytes} : logged v = v ↔ v ≠ some [] := by
  cases v with
  | none => simp [logged]
  | some bytes => by_cases h : bytes = [] <;> simp [logged, h]

/-- The log record of a write. -/
def logRecord (w : Bytes × Option Bytes) : WalRecord := ⟨w.1, w.2.getD []⟩

theorem logRecord_live (w : Bytes × Option Bytes) : (logRecord w).live = logged w.2 := by
  obtain ⟨key, value⟩ := w
  cases value with
  | none => rfl
  | some bytes => by_cases h : bytes = [] <;> simp [logRecord, WalRecord.live, logged, h]

theorem logged_live (r : WalRecord) : logged r.live = r.live := by
  rw [logged_eq_self, WalRecord.live]
  by_cases h : r.value = [] <;> simp [h]

theorem lastRecord_append (rs rs' : List WalRecord) (k : Bytes) :
    lastRecord (rs ++ rs') k = (lastRecord rs' k).or (lastRecord rs k) := by
  rw [lastRecord, List.reverse_append, List.find?_append]
  rfl

theorem live_lastRecord (ws : List (Bytes × Option Bytes)) (k : Bytes) :
    (lastRecord (ws.map logRecord) k).map WalRecord.live = (lastWrite ws k).map logged := by
  rw [lastRecord, ← List.map_reverse, List.find?_map, Option.map_map, lastWrite, Option.map_map]
  congr 1
  funext w
  exact logRecord_live w

theorem Call.records_eq {c : Call} (hc : c.isPutOrDelete = true) :
    c.records = c.entries.map logRecord := by
  cases c with
  | put | delete | work => rfl
  | _ => exact absurd hc (by simp [isPutOrDelete])

namespace Engine

/-! ### The rebuilt trie -/

theorem liveEntries_keys_nodup (m : Memtable) : ((liveEntries m).map Prod.fst).Nodup := by
  have hkeys : ((liveEntries m).map Prod.fst).Sublist (m.entries.toList.map Prod.fst) := by
    rw [liveEntries, List.map_filterMap]
    induction m.entries.toList with
    | nil => exact List.Sublist.refl _
    | cons ke es ih =>
      obtain ⟨k, v, seq⟩ := ke
      cases v with
      | none => exact ih.cons _
      | some v => exact ih.cons_cons _
  refine hkeys.nodup ?_
  rw [Std.TreeMap.map_fst_toList_eq_keys]
  exact Std.TreeMap.nodup_keys

/-- The rebuilt trie holds the live entries of the memtable. -/
theorem get_rebuildState {m : Memtable} {state : Hamt} (h : rebuildState m = some state)
    (k : Bytes) : state.get k = ((m.getEntry k).map MemEntry.value).join := by
  obtain ⟨hin, hout⟩ := Hamt.get_foldlM_put (liveEntries_keys_nodup m) h k
  cases hv : ((m.getEntry k).map MemEntry.value).join with
  | some v => exact hin v (mem_liveEntries.mpr (Option.join_eq_some_iff.mp hv))
  | none =>
    refine (hout fun hmem => ?_).trans (Hamt.get_new k)
    obtain ⟨⟨k', v⟩, hkv, rfl⟩ := List.mem_map.mp hmem
    rw [mem_liveEntries.mp hkv] at hv
    exact absurd hv (by simp)

/-- Nothing was read since `open`, so the cache is empty; the frozen memtables always are. -/
structure Uncached (e : Engine) : Prop where
  drained : e.Drained
  cache : ∀ k, e.cache.lookup k = none

variable {e : Engine}

/-- A read asks the memtable and the levels. -/
theorem Uncached.get_fst (he : e.Uncached) (k : Bytes) :
    (e.get k).1 = ((e.memtable.getEntry k).map MemEntry.value).getD
      (e.compactor.compaction.get k) := by
  rw [Engine.get_fst, he.drained.below_eq, he.cache]
  rfl

variable [Codec]

section

variable {t : ℕ} {dir : Dir} {log : Option Bytes} {outcomes : List (Option WriteFault)}

theorem Opened.uncached (ho : Opened t dir log outcomes e) : e.Uncached where
  drained := ho.drained
  cache := ho.cache

/-- The page of a replay that has reached the threshold. -/
def replayPage (t : ℕ) (log : Option Bytes) : Page := (replayLog t (log.getD [])).1.toPage.1

/-- The levels once the worker has processed what `open` submitted. -/
theorem Opened.levels_work (ho : Opened t dir log outcomes e) :
    (ReplayFlushes t log → e.work.compactor.compaction
      = e.compactor.compaction.addL0Page (replayPage t log)) ∧
    (¬ReplayFlushes t log → e.work.compactor.compaction = e.compactor.compaction) := by
  constructor
  · intro hflush
    rw [work, BackgroundCompactor.receive, (ho.flushed hflush).2]
    rfl
  · intro hkept
    rw [work, BackgroundCompactor.receive, (ho.kept hkept).2]

/-- What the trie needs in order to agree with the reads: if the replay is flushed, then
nothing is live; if it is kept, then nothing is live that is not in the log. -/
def StateCovers (t : ℕ) (log : Option Bytes) (levels : CompactionManager) : Prop :=
  (ReplayFlushes t log → ∀ k, (levels.addL0Page (replayPage t log)).get k = none) ∧
    (¬ReplayFlushes t log → ∀ k, lastRecord (Wal.replay (log.getD [])).1 k = none →
      levels.get k = none)

/-- **The trie after `open`**, once the worker has processed what was submitted, agrees
with the reads exactly if the replay stays below the threshold and no key is live that is
not in the log, or reaches it and no key is live at all. -/
theorem state_agrees_iff {levels : CompactionManager} (hload : PageStore.loadAll dir = .ok levels)
    (hopen : Engine.open t dir log outcomes = .ok e) :
    (∀ k, e.work.state.get k = (e.work.get k).1) ↔ StateCovers t log levels := by
  have ho := opened_of_open hopen
  obtain rfl : levels = e.compactor.compaction := Except.ok.inj (hload.symm.trans ho.levels)
  have hstate : ∀ k, e.work.state.get k = ((e.memtable.getEntry k).map MemEntry.value).join :=
    get_rebuildState ho.state
  have hwork : e.work.Uncached := ⟨ho.uncached.drained, ho.uncached.cache⟩
  have hget : ∀ k, (e.work.get k).1 = ((e.memtable.getEntry k).map MemEntry.value).getD
      (e.work.compactor.compaction.get k) := hwork.get_fst
  by_cases hflush : ReplayFlushes t log
  · -- the memtable was drained before the trie was rebuilt
    have hmem : ∀ k, e.memtable.getEntry k = none := fun k => by
      rw [(ho.flushed hflush).1, Memtable.getEntry_toPage]
    have hlevels := ho.levels_work.1 hflush
    constructor
    · intro h
      refine ⟨fun _ k => ?_, fun hkept => absurd hflush hkept⟩
      have hk := h k
      rw [hstate, hget, hmem, hlevels] at hk
      exact hk.symm
    · intro h k
      rw [hstate, hget, hmem, hlevels]
      exact (h.1 hflush k).symm
  · have hmem : ∀ k, (e.memtable.getEntry k).map MemEntry.value
        = (lastRecord (Wal.replay (log.getD [])).1 k).map WalRecord.live := fun k => by
      rw [(ho.kept hflush).1, getEntry_replayLog]
    have hlevels := ho.levels_work.2 hflush
    constructor
    · intro h
      refine ⟨fun hf => absurd hf hflush, fun _ k hnone => ?_⟩
      have hk := h k
      rw [hstate, hget, hmem, hlevels, hnone] at hk
      exact hk.symm
    · intro h k
      rw [hstate, hget, hmem, hlevels]
      cases hr : lastRecord (Wal.replay (log.getD [])).1 k with
      | some r => rfl
      | none => exact (h.2 hflush k hr).symm

end

/-- On what earlier sessions have left, the trie agrees with the reads as long as the replay
stays below the threshold: every key of a page is in the log. -/
theorem stateCovers_of_sessions (hflate : Codec.Lossless) {db : Db}
    (hrun : Relation.ReflTransGen Db.Step .empty db) (hclosed : db.session = none)
    (hfits : ∀ p ∈ db.written, p.Fits) {dir : Dir} (hdir : PageStore.Damaged db.written dir)
    {levels : CompactionManager} (hload : PageStore.loadAll dir = .ok levels) {t : ℕ}
    (hkept : ¬ReplayFlushes t db.log) : StateCovers t db.log levels := by
  have hdb := Db.Inv.reachable hflate hrun hfits
  obtain ⟨cm, hcm, hpages⟩ := hdb.loaded hflate hfits hdir
  obtain rfl : cm = levels := Except.ok.inj (hcm.symm.trans hload)
  refine ⟨fun hflush => absurd hflush hkept, fun _ k hnone => ?_⟩
  rw [hdb.replay hclosed] at hnone
  exact Db.get_eq_none_of_pageIn hpages hnone

omit [Codec] in
/-- A session on an empty directory, and the database opened again on what it left. -/
def reopen (t : ℕ) (cs : List Call) : Option (Engine × Engine) :=
  (@openRun storedCodec t ∅ none cs).bind fun e =>
    (@Engine.open storedCodec t e.compactor.dir (some e.wal.file) []).toOption.map fun e' => (e, e')

omit [Codec] in
theorem exists_of_reopen {t : ℕ} {cs : List Call} (h : (reopen t cs).isSome = true) :
    ∃ e e', reopen t cs = some (e, e') ∧ @openRun storedCodec t ∅ none cs = some e ∧
      @Engine.open storedCodec t e.compactor.dir (some e.wal.file) [] = .ok e' := by
  obtain ⟨⟨e, e'⟩, heq⟩ := Option.isSome_iff_exists.mp h
  refine ⟨e, e', heq, ?_⟩
  rw [reopen, Option.bind_eq_some_iff] at heq
  obtain ⟨e₁, hrun, hopen⟩ := heq
  obtain ⟨e₂, hopened, hpair⟩ := Option.map_eq_some_iff.mp hopen
  rw [Prod.mk.injEq] at hpair
  obtain ⟨rfl, rfl⟩ := hpair
  exact ⟨hrun, eq_ok_of_toOption hopened⟩

omit [Codec] in
/-- A session that stays below the threshold: the next one has it in its trie. -/
theorem state_agrees_small : ∃ e e', reopen 1000 [.put [107] [118]] = some (e, e') ∧
    (@work storedCodec e').state.get [107] = ((@work storedCodec e').get [107]).1 := by
  obtain ⟨e, e', hpair, _, hopen⟩ := @exists_of_reopen 1000 [.put [107] [118]] (by decide +kernel)
  have hsmall : (reopen 1000 [.put [107] [118]]).map (fun s =>
      (s.1.compactor.dir.isEmpty,
        (@replayLog storedCodec 1000 s.1.wal.file).1.shouldFlush)) = some (true, false) := by
    decide +kernel
  rw [hpair, Option.map_some, Option.some_inj, Prod.mk.injEq] at hsmall
  obtain ⟨hempty, hkept⟩ := hsmall
  have hkept' : ¬@ReplayFlushes storedCodec 1000 (some e.wal.file) := by
    rintro ⟨_, hflush⟩
    rw [Option.getD_some, hkept] at hflush
    exact absurd hflush (by simp)
  have hnew : ∀ k, CompactionManager.new.get k = none := fun k =>
    CompactionManager.get_eq_none (by simp [CompactionManager.new, CompactionManager.allPages])
  refine ⟨e, e', hpair, ?_⟩
  refine (@state_agrees_iff _ storedCodec _ _ _ _ _ (@PageStore.loadAll_empty storedCodec _ hempty)
    hopen).mpr ⟨fun hflush => absurd hflush hkept', fun _ k _ => hnew k⟩ [107]

omit [Codec] in
/-- A session flushes a key, and so does the replay of the next one: its trie has nothing,
while the read finds the page. -/
theorem state_misses_flushed : (reopen 1 [.put [107] [118], .work]).map (fun s =>
    ((@work storedCodec s.2).state.get [107], ((@work storedCodec s.2).get [107]).1))
      = some (none, some [118]) := by
  decide +kernel

/-! ### Scans after `open` -/

omit [Codec] in
/-- A scan returns the pairs of its range that the reads return, in key order. -/
def ScanAgrees (e : Engine) : Prop :=
  ∀ start stop, compare start stop ≠ .gt → ∃ out, e.scan start stop = .ok out ∧ Ascending out ∧
    ∀ k v, (k, v) ∈ out ↔ InRange start stop k ∧ (e.get k).1 = some v

omit [Codec] in
/-- The scans of the levels return what the reads of the levels return, apart from the keys
that the memtable answers for. -/
def LevelsAgree (e : Engine) : Prop :=
  ∀ start stop k, compare start stop ≠ .gt → ¬(InRange start stop k ∧
      (e.memtable.getEntry k).isSome = true) →
    (e.compactor.compaction.scan start stop)[k]?
      = if InRange start stop k then e.compactor.compaction.get k else none

omit [Codec] in
/-- So it is on sorted pages. -/
theorem levelsAgree_of_sorted (h : e.compactor.compaction.Sorted) : e.LevelsAgree :=
  fun start stop k _ _ => CompactionManager.getElem?_scan h start stop k

omit [Codec] in
/-- **Scans and reads agree** exactly if, before the first flush, nothing is live below the
memtable, and after it the scans of the levels agree with their reads. -/
theorem Uncached.scanAgrees_iff (he : e.Uncached) :
    e.ScanAgrees ↔
      (e.Unflushed → ∀ k, e.memtable.getEntry k = none → e.compactor.compaction.get k = none) ∧
        (¬e.Unflushed → e.LevelsAgree) := by
  have hscans : e.ScanAgrees ↔ e.Scans fun k => (e.get k).1 := Iff.rfl
  rw [hscans, scans_iff he.drained fun k entry hentry => by rw [he.get_fst, hentry]; rfl]
  refine and_congr (forall_congr' fun _ => forall_congr' fun k => ?_)
    (forall_congr' fun _ => ?_)
  · refine forall_congr' fun hnone => ?_
    rw [he.get_fst, hnone]
    rfl
  · -- outside the range, and at the keys without an entry, a read asks the levels
    refine forall_congr' fun start => forall_congr' fun stop => forall_congr' fun k => ?_
    refine forall_congr' fun _ => forall_congr' fun hfree => ?_
    by_cases hin : InRange start stop k
    · rw [if_pos hin, if_pos hin, he.get_fst, Memtable.getEntry_eq_none hin hfree]
      rfl
    · rw [if_neg hin, if_neg hin]

/-- Puts and deletes put nothing into the cache. -/
theorem exec_keeps_uncached {c : Call} (hc : c.isPutOrDelete = true) :
    Keeps (fun e : Engine => ∀ k, e.cache.lookup k = none) (exec c) := by
  have hinvalidate : ∀ key, Keeps (fun e : Engine => ∀ k, e.cache.lookup k = none)
      (invalidate key) := by
    refine fun key => Keeps.modify fun e he k => ?_
    cases hv : (e.cache.dropped key).lookup k with
    | none => exact hv
    | some v => exact absurd (LruCache.lookup_dropped hv).2 (by rw [he]; simp)
  have hstate : ∀ key value, Keeps (fun e : Engine => ∀ k, e.cache.lookup k = none)
      (statePut key value) := by
    intro key value e he
    rw [statePut]
    cases e.state.put key value with
    | none => exact he
    | some state => exact he
  have hflush : Keeps (fun e : Engine => ∀ k, e.cache.lookup k = none) flushMemtable := by
    intro e he
    cases halive : e.compactor.alive with
    | true =>
      rw [flushMemtable_of_alive halive]
      exact he
    | false =>
      rw [flushMemtable_of_dead halive]
      exact he
  cases c with
  | put key value =>
    refine Keeps.bind (Keeps.onPart fun _ _ he => he) fun _ => ?_
    refine Keeps.bind (Keeps.onPart fun _ _ he => he) fun _ => ?_
    refine Keeps.bind (fun _ he => he) fun _ => Keeps.bind (Keeps.modify fun _ he => he) fun _ => ?_
    refine Keeps.bind (hinvalidate key) fun _ => Keeps.bind (Keeps.modify fun _ he => he) fun _ => ?_
    exact Keeps.bind (hstate key value) fun _ => Keeps.ifThen hflush
  | delete key =>
    refine Keeps.bind (Keeps.onPart fun _ _ he => he) fun _ => ?_
    refine Keeps.bind (Keeps.onPart fun _ _ he => he) fun _ => ?_
    refine Keeps.bind (fun _ he => he) fun _ => Keeps.bind (Keeps.modify fun _ he => he) fun _ => ?_
    refine Keeps.bind (hinvalidate key) fun _ => Keeps.bind (Keeps.modify fun _ he => he) fun _ => ?_
    exact Keeps.bind (Keeps.modify fun _ he => he) fun _ => Keeps.ifThen hflush
  | work => exact Keeps.modify fun _ he => he
  | _ => exact absurd hc (by simp [Call.isPutOrDelete])

theorem Uncached.after (he : e.Uncached) {cs : List Call}
    (hcs : ∀ c ∈ cs, c.isPutOrDelete = true) : (e.after cs).Uncached := by
  refine ⟨he.drained.after cs, ?_⟩
  have hcache := he.cache
  clear he
  induction cs generalizing e with
  | nil => exact hcache
  | cons c cs ih =>
    exact ih (fun c' hc' => hcs c' (by simp [hc'])) (exec_keeps_uncached (hcs c (by simp)) e hcache)

/-- The levels hold sorted pages, and the worker is sent such pages only. -/
theorem after_sorted {t : ℕ} {dir : Dir} {log : Option Bytes}
    {outcomes : List (Option WriteFault)} {e₀ : Engine}
    (hopen : Engine.open t dir log outcomes = .ok e₀) (hsorted : e₀.compactor.compaction.Sorted)
    (cs : List Call) : (e₀.after cs).compactor.compaction.Sorted := by
  have ho := opened_of_open hopen
  have htracked : Tracked (fun _ => True) e₀ := by
    refine ⟨fun _ _ _ => trivial, fun p hp => ?_, fun p hp => ⟨hsorted p hp, fun _ _ => trivial⟩⟩
    by_cases hflush : ReplayFlushes t log
    · rw [(ho.flushed hflush).2, List.mem_singleton] at hp
      exact hp ▸ pageIn_toPage fun _ _ _ => trivial
    · rw [(ho.kept hflush).2] at hp
      exact absurd hp (by simp)
  have hlevels : ∀ p ∈ (e₀.after cs).compactor.compaction.allPages, PageIn (fun _ => True) p :=
    (after_keeps tracked_coreInv (fun _ _ _ _ _ => trivial) htracked).levels
  exact fun p hp => (hlevels p hp).1

/-- What loads from page files that earlier sessions have left is sorted. -/
theorem sorted_of_sessions (hflate : Codec.Lossless) {db : Db}
    (hrun : Relation.ReflTransGen Db.Step .empty db) (hfits : ∀ p ∈ db.written, p.Fits) {dir : Dir}
    (hdir : PageStore.Damaged db.written dir) {levels : CompactionManager}
    (hload : PageStore.loadAll dir = .ok levels) : levels.Sorted := by
  obtain ⟨cm, hcm, hpages⟩ := (Db.Inv.reachable hflate hrun hfits).loaded hflate hfits hdir
  obtain rfl : cm = levels := Except.ok.inj (hcm.symm.trans hload)
  exact fun p hp => (hpages p hp).1

/-- **Scans after `open`.**  Once the worker has processed what `open` submitted, and after
any puts and deletes, scans agree with reads exactly if, as long as nothing was flushed
since, every key that is live in the levels has an entry in the memtable, and, after a
flush, the scans of the levels agree with their reads.  The second half is always so on
sorted pages, as sessions leave them (`sorted_of_sessions`). -/
theorem scan_agrees_iff {t : ℕ} {dir : Dir} {log : Option Bytes}
    {outcomes : List (Option WriteFault)} {e₀ : Engine}
    (hopen : Engine.open t dir log outcomes = .ok e₀) {cs : List Call}
    (hcs : ∀ c ∈ cs, c.isPutOrDelete = true) (hafter : e₀.work.after cs = e) :
    (e.ScanAgrees ↔
      (e.Unflushed → ∀ k, e.memtable.getEntry k = none → e.compactor.compaction.get k = none) ∧
        (¬e.Unflushed → e.LevelsAgree)) ∧
      (e₀.compactor.compaction.Sorted → (e.ScanAgrees ↔ (e.Unflushed →
        ∀ k, e.memtable.getEntry k = none → e.compactor.compaction.get k = none))) := by
  have huncached := (opened_of_open hopen).uncached
  have hwork : e₀.work.Uncached := ⟨huncached.drained, huncached.cache⟩
  have hagrees : e.ScanAgrees ↔
      (e.Unflushed → ∀ k, e.memtable.getEntry k = none → e.compactor.compaction.get k = none) ∧
        (¬e.Unflushed → e.LevelsAgree) := by
    rw [← hafter]
    exact (hwork.after hcs).scanAgrees_iff
  refine ⟨hagrees, fun hsorted => ?_⟩
  rw [hagrees]
  refine and_iff_left fun _ => levelsAgree_of_sorted ?_
  rw [← hafter]
  exact after_sorted hopen hsorted (.work :: cs)

omit [Codec] in
/-- A session that stays below the threshold: the next one scans what it reads. -/
theorem scan_agrees_small : ∃ e e', reopen 1000 [.put [107] [118]] = some (e, e') ∧
    (@after storedCodec (@work storedCodec e') [.put [108] [1]]).ScanAgrees := by
  obtain ⟨e, e', hpair, _, hopen⟩ := @exists_of_reopen 1000 [.put [107] [118]] (by decide +kernel)
  have hlevels : (reopen 1000 [.put [107] [118]]).map (fun s =>
      (decide (@after storedCodec (@work storedCodec s.2) [.put [108] [1]]).Unflushed,
        (@after storedCodec (@work storedCodec s.2)
          [.put [108] [1]]).compactor.compaction.allPages.isEmpty)) = some (true, true) := by
    decide +kernel
  rw [hpair, Option.map_some, Option.some_inj, Prod.mk.injEq] at hlevels
  obtain ⟨hfast, hempty⟩ := hlevels
  refine ⟨e, e', hpair, (@scan_agrees_iff _ storedCodec _ _ _ _ _ hopen _
    (by simp [Call.isPutOrDelete]) rfl).1.mpr ⟨fun _ k _ => ?_, fun hfull => ?_⟩⟩
  · exact CompactionManager.get_of_isEmpty hempty k
  · exact absurd (of_decide_eq_true hfast) hfull

omit [Codec] in
/-- A session flushes a key, and so does the replay of the next one: a read finds the page,
a scan does not. -/
theorem scan_misses_flushed : (reopen 1 [.put [107] [118], .work]).map (fun s =>
    (((@work storedCodec s.2).get [107]).1,
      ((@work storedCodec s.2).scan [107] [108]).toOption)) = some (some [118], some []) := by
  decide +kernel

/-! ### Values after a replay -/

/-- An entry of the memtable is the last write of its key in the history. -/
def Recorded (history : List WalRecord) (e : Engine) : Prop :=
  ∀ k v, (e.memtable.getEntry k).map MemEntry.value = some v →
    (lastRecord history k).map WalRecord.live = some (logged v)

variable {history : List WalRecord} {e' : Engine}

omit [Codec] in
theorem Recorded.wrote (h : Recorded history e) {ws : List (Bytes × Option Bytes)}
    {f : LruCache → LruCache} (hw : Wrote ws f e e') :
    Recorded (history ++ ws.map logRecord) e' := by
  intro k v hv
  rw [hw.memtable, Memtable.getEntry_writeAll] at hv
  rw [lastRecord_append, Option.map_or, live_lastRecord]
  cases hlast : lastWrite ws k with
  | some w =>
    rw [hlast] at hv
    obtain rfl : w = v := by simpa using hv
    rfl
  | none =>
    rw [hlast] at hv
    exact h k v hv

theorem Recorded.exec (h : Recorded history e) {c : Call} (hc : c.isPutOrDelete = true) {u : Unit}
    (hexec : exec c e = .ok u e') : Recorded (history ++ c.records) e' := by
  have hrecords := Call.records_eq hc
  by_cases hw : c.isWrite = true
  · obtain ⟨e₁, hwrote, hflush⟩ := exec_wrote hw hexec
    rw [hrecords]
    rcases hflush with rfl | ⟨_, rfl⟩
    · exact h.wrote hwrote
    · intro k v hv
      have hnew : ((Memtable.new e₁.flushThreshold).getEntry k).map MemEntry.value = some v := hv
      rw [Memtable.getEntry_new] at hnew
      exact absurd hnew (by simp)
  · cases c with
    | work =>
      rw [modify_eq_ok.mp hexec]
      have hnil : history ++ (Call.work).records = history := List.append_nil _
      rw [hnil]
      exact h
    | put | delete => exact absurd rfl hw
    | _ => exact absurd hc (by simp [Call.isPutOrDelete])

theorem Recorded.run (h : Recorded history e) {cs : List Call}
    (hcs : ∀ c ∈ cs, c.isPutOrDelete = true) (hrun : e.run cs = some e') :
    Recorded (history ++ runRecords cs) e' := by
  induction cs generalizing e history with
  | nil =>
    obtain rfl : e = e' := by simpa [Engine.run] using hrun
    rw [runRecords, List.flatMap_nil, List.append_nil]
    exact h
  | cons c cs ih =>
    rw [run_cons, Option.bind_eq_some_iff] at hrun
    obtain ⟨e₁, hc, hrun⟩ := hrun
    obtain ⟨_, hexec⟩ := success_eq_some hc
    rw [runRecords, List.flatMap_cons, ← List.append_assoc]
    exact ih (h.exec (hcs c (by simp)) hexec) (fun c' hc' => hcs c' (by simp [hc'])) hrun

theorem Opened.recorded {t : ℕ} {dir : Dir} {log : Option Bytes}
    {outcomes : List (Option WriteFault)} (ho : Opened t dir log outcomes e)
    (hreplay : (Wal.replay (log.getD [])).1 = history) : Recorded history e := by
  intro k v hv
  by_cases hflush : ReplayFlushes t log
  · rw [(ho.flushed hflush).1, Memtable.getEntry_toPage] at hv
    exact absurd hv (by simp)
  · rw [(ho.kept hflush).1, getEntry_replayLog, hreplay] at hv
    obtain ⟨r, hr, rfl⟩ := Option.map_eq_some_iff.mp hv
    rw [hr, Option.map_some, logged_live]

/-- What must hold at the end of a session for the next one to read the same: if its replay
is kept, then no entry of the memtable is an empty value, and the levels answer for the
other keys as the log and the page files do; if it is flushed, then the page files already
have what the memtable and the levels have. -/
structure Survives (history : List WalRecord) (flushes : Prop) (levels : CompactionManager)
    (e : Engine) : Prop where
  entries : ¬flushes → ∀ k entry, e.memtable.getEntry k = some entry → entry.value ≠ some []
  below : ¬flushes → ∀ k, e.memtable.getEntry k = none → e.compactor.compaction.get k
    = ((lastRecord history k).map WalRecord.live).getD (levels.get k)
  waiting : flushes → ∀ k, ((e.memtable.getEntry k).map MemEntry.value).getD
    (e.compactor.compaction.get k) = levels.get k

/-- A session on an empty directory in which nothing was flushed yet: all last writes are in
the memtable. -/
structure Fresh (ws : List (Bytes × Option Bytes)) (e : Engine) : Prop where
  memtable : ∀ k, (e.memtable.getEntry k).map MemEntry.value = lastWrite ws k
  queue : e.compactor.queue = []
  levels : e.compactor.compaction = .new

theorem Fresh.exec {ws : List (Bytes × Option Bytes)} (h : e.Unflushed → Fresh ws e) {c : Call}
    (hc : c.isPutOrDelete = true) {u : Unit} (hexec : exec c e = .ok u e') (hfast : e'.Unflushed) :
    Fresh (ws ++ c.entries) e' := by
  by_cases hw : c.isWrite = true
  · obtain ⟨e₁, hwrote, hflush⟩ := exec_wrote hw hexec
    rcases hflush with rfl | ⟨_, rfl⟩
    · rw [Unflushed, hwrote.frozen, hwrote.flushCount] at hfast
      have he := h hfast
      refine ⟨fun k => ?_, by rw [hwrote.compactor, he.queue], by rw [hwrote.compactor, he.levels]⟩
      rw [hwrote.memtable, Memtable.getEntry_writeAll, lastWrite_append, he.memtable]
    · have hcount : e₁.flushCount + 1 = 0 := hfast.2
      omega
  · cases c with
    | work =>
      obtain rfl := modify_eq_ok.mp hexec
      have he := h hfast
      have hidle : e.compactor.receive = e.compactor := by
        rw [BackgroundCompactor.receive, he.queue]
      have hnil : ws ++ (Call.work).entries = ws := List.append_nil _
      rw [hnil]
      refine ⟨he.memtable, ?_, ?_⟩
      · rw [Engine.work, hidle, he.queue]
      · rw [Engine.work, hidle, he.levels]
    | put | delete => exact absurd rfl hw
    | _ => exact absurd hc (by simp [Call.isPutOrDelete])

theorem fresh_of_run {t : ℕ} {outcomes : List (Option WriteFault)} {e₀ : Engine}
    (hopen : Engine.open t ∅ none outcomes = .ok e₀) {cs : List Call}
    (hcs : ∀ c ∈ cs, c.isPutOrDelete = true) (hrun : e₀.run cs = some e) (hfast : e.Unflushed) :
    Fresh (cs.flatMap Call.entries) e := by
  have ho := opened_of_open hopen
  have hkept : ¬ReplayFlushes t none := fun h => absurd h.1 (by simp)
  have hstart : Fresh [] e₀ := by
    obtain ⟨hmem, hqueue⟩ := ho.kept hkept
    refine ⟨fun k => ?_, hqueue, ?_⟩
    · rw [hmem, getEntry_replayLog]
      rfl
    · have hlevels := ho.levels
      rw [PageStore.loadAll_empty rfl] at hlevels
      exact (Except.ok.inj hlevels).symm
  have hall : (∀ c ∈ cs, c.isPutOrDelete = true) → e.Unflushed →
      Fresh (cs.flatMap Call.entries) e := by
    refine foldlM_history (P := fun cs e => (∀ c ∈ cs, c.isPutOrDelete = true) → e.Unflushed →
      Fresh (cs.flatMap Call.entries) e) (fun _ _ => hstart) ?_ hrun
    intro cs c e₁ e₂ _ ih hstep hcs hfast
    obtain ⟨_, hexec⟩ := success_eq_some hstep
    rw [List.flatMap_append, List.flatMap_singleton]
    exact Fresh.exec (ih fun c' hc' => hcs c' (by simp [hc'])) (hcs c (by simp)) hexec hfast
  exact hall hcs hfast

/-- Without flushes only empty values are lost: a session on an empty directory survives
exactly if no key was last put with an empty value. -/
theorem survives_iff_of_unflushed {t : ℕ} {outcomes : List (Option WriteFault)} {e₀ : Engine}
    (hopen : Engine.open t ∅ none outcomes = .ok e₀) {cs : List Call}
    (hcs : ∀ c ∈ cs, c.isPutOrDelete = true) (hrun : e₀.run cs = some e) (hfast : e.Unflushed)
    {flushes : Prop} (hkept : ¬flushes) :
    Survives (runRecords cs) flushes .new e ↔
      ∀ k, lastWrite (cs.flatMap Call.entries) k ≠ some (some []) := by
  have hfresh := fresh_of_run hopen hcs hrun hfast
  constructor
  · intro h k hlast
    rw [← hfresh.memtable] at hlast
    obtain ⟨entry, hentry, hv⟩ := Option.map_eq_some_iff.mp hlast
    exact h.entries hkept k entry hentry hv
  · intro h
    refine ⟨fun _ k entry hentry hv => ?_, fun _ k hk => ?_, fun hf => absurd hf hkept⟩
    · refine h k ?_
      rw [← hfresh.memtable, hentry, Option.map_some, hv]
    · -- a key without an entry was never written
      have hnone : lastWrite (cs.flatMap Call.entries) k = none := by
        rw [← hfresh.memtable, hk]
        rfl
      have hrecords : runRecords cs = (cs.flatMap Call.entries).map logRecord := by
        rw [runRecords, List.map_flatMap]
        exact List.flatMap_congr fun c hc => Call.records_eq (hcs c hc)
      have hlive := live_lastRecord (cs.flatMap Call.entries) k
      rw [← hrecords, hnone] at hlive
      rw [hfresh.levels, hlive]
      rfl

/-- **Reads over a restart.**  A session on an intact log makes any puts and deletes, which
succeed, within the limits of a log record.  The next session reads the same, for every
key, exactly if what the first one leaves survives. -/
theorem reopened_iff {t t' : ℕ} {dir dir' : Dir} {log : Option Bytes}
    {outcomes outcomes' : List (Option WriteFault)} {e₀ : Engine}
    (hlog : log.getD [] = Wal.encode history) (hfits : ∀ r ∈ history, r.Fits)
    (hopen : Engine.open t dir log outcomes = .ok e₀) {cs : List Call}
    (hcs : ∀ c ∈ cs, c.isPutOrDelete = true) (hsized : ∀ c ∈ cs, ∀ r ∈ c.records, r.Fits)
    (hrun : e₀.run cs = some e) {levels : CompactionManager}
    (hload : PageStore.loadAll dir' = .ok levels)
    (hopen' : Engine.open t' dir' (some e.wal.file) outcomes' = .ok e') :
    (∀ k, (e.get k).1 = (e'.get k).1) ↔
      Survives (history ++ runRecords cs) (ReplayFlushes t' (some e.wal.file)) levels e := by
  have hfile : e.wal.file = Wal.encode (history ++ runRecords cs) := by
    rw [file_of_run hopen hcs hrun, hlog, Wal.encode_append]
  have hfits' : ∀ r ∈ history ++ runRecords cs, r.Fits := by
    intro r hr
    rcases List.mem_append.mp hr with hr | hr
    · exact hfits r hr
    · obtain ⟨c, hc, hr⟩ := List.mem_flatMap.mp hr
      exact hsized c hc r hr
  have ho := opened_of_open hopen
  have ho' := opened_of_open hopen'
  obtain rfl : levels = e'.compactor.compaction := Except.ok.inj (hload.symm.trans ho'.levels)
  have hrecorded : Recorded (history ++ runRecords cs) e :=
    (ho.recorded (by rw [hlog, Wal.replay_intact hfits])).run hcs hrun
  have huncached : e.Uncached := by
    rw [← after_of_run hrun]
    exact ho.uncached.after hcs
  have hget' := ho'.uncached.get_fst
  by_cases hflush : ReplayFlushes t' (some e.wal.file)
  · -- the replayed page waits, and the reads see the page files only
    have hmem' : ∀ k, e'.memtable.getEntry k = none := fun k => by
      rw [(ho'.flushed hflush).1, Memtable.getEntry_toPage]
    constructor
    · intro h
      refine ⟨fun hkept => absurd hflush hkept, fun hkept => absurd hflush hkept, fun _ k => ?_⟩
      rw [← huncached.get_fst, h k, hget', hmem']
      rfl
    · intro h k
      rw [huncached.get_fst, h.waiting hflush k, hget', hmem']
      rfl
  · have hmem' : ∀ k, (e'.memtable.getEntry k).map MemEntry.value
        = (lastRecord (history ++ runRecords cs) k).map WalRecord.live := fun k => by
      rw [(ho'.kept hflush).1, getEntry_replayLog, Option.getD_some, hfile, Wal.replay_intact hfits']
    -- an entry of the memtable is read back as what is logged of it
    have hentry : ∀ k entry, e.memtable.getEntry k = some entry →
        (e.get k).1 = entry.value ∧ (e'.get k).1 = logged entry.value := by
      intro k entry hk
      have hlast := hrecorded k entry.value (by rw [hk]; rfl)
      rw [huncached.get_fst, hget', hmem', hk, hlast]
      exact ⟨rfl, rfl⟩
    have hbelow : ∀ k, e.memtable.getEntry k = none → (e.get k).1 = e.compactor.compaction.get k := by
      intro k hk
      rw [huncached.get_fst, hk]
      rfl
    constructor
    · intro h
      refine ⟨fun _ k entry hk => ?_, fun _ k hk => ?_, fun hf => absurd hf hflush⟩
      · obtain ⟨hbefore, hafter⟩ := hentry k entry hk
        rw [← logged_eq_self, ← hafter, ← h k, hbefore]
      · rw [← hbelow k hk, h k, hget', hmem']
    · intro h k
      cases hk : e.memtable.getEntry k with
      | some entry =>
        obtain ⟨hbefore, hafter⟩ := hentry k entry hk
        rw [hbefore, hafter, logged_eq_self.mpr (h.entries hflush k entry hk)]
      | none => rw [hbelow k hk, h.below hflush k hk, hget', hmem']

omit [Codec] in
/-- A value that is not empty: the next session reads it. -/
theorem reopened_small : ∃ e e', reopen 1000 [.put [107] [118], .delete [108]] = some (e, e') ∧
    (e.get [107]).1 = some [118] ∧ (e'.get [107]).1 = some [118] := by
  obtain ⟨e, e', hpair, hrun, hopen'⟩ :=
    @exists_of_reopen 1000 [.put [107] [118], .delete [108]] (by decide +kernel)
  have hsmall : (reopen 1000 [.put [107] [118], .delete [108]]).map (fun s =>
      (s.1.compactor.dir.isEmpty, decide s.1.Unflushed, (s.1.get [107]).1,
        (@replayLog storedCodec 1000 s.1.wal.file).1.shouldFlush))
      = some (true, true, some [118], false) := by decide +kernel
  rw [hpair, Option.map_some, Option.some_inj, Prod.mk.injEq, Prod.mk.injEq, Prod.mk.injEq] at hsmall
  obtain ⟨hempty, hfast, hget, hkept⟩ := hsmall
  have hkept' : ¬@ReplayFlushes storedCodec 1000 (some e.wal.file) := by
    rintro ⟨_, hflush⟩
    rw [Option.getD_some, hkept] at hflush
    exact absurd hflush (by simp)
  obtain ⟨e₀, hopen, hcalls⟩ := @exists_of_openRun storedCodec _ _ _ _ _ hrun
  have hlast : ∀ k, lastWrite [([107], some [118]), ([108], none)] k ≠ some (some []) := by
    intro k hk
    obtain ⟨w, hw, hv⟩ := Option.map_eq_some_iff.mp hk
    have hmem := List.mem_of_find?_eq_some hw
    simp only [List.reverse_cons, List.reverse_nil, List.nil_append, List.singleton_append,
      List.mem_cons, List.not_mem_nil, or_false] at hmem
    rcases hmem with rfl | rfl
    · exact absurd hv (by simp)
    · exact absurd hv (by simp)
  have hsurvives := (@survives_iff_of_unflushed _ storedCodec _ _ _ hopen _
    (by simp [Call.isPutOrDelete]) hcalls (of_decide_eq_true hfast) _ hkept').mpr hlast
  have hsame := (@reopened_iff _ storedCodec [] _ 1000 1000 ∅ e.compactor.dir none [] [] e₀ rfl
    (by simp) hopen _ (by simp [Call.isPutOrDelete]) (by simp [Call.records, WalRecord.Fits]) hcalls
    _ (@PageStore.loadAll_empty storedCodec _ hempty) hopen').mpr hsurvives
  exact ⟨e, e', hpair, hget, (hsame [107]).symm.trans hget⟩

omit [Codec] in
/-- An empty value is read back as a deleted key. -/
theorem reopened_empty_value : (reopen 1000 [.put [107] []]).map (fun s =>
    ((s.1.get [107]).1, (s.2.get [107]).1)) = some (some [], none) := by decide +kernel

end Engine

end Uldb
