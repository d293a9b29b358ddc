/-
Reads against the reference map of last writes.

The levels are taken to be a store that answers with the newest record among the
pages it was given (`Newest`), and the worker hands it each page before the next
call.  Then the four layers of a read, and both paths of a scan, together answer
with the last write of every key (`reads_reference`), as long as the calls return: a
put of a key that has the hash of another one never does (`reads_reference_collision`).

What every call keeps (`Reads`): the memtable shadows the pages, both together hold
the last write of every key, and a cached value is the last write of its key.
-/
import Uldb.Failures
import Uldb.HamtDigits
import Uldb.Scan
import Uldb.CompactionOrder

namespace Uldb

open Fallible

/-- The reference map: the last write of a key, nothing if that is a delete. -/
def reference (ws : List (Bytes × Option Bytes)) (k : Bytes) : Option Bytes :=
  (lastWrite ws k).join

/-- A level store, given by what it does with a new page, that answers with the newest
record of every key among the pages it was given. -/
structure Newest (add : CompactionManager → Page → CompactionManager) : Prop where
  get : ∀ {pages : List Page}, (∀ p ∈ pages, p.Sorted) → ∀ k,
    (pages.foldl add .new).get k = answer (newest pages k)
  scan : ∀ {pages : List Page}, (∀ p ∈ pages, p.Sorted) → ∀ start stop k,
    ((pages.foldl add .new).scan start stop)[k]?
      = if InRange start stop k then answer (newest pages k) else none

theorem answer_eq_join (r : Option PageRecord) : answer r = (r.map PageRecord.live).join := by
  cases r <;> rfl

namespace Call

theorem isWrite_or_get {c : Call} (hc : c.isBasic = true) :
    c.isWrite = true ∨ ∃ key, c = .get key := by
  cases c with
  | get key => exact .inr ⟨key, rfl⟩
  | put | putBatch | bulkIngest | delete | flush => exact .inl rfl
  | _ => exact absurd hc (by simp [isBasic])

theorem not_profiled {c : Call} (hc : c.isBasic = true) {p : Bytes → Prop} (key value : Bytes)
    (h : c = .putProfiled key value) : p key := by
  rw [h] at hc
  exact absurd hc (by simp [isBasic])

end Call

section

variable [Codec] (add : CompactionManager → Page → CompactionManager)

/-- The worker hands one page to the level store and saves its pages. -/
def BackgroundCompactor.hand (c : BackgroundCompactor) (page : Page) : BackgroundCompactor :=
  { c with
    compaction := add c.compaction page
    dir := PageStore.saveAll c.dir (add c.compaction page) }

/-- The worker processes all submitted pages. -/
def BackgroundCompactor.settle (c : BackgroundCompactor) : BackgroundCompactor :=
  c.queue.foldl (BackgroundCompactor.hand add) { c with queue := [] }

def Engine.settle (e : Engine) : Engine := { e with compactor := e.compactor.settle add }

/-- One call, after which the worker processes what was submitted.  A call that fails with
an error has written nothing; a panic ends the run, and so does a put that shows the indices
a key that is no text: they take its bytes for one without a check. -/
def Engine.attempt (s : Engine × List (Bytes × Option Bytes)) (c : Call) :
    Option (Engine × List (Bytes × Option Bytes)) :=
  match exec c s.1 with
  | .ok _ e => if c.putKeys.all validUtf8 then some (e.settle add, s.2 ++ c.entries) else none
  | .error (.error _) e => some (e.settle add, s.2)
  | .error .panic _ => none

end

namespace Engine

variable [Codec] {add : CompactionManager → Page → CompactionManager}
  {ws : List (Bytes × Option Bytes)} {pages : List Page} {e e' : Engine}

theorem foldl_hand (queue : List Page) (c : BackgroundCompactor) :
    (queue.foldl (BackgroundCompactor.hand add) c).compaction = queue.foldl add c.compaction ∧
      (queue.foldl (BackgroundCompactor.hand add) c).queue = c.queue ∧
      (queue.foldl (BackgroundCompactor.hand add) c).alive = c.alive := by
  induction queue generalizing c with
  | nil => exact ⟨rfl, rfl, rfl⟩
  | cons page queue ih => exact ih (c.hand add page)

theorem levels_settle (e : Engine) : (e.settle add).compactor.compaction
    = e.compactor.queue.foldl add e.compactor.compaction := (foldl_hand _ _).1

theorem queue_settle (e : Engine) : (e.settle add).compactor.queue = [] := (foldl_hand _ _).2.1

theorem alive_settle (e : Engine) :
    (e.settle add).compactor.alive = e.compactor.alive := (foldl_hand _ _).2.2

omit [Codec] in
/-- A read adds nothing to the cache but a value of the levels that nothing shadows. -/
theorem lookup_cache_get {key k v : Bytes} (h : (e.get key).2.cache.lookup k = some v) :
    e.cache.lookup k = some v ∨
      (key = k ∧ e.memtable.getEntry k = none ∧ e.compactor.compaction.get k = some v) := by
  rw [get] at h
  cases hmem : e.memtable.getEntry key with
  | some entry =>
    simp only [hmem] at h
    exact .inl h
  | none =>
    cases hfrozen : e.frozen.reverse.findSome? fun m => m.getEntry key with
    | some entry =>
      simp only [hmem, hfrozen] at h
      exact .inl h
    | none =>
      have hkept := e.cache.lookup_get key k
      cases hcache : e.cache.get key with
      | mk hit cache =>
        rw [hcache] at hkept
        simp only [hmem, hfrozen, hcache] at h
        cases hit with
        | some value => exact .inl (hkept ▸ h)
        | none =>
          cases hlevels : e.compactor.compaction.get key with
          | none =>
            simp only [hlevels] at h
            exact .inl (hkept ▸ h)
          | some value =>
            simp only [hlevels] at h
            rcases LruCache.lookup_insert h with ⟨rfl, rfl⟩ | ⟨_, hold⟩
            · exact .inr ⟨rfl, hmem, hlevels⟩
            · exact .inl (hkept ▸ hold)

/-- Between two calls: the memtable and the pages together hold the last writes, and the
cache holds some of them. -/
structure Reads (add : CompactionManager → Page → CompactionManager)
    (ws : List (Bytes × Option Bytes)) (pages : List Page) (e : Engine) : Prop where
  drained : e.Drained
  alive : e.Alive
  queue : e.compactor.queue = []
  levels : e.compactor.compaction = pages.foldl add .new
  sorted : ∀ p ∈ pages, p.Sorted
  /-- The fast path of a scan is taken only if no page was submitted. -/
  unflushed : e.Unflushed → pages = []
  shadows : ∀ k, lastWrite ws k
    = ((e.memtable.getEntry k).map MemEntry.value).or ((newest pages k).map PageRecord.live)
  coherent : ∀ k v, e.cache.lookup k = some v → lastWrite ws k = some (some v)

namespace Reads

omit [Codec] in
/-- A write that drops the cached values of its keys. -/
theorem wrote (h : Reads add ws pages e) {ws' : List (Bytes × Option Bytes)}
    {f : LruCache → LruCache} (hw : Wrote ws' f e e')
    (hf : ∀ k v, (f e.cache).lookup k = some v →
      lastWrite ws' k = none ∧ e.cache.lookup k = some v) : Reads add (ws ++ ws') pages e' where
  drained := by
    rw [Drained, hw.frozen]
    exact h.drained
  alive := by
    rw [Alive, hw.compactor]
    exact h.alive
  queue := by rw [hw.compactor, h.queue]
  levels := by rw [hw.compactor, h.levels]
  sorted := h.sorted
  unflushed hfast := by
    rw [Unflushed, hw.frozen, hw.flushCount] at hfast
    exact h.unflushed hfast
  shadows k := by
    rw [lastWrite_append, h.shadows k, hw.memtable, Memtable.getEntry_writeAll, Option.or_assoc]
  coherent k v hv := by
    rw [hw.cache] at hv
    obtain ⟨hnone, hv⟩ := hf k v hv
    rw [lastWrite_append, hnone]
    exact h.coherent k v hv

/-- Nothing was submitted. -/
theorem settle (h : Reads add ws pages e) : Reads add ws pages (e.settle add) where
  drained := h.drained
  alive := by
    rw [Alive, alive_settle]
    exact h.alive
  queue := queue_settle e
  levels := by
    rw [levels_settle, h.queue]
    exact h.levels
  sorted := h.sorted
  unflushed := h.unflushed
  shadows := h.shadows
  coherent := h.coherent

/-- A flush moves the entries of the memtable into the newest page. -/
theorem flushed (h : Reads add ws pages e) :
    Reads add ws (pages ++ [e.memtable.toPage.1]) (e.flushed.settle add) where
  drained := drained_coreInv.flushed h.drained
  alive := by
    rw [Alive, alive_settle]
    exact h.alive
  queue := queue_settle _
  levels := by
    rw [levels_settle]
    show (e.compactor.queue ++ [e.memtable.toPage.1]).foldl add e.compactor.compaction = _
    rw [h.queue, List.nil_append, h.levels, List.foldl_append]
  sorted p hp := by
    rcases List.mem_append.mp hp with hp | hp
    · exact h.sorted p hp
    · rw [List.mem_singleton.mp hp]
      exact e.memtable.toPage_sorted
  unflushed hfast := by
    have hcount : e.flushCount + 1 = 0 := hfast.2
    omega
  shadows k := by
    have hpage : (newest [e.memtable.toPage.1] k).map PageRecord.live
        = (e.memtable.getEntry k).map MemEntry.value := by
      rw [← Memtable.live_lookup_toPage, newest, List.reverse_singleton, List.findSome?_singleton]
    rw [newest_append, Option.map_or, hpage, h.shadows k]
    show _ = (((Memtable.new e.flushThreshold).getEntry k).map MemEntry.value).or _
    rw [Memtable.getEntry_new]
    rfl
  coherent := h.coherent

omit [Codec] in
/-- What the levels answer, where the memtable has no entry. -/
theorem levels_get (h : Reads add ws pages e) (hadd : Newest add) {k : Bytes}
    (hmem : e.memtable.getEntry k = none) : e.compactor.compaction.get k = reference ws k := by
  rw [h.levels, hadd.get h.sorted, answer_eq_join, reference, h.shadows k, hmem]
  rfl

omit [Codec] in
/-- A read puts into the cache what the levels have, where nothing shadows them. -/
theorem get (h : Reads add ws pages e) (hadd : Newest add) (key : Bytes) :
    Reads add ws pages (e.get key).2 := by
  obtain ⟨cache, heq⟩ := get_frame e key
  have hcoherent : ∀ k v, cache.lookup k = some v → lastWrite ws k = some (some v) := by
    intro k v hv
    have hcache : (e.get key).2.cache = cache := by rw [heq]
    rw [← hcache] at hv
    rcases lookup_cache_get hv with hv | ⟨rfl, hmem, hv⟩
    · exact h.coherent k v hv
    · rw [h.levels_get hadd hmem] at hv
      exact Option.join_eq_some_iff.mp hv
  rw [heq]
  exact ⟨h.drained, h.alive, h.queue, h.levels, h.sorted, h.unflushed, h.shadows, hcoherent⟩

omit [Codec] in
/-- **A read** answers with the last write. -/
theorem get_fst (h : Reads add ws pages e) (hadd : Newest add) (k : Bytes) :
    (e.get k).1 = reference ws k := by
  rw [Engine.get_fst, h.drained.below_eq]
  cases hmem : e.memtable.getEntry k with
  | some entry =>
    rw [reference, h.shadows k, hmem]
    rfl
  | none =>
    cases hcache : e.cache.lookup k with
    | some v =>
      rw [reference, h.coherent k v hcache]
      rfl
    | none => exact h.levels_get hadd hmem

omit [Codec] in
/-- **A scan** answers with the last writes of its range. -/
theorem scanned (h : Reads add ws pages e) (hadd : Newest add) (start stop k : Bytes) :
    e.scanned start stop k = if InRange start stop k then reference ws k else none := by
  have hbelow : e.scannedBelow start stop k
      = if InRange start stop k then answer (newest pages k) else none := by
    rw [scannedBelow]
    by_cases hfast : e.Unflushed
    · rw [if_pos hfast, h.unflushed hfast]
      exact (ite_self _).symm
    · rw [if_neg hfast, h.levels, hadd.scan h.sorted]
  rw [Engine.scanned, hbelow]
  by_cases hk : InRange start stop k
  · rw [if_pos hk, if_pos hk, if_pos hk, reference, h.shadows k, answer_eq_join]
    cases (e.memtable.getEntry k).map MemEntry.value <;> rfl
  · rw [if_neg hk, if_neg hk, if_neg hk]

/-- One call of a reference run. -/
theorem attempt (h : Reads add ws pages e) (hadd : Newest add) {c : Call}
    (hc : c.isBasic = true) {ws' : List (Bytes × Option Bytes)}
    (hstep : Engine.attempt add (e, ws) c = some (e', ws')) :
    ∃ pages', Reads add ws' pages' e' := by
  rw [Engine.attempt] at hstep
  rcases Call.isWrite_or_get hc with hw | ⟨key, rfl⟩
  · cases hexec : exec c e with
    | ok u e₁ =>
      simp only [hexec, Option.ite_none_right_eq_some, Option.some_inj, Prod.mk.injEq] at hstep
      obtain ⟨-, rfl, rfl⟩ := hstep
      obtain ⟨e₂, hwrote, hflush⟩ := exec_wrote hw hexec
      have h₂ := h.wrote hwrote fun k v hv => Call.lookup_onCache (Call.not_profiled hc) hv
      rcases hflush with rfl | ⟨_, rfl⟩
      · exact ⟨pages, h₂.settle⟩
      · exact ⟨_, h₂.flushed⟩
    | error failure e₁ =>
      cases failure with
      | error msg =>
        simp only [hexec, Option.some_inj, Prod.mk.injEq] at hstep
        obtain ⟨rfl, rfl⟩ := hstep
        have h₁ := h.wrote (exec_failed hw h.alive hexec) fun k v hv => ⟨rfl, hv⟩
        rw [List.append_nil] at h₁
        exact ⟨pages, h₁.settle⟩
      | panic =>
        simp only [hexec] at hstep
        exact absurd hstep (by simp)
  · have hexec : exec (.get key) e = .ok () (e.get key).2 := rfl
    simp only [hexec, Option.ite_none_right_eq_some, Option.some_inj, Prod.mk.injEq] at hstep
    obtain ⟨-, rfl, rfl⟩ := hstep
    have hentries : ws ++ (Call.get key).entries = ws := List.append_nil ws
    rw [hentries]
    exact ⟨pages, (h.get hadd key).settle⟩

/-- A database on an empty directory. -/
theorem opened {t : ℕ} {outcomes : List (Option WriteFault)}
    (hopen : Engine.open t ∅ none outcomes = .ok e) : Reads add [] [] e := by
  have ho := opened_of_open hopen
  have hkept : ¬ReplayFlushes t none := fun h => absurd h.1 (by simp)
  obtain ⟨hmem, hqueue⟩ := ho.kept hkept
  have hempty : ∀ k, (e.memtable.getEntry k).map MemEntry.value = none := by
    intro k
    rw [hmem, getEntry_replayLog]
    rfl
  refine ⟨?_, ho.alive, hqueue, ?_, by simp, fun _ => rfl, fun k => ?_, fun k v hv => ?_⟩
  · exact ho.drained
  · have hlevels := ho.levels
    rw [PageStore.loadAll_empty rfl, Except.ok.injEq] at hlevels
    exact hlevels.symm
  · rw [hempty]
    rfl
  · rw [ho.cache] at hv
    exact absurd hv (by simp)

end Reads

/-! ### Runs that return -/

theorem rebuildState_replayLog_nil (t : ℕ) :
    rebuildState (replayLog t []).1 = some Hamt.new := by
  have hnone : (∅ : Std.TreeMap Bytes MemEntry).toList = [] := rfl
  have hentries : liveEntries (Memtable.new t) = [] := by
    rw [liveEntries, Memtable.new, hnone]
    rfl
  rw [replayLog, Wal.replay_nil, List.foldl_nil, rebuildState, hentries]
  rfl

/-- An empty directory opens. -/
theorem exists_open_empty (t : ℕ) (outcomes : List (Option WriteFault)) :
    ∃ e, Engine.open t ∅ none outcomes = .ok e := by
  have hload : PageStore.loadAll ∅ = .ok .new := PageStore.loadAll_empty Std.TreeMap.isEmpty_emptyc
  rw [Engine.open, hload]
  simp [bind, Except.bind, rebuildState_replayLog_nil t]

/-- Nothing is in the trie then. -/
theorem state_of_open_empty {t : ℕ} {outcomes : List (Option WriteFault)}
    (hopen : Engine.open t ∅ none outcomes = .ok e) : e.state = Hamt.new := by
  have ho := opened_of_open hopen
  obtain ⟨hmem, -⟩ := ho.kept fun hflushes => absurd hflushes.1 (by simp)
  have hstate := ho.state
  rw [hmem, Option.getD_none, rebuildState_replayLog_nil, Option.some_inj] at hstate
  exact hstate.symm

theorem stateIn_of_open_empty {K : Set Bytes} {t : ℕ} {outcomes : List (Option WriteFault)}
    (hopen : Engine.open t ∅ none outcomes = .ok e) : StateIn K e := by
  intro k hk
  rw [state_of_open_empty hopen, Hamt.get_new] at hk
  exact absurd hk (by simp)

/-- The keys that the call puts are texts, and their hashes are different from each other and
from those of the other stored keys. -/
structure Clear (e : Engine) (c : Call) : Prop where
  texts : ∀ k ∈ c.putKeys, validUtf8 k = true
  hashes : Set.InjOn fnv1a {k | (e.state.get k).isSome ∨ k ∈ c.putKeys}

/-- **A clear call returns.** -/
theorem Clear.attempt {c : Call} (hclear : Clear e c) (hc : c.isBasic = true)
    (ws : List (Bytes × Option Bytes)) : ∃ s, Engine.attempt add (e, ws) c = some s := by
  have hstate : StateIn {k | (e.state.get k).isSome ∨ k ∈ c.putKeys} e := fun k hk => .inl hk
  obtain ⟨-, hfails⟩ := exec_returns hclear.hashes hc (fun k hk => .inr hk) e hstate
  rw [Engine.attempt]
  cases hexec : exec c e with
  | ok u e₁ =>
    have htexts : c.putKeys.all validUtf8 = true := List.all_eq_true.mpr hclear.texts
    exact ⟨_, if_pos htexts⟩
  | error failure e₁ =>
    cases failure with
    | error msg => exact ⟨_, rfl⟩
    | panic => exact absurd rfl (hfails _ _ hexec)

/-- Every call is clear where it is made. -/
def ClearAll (add : CompactionManager → Page → CompactionManager) :
    Engine × List (Bytes × Option Bytes) → List Call → Prop
  | _, [] => True
  | s, c :: cs => Clear s.1 c ∧ ∀ s', Engine.attempt add s c = some s' → ClearAll add s' cs

theorem ClearAll.attempt {cs : List Call} {s : Engine × List (Bytes × Option Bytes)}
    (hclear : ClearAll add s cs) (hcs : ∀ c ∈ cs, c.isBasic = true) :
    ∃ s', cs.foldlM (Engine.attempt add) s = some s' := by
  induction cs generalizing s with
  | nil => exact ⟨s, rfl⟩
  | cons c cs ih =>
    obtain ⟨hfirst, hrest⟩ := hclear
    obtain ⟨s₁, hstep⟩ : ∃ s₁, Engine.attempt add s c = some s₁ :=
      hfirst.attempt (hcs c List.mem_cons_self) s.2
    obtain ⟨s', hrun⟩ := ih (hrest s₁ hstep) fun c' hc' => hcs c' (List.mem_cons_of_mem c hc')
    exact ⟨s', foldlM_cons_eq_some.mpr ⟨s₁, hstep, hrun⟩⟩

/-- Calls that put texts with different hashes are clear. -/
theorem clearAll_of_injOn {K : Set Bytes} (hK : Set.InjOn fnv1a K) {cs : List Call}
    (hcs : ∀ c ∈ cs, c.isBasic = true)
    (hkeys : ∀ c ∈ cs, ∀ k ∈ c.putKeys, k ∈ K ∧ validUtf8 k = true)
    {s : Engine × List (Bytes × Option Bytes)} (hs : StateIn K s.1) : ClearAll add s cs := by
  induction cs generalizing s with
  | nil => trivial
  | cons c cs ih =>
    have hc := hkeys c List.mem_cons_self
    refine ⟨⟨fun k hk => (hc k hk).2, hK.mono ?_⟩, fun s' hstep => ?_⟩
    · rintro k (hk | hk)
      · exact hs k hk
      · exact (hc k hk).1
    · refine ih (fun c' hc' => hcs c' (List.mem_cons_of_mem c hc'))
        (fun c' hc' => hkeys c' (List.mem_cons_of_mem c hc')) ?_
      have hkept := exec_stateIn (hcs c List.mem_cons_self) (fun k hk => (hc k hk).1) s.1 hs
      -- a call that fails puts no other key either
      rw [Engine.attempt] at hstep
      cases hexec : exec c s.1 with
      | ok u e₁ =>
        rw [hexec] at hkept hstep
        obtain ⟨-, heq⟩ := Option.ite_none_right_eq_some.mp hstep
        rw [← Option.some_inj.mp heq]
        exact hkept
      | error failure e₁ =>
        rw [hexec] at hkept hstep
        cases failure with
        | error msg =>
          rw [← Option.some_inj.mp hstep]
          exact hkept
        | panic => exact absurd hstep (by simp)

/-- **Reads and scans answer with the last writes.**  On an empty directory, and over a
level store that answers with the newest record, let the worker process each page before
the next call.  Then any clear calls return, for any threshold, whether they succeed or fail
with an error, and after them a read returns the last write of its key, and a scan the last
writes of its range in key order. -/
theorem reads_reference (hadd : Newest add) (t : ℕ) (outcomes : List (Option WriteFault))
    {cs : List Call} (hcs : ∀ c ∈ cs, c.isBasic = true)
    (hclear : ∀ e₀, Engine.open t ∅ none outcomes = .ok e₀ → ClearAll add (e₀, []) cs) :
    ∃ e₀ e ws, Engine.open t ∅ none outcomes = .ok e₀ ∧
      cs.foldlM (attempt add) (e₀, []) = some (e, ws) ∧
      (∀ k, (e.get k).1 = reference ws k) ∧
      ∀ start stop, compare start stop ≠ .gt → ∃ out, e.scan start stop = .ok out ∧
        Ascending out ∧ ∀ k v, (k, v) ∈ out ↔ InRange start stop k ∧ reference ws k = some v := by
  obtain ⟨e₀, hopen⟩ := exists_open_empty t outcomes
  obtain ⟨⟨e, ws⟩, hrun⟩ := (hclear e₀ hopen).attempt hcs
  have hreads : ∃ pages, Reads add ws pages e := by
    refine foldlM_induction (P := fun s : Engine × List (Bytes × Option Bytes) =>
      ∃ pages, Reads add s.2 pages s.1) hrun ⟨[], Reads.opened hopen⟩ ?_
    rintro c hc s s' ⟨pages, hs⟩ hstep
    exact hs.attempt hadd (hcs c hc) hstep
  obtain ⟨pages, hreads⟩ := hreads
  refine ⟨e₀, e, ws, hopen, hrun, hreads.get_fst hadd, fun start stop hle => ?_⟩
  obtain ⟨out, hscan, hasc, hmem⟩ := scan_spec hreads.drained hle
  refine ⟨out, hscan, hasc, fun k v => ?_⟩
  rw [hmem, hreads.scanned hadd]
  by_cases hk : InRange start stop k
  · rw [if_pos hk]
    exact ⟨fun hv => ⟨hk, hv⟩, fun hv => hv.2⟩
  · rw [if_neg hk]
    exact ⟨fun hv => absurd hv (by simp), fun hv => absurd hv.1 hk⟩

/-! ### A store without compaction -/

omit [Codec] in
/-- The store that keeps all pages in L0. -/
def keepAll (cm : CompactionManager) (page : Page) : CompactionManager :=
  { cm with l0 := cm.l0 ++ [page] }

omit [Codec] in
theorem foldl_keepAll (pages : List Page) (cm : CompactionManager) :
    pages.foldl keepAll cm = { cm with l0 := cm.l0 ++ pages } := by
  induction pages generalizing cm with
  | nil =>
    rw [List.append_nil]
    rfl
  | cons page pages ih =>
    rw [List.foldl_cons, ih, keepAll, List.append_assoc, List.singleton_append]

omit [Codec] in
theorem keepAll_newest : Newest keepAll := by
  have hget : ∀ {pages : List Page}, (∀ p ∈ pages, p.Sorted) →
      (pages.foldl keepAll .new).Sorted ∧
        ∀ k, (pages.foldl keepAll .new).get k = answer (newest pages k) := by
    intro pages hpages
    have hsorted : (pages.foldl keepAll .new).Sorted := by
      rw [foldl_keepAll]
      intro p hp
      exact hpages p (by simpa [CompactionManager.allPages, CompactionManager.new] using hp)
    refine ⟨hsorted, fun k => ?_⟩
    rw [CompactionManager.get_eq hsorted, foldl_keepAll, newest]
    simp [CompactionManager.readOrder, CompactionManager.new]
  refine ⟨fun hpages => (hget hpages).2, fun hpages start stop k => ?_⟩
  rw [CompactionManager.getElem?_scan (hget hpages).1, (hget hpages).2]

omit [Codec] in
/-- Two puts do not return if their keys have the same hash. -/
theorem reads_reference_collision :
    ¬∀ (t : ℕ) (outcomes : List (Option WriteFault)) (cs : List Call),
      (∀ c ∈ cs, c.isBasic = true) → ∃ e₀ e ws,
        @Engine.open storedCodec t ∅ none outcomes = .ok e₀ ∧
        cs.foldlM (@attempt storedCodec keepAll) (e₀, []) = some (e, ws) ∧
        ∀ k, (e.get k).1 = reference ws k := by
  intro h
  have hnone : ((@Engine.open storedCodec 1000 ∅ none []).toOption.bind fun e =>
      [Call.put Hamt.twin₁ [1], Call.put Hamt.twin₂ [2]].foldlM (@attempt storedCodec keepAll)
        (e, [])).isNone = true := by
    decide +kernel
  obtain ⟨e₀, e, ws, hopen, hrun, -⟩ := h 1000 [] [.put Hamt.twin₁ [1], .put Hamt.twin₂ [2]]
    (by simp [Call.isBasic])
  rw [hopen, Except.toOption, Option.bind_some, hrun] at hnone
  exact absurd hnone (by simp)

omit [Codec] in
/-- A run that flushes after every write: a key is put, read, deleted and put again with an
empty value, and the log fails once. -/
theorem reads_reference_keepAll : ∃ e₀ e ws,
    @Engine.open storedCodec 1 ∅ none [none, none, some ⟨3, "disk full"⟩] = .ok e₀ ∧
    [Call.put [107] [1], .putBatch [([108], [3])], .get [107], .delete [108], .delete [107],
      .flush, .put [107] []].foldlM (@attempt storedCodec keepAll) (e₀, []) = some (e, ws) ∧
    (e.get [107]).1 = some [] ∧
    ∃ out, e.scan [107] [109] = .ok out ∧ ([107], []) ∈ out ∧ ([108], [3]) ∈ out := by
  have hinj : Set.InjOn fnv1a {[107], [108]} := by
    have hne : fnv1a [107] ≠ fnv1a [108] := by decide +kernel
    rintro k (rfl | rfl) k' (rfl | rfl) heq
    · rfl
    · exact absurd heq hne
    · exact absurd heq hne.symm
    · rfl
  have hwrites : ((@Engine.open storedCodec 1 ∅ none
      [none, none, some ⟨3, "disk full"⟩]).toOption.bind fun e =>
        ([Call.put [107] [1], .putBatch [([108], [3])], .get [107], .delete [108],
          .delete [107], .flush, .put [107] []].foldlM (@attempt storedCodec keepAll)
            (e, [])).map (·.2))
      = some [([107], some [1]), ([108], some [3]), ([107], none), ([107], some [])] := by
    decide +kernel
  obtain ⟨e₀, e, ws, hopen, hrun, hget, hscan⟩ := @reads_reference storedCodec _ keepAll_newest 1
    [none, none, some ⟨3, "disk full"⟩]
    [.put [107] [1], .putBatch [([108], [3])], .get [107], .delete [108], .delete [107], .flush,
      .put [107] []] (by simp [Call.isBasic]) fun e₀ hopen => by
      refine @clearAll_of_injOn storedCodec _ _ hinj _ (by simp [Call.isBasic]) ?_ (e₀, []) ?_
      · simp [Call.putKeys, validUtf8]
      · exact @stateIn_of_open_empty storedCodec _ _ _ _ hopen
  refine ⟨e₀, e, ws, hopen, hrun, ?_⟩
  rw [hopen, Except.toOption, Option.bind_some, hrun, Option.map_some, Option.some_inj] at hwrites
  obtain ⟨out, hout, _, hmem⟩ := hscan [107] [109] (by decide)
  rw [show ws = _ from hwrites] at hget hmem
  refine ⟨(hget [107]).trans (by decide), out, hout, ?_, ?_⟩
  · exact (hmem _ _).mpr ⟨by decide, by decide⟩
  · exact (hmem _ _).mpr ⟨by decide, by decide⟩

end Engine

end Uldb
