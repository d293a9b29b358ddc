/-
Recovery over many sessions.

A database is a log and the page files that its sessions have written.  A session
opens it, makes calls that succeed, and ends, by a close or by a crash between
two calls; the next one finds the log as it was handed to the operating system,
and any mixture of the page files, some of them cut short.

`open_recovers`: as long as all written pages are within the limits of the page
format, and the live keys have different hashes, a session whose replay stays
below the threshold opens, and reads the last write of every key.

`open_collision` is a run of two sessions after which the database does not open:
two live keys with the same hash, which no trie can hold.
-/
import Uldb.Replay
import Uldb.StoredCodec

namespace Uldb

open Fallible

namespace Call

/-- The reads and writes of the history, a flush of the memtable or the log, and
the steps of the worker.  A close is a flush, a sync and worker steps. -/
def isStorage : Call → Bool
  | put _ _ => true
  | delete _ => true
  | putBatch _ => true
  | bulkIngest _ => true
  | flush => true
  | sync => true
  | get _ => true
  | scan _ _ => true
  | work => true
  | _ => false

/-- A put or batch entry within the limits; an empty value would be a delete marker. -/
def SizedEntry (key value : Bytes) : Prop :=
  key.length ≤ 65535 ∧ 1 ≤ value.length ∧ value.length ≤ 100000000

/-- The keys and values of a call are within the limits. -/
def Sized : Call → Prop
  | put key value => SizedEntry key value
  | delete key => key.length ≤ 65535
  | putBatch entries => ∀ kv ∈ entries, SizedEntry kv.1 kv.2
  | bulkIngest entries => ∀ kv ∈ entries, SizedEntry kv.1 kv.2
  | _ => True

theorem Sized.records_fit {c : Call} (hs : c.isStorage = true) (h : c.Sized) :
    ∀ r ∈ c.records, r.Fits := by
  have hbatch : ∀ entries : List (Bytes × Bytes), (∀ kv ∈ entries, SizedEntry kv.1 kv.2) →
      ∀ r ∈ Engine.batchRecords entries, r.Fits := by
    intro entries hsized r hr
    obtain ⟨kv, hkv, rfl⟩ := List.mem_map.mp hr
    exact ⟨(hsized kv hkv).1, (hsized kv hkv).2.2⟩
  intro r hr
  cases c with
  | put key value =>
    rw [List.mem_singleton.mp hr]
    exact ⟨h.1, h.2.2⟩
  | delete key =>
    rw [List.mem_singleton.mp hr]
    exact ⟨h, by simp⟩
  | putBatch entries => exact hbatch entries h r hr
  | bulkIngest entries => exact hbatch entries h r hr
  | _ => first | exact absurd hr List.not_mem_nil | exact absurd hs (by simp [isStorage])

/-- A call writes the keys of its records only. -/
theorem key_of_writes {c : Call} (hs : c.isStorage = true) {k : Bytes} {v : Option Bytes}
    (h : c.writes k v) : ∃ r ∈ c.records, r.key = k := by
  have hbatch : ∀ entries : List (Bytes × Bytes), (∃ value, (k, value) ∈ entries ∧ some value = v) →
      ∃ r ∈ Engine.batchRecords entries, r.key = k := by
    rintro entries ⟨value, hmem, _⟩
    exact ⟨⟨k, value⟩, List.mem_map.mpr ⟨(k, value), hmem, rfl⟩, rfl⟩
  cases c with
  | put key value => exact ⟨⟨key, value⟩, List.mem_singleton.mpr rfl, h.1⟩
  | delete key => exact ⟨⟨key, []⟩, List.mem_singleton.mpr rfl, h.1⟩
  | putBatch entries => exact hbatch entries h
  | bulkIngest entries => exact hbatch entries h
  | _ => first | exact absurd h id | exact absurd hs (by simp [isStorage])

theorem isMerge_of_isStorage {c : Call} (hs : c.isStorage = true) : c.isMerge = false := by
  cases c <;> first | rfl | exact absurd hs (by simp [isStorage])

end Call

/-- A database: what is on disk, the open session, and the history of its writes. -/
structure Db where
  /-- The log file, if it has been created. -/
  log : Option Bytes
  /-- All pages the workers have saved so far. -/
  written : List Page
  session : Option Engine
  /-- The records of all calls that succeeded, in order. -/
  history : List WalRecord

namespace Db

def empty : Db := ⟨none, [], none, []⟩

/-- The pages that a call saves: those of all levels, where the worker has
received a page. -/
def saved (c : Call) (e e' : Engine) : List Page :=
  match c with
  | .work => if e.compactor.queue = [] then [] else e'.compactor.compaction.allPages
  | _ => []

section

variable [Codec]

inductive Step : Db → Db → Prop
  /-- A session opens on whatever is left of the page files. -/
  | opens {db : Db} {t : ℕ} {dir : Dir} {outcomes : List (Option WriteFault)} {e : Engine}
      (hclosed : db.session = none) (hdir : PageStore.Damaged db.written dir)
      (hopen : Engine.open t dir db.log outcomes = .ok e) :
      Step db { db with session := some e }
  /-- A call of the session succeeds. -/
  | call {db : Db} {e e' : Engine} {c : Call} (hsession : db.session = some e)
      (hstorage : c.isStorage = true) (hsized : c.Sized) (hexec : Engine.exec c e = .ok () e') :
      Step db { db with
        session := some e'
        written := db.written ++ saved c e e'
        history := db.history ++ c.records }
  /-- The session ends; what was not handed to the operating system is lost. -/
  | ends {db : Db} {e : Engine} (hsession : db.session = some e) :
      Step db { db with session := none, log := some e.wal.file }

/-- The key occurs in the history. -/
def Written (db : Db) (k : Bytes) : Prop := ∃ r ∈ db.history, r.key = k

/-- The log is the history, and no page or memtable has a key that is not in it. -/
structure Inv (db : Db) : Prop where
  fits : ∀ r ∈ db.history, r.Fits
  log : db.session = none → db.log.getD [] = Wal.encode db.history
  pages : ∀ p ∈ db.written, Engine.PageIn db.Written p
  wal : ∀ e, db.session = some e → e.wal.file = Wal.encode db.history ∧ e.wal.buffer = []
  tracked : ∀ e, db.session = some e → e.Tracked db.Written

theorem inv_empty : empty.Inv where
  fits r hr := absurd hr (by simp [empty])
  log _ := rfl
  pages p hp := absurd hp (by simp [empty])
  wal e he := absurd he (by simp [empty])
  tracked e he := absurd he (by simp [empty])

variable {db db' : Db}

omit [Codec] in
theorem pageIn_mono {K K' : Bytes → Prop} (h : ∀ k, K k → K' k) {p : Page}
    (hp : Engine.PageIn K p) : Engine.PageIn K' p := ⟨hp.1, fun r hr => h _ (hp.2 r hr)⟩

omit [Codec] in
theorem tracked_mono {K K' : Bytes → Prop} (h : ∀ k, K k → K' k) {e : Engine}
    (he : e.Tracked K) : e.Tracked K' :=
  ⟨fun k entry hk => h k (he.memtable k entry hk),
    fun p hp => pageIn_mono h (he.queue p hp), fun p hp => pageIn_mono h (he.levels p hp)⟩

omit [Codec] in
theorem mem_levels_of_saved {c : Call} {e e' : Engine} {p : Page} (h : p ∈ saved c e e') :
    p ∈ e'.compactor.compaction.allPages := by
  cases c with
  | work =>
    rw [saved] at h
    by_cases hq : e.compactor.queue = []
    · rw [if_pos hq] at h
      exact absurd h (by simp)
    · rwa [if_neg hq] at h
  | _ => exact absurd h (by simp [saved])

/-- The replay of the log gives the history back. -/
theorem Inv.replay (hdb : db.Inv) (hclosed : db.session = none) :
    (Wal.replay (db.log.getD [])).1 = db.history := by
  rw [hdb.log hclosed, Wal.replay_intact hdb.fits]

/-- The memtable after a replay has keys of the history only. -/
theorem Inv.replayed (hdb : db.Inv) (hclosed : db.session = none) (t : ℕ) {k : Bytes}
    {entry : MemEntry} (h : (Engine.replayLog t (db.log.getD [])).1.getEntry k = some entry) :
    db.Written k := by
  have hlast := Engine.getEntry_replayLog t (db.log.getD []) k
  rw [h, hdb.replay hclosed] at hlast
  obtain ⟨r, hr, _⟩ := Option.map_eq_some_iff.mp hlast.symm
  exact ⟨r, key_of_lastRecord hr⟩

/-- The pages that load from what is left of the page files have keys of the history only. -/
theorem Inv.loaded (hflate : Codec.Lossless) (hdb : db.Inv) (hfits : ∀ p ∈ db.written, p.Fits)
    {dir : Dir} (hdir : PageStore.Damaged db.written dir) :
    ∃ cm, PageStore.loadAll dir = .ok cm ∧ ∀ p ∈ cm.allPages, Engine.PageIn db.Written p := by
  obtain ⟨cm, hload, hmem⟩ := PageStore.loadAll_of_damaged hflate hfits hdir
  refine ⟨cm, hload, fun p hp => ?_⟩
  obtain ⟨q, hq, hrecords⟩ := hmem p hp
  obtain ⟨hsorted, hkeys⟩ := hdb.pages q hq
  rw [Engine.PageIn, Page.Sorted, hrecords]
  exact ⟨hsorted, hkeys⟩

omit [Codec] in
/-- A key that was never written is in no page. -/
theorem get_eq_none_of_pageIn {cm : CompactionManager}
    (hpages : ∀ p ∈ cm.allPages, Engine.PageIn db.Written p) {k : Bytes}
    (hk : lastRecord db.history k = none) : cm.get k = none := by
  refine CompactionManager.get_eq_none fun p hp r hrec hkey => ?_
  obtain ⟨r', hr', hkey'⟩ := (hpages p hp).2 r hrec
  have hnone := List.find?_eq_none.mp hk r' (List.mem_reverse.mpr hr')
  exact hnone (by simpa using hkey'.trans hkey)

theorem Inv.opens (hflate : Codec.Lossless) (hdb : db.Inv) (hfits : ∀ p ∈ db.written, p.Fits)
    (hclosed : db.session = none) {t : ℕ} {dir : Dir} {outcomes : List (Option WriteFault)}
    {e : Engine} (hdir : PageStore.Damaged db.written dir)
    (hopen : Engine.open t dir db.log outcomes = .ok e) :
    Inv { db with session := some e } := by
  have ho := Engine.opened_of_open hopen
  obtain ⟨cm, hload, hpages⟩ := hdb.loaded hflate hfits hdir
  have hlevels : e.compactor.compaction = cm := by
    have := ho.levels
    rw [hload, Except.ok.injEq] at this
    exact this.symm
  refine ⟨hdb.fits, fun h => absurd h (by simp), hdb.pages, fun e' he' => ?_, fun e' he' => ?_⟩
  · obtain rfl : e = e' := by simpa using he'
    rw [ho.wal]
    exact ⟨hdb.log hclosed, rfl⟩
  · obtain rfl : e = e' := by simpa using he'
    -- the replayed entries stay in the memtable, or wait in the queue as one page
    by_cases hflush : Engine.ReplayFlushes t db.log
    · obtain ⟨hmem, hqueue⟩ := ho.flushed hflush
      refine ⟨fun k entry hk => ?_, fun p hp => ?_, by rwa [hlevels]⟩
      · rw [hmem, Memtable.getEntry_toPage] at hk
        exact absurd hk (by simp)
      · rw [hqueue] at hp
        rw [List.mem_singleton.mp hp]
        exact Engine.pageIn_toPage fun k entry hentry => hdb.replayed hclosed t hentry
    · obtain ⟨hmem, hqueue⟩ := ho.kept hflush
      refine ⟨fun k entry hk => ?_, fun p hp => ?_, by rwa [hlevels]⟩
      · rw [hmem] at hk
        exact hdb.replayed hclosed t hk
      · rw [hqueue] at hp
        exact absurd hp (by simp)

theorem Inv.call (hdb : db.Inv) {e e' : Engine} {c : Call} (hsession : db.session = some e)
    (hstorage : c.isStorage = true) (hsized : c.Sized) (hexec : Engine.exec c e = .ok () e') :
    Inv { db with
      session := some e'
      written := db.written ++ saved c e e'
      history := db.history ++ c.records } := by
  set next : Db := { db with
    session := some e'
    written := db.written ++ saved c e e'
    history := db.history ++ c.records } with hnext
  have hmono : ∀ k, db.Written k → next.Written k := fun k ⟨r, hr, hk⟩ => ⟨r, by simp [hnext, hr], hk⟩
  have hwrites : ∀ k v, c.writes k v → next.Written k := by
    intro k v hk
    obtain ⟨r, hr, hkey⟩ := Call.key_of_writes hstorage hk
    exact ⟨r, by simp [hnext, hr], hkey⟩
  have htracked : e'.Tracked next.Written :=
    (Engine.exec_keeps Engine.tracked_coreInv c hwrites).of_ok hexec
      (tracked_mono hmono (hdb.tracked e hsession))
  obtain ⟨hcontent, hbuffer⟩ := Engine.exec_wal (Call.isMerge_of_isStorage hstorage) hexec
  obtain ⟨hfile, hempty⟩ := hdb.wal e hsession
  refine ⟨fun r hr => ?_, fun h => absurd h (by simp [hnext]), fun p hp => ?_,
    fun e'' he'' => ?_, fun e'' he'' => ?_⟩
  · rcases List.mem_append.mp hr with hr | hr
    · exact hdb.fits r hr
    · exact hsized.records_fit hstorage r hr
  · rcases List.mem_append.mp hp with hp | hp
    · exact pageIn_mono hmono (hdb.pages p hp)
    · -- the worker saves the pages of the levels
      exact htracked.levels p (mem_levels_of_saved hp)
  · obtain rfl : e' = e'' := by simpa [hnext] using he''
    have hnil := hbuffer hempty
    refine ⟨?_, hnil⟩
    rw [WalWriter.content, WalWriter.content, hnil, hempty, List.append_nil, List.append_nil,
      hfile] at hcontent
    rw [hcontent, hnext, Wal.encode_append]
  · obtain rfl : e' = e'' := by simpa [hnext] using he''
    exact htracked

/-- Every step keeps the invariant, as long as the pages written so far fit. -/
theorem Inv.step (hflate : Codec.Lossless) (hdb : db.Inv) (hfits : ∀ p ∈ db.written, p.Fits)
    (hstep : Step db db') : db'.Inv := by
  cases hstep with
  | opens hclosed hdir hopen => exact hdb.opens hflate hfits hclosed hdir hopen
  | call hsession hstorage hsized hexec => exact hdb.call hsession hstorage hsized hexec
  | ends hsession =>
    refine ⟨hdb.fits, fun _ => (hdb.wal _ hsession).1, hdb.pages, fun e he => ?_, fun e he => ?_⟩
    · exact absurd he (by simp)
    · exact absurd he (by simp)

theorem written_step (hstep : Step db db') : ∀ p ∈ db.written, p ∈ db'.written := by
  intro p hp
  cases hstep with
  | opens => exact hp
  | call => exact List.mem_append_left _ hp
  | ends => exact hp

/-- **Every reachable database** whose written pages fit satisfies the invariant. -/
theorem Inv.reachable (hflate : Codec.Lossless) (hrun : Relation.ReflTransGen Step empty db)
    (hfits : ∀ p ∈ db.written, p.Fits) : db.Inv := by
  induction hrun with
  | refl => exact inv_empty
  | tail _ hstep ih =>
    have hfits' := fun p hp => hfits p (written_step hstep p hp)
    exact (ih hfits').step hflate hfits' hstep

/-- **Recovery.**  If all written pages are within the limits of the page format,
and the keys that hold a value have different hashes, then whatever is left of
the page files, a session whose replay stays below the threshold opens and reads
the last write of every key. -/
theorem open_recovers (hflate : Codec.Lossless) (hrun : Relation.ReflTransGen Step empty db)
    (hclosed : db.session = none) (hfits : ∀ p ∈ db.written, p.Fits)
    (hhash : Set.InjOn fnv1a {k | (finalValue db.history k).isSome = true})
    {dir : Dir} (hdir : PageStore.Damaged db.written dir) {t : ℕ}
    (hsmall : (Engine.replayLog t (db.log.getD [])).1.shouldFlush = false)
    (outcomes : List (Option WriteFault)) :
    ∃ e, Engine.open t dir db.log outcomes = .ok e ∧ ∀ k, (e.get k).1 = finalValue db.history k := by
  have hdb := Inv.reachable hflate hrun hfits
  obtain ⟨cm, hload, hpages⟩ := hdb.loaded hflate hfits hdir
  -- the live entries are the keys that hold a value
  have hlive : ∀ kv ∈ Engine.liveEntries (Engine.replayLog t (db.log.getD [])).1,
      kv.1 ∈ {k | (finalValue db.history k).isSome = true} := by
    rintro ⟨k, v⟩ hkv
    rw [Engine.mem_liveEntries, Engine.getEntry_replayLog, hdb.replay hclosed] at hkv
    obtain ⟨r, hr, hv⟩ := Option.map_eq_some_iff.mp hkv
    show (finalValue db.history k).isSome = true
    rw [finalValue, hr, Option.bind_some, hv]
    rfl
  obtain ⟨state, hstate⟩ := Hamt.foldlM_put_isSome hhash hlive
    (fun k hk => absurd hk (by simp) : ∀ k, (Hamt.new.get k).isSome → _)
  obtain ⟨e, hopen, hget⟩ := Engine.open_of_small outcomes hload hsmall hstate
  refine ⟨e, hopen, fun k => ?_⟩
  rw [hget, hdb.replay hclosed, finalValue]
  cases hr : lastRecord db.history k with
  | some r => rfl
  | none => exact get_eq_none_of_pageIn hpages hr

end

/-! ### Two sessions -/

/-- A session that puts one key. -/
def putSession (log : Option Bytes) (key : Bytes) : Option Engine :=
  @Engine.openRun storedCodec 1 ∅ log [.put key [118]]

/-- A database after a session that put one key. -/
theorem reachable_session {db : Db} (hrun : Relation.ReflTransGen (@Step storedCodec) empty db)
    (hclosed : db.session = none) {key : Bytes} (hkey : key.length ≤ 65535) {e' : Engine}
    (he' : putSession db.log key = some e') :
    Relation.ReflTransGen (@Step storedCodec) empty
      ⟨some e'.wal.file, db.written, none, db.history ++ [⟨key, [118]⟩]⟩ := by
  obtain ⟨e, hopen, hput⟩ := @Engine.exists_of_openRun storedCodec _ _ _ _ _ he'
  rw [@Engine.run_cons storedCodec, Option.bind_eq_some_iff] at hput
  obtain ⟨e₁, hsucc, hdone⟩ := hput
  obtain rfl : e₁ = e' := Option.some_inj.mp hdone
  obtain ⟨_, hexec⟩ := success_eq_some hsucc
  have hopened := hrun.tail (@Step.opens storedCodec db 1 ∅ [] e hclosed
    (fun name data h => absurd h (by simp)) hopen)
  have hcalled := hopened.tail (@Step.call storedCodec _ e e₁ (.put key [118]) rfl rfl
    ⟨hkey, by simp, by simp⟩ hexec)
  have hended := hcalled.tail (@Step.ends storedCodec _ e₁ rfl)
  simpa [saved, Call.records] using hended

/-- The log after a session on an empty directory. -/
def firstLog (key : Bytes) : Option Bytes := (putSession none key).map fun e => e.wal.file

/-- One session, one key: the next session reads it. -/
theorem open_recovers_one : ∃ e,
    @Engine.open storedCodec 1000 ∅ (firstLog [107]) [] = .ok e ∧ (e.get [107]).1 = some [118] := by
  have hsome : (putSession none [107]).isSome = true := by decide +kernel
  obtain ⟨e', he'⟩ := Option.isSome_iff_exists.mp hsome
  have hrun := @reachable_session empty .refl rfl [107] (by simp) e' he'
  have hlog : firstLog [107] = some e'.wal.file := by rw [firstLog, he', Option.map_some]
  have hsmall : (@Engine.replayLog storedCodec 1000 ((firstLog [107]).getD [])).1.shouldFlush
      = false := by decide +kernel
  have hlast : finalValue [⟨[107], [118]⟩] [107] = some [118] := by decide +kernel
  have hhash : Set.InjOn fnv1a {k | (finalValue [⟨[107], [118]⟩] k).isSome = true} := by
    intro k hk k' hk' _
    have hone : ∀ k, (finalValue [⟨[107], [118]⟩] k).isSome = true → k = [107] := by
      intro k hk
      by_contra hne
      simp [finalValue, lastRecord, Ne.symm hne] at hk
    rw [hone k hk, hone k' hk']
  rw [hlog] at hsmall ⊢
  obtain ⟨e, hopen, hget⟩ := @open_recovers storedCodec _ storedCodec_lossless hrun rfl
    (by simp [empty]) hhash ∅ (fun name data h => absurd h (by simp)) 1000 hsmall []
  exact ⟨e, hopen, (hget [107]).trans hlast⟩

/-- Two keys with the same hash. -/
def collidingKeys : Bytes × Bytes :=
  ([56, 121, 110, 48, 105, 89, 67, 75, 89, 72, 108, 73, 106, 52, 45, 66, 119, 80, 113, 107],
    [71, 82, 101, 76, 85, 114, 77, 52, 119, 77, 113, 102, 103, 57, 121, 122, 86, 51, 75, 81])

example : fnv1a collidingKeys.1 = fnv1a collidingKeys.2 := by decide +kernel

/-- The log after two sessions that put one of the keys each. -/
def collisionLog : Option Bytes :=
  (firstLog collidingKeys.1).bind fun log =>
    (putSession (some log) collidingKeys.2).map fun e => e.wal.file

/-- After two sessions with one put each, which both succeeded, the database does
not open: the trie cannot be rebuilt. -/
theorem open_collision :
    ¬∀ db : Db, Relation.ReflTransGen (@Step storedCodec) empty db → db.session = none →
      ∀ dir : Dir, @PageStore.Damaged storedCodec db.written dir → ∀ t : ℕ,
      (@Engine.replayLog storedCodec t (db.log.getD [])).1.shouldFlush = false →
      ∀ outcomes : List (Option WriteFault), ∃ e,
        @Engine.open storedCodec t dir db.log outcomes = .ok e ∧
          ∀ k, (e.get k).1 = finalValue db.history k := by
  intro h
  have hsome : collisionLog.isSome = true := by decide +kernel
  obtain ⟨log, hlog⟩ := Option.isSome_iff_exists.mp hsome
  have hsteps := hlog
  rw [collisionLog, Option.bind_eq_some_iff] at hsteps
  obtain ⟨log₁, hlog₁, hsecond⟩ := hsteps
  obtain ⟨e₁, he₁, rfl⟩ := Option.map_eq_some_iff.mp hlog₁
  obtain ⟨e₂, he₂, rfl⟩ := Option.map_eq_some_iff.mp hsecond
  have hrun₁ := @reachable_session empty .refl rfl collidingKeys.1 (by decide) e₁ he₁
  have hrun₂ := reachable_session hrun₁ rfl (by decide : collidingKeys.2.length ≤ 65535) he₂
  have hsmall : (@Engine.replayLog storedCodec 1000 (collisionLog.getD [])).1.shouldFlush
      = false := by decide +kernel
  rw [hlog] at hsmall
  obtain ⟨e, hopen, _⟩ := h _ hrun₂ rfl ∅ (fun name data h => absurd h (by simp)) 1000 hsmall []
  have hfails : (@Engine.open storedCodec 1000 ∅ collisionLog []).toOption.isSome = false := by
    decide +kernel
  rw [hlog, hopen] at hfails
  exact absurd hfails (by simp [Except.toOption])

end Db

end Uldb
