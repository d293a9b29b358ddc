/-
A commit that fails half-way (`server.rs`).

The buffer is applied by one engine call after the other, and the first that fails ends the
commit.  What the calls before it have written stays, and so does what the failing call wrote
before its flush failed.

* `applyBuffer_failed` — the engine after a failing commit, in terms of the writes that got done;
* `commit_failure_iff` — the failing commits that no read can tell.
-/
import Uldb.FlushFailure
import Uldb.Requests
import Uldb.TxReads

namespace Uldb

open Fallible

theorem LruCache.lookup_dropped_eq (cache : LruCache) (key k : Bytes) :
    (cache.dropped key).lookup k = if key = k then none else cache.lookup k := by
  rw [dropped]
  by_cases hempty : cache.isEmpty
  · rw [if_pos hempty, lookup_of_isEmpty hempty, ite_self]
  · rw [if_neg hempty, lookup_invalidate]

theorem TxOp.lastWrite_cons (op : TxOp) (ops : List TxOp) (k : Bytes) :
    lastWrite ((op :: ops).map write) k
      = (lastWrite (ops.map write) k).or (if op.key = k then some op.value else none) := by
  rw [← List.singleton_append, List.map_append, lastWrite_append, ← lastWrite_singleton]
  rfl

namespace Engine

/-! ### Reads -/

/-- The answer of `get`.  A worker that has ended has poisoned the lock of the levels. -/
def answer (e : Engine) (k : Bytes) : Option (Option Bytes) := e.read (!e.compactor.alive) k

/-- A scan needs no lock before the first flush. -/
def ScanReads (e : Engine) : Prop := e.Unflushed ∨ e.compactor.alive = true

instance (e : Engine) : Decidable e.ScanReads := inferInstanceAs (Decidable (_ ∨ _))

/-- The answer of `scan`. -/
def scanAnswer (e : Engine) (start stop : Bytes) : Except Failure (List (Bytes × Bytes)) :=
  if e.ScanReads then e.scan start stop else .error .panic

/-- All reads answer as before. -/
structure SameReads (e e' : Engine) : Prop where
  get : ∀ k, e'.answer k = e.answer k
  scan : ∀ start stop, e'.scanAnswer start stop = e.scanAnswer start stop
  state : ∀ k, e'.state.get k = e.state.get k

theorem SameReads.refl (e : Engine) : SameReads e e := ⟨fun _ => rfl, fun _ _ => rfl, fun _ => rfl⟩

/-- Scans are equal where they find the same for every key. -/
theorem scan_eq_iff {e e' : Engine} (he : e.Drained) (he' : e'.Drained) {start stop : Bytes}
    (hle : compare start stop ≠ .gt) :
    e'.scan start stop = e.scan start stop ↔
      ∀ k, e'.scanned start stop k = e.scanned start stop k := by
  obtain ⟨out, hout, hasc, hpairs⟩ := scan_spec he hle
  obtain ⟨out', hout', hasc', hpairs'⟩ := scan_spec he' hle
  rw [hout, hout', Except.ok.injEq]
  constructor
  · rintro rfl k
    apply Option.ext
    intro v
    rw [← hpairs', hpairs]
  · intro h
    have hirrefl : Std.Irrefl fun a b : Bytes × Bytes => compare a.1 b.1 = .lt :=
      ⟨fun a hlt => by rw [Page.compare_self] at hlt; exact absurd hlt (by simp)⟩
    have hasymm : Std.Antisymm fun a b : Bytes × Bytes => compare a.1 b.1 = .lt :=
      ⟨fun a b hab hba => by
        have hlt := Std.TransCmp.lt_trans hab hba
        rw [Page.compare_self] at hlt
        exact absurd hlt (by simp)⟩
    refine List.Pairwise.eq_of_mem_iff hasc' hasc fun kv => ?_
    rw [hpairs', hpairs, h]

/-- After the frozen memtables are drained, reversed bounds ask the memtable alone. -/
theorem Drained.scan_reversed_eq {e : Engine} (he : e.Drained) {start stop : Bytes}
    (hgt : compare start stop = .gt) :
    e.scan start stop = if e.memtable.isEmpty then .ok [] else .error .panic := by
  cases hempty : e.memtable.isEmpty with
  | true =>
    have hfrozen : ∀ m ∈ e.frozen, m.isEmpty = true := fun m hm => Memtable.isEmpty_iff.mpr (he m hm)
    exact e.scan_of_not_lt (by rw [hgt]; simp) (.inr ⟨hempty, hfrozen⟩)
  | false =>
    exact e.scan_reversed hgt fun hnothing => absurd (hempty.symm.trans hnothing.1) (by simp)

theorem Drained.scan_reversed_iff {e : Engine} (he : e.Drained) {start stop : Bytes}
    (hgt : compare start stop = .gt) :
    e.scan start stop = .ok [] ↔ e.memtable.isEmpty = true := by
  rw [he.scan_reversed_eq hgt]
  cases e.memtable.isEmpty <;> simp

/-! ### The writes that get done -/

/-- The writes of a buffer that get done: the ones before the first that cannot be logged, and,
if the worker has ended, up to the one that fills the memtable. -/
def loggedWrites [Codec] (t : ℕ) (alive : Bool) : WalWriter → Memtable → List TxOp → List TxOp
  | _, _, [] => []
  | w, m, op :: ops =>
    match WalWriter.log op.record w with
    | .error _ _ => []
    | .ok _ w =>
      if (m.write op.key op.value).shouldFlush = false then
        op :: loggedWrites t alive w (m.write op.key op.value) ops
      else if alive then op :: loggedWrites t alive w (Memtable.new t) ops
      else [op]

def applied [Codec] (e : Engine) (ops : List TxOp) : List TxOp :=
  loggedWrites e.flushThreshold e.compactor.alive e.wal e.memtable ops

/-- The writes since the memtable was last full; none if they never fill it. -/
def sinceFull (t : ℕ) : Memtable → List TxOp → Option (List TxOp)
  | _, [] => none
  | m, op :: ops =>
    if (m.write op.key op.value).shouldFlush = false then
      sinceFull t (m.write op.key op.value) ops
    else some ((sinceFull t (Memtable.new t) ops).getD ops)

/-- The writes fill the memtable. -/
def Fills (e : Engine) (ops : List TxOp) : Prop :=
  (sinceFull e.flushThreshold e.memtable ops).isSome = true

/-- The writes that stay in the memtable. -/
def kept (e : Engine) (ops : List TxOp) : List TxOp :=
  (sinceFull e.flushThreshold e.memtable ops).getD ops

/-- What the memtable holds for a key after the writes. -/
def inMemtable (e : Engine) (ops : List TxOp) (k : Bytes) : Option (Option Bytes) :=
  match sinceFull e.flushThreshold e.memtable ops with
  | none => (lastWrite (ops.map TxOp.write) k).or ((e.memtable.getEntry k).map MemEntry.value)
  | some kept => lastWrite (kept.map TxOp.write) k

/-- The engine after the writes, as far as the reads can tell. -/
structure AfterWrites (e : Engine) (ops : List TxOp) (e' : Engine) : Prop where
  memtable : ∀ k, (e'.memtable.getEntry k).map MemEntry.value = e.inMemtable ops k
  cache : ∀ k, e'.cache.lookup k
    = if lastWrite (ops.map TxOp.write) k = none then e.cache.lookup k else none
  levels : e'.compactor.compaction = e.compactor.compaction
  alive : e'.compactor.alive = e.compactor.alive
  state : ∀ k, e'.state.get k = (lastWrite (ops.map TxOp.write) k).getD (e.state.get k)
  unflushed : e'.Unflushed ↔ e.Unflushed ∧ ¬(e.compactor.alive = true ∧ e.Fills ops)
  drained : e.Drained → e'.Drained

/-- One write, and the flush of a full memtable, which a worker that has ended does not get. -/
structure OneWrite (e : Engine) (op : TxOp) (e' : Engine) : Prop where
  memtable : e'.memtable
    = if (e.memtable.write op.key op.value).shouldFlush = false then
        e.memtable.write op.key op.value
      else Memtable.new e.flushThreshold
  flushThreshold : e'.flushThreshold = e.flushThreshold
  cache : e'.cache = e.cache.dropped op.key
  levels : e'.compactor.compaction = e.compactor.compaction
  alive : e'.compactor.alive = e.compactor.alive
  state : ∀ k, e'.state.get k = if op.key = k then op.value else e.state.get k
  unflushed : e'.Unflushed ↔ e.Unflushed ∧
    ¬(e.compactor.alive = true ∧ (e.memtable.write op.key op.value).shouldFlush = true)
  drained : e.Drained → e'.Drained

theorem afterWrites_nil {e e' : Engine} {w : WalWriter} (h : e' = { e with wal := w }) :
    AfterWrites e [] e' := by
  subst h
  refine ⟨fun k => rfl, fun k => rfl, rfl, rfl, fun k => rfl, ?_, fun he => he⟩
  simp [Fills, sinceFull, Unflushed]

theorem AfterWrites.cons {e e₁ e' : Engine} {op : TxOp} {ops : List TxOp} (h : OneWrite e op e₁)
    (h' : AfterWrites e₁ ops e') : AfterWrites e (op :: ops) e' where
  memtable k := by
    -- if the write fills the memtable, only what comes after it is in the new one
    rw [h'.memtable, inMemtable, inMemtable, h.memtable, h.flushThreshold, sinceFull]
    by_cases hfull : (e.memtable.write op.key op.value).shouldFlush = false
    · rw [if_pos hfull, if_pos hfull]
      cases sinceFull e.flushThreshold (e.memtable.write op.key op.value) ops with
      | some kept => rfl
      | none =>
        simp only
        rw [TxOp.lastWrite_cons, Option.or_assoc, Memtable.getEntry_write]
        by_cases hk : op.key = k
        · rw [if_pos hk, if_pos hk]
          rfl
        · rw [if_neg hk, if_neg hk]
          rfl
    · rw [if_neg hfull, if_neg hfull]
      cases sinceFull e.flushThreshold (Memtable.new e.flushThreshold) ops with
      | some kept => rfl
      | none => simp
  cache k := by
    rw [h'.cache, h.cache, LruCache.lookup_dropped_eq, TxOp.lastWrite_cons]
    by_cases hk : op.key = k
    · rw [if_pos hk, ite_self, if_neg]
      simp [hk]
    · rw [if_neg hk, if_neg hk, Option.or_none]
  levels := h'.levels.trans h.levels
  alive := h'.alive.trans h.alive
  state k := by
    rw [h'.state, h.state, TxOp.lastWrite_cons]
    by_cases hk : op.key = k
    · rw [if_pos hk, if_pos hk]
      cases lastWrite (ops.map TxOp.write) k <;> rfl
    · rw [if_neg hk, if_neg hk, Option.or_none]
  unflushed := by
    -- the fast path ends with the first write that fills the memtable
    rw [h'.unflushed, h.unflushed, h.alive, Fills, Fills, h.memtable, h.flushThreshold, sinceFull]
    by_cases hfull : (e.memtable.write op.key op.value).shouldFlush = false
    · rw [if_pos hfull, if_pos hfull, hfull]
      simp
    · rw [if_neg hfull, if_neg hfull, eq_true_of_ne_false hfull]
      simp only [Option.isSome_some]
      constructor
      · rintro ⟨⟨hfast, hend⟩, _⟩
        exact ⟨hfast, hend⟩
      · rintro ⟨hfast, hend⟩
        exact ⟨⟨hfast, hend⟩, fun hboth => hend ⟨hboth.1, trivial⟩⟩
  drained he := h'.drained (h.drained he)

variable {op : TxOp} {ops : List TxOp} {e e' : Engine}

/-- What a write does to the trie. -/
theorem get_of_apply {h h' : Hamt} (happly : op.onTrie.apply h = some h') (k : Bytes) :
    h'.get k = if op.key = k then op.value else h.get k := by
  have hrun : h.run [op.onTrie] = some h' := foldlM_cons_eq_some.mpr ⟨h', happly, rfl⟩
  rw [Hamt.get_run hrun, List.map_singleton, TxOp.write_onTrie, TxOp.write, lastWrite_singleton]
  by_cases hk : op.key = k
  · rw [if_pos hk, if_pos hk]
    rfl
  · rw [if_neg hk, if_neg hk]
    rfl

/-- A write that leaves the memtable below the threshold. -/
theorem oneWrite_stored {w : WalWriter} {state : Hamt}
    (happly : op.onTrie.apply e.state = some state)
    (hfull : (e.memtable.write op.key op.value).shouldFlush = false) :
    OneWrite e op (e.stored op w state) := by
  refine ⟨?_, rfl, rfl, rfl, rfl, get_of_apply happly, ?_, fun he => he⟩
  · rw [if_pos hfull]
    rfl
  · rw [hfull]
    simp [stored, Unflushed]

/-- A write that fills the memtable, after the worker has ended. -/
theorem oneWrite_lost {w : WalWriter} {state : Hamt}
    (happly : op.onTrie.apply e.state = some state)
    (hfull : (e.memtable.write op.key op.value).shouldFlush = true)
    (halive : e.compactor.alive = false) :
    OneWrite e op { e.stored op w state with memtable := Memtable.new e.flushThreshold } := by
  refine ⟨?_, rfl, rfl, rfl, rfl, get_of_apply happly, ?_, fun he => he⟩
  · rw [hfull]
    rfl
  · rw [halive]
    simp [stored, Unflushed]

section

variable [Codec]

/-- A write that fills the memtable, with the worker at hand. -/
theorem oneWrite_flushed {w : WalWriter} {state : Hamt}
    (happly : op.onTrie.apply e.state = some state)
    (hfull : (e.memtable.write op.key op.value).shouldFlush = true)
    (halive : e.compactor.alive = true) : OneWrite e op (e.stored op w state).flushed := by
  refine ⟨?_, rfl, rfl, rfl, rfl, get_of_apply happly, ?_, fun he => drained_coreInv.flushed he⟩
  · rw [hfull]
    rfl
  · rw [hfull, halive]
    simp [stored, flushed, Unflushed]

/-- A write that succeeds. -/
theorem oneWrite_of_ok {u : Unit} (h : exec op.call e = .ok u e') :
    OneWrite e op e' ∧ e.applied (op :: ops) = op :: e'.applied ops := by
  obtain ⟨w, state, hlog, happly, hflush⟩ := exec_op_eq_ok.mp h
  have hmem : (e.stored op w state).memtable = e.memtable.write op.key op.value := rfl
  rw [flushIfFull, hmem] at hflush
  rw [applied, loggedWrites, hlog]
  simp only
  cases hfull : (e.memtable.write op.key op.value).shouldFlush with
  | false =>
    rw [hfull] at hflush
    obtain ⟨-, rfl⟩ := (EStateM.Result.ok.injEq _ _ _ _).mp hflush
    exact ⟨oneWrite_stored happly hfull, rfl⟩
  | true =>
    rw [hfull, if_pos rfl] at hflush
    obtain ⟨halive, rfl⟩ := flushMemtable_eq_ok hflush
    have halive' : e.compactor.alive = true := halive
    refine ⟨oneWrite_flushed happly hfull halive', ?_⟩
    rw [if_neg (by simp), if_pos halive']
    rfl

/-- A write that fails: nothing but the log has changed, or the memtable is lost. -/
theorem afterWrites_of_error {msg : String} (h : exec op.call e = .error (.error msg) e') :
    AfterWrites e (e.applied (op :: ops)) e' := by
  rw [exec_op] at h
  rw [applied, loggedWrites]
  cases hlog : WalWriter.log op.record e.wal with
  | error failure w =>
    rw [hlog, EStateM.Result.error.injEq] at h
    exact afterWrites_nil h.2.symm
  | ok u w =>
    rw [hlog] at h
    simp only at h ⊢
    cases happly : op.onTrie.apply e.state with
    | none =>
      rw [happly, EStateM.Result.error.injEq] at h
      exact absurd h.1 (by simp)
    | some state =>
      have hmem : (e.stored op w state).memtable = e.memtable.write op.key op.value := rfl
      rw [happly] at h
      simp only at h
      rw [flushIfFull, hmem] at h
      cases hfull : (e.memtable.write op.key op.value).shouldFlush with
      | false =>
        rw [hfull] at h
        exact absurd h (by simp)
      | true =>
        rw [hfull, if_pos rfl] at h
        cases halive : (e.stored op w state).compactor.alive with
        | true =>
          rw [flushMemtable_of_alive halive] at h
          exact absurd h (by simp)
        | false =>
          have halive' : e.compactor.alive = false := halive
          obtain rfl := flushMemtable_eq_error h
          rw [if_neg (by simp), halive', if_neg (by simp)]
          have hone := @oneWrite_lost op e w state happly hfull halive'
          exact .cons hone (@afterWrites_nil _ _ w rfl)

theorem exec_of_applyOp_error {msg : String} (h : applyOp op e = .error (.error msg) e') :
    ∃ msg', exec op.call e = .error (.error msg') e' ∧ msg = op.failed ++ msg' := by
  have herror : ∀ {text : String} {x : EngineM Unit},
      mapError (Failure.prepend text) x e = .error (.error msg) e' →
        ∃ msg', x e = .error (.error msg') e' ∧ msg = text ++ msg' := by
    intro text x hx
    rw [mapError] at hx
    cases hrun : x e with
    | ok u e₁ =>
      rw [hrun] at hx
      exact absurd hx (by simp)
    | error failure e₁ =>
      rw [hrun, EStateM.Result.error.injEq] at hx
      obtain ⟨hfailure, rfl⟩ := hx
      cases failure with
      | error msg' => exact ⟨msg', rfl, (Failure.error.inj hfailure).symm⟩
      | panic => exact absurd hfailure (by simp [Failure.prepend])
  cases op with
  | put key value => exact herror h
  | delete key => exact herror h

/-- **The engine after a buffer that fails**: the writes that got done, and nothing else. -/
theorem applyBuffer_failed {msg : String} (h : applyBuffer ops e = .error (.error msg) e') :
    AfterWrites e (e.applied ops) e' := by
  rw [applyBuffer] at h
  induction ops generalizing e with
  | nil => exact absurd h (by simp [List.forM_nil, pure, EStateM.pure])
  | cons op ops ih =>
    rw [List.forM_cons, bind_eq_error] at h
    rcases h with h | ⟨_, e₁, hop, h⟩
    · obtain ⟨msg', hexec, -⟩ := exec_of_applyOp_error h
      exact afterWrites_of_error hexec
    · obtain ⟨hone, hrest⟩ := oneWrite_of_ok (applyOp_eq_ok.mp hop)
      rw [hrest]
      exact .cons hone (ih h)

end

/-! ### Writes that leave no trace -/

/-- What a read finds below the memtable after the writes, which drop their keys from the
cache. -/
def foundUnder (e : Engine) (ops : List TxOp) (k : Bytes) : Option (Option Bytes) :=
  if lastWrite (ops.map TxOp.write) k = none then e.foundBelow (!e.compactor.alive) k
  else if e.compactor.alive then some (e.compactor.compaction.get k) else none

/-- What a scan finds for a key once the memtable has been full: the page is still on its way
to the levels, or there will be no flush and no levels to scan. -/
def scannedUnder (e : Engine) (start stop k : Bytes) : Option Bytes :=
  if e.compactor.alive then (e.compactor.compaction.scan start stop)[k]? else none

/-- The writes leave no trace: all that is written is there already, and if the memtable has
been full, nothing depends on what was in it. -/
structure Traceless (e : Engine) (ops : List TxOp) : Prop where
  state : ∀ k v, lastWrite (ops.map TxOp.write) k = some v → e.state.get k = v
  get : ∀ k v, lastWrite ((e.kept ops).map TxOp.write) k = some v → e.answer k = some v
  scan : e.ScanReads → ∀ k v, lastWrite ((e.kept ops).map TxOp.write) k = some v →
    ∀ start stop, InRange start stop k → e.scanned start stop k = v
  /-- A scan with reversed bounds returns only while there is no entry in memory. -/
  reversed : e.ScanReads → ((∀ k, e.inMemtable ops k = none) ↔ e.memtable.isEmpty = true)
  getUnder : e.Fills ops → ∀ k, lastWrite ((e.kept ops).map TxOp.write) k = none →
    e.answer k = e.foundUnder ops k
  scanUnder : e.Fills ops → e.ScanReads → ∀ start stop k, compare start stop ≠ .gt →
    (InRange start stop k → lastWrite ((e.kept ops).map TxOp.write) k = none) →
      e.scanned start stop k = e.scannedUnder start stop k

theorem inMemtable_of_fills (hfills : e.Fills ops) (k : Bytes) :
    e.inMemtable ops k = lastWrite ((e.kept ops).map TxOp.write) k := by
  rw [Fills, Option.isSome_iff_exists] at hfills
  obtain ⟨kept, hkept⟩ := hfills
  rw [inMemtable, Engine.kept, hkept]
  rfl

theorem inMemtable_of_not_fills (hfills : ¬e.Fills ops) (k : Bytes) :
    e.inMemtable ops k = (lastWrite ((e.kept ops).map TxOp.write) k).or
      ((e.memtable.getEntry k).map MemEntry.value) := by
  rw [Fills, Option.not_isSome_iff_eq_none] at hfills
  rw [inMemtable, Engine.kept, hfills]
  rfl

theorem kept_of_not_fills (hfills : ¬e.Fills ops) : e.kept ops = ops := by
  rw [Fills, Option.not_isSome_iff_eq_none] at hfills
  rw [kept, hfills]
  rfl

theorem inMemtable_of_kept {k : Bytes} {v : Option Bytes}
    (hk : lastWrite ((e.kept ops).map TxOp.write) k = some v) : e.inMemtable ops k = some v := by
  by_cases hfills : e.Fills ops
  · rw [inMemtable_of_fills hfills, hk]
  · rw [inMemtable_of_not_fills hfills, hk]
    rfl

namespace AfterWrites

theorem foundBelow (h : AfterWrites e ops e') (k : Bytes) :
    e'.foundBelow (!e'.compactor.alive) k = e.foundUnder ops k := by
  rw [Engine.foundBelow, foundUnder, h.cache, h.levels, h.alive, Engine.foundBelow]
  by_cases hk : lastWrite (ops.map TxOp.write) k = none
  · rw [if_pos hk, if_pos hk]
  · rw [if_neg hk, if_neg hk]
    cases e.compactor.alive <;> rfl

/-- Whether the memtable is empty after the writes. -/
theorem memtable_isEmpty (h : AfterWrites e ops e') :
    e'.memtable.isEmpty = true ↔ ∀ k, e.inMemtable ops k = none := by
  rw [Memtable.isEmpty_iff]
  refine forall_congr' fun k => ?_
  rw [← h.memtable, Option.map_eq_none_iff]

/-- The answer of `get` after the writes. -/
theorem answer (h : AfterWrites e ops e') (he : e.Drained) (k : Bytes) :
    e'.answer k = ((e.inMemtable ops k).map some).getD (e.foundUnder ops k) := by
  rw [Engine.answer, (h.drained he).read_eq, h.foundBelow, ← h.memtable, Option.map_map]
  rfl

theorem get_iff (h : AfterWrites e ops e') (he : e.Drained) :
    (∀ k, e'.answer k = e.answer k) ↔
      (∀ k v, lastWrite ((e.kept ops).map TxOp.write) k = some v → e.answer k = some v) ∧
        (e.Fills ops → ∀ k, lastWrite ((e.kept ops).map TxOp.write) k = none →
          e.answer k = e.foundUnder ops k) := by
  constructor
  · intro hsame
    constructor
    · intro k v hk
      rw [← hsame, h.answer he, inMemtable_of_kept hk]
      rfl
    · intro hfills k hk
      rw [← hsame, h.answer he, inMemtable_of_fills hfills, hk]
      rfl
  · rintro ⟨hkept, hunder⟩ k
    rw [h.answer he]
    cases hk : lastWrite ((e.kept ops).map TxOp.write) k with
    | some v =>
      rw [inMemtable_of_kept hk, hkept k v hk]
      rfl
    | none =>
      by_cases hfills : e.Fills ops
      · rw [inMemtable_of_fills hfills, hk, hunder hfills k hk]
        rfl
      · -- the key is not written at all
        rw [inMemtable_of_not_fills hfills, hk, Option.none_or, foundUnder,
          ← kept_of_not_fills hfills, if_pos hk, Engine.answer, he.read_eq, Option.map_map]
        rfl

theorem scanReads (h : AfterWrites e ops e') : e'.ScanReads ↔ e.ScanReads := by
  rw [ScanReads, ScanReads, h.unflushed, h.alive]
  constructor
  · rintro (⟨hfast, _⟩ | halive)
    · exact .inl hfast
    · exact .inr halive
  · rintro (hfast | halive)
    · by_cases halive : e.compactor.alive = true
      · exact .inr halive
      · exact .inl ⟨hfast, fun hboth => halive hboth.1⟩
    · exact .inr halive

theorem scannedBelow_of_fills (h : AfterWrites e ops e') (hfills : e.Fills ops)
    (hreads : e.ScanReads) (start stop k : Bytes) :
    e'.scannedBelow start stop k = e.scannedUnder start stop k := by
  rw [scannedBelow, scannedUnder, h.levels]
  by_cases halive : e.compactor.alive = true
  · rw [if_pos halive, if_neg]
    rw [h.unflushed]
    exact fun hboth => hboth.2 ⟨halive, hfills⟩
  · rw [if_neg halive, if_pos]
    rw [h.unflushed]
    exact ⟨hreads.resolve_right halive, fun hboth => halive hboth.1⟩

theorem scannedBelow_of_not_fills (h : AfterWrites e ops e') (hfills : ¬e.Fills ops)
    (start stop k : Bytes) : e'.scannedBelow start stop k = e.scannedBelow start stop k := by
  have hfast : e'.Unflushed ↔ e.Unflushed := by
    rw [h.unflushed]
    exact ⟨fun hboth => hboth.1, fun hfast => ⟨hfast, fun hboth => hfills hboth.2⟩⟩
  rw [scannedBelow, scannedBelow, h.levels]
  by_cases hu : e.Unflushed
  · rw [if_pos hu, if_pos (hfast.mpr hu)]
  · rw [if_neg hu, if_neg fun hu' => hu (hfast.mp hu')]

/-- What a scan finds for a key after the writes. -/
theorem scanned (h : AfterWrites e ops e') (start stop k : Bytes) : e'.scanned start stop k
    = if InRange start stop k then (e.inMemtable ops k).getD (e'.scannedBelow start stop k)
      else e'.scannedBelow start stop k := by
  rw [Engine.scanned, h.memtable]

theorem scan_iff (h : AfterWrites e ops e') (he : e.Drained) :
    (∀ start stop, e'.scanAnswer start stop = e.scanAnswer start stop) ↔
      (e.ScanReads → (∀ start stop k, compare start stop ≠ .gt →
        e'.scanned start stop k = e.scanned start stop k) ∧
        ((∀ k, e.inMemtable ops k = none) ↔ e.memtable.isEmpty = true)) := by
  constructor
  · intro hsame hreads
    have hscan : ∀ start stop, e'.scan start stop = e.scan start stop := by
      intro start stop
      have hscan := hsame start stop
      rwa [scanAnswer, scanAnswer, if_pos hreads, if_pos (h.scanReads.mpr hreads)] at hscan
    constructor
    · intro start stop k hle
      exact (scan_eq_iff he (h.drained he) hle).mp (hscan start stop) k
    · have hgt : compare ([1] : Bytes) [0] = .gt := by decide
      rw [← h.memtable_isEmpty, ← (h.drained he).scan_reversed_iff hgt, hscan,
        he.scan_reversed_iff hgt]
  · intro hsame start stop
    rw [scanAnswer, scanAnswer]
    by_cases hreads : e.ScanReads
    · rw [if_pos hreads, if_pos (h.scanReads.mpr hreads)]
      obtain ⟨hscanned, hempty⟩ := hsame hreads
      by_cases hgt : compare start stop = .gt
      · rw [← h.memtable_isEmpty] at hempty
        rw [he.scan_reversed_eq hgt, (h.drained he).scan_reversed_eq hgt, Bool.eq_iff_iff.mpr hempty]
      · exact (scan_eq_iff he (h.drained he) hgt).mpr fun k => hscanned start stop k hgt
    · rw [if_neg hreads, if_neg fun hreads' => hreads (h.scanReads.mp hreads')]

theorem scanned_iff (h : AfterWrites e ops e') (hreads : e.ScanReads) :
    (∀ start stop k, compare start stop ≠ .gt →
        e'.scanned start stop k = e.scanned start stop k) ↔
      (∀ k v, lastWrite ((e.kept ops).map TxOp.write) k = some v →
        ∀ start stop, InRange start stop k → e.scanned start stop k = v) ∧
      (e.Fills ops → ∀ start stop k, compare start stop ≠ .gt →
        (InRange start stop k → lastWrite ((e.kept ops).map TxOp.write) k = none) →
          e.scanned start stop k = e.scannedUnder start stop k) := by
  constructor
  · intro hsame
    constructor
    · intro k v hk start stop hin
      rw [← hsame start stop k hin.start_le, h.scanned, if_pos hin, inMemtable_of_kept hk]
      rfl
    -- once the memtable has been filled, a key without a later write is read from below
    · intro hfills start stop k hle hfree
      rw [← hsame start stop k hle, h.scanned, inMemtable_of_fills hfills,
        h.scannedBelow_of_fills hfills hreads]
      by_cases hin : InRange start stop k
      · rw [if_pos hin, hfree hin]
        rfl
      · rw [if_neg hin]
  · rintro ⟨hkept, hunder⟩ start stop k hle
    rw [h.scanned]
    by_cases hfills : e.Fills ops
    · rw [inMemtable_of_fills hfills, h.scannedBelow_of_fills hfills hreads]
      by_cases hin : InRange start stop k
      · rw [if_pos hin]
        cases hk : lastWrite ((e.kept ops).map TxOp.write) k with
        | some v => exact (hkept k v hk start stop hin).symm
        | none => exact (hunder hfills start stop k hle fun _ => hk).symm
      · rw [if_neg hin]
        exact (hunder hfills start stop k hle fun hin' => absurd hin' hin).symm
    · rw [inMemtable_of_not_fills hfills, h.scannedBelow_of_not_fills hfills]
      by_cases hin : InRange start stop k
      · rw [if_pos hin]
        cases hk : lastWrite ((e.kept ops).map TxOp.write) k with
        | some v => exact (hkept k v hk start stop hin).symm
        | none => rw [Option.none_or, Engine.scanned, if_pos hin]
      · rw [if_neg hin, Engine.scanned, if_neg hin]

theorem state_iff (h : AfterWrites e ops e') : (∀ k, e'.state.get k = e.state.get k) ↔
    ∀ k v, lastWrite (ops.map TxOp.write) k = some v → e.state.get k = v := by
  constructor
  · intro hsame k v hk
    rw [← hsame, h.state, hk]
    rfl
  · intro htraceless k
    rw [h.state]
    cases hk : lastWrite (ops.map TxOp.write) k with
    | none => rfl
    | some v => exact (htraceless k v hk).symm

/-- **No read can tell the writes exactly if they leave no trace.** -/
theorem sameReads_iff (h : AfterWrites e ops e') (he : e.Drained) :
    SameReads e e' ↔ e.Traceless ops := by
  constructor
  · intro hsame
    obtain ⟨hget, hgetUnder⟩ := (h.get_iff he).mp hsame.get
    have hscans := (h.scan_iff he).mp hsame.scan
    exact ⟨h.state_iff.mp hsame.state, hget,
      fun hreads => ((h.scanned_iff hreads).mp (hscans hreads).1).1,
      fun hreads => (hscans hreads).2, hgetUnder,
      fun hfills hreads => ((h.scanned_iff hreads).mp (hscans hreads).1).2 hfills⟩
  · intro htraceless
    refine ⟨(h.get_iff he).mpr ⟨htraceless.get, htraceless.getUnder⟩, (h.scan_iff he).mpr ?_,
      h.state_iff.mpr htraceless.state⟩
    intro hreads
    refine ⟨(h.scanned_iff hreads).mpr ⟨htraceless.scan hreads, fun hfills => ?_⟩,
      htraceless.reversed hreads⟩
    exact htraceless.scanUnder hfills hreads

end AfterWrites

/-! ### Commits -/

variable [Codec]

/-- **The failing commits that no read can tell**: those that fail before they write, and those
whose writes leave no trace, as many as get done. -/
theorem commit_failure_iff {t : ℕ} {dir : Dir} {log : Option Bytes}
    {outcomes : List (Option WriteFault)} {e₀ : Engine}
    (hopen : Engine.open t dir log outcomes = .ok e₀) {events : List Event} {h h' : UmpHandler}
    (hreached : h.engine = e₀.afterEvents events) {txId : ℕ} {err : CommitError}
    (hcommit : h.commitTx txId = (.error err, h')) (herr : err ≠ .write .panic) :
    SameReads h.engine h'.engine ↔ ∀ s txMgr, h.txMgr.remove txId = some (s, txMgr) →
      conflict h.engine.state s = none →
        h.engine.Traceless (h.engine.applied s.writeBuffer) := by
  have hdrained : h.engine.Drained := by
    rw [hreached]
    exact drained_afterEvents (opened_of_open hopen).drained events
  rw [UmpHandler.commitTx] at hcommit
  cases hremove : h.txMgr.remove txId with
  | none =>
    rw [hremove, Prod.mk.injEq] at hcommit
    rw [← hcommit.2]
    exact ⟨fun _ s txMgr hs => absurd hs (by simp), fun _ => .refl _⟩
  | some found =>
    obtain ⟨s, txMgr⟩ := found
    rw [hremove] at hcommit
    simp only at hcommit
    cases hconflict : conflict h.engine.state s with
    | some key =>
      rw [hconflict, Prod.mk.injEq] at hcommit
      rw [← hcommit.2]
      refine ⟨fun _ s' txMgr' hs hnone => ?_, fun _ => .refl _⟩
      rw [Option.some_inj, Prod.mk.injEq] at hs
      rw [← hs.1, hconflict] at hnone
      exact absurd hnone (by simp)
    | none =>
      rw [hconflict] at hcommit
      simp only at hcommit
      cases hbuffer : applyBuffer s.writeBuffer h.engine with
      | ok u e' =>
        rw [hbuffer, Prod.mk.injEq] at hcommit
        exact absurd hcommit.1 (by simp)
      | error failure e' =>
        rw [hbuffer, Prod.mk.injEq] at hcommit
        obtain ⟨hwrite, rfl⟩ := hcommit
        obtain rfl : .write failure = err := Except.error.inj hwrite
        cases failure with
        | panic => exact absurd rfl herr
        | error msg =>
          -- only here has anything been written
          rw [(applyBuffer_failed hbuffer).sameReads_iff hdrained]
          refine ⟨fun htraceless s' txMgr' hs _ => ?_, fun hall => hall s txMgr rfl hconflict⟩
          rw [Option.some_inj, Prod.mk.injEq] at hs
          rw [← hs.1]
          exact htraceless

omit [Codec]

/-- A transaction with two puts. -/
def twoPuts (e : Engine) : UmpHandler :=
  (((⟨e, TxManager.new⟩ : UmpHandler).beginTx 2).2.txPut 1 [97] [1]).txPut 1 [98] [2]

/-- The log takes the record of the first put only, and the commit keeps its value. -/
theorem exists_twoPuts : ∃ e, @Engine.open storedCodec 1000 ∅ none [none, some ⟨0, "disk full"⟩]
      = .ok e ∧ ∃ h', @UmpHandler.commitTx storedCodec (twoPuts e) 1
        = (.error (.write (.error "tx commit put failed: disk full")), h') ∧
      e.state.get (scopeKey 0 [97]) = none ∧
      h'.engine.state.get (scopeKey 0 [97]) = some [1] := by
  have hrun : ((@Engine.open storedCodec 1000 ∅ none [none, some ⟨0, "disk full"⟩]).toOption.map
      fun e => decide ((@UmpHandler.commitTx storedCodec (twoPuts e) 1).1
          = .error (.write (.error "tx commit put failed: disk full")) ∧
        e.state.get (scopeKey 0 [97]) = none ∧
        (@UmpHandler.commitTx storedCodec (twoPuts e) 1).2.engine.state.get (scopeKey 0 [97])
          = some [1])) = some true := by
    decide +kernel
  obtain ⟨e, hopen, he⟩ := Option.map_eq_some_iff.mp hrun
  obtain ⟨hcommit, hreads⟩ := of_decide_eq_true he
  exact ⟨e, eq_ok_of_toOption hopen, _, Prod.ext hcommit rfl, hreads⟩

theorem commit_failure_iff_two : ∃ e h',
    @Engine.open storedCodec 1000 ∅ none [none, some ⟨0, "disk full"⟩] = .ok e ∧
    @UmpHandler.commitTx storedCodec (twoPuts e) 1
      = (.error (.write (.error "tx commit put failed: disk full")), h') ∧
    (SameReads (twoPuts e).engine h'.engine ↔
      ∀ s txMgr, (twoPuts e).txMgr.remove 1 = some (s, txMgr) →
        conflict (twoPuts e).engine.state s = none →
          (twoPuts e).engine.Traceless
            (@applied storedCodec (twoPuts e).engine s.writeBuffer)) := by
  obtain ⟨e, hopen, h', hcommit, _⟩ := exists_twoPuts
  exact ⟨e, h', hopen, hcommit, @commit_failure_iff storedCodec _ _ _ _ e hopen [] (twoPuts e) h'
    rfl 1 _ hcommit (by simp)⟩

/-- The second put of a transaction cannot be logged, and the commit returns its error.  The
first put stays. -/
theorem commit_failure_keeps_first :
    ¬∀ (t : ℕ) (dir : Dir) (log : Option Bytes) (outcomes : List (Option WriteFault))
      (e₀ : Engine) (events : List Event) (h h' : UmpHandler) (txId : ℕ) (err : CommitError),
      @Engine.open storedCodec t dir log outcomes = .ok e₀ →
      h.engine = @afterEvents storedCodec e₀ events →
      @UmpHandler.commitTx storedCodec h txId = (.error err, h') → err ≠ .write .panic →
      SameReads h.engine h'.engine := by
  intro hall
  obtain ⟨e, hopen, h', hcommit, hbefore, hafter⟩ := exists_twoPuts
  have hsame := (hall _ _ _ _ e [] (twoPuts e) h' 1 _ hopen rfl hcommit (by simp)).state
    (scopeKey 0 [97])
  have hstate : (twoPuts e).engine.state = e.state := rfl
  rw [hafter, hstate, hbefore] at hsame
  exact absurd hsame (by simp)

end Engine

end Uldb
