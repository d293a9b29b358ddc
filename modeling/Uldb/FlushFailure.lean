/-
A flush whose page cannot be submitted (`engine.rs`, `storage/bg_compaction.rs`).

The worker ends when it panics, and then the channel is closed.  A flush swaps the memtable and
drains it into the page before it submits the page, and gives up at the error: the page is
gone, and the drained memtable does not become a frozen one.

* `exec_eq_beforeFlush` — a call as what it does before its flush, and the flush;
* `flush_failure_iff` — the reads after a flush that fails.
-/
import Uldb.Durability

namespace Uldb

open Fallible

/-- A call, or the end of the worker. -/
inductive Event where
  | call (c : Call)
  /-- The worker panics; it may leave the levels half-way through a compaction. -/
  | workerEnds (left : CompactionManager)

namespace Engine

/-! ### Reads past the worker's end -/

/-- What a read finds below the memtables: the cache, or else the levels.  The worker panics
with the lock of the levels in its hands; then the lock is poisoned, and a read that needs it
panics as well. -/
def foundBelow (poisoned : Bool) (e : Engine) (k : Bytes) : Option (Option Bytes) :=
  match e.cache.lookup k with
  | some value => some (some value)
  | none => if poisoned then none else some (e.compactor.compaction.get k)

/-- The answer of `get`; none where it panics. -/
def read (poisoned : Bool) (e : Engine) (k : Bytes) : Option (Option Bytes) :=
  match e.memtable.getEntry k with
  | some entry => some entry.value
  | none =>
    match e.frozen.reverse.findSome? fun m => m.getEntry k with
    | some entry => some entry.value
    | none => e.foundBelow poisoned k

/-- With the lock in order, that is the answer of `get`. -/
theorem read_false (e : Engine) (k : Bytes) : e.read false k = some (e.get k).1 := by
  rw [read, get_fst, below, foundBelow]
  cases e.memtable.getEntry k with
  | some entry => rfl
  | none =>
    cases e.frozen.reverse.findSome? fun m => m.getEntry k with
    | some entry => rfl
    | none => cases e.cache.lookup k <;> rfl

theorem Drained.read_eq {e : Engine} (he : e.Drained) (poisoned : Bool) (k : Bytes) :
    e.read poisoned k
      = ((e.memtable.getEntry k).map fun entry => some entry.value).getD
          (e.foundBelow poisoned k) := by
  have hnone : (e.frozen.reverse.findSome? fun m => m.getEntry k) = none := by
    rw [List.findSome?_eq_none_iff]
    intro m hm
    exact he m (List.mem_reverse.mp hm) k
  rw [read, hnone]
  cases e.memtable.getEntry k <;> rfl

/-! ### Runs in which the worker may end -/

section

variable [Codec]

/-- One event.  A worker that has ended receives nothing. -/
def onEvent (e : Engine) : Event → Engine
  | .call .work => if e.compactor.alive then e.work else e
  | .call c => finalState (exec c e)
  | .workerEnds left =>
    { e with compactor := { e.compactor with queue := [], compaction := left, alive := false } }

def afterEvents (e : Engine) (events : List Event) : Engine := events.foldl onEvent e

theorem drained_onEvent {e : Engine} (he : e.Drained) (event : Event) :
    (e.onEvent event).Drained := by
  have hexec : ∀ c, (finalState (exec c e)).Drained := fun c =>
    exec_keeps drained_coreInv c (fun _ _ _ => trivial) e he
  cases event with
  | workerEnds left => exact he
  | call c =>
    cases c with
    | work =>
      rw [onEvent]
      split
      · exact hexec .work
      · exact he
    | _ => exact hexec _

theorem drained_afterEvents {e : Engine} (he : e.Drained) (events : List Event) :
    (e.afterEvents events).Drained := by
  induction events generalizing e with
  | nil => exact he
  | cons event events ih => exact ih (drained_onEvent he event)

/-! ### Before the flush -/

/-- What a call does before its flush; tells whether it flushes. -/
def beforeFlush : Call → EngineM Bool
  | .put key value => do
    onWal (WalWriter.append ⟨key, value⟩)
    onWal WalWriter.flush
    let shouldFlush ← memtablePut key value
    countPut
    invalidate key
    indexPut key value
    statePut key value
    pure shouldFlush
  | .putProfiled key value => do
    onWal (WalWriter.append ⟨key, value⟩)
    onWal WalWriter.flush
    let shouldFlush ← memtablePut key value
    countPut
    indexPut key value
    statePut key value
    pure shouldFlush
  | .delete key => do
    onWal (WalWriter.append ⟨key, []⟩)
    onWal WalWriter.flush
    let shouldFlush ← memtableDelete key
    modify fun e => { e with totalDeletes := e.totalDeletes + 1 }
    invalidate key
    modify fun e => { e with indices := e.indices.onDelete key }
    modify fun e => { e with state := e.state.delete key }
    pure shouldFlush
  | .putBatch entries => do
    appendAll (batchRecords entries)
    clearCache
    applyEntries entries
  | .bulkIngest entries =>
    if entries = [] then pure false
    else do
      appendAll (batchRecords entries)
      clearCache
      let _ ← applyEntries entries
      let e ← EStateM.get
      pure e.memtable.shouldFlush
  | .flush => do
    let e ← EStateM.get
    pure (!e.memtable.isEmpty)
  | c => do
    exec c
    pure false

/-- **A call is what it does before its flush, and then the flush.** -/
theorem exec_eq_beforeFlush (c : Call) :
    exec c = beforeFlush c >>= fun full => ifThen (full = true) flushMemtable := by
  have hunflushed : ∀ x : EngineM Unit,
      x = (x >>= fun _ => pure false) >>= fun full => ifThen (full = true) flushMemtable := by
    intro x
    rw [bind_assoc]
    simp only [pure_bind, ifThen, Bool.false_eq_true, if_false, bind_pure_unit]
  cases c with
  | put key value => simp only [exec, put, beforeFlush, bind_assoc, pure_bind]
  | putProfiled key value => simp only [exec, putProfiled, beforeFlush, bind_assoc, pure_bind]
  | delete key => simp only [exec, delete, beforeFlush, bind_assoc, pure_bind]
  | putBatch entries => simp only [exec, putBatch, beforeFlush, bind_assoc]
  | bulkIngest entries =>
    simp only [exec, bulkIngest, beforeFlush]
    by_cases hnil : entries = []
    · rw [if_pos hnil, if_pos hnil]
      rfl
    · rw [if_neg hnil, if_neg hnil]
      simp only [bind_assoc, pure_bind, bind_pure_unit]
  | flush =>
    simp only [exec, flush, beforeFlush, bind_assoc, pure_bind]
    congr 1
    funext e
    cases e.memtable.isEmpty <;> rfl
  | _ => exact hunflushed _

/-! ### After the failure -/

omit [Codec] in
/-- The flush fails exactly if the worker has ended, and then the memtable is gone. -/
theorem flushMemtable_eq_error {e e' : Engine} {failure : Failure}
    (h : flushMemtable e = .error failure e') :
    e' = { e with memtable := Memtable.new e.flushThreshold } := by
  cases halive : e.compactor.alive with
  | true =>
    rw [flushMemtable_of_alive halive] at h
    exact absurd h (by simp)
  | false =>
    rw [flushMemtable_of_dead halive, EStateM.Result.error.injEq] at h
    exact h.2.symm

/-- **A flush that fails, of a call or on its own, keeps the reads** exactly if every entry of
the memtable has the value that the cache has for its key, or, with the lock in order and
nothing in the cache, the levels. -/
theorem flush_failure_iff (poisoned : Bool) {t : ℕ} {dir : Dir} {log : Option Bytes}
    {outcomes : List (Option WriteFault)} {e₀ e₁ e' : Engine}
    (hopen : Engine.open t dir log outcomes = .ok e₀) {events : List Event} {c : Call}
    {failure : Failure} (hbefore : beforeFlush c (e₀.afterEvents events) = .ok true e₁)
    (hfail : flushMemtable e₁ = .error failure e') :
    exec c (e₀.afterEvents events) = .error failure e' ∧
      ((∀ k v, e₁.read poisoned k = some v → e'.read poisoned k = some v) ↔
        ∀ k entry, e₁.memtable.getEntry k = some entry →
          e₁.foundBelow poisoned k = some entry.value) := by
  have hdrained := drained_afterEvents (opened_of_open hopen).drained events
  have hexec : exec c (e₀.afterEvents events) = .error failure e' := by
    rw [exec_eq_beforeFlush]
    exact bind_eq_error.mpr (.inr ⟨true, e₁, hbefore, hfail⟩)
  have he' : e'.Drained := by
    have hkeeps := exec_keeps drained_coreInv c (fun _ _ _ => trivial) _ hdrained
    rw [hexec] at hkeeps
    exact hkeeps
  obtain rfl := flushMemtable_eq_error hfail
  -- the frozen memtables are the same ones
  have he₁ : e₁.Drained := he'
  refine ⟨hexec, ?_⟩
  have hread : ∀ k, ({ e₁ with memtable := Memtable.new e₁.flushThreshold } : Engine).read poisoned k
      = e₁.foundBelow poisoned k := by
    intro k
    rw [he'.read_eq, Memtable.getEntry_new]
    rfl
  constructor
  · intro h k entry hentry
    rw [← hread]
    apply h
    rw [he₁.read_eq, hentry]
    rfl
  · intro h k v hv
    rw [hread]
    rw [he₁.read_eq] at hv
    cases hentry : e₁.memtable.getEntry k with
    | none =>
      rw [hentry] at hv
      exact hv
    | some entry =>
      rw [hentry] at hv
      rw [h k entry hentry]
      exact hv

end

/-- A put, and then the worker ends. -/
def putAndEnd : List Event := [.call (.put [107] [118]), .workerEnds CompactionManager.new]

/-- The put is in the memtable and nowhere else. -/
theorem exists_putAndEnd : ∃ e₀ e, @Engine.open storedCodec 1000 ∅ none [] = .ok e₀ ∧
    @afterEvents storedCodec e₀ putAndEnd = e ∧
    @beforeFlush storedCodec .flush e = .ok true e ∧ e.compactor.alive = false ∧
    e.memtable.getEntry [107] = some ⟨some [118], 1⟩ ∧ e.frozen.isEmpty = true ∧
    e.cache.lookup [107] = none ∧ e.compactor.compaction.get [107] = none := by
  obtain ⟨e₀, hopen, hrun⟩ := exists_of_onOpened (a := true)
    (f := fun e₀ => (fun e : Engine => decide (e.memtable.isEmpty = false ∧
      e.compactor.alive = false ∧ e.memtable.getEntry [107] = some ⟨some [118], 1⟩ ∧
      e.frozen.isEmpty = true ∧ e.cache.lookup [107] = none ∧
      e.compactor.compaction.get [107] = none)) (@afterEvents storedCodec e₀ putAndEnd))
    (by decide +kernel)
  obtain ⟨hmem, hrest⟩ : _ ∧ _ := of_decide_eq_true hrun
  refine ⟨e₀, _, hopen, rfl, ?_, hrest⟩
  show EStateM.Result.ok (!_) _ = _
  rw [hmem]
  rfl

theorem flush_failure_iff_put : ∃ e₀ e₁ e' failure,
    @Engine.open storedCodec 1000 ∅ none [] = .ok e₀ ∧
    @beforeFlush storedCodec .flush (@afterEvents storedCodec e₀ putAndEnd) = .ok true e₁ ∧
    flushMemtable e₁ = .error failure e' ∧
    @exec storedCodec .flush (@afterEvents storedCodec e₀ putAndEnd) = .error failure e' ∧
      ((∀ k v, e₁.read false k = some v → e'.read false k = some v) ↔
        ∀ k entry, e₁.memtable.getEntry k = some entry →
          e₁.foundBelow false k = some entry.value) := by
  obtain ⟨e₀, e, hopen, rfl, hbefore, halive, _⟩ := exists_putAndEnd
  have hfail := flushMemtable_of_dead halive
  exact ⟨e₀, _, _, _, hopen, hbefore, hfail,
    @flush_failure_iff storedCodec false 1000 ∅ none [] e₀ _ _ hopen putAndEnd .flush _ hbefore
      hfail⟩

/-- The flush fails, and a read of the put's key misses it, or panics. -/
theorem flush_failure_loses_put :
    ¬∃ poisoned : Bool, ∀ (t : ℕ) (dir : Dir) (log : Option Bytes)
      (outcomes : List (Option WriteFault)) (e₀ e₁ e' : Engine) (events : List Event) (c : Call)
      (failure : Failure),
      @Engine.open storedCodec t dir log outcomes = .ok e₀ →
      @beforeFlush storedCodec c (@afterEvents storedCodec e₀ events) = .ok true e₁ →
      flushMemtable e₁ = .error failure e' →
      ∀ k v, e₁.read poisoned k = some v → e'.read poisoned k = some v := by
  rintro ⟨poisoned, h⟩
  obtain ⟨e₀, e, hopen, rfl, hbefore, halive, hentry, hfrozen, hcache, hlevels⟩ := exists_putAndEnd
  have hnil := List.isEmpty_iff.mp hfrozen
  have hlost := h 1000 ∅ none [] e₀ _ _ putAndEnd .flush _ hopen hbefore
    (flushMemtable_of_dead halive) [107] (some [118]) (by rw [read, hentry])
  simp only [read, Memtable.getEntry_new, hnil, foundBelow, hcache, hlevels, List.reverse_nil,
    List.findSome?_nil] at hlost
  cases poisoned with
  | true => exact absurd hlost (by simp)
  | false => exact absurd hlost (by simp)

end Engine

end Uldb
