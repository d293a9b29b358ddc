/-
The writes of a transaction, one by one.

A buffered put or delete becomes one record of the log and one update of the trie, and the
engine calls of the two differ in nothing else (`exec_op`): the record is appended and the log
flushed, then the memory part changes (`stored`), and a full memtable is flushed (`flushIfFull`).
Each of these can fail, and what the earlier ones have changed stays.

* `exec_op` — a write, with all its outcomes;
* `state_run` — the trie after writes that succeed.
-/
import Uldb.Branches
import Uldb.Serializable

namespace Uldb

open Fallible

namespace TxOp

/-- The log record of the operation. -/
def record : TxOp → WalRecord
  | put key value => ⟨key, value⟩
  | delete key => ⟨key, []⟩

/-- The update of the trie. -/
def onTrie : TxOp → HamtOp
  | put key value => .put key value
  | delete key => .delete key

/-- The text in front of its error in a commit. -/
def failed : TxOp → String
  | put _ _ => "tx commit put failed: "
  | delete _ => "tx commit delete failed: "

/-- The entry that the operation stores. -/
def write (op : TxOp) : Bytes × Option Bytes := (op.key, op.value)

@[simp] theorem write_onTrie (op : TxOp) : op.onTrie.write = op.write := by cases op <;> rfl

@[simp] theorem entries_call (op : TxOp) : op.call.entries = [op.write] := by cases op <;> rfl

end TxOp

/-- Append a record and flush the log. -/
def WalWriter.log [Codec] (r : WalRecord) : EStateM Failure WalWriter Unit := do
  WalWriter.append r
  WalWriter.flush

namespace Engine

/-- The memory part of a write, before the flush of the memtable. -/
def stored (e : Engine) (op : TxOp) (w : WalWriter) (state : Hamt) : Engine :=
  { e with
    wal := w
    memtable := e.memtable.write op.key op.value
    indices := match op with
      | .put key value => e.indices.onPut key value
      | .delete key => e.indices.onDelete key
    state := state
    totalPuts := match op with
      | .put _ _ => e.totalPuts + 1
      | .delete _ => e.totalPuts
    totalDeletes := match op with
      | .put _ _ => e.totalDeletes
      | .delete _ => e.totalDeletes + 1
    cache := e.cache.dropped op.key }

/-- Flush the memtable if it has reached the threshold. -/
def flushIfFull : EngineM Unit := fun e =>
  if e.memtable.shouldFlush then flushMemtable e else .ok () e

theorem onWal_bind {α : Type} (x : EStateM Failure WalWriter Unit) (f : Unit → EngineM α)
    (e : Engine) : (onWal x >>= f) e = match x e.wal with
      | .ok u w => f u { e with wal := w }
      | .error failure w => .error failure { e with wal := w } := by
  show EStateM.bind _ _ _ = _
  rw [EStateM.bind, onWal, onPart]
  cases x e.wal <;> rfl

theorem statePut_bind {α : Type} (key value : Bytes) (f : Unit → EngineM α) (e : Engine) :
    (statePut key value >>= f) e = match e.state.put key value with
      | some state => f () { e with state := state }
      | none => .error .panic e := by
  show EStateM.bind _ _ _ = _
  rw [EStateM.bind, statePut]
  cases e.state.put key value <;> rfl

variable [Codec]

/-- The log part of a write, as one program on the log. -/
theorem logged_bind {α : Type} (r : WalRecord) (rest : EngineM α) (e : Engine) :
    (do onWal (WalWriter.append r); onWal WalWriter.flush; rest : EngineM α) e
      = match WalWriter.log r e.wal with
        | .ok _ w => rest { e with wal := w }
        | .error failure w => .error failure { e with wal := w } := by
  have hlog : WalWriter.log r e.wal
      = EStateM.bind (WalWriter.append r) (fun _ => WalWriter.flush) e.wal := rfl
  rw [onWal_bind, hlog, EStateM.bind]
  cases WalWriter.append r e.wal with
  | error failure w => rfl
  | ok u w =>
    simp only [onWal_bind]

/-- **One write of a transaction**: the log, the memory part, and the flush of the memtable if
it is full.  A trie whose recursion does not end panics before the flush. -/
theorem exec_op (op : TxOp) (e : Engine) :
    exec op.call e = match WalWriter.log op.record e.wal with
      | .error failure w => .error failure { e with wal := w }
      | .ok _ w => match op.onTrie.apply e.state with
        | none => .error .panic (e.stored op w e.state)
        | some state => flushIfFull (e.stored op w state) := by
  have hflush : ∀ (e₁ : Engine) (full : Bool), e₁.memtable.shouldFlush = full →
      ifThen (full = true) flushMemtable e₁ = flushIfFull e₁ := by
    intro e₁ full hfull
    rw [flushIfFull, ifThen, hfull]
    cases full <;> rfl
  cases op with
  | put key value =>
    show put key value e = _
    rw [put, logged_bind]
    simp only [TxOp.record, TxOp.onTrie, HamtOp.apply]
    cases WalWriter.log ⟨key, value⟩ e.wal with
    | error failure w => rfl
    | ok u w =>
      refine (statePut_bind key value _ _).trans ?_
      simp only
      cases e.state.put key value with
      | none => rfl
      | some state => exact hflush _ _ rfl
  | delete key =>
    show delete key e = _
    rw [delete, logged_bind]
    simp only [TxOp.record, TxOp.onTrie, HamtOp.apply]
    cases WalWriter.log ⟨key, []⟩ e.wal with
    | error failure w => rfl
    | ok u w => exact hflush _ _ rfl

variable {op : TxOp} {e e' : Engine} {u : Unit}

/-- A write that succeeds. -/
theorem exec_op_eq_ok : exec op.call e = .ok u e' ↔ ∃ w state,
    WalWriter.log op.record e.wal = .ok () w ∧ op.onTrie.apply e.state = some state ∧
      flushIfFull (e.stored op w state) = .ok u e' := by
  rw [exec_op]
  constructor
  · intro h
    cases hlog : WalWriter.log op.record e.wal with
    | error failure w =>
      rw [hlog] at h
      exact absurd h (by simp)
    | ok u' w =>
      rw [hlog] at h
      cases hput : op.onTrie.apply e.state with
      | none =>
        rw [hput] at h
        exact absurd h (by simp)
      | some state =>
        rw [hput] at h
        exact ⟨w, state, rfl, rfl, h⟩
  · rintro ⟨w, state, hlog, hput, hflush⟩
    rw [hlog, hput]
    exact hflush

omit [Codec] in
theorem flushIfFull_eq_ok (h : flushIfFull e = .ok u e') : Flushes e e' := by
  rw [flushIfFull] at h
  split at h
  · exact .inr (flushMemtable_eq_ok h)
  · rw [EStateM.Result.ok.injEq] at h
    exact .inl h.2.symm

omit [Codec] in
theorem Flushes.state (h : Flushes e e') : e'.state = e.state := by
  rcases h with rfl | ⟨_, rfl⟩ <;> rfl

/-- **The trie after writes that succeed**: the same updates, one after the other. -/
theorem state_run {ops : List TxOp} (h : e.run (ops.map TxOp.call) = some e') :
    e.state.run (ops.map TxOp.onTrie) = some e'.state := by
  induction ops generalizing e with
  | nil =>
    obtain rfl : e = e' := Option.some_inj.mp h
    rfl
  | cons op ops ih =>
    rw [List.map_cons, run_cons, Option.bind_eq_some_iff] at h
    obtain ⟨e₁, hexec, hrun⟩ := h
    obtain ⟨_, hexec⟩ := success_eq_some hexec
    obtain ⟨w, state, _, hput, hflush⟩ := exec_op_eq_ok.mp hexec
    have hstate : e₁.state = state := (flushIfFull_eq_ok hflush).state
    exact foldlM_cons_eq_some.mpr ⟨state, hput, hstate ▸ ih hrun⟩

/-- The value of a key after writes that succeed: the last one that is written, if any. -/
theorem get_run {ops : List TxOp} (h : e.run (ops.map TxOp.call) = some e') (k : Bytes) :
    e'.state.get k = (lastWrite (ops.map TxOp.write) k).getD (e.state.get k) := by
  rw [Hamt.get_run (state_run h), List.map_map]
  congr 3
  funext op
  exact op.write_onTrie

end Engine

end Uldb
