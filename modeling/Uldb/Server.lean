/-
Transactions of the server (`tx/session.rs`, `server.rs`, `namespace.rs`).

A session reads from the trie as it was at its begin and buffers its writes.
`commit_tx` takes its locks one after the other: it removes the session from the
transaction manager, validates the read set of a Serializable session under the
engine's read lock, and applies the write buffer under the write lock.  The three
critical sections are the three definitions `remove`, `conflict` and `applyBuffer`.
-/
import Uldb.EngineCalls

namespace Uldb

open Fallible

/-- Prefix a key with its namespace. -/
def scopeKey (namespaceId : ℕ) (key : Bytes) : Bytes := BigEndian.be 8 namespaceId ++ key

inductive TxIsolation where
  | readCommitted
  | snapshot
  | serializable
  deriving DecidableEq, Repr

def TxIsolation.fromByte (b : UInt8) : TxIsolation :=
  if b = 1 then readCommitted
  else if b = 2 then snapshot
  else if b = 3 then serializable
  else snapshot

/-- One buffered write of a transaction. -/
inductive TxOp where
  | put (key value : Bytes)
  | delete (key : Bytes)
  deriving DecidableEq, Repr

namespace TxOp

def key : TxOp → Bytes
  | put key _ => key
  | delete key => key

/-- What the operation leaves at its key. -/
def value : TxOp → Option Bytes
  | put _ value => some value
  | delete _ => none

/-- The engine call that applies the operation. -/
def call : TxOp → Call
  | put key value => .put key value
  | delete key => .delete key

end TxOp

structure TxSession where
  txId : ℕ
  isolation : TxIsolation
  /-- The live trie at begin time. -/
  snapshot : Hamt
  writeBuffer : List TxOp
  readSet : List Bytes
  beginTs : ℕ

namespace TxSession

/-- Read a key: the latest buffered write, or else the snapshot.  A Serializable
session records the keys it reads from the snapshot. -/
def get (s : TxSession) (key : Bytes) : Option Bytes × TxSession :=
  match s.writeBuffer.reverse.find? fun op => op.key = key with
  | some op => (op.value, s)
  | none =>
    (s.snapshot.get key,
      if s.isolation = .serializable then { s with readSet := s.readSet ++ [key] } else s)

def put (s : TxSession) (key value : Bytes) : TxSession :=
  { s with writeBuffer := s.writeBuffer ++ [.put key value] }

def delete (s : TxSession) (key : Bytes) : TxSession :=
  { s with writeBuffer := s.writeBuffer ++ [.delete key] }

end TxSession

/-- All active transaction sessions. -/
structure TxManager where
  sessions : Std.TreeMap ℕ TxSession
  nextId : ℕ
  nextTs : ℕ

namespace TxManager

def new : TxManager := ⟨∅, 1, 1⟩

/-- Begin a transaction; returns its id. -/
def begin (m : TxManager) (isolation : TxIsolation) (snapshot : Hamt) : ℕ × TxManager :=
  (m.nextId,
    { sessions := m.sessions.insert m.nextId ⟨m.nextId, isolation, snapshot, [], [], m.nextTs⟩
      nextId := m.nextId + 1
      nextTs := m.nextTs + 1 })

/-- Remove and return a session. -/
def remove (m : TxManager) (txId : ℕ) : Option (TxSession × TxManager) :=
  (m.sessions[txId]?).map fun s => (s, { m with sessions := m.sessions.erase txId })

/-- Change a session, if it is there. -/
def update (m : TxManager) (txId : ℕ) (f : TxSession → TxSession) : TxManager :=
  match m.sessions[txId]? with
  | some s => { m with sessions := m.sessions.insert txId (f s) }
  | none => m

end TxManager

/-- The first key of the read set whose live value is not the one of the snapshot. -/
def conflict (state : Hamt) (s : TxSession) : Option Bytes :=
  if s.isolation = .serializable then
    s.readSet.find? fun key => state.get key ≠ s.snapshot.get key
  else none

/-- Apply one buffered write. -/
def applyOp [Codec] : TxOp → EngineM Unit
  | .put key value => mapError (Failure.prepend "tx commit put failed: ") (Engine.put key value)
  | .delete key => mapError (Failure.prepend "tx commit delete failed: ") (Engine.delete key)

/-- Apply a write buffer, operation by operation, under one write lock. -/
def applyBuffer [Codec] (ops : List TxOp) : EngineM Unit := forM ops applyOp

structure UmpHandler where
  engine : Engine
  txMgr : TxManager

/-- How `commit_tx` fails: `transaction not found`, `serialization conflict on
key`, or the text of a failed write. -/
inductive CommitError where
  | notFound (txId : ℕ)
  | conflict (key : Bytes)
  | write (failure : Failure)
  deriving DecidableEq

namespace UmpHandler

def beginTx (h : UmpHandler) (isolation : UInt8) : ℕ × UmpHandler :=
  let (txId, txMgr) := h.txMgr.begin (TxIsolation.fromByte isolation) h.engine.state.snapshot
  (txId, { h with txMgr := txMgr })

/-- A commit without other clients: the three critical sections in a row. -/
def commitTx [Codec] (h : UmpHandler) (txId : ℕ) : Except CommitError ℕ × UmpHandler :=
  match h.txMgr.remove txId with
  | none => (.error (.notFound txId), h)
  | some (s, txMgr) =>
    match conflict h.engine.state s with
    | some key => (.error (.conflict key), { h with txMgr := txMgr })
    | none =>
      match applyBuffer s.writeBuffer h.engine with
      | .ok _ engine => (.ok s.writeBuffer.length, ⟨engine, txMgr⟩)
      | .error failure engine => (.error (.write failure), ⟨engine, txMgr⟩)

def rollbackTx (h : UmpHandler) (txId : ℕ) : UmpHandler :=
  match h.txMgr.remove txId with
  | none => h
  | some (_, txMgr) => { h with txMgr := txMgr }

/-- Read a key in a transaction, or from the live engine if there is none. -/
def txGet (h : UmpHandler) (txId : ℕ) (key : Bytes) : Option Bytes × UmpHandler :=
  match h.txMgr.sessions[txId]? with
  | some session =>
    ((session.get (scopeKey 0 key)).1,
      { h with txMgr := h.txMgr.update txId fun s => (s.get (scopeKey 0 key)).2 })
  | none =>
    ((h.engine.get (scopeKey 0 key)).1, { h with engine := (h.engine.get (scopeKey 0 key)).2 })

def txPut (h : UmpHandler) (txId : ℕ) (key value : Bytes) : UmpHandler :=
  { h with txMgr := h.txMgr.update txId fun s => s.put (scopeKey 0 key) value }

def txDelete (h : UmpHandler) (txId : ℕ) (key : Bytes) : UmpHandler :=
  { h with txMgr := h.txMgr.update txId fun s => s.delete (scopeKey 0 key) }

end UmpHandler

/-! ### Successful writes -/

theorem applyOp_eq_ok [Codec] {op : TxOp} {e e' : Engine} {u : Unit} :
    applyOp op e = .ok u e' ↔ Engine.exec op.call e = .ok u e' := by
  cases op with
  | put key value => exact mapError_eq_ok
  | delete key => exact mapError_eq_ok

/-- A buffer that is applied without an error is a run of its calls. -/
theorem run_of_applyBuffer [Codec] {ops : List TxOp} {e e' : Engine} {u : Unit}
    (h : applyBuffer ops e = .ok u e') : e.run (ops.map TxOp.call) = some e' := by
  rw [applyBuffer] at h
  induction ops generalizing e with
  | nil =>
    rw [forM_nil_eq_ok] at h
    rw [h]
    rfl
  | cons op ops ih =>
    rw [forM_cons_eq_ok] at h
    obtain ⟨e₁, hop, hops⟩ := h
    rw [applyOp_eq_ok] at hop
    rw [List.map_cons, Engine.run_cons, hop]
    exact ih hops

theorem conflict_eq_none {state : Hamt} {s : TxSession} (hs : s.isolation = .serializable) :
    conflict state s = none ↔ ∀ key ∈ s.readSet, state.get key = s.snapshot.get key := by
  rw [conflict, if_pos hs, List.find?_eq_none]
  simp

end Uldb
