/-
The server as a store with transactions.

A transaction reads the trie as it was at its begin, and its own writes; a commit writes what the
transaction has buffered, or, if it is Serializable and the trie has changed where it has read,
nothing.  As a restore replaces the trie, transactions see it, and reads outside of them do not.
`TxMap.Serves` tells this, and what happens when the log meets its faults.

* `handleTx` — the handlers of transactions, records, snapshots and branches;
* `Represents.handleTx` — a handler answers as the map that the server holds;
* `exists_serveAllTx` — the requests that are all answered;
* `transactions_like_map` — a server on an empty directory answers as a map, until the fourth
  flush.
-/
import Uldb.Lifecycle
import Uldb.VersionServer

namespace Uldb

open BigEndian Fallible UmpHandler

/-- A request with transactions. -/
inductive TxRequest where
  | record (request : Request)
  | version (request : VersionRequest)
  | begin (isolation : UInt8)
  | get (txId : ℕ) (key : Str)
  | put (txId : ℕ) (key : Str) (value : Bytes)
  | delete (txId : ℕ) (key : Str)
  | commit (txId : ℕ)
  | rollback (txId : ℕ)
  | status (txId : ℕ)

/-- What a client gets: a response, the value that a transaction reads, or whether there is a
transaction that writes. -/
inductive TxReply where
  | response (r : Response)
  | value (v : Option Bytes)
  | found (b : Bool)

/-- The transaction and the operation of a write. -/
def TxRequest.op : TxRequest → Option (ℕ × TxOp)
  | put txId key value => some (txId, .put (scopeKey 0 key.1) value)
  | delete txId key => some (txId, .delete (scopeKey 0 key.1))
  | _ => none

/-! ### Handlers -/

def u64Field (v : ℕ) : UInt8 × Bytes := (tagU64, be 8 v)

/-- The text of the error. -/
def CommitError.text : CommitError → Bytes
  | notFound txId => ("transaction not found: " ++ toString txId).toUTF8.toList
  | conflict key => "serialization conflict on key=".toUTF8.toList ++ fromUtf8Lossy key
  | write (.error msg) => msg.toUTF8.toList
  | write .panic => []

namespace UmpHandler

def txBeginResponse (txId : ℕ) : Response := .single .resultEnd (enc [u64Field txId])

def txStatusResponse (txId : ℕ) (status : String) : Response :=
  .single .resultEnd (enc [u64Field txId, stringField status.toUTF8.toList])

def txMissingResponse (txId : ℕ) : Response :=
  errorText 0x60 ("transaction not found: " ++ toString txId).toUTF8.toList

variable [Codec]

/-- `handle_tx_commit`; none where it panics. -/
def handleTxCommit (h : UmpHandler) (txId : ℕ) : Option (Response × UmpHandler) :=
  match h.commitTx txId with
  | (.ok count, h') => some (resultEndResponse count 0, h')
  | (.error (.write .panic), _) => none
  | (.error e, h') => some (errorText 0x61 e.text, h')

/-- A rollback tells whether there was a transaction. -/
def handleTxRollback (h : UmpHandler) (txId : ℕ) : Response × UmpHandler :=
  (if h.txMgr.active txId then resultEndResponse 0 0 else txMissingResponse txId, h.rollbackTx txId)

/-- The reply to a request; none where a handler panics. -/
def handleTx (h : UmpHandler) : TxRequest → Option (TxReply × UmpHandler)
  | .record request =>
    match UmpHandler.handle request h.engine with
    | .ok response e => some (.response response, { h with engine := e })
    | .error _ _ => none
  | .version request =>
    match UmpHandler.handleVersion request h.engine with
    | .ok response e => some (.response response, { h with engine := e })
    | .error _ _ => none
  | .begin isolation =>
    some (.response (txBeginResponse (h.beginTx isolation).1), (h.beginTx isolation).2)
  | .get txId key => some (.value (h.txGet txId key.1).1, (h.txGet txId key.1).2)
  | .put txId key value => some (.found (h.txMgr.active txId), h.txPut txId key.1 value)
  | .delete txId key => some (.found (h.txMgr.active txId), h.txDelete txId key.1)
  | .commit txId => (h.handleTxCommit txId).map fun r => (.response r.1, r.2)
  | .rollback txId => some (.response (h.handleTxRollback txId).1, (h.handleTxRollback txId).2)
  | .status txId => some (.response (txStatusResponse txId (h.txStatus txId)), h)

/-- A request, after which the worker processes what was submitted. -/
def serveOneTx (add : CompactionManager → Page → CompactionManager) (h : UmpHandler)
    (request : TxRequest) : Option (TxReply × UmpHandler) :=
  (h.handleTx request).map fun r => (r.1, { r.2 with engine := r.2.engine.settle add })

theorem serveOneTx_eq_some {add : CompactionManager → Page → CompactionManager}
    {h h' : UmpHandler} {request : TxRequest} {reply : TxReply} :
    serveOneTx add h request = some (reply, h') ↔ ∃ h₁, h.handleTx request = some (reply, h₁) ∧
      h' = { h₁ with engine := h₁.engine.settle add } := by
  rw [serveOneTx, Option.map_eq_some_iff]
  constructor
  · rintro ⟨⟨reply₁, h₁⟩, hrun, heq⟩
    obtain ⟨rfl, rfl⟩ := Prod.mk.inj heq
    exact ⟨h₁, hrun, rfl⟩
  · rintro ⟨h₁, hrun, rfl⟩
    exact ⟨(reply, h₁), hrun, rfl⟩

end UmpHandler

/-! ### The map with transactions -/

/-- A transaction of the map. -/
structure OpenTx where
  isolation : TxIsolation
  /-- The trie at its begin. -/
  snapshot : Kv
  writes : List TxOp
  reads : List Bytes

namespace OpenTx

/-- Its own last write of the key, if there is one. -/
def ownWrite (t : OpenTx) (key : Bytes) : Option (Option Bytes) :=
  lastWrite (t.writes.map TxOp.write) key

/-- What it reads: its own last write, or else the snapshot. -/
def read (t : OpenTx) (key : Bytes) : Option Bytes := (t.ownWrite key).getD t.snapshot[key]?

/-- After a read: a Serializable transaction remembers what it has read of the snapshot. -/
def noted (t : OpenTx) (key : Bytes) : OpenTx :=
  if t.ownWrite key = none ∧ t.isolation = .serializable then { t with reads := t.reads ++ [key] }
  else t

/-- The transaction is Serializable, and the trie has changed where it has read. -/
def Stale (t : OpenTx) (trie : Kv) (key : Bytes) : Prop :=
  t.isolation = .serializable ∧ key ∈ t.reads ∧ trie[key]? ≠ t.snapshot[key]?

end OpenTx

structure TxMap where
  store : Store
  sessions : ℕ → Option OpenTx
  nextId : ℕ

namespace TxMap

def empty (faults : List WriteFault) : TxMap := ⟨.empty faults, fun _ => none, 1⟩

def set (m : TxMap) (txId : ℕ) (t : Option OpenTx) : TxMap :=
  { m with sessions := Function.update m.sessions txId t }

/-- How the map answers a request, and the map afterwards. -/
inductive Serves (m : TxMap) : TxRequest → TxReply → TxMap → Prop
  | record {request : Request} {response : Response} {ws : List (Bytes × Option Bytes)}
    {faults : List WriteFault}
    (h : Uldb.Serves m.store.live m.store.faults request response ws faults) :
    Serves m (.record request) (.response response)
      { m with store := { m.store.writeAll ws with faults := faults } }
  | version {request : VersionRequest} {response : Response} {store : Store}
    (h : m.store.Serves request response store) :
    Serves m (.version request) (.response response) { m with store := store }
  | begin (isolation : UInt8) :
    Serves m (.begin isolation) (.response (txBeginResponse m.nextId))
      { m.set m.nextId (some ⟨.fromByte isolation, m.store.trie, [], []⟩) with
        nextId := m.nextId + 1 }
  | get {txId : ℕ} {t : OpenTx} (ht : m.sessions txId = some t) (key : Str) :
    Serves m (.get txId key) (.value (t.read (scopeKey 0 key.1)))
      (m.set txId (some (t.noted (scopeKey 0 key.1))))
  | getLive {txId : ℕ} (ht : m.sessions txId = none) (key : Str) :
    Serves m (.get txId key) (.value m.store.live[scopeKey 0 key.1]?) m
  | write {request : TxRequest} {txId : ℕ} {op : TxOp} (hop : request.op = some (txId, op))
    {t : OpenTx} (ht : m.sessions txId = some t) :
    Serves m request (.found true) (m.set txId (some { t with writes := t.writes ++ [op] }))
  | writeMissing {request : TxRequest} {txId : ℕ} {op : TxOp}
    (hop : request.op = some (txId, op)) (ht : m.sessions txId = none) :
    Serves m request (.found false) m
  | rollback {txId : ℕ} {t : OpenTx} (ht : m.sessions txId = some t) :
    Serves m (.rollback txId) (.response (resultEndResponse 0 0)) (m.set txId none)
  | rollbackMissing {txId : ℕ} (ht : m.sessions txId = none) :
    Serves m (.rollback txId) (.response (txMissingResponse txId)) m
  | status (txId : ℕ) :
    Serves m (.status txId) (.response (txStatusResponse txId
      (if (m.sessions txId).isSome then "active" else "unknown"))) m
  | commitMissing {txId : ℕ} (ht : m.sessions txId = none) :
    Serves m (.commit txId) (.response (errorText 0x61 (CommitError.notFound txId).text)) m
  | conflict {txId : ℕ} {t : OpenTx} (ht : m.sessions txId = some t) {key : Bytes}
    (hstale : t.Stale m.store.trie key) :
    Serves m (.commit txId) (.response (errorText 0x61 (CommitError.conflict key).text))
      (m.set txId none)
  | commit {txId : ℕ} {t : OpenTx} (ht : m.sessions txId = some t)
    (hvalid : ∀ key, ¬t.Stale m.store.trie key) :
    Serves m (.commit txId) (.response (resultEndResponse t.writes.length 0))
      { m.set txId none with store := m.store.writeAll (t.writes.map TxOp.write) }
  | commitFailed {txId : ℕ} {t : OpenTx} (ht : m.sessions txId = some t)
    (hvalid : ∀ key, ¬t.Stale m.store.trie key) {done later : List TxOp} {op : TxOp}
    (hdone : t.writes = done ++ op :: later) {fault : WriteFault} {rest : List WriteFault}
    (hfault : m.store.faults = fault :: rest) :
    Serves m (.commit txId)
      (.response (errorText 0x61 (op.failed ++ fault.msg).toUTF8.toList))
      { m.set txId none with
        store := { m.store.writeAll (done.map TxOp.write) with faults := rest } }

/-- Requests one after the other. -/
abbrev ServesAll : TxMap → List TxRequest → List TxReply → TxMap → Prop :=
  Refinement.Allows Serves

end TxMap

/-! ### One transaction -/

/-- The session is that of the transaction. -/
structure OpensAs (session : TxSession) (t : OpenTx) : Prop where
  isolation : session.isolation = t.isolation
  snapshot : session.snapshot.Is t.snapshot
  writes : session.writeBuffer = t.writes
  reads : session.readSet = t.reads

section

variable {session : TxSession} {t : OpenTx}

/-- A read, and the session afterwards. -/
theorem OpensAs.get (h : OpensAs session t) (key : Bytes) :
    (session.get key).1 = t.read key ∧ OpensAs (session.get key).2 (t.noted key) := by
  have hown : (session.writeBuffer.reverse.find? fun op => op.key = key).map TxOp.value
      = t.ownWrite key := by
    rw [OpenTx.ownWrite, lastWrite, ← List.map_reverse, List.find?_map, ← h.writes,
      Option.map_map]
    rfl
  refine ⟨?_, ?_⟩
  · rw [TxSession.get_fst, h.writes, h.snapshot key]
    rfl
  · rw [TxSession.get, OpenTx.noted, ← hown]
    cases hfind : session.writeBuffer.reverse.find? fun op => op.key = key with
    | some op =>
      show OpensAs session (if some op.value = none ∧ t.isolation = .serializable then
        { t with reads := t.reads ++ [key] } else t)
      rw [if_neg (by simp)]
      exact h
    | none =>
      show OpensAs (if session.isolation = .serializable then
          { session with readSet := session.readSet ++ [key] } else session)
        (if none = none ∧ t.isolation = .serializable then
          { t with reads := t.reads ++ [key] } else t)
      by_cases hser : session.isolation = .serializable
      · rw [if_pos hser, if_pos ⟨rfl, h.isolation ▸ hser⟩]
        exact ⟨h.isolation, h.snapshot, h.writes, congrArg (· ++ [key]) h.reads⟩
      · rw [if_neg hser, if_neg fun hboth => hser (h.isolation.trans hboth.2)]
        exact h

/-- A validation finds a key that has changed, or there is none. -/
theorem OpensAs.conflict (h : OpensAs session t) {state : Hamt} {trie : Kv}
    (htrie : state.Is trie) :
    (∀ key, conflict state session = some key → t.Stale trie key) ∧
      (conflict state session = none → ∀ key, ¬t.Stale trie key) := by
  have hne : ∀ key, (state.get key ≠ session.snapshot.get key ↔ trie[key]? ≠ t.snapshot[key]?) := by
    intro key
    rw [htrie key, h.snapshot key]
  rw [Uldb.conflict, h.isolation, h.reads]
  by_cases hser : t.isolation = .serializable
  · rw [if_pos hser]
    refine ⟨fun key hkey => ?_, fun hnone key hstale => ?_⟩
    · have hmem := List.mem_of_find?_eq_some hkey
      have hpred := List.find?_some hkey
      rw [decide_eq_true_eq, hne] at hpred
      exact ⟨hser, hmem, hpred⟩
    · rw [List.find?_eq_none] at hnone
      refine hnone key hstale.2.1 ?_
      rw [decide_eq_true_eq, hne]
      exact hstale.2.2
  · rw [if_neg hser]
    exact ⟨fun key hkey => absurd hkey (by simp), fun _ key hstale => hser hstale.1⟩

end

/-! ### The server holds the map -/

/-- The server holds the map with its transactions. -/
structure Represents [Codec] (add : CompactionManager → Page → CompactionManager) (m : TxMap)
    (h : UmpHandler) : Prop where
  store : Holds add m.store h.engine
  nextId : h.txMgr.nextId = m.nextId
  sessions : ∀ txId, Option.Rel OpensAs h.txMgr.sessions[txId]? (m.sessions txId)

namespace Represents

section

variable [Codec] {add : CompactionManager → Page → CompactionManager} {m : TxMap}
  {h h' : UmpHandler} {txId : ℕ}

/-- There is a session, or there is no transaction. -/
theorem cases (hm : Represents add m h) (txId : ℕ) :
    (h.txMgr.sessions[txId]? = none ∧ m.sessions txId = none) ∨
      ∃ session t, h.txMgr.sessions[txId]? = some session ∧ m.sessions txId = some t ∧
        OpensAs session t := by
  have hrel := hm.sessions txId
  generalize h.txMgr.sessions[txId]? = o at hrel
  generalize m.sessions txId = o' at hrel
  cases hrel with
  | none => exact .inl ⟨rfl, rfl⟩
  | some hopens => exact .inr ⟨_, _, rfl, rfl, hopens⟩

theorem active_eq (hm : Represents add m h) (txId : ℕ) :
    h.txMgr.active txId = (m.sessions txId).isSome := by
  rw [TxManager.active]
  rcases hm.cases txId with ⟨hnone, hnone'⟩ | ⟨_, _, hsome, hsome', _⟩
  · rw [hnone, hnone']
    rfl
  · rw [hsome, hsome']
    rfl

/-- A change of a session. -/
theorem update (hm : Represents add m h) {f : TxSession → TxSession} {session : TxSession}
    {t' : OpenTx}
    (hsession : h.txMgr.sessions[txId]? = some session) (hf : OpensAs (f session) t') :
    Represents add (m.set txId (some t')) { h with txMgr := h.txMgr.update txId f } := by
  refine ⟨hm.store, ?_, fun txId' => ?_⟩
  · show (h.txMgr.update txId f).nextId = m.nextId
    rw [TxManager.update, hsession]
    exact hm.nextId
  · show Option.Rel OpensAs (h.txMgr.update txId f).sessions[txId']?
      (Function.update m.sessions txId (some t') txId')
    rw [TxManager.sessions_update]
    by_cases hid : txId = txId'
    · subst hid
      rw [if_pos rfl, hsession, Option.map_some, Function.update_self]
      exact .some hf
    · rw [if_neg hid, Function.update_of_ne (Ne.symm hid)]
      exact hm.sessions txId'

/-- The end of a transaction, with an engine that holds what it has written. -/
theorem finish (hm : Represents add m h) {store : Store} {e : Engine}
    (hstore : Holds add store e) : Represents add { m.set txId none with store := store }
      ⟨e, { h.txMgr with sessions := h.txMgr.sessions.erase txId }⟩ := by
  refine ⟨hstore, hm.nextId, fun txId' => ?_⟩
  show Option.Rel OpensAs (h.txMgr.sessions.erase txId)[txId']?
    (Function.update m.sessions txId none txId')
  by_cases hid : txId = txId'
  · subst hid
    rw [Std.TreeMap.getElem?_erase_self, Function.update_self]
    exact .none
  · rw [TxManager.sessions_erase h.txMgr hid, Function.update_of_ne (Ne.symm hid)]
    exact hm.sessions txId'

theorem begin (hm : Represents add m h) (isolation : UInt8) :
    Represents add
      { m.set m.nextId (some ⟨.fromByte isolation, m.store.trie, [], []⟩) with
        nextId := m.nextId + 1 }
      (h.beginTx isolation).2 := by
  refine ⟨hm.store, congrArg (· + 1) hm.nextId, fun txId' => ?_⟩
  show Option.Rel OpensAs (h.txMgr.sessions.insert h.txMgr.nextId _)[txId']?
    (Function.update m.sessions m.nextId _ txId')
  rw [Std.TreeMap.getElem?_insert, hm.nextId]
  simp only [Std.LawfulEqCmp.compare_eq_iff_eq]
  by_cases hid : m.nextId = txId'
  · subst hid
    rw [if_pos rfl, Function.update_self]
    exact .some ⟨rfl, hm.store.copies.trie, rfl, rfl⟩
  · rw [if_neg hid, Function.update_of_ne (Ne.symm hid)]
    exact hm.sessions txId'

/-- **A write buffer**: all of it, or the operations before the one that meets a fault. -/
theorem applyBuffer {s : Store} {e : Engine} (hs : Holds add s e) (ops : List TxOp) :
    (∀ u e', Uldb.applyBuffer ops e = .ok u e' →
      Holds add (s.writeAll (ops.map TxOp.write)) e') ∧
    ∀ msg e', Uldb.applyBuffer ops e = .error (.error msg) e' →
      ∃ done op later fault rest, ops = done ++ op :: later ∧ s.faults = fault :: rest ∧
        msg = op.failed ++ fault.msg ∧
        Holds add { s.writeAll (done.map TxOp.write) with faults := rest } e' := by
  exact Holds.forM_ops id (fun op msg => op.failed ++ msg)
    (fun op e u e' hrun => applyOp_eq_ok.mp hrun)
    (fun op e msg e' hrun => Engine.exec_of_applyOp_error hrun) hs ops

/-- A commit. -/
theorem commit (hm : Represents add m h) {response : Response}
    (hrun : h.handleTxCommit txId = some (response, h')) :
    ∃ m', m.Serves (.commit txId) (.response response) m' ∧ Represents add m' h' := by
  rcases hm.cases txId with ⟨hnone, hnone'⟩ | ⟨session, t, hsome, hsome', hopens⟩
  · have hcommit : h.commitTx txId = (.error (.notFound txId), h) := by
      simp only [UmpHandler.commitTx, TxManager.remove, hnone, Option.map_none]
    rw [handleTxCommit, hcommit] at hrun
    obtain ⟨rfl, rfl⟩ := Prod.mk.inj (Option.some_inj.mp hrun)
    exact ⟨m, .commitMissing hnone', hm⟩
  · have hremove : h.txMgr.remove txId
        = some (session, { h.txMgr with sessions := h.txMgr.sessions.erase txId }) := by
      rw [TxManager.remove, hsome]
      rfl
    -- the two tries and the map of the transaction's start tell the same keys apart
    obtain ⟨hstale, hvalid⟩ := hopens.conflict hm.store.copies.trie
    cases hconflict : conflict h.engine.state session with
    | some key =>
      have hcommit : h.commitTx txId = (.error (.conflict key),
          ⟨h.engine, { h.txMgr with sessions := h.txMgr.sessions.erase txId }⟩) := by
        simp only [UmpHandler.commitTx, hremove, hconflict]
      rw [handleTxCommit, hcommit] at hrun
      obtain ⟨rfl, rfl⟩ := Prod.mk.inj (Option.some_inj.mp hrun)
      exact ⟨_, .conflict hsome' (hstale key hconflict), hm.finish hm.store⟩
    | none =>
      obtain ⟨hok, herror⟩ := applyBuffer hm.store session.writeBuffer
      cases happly : Uldb.applyBuffer session.writeBuffer h.engine with
      | ok u e =>
        have hcommit : h.commitTx txId = (.ok session.writeBuffer.length,
            ⟨e, { h.txMgr with sessions := h.txMgr.sessions.erase txId }⟩) := by
          simp only [UmpHandler.commitTx, hremove, hconflict, happly]
        have hholds := hok u e happly
        rw [handleTxCommit, hcommit] at hrun
        obtain ⟨rfl, rfl⟩ := Prod.mk.inj (Option.some_inj.mp hrun)
        rw [hopens.writes] at hholds ⊢
        exact ⟨_, .commit hsome' (hvalid hconflict), hm.finish hholds⟩
      | error failure e =>
        have hcommit : h.commitTx txId = (.error (.write failure),
            ⟨e, { h.txMgr with sessions := h.txMgr.sessions.erase txId }⟩) := by
          simp only [UmpHandler.commitTx, hremove, hconflict, happly]
        rw [handleTxCommit, hcommit] at hrun
        cases failure with
        | panic => exact absurd hrun (by simp)
        | error msg =>
          obtain ⟨rfl, rfl⟩ := Prod.mk.inj (Option.some_inj.mp hrun)
          -- what the operations before the fault have written stays
          obtain ⟨done, op, later, fault, rest, hdone, hfault, rfl, hholds⟩ := herror msg e happly
          rw [hopens.writes] at hdone
          exact ⟨_, .commitFailed hsome' (hvalid hconflict) hdone hfault, hm.finish hholds⟩

/-- A write of a transaction. -/
theorem write (hm : Represents add m h) {request : TxRequest} {op : TxOp}
    (hop : request.op = some (txId, op)) {f : TxSession → TxSession}
    (hf : ∀ session, f session = { session with writeBuffer := session.writeBuffer ++ [op] }) :
    ∃ m', m.Serves request (.found (h.txMgr.active txId)) m' ∧
      Represents add m' { h with txMgr := h.txMgr.update txId f } := by
  rcases hm.cases txId with ⟨hnone, hnone'⟩ | ⟨session, t, hsome, hsome', hopens⟩
  · rw [hm.active_eq, hnone', TxManager.update, hnone]
    exact ⟨m, .writeMissing hop hnone', hm⟩
  · rw [hm.active_eq, hsome']
    refine ⟨_, .write hop hsome', hm.update hsome ?_⟩
    rw [hf]
    exact ⟨hopens.isolation, hopens.snapshot, congrArg (· ++ [op]) hopens.writes, hopens.reads⟩

/-- **One request**: the handler answers as the map does, and the server then holds the map
afterwards. -/
theorem handleTx (hm : Represents add m h) (hadd : Newest add)
    (hqueue : h.engine.compactor.queue = []) {request : TxRequest} {reply : TxReply}
    (hrun : h.handleTx request = some (reply, h')) :
    ∃ m', m.Serves request reply m' ∧ Represents add m' h' := by
  cases request with
  | record request =>
    rw [UmpHandler.handleTx] at hrun
    cases hhandle : UmpHandler.handle request h.engine with
    | ok response e =>
      rw [hhandle] at hrun
      obtain ⟨rfl, rfl⟩ := Prod.mk.inj (Option.some_inj.mp hrun)
      obtain ⟨ws, faults, hserves, hstore⟩ := hm.store.handle hadd hqueue hhandle
      exact ⟨_, .record hserves, hstore, hm.nextId, hm.sessions⟩
    | error failure e =>
      rw [hhandle] at hrun
      exact absurd hrun (by simp)
  | version request =>
    rw [UmpHandler.handleTx] at hrun
    cases hhandle : UmpHandler.handleVersion request h.engine with
    | ok response e =>
      rw [hhandle] at hrun
      obtain ⟨rfl, rfl⟩ := Prod.mk.inj (Option.some_inj.mp hrun)
      obtain ⟨store, hserves, hstore⟩ := hm.store.handleVersion hhandle
      exact ⟨_, .version hserves, hstore, hm.nextId, hm.sessions⟩
    | error failure e =>
      rw [hhandle] at hrun
      exact absurd hrun (by simp)
  | begin isolation =>
    obtain ⟨rfl, rfl⟩ := Prod.mk.inj (Option.some_inj.mp hrun)
    have hid : (h.beginTx isolation).1 = m.nextId := hm.nextId
    rw [hid]
    exact ⟨_, .begin isolation, hm.begin isolation⟩
  | get txId key =>
    obtain ⟨rfl, rfl⟩ := Prod.mk.inj (Option.some_inj.mp hrun)
    rcases hm.cases txId with ⟨hnone, hnone'⟩ | ⟨session, t, hsome, hsome', hopens⟩
    · obtain ⟨hvalue, hstore, -⟩ := hm.store.get hadd hqueue (scopeKey 0 key.1)
      simp only [UmpHandler.txGet, hnone]
      rw [hvalue]
      exact ⟨m, .getLive hnone' key, hstore, hm.nextId, hm.sessions⟩
    · obtain ⟨hvalue, hopens'⟩ := hopens.get (scopeKey 0 key.1)
      simp only [UmpHandler.txGet, hsome]
      rw [hvalue]
      exact ⟨_, .get hsome' key, hm.update hsome hopens'⟩
  | put txId key value =>
    obtain ⟨rfl, rfl⟩ := Prod.mk.inj (Option.some_inj.mp hrun)
    exact hm.write rfl fun _ => rfl
  | delete txId key =>
    obtain ⟨rfl, rfl⟩ := Prod.mk.inj (Option.some_inj.mp hrun)
    exact hm.write rfl fun _ => rfl
  | commit txId =>
    obtain ⟨⟨response, h₁⟩, hcommit, heq⟩ := Option.map_eq_some_iff.mp hrun
    obtain ⟨rfl, rfl⟩ := Prod.mk.inj heq
    exact hm.commit hcommit
  | rollback txId =>
    obtain ⟨rfl, rfl⟩ := Prod.mk.inj (Option.some_inj.mp hrun)
    rcases hm.cases txId with ⟨hnone, hnone'⟩ | ⟨session, t, hsome, hsome', hopens⟩
    · simp only [handleTxRollback, hm.active_eq, hnone', rollbackTx, TxManager.remove, hnone,
        Option.map_none]
      exact ⟨m, .rollbackMissing hnone', hm⟩
    · simp only [handleTxRollback, hm.active_eq, hsome', rollbackTx, TxManager.remove, hsome,
        Option.map_some]
      exact ⟨_, .rollback hsome', hm.finish hm.store⟩
  | status txId =>
    obtain ⟨rfl, rfl⟩ := Prod.mk.inj (Option.some_inj.mp hrun)
    rw [txStatus, hm.active_eq]
    exact ⟨m, .status txId, hm⟩

/-! ### The real levels -/

theorem flushCount_applyBuffer (n : ℕ) (ops : List TxOp) :
    Keeps (fun e : Engine => n ≤ e.flushCount) (Uldb.applyBuffer ops) := by
  have hexec : ∀ c, Keeps (fun e : Engine => n ≤ e.flushCount) (Engine.exec c) :=
    fun c => Engine.exec_keeps (Engine.flushCount_coreInv n) c fun _ _ _ => trivial
  refine Keeps.forM fun op _ => ?_
  cases op with
  | put key value => exact Keeps.mapError (hexec (.put key value))
  | delete key => exact Keeps.mapError (hexec (.delete key))

/-- A commit flushes in its writes, or not at all. -/
theorem flushCount_commitTx (h : UmpHandler) (txId : ℕ) :
    h.engine.flushCount ≤ (h.commitTx txId).2.engine.flushCount := by
  rw [UmpHandler.commitTx]
  split
  · exact le_rfl
  · rename_i session txMgr _
    split
    · exact le_rfl
    · -- the writes count on, whether they all succeed or not
      have hfinal := flushCount_applyBuffer h.engine.flushCount session.writeBuffer h.engine le_rfl
      cases happly : Uldb.applyBuffer session.writeBuffer h.engine with
      | ok u e =>
        rw [happly] at hfinal
        exact hfinal
      | error failure e =>
        rw [happly] at hfinal
        exact hfinal

/-- Flushes are counted up. -/
theorem flushCount_handleTx {request : TxRequest} {reply : TxReply}
    (hrun : h.handleTx request = some (reply, h')) :
    h.engine.flushCount ≤ h'.engine.flushCount := by
  have hI := Engine.flushCount_coreInv h.engine.flushCount
  cases request with
  | record request =>
    rw [UmpHandler.handleTx] at hrun
    cases hhandle : UmpHandler.handle request h.engine with
    | ok response e =>
      rw [hhandle] at hrun
      obtain ⟨-, rfl⟩ := Prod.mk.inj (Option.some_inj.mp hrun)
      have hstep : h.engine.flushCount ≤ e.flushCount :=
        (Engine.handle_keeps hI request).of_ok hhandle le_rfl
      exact hstep
    | error failure e =>
      rw [hhandle] at hrun
      exact absurd hrun (by simp)
  | version request =>
    rw [UmpHandler.handleTx] at hrun
    cases hhandle : UmpHandler.handleVersion request h.engine with
    | ok response e =>
      rw [hhandle] at hrun
      obtain ⟨-, rfl⟩ := Prod.mk.inj (Option.some_inj.mp hrun)
      exact (Engine.flushCount_handleVersion hhandle).ge
    | error failure e =>
      rw [hhandle] at hrun
      exact absurd hrun (by simp)
  | get txId key =>
    -- without a session the engine is read, which changes its cache only
    obtain ⟨-, rfl⟩ := Prod.mk.inj (Option.some_inj.mp hrun)
    rw [UmpHandler.txGet]
    split
    · exact le_rfl
    · obtain ⟨cache, heq⟩ := Engine.get_frame h.engine (scopeKey 0 key.1)
      show h.engine.flushCount ≤ (h.engine.get (scopeKey 0 key.1)).2.flushCount
      rw [heq]
  | commit txId =>
    obtain ⟨⟨response, h₁⟩, hcommit, heq⟩ := Option.map_eq_some_iff.mp hrun
    obtain ⟨-, rfl⟩ := Prod.mk.inj heq
    have hstep := flushCount_commitTx h txId
    -- the answer tells the error, and the engine is the same
    rw [handleTxCommit] at hcommit
    split at hcommit
    · rename_i hresult
      obtain ⟨-, rfl⟩ := Prod.mk.inj (Option.some_inj.mp hcommit)
      rwa [hresult] at hstep
    · exact absurd hcommit (by simp)
    · rename_i hresult
      obtain ⟨-, rfl⟩ := Prod.mk.inj (Option.some_inj.mp hcommit)
      rwa [hresult] at hstep
  | rollback txId =>
    obtain ⟨-, rfl⟩ := Prod.mk.inj (Option.some_inj.mp hrun)
    show h.engine.flushCount ≤ (h.rollbackTx txId).engine.flushCount
    rw [rollbackTx]
    split
    · exact le_rfl
    · exact le_rfl
  | begin isolation =>
    obtain ⟨-, rfl⟩ := Prod.mk.inj (Option.some_inj.mp hrun)
    exact le_rfl
  | put txId key value =>
    obtain ⟨-, rfl⟩ := Prod.mk.inj (Option.some_inj.mp hrun)
    exact le_rfl
  | delete txId key =>
    obtain ⟨-, rfl⟩ := Prod.mk.inj (Option.some_inj.mp hrun)
    exact le_rfl
  | status txId =>
    obtain ⟨-, rfl⟩ := Prod.mk.inj (Option.some_inj.mp hrun)
    exact le_rfl

/-- **One request**, after which the worker processes what was submitted. -/
theorem serveOneTx (hm : Represents Engine.keepAll m h) (hqueue : h.engine.compactor.queue = [])
    {request : TxRequest} {reply : TxReply}
    (hrun : UmpHandler.serveOneTx CompactionManager.addL0Page h request = some (reply, h'))
    (hfew : h'.engine.flushCount < l0Limit) :
    ∃ m', m.Serves request reply m' ∧ Represents Engine.keepAll m' h' ∧
      h'.engine.compactor.queue = [] := by
  obtain ⟨h₁, hhandle, rfl⟩ := serveOneTx_eq_some.mp hrun
  obtain ⟨m', hserves, hm'⟩ := hm.handleTx Engine.keepAll_newest hqueue hhandle
  have hfew₁ : h₁.engine.flushCount < l0Limit := hfew
  simp only [hm'.store.settle_addL0Page hfew₁]
  exact ⟨m', hserves, ⟨hm'.store.settle, hm'.nextId, hm'.sessions⟩, Engine.queue_settle h₁.engine⟩

/-- A database on an empty directory is the empty map, over a log with these faults to come. -/
theorem opened {n : ℕ} {outcomes : List (Option WriteFault)} {e : Engine}
    (hopen : Engine.open n ∅ none outcomes = .ok e) :
    Represents Engine.keepAll (TxMap.empty (outcomes.filterMap id)) ⟨e, TxManager.new⟩ ∧
      e.compactor.queue = [] := by
  obtain ⟨hstore, hqueue⟩ := Holds.opened hopen
  refine ⟨⟨hstore, rfl, fun txId => ?_⟩, hqueue⟩
  have hnone : TxManager.new.sessions[txId]? = none := Std.TreeMap.getElem?_emptyc
  rw [hnone]
  exact .none

end

end Represents

/-! ### Requests that are answered -/

namespace TxRequest

/-- The bounds of the client are in order. -/
def InOrder : TxRequest → Prop
  | record request => request.InOrder
  | _ => True

/-- The keys that a request puts, or lets a transaction put. -/
def putKeys : TxRequest → List Bytes
  | record request => request.putKeys
  | put _ key _ => [scopeKey 0 key.1]
  | _ => []

end TxRequest

namespace UmpHandler

open Engine

variable {K : Set Bytes} {h : UmpHandler}

/-- The keys of the tries, and those that the transactions put. -/
def KeysIn (K : Set Bytes) (h : UmpHandler) : Prop :=
  TriesIn K h.engine ∧ ∀ (txId : ℕ) (session : TxSession), h.txMgr.sessions[txId]? = some session →
    ∀ op ∈ session.writeBuffer, ∀ k ∈ op.call.putKeys, k ∈ K

theorem KeysIn.erase (hk : KeysIn K h) {e : Engine} (he : TriesIn K e) (txId : ℕ) :
    KeysIn K ⟨e, { h.txMgr with sessions := h.txMgr.sessions.erase txId }⟩ := by
  refine ⟨he, fun txId' session hsession => ?_⟩
  by_cases hid : txId = txId'
  · subst hid
    rw [Std.TreeMap.getElem?_erase_self] at hsession
    exact absurd hsession (by simp)
  · exact hk.2 txId' session ((TxManager.sessions_erase h.txMgr hid).symm.trans hsession)

theorem KeysIn.update (hk : KeysIn K h) (txId : ℕ) {f : TxSession → TxSession} (ops : List TxOp)
    (hf : ∀ session, (f session).writeBuffer = session.writeBuffer ++ ops)
    (hops : ∀ op ∈ ops, ∀ k ∈ op.call.putKeys, k ∈ K) :
    KeysIn K { h with txMgr := h.txMgr.update txId f } := by
  refine ⟨hk.1, fun txId' session hsession => ?_⟩
  rw [TxManager.sessions_update] at hsession
  by_cases hid : txId = txId'
  · rw [if_pos hid] at hsession
    obtain ⟨session₀, hsession₀, rfl⟩ := Option.map_eq_some_iff.mp hsession
    intro op hop
    rw [hf] at hop
    rcases List.mem_append.mp hop with hop | hop
    · exact hk.2 txId' session₀ hsession₀ op hop
    · exact hops op hop
  · rw [if_neg hid] at hsession
    exact hk.2 txId' session hsession

variable [Codec]

theorem applyBuffer_safe (hK : Set.InjOn fnv1a K) {ops : List TxOp}
    (hops : ∀ op ∈ ops, ∀ k ∈ op.call.putKeys, k ∈ K) : SafeIn K (applyBuffer ops) := by
  have hprepend : ∀ (text : String) (failure : Failure), failure ≠ .panic →
      failure.prepend text ≠ .panic := by
    intro text failure hne
    cases failure with
    | error msg => simp [Failure.prepend]
    | panic => exact absurd rfl hne
  refine Stays.forM fun op hop => ?_
  have hexec : SafeIn K (exec op.call) := by
    refine exec_safe hK ?_ (hops op hop)
    cases op <;> rfl
  cases op with
  | put key value => exact hexec.mapError (hprepend "tx commit put failed: ")
  | delete key => exact hexec.mapError (hprepend "tx commit delete failed: ")

/-- A commit is answered. -/
theorem handleTxCommit_answers (hK : Set.InjOn fnv1a K) (hk : KeysIn K h) (txId : ℕ) :
    ∃ response h', h.handleTxCommit txId = some (response, h') ∧ KeysIn K h' := by
  rw [handleTxCommit, commitTx, TxManager.remove]
  cases hsession : h.txMgr.sessions[txId]? with
  | none => exact ⟨_, _, rfl, hk⟩
  | some session =>
    simp only [Option.map_some]
    cases conflict h.engine.state session with
    | some key => exact ⟨_, _, rfl, hk.erase hk.1 txId⟩
    | none =>
      obtain ⟨hfinal, hfails⟩ := applyBuffer_safe hK (hk.2 txId session hsession) h.engine hk.1
      cases happly : applyBuffer session.writeBuffer h.engine with
      | ok u e =>
        rw [happly] at hfinal
        exact ⟨_, _, rfl, hk.erase hfinal txId⟩
      | error failure e =>
        rw [happly] at hfinal
        cases failure with
        | error msg => exact ⟨_, _, rfl, hk.erase hfinal txId⟩
        | panic => exact absurd rfl (hfails _ _ happly)

/-- **One request** is answered, if its bounds are in order and its keys are in `K`. -/
theorem handleTx_answers (hK : Set.InjOn fnv1a K) (hk : KeysIn K h) {request : TxRequest}
    (horder : request.InOrder) (hkeys : ∀ k ∈ request.putKeys, k ∈ K) :
    ∃ reply h', h.handleTx request = some (reply, h') ∧ KeysIn K h' := by
  cases request with
  | record request =>
    obtain ⟨response, e, hrun, he⟩ := (handle_answers hK horder hkeys).returns hk.1
    rw [handleTx, hrun]
    exact ⟨_, _, rfl, he, hk.2⟩
  | version request =>
    obtain ⟨response, e, hrun, he⟩ := (handleVersion_answers request).returns hk.1
    rw [handleTx, hrun]
    exact ⟨_, _, rfl, he, hk.2⟩
  | begin isolation =>
    -- a new transaction has written nothing
    refine ⟨_, _, rfl, hk.1, fun txId session hsession => ?_⟩
    have hinsert : (h.txMgr.sessions.insert h.txMgr.nextId
        ⟨h.txMgr.nextId, TxIsolation.fromByte isolation, h.engine.state.snapshot, [], [],
          h.txMgr.nextTs⟩)[txId]? = some session := hsession
    rw [Std.TreeMap.getElem?_insert] at hinsert
    split at hinsert
    · rw [← Option.some_inj.mp hinsert]
      exact fun op hop => absurd hop List.not_mem_nil
    · exact hk.2 txId session hinsert
  | get txId key =>
    refine ⟨_, _, rfl, ?_⟩
    rw [txGet]
    split
    · -- a read notes the key, and leaves the buffer
      refine hk.update txId [] (fun session => ?_) (by simp)
      rw [TxSession.get, List.append_nil]
      split
      · rfl
      · split <;> rfl
    · exact ⟨(getLocked_answers hK (scopeKey 0 key.1)).keeps h.engine hk.1, hk.2⟩
  | put txId key value =>
    refine ⟨_, _, rfl, hk.update txId [.put (scopeKey 0 key.1) value] (fun _ => rfl) ?_⟩
    exact fun op hop => List.mem_singleton.mp hop ▸ hkeys
  | delete txId key =>
    refine ⟨_, _, rfl, hk.update txId [.delete (scopeKey 0 key.1)] (fun _ => rfl) ?_⟩
    intro op hop k hk'
    rw [List.mem_singleton.mp hop] at hk'
    exact absurd hk' List.not_mem_nil
  | commit txId =>
    obtain ⟨response, h', hcommit, hk'⟩ := handleTxCommit_answers hK hk txId
    exact ⟨.response response, h', by rw [handleTx, hcommit]; rfl, hk'⟩
  | rollback txId =>
    refine ⟨_, _, rfl, ?_⟩
    show KeysIn K (h.rollbackTx txId)
    rw [rollbackTx, TxManager.remove]
    cases h.txMgr.sessions[txId]? with
    | none => exact hk
    | some session => exact hk.erase hk.1 txId
  | status txId => exact ⟨_, _, rfl, hk⟩

end UmpHandler

end Uldb
