/-
What a transaction sees is what it commits (`TxSession::get`, `UmpHandler::commit_tx`).

A session looks for the latest buffered write of a key from the end of its buffer, and then in
its snapshot; a commit replays the buffer from its start on the live trie.  As long as nobody
else writes, the live trie is the snapshot, so that the two agree and no validation fails.

* `quiet_run` — a session among acts that do not write;
* `commit_as_seen` — the commit returns the number of buffered operations, and the trie has
  what the session read.
-/
import Uldb.TxWrites

namespace Uldb

open Fallible

/-- A read of a session: the last buffered write of the key, or else the snapshot. -/
theorem TxSession.get_fst (session : TxSession) (k : Bytes) :
    (session.get k).1
      = (lastWrite (session.writeBuffer.map TxOp.write) k).getD (session.snapshot.get k) := by
  rw [get, lastWrite, ← List.map_reverse, List.find?_map]
  show _ = ((Option.map TxOp.write (session.writeBuffer.reverse.find? fun op => op.key = k)).map
    Prod.snd).getD _
  cases session.writeBuffer.reverse.find? fun op => op.key = k <;> rfl

/-- A buffer whose writes all succeed is applied without an error. -/
theorem applyBuffer_of_run [Codec] {ops : List TxOp} {e e' : Engine}
    (h : e.run (ops.map TxOp.call) = some e') : applyBuffer ops e = .ok ⟨⟩ e' := by
  rw [applyBuffer]
  induction ops generalizing e with
  | nil =>
    obtain rfl : e = e' := Option.some_inj.mp h
    rfl
  | cons op ops ih =>
    rw [List.map_cons, Engine.run_cons, Option.bind_eq_some_iff] at h
    obtain ⟨e₁, hexec, hrun⟩ := h
    obtain ⟨_, hexec⟩ := success_eq_some hexec
    exact forM_cons_eq_ok.mpr ⟨e₁, applyOp_eq_ok.mpr hexec, ih hrun⟩

/-- The operation that an act adds to the buffer of a transaction. -/
def TxAct.buffered (txId : ℕ) : TxAct → Option TxOp
  | txPut txId' key value => if txId' = txId then some (.put (scopeKey 0 key) value) else none
  | txDelete txId' key => if txId' = txId then some (.delete (scopeKey 0 key)) else none
  | _ => none

namespace TxManager

theorem sessions_update (m : TxManager) (txId : ℕ) (f : TxSession → TxSession) (txId' : ℕ) :
    (m.update txId f).sessions[txId']?
      = if txId = txId' then (m.sessions[txId']?).map f else m.sessions[txId']? := by
  rw [update]
  cases hm : m.sessions[txId]? with
  | none =>
    by_cases heq : txId = txId'
    · subst heq
      simp [hm]
    · rw [if_neg heq]
  | some session =>
    simp only [Std.TreeMap.getElem?_insert, Std.LawfulEqCmp.compare_eq_iff_eq]
    by_cases heq : txId = txId'
    · subst heq
      simp [hm]
    · rw [if_neg heq, if_neg heq]

theorem sessions_erase (m : TxManager) {txId txId' : ℕ} (h : txId ≠ txId') :
    (m.sessions.erase txId)[txId']? = m.sessions[txId']? := by
  rw [Std.TreeMap.getElem?_erase, if_neg fun hc => h (Std.LawfulEqCmp.eq_of_compare hc)]

end TxManager

namespace Server

/-- An act that writes nothing to the engine, and does not end the transaction. -/
def Quiet (txId : ℕ) (s : Server) (a : TxAct) : Prop :=
  s.writes a = [] ∧ a ≠ .remove txId ∧ a ≠ .rollback txId

instance (txId : ℕ) (s : Server) (a : TxAct) : Decidable (Quiet txId s a) :=
  inferInstanceAs (Decidable (_ ∧ _))

/-- The transaction has begun on the live trie, and has buffered these operations. -/
structure Sees (s : Server) (txId : ℕ) (ops : List TxOp) (session : TxSession) : Prop where
  lt_nextId : txId < s.txMgr.nextId
  session_eq : s.txMgr.sessions[txId]? = some session
  snapshot_eq : session.snapshot = s.engine.state
  buffer_eq : session.writeBuffer = ops

variable [Codec] {s s' : Server} {txId : ℕ} {ops : List TxOp} {session : TxSession}

omit [Codec] in
theorem sees_begin (s : Server) (isolation : UInt8) :
    ∃ session, Sees { s with toUmpHandler := (s.beginTx isolation).2 } s.txMgr.nextId [] session := by
  refine ⟨_, Nat.lt_succ_self _, Std.TreeMap.getElem?_insert_self, rfl, rfl⟩

omit [Codec] in
/-- The sessions change, and the trie does not. -/
theorem Sees.update (h : s.Sees txId ops session) (txId' : ℕ) (f : TxSession → TxSession)
    {ops' : List TxOp} (hsnapshot : ∀ t, (f t).snapshot = t.snapshot)
    (hother : txId' ≠ txId → ops' = ops)
    (hbuffer : txId' = txId → (f session).writeBuffer = ops') :
    ∃ session', Sees { s with txMgr := s.txMgr.update txId' f } txId ops' session' := by
  have hlt : txId < (s.txMgr.update txId' f).nextId := by
    rw [TxManager.update]
    split
    · exact h.lt_nextId
    · exact h.lt_nextId
  have hsessions := s.txMgr.sessions_update txId' f txId
  by_cases heq : txId' = txId
  · rw [if_pos heq, h.session_eq] at hsessions
    exact ⟨f session, hlt, hsessions, (hsnapshot _).trans h.snapshot_eq, hbuffer heq⟩
  · rw [if_neg heq, h.session_eq] at hsessions
    exact ⟨session, hlt, hsessions, h.snapshot_eq, h.buffer_eq.trans (hother heq).symm⟩

/-- One act that writes nothing. -/
theorem Sees.step (h : s.Sees txId ops session) {a : TxAct} (hquiet : Quiet txId s a)
    (hstep : s.step a = some s') :
    ∃ session', s'.Sees txId (ops ++ (a.buffered txId).toList) session' := by
  obtain ⟨hwrites, hremove, hrollback⟩ := hquiet
  cases a with
  | begin isolation =>
    obtain rfl := Option.some_inj.mp hstep
    refine ⟨session, h.lt_nextId.trans (Nat.lt_succ_self _), ?_, h.snapshot_eq, ?_⟩
    · show (s.txMgr.sessions.insert _ _)[txId]? = some session
      rw [Std.TreeMap.getElem?_insert,
        if_neg fun hc => h.lt_nextId.ne' (Std.LawfulEqCmp.eq_of_compare hc)]
      exact h.session_eq
    · simpa [TxAct.buffered] using h.buffer_eq
  | txGet txId' key =>
    obtain rfl := Option.some_inj.mp hstep
    rw [UmpHandler.txGet]
    simp only [TxAct.buffered, Option.toList_none, List.append_nil]
    split
    · refine h.update txId' _ (fun t => t.get_snapshot _) (fun _ => rfl) fun _ => ?_
      rw [TxSession.get]
      split
      · exact h.buffer_eq
      · show (if session.isolation = .serializable then _ else session).writeBuffer = ops
        split
        · exact h.buffer_eq
        · exact h.buffer_eq
    · obtain ⟨cache, heq⟩ := Engine.get_frame s.engine (scopeKey 0 key)
      exact ⟨session, h.lt_nextId, h.session_eq, by rw [heq]; exact h.snapshot_eq, h.buffer_eq⟩
  | txPut txId' key value =>
    obtain rfl := Option.some_inj.mp hstep
    refine h.update txId' _ (fun _ => rfl) (fun hne => ?_) fun heq => ?_
    · simp [TxAct.buffered, hne]
    · simp [TxAct.buffered, heq, TxSession.put, h.buffer_eq]
  | txDelete txId' key =>
    obtain rfl := Option.some_inj.mp hstep
    refine h.update txId' _ (fun _ => rfl) (fun hne => ?_) fun heq => ?_
    · simp [TxAct.buffered, hne]
    · simp [TxAct.buffered, heq, TxSession.delete, h.buffer_eq]
  | rollback txId' =>
    have hne : txId' ≠ txId := fun heq => hrollback (by rw [heq])
    obtain rfl := Option.some_inj.mp hstep
    simp only [TxAct.buffered, Option.toList_none, List.append_nil]
    rw [UmpHandler.rollbackTx]
    split
    · exact ⟨session, h⟩
    · rename_i removed txMgr hremoved
      obtain ⟨_, rfl⟩ := TxManager.remove_eq_some hremoved
      exact ⟨session, h.lt_nextId, (s.txMgr.sessions_erase hne).trans h.session_eq, h.snapshot_eq,
        h.buffer_eq⟩
  | remove txId' =>
    have hne : txId' ≠ txId := fun heq => hremove (by rw [heq])
    rw [Server.step, Option.map_eq_some_iff] at hstep
    obtain ⟨⟨removed, txMgr⟩, hremoved, rfl⟩ := hstep
    obtain ⟨_, rfl⟩ := TxManager.remove_eq_some hremoved
    simp only [TxAct.buffered, Option.toList_none, List.append_nil]
    exact ⟨session, h.lt_nextId, (s.txMgr.sessions_erase hne).trans h.session_eq, h.snapshot_eq,
      h.buffer_eq⟩
  | validate txId' =>
    rw [Server.step, Option.bind_eq_some_iff] at hstep
    obtain ⟨⟨removed, phase⟩, _, hstep⟩ := hstep
    simp only [TxAct.buffered, Option.toList_none, List.append_nil]
    cases phase with
    | removed =>
      obtain rfl := Option.some_inj.mp hstep
      exact ⟨session, h.lt_nextId, h.session_eq, h.snapshot_eq, h.buffer_eq⟩
    | validated => exact absurd hstep (by simp)
    | finished result => exact absurd hstep (by simp)
  | apply txId' =>
    -- a commit of another transaction with an empty buffer
    obtain ⟨other, hcommit, rfl⟩ := eq_of_step_apply hstep
    have hnil : other.writeBuffer = [] := by
      rw [writes, hcommit] at hwrites
      exact hwrites
    simp only [TxAct.buffered, Option.toList_none, List.append_nil, hnil]
    exact ⟨session, h.lt_nextId, h.session_eq, h.snapshot_eq, h.buffer_eq⟩
  | put key value => exact absurd hwrites (by simp [writes])
  | delete key => exact absurd hwrites (by simp [writes])

/-- **A session among acts that write nothing**: the live trie stays its snapshot, and its
buffer holds what was put and deleted in it. -/
theorem quiet_run (h : s.Sees txId ops session) {acts : List TxAct}
    (hrun : acts.foldlM (stepIf (Quiet txId)) s = some s') :
    ∃ session', s'.Sees txId (ops ++ acts.filterMap (TxAct.buffered txId)) session' := by
  induction acts generalizing s ops session with
  | nil =>
    obtain rfl : s = s' := by simpa using hrun
    exact ⟨session, by simpa using h⟩
  | cons a acts ih =>
    obtain ⟨t, hstep, hrun⟩ := foldlM_cons_eq_some.mp hrun
    obtain ⟨hquiet, hstep⟩ := stepIf_eq_some.mp hstep
    obtain ⟨session₁, h₁⟩ := h.step hquiet hstep
    obtain ⟨session₂, h₂⟩ := ih h₁ hrun
    refine ⟨session₂, ?_⟩
    cases hop : a.buffered txId with
    | none => simpa [hop] using h₂
    | some op => simpa [hop] using h₂

/-- **A transaction commits what it sees.**  If nothing is written to the engine between the
begin of a transaction and its commit, and its writes succeed, then the commit returns the
number of its buffered operations, whatever its isolation, and the live trie has afterwards
the values that the session would have read. -/
theorem commit_as_seen {s₀ : Server} {isolation : UInt8} {acts : List TxAct}
    (hrun : (TxAct.begin isolation :: acts).foldlM (stepIf (Quiet s₀.txMgr.nextId)) s₀ = some s) :
    ∃ session, s.txMgr.sessions[s₀.txMgr.nextId]? = some session ∧
      session.writeBuffer = acts.filterMap (TxAct.buffered s₀.txMgr.nextId) ∧
      ∀ e', s.engine.run (session.writeBuffer.map TxOp.call) = some e' →
        (s.commitTx s₀.txMgr.nextId).1 = .ok session.writeBuffer.length ∧
        (s.commitTx s₀.txMgr.nextId).2.engine = e' ∧
        ∀ k, e'.state.get k = (session.get k).1 := by
  obtain ⟨s₁, hbegin, hrun⟩ := foldlM_cons_eq_some.mp hrun
  obtain ⟨_, hbegin⟩ := stepIf_eq_some.mp hbegin
  obtain rfl := Option.some_inj.mp hbegin
  obtain ⟨session₁, h₁⟩ := sees_begin s₀ isolation
  obtain ⟨session, h⟩ := quiet_run h₁ hrun
  refine ⟨session, h.session_eq, by simpa using h.buffer_eq, fun e' hwrites => ?_⟩
  have hremove : s.txMgr.remove s₀.txMgr.nextId
      = some (session, { s.txMgr with sessions := s.txMgr.sessions.erase s₀.txMgr.nextId }) := by
    rw [TxManager.remove, h.session_eq]
    rfl
  -- the read set is compared with the snapshot itself
  have hconflict : conflict s.engine.state session = none := by
    rw [conflict]
    split
    · rw [List.find?_eq_none]
      intro key _
      simp [h.snapshot_eq]
    · rfl
  have hcommit : s.commitTx s₀.txMgr.nextId = (.ok session.writeBuffer.length,
      ⟨e', { s.txMgr with sessions := s.txMgr.sessions.erase s₀.txMgr.nextId }⟩) := by
    simp only [UmpHandler.commitTx, hremove, hconflict, applyBuffer_of_run hwrites]
  refine ⟨by rw [hcommit], by rw [hcommit], fun k => ?_⟩
  rw [Engine.get_run hwrites, TxSession.get_fst, h.snapshot_eq]

omit [Codec] in
/-- A Serializable transaction that reads a key, writes it twice and deletes it, and puts
another key; a second transaction begins and buffers a write to the same key. -/
def mixedActs : List TxAct :=
  [.txGet 1 [97], .txPut 1 [97] [1], .begin 2, .txPut 2 [97] [9], .txPut 1 [97] [2],
    .txDelete 1 [97], .txGet 1 [98], .txPut 1 [98] [3]]

omit [Codec] in
/-- On a database with the first key: the engine, and the server before the commit. -/
def mixedRun : Option (Engine × Server) :=
  (@Engine.openRun storedCodec 1000 ∅ none [.put (scopeKey 0 [97]) [0]]).bind fun e =>
    ((TxAct.begin 3 :: mixedActs).foldlM (@stepIf storedCodec (Quiet 1) _) (new e)).map fun s =>
      (e, s)

omit [Codec] in
theorem commit_as_seen_mixed : ∃ e s session, mixedRun = some (e, s) ∧
    s.txMgr.sessions[1]? = some session ∧ (@UmpHandler.commitTx storedCodec s.toUmpHandler 1).1 = .ok 4 ∧
      ∀ k, (@UmpHandler.commitTx storedCodec s.toUmpHandler 1).2.engine.state.get k
        = (session.get k).1 := by
  have hsome : (mixedRun.bind fun es => (es.2.txMgr.sessions[1]?).bind fun session =>
      @Engine.run storedCodec es.2.engine (session.writeBuffer.map TxOp.call)).isSome = true := by
    decide +kernel
  obtain ⟨e', hall⟩ := Option.isSome_iff_exists.mp hsome
  obtain ⟨⟨e, s⟩, hrun, hall⟩ := Option.bind_eq_some_iff.mp hall
  obtain ⟨session, hsession, hwrites⟩ := Option.bind_eq_some_iff.mp hall
  obtain ⟨e₀, _, hmap⟩ := Option.bind_eq_some_iff.mp hrun
  obtain ⟨s₀, hacts, heq⟩ := Option.map_eq_some_iff.mp hmap
  obtain ⟨rfl, rfl⟩ := Prod.mk.inj heq
  obtain ⟨session', hsession', hbuffer, hcommit⟩ :=
    @commit_as_seen storedCodec s₀ (new e₀) 3 mixedActs hacts
  obtain rfl : session = session' := Option.some_inj.mp (hsession.symm.trans hsession')
  obtain ⟨hok, hengine, hget⟩ := hcommit e' hwrites
  refine ⟨e₀, s₀, session, hrun, hsession, ?_, fun k => ?_⟩
  · rw [show 4 = session.writeBuffer.length by rw [hbuffer]; rfl]
    exact hok
  · rw [show (@UmpHandler.commitTx storedCodec s₀.toUmpHandler 1).2.engine = e' from hengine]
    exact hget k

end Server

end Uldb
