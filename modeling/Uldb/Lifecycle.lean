/-
The life of a transaction (`TxManager`, `UmpHandler::begin_tx`, `commit_tx`, `rollback_tx`).

A session is in the transaction manager from its begin to the first commit or rollback that
finds it there.  `Ledger.note` keeps the books of one transaction over a run of critical
sections, whatever the other clients do in between.

* `Balanced.step` — one critical section, in terms of what it does to the books;
* `ledger_balances` — an id is given out once, it ends once, by a rollback or by a commit,
  and a commit writes what its client has buffered.
-/
import Uldb.TxReads

namespace Uldb

open Fallible

namespace TxManager

/-- Check if a transaction exists (`TxManager::exists`). -/
def active (m : TxManager) (txId : ℕ) : Bool := (m.sessions[txId]?).isSome

end TxManager

namespace UmpHandler

/-- The status that a client is told. -/
def txStatus (h : UmpHandler) (txId : ℕ) : String :=
  if h.txMgr.active txId then "active" else "unknown"

end UmpHandler

/-- What a run has done for one transaction: how often its id was given out, how often a
rollback or a commit found its session, how often its writes were applied, and the writes
that it has buffered. -/
structure Ledger where
  begun : ℕ
  rolledBack : ℕ
  removed : ℕ
  applied : ℕ
  buffered : List TxOp
  deriving DecidableEq

namespace Ledger

def new : Ledger := ⟨0, 0, 0, 0, []⟩

/-- The books of the transaction `txId` after one critical section. -/
def note (l : Ledger) (txId : ℕ) (s : Server) : TxAct → Ledger
  | .begin _ => if s.txMgr.nextId = txId then { l with begun := l.begun + 1 } else l
  | .txPut id key value =>
    if id = txId ∧ s.txMgr.active txId then
      { l with buffered := l.buffered ++ [.put (scopeKey 0 key) value] }
    else l
  | .txDelete id key =>
    if id = txId ∧ s.txMgr.active txId then
      { l with buffered := l.buffered ++ [.delete (scopeKey 0 key)] }
    else l
  | .rollback id =>
    if id = txId ∧ s.txMgr.active txId then { l with rolledBack := l.rolledBack + 1 } else l
  | .remove id => if id = txId then { l with removed := l.removed + 1 } else l
  | .apply id => if id = txId then { l with applied := l.applied + 1 } else l
  | .txGet _ _ | .validate _ | .put _ _ | .delete _ => l

end Ledger

namespace CommitPhase

/-- Whether the writes have been applied, with or without an error. -/
def applied : CommitPhase → Bool
  | .finished (.error (.conflict _)) => false
  | .finished _ => true
  | .removed | .validated => false

theorem applied_validation (state : Hamt) (session : TxSession) :
    (Server.validation state session).applied = false := by
  rw [Server.validation]
  split <;> rfl

theorem applied_finished (session : TxSession) (result : EStateM.Result Failure Engine Unit) :
    (finished (Server.applied session result)).applied = true := by
  cases result <;> rfl

end CommitPhase

namespace Server

/-- One critical section, with the books of the transaction `txId`. -/
def accounted [Codec] (txId : ℕ) (p : Server × Ledger) (a : TxAct) : Option (Server × Ledger) :=
  (p.1.step a).map fun s' => (s', p.2.note txId p.1 a)

/-- The books of a transaction agree with the server. -/
structure Balanced (txId : ℕ) (s : Server) (l : Ledger) : Prop where
  pos : 0 < s.txMgr.nextId
  begun : l.begun = if 0 < txId ∧ txId < s.txMgr.nextId then 1 else 0
  ended : l.rolledBack + l.removed + (s.txMgr.active txId).toNat = l.begun
  removed : l.removed = (s.commits txId).isSome.toNat
  applied : l.applied = ((s.commits txId).any fun c => c.phase.applied).toNat
  fresh : l.begun = 0 → l.buffered = []
  session : ∀ session, s.txMgr.sessions[txId]? = some session → session.writeBuffer = l.buffered
  commit : ∀ c, s.commits txId = some c → c.session.writeBuffer = l.buffered

theorem balanced_new (txId : ℕ) (e : Engine) : Balanced txId (new e) Ledger.new where
  pos := Nat.one_pos
  begun := by
    show 0 = if 0 < txId ∧ txId < 1 then 1 else 0
    rw [if_neg (by omega)]
  ended := by
    show 0 + 0 + (((∅ : Std.TreeMap ℕ TxSession)[txId]?).isSome).toNat = 0
    simp
  removed := rfl
  applied := rfl
  fresh _ := rfl
  session session h := by
    have hempty : (∅ : Std.TreeMap ℕ TxSession)[txId]? = some session := h
    exact absurd hempty (by simp)
  commit c h := absurd h (by simp [new])

/-! ### One critical section -/

section

variable {txId : ℕ} {s : Server} {l : Ledger}

/-- The books do not depend on the engine. -/
theorem Balanced.engine (h : Balanced txId s l) (e : Engine) :
    Balanced txId { s with engine := e } l :=
  ⟨h.pos, h.begun, h.ended, h.removed, h.applied, h.fresh, h.session, h.commit⟩

/-- An id that is not given out yet has no session. -/
theorem Balanced.not_active (h : Balanced txId s l) (hle : s.txMgr.nextId ≤ txId) :
    l.begun = 0 ∧ s.txMgr.active txId = false := by
  have hbegun : l.begun = 0 := by rw [h.begun, if_neg (by omega)]
  have hended := h.ended
  refine ⟨hbegun, ?_⟩
  cases hactive : s.txMgr.active txId with
  | false => rfl
  | true =>
    rw [hactive, Bool.toNat_true] at hended
    omega

theorem Balanced.begin (h : Balanced txId s l) (isolation : UInt8) :
    Balanced txId { s with toUmpHandler := (s.beginTx isolation).2 }
      (l.note txId s (.begin isolation)) := by
  have hpos := h.pos
  have hbegun := h.begun
  have hended := h.ended
  have hget : ∀ session, (s.txMgr.sessions.insert s.txMgr.nextId session)[txId]?
      = if s.txMgr.nextId = txId then some session else s.txMgr.sessions[txId]? := by
    intro session
    simp only [Std.TreeMap.getElem?_insert, Std.LawfulEqCmp.compare_eq_iff_eq]
  rw [Ledger.note]
  by_cases hid : s.txMgr.nextId = txId
  · rw [if_pos hid]
    obtain ⟨hzero, hnot⟩ := h.not_active hid.le
    refine ⟨Nat.succ_pos _, ?_, ?_, h.removed, h.applied, fun hne => absurd hne (by simp), ?_,
      h.commit⟩
    · show l.begun + 1 = if 0 < txId ∧ txId < s.txMgr.nextId + 1 then 1 else 0
      rw [if_pos (by omega), hzero]
    · show l.rolledBack + l.removed + ((s.txMgr.sessions.insert _ _)[txId]?).isSome.toNat = _
      rw [hget, if_pos hid]
      rw [hnot, Bool.toNat_false] at hended
      show l.rolledBack + l.removed + 1 = l.begun + 1
      omega
    · intro session hsession
      have hnew : (s.txMgr.sessions.insert _ _)[txId]? = some session := hsession
      rw [hget, if_pos hid, Option.some_inj] at hnew
      rw [← hnew, h.fresh hzero]
  · rw [if_neg hid]
    refine ⟨Nat.succ_pos _, ?_, ?_, h.removed, h.applied, h.fresh, ?_, h.commit⟩
    · show l.begun = if 0 < txId ∧ txId < s.txMgr.nextId + 1 then 1 else 0
      rw [hbegun]
      exact if_congr (by omega) rfl rfl
    · show l.rolledBack + l.removed + ((s.txMgr.sessions.insert _ _)[txId]?).isSome.toNat = _
      rw [hget, if_neg hid]
      exact hended
    · intro session hsession
      have hold : (s.txMgr.sessions.insert _ _)[txId]? = some session := hsession
      rw [hget, if_neg hid] at hold
      exact h.session session hold

/-- A change of a session, whose new writes are noted if it is the session of `txId`. -/
theorem Balanced.update (h : Balanced txId s l) (id : ℕ) {f : TxSession → TxSession}
    {ops : List TxOp} (hf : ∀ session, (f session).writeBuffer = session.writeBuffer ++ ops) :
    Balanced txId { s with txMgr := s.txMgr.update id f }
      (if id = txId ∧ s.txMgr.active txId then { l with buffered := l.buffered ++ ops } else l) := by
  have hget := s.txMgr.sessions_update id f txId
  have hnext : (s.txMgr.update id f).nextId = s.txMgr.nextId := by
    rw [TxManager.update]
    split <;> rfl
  have hactive : (s.txMgr.update id f).active txId = s.txMgr.active txId := by
    rw [TxManager.active, hget]
    by_cases hid : id = txId
    · rw [if_pos hid, Option.isSome_map, TxManager.active]
    · rw [if_neg hid, TxManager.active]
  have hpos : 0 < (s.txMgr.update id f).nextId := hnext ▸ h.pos
  have hbegun : l.begun = if 0 < txId ∧ txId < (s.txMgr.update id f).nextId then 1 else 0 := by
    rw [hnext]
    exact h.begun
  have hended : l.rolledBack + l.removed + ((s.txMgr.update id f).active txId).toNat = l.begun := by
    rw [hactive]
    exact h.ended
  by_cases hnoted : id = txId ∧ s.txMgr.active txId
  · rw [if_pos hnoted]
    have hended' := h.ended
    rw [hnoted.2, Bool.toNat_true] at hended'
    refine ⟨hpos, hbegun, hended, h.removed, h.applied, fun hzero => ?_, fun session hsession => ?_,
      fun c hc => ?_⟩
    · have hzero' : l.begun = 0 := hzero
      omega
    · have hnew : (s.txMgr.update id f).sessions[txId]? = some session := hsession
      rw [hget, if_pos hnoted.1, Option.map_eq_some_iff] at hnew
      obtain ⟨session', hold, rfl⟩ := hnew
      rw [hf, h.session session' hold]
    · -- a transaction with a session has no commit
      have hremoved := h.removed
      have hbegun' := h.begun
      rw [show s.commits txId = some c from hc, Option.isSome_some, Bool.toNat_true] at hremoved
      split at hbegun' <;> omega
  · rw [if_neg hnoted]
    refine ⟨hpos, hbegun, hended, h.removed, h.applied, h.fresh, fun session hsession => ?_,
      h.commit⟩
    have hnew : (s.txMgr.update id f).sessions[txId]? = some session := hsession
    rw [hget] at hnew
    by_cases hid : id = txId
    · rw [if_pos hid, Option.map_eq_some_iff] at hnew
      obtain ⟨session', hold, -⟩ := hnew
      exact absurd ⟨hid, by rw [TxManager.active, hold]; rfl⟩ hnoted
    · rw [if_neg hid] at hnew
      exact h.session session hnew

/-- A session that is erased is not active any more. -/
theorem active_erase (m : TxManager) (id txId : ℕ) :
    TxManager.active { m with sessions := m.sessions.erase id } txId
      = if id = txId then false else m.active txId := by
  by_cases hid : id = txId
  · rw [if_pos hid, hid]
    show ((m.sessions.erase txId)[txId]?).isSome = false
    simp
  · rw [if_neg hid]
    show ((m.sessions.erase id)[txId]?).isSome = (m.sessions[txId]?).isSome
    rw [TxManager.sessions_erase m hid]

theorem Balanced.session_erase (h : Balanced txId s l) (id : ℕ) (session : TxSession)
    (hsession : (s.txMgr.sessions.erase id)[txId]? = some session) :
    session.writeBuffer = l.buffered := by
  refine h.session session ?_
  by_cases hid : id = txId
  · rw [hid] at hsession
    exact absurd hsession (by simp)
  · exact (TxManager.sessions_erase s.txMgr hid).symm.trans hsession

theorem Balanced.rollback (h : Balanced txId s l) (id : ℕ) :
    Balanced txId { s with toUmpHandler := s.rollbackTx id } (l.note txId s (.rollback id)) := by
  rw [UmpHandler.rollbackTx, Ledger.note]
  cases hremove : s.txMgr.remove id with
  | none =>
    have hnone : s.txMgr.sessions[id]? = none := by
      rw [TxManager.remove, Option.map_eq_none_iff] at hremove
      exact hremove
    have hnot : ¬(id = txId ∧ s.txMgr.active txId) := by
      rintro ⟨rfl, hactive⟩
      rw [TxManager.active, hnone] at hactive
      exact absurd hactive (by simp)
    rw [if_neg hnot]
    exact h
  | some found =>
    obtain ⟨session, txMgr⟩ := found
    obtain ⟨hsession, rfl⟩ := TxManager.remove_eq_some hremove
    have hended := h.ended
    have hactive := active_erase s.txMgr id txId
    show Balanced txId { s with txMgr := { s.txMgr with sessions := s.txMgr.sessions.erase id } } _
    by_cases hid : id = txId
    · have hwas : s.txMgr.active txId = true := by
        rw [TxManager.active, ← hid, hsession]
        rfl
      rw [if_pos ⟨hid, hwas⟩]
      rw [if_pos hid] at hactive
      rw [hwas, Bool.toNat_true] at hended
      refine ⟨h.pos, h.begun, ?_, h.removed, h.applied, h.fresh, h.session_erase id, h.commit⟩
      rw [hactive, Bool.toNat_false]
      show l.rolledBack + 1 + l.removed + 0 = l.begun
      omega
    · rw [if_neg fun hnoted => hid hnoted.1]
      rw [if_neg hid] at hactive
      refine ⟨h.pos, h.begun, ?_, h.removed, h.applied, h.fresh, h.session_erase id, h.commit⟩
      rw [hactive]
      exact hended

theorem Balanced.remove (h : Balanced txId s l) {id : ℕ} {session : TxSession}
    (hsession : s.txMgr.sessions[id]? = some session) :
    Balanced txId
      (setCommit { s with txMgr := { s.txMgr with sessions := s.txMgr.sessions.erase id } } id
        ⟨session, .removed⟩) (l.note txId s (.remove id)) := by
  have hended := h.ended
  have hactive := active_erase s.txMgr id txId
  rw [Ledger.note]
  by_cases hid : id = txId
  · subst hid
    have hwas : s.txMgr.active id = true := by
      rw [TxManager.active, hsession]
      rfl
    have hremoved := h.removed
    have hbegun := h.begun
    have happlied := h.applied
    rw [if_pos rfl]
    rw [if_pos rfl] at hactive
    rw [hwas, Bool.toNat_true] at hended
    -- no commit has found this session before
    have hnone : s.commits id = none := by
      cases hcommit : s.commits id with
      | none => rfl
      | some c =>
        rw [hcommit, Option.isSome_some, Bool.toNat_true] at hremoved
        split at hbegun <;> omega
    rw [hnone, Option.isSome_none, Bool.toNat_false] at hremoved
    rw [hnone, Option.any_none, Bool.toNat_false] at happlied
    have hcommit := commits_setCommit
      { s with txMgr := { s.txMgr with sessions := s.txMgr.sessions.erase id } } id
      ⟨session, .removed⟩
    refine ⟨h.pos, hbegun, ?_, ?_, ?_, h.fresh, h.session_erase id, ?_⟩
    · show l.rolledBack + (l.removed + 1) + (TxManager.active
        { s.txMgr with sessions := s.txMgr.sessions.erase id } id).toNat = l.begun
      rw [hactive, Bool.toNat_false]
      omega
    · rw [hcommit, Option.isSome_some, Bool.toNat_true]
      show l.removed + 1 = 1
      omega
    · rw [hcommit]
      exact happlied
    · intro c hc
      rw [hcommit, Option.some_inj] at hc
      rw [← hc]
      exact h.session session hsession
  · rw [if_neg hid]
    rw [if_neg hid] at hactive
    have hcommit := commits_setCommit_of_ne
      { s with txMgr := { s.txMgr with sessions := s.txMgr.sessions.erase id } }
      ⟨session, .removed⟩ (Ne.symm hid)
    refine ⟨h.pos, h.begun, ?_, ?_, ?_, h.fresh, h.session_erase id, ?_⟩
    · show l.rolledBack + l.removed + (TxManager.active
        { s.txMgr with sessions := s.txMgr.sessions.erase id } txId).toNat = l.begun
      rw [hactive]
      exact hended
    · rw [hcommit]
      exact h.removed
    · rw [hcommit]
      exact h.applied
    · intro c hc
      rw [hcommit] at hc
      exact h.commit c hc

/-- A commit that goes on, from a phase to the next one. -/
theorem Balanced.setCommit (h : Balanced txId s l) {id : ℕ} {session : TxSession}
    {phase : CommitPhase} (hcommit : s.commits id = some ⟨session, phase⟩)
    (hphase : phase.applied = false) (phase' : CommitPhase) : Balanced txId (s.setCommit id ⟨session, phase'⟩)
      (if id = txId then { l with applied := l.applied + phase'.applied.toNat } else l) := by
  by_cases hid : id = txId
  · subst hid
    have hnew := commits_setCommit s id ⟨session, phase'⟩
    have happlied := h.applied
    rw [hcommit, Option.any_some, hphase, Bool.toNat_false] at happlied
    rw [if_pos rfl]
    refine ⟨h.pos, h.begun, h.ended, ?_, ?_, h.fresh, h.session, ?_⟩
    · have hremoved := h.removed
      rw [hcommit] at hremoved
      rw [hnew]
      exact hremoved
    · rw [hnew, Option.any_some]
      show l.applied + phase'.applied.toNat = phase'.applied.toNat
      omega
    · intro c hc
      rw [hnew, Option.some_inj] at hc
      rw [← hc]
      exact h.commit ⟨session, phase⟩ hcommit
  · have hold := commits_setCommit_of_ne s ⟨session, phase'⟩ (Ne.symm hid)
    rw [if_neg hid]
    refine ⟨h.pos, h.begun, h.ended, ?_, ?_, h.fresh, h.session, ?_⟩
    · rw [hold]
      exact h.removed
    · rw [hold]
      exact h.applied
    · intro c hc
      rw [hold] at hc
      exact h.commit c hc

/-- One critical section keeps the books. -/
theorem Balanced.step [Codec] {s' : Server} {a : TxAct} (h : Balanced txId s l)
    (hstep : s.step a = some s') : Balanced txId s' (l.note txId s a) := by
  cases a with
  | begin isolation =>
    obtain rfl := Option.some_inj.mp hstep
    exact h.begin isolation
  | txGet id key =>
    obtain rfl := Option.some_inj.mp hstep
    rw [UmpHandler.txGet]
    split
    · have hget : ∀ session : TxSession,
          (session.get (scopeKey 0 key)).2.writeBuffer = session.writeBuffer ++ [] := by
        intro session
        rw [List.append_nil, TxSession.get]
        split
        · rfl
        · show (if session.isolation = .serializable then
            { session with readSet := session.readSet ++ [scopeKey 0 key] } else session).writeBuffer = _
          split <;> rfl
      have hupdate := h.update id hget
      rw [List.append_nil, ite_self] at hupdate
      exact hupdate
    · exact h.engine _
  | txPut id key value =>
    obtain rfl := Option.some_inj.mp hstep
    exact h.update id fun _ => rfl
  | txDelete id key =>
    obtain rfl := Option.some_inj.mp hstep
    exact h.update id fun _ => rfl
  | rollback id =>
    obtain rfl := Option.some_inj.mp hstep
    exact h.rollback id
  | remove id =>
    rw [Server.step, Option.map_eq_some_iff] at hstep
    obtain ⟨⟨session, txMgr⟩, hremove, rfl⟩ := hstep
    obtain ⟨hsession, rfl⟩ := TxManager.remove_eq_some hremove
    exact h.remove hsession
  | validate id =>
    rw [Server.step, Option.bind_eq_some_iff] at hstep
    obtain ⟨⟨session, phase⟩, hcommit, hstep⟩ := hstep
    cases phase with
    | removed =>
      obtain rfl := Option.some_inj.mp hstep
      have hset := h.setCommit hcommit rfl (validation s.engine.state session)
      rw [CommitPhase.applied_validation, Bool.toNat_false, Nat.add_zero, ite_self] at hset
      exact hset
    | validated => exact absurd hstep (by simp)
    | finished result => exact absurd hstep (by simp)
  | apply id =>
    obtain ⟨session, hcommit, rfl⟩ := eq_of_step_apply hstep
    have hset := (h.engine (finalState (applyBuffer session.writeBuffer s.engine))).setCommit
      hcommit rfl
      (.finished (Server.applied session (applyBuffer session.writeBuffer s.engine)))
    rw [CommitPhase.applied_finished, Bool.toNat_true] at hset
    exact hset
  | put key value =>
    obtain rfl := Option.some_inj.mp hstep
    exact h.engine _
  | delete key =>
    obtain rfl := Option.some_inj.mp hstep
    exact h.engine _

end

/-! ### Runs -/

theorem balanced_run [Codec] {e : Engine} {txId : ℕ} {acts : List TxAct} {s : Server} {l : Ledger}
    (hrun : acts.foldlM (accounted txId) (new e, Ledger.new) = some (s, l)) :
    Balanced txId s l := by
  refine foldlM_induction hrun (P := fun p => Balanced txId p.1 p.2) (balanced_new txId e) ?_
  intro a _ p p' hp hstep
  rw [accounted, Option.map_eq_some_iff] at hstep
  obtain ⟨s', hs', rfl⟩ := hstep
  exact hp.step hs'

/-- **The books balance**: over any interleaving of critical sections, an id is given out at
most once, its session ends by one rollback or by one commit, or it is still active; a commit
applies its writes at most once, not at all after a conflict, and what it applies is what the
client has buffered, in that order. -/
theorem ledger_balances [Codec] {e : Engine} {txId : ℕ} {acts : List TxAct} {s : Server}
    {l : Ledger} (hrun : acts.foldlM (accounted txId) (new e, Ledger.new) = some (s, l)) :
    l.begun ≤ 1 ∧
    l.rolledBack + l.removed + (if s.txStatus txId = "active" then 1 else 0) = l.begun ∧
    l.applied ≤ l.removed ∧
    (∀ session key, s.commits txId = some ⟨session, .finished (.error (.conflict key))⟩ →
      l.applied = 0) ∧
    (0 < l.removed → s.writes (.apply txId) = l.buffered) := by
  have h := balanced_run hrun
  have hbegun := h.begun
  have hended := h.ended
  have hremoved := h.removed
  have happlied := h.applied
  refine ⟨?_, ?_, ?_, ?_, ?_⟩
  · split at hbegun <;> omega
  -- a session that has begun is still there, or it has been taken out once
  · rw [UmpHandler.txStatus]
    cases hactive : s.txMgr.active txId with
    | true =>
      rw [hactive, Bool.toNat_true] at hended
      rw [if_pos rfl, if_pos rfl]
      exact hended
    | false =>
      rw [hactive, Bool.toNat_false] at hended
      rw [if_neg Bool.false_ne_true, if_neg (by decide)]
      exact hended
  -- what is applied was removed by the same commit
  · cases hcommit : s.commits txId with
    | none =>
      rw [hcommit, Option.any_none, Bool.toNat_false] at happlied
      omega
    | some c =>
      rw [hcommit, Option.isSome_some, Bool.toNat_true] at hremoved
      rw [hremoved, happlied]
      exact Bool.toNat_le _
  · intro session key hcommit
    rw [happlied, hcommit]
    rfl
  · intro hpos
    cases hcommit : s.commits txId with
    | none =>
      rw [hcommit, Option.isSome_none, Bool.toNat_false] at hremoved
      omega
    | some c =>
      rw [writes, hcommit]
      exact h.commit c hcommit

/-- Two transactions; the second one ends before the first one has written, and neither of them
buffers a write after its end. -/
def commitAndRollback : List TxAct :=
  [.begin 3, .begin 2, .txPut 1 [97] [1], .txPut 2 [97] [9], .txDelete 1 [98], .remove 1,
    .txPut 1 [99] [2], .validate 1, .rollback 2, .put [97] [7], .apply 1, .rollback 1]

theorem ledger_balances_commit : ∃ e s, (commitAndRollback.foldlM (@accounted storedCodec 1)
      (new e, Ledger.new))
        = some (s, ⟨1, 0, 1, 1, [.put (scopeKey 0 [97]) [1], .delete (scopeKey 0 [98])]⟩) ∧
    s.writes (.apply 1) = [.put (scopeKey 0 [97]) [1], .delete (scopeKey 0 [98])] := by
  have hrun : ((@Engine.openRun storedCodec 1000 ∅ none []).bind fun e =>
      (commitAndRollback.foldlM (@accounted storedCodec 1) (new e, Ledger.new)).map Prod.snd)
      = some ⟨1, 0, 1, 1, [.put (scopeKey 0 [97]) [1], .delete (scopeKey 0 [98])]⟩ := by
    decide +kernel
  obtain ⟨e, -, hmap⟩ := Option.bind_eq_some_iff.mp hrun
  obtain ⟨⟨s, l⟩, hacts, rfl⟩ := Option.map_eq_some_iff.mp hmap
  obtain ⟨-, -, -, -, hwrites⟩ := @ledger_balances storedCodec e 1 _ s _ hacts
  exact ⟨e, s, hacts, hwrites Nat.one_pos⟩

end Server

end Uldb
