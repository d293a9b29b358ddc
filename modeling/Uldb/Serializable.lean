/-
Commits of Serializable sessions among other clients (`UmpHandler::commit_tx`).

The server runs one thread per connection, and a commit gives up its locks twice:
after it has removed its session, and after it has validated its read set.
`Server.step` is one critical section, so that other clients can come in between.

* `commitTx_steps` — without other clients, the sections are `commitTx`;
* `Checked.step` — a validated commit finds the values of its snapshot, as long as
  no act writes to a key that it has read;
* `commit_serializable` — then two transactions that overlap, each of which reads a
  key that the other one writes, do not both commit, as long as no act writes a value
  of a snapshot;
* `write_skew` — two commits that validate before either of them writes.
-/
import Uldb.Server
import Uldb.Replay
import Uldb.StoredCodec

namespace Uldb

open Fallible

/-- Where a commit stands between its critical sections. -/
inductive CommitPhase where
  | removed
  | validated
  | finished (result : Except CommitError ℕ)

/-- A call of `commit_tx` that has removed its session. -/
structure Commit where
  session : TxSession
  phase : CommitPhase

namespace Commit

/-- The session, until the commit has an outcome. -/
def pending (c : Commit) : List TxSession :=
  match c.phase with
  | .finished _ => []
  | _ => [c.session]

/-- The session, between the validation and the writes. -/
def validated (c : Commit) : List TxSession :=
  match c.phase with
  | .validated => [c.session]
  | _ => []

theorem eq_of_mem_pending {c : Commit} {session : TxSession} (h : session ∈ c.pending) :
    session = c.session := by
  rw [pending] at h
  split at h
  · exact absurd h List.not_mem_nil
  · exact List.mem_singleton.mp h

end Commit

/-- The handler, and the commits in progress or done, by transaction. -/
structure Server extends UmpHandler where
  commits : ℕ → Option Commit

/-- One critical section of a client. -/
inductive TxAct where
  | begin (isolation : UInt8)
  | txGet (txId : ℕ) (key : Bytes)
  | txPut (txId : ℕ) (key value : Bytes)
  | txDelete (txId : ℕ) (key : Bytes)
  | rollback (txId : ℕ)
  | remove (txId : ℕ)
  | validate (txId : ℕ)
  | apply (txId : ℕ)
  | put (key value : Bytes)
  | delete (key : Bytes)
  deriving DecidableEq

namespace Server

def new (e : Engine) : Server := ⟨⟨e, TxManager.new⟩, fun _ => none⟩

def setCommit (s : Server) (txId : ℕ) (c : Commit) : Server :=
  { s with commits := Function.update s.commits txId (some c) }

/-- The phase after the validation of a read set. -/
def validation (state : Hamt) (session : TxSession) : CommitPhase :=
  match conflict state session with
  | some key => .finished (.error (.conflict key))
  | none => .validated

/-- The result of the application of a write buffer. -/
def applied (session : TxSession) : EStateM.Result Failure Engine Unit → Except CommitError ℕ
  | .ok _ _ => .ok session.writeBuffer.length
  | .error failure _ => .error (.write failure)

/-- One critical section; none where the client is not there. -/
def step [Codec] (s : Server) : TxAct → Option Server
  | .begin isolation => some { s with toUmpHandler := (s.beginTx isolation).2 }
  | .txGet txId key => some { s with toUmpHandler := (s.txGet txId key).2 }
  | .txPut txId key value => some { s with toUmpHandler := s.txPut txId key value }
  | .txDelete txId key => some { s with toUmpHandler := s.txDelete txId key }
  | .rollback txId => some { s with toUmpHandler := s.rollbackTx txId }
  | .remove txId => (s.txMgr.remove txId).map fun sm =>
    setCommit { s with txMgr := sm.2 } txId ⟨sm.1, .removed⟩
  | .validate txId => (s.commits txId).bind fun c =>
    match c.phase with
    | .removed => some (s.setCommit txId ⟨c.session, validation s.engine.state c.session⟩)
    | _ => none
  | .apply txId => (s.commits txId).bind fun c =>
    match c.phase with
    | .validated =>
      let result := applyBuffer c.session.writeBuffer s.engine
      some (setCommit { s with engine := finalState result } txId
        ⟨c.session, .finished (applied c.session result)⟩)
    | _ => none
  | .put key value => some { s with engine := finalState (Engine.put (scopeKey 0 key) value s.engine) }
  | .delete key => some { s with engine := finalState (Engine.delete (scopeKey 0 key) s.engine) }

/-- What an act writes to the engine. -/
def writes (s : Server) : TxAct → List TxOp
  | .apply txId => (s.commits txId).elim [] fun c => c.session.writeBuffer
  | .put key value => [.put (scopeKey 0 key) value]
  | .delete key => [.delete (scopeKey 0 key)]
  | _ => []

/-- The sessions of a transaction between its begin and its outcome. -/
def running (s : Server) (txId : ℕ) : List TxSession :=
  s.txMgr.sessions[txId]?.toList ++ (s.commits txId).elim [] Commit.pending

/-- The sessions of a transaction between its validation and its writes. -/
def validated (s : Server) (txId : ℕ) : List TxSession :=
  (s.commits txId).elim [] Commit.validated

/-! ### One client -/

theorem commits_setCommit (s : Server) (txId : ℕ) (c : Commit) :
    (s.setCommit txId c).commits txId = some c := by
  show Function.update s.commits txId (some c) txId = some c
  rw [Function.update_self]

theorem commits_setCommit_of_ne (s : Server) {txId txId' : ℕ} (c : Commit) (h : txId' ≠ txId) :
    (s.setCommit txId c).commits txId' = s.commits txId' := by
  show Function.update s.commits txId (some c) txId' = s.commits txId'
  rw [Function.update_of_ne h]

theorem eq_or_of_setCommit {s : Server} {txId txId' : ℕ} {c c' : Commit}
    (h : (s.setCommit txId c).commits txId' = some c') :
    (txId' = txId ∧ c' = c) ∨ (txId' ≠ txId ∧ s.commits txId' = some c') := by
  by_cases heq : txId' = txId
  · rw [heq, commits_setCommit, Option.some_inj] at h
    exact .inl ⟨heq, h.symm⟩
  · rw [commits_setCommit_of_ne _ _ heq] at h
    exact .inr ⟨heq, h⟩

/-- The critical sections of a commit, in terms of what they find. -/
theorem step_remove [Codec] {s : Server} {txId : ℕ} {session : TxSession} {txMgr : TxManager}
    (h : s.txMgr.remove txId = some (session, txMgr)) :
    s.step (.remove txId)
      = some (setCommit { s with txMgr := txMgr } txId ⟨session, .removed⟩) := by
  rw [step, h]
  rfl

theorem step_validate [Codec] {s : Server} {txId : ℕ} {session : TxSession}
    (h : s.commits txId = some ⟨session, .removed⟩) :
    s.step (.validate txId)
      = some (s.setCommit txId ⟨session, validation s.engine.state session⟩) := by
  rw [step, h]
  rfl

theorem step_apply [Codec] {s : Server} {txId : ℕ} {session : TxSession}
    (h : s.commits txId = some ⟨session, .validated⟩) :
    s.step (.apply txId)
      = some (setCommit { s with engine := finalState (applyBuffer session.writeBuffer s.engine) }
        txId ⟨session, .finished (applied session (applyBuffer session.writeBuffer s.engine))⟩) := by
  rw [step, h]
  rfl

/-- Without other clients, the critical sections of a commit are `commitTx`. -/
theorem commitTx_steps [Codec] {s : Server} {txId : ℕ} {session : TxSession} {txMgr : TxManager}
    (h : s.txMgr.remove txId = some (session, txMgr)) :
    ∃ acts s', (acts = [.remove txId, .validate txId] ∨
        acts = [.remove txId, .validate txId, .apply txId]) ∧
      acts.foldlM step s = some s' ∧ s'.toUmpHandler = (s.commitTx txId).2 ∧
      s'.commits txId = some ⟨session, .finished (s.commitTx txId).1⟩ := by
  set s₁ := setCommit { s with txMgr := txMgr } txId ⟨session, .removed⟩ with hs₁
  have hremove : s.step (.remove txId) = some s₁ := step_remove h
  -- with a conflict the commit ends there, and otherwise it is applied
  have hvalidate := step_validate (s := s₁) (commits_setCommit _ txId _)
  cases hconflict : conflict s.engine.state session with
  | some key =>
    have hphase : validation s₁.engine.state session = .finished (.error (.conflict key)) := by
      rw [validation, show s₁.engine.state = s.engine.state from rfl, hconflict]
    have hcommit : s.commitTx txId
        = (.error (.conflict key), { s.toUmpHandler with txMgr := txMgr }) := by
      simp only [UmpHandler.commitTx, h, hconflict]
    rw [hphase] at hvalidate
    refine ⟨_, s₁.setCommit txId ⟨session, .finished (.error (.conflict key))⟩, .inl rfl,
      ?_, ?_, ?_⟩
    · simp only [List.foldlM_cons, Option.bind_eq_bind, hremove, Option.bind_some, hvalidate,
        List.foldlM_nil]
      rfl
    · rw [hcommit]
      rfl
    · rw [hcommit]
      exact commits_setCommit _ txId _
  | none =>
    have hphase : validation s₁.engine.state session = .validated := by
      rw [validation, show s₁.engine.state = s.engine.state from rfl, hconflict]
    rw [hphase] at hvalidate
    set s₂ := s₁.setCommit txId ⟨session, .validated⟩ with hs₂
    have happly := step_apply (s := s₂) (commits_setCommit _ txId _)
    refine ⟨_, setCommit
      { s₂ with engine := finalState (applyBuffer session.writeBuffer s₂.engine) } txId
      ⟨session, .finished (applied session (applyBuffer session.writeBuffer s₂.engine))⟩,
      .inr rfl, ?_, ?_, ?_⟩
    · simp only [List.foldlM_cons, Option.bind_eq_bind, hremove, Option.bind_some, hvalidate,
        happly, List.foldlM_nil]
      rfl
    · simp only [UmpHandler.commitTx, h, hconflict]
      show UmpHandler.mk (finalState (applyBuffer session.writeBuffer s.engine)) txMgr = _
      cases applyBuffer session.writeBuffer s.engine <;> rfl
    · rw [commits_setCommit]
      simp only [UmpHandler.commitTx, h, hconflict]
      show some (Commit.mk session (.finished (applied session
        (applyBuffer session.writeBuffer s.engine)))) = _
      cases applyBuffer session.writeBuffer s.engine <;> rfl

/-! ### What one act can do -/

end Server

namespace TxSession

/-- The second session is the first one after some of its requests. -/
def Continues (s s' : TxSession) : Prop := s'.isolation = s.isolation ∧ s'.snapshot = s.snapshot

theorem Continues.refl (s : TxSession) : s.Continues s := ⟨rfl, rfl⟩

theorem continues_get (s : TxSession) (key : Bytes) : s.Continues (s.get key).2 := by
  rw [get]
  split
  · exact .refl s
  · show s.Continues (if s.isolation = .serializable then { s with readSet := s.readSet ++ [key] }
      else s)
    by_cases hs : s.isolation = .serializable
    · rw [if_pos hs]
      exact ⟨rfl, rfl⟩
    · rw [if_neg hs]
      exact .refl s

theorem get_snapshot (s : TxSession) (key : Bytes) : (s.get key).2.snapshot = s.snapshot :=
  (s.continues_get key).2

end TxSession

namespace TxManager

/-- The sessions afterwards are new, or they continue earlier ones. -/
structure Moved (m m' : TxManager) : Prop where
  nextId_le : m.nextId ≤ m'.nextId
  sessions : ∀ txId session', m'.sessions[txId]? = some session' →
    (m.nextId ≤ txId ∧ txId < m'.nextId) ∨
    ∃ session, m.sessions[txId]? = some session ∧ session.Continues session'

theorem Moved.refl (m : TxManager) : Moved m m :=
  ⟨le_rfl, fun _ session h => .inr ⟨session, h, .refl session⟩⟩

theorem moved_begin (m : TxManager) (isolation : TxIsolation) (snapshot : Hamt) :
    Moved m (m.begin isolation snapshot).2 := by
  refine ⟨Nat.le_succ _, fun txId session' h => ?_⟩
  have hget : (m.sessions.insert m.nextId ⟨m.nextId, isolation, snapshot, [], [], m.nextTs⟩)[txId]?
    = some session' := h
  rw [Std.TreeMap.getElem?_insert] at hget
  by_cases heq : compare m.nextId txId = .eq
  · obtain rfl : m.nextId = txId := Std.LawfulEqCmp.eq_of_compare heq
    exact .inl ⟨le_rfl, Nat.lt_succ_self _⟩
  · rw [if_neg heq] at hget
    exact .inr ⟨session', hget, .refl session'⟩

theorem moved_erase (m : TxManager) (txId : ℕ) :
    Moved m { m with sessions := m.sessions.erase txId } := by
  refine ⟨le_rfl, fun txId' session' h => .inr ⟨session', ?_, .refl session'⟩⟩
  have hget : (m.sessions.erase txId)[txId']? = some session' := h
  rw [Std.TreeMap.getElem?_erase] at hget
  by_cases heq : compare txId txId' = .eq
  · rw [if_pos heq] at hget
    exact absurd hget (by simp)
  · rw [if_neg heq] at hget
    exact hget

theorem moved_update (m : TxManager) (txId : ℕ) {f : TxSession → TxSession}
    (hf : ∀ session : TxSession, session.Continues (f session)) : Moved m (m.update txId f) := by
  rw [update]
  split
  · rename_i session hsession
    refine ⟨le_rfl, fun txId' session' h => .inr ?_⟩
    have hget : (m.sessions.insert txId (f session))[txId']? = some session' := h
    rw [Std.TreeMap.getElem?_insert] at hget
    by_cases heq : compare txId txId' = .eq
    · obtain rfl : txId = txId' := Std.LawfulEqCmp.eq_of_compare heq
      rw [if_pos heq, Option.some_inj] at hget
      exact ⟨session, hsession, hget ▸ hf session⟩
    · rw [if_neg heq] at hget
      exact ⟨session', hget, .refl session'⟩
  · exact Moved.refl m

theorem remove_eq_some {m m' : TxManager} {txId : ℕ} {session : TxSession}
    (h : m.remove txId = some (session, m')) :
    m.sessions[txId]? = some session ∧ m' = { m with sessions := m.sessions.erase txId } := by
  rw [remove, Option.map_eq_some_iff] at h
  obtain ⟨session', hget, heq⟩ := h
  rw [Prod.mk.injEq] at heq
  exact ⟨heq.1 ▸ hget, heq.2.symm⟩

end TxManager

namespace Server

/-- What an act can do to the server. -/
inductive Effect [Codec] (s : Server) : TxAct → Server → Prop
  | sessions {a : TxAct} {engine : Engine} {txMgr : TxManager} (hact : ∀ txId, a ≠ .apply txId)
      (hwrites : s.writes a = [])
      (hstate : engine.state = s.engine.state) (hmoved : s.txMgr.Moved txMgr) :
      Effect s a { s with engine := engine, txMgr := txMgr }
  | remove {txId : ℕ} {session : TxSession} (h : s.txMgr.sessions[txId]? = some session) :
      Effect s (.remove txId)
        (setCommit { s with txMgr := { s.txMgr with sessions := s.txMgr.sessions.erase txId } } txId
          ⟨session, .removed⟩)
  | validate {txId : ℕ} {session : TxSession} (h : s.commits txId = some ⟨session, .removed⟩) :
      Effect s (.validate txId)
        (s.setCommit txId ⟨session, validation s.engine.state session⟩)
  | apply {txId : ℕ} {session : TxSession} (h : s.commits txId = some ⟨session, .validated⟩) :
      Effect s (.apply txId)
        (setCommit { s with engine := finalState (applyBuffer session.writeBuffer s.engine) }
          txId ⟨session, .finished (applied session (applyBuffer session.writeBuffer s.engine))⟩)
  | write {a : TxAct} (op : TxOp) (hact : ∀ txId, a ≠ .apply txId) (hwrites : s.writes a = [op]) :
      Effect s a { s with engine := finalState (Engine.exec op.call s.engine) }

variable [Codec] {s s' : Server} {a : TxAct}

theorem eq_of_step_apply {txId : ℕ} (h : s.step (.apply txId) = some s') :
    ∃ session, s.commits txId = some ⟨session, .validated⟩ ∧
      s' = setCommit { s with engine := finalState (applyBuffer session.writeBuffer s.engine) }
        txId ⟨session, .finished (applied session (applyBuffer session.writeBuffer s.engine))⟩ := by
  rw [step, Option.bind_eq_some_iff] at h
  obtain ⟨⟨session, phase⟩, hcommit, h⟩ := h
  cases phase with
  | validated => exact ⟨session, hcommit, (Option.some_inj.mp h).symm⟩
  | removed => exact absurd h (by simp)
  | finished result => exact absurd h (by simp)

theorem effect_of_step (h : s.step a = some s') : Effect s a s' := by
  have hget : ∀ key, (s.engine.get key).2.state = s.engine.state := by
    intro key
    obtain ⟨cache, heq⟩ := Engine.get_frame s.engine key
    rw [heq]
  cases a with
  | begin isolation =>
    obtain rfl := Option.some_inj.mp h
    exact .sessions (by simp) rfl rfl (s.txMgr.moved_begin _ _)
  | txGet txId key =>
    obtain rfl := Option.some_inj.mp h
    rw [UmpHandler.txGet]
    split
    · exact .sessions (by simp) rfl rfl (s.txMgr.moved_update txId fun session =>
        session.continues_get (scopeKey 0 key))
    · exact .sessions (by simp) rfl (hget _) (TxManager.Moved.refl _)
  | txPut txId key value =>
    obtain rfl := Option.some_inj.mp h
    exact .sessions (by simp) rfl rfl (s.txMgr.moved_update txId fun _ => ⟨rfl, rfl⟩)
  | txDelete txId key =>
    obtain rfl := Option.some_inj.mp h
    exact .sessions (by simp) rfl rfl (s.txMgr.moved_update txId fun _ => ⟨rfl, rfl⟩)
  | rollback txId =>
    obtain rfl := Option.some_inj.mp h
    rw [UmpHandler.rollbackTx]
    split
    · exact .sessions (by simp) rfl rfl (TxManager.Moved.refl _)
    · rename_i session txMgr hremove
      obtain ⟨_, rfl⟩ := TxManager.remove_eq_some hremove
      exact .sessions (by simp) rfl rfl (s.txMgr.moved_erase txId)
  -- the three critical sections of a commit
  | remove txId =>
    rw [step, Option.map_eq_some_iff] at h
    obtain ⟨⟨session, txMgr⟩, hremove, rfl⟩ := h
    obtain ⟨hsession, rfl⟩ := TxManager.remove_eq_some hremove
    exact .remove hsession
  | validate txId =>
    rw [step, Option.bind_eq_some_iff] at h
    obtain ⟨⟨session, phase⟩, hcommit, h⟩ := h
    cases phase with
    | removed =>
      obtain rfl := Option.some_inj.mp h
      exact .validate hcommit
    | validated => exact absurd h (by simp)
    | finished result => exact absurd h (by simp)
  | apply txId =>
    obtain ⟨session, hcommit, rfl⟩ := eq_of_step_apply h
    exact .apply hcommit
  | put key value =>
    obtain rfl := Option.some_inj.mp h
    exact .write (.put (scopeKey 0 key) value) (by simp) rfl
  | delete key =>
    obtain rfl := Option.some_inj.mp h
    exact .write (.delete (scopeKey 0 key)) (by simp) rfl

end Server

/-! ### The live values -/

namespace Engine

/-- The trie has the value `v` for the key, or a value that one of the operations writes. -/
def Among (k : Bytes) (v : Option Bytes) (ops : List TxOp) (e : Engine) : Prop :=
  e.state.get k = v ∨ ∃ op ∈ ops, op.key = k ∧ e.state.get k = op.value

variable [Codec] {k : Bytes} {v : Option Bytes} {ops : List TxOp} {e e' : Engine}

theorem among_storageInv :
    StorageInv (fun key value => ∃ op ∈ ops, op.key = key ∧ value = op.value) (Among k v ops) where
  write he _ := he
  put {e key value state} he hkey hput := by
    obtain ⟨op, hop, hopkey, hvalue⟩ := hkey
    show state.get k = v ∨ ∃ op ∈ ops, op.key = k ∧ state.get k = op.value
    rw [Hamt.get_put hput]
    by_cases hk : k = key
    · rw [if_pos hk]
      exact .inr ⟨op, hop, hopkey.trans hk.symm, hvalue⟩
    · rw [if_neg hk]
      exact he
  delete {e key} he hkey := by
    obtain ⟨op, hop, hopkey, hvalue⟩ := hkey
    show (e.state.delete key).get k = v ∨
      ∃ op ∈ ops, op.key = k ∧ (e.state.delete key).get k = op.value
    rw [Hamt.get_delete]
    by_cases hk : k = key
    · rw [if_pos hk]
      exact .inr ⟨op, hop, hopkey.trans hk.symm, hvalue⟩
    · rw [if_neg hk]
      exact he
  flushed he := he
  dropped he _ := he
  other _ _ _ _ _ he := he
  wal _ he := he
  work he := he

theorem Among.exec {op : TxOp} (hop : op ∈ ops) : Keeps (Among k v ops) (exec op.call) := by
  cases op with
  | put key value =>
    refine exec_storage among_storageInv rfl rfl fun k' v' hw => ?_
    exact ⟨_, hop, hw.1, hw.2.symm⟩
  | delete key =>
    refine exec_storage among_storageInv rfl rfl fun k' v' hw => ?_
    exact ⟨_, hop, hw.1, hw.2.symm⟩

theorem Among.applyBuffer : Keeps (Among k v ops) (applyBuffer ops) := by
  refine Keeps.forM fun op hop => ?_
  have hexec : Keeps (Among k v ops) (Engine.exec op.call) := Among.exec hop
  cases op with
  | put key value => exact Keeps.mapError hexec
  | delete key => exact Keeps.mapError hexec

/-- A write that succeeds is in the trie. -/
theorem state_exec {op : TxOp} {u : Unit} (h : exec op.call e = .ok u e') :
    e'.state.get op.key = op.value := by
  have hflush : ∀ {c : Prop} [Decidable c] {v : Option Bytes}, Keeps (Among op.key v [])
      (ifThen c flushMemtable) := Keeps.ifThen among_storageInv.flushMemtable
  have hnil : ∀ {e : Engine} {v : Option Bytes}, e.Among op.key v [] → e.state.get op.key = v := by
    rintro e v (h | ⟨_, hop, _⟩)
    · exact h
    · exact absurd hop List.not_mem_nil
  cases op with
  | put key value =>
    simp only [TxOp.call, exec, put, bind_eq_ok] at h
    obtain ⟨_, _, _, _, _, _, _, _, _, _, _, _, _, _, _, _, _, _, _, e₂, hstate, h⟩ := h
    obtain ⟨state, hput, rfl⟩ := statePut_eq_ok hstate
    refine hnil (hflush.of_ok h (.inl ?_))
    show state.get key = some value
    rw [Hamt.get_put hput, if_pos rfl]
  | delete key =>
    simp only [TxOp.call, exec, delete, bind_eq_ok] at h
    obtain ⟨_, _, _, _, _, _, _, _, _, _, _, _, _, _, _, _, _, _, _, e₂, hstate, h⟩ := h
    obtain rfl := modify_eq_ok.mp hstate
    refine hnil (hflush.of_ok h (.inl ?_))
    show (Hamt.delete _ key).get key = none
    rw [Hamt.get_delete, if_pos rfl]

/-- A buffer that is applied without an error leaves one of its values at each of its keys. -/
theorem state_applyBuffer {u : Unit} (h : applyBuffer ops e = .ok u e')
    (hk : ∃ op ∈ ops, op.key = k) : ∃ op ∈ ops, op.key = k ∧ e'.state.get k = op.value := by
  rw [applyBuffer] at h
  induction ops generalizing e with
  | nil =>
    obtain ⟨op, hop, _⟩ := hk
    exact absurd hop List.not_mem_nil
  | cons op ops ih =>
    obtain ⟨e₁, hop, hops⟩ := forM_cons_eq_ok.mp h
    by_cases hrest : ∃ op ∈ ops, op.key = k
    · obtain ⟨op', hop', hval⟩ := ih hops hrest
      exact ⟨op', by simp [hop'], hval⟩
    · -- the first operation is the only one on the key
      obtain ⟨op', hop', hkey⟩ := hk
      rcases List.mem_cons.mp hop' with rfl | hop'
      · have hstate : e₁.state.get k = op'.value :=
          hkey ▸ state_exec (applyOp_eq_ok.mp hop)
        have hamong : e'.Among k op'.value ops := Among.applyBuffer.of_ok hops (.inl hstate)
        rcases hamong with hval | ⟨op'', hop'', hkey'', _⟩
        · exact ⟨op', by simp, hkey, hval⟩
        · exact absurd ⟨op'', hop'', hkey''⟩ hrest
      · exact absurd ⟨op', hop', hkey⟩ hrest

end Engine

namespace Server

section

variable [Codec] {s s' : Server} {a : TxAct}

/-- An act leaves a value alone, or it is a value that the act writes. -/
theorem Effect.state (h : Effect s a s') (k : Bytes) :
    s'.engine.state.get k = s.engine.state.get k ∨
      ∃ op ∈ s.writes a, op.key = k ∧ s'.engine.state.get k = op.value := by
  cases h with
  | sessions _ _ hstate _ =>
    left
    show Hamt.get _ k = _
    rw [hstate]
  | remove _ => exact .inl rfl
  | validate _ => exact .inl rfl
  | @apply txId session hcommit =>
    have hwrites : s.writes (.apply txId) = session.writeBuffer := by
      rw [writes, hcommit]
      rfl
    rw [hwrites]
    exact Engine.Among.applyBuffer s.engine (.inl rfl)
  | write op _ hwrites =>
    rw [hwrites]
    exact Engine.Among.exec (by simp) s.engine (.inl rfl)

/-! ### Sessions and commits -/

omit [Codec] in
theorem mem_running {txId : ℕ} {session : TxSession} : session ∈ s.running txId ↔
    s.txMgr.sessions[txId]? = some session ∨
      ∃ c, s.commits txId = some c ∧ session ∈ c.pending := by
  rw [running, List.mem_append, Option.mem_toList]
  cases s.commits txId with
  | none => simp
  | some c => simp

omit [Codec] in
theorem mem_validated {txId : ℕ} {session : TxSession} :
    session ∈ s.validated txId ↔ s.commits txId = some ⟨session, .validated⟩ := by
  rw [validated]
  cases s.commits txId with
  | none => simp
  | some c =>
    obtain ⟨session', phase⟩ := c
    cases phase with
    | validated => simp [Commit.validated, eq_comm]
    | removed => simp [Commit.validated]
    | finished result => simp [Commit.validated]

/-- A transaction has begun, and it has a session until its commit removes it. -/
structure Wf (s : Server) : Prop where
  sessions : ∀ txId session, s.txMgr.sessions[txId]? = some session → txId < s.txMgr.nextId
  commits : ∀ txId c, s.commits txId = some c →
    txId < s.txMgr.nextId ∧ s.txMgr.sessions[txId]? = none

omit [Codec] in
theorem wf_new (e : Engine) : Wf (new e) where
  sessions txId session h := by
    have hempty : (∅ : Std.TreeMap ℕ TxSession)[txId]? = some session := h
    exact absurd hempty (by simp)
  commits txId c h := absurd h (by simp [new])

omit [Codec] in
theorem Wf.lt_nextId (hs : s.Wf) {txId : ℕ} {session : TxSession} (h : session ∈ s.running txId) :
    txId < s.txMgr.nextId := by
  rcases mem_running.mp h with h | ⟨c, h, _⟩
  · exact hs.sessions txId session h
  · exact (hs.commits txId c h).1

omit [Codec] in
/-- A change of a commit that was there before. -/
theorem Wf.setCommit (hs : s.Wf) {txId : ℕ} {c c' : Commit} (h : s.commits txId = some c) :
    (s.setCommit txId c').Wf := by
  refine ⟨hs.sessions, fun txId' c'' h' => ?_⟩
  rcases eq_or_of_setCommit h' with ⟨rfl, _⟩ | ⟨_, hold⟩
  · exact hs.commits txId' c h
  · exact hs.commits txId' c'' hold

theorem Wf.step (hs : s.Wf) (h : Effect s a s') : s'.Wf := by
  have hengine : ∀ engine : Engine, Wf { s with engine := engine } := fun _ =>
    ⟨hs.sessions, hs.commits⟩
  cases h with
  | @sessions a engine txMgr _ _ _ hmoved =>
    refine ⟨fun txId session hsession => ?_, fun txId c hc => ?_⟩
    · rcases hmoved.sessions txId session hsession with ⟨_, hlt⟩ | ⟨session', hsession', _⟩
      · exact hlt
      · exact lt_of_lt_of_le (hs.sessions txId session' hsession') hmoved.nextId_le
    · obtain ⟨hlt, hnone⟩ := hs.commits txId c hc
      refine ⟨lt_of_lt_of_le hlt hmoved.nextId_le, ?_⟩
      -- a session of this transaction would have been there before
      by_contra hsome
      obtain ⟨session, hsession⟩ := Option.ne_none_iff_exists'.mp hsome
      rcases hmoved.sessions txId session hsession with ⟨hle, _⟩ | ⟨session', hsession', _⟩
      · omega
      · exact absurd (hnone.symm.trans hsession') (by simp)
  | @remove txId session hsession =>
    have herase := s.txMgr.moved_erase txId
    refine ⟨fun txId' session' h' => ?_, fun txId' c h' => ?_⟩
    · rcases herase.sessions txId' session' h' with ⟨hle, hlt⟩ | ⟨session'', h'', _⟩
      · exact hlt
      · exact hs.sessions txId' session'' h''
    · show txId' < s.txMgr.nextId ∧ (s.txMgr.sessions.erase txId)[txId']? = none
      rw [Std.TreeMap.getElem?_erase]
      rcases eq_or_of_setCommit h' with ⟨rfl, _⟩ | ⟨_, hold⟩
      · exact ⟨hs.sessions _ session hsession, if_pos Std.ReflCmp.compare_self⟩
      · obtain ⟨hlt, hnone⟩ := hs.commits txId' c hold
        rw [hnone]
        exact ⟨hlt, by simp⟩
  | validate hcommit => exact hs.setCommit hcommit
  | apply hcommit => exact (hengine _).setCommit hcommit
  | write op _ _ => exact hengine _

theorem Effect.nextId_le (h : Effect s a s') : s.txMgr.nextId ≤ s'.txMgr.nextId := by
  cases h with
  | sessions _ _ _ hmoved => exact hmoved.nextId_le
  | remove _ => exact le_rfl
  | validate _ => exact le_rfl
  | apply _ => exact le_rfl
  | write op _ _ => exact le_rfl

/-- A running transaction keeps its isolation and its snapshot, and its writes have not been
applied. -/
theorem Effect.running (hs : s.Wf) (h : Effect s a s') {txId : ℕ} (hlt : txId < s.txMgr.nextId)
    {session' : TxSession} (hrun : session' ∈ s'.running txId) :
    a ≠ .apply txId ∧ ∃ session ∈ s.running txId, session.Continues session' := by
  rw [mem_running] at hrun
  cases h with
  | sessions hact _ _ hmoved =>
    refine ⟨hact txId, ?_⟩
    rcases hrun with hsession | hcommit
    · rcases hmoved.sessions txId session' hsession with ⟨hle, _⟩ | ⟨session, hsession, hsnap⟩
      · omega
      · exact ⟨session, mem_running.mpr (.inl hsession), hsnap⟩
    · exact ⟨session', mem_running.mpr (.inr hcommit), .refl session'⟩
  | @remove txId₀ session hsession =>
    refine ⟨by simp, ?_⟩
    rcases hrun with hrest | ⟨c, hc, hpending⟩
    · rcases (s.txMgr.moved_erase txId₀).sessions txId session' hrest with ⟨hle, _⟩ | hrest
      · omega
      · obtain ⟨session'', hsession'', hsnap⟩ := hrest
        exact ⟨session'', mem_running.mpr (.inl hsession''), hsnap⟩
    · rcases eq_or_of_setCommit hc with ⟨rfl, rfl⟩ | ⟨_, hold⟩
      · rw [Commit.eq_of_mem_pending hpending]
        exact ⟨session, mem_running.mpr (.inl hsession), .refl session⟩
      · exact ⟨session', mem_running.mpr (.inr ⟨c, hold, hpending⟩), .refl session'⟩
  | @validate txId₀ session hcommit =>
    refine ⟨by simp, session', mem_running.mpr ?_, .refl session'⟩
    rcases hrun with hsession | ⟨c, hc, hpending⟩
    · exact .inl hsession
    · rcases eq_or_of_setCommit hc with ⟨rfl, rfl⟩ | ⟨_, hold⟩
      · rw [Commit.eq_of_mem_pending hpending]
        exact .inr ⟨_, hcommit, List.mem_singleton_self session⟩
      · exact .inr ⟨c, hold, hpending⟩
  | @apply txId₀ session hcommit =>
    rcases hrun with hsession | ⟨c, hc, hpending⟩
    · -- a transaction that is applied has no session any more
      refine ⟨fun heq => ?_, session', mem_running.mpr (.inl hsession), .refl session'⟩
      obtain rfl : txId₀ = txId := TxAct.apply.inj heq
      exact absurd ((hs.commits txId₀ _ hcommit).2.symm.trans hsession) (by simp)
    · rcases eq_or_of_setCommit hc with ⟨rfl, rfl⟩ | ⟨hne, hold⟩
      · exact absurd hpending List.not_mem_nil
      · refine ⟨fun heq => hne (TxAct.apply.inj heq).symm, session', ?_, ⟨rfl, rfl⟩⟩
        exact mem_running.mpr (.inr ⟨c, hold, hpending⟩)
  | write op hact _ => exact ⟨hact txId, session', mem_running.mpr hrun, .refl session'⟩

/-- A validated commit has been so before, or it has found the values of its snapshot. -/
theorem Effect.validated (h : Effect s a s') {txId : ℕ} {session : TxSession}
    (hv : session ∈ s'.validated txId) :
    (a ≠ .apply txId ∧ session ∈ s.validated txId) ∨
      (s.writes a = [] ∧ conflict s.engine.state session = none) := by
  rw [mem_validated] at hv ⊢
  cases h with
  | sessions hact _ _ _ => exact .inl ⟨hact txId, hv⟩
  | @remove txId₀ session₀ _ =>
    rcases eq_or_of_setCommit hv with ⟨_, heq⟩ | ⟨_, hold⟩
    · exact absurd heq (by simp)
    · exact .inl ⟨by simp, hold⟩
  | @validate txId₀ session₀ _ =>
    rcases eq_or_of_setCommit hv with ⟨_, heq⟩ | ⟨_, hold⟩
    · rw [Commit.mk.injEq] at heq
      obtain ⟨rfl, hphase⟩ := heq
      refine .inr ⟨rfl, ?_⟩
      rw [validation] at hphase
      split at hphase
      · exact absurd hphase (by simp)
      · assumption
    · exact .inl ⟨by simp, hold⟩
  | @apply txId₀ session₀ _ =>
    rcases eq_or_of_setCommit hv with ⟨_, heq⟩ | ⟨hne, hold⟩
    · exact absurd heq (by simp)
    · exact .inl ⟨fun heq => hne (TxAct.apply.inj heq).symm, hold⟩
  | write op hact _ => exact .inl ⟨hact txId, hv⟩

end

/-! ### Undisturbed commits -/

/-- The write is to no key that the Serializable session has read, unless it writes the
value that the session has read. -/
def Spares (op : TxOp) (session : TxSession) : Prop :=
  session.isolation = .serializable → op.key ∈ session.readSet →
    op.value = session.snapshot.get op.key

instance (op : TxOp) (session : TxSession) : Decidable (Spares op session) :=
  inferInstanceAs (Decidable (_ → _ → _))

/-- The act spares what the validated commits of other transactions have read. -/
def Undisturbed (s : Server) (a : TxAct) : Prop :=
  ∀ txId < s.txMgr.nextId, a ≠ .apply txId → ∀ session ∈ s.validated txId, ∀ op ∈ s.writes a,
    Spares op session

/-- The act writes to no key the value that the snapshot of another running Serializable
transaction has for it.  The transaction may have read the key already, or read it later. -/
def Fresh (s : Server) (a : TxAct) : Prop :=
  ∀ txId < s.txMgr.nextId, a ≠ .apply txId → ∀ session ∈ s.running txId, ∀ op ∈ s.writes a,
    session.isolation = .serializable → op.value ≠ session.snapshot.get op.key

/-- Both conditions. -/
def Calm (s : Server) (a : TxAct) : Prop := Undisturbed s a ∧ Fresh s a

instance (s : Server) (a : TxAct) : Decidable (Undisturbed s a) :=
  inferInstanceAs (Decidable (∀ txId < s.txMgr.nextId, _))

instance (s : Server) (a : TxAct) : Decidable (Fresh s a) :=
  inferInstanceAs (Decidable (∀ txId < s.txMgr.nextId, _))

instance (s : Server) (a : TxAct) : Decidable (Calm s a) :=
  inferInstanceAs (Decidable (_ ∧ _))

/-- The acts that meet a condition. -/
def stepIf [Codec] (P : Server → TxAct → Prop) [∀ s a, Decidable (P s a)] (s : Server)
    (a : TxAct) : Option Server :=
  if P s a then s.step a else none

/-- The commit has returned `Ok`. -/
def Committed (s : Server) (txId : ℕ) (session : TxSession) : Prop :=
  ∃ n, s.commits txId = some ⟨session, .finished (.ok n)⟩

/-- In every run, a Serializable commit that returns `Ok` has found the values of its
snapshot in the live trie, for all keys it had read, when it began to write. -/
def ReadsHold (next : Server → TxAct → Option Server) (e : Engine) : Prop :=
  ∀ (acts : List TxAct) (s s' : Server) (txId : ℕ) (session : TxSession),
    acts.foldlM next (new e) = some s → next s (.apply txId) = some s' →
    s'.Committed txId session → session.isolation = .serializable → session.writeBuffer ≠ [] →
    ∀ key ∈ session.readSet, s.engine.state.get key = session.snapshot.get key

/-- In every run, two Serializable transactions each of which reads a key that the other
one writes do not both commit, unless the second one began after the first one's commit. -/
def NeverBoth (next : Server → TxAct → Option Server) (e : Engine) : Prop :=
  ∀ (acts acts' : List TxAct) (s₁ s₁' s₂ s₂' : Server) (txId₁ txId₂ : ℕ)
    (session₁ session₂ : TxSession),
    acts.foldlM next (new e) = some s₁ → next s₁ (.apply txId₁) = some s₁' →
    s₁'.Committed txId₁ session₁ → acts'.foldlM next s₁' = some s₂ →
    next s₂ (.apply txId₂) = some s₂' → s₂'.Committed txId₂ session₂ →
    txId₁ ≠ txId₂ → txId₂ < s₁.txMgr.nextId →
    session₁.isolation = .serializable → session₂.isolation = .serializable →
    ¬((∃ op ∈ session₁.writeBuffer, op.key ∈ session₂.readSet) ∧
      ∃ op ∈ session₂.writeBuffer, op.key ∈ session₁.readSet)

section

variable [Codec] {s s' : Server} {a : TxAct}

theorem stepIf_eq_some {P : Server → TxAct → Prop} [∀ s a, Decidable (P s a)] :
    stepIf P s a = some s' ↔ P s a ∧ s.step a = some s' := by
  rw [stepIf]
  by_cases h : P s a
  · simp [h]
  · simp [h]

/-- The commit that has written without an error had been validated. -/
theorem committed_of_apply {txId : ℕ} {session : TxSession} (h : s.step (.apply txId) = some s')
    (hc : s'.Committed txId session) :
    s.commits txId = some ⟨session, .validated⟩ ∧
      ∃ u, applyBuffer session.writeBuffer s.engine = .ok u s'.engine := by
  obtain ⟨session', hcommit, rfl⟩ := eq_of_step_apply h
  obtain ⟨n, hn⟩ := hc
  rw [commits_setCommit, Option.some_inj, Commit.mk.injEq] at hn
  obtain ⟨rfl, hphase⟩ := hn
  refine ⟨hcommit, ?_⟩
  show ∃ u, applyBuffer session'.writeBuffer s.engine
    = .ok u (finalState (applyBuffer session'.writeBuffer s.engine))
  cases hrun : applyBuffer session'.writeBuffer s.engine with
  | ok u e' => exact ⟨u, rfl⟩
  | error failure e' =>
    rw [hrun] at hphase
    exact absurd hphase (by simp [applied])

/-- Every validated Serializable commit finds the values of its snapshot. -/
def Checked (s : Server) : Prop :=
  ∀ txId, ∀ session ∈ s.validated txId, session.isolation = .serializable →
    ∀ key ∈ session.readSet, s.engine.state.get key = session.snapshot.get key

omit [Codec] in
theorem mem_running_of_validated {txId : ℕ} {session : TxSession}
    (h : session ∈ s.validated txId) : session ∈ s.running txId :=
  mem_running.mpr (.inr ⟨_, mem_validated.mp h, List.mem_singleton_self session⟩)

theorem Checked.step (hwf : s.Wf) (hs : s.Checked) (hact : Undisturbed s a) (h : Effect s a s') :
    s'.Checked := by
  intro txId session hv hser key hkey
  rcases h.validated hv with ⟨hne, hold⟩ | ⟨hwrites, hconflict⟩
  · have hlt := hwf.lt_nextId (mem_running_of_validated hold)
    rcases h.state key with hsame | ⟨op, hop, rfl, hval⟩
    · rw [hsame]
      exact hs txId session hold hser key hkey
    · rw [hval]
      exact hact txId hlt hne session hold op hop hser hkey
  · -- the commit has just been validated, and nothing was written
    rcases h.state key with hsame | ⟨op, hop, _⟩
    · rw [hsame]
      exact (conflict_eq_none hser).mp hconflict key hkey
    · rw [hwrites] at hop
      exact absurd hop List.not_mem_nil

/-- The live value of the key is not the one of a running Serializable transaction's
snapshot. -/
def Apart (k : Bytes) (txId : ℕ) (s : Server) : Prop :=
  txId < s.txMgr.nextId ∧ ∀ session ∈ s.running txId, session.isolation = .serializable →
    s.engine.state.get k ≠ session.snapshot.get k

/-- A value that an act writes is not the one of a snapshot. -/
theorem Fresh.ne (hwf : s.Wf) (hact : Fresh s a) (h : Effect s a s') {txId : ℕ}
    (hlt : txId < s.txMgr.nextId) {session' : TxSession} (hrun : session' ∈ s'.running txId)
    (hser : session'.isolation = .serializable) {op : TxOp} (hop : op ∈ s.writes a) :
    op.value ≠ session'.snapshot.get op.key := by
  obtain ⟨hne, session, hsession, hiso, hsnap⟩ := h.running hwf hlt hrun
  rw [hiso] at hser
  rw [hsnap]
  exact hact txId hlt hne session hsession op hop hser

theorem Apart.step {k : Bytes} {txId : ℕ} (hwf : s.Wf) (hs : Apart k txId s) (hact : Fresh s a)
    (h : Effect s a s') : Apart k txId s' := by
  refine ⟨lt_of_lt_of_le hs.1 h.nextId_le, fun session' hrun hser => ?_⟩
  rcases h.state k with hsame | ⟨op, hop, rfl, hval⟩
  · obtain ⟨_, session, hsession, hiso, hsnap⟩ := h.running hwf hs.1 hrun
    rw [hiso] at hser
    rw [hsame, hsnap]
    exact hs.2 session hsession hser
  · rw [hval]
    exact hact.ne hwf h hs.1 hrun hser hop

/-! ### Runs -/

theorem wf_checked_run {P : Server → TxAct → Prop} [∀ s a, Decidable (P s a)]
    (hP : ∀ s a, P s a → Undisturbed s a) {acts : List TxAct} (hwf : s.Wf) (hs : s.Checked)
    (hrun : acts.foldlM (stepIf P) s = some s') : s'.Wf ∧ s'.Checked := by
  refine foldlM_induction hrun (P := fun s => s.Wf ∧ s.Checked) ⟨hwf, hs⟩ ?_
  rintro a _ t t' ⟨ht, hchecked⟩ hstep
  obtain ⟨hact, hstep⟩ := stepIf_eq_some.mp hstep
  have heffect := effect_of_step hstep
  exact ⟨ht.step heffect, hchecked.step ht (hP t a hact) heffect⟩

omit [Codec] in
theorem checked_new (e : Engine) : (new e).Checked := by
  intro txId session hv
  exact absurd (mem_validated.mp hv) (by simp [new])

/-- **Validated commits**: in an undisturbed run, a commit finds the values of its snapshot. -/
theorem readsHold {P : Server → TxAct → Prop} [∀ s a, Decidable (P s a)]
    (hP : ∀ s a, P s a → Undisturbed s a) (e : Engine) : ReadsHold (stepIf P) e := by
  intro acts s s' txId session hrun happly hc hser _ key hkey
  obtain ⟨_, hchecked⟩ := wf_checked_run hP (wf_new e) (checked_new e) hrun
  obtain ⟨hcommit, _⟩ := committed_of_apply (stepIf_eq_some.mp happly).2 hc
  exact hchecked txId session (mem_validated.mpr hcommit) hser key hkey

/-- **Overlapping commits**: the second one has not read what the first one has written. -/
theorem neverBoth (e : Engine) :
    NeverBoth (stepIf Calm) e := by
  intro acts acts' s₁ s₁' s₂ s₂' txId₁ txId₂ session₁ session₂ hrun₁ happly₁ hc₁ hrun₂ happly₂ hc₂
    hne hlt _ hser₂ hboth
  obtain ⟨⟨op, hop, hread⟩, _⟩ := hboth
  obtain ⟨hwf₁, hchecked₁⟩ := wf_checked_run (fun _ _ h => h.1) (wf_new e) (checked_new e) hrun₁
  obtain ⟨⟨hact, hfresh⟩, hstep₁⟩ := stepIf_eq_some.mp happly₁
  have heffect := effect_of_step hstep₁
  obtain ⟨hcommit₁, u, happlied⟩ := committed_of_apply hstep₁ hc₁
  have hwrites : s₁.writes (.apply txId₁) = session₁.writeBuffer := by
    rw [writes, hcommit₁]
    rfl
  -- the first commit moves the key away from the second one's snapshot
  have hapart : Apart op.key txId₂ s₁' := by
    refine ⟨lt_of_lt_of_le hlt heffect.nextId_le, fun session' hrun hser => ?_⟩
    obtain ⟨op', hop', hkey, hval⟩ := Engine.state_applyBuffer happlied ⟨op, hop, rfl⟩
    rw [hval, ← hkey]
    exact hfresh.ne hwf₁ heffect hlt hrun hser (hwrites ▸ hop')
  -- and it stays away until the second one is validated, which compares the two
  have hend : s₂.Wf ∧ s₂.Checked ∧ Apart op.key txId₂ s₂ := by
    refine foldlM_induction hrun₂ (P := fun s => s.Wf ∧ s.Checked ∧ Apart op.key txId₂ s)
      ⟨hwf₁.step heffect, hchecked₁.step hwf₁ hact heffect, hapart⟩ ?_
    rintro a _ t t' ⟨hwf, hchecked, hapart⟩ hstep
    obtain ⟨⟨hact, hfresh⟩, hstep⟩ := stepIf_eq_some.mp hstep
    have heffect := effect_of_step hstep
    exact ⟨hwf.step heffect, hchecked.step hwf hact heffect, hapart.step hwf hfresh heffect⟩
  obtain ⟨hcommit₂, _⟩ := committed_of_apply (stepIf_eq_some.mp happly₂).2 hc₂
  have hvalidated := mem_validated.mpr hcommit₂
  exact hend.2.2.2 session₂ (mem_running_of_validated hvalidated) hser₂
    (hend.2.1 txId₂ session₂ hvalidated hser₂ op.key hread)

end

/-! ### Two transactions -/

/-- On an empty database: acts up to the writes of the first transaction, and acts from
there up to the writes of the second one. -/
def pairRun (next : Server → TxAct → Option Server) (acts acts' : List TxAct) :
    Option (Engine × Server × Server × Server × Server) :=
  (@Engine.openRun storedCodec 1000 ∅ none []).bind fun e =>
    (acts.foldlM next (new e)).bind fun s₁ => (next s₁ (.apply 1)).bind fun s₁' =>
      (acts'.foldlM next s₁').bind fun s₂ => (next s₂ (.apply 2)).map fun s₂' =>
        (e, s₁, s₁', s₂, s₂')

theorem exists_of_pairRun {next : Server → TxAct → Option Server} {acts acts' : List TxAct}
    (h : (pairRun next acts acts').isSome = true) : ∃ e s₁ s₁' s₂ s₂',
    pairRun next acts acts' = some (e, s₁, s₁', s₂, s₂') ∧ acts.foldlM next (new e) = some s₁ ∧
      next s₁ (.apply 1) = some s₁' ∧ acts'.foldlM next s₁' = some s₂ ∧
      next s₂ (.apply 2) = some s₂' := by
  obtain ⟨⟨e, s₁, s₁', s₂, s₂'⟩, hall⟩ := Option.isSome_iff_exists.mp h
  refine ⟨e, s₁, s₁', s₂, s₂', hall, ?_⟩
  obtain ⟨e₀, _, h₀⟩ := Option.bind_eq_some_iff.mp hall
  obtain ⟨t₁, hrun₁, h₁⟩ := Option.bind_eq_some_iff.mp h₀
  obtain ⟨t₁', happly₁, h₁'⟩ := Option.bind_eq_some_iff.mp h₁
  obtain ⟨t₂, hrun₂, h₂⟩ := Option.bind_eq_some_iff.mp h₁'
  obtain ⟨t₂', happly₂, heq⟩ := Option.map_eq_some_iff.mp h₂
  simp only [Prod.mk.injEq] at heq
  obtain ⟨rfl, rfl, rfl, rfl, rfl⟩ := heq
  exact ⟨hrun₁, happly₁, hrun₂, happly₂⟩

/-- The isolation, the writes and the reads of a commit that has returned `Ok`. -/
def outcome (s : Server) (txId : ℕ) : Option (TxIsolation × List TxOp × List Bytes) :=
  (s.commits txId).bind fun c =>
    match c.phase with
    | .finished (.ok _) => some (c.session.isolation, c.session.writeBuffer, c.session.readSet)
    | _ => none

theorem committed_of_outcome {s : Server} {txId : ℕ} {isolation : TxIsolation}
    {writes : List TxOp} {reads : List Bytes} (h : s.outcome txId = some (isolation, writes, reads)) :
    ∃ session, s.Committed txId session ∧ session.isolation = isolation ∧
      session.writeBuffer = writes ∧ session.readSet = reads := by
  obtain ⟨⟨session, phase⟩, hcommit, h⟩ := Option.bind_eq_some_iff.mp h
  cases phase with
  | finished result =>
    cases result with
    | ok n =>
      simp only [Option.some_inj, Prod.mk.injEq] at h
      exact ⟨session, ⟨n, hcommit⟩, h⟩
    | error _ => exact absurd h (by simp)
  | removed => exact absurd h (by simp)
  | validated => exact absurd h (by simp)

/-- **Serializable commits**: if no act writes to a key that a validated commit has read, a
commit finds the values of its snapshot; if moreover no act writes the value of a running
Serializable transaction's snapshot, two overlapping transactions that each read a key of
the other one do not both commit. -/
theorem commit_serializable [Codec] (e : Engine) :
    ReadsHold (stepIf Undisturbed) e ∧ NeverBoth (stepIf Calm) e :=
  ⟨readsHold (fun _ _ h => h) e, neverBoth e⟩

/-- Two transactions that overlap; the second one writes what the first one has read. -/
def overlapped : List TxAct :=
  [.begin 3, .begin 3, .txGet 1 [97], .txPut 1 [98] [1], .txGet 2 [99], .txPut 2 [97] [2],
    .remove 1, .validate 1]

/-- Both parts at two transactions that overlap and both commit. -/
theorem commit_serializable_overlapped :
    (∃ e s s' session, overlapped.foldlM (@stepIf storedCodec Undisturbed _) (new e) = some s ∧
      @stepIf storedCodec Undisturbed _ s (.apply 1) = some s' ∧ s'.Committed 1 session ∧
      session.readSet = [scopeKey 0 [97]] ∧
      s.engine.state.get (scopeKey 0 [97]) = session.snapshot.get (scopeKey 0 [97])) ∧
    ∃ (s₁' s₂' : Server) (session₁ session₂ : TxSession),
      s₁'.Committed 1 session₁ ∧ s₂'.Committed 2 session₂ ∧
      (∃ op ∈ session₂.writeBuffer, op.key ∈ session₁.readSet) ∧
      ¬((∃ op ∈ session₁.writeBuffer, op.key ∈ session₂.readSet) ∧
        ∃ op ∈ session₂.writeBuffer, op.key ∈ session₁.readSet) := by
  constructor
  -- the first one has read `a`, which nothing has written yet when it is applied
  · obtain ⟨e, s, s', s₂, s₂', hall, hrun, happly, _⟩ := @exists_of_pairRun
      (@stepIf storedCodec Undisturbed _) overlapped [.remove 2, .validate 2] (by decide +kernel)
    have hfirst : (pairRun (@stepIf storedCodec Undisturbed _) overlapped
        [.remove 2, .validate 2]).bind (fun r => r.2.2.1.outcome 1)
        = some (.serializable, [.put (scopeKey 0 [98]) [1]], [scopeKey 0 [97]]) := by
      decide +kernel
    rw [hall] at hfirst
    obtain ⟨session, hc, hser, hwrites, hreads⟩ := committed_of_outcome hfirst
    refine ⟨e, s, s', session, hrun, happly, hc, hreads, ?_⟩
    exact (@commit_serializable storedCodec e).1 overlapped s s' 1 session hrun happly hc hser
      (by simp [hwrites]) (scopeKey 0 [97]) (by simp [hreads])
  -- the second one writes what the first one has read, and not the other way round
  · obtain ⟨e, s₁, s₁', s₂, s₂', hall, hrun₁, happly₁, hrun₂, happly₂⟩ := @exists_of_pairRun
      (@stepIf storedCodec Calm _) overlapped
      [.remove 2, .validate 2] (by decide +kernel)
    have hfirst : (pairRun (@stepIf storedCodec Calm _)
        overlapped [.remove 2, .validate 2]).bind (fun r => r.2.2.1.outcome 1)
        = some (.serializable, [.put (scopeKey 0 [98]) [1]], [scopeKey 0 [97]]) := by
      decide +kernel
    have hsecond : (pairRun (@stepIf storedCodec Calm _)
        overlapped [.remove 2, .validate 2]).bind (fun r => r.2.2.2.2.outcome 2)
        = some (.serializable, [.put (scopeKey 0 [97]) [2]], [scopeKey 0 [99]]) := by
      decide +kernel
    have hnext : (pairRun (@stepIf storedCodec Calm _)
        overlapped [.remove 2, .validate 2]).map (fun r => r.2.1.txMgr.nextId) = some 3 := by
      decide +kernel
    rw [hall] at hfirst hsecond hnext
    obtain ⟨session₁, hc₁, hser₁, hwrites₁, hreads₁⟩ := committed_of_outcome hfirst
    obtain ⟨session₂, hc₂, hser₂, hwrites₂, hreads₂⟩ := committed_of_outcome hsecond
    have hthree : s₁.txMgr.nextId = 3 := Option.some_inj.mp hnext
    refine ⟨s₁', s₂', session₁, session₂, hc₁, hc₂, ?_, ?_⟩
    · exact ⟨_, by rw [hwrites₂]; exact List.mem_singleton_self _, by simp [hreads₁, TxOp.key]⟩
    · exact (@commit_serializable storedCodec e).2 overlapped [.remove 2, .validate 2] s₁ s₁' s₂ s₂'
        1 2 session₁ session₂ hrun₁ happly₁ hc₁ hrun₂ happly₂ hc₂ (by simp) (by omega) hser₁ hser₂

/-- Each transaction reads a key that the other one writes, and both validate before
either of them writes. -/
def skewed : List TxAct :=
  [.begin 3, .begin 3, .txGet 1 [97], .txPut 1 [98] [1], .txGet 2 [98], .txPut 2 [97] [2],
    .remove 1, .remove 2, .validate 1, .validate 2]

/-- Both transactions commit, the second one over a key that it has read and that the
first one has changed. -/
theorem write_skew :
    (¬∀ e, ReadsHold (@step storedCodec) e) ∧ ¬∀ e, NeverBoth (@step storedCodec) e := by
  obtain ⟨e, s₁, s₁', s₂, s₂', hall, hrun₁, happly₁, hrun₂, happly₂⟩ :=
    @exists_of_pairRun (@step storedCodec) skewed [] (by decide +kernel)
  have hfirst : (pairRun (@step storedCodec) skewed []).bind (fun r => r.2.2.1.outcome 1)
      = some (.serializable, [.put (scopeKey 0 [98]) [1]], [scopeKey 0 [97]]) := by
    decide +kernel
  have hsecond : (pairRun (@step storedCodec) skewed []).bind (fun r => r.2.2.2.2.outcome 2)
      = some (.serializable, [.put (scopeKey 0 [97]) [2]], [scopeKey 0 [98]]) := by
    decide +kernel
  have hvalues : (pairRun (@step storedCodec) skewed []).bind (fun r =>
      (r.2.2.2.2.commits 2).map fun c =>
        (r.2.2.2.1.engine.state.get (scopeKey 0 [98]), c.session.snapshot.get (scopeKey 0 [98])))
      = some (some [1], none) := by
    decide +kernel
  have hnext : (pairRun (@step storedCodec) skewed []).map (fun r => r.2.1.txMgr.nextId)
      = some 3 := by
    decide +kernel
  rw [hall] at hfirst hsecond hvalues hnext
  obtain ⟨session₁, hc₁, hser₁, hwrites₁, hreads₁⟩ := committed_of_outcome hfirst
  obtain ⟨session₂, hc₂, hser₂, hwrites₂, hreads₂⟩ := committed_of_outcome hsecond
  constructor
  · intro h
    -- the second transaction writes after the first one has changed what it read
    have hrun : (skewed ++ [TxAct.apply 1]).foldlM (@step storedCodec) (new e) = some s₂ := by
      rw [List.foldlM_append, hrun₁, Option.bind_eq_bind, Option.bind_some, List.foldlM_cons,
        happly₁, Option.bind_eq_bind, Option.bind_some]
      exact hrun₂
    have hsame := h e _ s₂ s₂' 2 session₂ hrun happly₂ hc₂ hser₂ (by simp [hwrites₂])
      (scopeKey 0 [98]) (by simp [hreads₂])
    obtain ⟨n, hn⟩ := hc₂
    rw [Option.bind_some, hn, Option.map_some, Option.some_inj, Prod.mk.injEq] at hvalues
    exact absurd (hvalues.1.symm.trans (hsame.trans hvalues.2)) (by simp)
  · intro h
    refine h e skewed [] s₁ s₁' s₂ s₂' 1 2 session₁ session₂ hrun₁ happly₁ hc₁ hrun₂ happly₂ hc₂
      (by simp) ?_ hser₁ hser₂ ⟨?_, ?_⟩
    · have hthree : s₁.txMgr.nextId = 3 := Option.some_inj.mp hnext
      omega
    · exact ⟨_, by rw [hwrites₁]; exact List.mem_singleton_self _, by simp [hreads₂, TxOp.key]⟩
    · exact ⟨_, by rw [hwrites₂]; exact List.mem_singleton_self _, by simp [hreads₁, TxOp.key]⟩

end Server

end Uldb
