/-
Atomic commits as runs of single accesses.

The commit of `mvcc.rs` takes the lock of the store once for each access.  Taken one after
the other, these accesses are the one step that a commit is in a history:

* `exists_run_commit` — a commit that runs alone, access by access;
* `exists_run_of_history` — every history with atomic commits is a run of the system, with
  the same store.
-/
import Uldb.MvccAtomic

namespace Uldb

namespace Mvcc

open Fallible

/-! ### The accesses of a commit -/

section

variable {s : System} {id : ℕ} {r : Running}

theorem set_set (s : System) (id : ℕ) (r r' : Running) : (s.set id r).set id r' = s.set id r' := by
  rw [System.set, System.set, System.set]
  exact congrArg _ (Function.update_idem _ _ _)

theorem run_cons {a : Act} {acts : List Act} {s₁ : System} (h : s.step a = some s₁) :
    s.run (a :: acts) = s₁.run acts := by
  rw [System.run, List.foldlM_cons, h]
  rfl

theorem run_append {acts acts' : List Act} {s₁ : System} (h : s.run acts = some s₁) :
    s.run (acts ++ acts') = s₁.run acts' := by
  rw [System.run, List.foldlM_append, ← System.run, h]
  rfl

/-- Where the checks of a commit end. -/
def checked : Option String → Phase
  | some key => .failed ("serialization conflict on key=" ++ key)
  | none => .installing []

/-- The checks of a serializable commit, up to the first conflict. -/
theorem run_validate (s : System) (id : ℕ) (r : Running) (todo : List String) {phase : Phase}
    (hphase : phase
      = checked (todo.find? fun key => s.store.hasCommittedSince key r.txn.snapshotTs)) :
    ∃ n, (s.set id { r with phase := .validating todo }).run (List.replicate n (.validate id))
      = some (s.set id { r with phase := phase }) := by
  have hstep : ∀ todo, (s.set id { r with phase := .validating todo }).step (.validate id)
      = some (s.set id { r with phase := r.txn.validate s.store todo }) := by
    intro todo
    rw [System.step, txns_set_self, Option.bind_some]
    show some (System.set (s.set id _) id _) = _
    rw [set_set]
    rfl
  induction todo with
  | nil =>
    rw [hphase]
    exact ⟨1, run_cons (hstep [])⟩
  | cons key todo ih =>
    rw [List.find?_cons] at hphase
    by_cases hconflict : s.store.hasCommittedSince key r.txn.snapshotTs = true
    · rw [hconflict] at hphase
      refine ⟨1, (run_cons (hstep (key :: todo))).trans ?_⟩
      rw [Transaction.validate, if_pos hconflict, hphase]
      rfl
    · rw [Bool.eq_false_iff.mpr hconflict] at hphase
      obtain ⟨n, hn⟩ := ih hphase
      refine ⟨n + 1, (run_cons (hstep (key :: todo))).trans ?_⟩
      rw [Transaction.validate, if_neg hconflict]
      exact hn

/-- The loop of the intents. -/
theorem run_writeIntents (id : ℕ) (r : Running) {order : List String} (hnodup : order.Nodup)
    (hwrites : ∀ key ∈ order, (r.txn.writes[key]?).isSome = true) (visited : List String)
    (hnew : ∀ key ∈ order, key ∉ visited) (s : System) :
    (s.set id { r with phase := .installing visited }).run (order.map (.writeIntent id))
      = some (System.set { s with store := s.store.install r.txn.writes order id } id
        { r with phase := .installing (order.reverse ++ visited) }) := by
  induction order generalizing s visited with
  | nil => rfl
  | cons key order ih =>
    rw [List.nodup_cons] at hnodup
    obtain ⟨value, hvalue⟩ := Option.isSome_iff_exists.mp (hwrites key (by simp))
    have hstep : (s.set id { r with phase := .installing visited }).step (.writeIntent id key)
        = some (System.set { s with store := s.store.writeIntent key value id } id
          { r with phase := .installing (key :: visited) }) := by
      rw [System.step, txns_set_self, Option.bind_some]
      show ((r.txn.writes[key]?).bind fun value => if key ∈ visited then none else
        some (System.set (System.set { s with store := s.store.writeIntent key value id } id _)
          id _)) = _
      rw [hvalue, Option.bind_some, if_neg (hnew key (by simp)), set_set]
    rw [List.map_cons, run_cons hstep, ih hnodup.2 (fun k hk => hwrites k (by simp [hk]))]
    · rw [MvccStore.install, MvccStore.install, List.foldl_cons, hvalue, List.reverse_cons,
        List.append_assoc, List.singleton_append]
    · intro k hk hmem
      rcases List.mem_cons.mp hmem with rfl | hmem
      · exact hnodup.1 hk
      · exact hnew k (by simp [hk]) hmem

/-- The loop of the stamps. -/
theorem run_commitKeys (id : ℕ) (r : Running) {order : List String} (hnodup : order.Nodup)
    (hwrites : ∀ key ∈ order, (r.txn.writes[key]?).isSome = true) (visited : List String)
    (hnew : ∀ key ∈ order, key ∉ visited) (ts : ℕ) (s : System) :
    (s.set id { r with phase := .stamping ts visited }).run (order.map (.commitKey id))
      = some (System.set { s with store := s.store.stamp order id ts } id
        { r with phase := .stamping ts (order.reverse ++ visited) }) := by
  induction order generalizing s visited with
  | nil => rfl
  | cons key order ih =>
    rw [List.nodup_cons] at hnodup
    obtain ⟨value, hvalue⟩ := Option.isSome_iff_exists.mp (hwrites key (by simp))
    have hstep : (s.set id { r with phase := .stamping ts visited }).step (.commitKey id key)
        = some (System.set { s with store := (s.store.commitKey key id ts).2 } id
          { r with phase := .stamping ts (key :: visited) }) := by
      rw [System.step, txns_set_self, Option.bind_some]
      show ((r.txn.writes[key]?).bind fun _ => if key ∈ visited then none else
        some (System.set (System.set { s with store := (s.store.commitKey key id ts).2 } id _)
          id _)) = _
      rw [hvalue, Option.bind_some, if_neg (hnew key (by simp)), set_set]
    rw [List.map_cons, run_cons hstep, ih hnodup.2 (fun k hk => hwrites k (by simp [hk]))]
    · rw [MvccStore.stamp, MvccStore.stamp, List.foldl_cons, List.reverse_cons,
        List.append_assoc, List.singleton_append]
    · intro k hk hmem
      rcases List.mem_cons.mp hmem with rfl | hmem
      · exact hnodup.1 hk
      · exact hnew k (by simp [hk]) hmem

/-- The start of a commit and its checks. -/
theorem run_conflict (hr : s.txns id = some r) (hactive : r.phase = .active) :
    ∃ acts : List Act, (∀ a ∈ acts, a.id = id) ∧
      s.run acts = some (s.set id { r with phase := checked (r.txn.conflict s.store) }) := by
  have hstart : s.step (.commit id) = some (s.set id { r with phase := r.txn.startCommit }) := by
    rw [System.step, System.onActive, hr, Option.bind_some, if_pos hactive]
  rw [Transaction.startCommit] at hstart
  rw [Transaction.conflict]
  by_cases hiso : r.txn.isolation = .serializable
  · rw [if_pos hiso] at hstart
    rw [if_pos hiso]
    obtain ⟨n, hn⟩ := run_validate s id r r.txn.reads rfl
    refine ⟨.commit id :: List.replicate n (.validate id), fun a ha => ?_, (run_cons hstart).trans hn⟩
    rcases List.mem_cons.mp ha with rfl | ha
    · rfl
    · rw [List.eq_of_mem_replicate ha]
      rfl
  · rw [if_neg hiso] at hstart
    rw [if_neg hiso]
    refine ⟨[.commit id], fun a ha => ?_, run_cons hstart⟩
    rw [List.mem_singleton.mp ha]
    rfl

/-- **A commit that runs alone** is a run of the acts of its transaction: it leaves the same
store and returns the same result. -/
theorem exists_run_commit (hr : s.txns id = some r) (hactive : r.phase = .active)
    {order : List String} (hperm : order.Perm r.txn.writes.keys) :
    ∃ acts r', (∀ a ∈ acts, a.id = id) ∧
      s.run acts = some (System.set { s with store := (r.txn.commit s.store id order).2 } id r') ∧
      r'.txn = r.txn ∧ r'.result = some (r.txn.commit s.store id order).1 := by
  obtain ⟨acts, hacts, hrun⟩ := run_conflict hr hactive
  rw [Transaction.commit]
  cases hconflict : r.txn.conflict s.store with
  | some key =>
    rw [hconflict] at hrun
    exact ⟨acts, _, hacts, hrun, rfl, rfl⟩
  | none =>
    rw [hconflict, checked] at hrun
    have hnodup : order.Nodup := hperm.nodup_iff.mpr Std.TreeMap.nodup_keys
    have hwrites : ∀ key ∈ order, (r.txn.writes[key]?).isSome = true := by
      intro key hkey
      rw [← Std.TreeMap.mem_iff_isSome_getElem?, ← Std.TreeMap.mem_keys]
      exact hperm.mem_iff.mp hkey
    have hall : r.txn.visitedAll (order.reverse ++ []) = true := by
      rw [Transaction.visitedAll, List.all_eq_true]
      intro key hkey
      simpa using hperm.mem_iff.mpr hkey
    -- the intents, the timestamp, the stamps
    have hinstall := run_writeIntents id r hnodup hwrites [] (by simp) s
    have hdraw : System.step (System.set { s with store := s.store.install r.txn.writes order id } id
        { r with phase := .installing (order.reverse ++ []) }) (.nextTs id)
        = some (System.set { s with store := (s.store.install r.txn.writes order id).nextTs.2 } id
          { r with phase := .stamping (s.store.install r.txn.writes order id).nextTs.1 [] }) := by
      rw [System.step, txns_set_self, Option.bind_some]
      show (if r.txn.visitedAll (order.reverse ++ []) = true then some (System.set (System.set
        { s with store := (s.store.install r.txn.writes order id).nextTs.2 } id _) id _)
        else none) = _
      rw [if_pos hall, set_set]
      rfl
    have hstamp := run_commitKeys id r hnodup hwrites [] (by simp)
      (s.store.install r.txn.writes order id).nextTs.1
      { s with store := (s.store.install r.txn.writes order id).nextTs.2 }
    refine ⟨acts ++ (order.map (.writeIntent id) ++ .nextTs id :: order.map (.commitKey id)),
      ⟨r.txn, r.now, .stamping (s.store.install r.txn.writes order id).nextTs.1
        (order.reverse ++ [])⟩, fun a ha => ?_, ?_, rfl, if_pos hall⟩
    · rcases List.mem_append.mp ha with ha | ha
      · exact hacts a ha
      · simp only [List.mem_append, List.mem_cons, List.mem_map] at ha
        rcases ha with ⟨_, _, rfl⟩ | rfl | ⟨_, _, rfl⟩
        · rfl
        · rfl
        · rfl
    · rw [run_append hrun, run_append hinstall, run_cons hdraw]
      exact hstamp

/-! ### Histories -/

/-- The system has the store of the history, and the transactions that have not ended. -/
structure Simulates (h : History) (s : System) : Prop where
  store : s.store = h.store
  txns : ∀ id p, h.txns id = some p → s.txns id = some ⟨p.txn, p.now, .active⟩
  free : ∀ id, h.nextTxnId < id → s.txns id = none

theorem Simulates.set {h : History} (hs : Simulates h s) {p : Pending} (hp : h.txns id = some p)
    (store : MvccStore) (log : List Committed) {q : Option Pending}
    (hq : ∀ p', q = some p' → r = ⟨p'.txn, p'.now, .active⟩) :
    Simulates (History.set { h with store := store, log := log } id q)
      (System.set { s with store := store } id r) where
  store := rfl
  txns id' p' hp' := by
    rw [History.set_txns] at hp'
    by_cases hid : id' = id
    · rw [if_pos hid] at hp'
      rw [hid, txns_set_self, hq p' hp']
    · rw [if_neg hid] at hp'
      rw [txns_set_of_ne _ _ hid]
      exact hs.txns id' p' hp'
  free id' hid' := by
    -- the id is not free, as the transaction is there
    have hfree := hs.free id' hid'
    have hne : id' ≠ id := by
      rintro rfl
      rw [hs.txns id' p hp] at hfree
      exact absurd hfree (by simp)
    rw [txns_set_of_ne _ _ hne]
    exact hfree

/-- A step of a transaction that goes on or ends is one act. -/
theorem Simulates.act {h : History} (hs : Simulates h s) {p : Pending} (hp : h.txns id = some p)
    {a : Act} {q : Option Pending} {f : Running → Running}
    (hact : s.step a = s.onActive id f)
    (hq : ∀ p', q = some p' → f ⟨p.txn, p.now, .active⟩ = ⟨p'.txn, p'.now, .active⟩) :
    ∃ acts s', s.run acts = some s' ∧ Simulates (h.set id q) s' := by
  have hset := hs.set hp h.store h.log hq
  have hself : { s with store := h.store } = s := by rw [← hs.store]
  rw [hself] at hset
  refine ⟨[a], _, run_cons (hact.trans ?_), hset⟩
  rw [System.onActive, hs.txns id p hp, Option.bind_some, if_pos rfl]

theorem Simulates.step {h h' : History} {e : Event} (hs : Simulates h s)
    (hstep : h.step e = some h') : ∃ acts s', s.run acts = some s' ∧ Simulates h' s' := by
  cases e with
  | begin isolation =>
    rw [← Option.some_inj.mp hstep]
    have hfree := hs.free (h.nextTxnId + 1) (Nat.lt_succ_self _)
    have hbegin : s.step (.begin (h.nextTxnId + 1) isolation)
        = some (s.set (h.nextTxnId + 1) ⟨Transaction.new s.store isolation, 0, .active⟩) := by
      rw [System.step, hfree]
    refine ⟨[.begin _ isolation], s.set _ _, run_cons hbegin, hs.store, fun id p hp => ?_, fun id hid => ?_⟩
    · rw [History.set_txns] at hp
      by_cases heq : id = h.nextTxnId + 1
      · rw [if_pos heq, Option.some_inj] at hp
        rw [heq, txns_set_self, ← hp, hs.store]
      · rw [if_neg heq] at hp
        rw [txns_set_of_ne _ _ heq]
        exact hs.txns id p hp
    · have hlt : h.nextTxnId + 1 < id := hid
      rw [txns_set_of_ne _ _ (by omega)]
      exact hs.free id (by omega)
  | currentTs id =>
    obtain ⟨p, hp, rfl⟩ := Option.map_eq_some_iff.mp hstep
    refine hs.act hp (a := .currentTs id) rfl fun p' hp' => ?_
    rw [← Option.some_inj.mp hp', hs.store]
  | get id key =>
    obtain ⟨p, hp, rfl⟩ := Option.map_eq_some_iff.mp hstep
    refine hs.act hp (a := .get id key) rfl fun p' hp' => ?_
    rw [← Option.some_inj.mp hp', hs.store]
  | put id key value =>
    obtain ⟨p, hp, rfl⟩ := Option.map_eq_some_iff.mp hstep
    refine hs.act hp (a := .put id key value) rfl fun p' hp' => ?_
    rw [← Option.some_inj.mp hp']
  | abort id =>
    obtain ⟨p, hp, rfl⟩ := Option.map_eq_some_iff.mp hstep
    exact hs.act hp (a := .abort id) rfl fun p' hp' => absurd hp' (by simp)
  | commit id order =>
    -- whatever the commit returns, the transaction has ended in the history
    obtain ⟨p, hp, hstep⟩ := Option.bind_eq_some_iff.mp hstep
    by_cases hperm : order.Perm p.txn.writes.keys
    · rw [if_pos hperm] at hstep
      obtain ⟨acts, r', _, hrun, _, _⟩ := exists_run_commit (hs.txns id p hp) rfl hperm
      have hset := fun log => hs.set hp (p.txn.commit h.store id order).2 log (q := none) (r := r')
        fun p' hp' => absurd hp' (by simp)
      rw [hs.store] at hrun
      refine ⟨acts, _, hrun, ?_⟩
      cases hcommit : p.txn.commit h.store id order with
      | mk result store =>
        rw [hcommit] at hstep hset
        cases result with
        | error msg =>
          rw [← Option.some_inj.mp hstep]
          exact hset h.log
        | ok ts =>
          rw [← Option.some_inj.mp hstep]
          exact hset (⟨id, ts, p.txn.writes⟩ :: h.log)
    · rw [if_neg hperm] at hstep
      exact absurd hstep (by simp)

/-- **Every history is a run**: its store is the store of a run of single acts, in which no
act of another transaction comes between those of a commit. -/
theorem exists_run_of_history {es : List Event} {h : History}
    (hrun : History.init.run es = some h) :
    ∃ acts s, System.init.run acts = some s ∧ Simulates h s := by
  refine foldlM_induction (P := fun h => ∃ acts s, System.init.run acts = some s ∧ Simulates h s)
    hrun ⟨[], _, rfl, rfl, fun id p hp => absurd hp (by simp [History.init]), fun _ _ => rfl⟩ ?_
  rintro e _ h₁ h₂ ⟨acts, s, hacts, hs⟩ hstep
  obtain ⟨acts', s', hacts', hs'⟩ := hs.step hstep
  exact ⟨acts ++ acts', s', (run_append hacts).trans hacts', hs'⟩

end

end Mvcc

end Uldb
