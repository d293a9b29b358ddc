/-
Write skew between serializable transactions.

A serializable commit checks that nobody has committed a key it has read, and then
installs its intents and stamps them, call by call.  A check sees stamped versions
only: two transactions that read what the other writes both pass, if each of them
checks before the other has stamped.

* `checked_of_step` — how a transaction comes to have checked a key;
* `Crossed.step` — such a pair arises in a check that misses a key which the other
  one, itself past its check, writes;
* `no_write_skew` — without such a check, at most one of the pair commits;
* `write_skew_commits` — both commit.
-/
import Uldb.Mvcc

namespace Uldb

namespace Mvcc

open Fallible

/-- The commit has passed its checks of the key, which the transaction has read. -/
def Running.Checked (r : Running) (key : String) : Prop :=
  r.txn.isolation = .serializable ∧ key ∈ r.txn.reads ∧ match r.phase with
    | .validating todo => key ∉ todo
    | .installing _ => True
    | .stamping _ _ => True
    | _ => False

/-- The transaction `i` begins when the commit of `j` has not returned. -/
def BeginsBefore (i j : ℕ) (acts : List Act) : Prop :=
  ∃ before isolation rest s, acts = before ++ .begin i isolation :: rest ∧
    System.init.run before = some s ∧ (s.txns j).bind Running.result = none

/-- A check of a key sees the other writers of it: if a transaction writes the key, had
not returned when the checking one began, and is itself past its check of a key that this
one writes, then a version newer than the snapshot is stamped already. -/
def CheckSees (acts : List Act) (s : System) (a : Act) : Prop :=
  ∀ i r key todo, a = .validate i → s.txns i = some r → r.phase = .validating (key :: todo) →
    ∀ j r', j ≠ i → s.txns j = some r' → key ∈ r'.txn.writes →
      (∃ key' ∈ r.txn.writes, r'.Checked key') → BeginsBefore i j acts →
      s.store.hasCommittedSince key r.txn.snapshotTs = true

/-- Every step of the run meets the condition. -/
def AllChecksSee (acts : List Act) : Prop :=
  ∀ before a rest s, acts = before ++ a :: rest → System.init.run before = some s →
    CheckSees before s a

/-! ### How a check passes -/

variable {s s' : System} {a : Act}

/-- A transaction that has passed its checks of a key has done so before, or does in this
act, which checks the key. -/
theorem checked_of_step (h : s.step a = some s') {i : ℕ} {r' : Running}
    (hr' : s'.txns i = some r') {key : String} (hc : r'.Checked key) :
    ∃ r, s.txns i = some r ∧ r.txn = r'.txn ∧ (r.Checked key ∨
      a = .validate i ∧ (∃ todo, r.phase = .validating (key :: todo)) ∧
        s.store.hasCommittedSince key r.txn.snapshotTs = false) := by
  by_cases hid : i = a.id
  case neg =>
    -- an act of another transaction leaves this one as it is
    rw [(effect_of_step h).txns_eq hid] at hr'
    exact ⟨r', hr', rfl, .inl hc⟩
  obtain ⟨hiso, hread, hphase⟩ := hc
  have hactive : ∀ {f : Running → Running}, s.onActive i f = some s' →
      ∃ r, s.txns i = some r ∧ r.phase = .active ∧ r' = f r := by
    intro f hf
    obtain ⟨r, hr, hp, rfl⟩ := System.onActive_eq_some hf
    rw [txns_set_self, Option.some_inj] at hr'
    exact ⟨r, hr, hp, hr'.symm⟩
  cases a with
  | begin id isolation =>
    obtain rfl : i = id := hid
    obtain ⟨_, rfl⟩ := System.begin_eq_some h
    rw [txns_set_self, Option.some_inj] at hr'
    rw [← hr'] at hphase
    exact hphase.elim
  -- an active transaction has checked nothing yet
  | currentTs id =>
    obtain rfl : i = id := hid
    obtain ⟨r, _, hp, rfl⟩ := hactive h
    simp only [hp] at hphase
  | get id key' =>
    obtain rfl : i = id := hid
    obtain ⟨r, _, hp, rfl⟩ := hactive h
    simp only [hp] at hphase
  | put id key' value =>
    obtain rfl : i = id := hid
    obtain ⟨r, _, hp, rfl⟩ := hactive h
    simp only [hp] at hphase
  | abort id =>
    obtain rfl : i = id := hid
    obtain ⟨r, _, _, rfl⟩ := hactive h
    exact hphase.elim
  | commit id =>
    -- nothing has been checked yet
    obtain rfl : i = id := hid
    obtain ⟨r, _, _, rfl⟩ := hactive h
    have hser : r.txn.isolation = .serializable := hiso
    simp only [Transaction.startCommit, if_pos hser] at hphase
    exact absurd hread hphase
  | validate id =>
    obtain rfl : i = id := hid
    obtain ⟨r, todo, hr, hp, rfl⟩ := System.validate_eq_some h
    rw [txns_set_self, Option.some_inj] at hr'
    subst hr'
    refine ⟨r, hr, rfl, ?_⟩
    cases todo with
    | nil =>
      refine .inl ⟨hiso, hread, ?_⟩
      simp [hp]
    | cons key' todo =>
      -- a key that was committed to ends the commit; any other one is now checked
      by_cases hsince : s.store.hasCommittedSince key' r.txn.snapshotTs = true
      · simp only [Transaction.validate, if_pos hsince] at hphase
      · simp only [Transaction.validate, if_neg hsince] at hphase
        by_cases hkey : key = key'
        · rw [hkey]
          exact .inr ⟨rfl, ⟨todo, hp⟩, by simpa using hsince⟩
        · refine .inl ⟨hiso, hread, ?_⟩
          simp [hp, hkey, hphase]
  | writeIntent id key' =>
    obtain rfl : i = id := hid
    obtain ⟨r, visited, value, hr, hp, _, _, rfl⟩ := System.writeIntent_eq_some h
    rw [txns_set_self, Option.some_inj] at hr'
    subst hr'
    exact ⟨r, hr, rfl, .inl ⟨hiso, hread, by simp [hp]⟩⟩
  | nextTs id =>
    obtain rfl : i = id := hid
    obtain ⟨r, visited, hr, hp, _, rfl⟩ := System.nextTs_eq_some h
    rw [txns_set_self, Option.some_inj] at hr'
    subst hr'
    exact ⟨r, hr, rfl, .inl ⟨hiso, hread, by simp [hp]⟩⟩
  | commitKey id key' =>
    obtain rfl : i = id := hid
    obtain ⟨r, ts, visited, value, hr, hp, _, _, rfl⟩ := System.commitKey_eq_some h
    rw [txns_set_self, Option.some_inj] at hr'
    subst hr'
    exact ⟨r, hr, rfl, .inl ⟨hiso, hread, by simp [hp]⟩⟩

/-! ### Pairs past their checks -/

/-- The transaction `i` is past its check of a key that `j` writes. -/
def Crossed (i j : ℕ) (s : System) : Prop :=
  ∃ r r' key, s.txns i = some r ∧ s.txns j = some r' ∧ r.Checked key ∧ key ∈ r'.txn.writes

/-- A transaction that has begun did so before this act. -/
theorem BeginsBefore.of_concat {i j : ℕ} {acts : List Act} (hb : BeginsBefore i j (acts ++ [a]))
    {r : Running} (hr : s.txns i = some r) (hstep : s.step a = some s') :
    BeginsBefore i j acts := by
  obtain ⟨before, isolation, rest, t, heq, ht, hresult⟩ := hb
  rcases List.eq_nil_or_concat rest with rfl | ⟨rest, a', rfl⟩
  · -- the act cannot begin a transaction that is there
    obtain ⟨_, hact⟩ := List.append_inj' heq rfl
    rw [List.singleton_inj.mp hact] at hstep
    rw [(System.begin_eq_some hstep).1] at hr
    exact absurd hr (by simp)
  · have hsplit : acts ++ [a] = (before ++ .begin i isolation :: rest) ++ [a'] := by
      rw [heq]
      simp
    exact ⟨before, isolation, rest, t, (List.append_inj' hsplit rfl).1, ht, hresult⟩

theorem AllChecksSee.of_concat {acts : List Act} (h : AllChecksSee (acts ++ [a])) : AllChecksSee acts :=
  fun before a' rest t heq ht => h before a' (rest ++ [a]) t (by rw [heq]; simp) ht

/-- **One act** makes a pair in which each one is past its check of a key that the other
writes only by a check that does not see the other. -/
theorem Crossed.step {acts : List Act} (hsees : CheckSees acts s a) (h : s.step a = some s') {i j : ℕ}
    (hij : i ≠ j) (hbi : BeginsBefore i j acts) (hbj : BeginsBefore j i acts)
    (hnot : ¬(Crossed i j s ∧ Crossed j i s)) : ¬(Crossed i j s' ∧ Crossed j i s') := by
  rintro ⟨⟨ri', rj', ki, hri', hrj', hci, hki⟩, ⟨rj'', ri'', kj, hrj'', hri'', hcj, hkj⟩⟩
  obtain rfl : rj' = rj'' := Option.some_inj.mp (hrj'.symm.trans hrj'')
  obtain rfl : ri' = ri'' := Option.some_inj.mp (hri'.symm.trans hri'')
  obtain ⟨ri, hri, hti, hi⟩ := checked_of_step h hri' hci
  obtain ⟨rj, hrj, htj, hj⟩ := checked_of_step h hrj' hcj
  rw [← htj] at hki
  rw [← hti] at hkj
  rcases hi with hi | ⟨hact, ⟨todo, hphase⟩, hmiss⟩
  · rcases hj with hj | ⟨hact, ⟨todo, hphase⟩, hmiss⟩
    · exact hnot ⟨⟨ri, rj, ki, hri, hrj, hi, hki⟩, ⟨rj, ri, kj, hrj, hri, hj, hkj⟩⟩
    · rw [hsees j rj kj todo hact hrj hphase i ri hij hri hkj ⟨ki, hki, hi⟩ hbj] at hmiss
      exact absurd hmiss (by simp)
  · rcases hj with hj | ⟨hact', _, _⟩
    · rw [hsees i ri ki todo hact hri hphase j rj hij.symm hrj hki ⟨kj, hkj, hj⟩ hbi] at hmiss
      exact absurd hmiss (by simp)
    · rw [hact, Act.validate.injEq] at hact'
      exact absurd hact' hij

/-- In a run whose checks see the other writers, of two overlapping transactions at most one
gets past its check of a key that the other writes. -/
theorem not_crossed {acts : List Act} (hrun : System.init.run acts = some s) {i j : ℕ}
    (hij : i ≠ j) : AllChecksSee acts → BeginsBefore i j acts → BeginsBefore j i acts →
      ¬(Crossed i j s ∧ Crossed j i s) := by
  refine foldlM_history (P := fun acts s => AllChecksSee acts → BeginsBefore i j acts →
    BeginsBefore j i acts → ¬(Crossed i j s ∧ Crossed j i s)) ?_ ?_ hrun
  · rintro _ _ _ ⟨⟨r, _, _, hr, _⟩, _⟩
    exact absurd hr (by simp [System.init])
  · intro acts a s s' hrun ih hstep hsees hbi hbj
    rintro ⟨hi, hj⟩
    obtain ⟨ri', _, _, hri', _, hci, _⟩ := id hi
    obtain ⟨rj', _, _, hrj', _, hcj, _⟩ := id hj
    obtain ⟨ri, hri, _⟩ := checked_of_step hstep hri' hci
    obtain ⟨rj, hrj, _⟩ := checked_of_step hstep hrj' hcj
    have hbi' := hbi.of_concat hri hstep
    have hbj' := hbj.of_concat hrj hstep
    exact Crossed.step (hsees acts a [] s rfl hrun) hstep hij hbi' hbj'
      (ih hsees.of_concat hbi' hbj') ⟨hi, hj⟩

/-- A serializable commit that has returned a timestamp is past all its checks. -/
theorem checked_of_ok {r : Running} (hser : r.txn.isolation = .serializable) {ts : ℕ}
    (hok : r.result = some (.ok ts)) {key : String} (hread : key ∈ r.txn.reads) :
    r.Checked key := by
  refine ⟨hser, hread, ?_⟩
  rw [Running.result] at hok
  cases hphase : r.phase with
  | stamping ts visited => trivial
  | _ =>
    rw [hphase] at hok
    exact absurd hok (by simp)

/-- **No write skew.**  Two serializable transactions of a run overlap, and each has read a
key that the other writes.  If every check of the run sees the other writers of its key,
then at most one of the two commits. -/
theorem no_write_skew {acts : List Act} (hrun : System.init.run acts = some s)
    (hsees : AllChecksSee acts) {i j : ℕ} (hij : i ≠ j) {ri rj : Running} (hri : s.txns i = some ri)
    (hrj : s.txns j = some rj) (hseri : ri.txn.isolation = .serializable)
    (hserj : rj.txn.isolation = .serializable) (hbi : BeginsBefore i j acts)
    (hbj : BeginsBefore j i acts) {ki kj : String} (hreadi : ki ∈ ri.txn.reads)
    (hwritej : ki ∈ rj.txn.writes) (hreadj : kj ∈ rj.txn.reads) (hwritei : kj ∈ ri.txn.writes) :
    ¬((∃ ts, ri.result = some (.ok ts)) ∧ ∃ ts, rj.result = some (.ok ts)) := by
  rintro ⟨⟨tsi, hoki⟩, ⟨tsj, hokj⟩⟩
  exact not_crossed hrun hij hsees hbi hbj
    ⟨⟨ri, rj, ki, hri, hrj, checked_of_ok hseri hoki hreadi, hwritej⟩,
      ⟨rj, ri, kj, hrj, hri, checked_of_ok hserj hokj hreadj, hwritei⟩⟩

/-! ### Two transactions -/

/-- A transaction that is there has begun. -/
theorem mem_begin_of_run {acts : List Act} (hrun : System.init.run acts = some s) {i : ℕ}
    {r : Running} (hr : s.txns i = some r) : ∃ isolation, .begin i isolation ∈ acts := by
  refine foldlM_history (P := fun acts s => ∀ r, s.txns i = some r →
    ∃ isolation, .begin i isolation ∈ acts) (fun r hr => absurd hr (by simp [System.init])) ?_
    hrun r hr
  intro acts a s s' _ ih hstep r' hr'
  have hbefore : ∀ r, s.txns i = some r → ∃ isolation, .begin i isolation ∈ acts ++ [a] := by
    intro r hr
    obtain ⟨isolation, hmem⟩ := ih r hr
    exact ⟨isolation, List.mem_append_left _ hmem⟩
  by_cases hid : i = a.id
  case neg =>
    rw [(effect_of_step hstep).txns_eq hid] at hr'
    exact hbefore r' hr'
  cases a with
  | begin id isolation =>
    obtain rfl : i = id := hid
    exact ⟨isolation, by simp⟩
  | _ =>
    -- the other acts are acts of a transaction that is there
    obtain ⟨r, hr, _⟩ := Option.bind_eq_some_iff.mp hstep
    exact hbefore r (hid ▸ hr)

/-- Two transactions that read what the other writes; the first one commits, and then
the second one tries. -/
def oneAfterTheOther : List Act :=
  [.begin 1 .serializable, .begin 2 .serializable, .get 1 "a", .get 2 "b", .put 1 "b" [1],
    .put 2 "a" [2], .commit 1, .validate 1, .validate 1, .writeIntent 1 "b", .nextTs 1,
    .commitKey 1 "b", .commit 2, .validate 2]

/-- Both check before either of them installs an intent. -/
def bothCheckFirst : List Act :=
  [.begin 1 .serializable, .begin 2 .serializable, .get 1 "a", .get 2 "b", .put 1 "b" [1],
    .put 2 "a" [2], .commit 1, .validate 1, .validate 1, .commit 2, .validate 2, .validate 2,
    .writeIntent 1 "b", .nextTs 1, .commitKey 1 "b", .writeIntent 2 "a", .nextTs 2,
    .commitKey 2 "a"]

/-- The first transaction reads `a` and writes `b`, the second one the other way round. -/
def CrossedPair (r₁ r₂ : Running) : Prop :=
  (r₁.txn.isolation = .serializable ∧ "a" ∈ r₁.txn.reads ∧ "b" ∈ r₁.txn.writes) ∧
    r₂.txn.isolation = .serializable ∧ "b" ∈ r₂.txn.reads ∧ "a" ∈ r₂.txn.writes

instance (r₁ r₂ : Running) : Decidable (CrossedPair r₁ r₂) := inferInstanceAs (Decidable (_ ∧ _))

/-- Whether the two are such a pair in the end, and what their commits have returned. -/
def pairRun (acts : List Act) :
    Option (Bool × Option (Except String ℕ) × Option (Except String ℕ)) :=
  (System.init.run acts).bind fun s => (s.txns 1).bind fun r₁ => (s.txns 2).map fun r₂ =>
    (decide (CrossedPair r₁ r₂), r₁.result, r₂.result)

theorem exists_of_pairRun {acts : List Act} {res₁ res₂ : Option (Except String ℕ)}
    (h : pairRun acts = some (true, res₁, res₂)) :
    ∃ s r₁ r₂, System.init.run acts = some s ∧ s.txns 1 = some r₁ ∧ s.txns 2 = some r₂ ∧
      CrossedPair r₁ r₂ ∧ r₁.result = res₁ ∧ r₂.result = res₂ := by
  obtain ⟨s, hrun, h⟩ := Option.bind_eq_some_iff.mp h
  obtain ⟨r₁, hr₁, h⟩ := Option.bind_eq_some_iff.mp h
  obtain ⟨r₂, hr₂, h⟩ := Option.map_eq_some_iff.mp h
  rw [Prod.mk.injEq, Prod.mk.injEq] at h
  exact ⟨s, r₁, r₂, hrun, hr₁, hr₂, of_decide_eq_true h.1, h.2.1, h.2.2⟩

theorem beginsBefore_both (rest : List Act) :
    BeginsBefore 1 2 (.begin 1 .serializable :: .begin 2 .serializable :: rest) ∧
      BeginsBefore 2 1 (.begin 1 .serializable :: .begin 2 .serializable :: rest) :=
  ⟨⟨[], _, _, _, rfl, rfl, rfl⟩, ⟨[.begin 1 .serializable], _, _, _, rfl, rfl, rfl⟩⟩

/-- The second check finds the stamp of the first commit. -/
theorem allChecksSee_oneAfterTheOther : AllChecksSee oneAfterTheOther := by
  rintro before a rest t heq ht i r key todo rfl hr hphase j r' hji hr' hkey ⟨key', _, hchecked⟩ _
  obtain ⟨hat, htake⟩ := position_of_split heq
  have hlen : before.length < 14 := (List.getElem?_eq_some_iff.mp hat).1
  have hcases : (before.length = 7 ∧ i = 1) ∨ (before.length = 8 ∧ i = 1) ∨
      (before.length = 13 ∧ i = 2) := by
    generalize before.length = n at hat hlen
    interval_cases n <;> simp [oneAfterTheOther] at hat <;> simp [hat]
  rw [htake] at ht
  rcases hcases with ⟨hn, rfl⟩ | ⟨hn, rfl⟩ | ⟨hn, rfl⟩
  · -- nobody else has started to commit
    rw [hn] at ht
    obtain ⟨isolation, hbegin⟩ := mem_begin_of_run ht hr'
    obtain rfl : j = 2 := by
      simp [oneAfterTheOther] at hbegin
      omega
    have hactive : ((System.init.run (oneAfterTheOther.take 7)).bind fun t => t.txns 2).map
        Running.phase = some .active := by
      decide +kernel
    rw [ht, Option.bind_some, hr', Option.map_some, Option.some_inj] at hactive
    have hpast := hchecked.2.2
    rw [hactive] at hpast
    exact hpast.elim
  · -- there is no key left to check
    rw [hn] at ht
    have hdone : ((System.init.run (oneAfterTheOther.take 8)).bind fun t => t.txns 1).map
        Running.phase = some (.validating []) := by
      decide +kernel
    rw [ht, Option.bind_some, hr, Option.map_some, hphase] at hdone
    exact absurd hdone (by simp)
  · rw [hn] at ht
    have hsince : ((System.init.run (oneAfterTheOther.take 13)).map fun t =>
        t.store.hasCommittedSince "b" 0) = some true := by
      decide +kernel
    have hcheck : (((System.init.run (oneAfterTheOther.take 13)).bind fun t => t.txns 2).map
        fun r => (r.phase, r.txn.snapshotTs)) = some (.validating ["b"], 0) := by
      decide +kernel
    rw [ht, Option.map_some, Option.some_inj] at hsince
    rw [ht, Option.bind_some, hr, Option.map_some, Option.some_inj, Prod.mk.injEq, hphase] at hcheck
    obtain ⟨hkeys, hsnapshot⟩ := hcheck
    simp only [Phase.validating.injEq, List.cons.injEq] at hkeys
    rw [hkeys.1, hsnapshot]
    exact hsince

/-- The first one commits, the second one fails. -/
theorem no_write_skew_checked : ∃ s r₁ r₂, System.init.run oneAfterTheOther = some s ∧
    s.txns 1 = some r₁ ∧ s.txns 2 = some r₂ ∧ r₁.result = some (.ok 1) ∧
    r₂.result = some (.error "serialization conflict on key=b") ∧
    ¬((∃ ts, r₁.result = some (.ok ts)) ∧ ∃ ts, r₂.result = some (.ok ts)) := by
  obtain ⟨s, r₁, r₂, hrun, hr₁, hr₂, ⟨⟨hser₁, hread₁, hwrite₁⟩, hser₂, hread₂, hwrite₂⟩, hok, herr⟩ :=
    @exists_of_pairRun oneAfterTheOther (some (.ok 1))
      (some (.error "serialization conflict on key=b")) (by decide +kernel)
  obtain ⟨hb₁, hb₂⟩ := beginsBefore_both (oneAfterTheOther.drop 2)
  exact ⟨s, r₁, r₂, hrun, hr₁, hr₂, hok, herr, no_write_skew hrun allChecksSee_oneAfterTheOther
    (by decide) hr₁ hr₂ hser₁ hser₂ hb₁ hb₂ hread₁ hwrite₂ hread₂ hwrite₁⟩

/-- Both transactions commit. -/
theorem write_skew_commits :
    ¬∀ (acts : List Act) (s : System) (i j : ℕ) (ri rj : Running) (ki kj : String),
      System.init.run acts = some s → i ≠ j → s.txns i = some ri → s.txns j = some rj →
      ri.txn.isolation = .serializable → rj.txn.isolation = .serializable →
      BeginsBefore i j acts → BeginsBefore j i acts → ki ∈ ri.txn.reads → ki ∈ rj.txn.writes →
      kj ∈ rj.txn.reads → kj ∈ ri.txn.writes →
      ¬((∃ ts, ri.result = some (.ok ts)) ∧ ∃ ts, rj.result = some (.ok ts)) := by
  intro h
  obtain ⟨s, r₁, r₂, hrun, hr₁, hr₂, ⟨⟨hser₁, hread₁, hwrite₁⟩, hser₂, hread₂, hwrite₂⟩, hok₁, hok₂⟩ :=
    @exists_of_pairRun bothCheckFirst (some (.ok 1)) (some (.ok 2)) (by decide +kernel)
  obtain ⟨hb₁, hb₂⟩ := beginsBefore_both (bothCheckFirst.drop 2)
  exact h bothCheckFirst s 1 2 r₁ r₂ "a" "b" hrun (by decide) hr₁ hr₂ hser₁ hser₂ hb₁ hb₂ hread₁
    hwrite₂ hread₂ hwrite₁ ⟨⟨1, hok₁⟩, ⟨2, hok₂⟩⟩

end Mvcc

end Uldb
