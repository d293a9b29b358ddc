/-
What a transaction at level snapshot or serializable sees.

A snapshot is a timestamp, and begin takes it from the counter that commits draw
from.  If no commit is between its draw and its last stamp when a transaction
begins, then no later stamp is at or below the snapshot, and what the transaction
sees of a chain never changes:

* `Frozen.step` — no later stamp falls at or below the snapshot;
* `visible_stable` — the visible versions of every chain stay the same;
* `snapshot_consistent` — reads repeat, and another commit is seen as a whole or
  not at all, if no intent came between its intents and its stamps;
* `snapshot_torn` — a begin between a draw and a stamp, and a read that changes.
-/
import Uldb.MvccCommit

namespace Uldb

namespace Mvcc

open Fallible

/-- No transaction has drawn its timestamp and still has a key to stamp. -/
def NoneStamping (s : System) : Prop :=
  ∀ id ts key value, drawn (s.txns id) = some ts → slot (s.txns id) key ≠ .pending value

/-- The transaction sees the write of another one to a key: the chain has a version
of it that a read at the snapshot does not skip.  It is what the read returns, or it
lies below that. -/
def Sees (s : System) (id other : ℕ) (key : String) : Prop :=
  ∃ r, s.txns id = some r ∧
    ∃ ver ∈ s.store.chain key, ver.txnId = other ∧ ver.visible r.txn.snapshotTs = true

/-- A state in the course of a run. -/
def During (s₀ : System) (a : Act) (acts : List Act) (s : System) : Prop :=
  ∃ acts₁ acts₂, acts = acts₁ ++ acts₂ ∧ s₀.run (a :: acts₁) = some s

/-- A key that the transaction has not written reads the same at all times after its
begin. -/
def RepeatableReads (s₀ : System) (id : ℕ) (isolation : Isolation) (acts : List Act) : Prop :=
  ∀ s s' key, During s₀ (.begin id isolation) acts s → During s₀ (.begin id isolation) acts s' →
    (∀ r, s.txns id = some r → r.txn.writes[key]? = none) →
    (∀ r, s'.txns id = some r → r.txn.writes[key]? = none) → s.get id key = s'.get id key

/-- At all times after its begin, the transaction sees all the writes of another one;
or at no time it sees any of them. -/
def AllOrNone (s₀ : System) (id : ℕ) (isolation : Isolation) (acts : List Act) (other : ℕ)
    (writes : Std.TreeMap String Bytes) : Prop :=
  (∀ s, During s₀ (.begin id isolation) acts s → ∀ key ∈ writes, Sees s id other key) ∨
    ∀ s, During s₀ (.begin id isolation) acts s → ∀ key ∈ writes, ¬Sees s id other key

/-! ### What is at or below a snapshot -/

theorem visible_iff {ver : Version} {n : ℕ} :
    ver.visible n = true ↔ ∃ ts, ver.commitTs = some ts ∧ ts ≤ n := by
  rw [Version.visible, Option.any_eq_true]
  simp

/-- Whoever has drawn a timestamp at or below the snapshot has stamped all its keys. -/
structure Frozen (snapshotTs : ℕ) (s : System) : Prop where
  bound : snapshotTs ≤ s.store.ts
  stamped : ∀ id ts key value, drawn (s.txns id) = some ts → ts ≤ snapshotTs →
    slot (s.txns id) key ≠ .pending value

variable {s s' : System} {a : Act} {acts : List Act} {n id : ℕ}

theorem Frozen.step (hs : Frozen n s) (h : Effect s a s') : Frozen n s' := by
  refine ⟨hs.bound.trans h.ts_le, fun id ts key value hdrawn hle hslot => ?_⟩
  rcases h.drawn_eq id with heq | ⟨_, hnew, _, _⟩
  · rw [heq] at hdrawn
    by_cases hintent : a = .writeIntent id key
    · -- an intent comes before the draw
      subst hintent
      obtain ⟨_, _, _, _, hnone⟩ := h.of_writeIntent
      rw [hdrawn] at hnone
      exact absurd hnone (by simp)
    · by_cases hstamp : a = .commitKey id key
      · subst hstamp
        obtain ⟨value', _, _, hpending, _⟩ := h.of_commitKey
        exact hs.stamped id ts key value' hdrawn hle hpending
      · rw [h.slot_eq hintent hstamp] at hslot
        exact hs.stamped id ts key value hdrawn hle hslot
  · -- a new timestamp is above the snapshot
    rw [hnew, Option.some_inj] at hdrawn
    have := hs.bound
    omega

theorem filter_stampHead {id ts : ℕ} (h : n < ts) (vs : List Version) :
    (MvccStore.stampHead id ts vs).filter (·.visible n) = vs.filter (·.visible n) := by
  cases vs with
  | nil => rfl
  | cons ver vs =>
    rw [MvccStore.stampHead]
    by_cases hver : ver.txnId = id ∧ ver.commitTs = none
    · have hold : ver.visible n = false := by simp [Version.visible, hver.2]
      have hnew : ({ ver with commitTs := some ts } : Version).visible n = false := by
        simp [Version.visible, h]
      rw [if_pos hver, List.filter_cons_of_neg (by simp [hnew]),
        List.filter_cons_of_neg (by simp [hold])]
    · rw [if_neg hver]

/-- One act leaves the visible versions of a chain alone. -/
theorem Frozen.visible_eq (hs : Frozen n s) (h : Effect s a s') (key : String) :
    (s'.store.chain key).filter (·.visible n) = (s.store.chain key).filter (·.visible n) := by
  rcases h.chain_eq key with ⟨_, hchain⟩ | ⟨id, value, _, hchain, _⟩ |
    ⟨id, value, ts, _, hchain, hslot, _, hdrawn⟩
  · rw [hchain]
  · rw [hchain]
    exact List.filter_cons_of_neg (by simp [Version.visible])
  · rw [hchain]
    refine filter_stampHead ?_ _
    by_contra hle
    exact hs.stamped id ts key value hdrawn (by omega) hslot

/-- **The visible versions of every chain stay the same.** -/
theorem visible_stable (hs : Frozen n s) (h : s.run acts = some s') (key : String) :
    (s'.store.chain key).filter (·.visible n) = (s.store.chain key).filter (·.visible n) := by
  refine (foldlM_induction (P := fun t => Frozen n t ∧
    (t.store.chain key).filter (·.visible n) = (s.store.chain key).filter (·.visible n))
    h ⟨hs, rfl⟩ fun l _ t t' ht hstep => ?_).2
  have heff := effect_of_step hstep
  exact ⟨ht.1.step heff, (ht.1.visible_eq heff key).trans ht.2⟩

/-- What is visible decides what is read. -/
theorem read_eq (store : MvccStore) (key : String) :
    store.read key n = (((store.chain key).filter (·.visible n)).head?).map (·.value) := by
  rw [MvccStore.read, List.head?_filter]

/-! ### The transaction -/

/-- The transaction goes on with the same snapshot and level. -/
theorem Effect.continues (h : Effect s a s') {r : Running} (hr : s.txns id = some r) :
    ∃ r', s'.txns id = some r' ∧ r'.txn.Continues r.txn := by
  by_cases hid : id = a.id
  · subst hid
    cases h with
    | quiet _ _ _ _ _ hkept => exact ⟨_, txns_set_self _ _ _, hkept r hr⟩
    | intent hr' =>
      obtain rfl := Option.some_inj.mp (hr'.symm.trans hr)
      exact ⟨_, txns_set_self _ _ _, ⟨rfl, rfl⟩⟩
    | draw hr' =>
      obtain rfl := Option.some_inj.mp (hr'.symm.trans hr)
      exact ⟨_, txns_set_self _ _ _, ⟨rfl, rfl⟩⟩
    | stamp hr' =>
      obtain rfl := Option.some_inj.mp (hr'.symm.trans hr)
      exact ⟨_, txns_set_self _ _ _, ⟨rfl, rfl⟩⟩
  · exact ⟨r, (h.txns_eq hid).trans hr, .refl _⟩

theorem continues_run {r : Running} (hr : s.txns id = some r) (h : s.run acts = some s') :
    ∃ r', s'.txns id = some r' ∧ r'.txn.Continues r.txn := by
  refine foldlM_induction (P := fun t => ∃ r', t.txns id = some r' ∧ r'.txn.Continues r.txn)
    h ⟨r, hr, .refl _⟩ fun l _ t t' ht hstep => ?_
  obtain ⟨r₁, hr₁, hc₁⟩ := ht
  obtain ⟨r₂, hr₂, hc₂⟩ := (effect_of_step hstep).continues hr₁
  exact ⟨r₂, hr₂, hc₂.snapshotTs.trans hc₁.snapshotTs, hc₂.isolation.trans hc₁.isolation⟩

/-- A transaction that has stamped all its keys takes no further step. -/
theorem finished_run {other ts : ℕ} (hdrawn : drawn (s.txns other) = some ts)
    (hslot : ∀ key value, slot (s.txns other) key ≠ .pending value) (h : s.run acts = some s') :
    s'.txns other = s.txns other := by
  refine foldlM_induction (P := fun t => t.txns other = s.txns other) h rfl
    fun l _ t t' ht hstep => ?_
  rw [← ht] at hdrawn hslot
  have heff := effect_of_step hstep
  by_cases hid : other = l.id
  · subst hid
    cases heff with
    | quiet _ _ _ hnone =>
      rw [hdrawn] at hnone
      exact absurd hnone (by simp)
    | @intent id _ _ _ _ hr hphase =>
      have hnone : drawn (t.txns id) = none := by simp [drawn, hr, hphase]
      exact absurd (hnone.symm.trans hdrawn) (by simp)
    | @draw id _ _ hr hphase =>
      have hnone : drawn (t.txns id) = none := by simp [drawn, hr, hphase]
      exact absurd (hnone.symm.trans hdrawn) (by simp)
    | @stamp id key r ts visited value hr hphase hvalue hnew =>
      have hpending : slot (t.txns id) key = .pending value := by
        simp [slot, hr, hphase, hvalue, hnew]
      exact absurd hpending (hslot key value)
  · rw [heff.txns_eq hid, ht]

/-- The keys of a transaction that has drawn a timestamp. -/
theorem slot_of_drawn {r : Running} {ts : ℕ} (h : drawn (some r) = some ts) {key : String}
    {value : Bytes} (hvalue : r.txn.writes[key]? = some value) :
    slot (some r) key = .pending value ∨ slot (some r) key = .passed value ts := by
  rw [drawn, Option.bind_some] at h
  cases hphase : r.phase with
  | stamping ts' visited =>
    rw [hphase, Option.some_inj] at h
    subst h
    by_cases hmem : key ∈ visited
    · exact .inr (by simp [slot, hphase, hvalue, hmem])
    · exact .inl (by simp [slot, hphase, hvalue, hmem])
  | _ =>
    rw [hphase] at h
    exact absurd h (by simp)

/-- The transaction in the course of the run: its snapshot is the counter at its begin,
and it sees the versions that were visible then. -/
theorem during_spec {s₀ : System} {isolation : Isolation} (hbegin : NoneStamping s₀)
    (hd : During s₀ (.begin id isolation) acts s) :
    ∃ r, s.txns id = some r ∧ r.txn.snapshotTs = s₀.store.ts ∧ r.txn.isolation = isolation ∧
      ∀ key, (s.store.chain key).filter (·.visible s₀.store.ts)
        = (s₀.store.chain key).filter (·.visible s₀.store.ts) := by
  obtain ⟨acts₁, acts₂, _, hrun⟩ := hd
  have hfrozen : Frozen s₀.store.ts s₀ :=
    ⟨le_refl _, fun id' ts key value hdrawn _ => hbegin id' ts key value hdrawn⟩
  have hvisible := visible_stable hfrozen hrun
  obtain ⟨s₁, hstep, hrun⟩ := foldlM_cons_eq_some.mp hrun
  obtain ⟨_, rfl⟩ := System.begin_eq_some hstep
  obtain ⟨r, hr, hc⟩ := continues_run (txns_set_self s₀ id _) hrun
  exact ⟨r, hr, hc.snapshotTs, hc.isolation, hvisible⟩

/-- **Snapshots.**  A transaction at level snapshot or serializable begins while no
commit is between its draw and its last stamp.  Then its reads repeat, and it sees all
or none of the writes of every other transaction for which no intent came between the
intents of its commit and their stamps. -/
theorem snapshot_consistent {acts₀ : List Act} {s₀ s₁ : System} {isolation : Isolation}
    (hiso : isolation ≠ .readCommitted) (h₀ : System.init.run acts₀ = some s₀)
    (hbegin : NoneStamping s₀) (h₁ : s₀.run (.begin id isolation :: acts) = some s₁) :
    RepeatableReads s₀ id isolation acts ∧ ∀ other r, s₁.txns other = some r →
      (∀ key ∈ r.txn.writes, Undisturbed other key (acts₀ ++ .begin id isolation :: acts)) →
      AllOrNone s₀ id isolation acts other r.txn.writes := by
  -- a read returns the first version that was visible at the begin
  have hget : ∀ s key, During s₀ (.begin id isolation) acts s →
      (∀ r, s.txns id = some r → r.txn.writes[key]? = none) →
      s.get id key
        = (((s₀.store.chain key).filter (·.visible s₀.store.ts)).head?).map (·.value) := by
    intro s key hd hunwritten
    obtain ⟨r, hr, hts, hlevel, hvisible⟩ := during_spec hbegin hd
    rw [System.get, hr, Option.bind_some, Transaction.get, hunwritten r hr, hlevel, ← hvisible,
      ← read_eq, ← hts]
    cases isolation with
    | readCommitted => exact absurd rfl hiso
    | snapshot => rfl
    | serializable => rfl
  have hsees : ∀ s other key, During s₀ (.begin id isolation) acts s →
      (Sees s id other key ↔ ∃ ver ∈ (s₀.store.chain key).filter (·.visible s₀.store.ts),
        ver.txnId = other) := by
    intro s other key hd
    obtain ⟨r, hr, hts, _, hvisible⟩ := during_spec hbegin hd
    rw [← hvisible, ← hts]
    constructor
    · rintro ⟨r', hr', ver, hver, hother, hvis⟩
      obtain rfl := Option.some_inj.mp (hr.symm.trans hr')
      exact ⟨ver, List.mem_filter.mpr ⟨hver, hvis⟩, hother⟩
    · rintro ⟨ver, hver, hother⟩
      obtain ⟨hver, hvis⟩ := List.mem_filter.mp hver
      exact ⟨r, hr, ver, hver, hother, hvis⟩
  refine ⟨fun s s' key hd hd' hw hw' => (hget s key hd hw).trans (hget s' key hd' hw').symm,
    fun other r hr hundist => ?_⟩
  have hstamps := Stamps.reachable h₀
  cases hdrawn : drawn (s₀.txns other) with
  | none =>
    -- not drawn at the begin: no version of it is stamped
    right
    intro s hd key _ hsee
    obtain ⟨ver, hver, rfl⟩ := (hsees s other key hd).mp hsee
    obtain ⟨hver, hvis⟩ := List.mem_filter.mp hver
    obtain ⟨ts, hts, _⟩ := visible_iff.mp hvis
    rw [hstamps.stamped key ver hver ts hts] at hdrawn
    exact absurd hdrawn (by simp)
  | some ts =>
    -- drawn at the begin, and then all its keys are stamped
    left
    intro s hd key hkey
    have hsame : s₁.txns other = s₀.txns other :=
      finished_run hdrawn (fun key value => hbegin other ts key value hdrawn) h₁
    have hrun : System.init.run (acts₀ ++ .begin id isolation :: acts) = some s₁ :=
      foldlM_append_eq_some.mpr ⟨s₀, h₀, h₁⟩
    obtain ⟨value, hvalue⟩ := Option.isSome_iff_exists.mp
      (Std.TreeMap.mem_iff_isSome_getElem?.mp hkey)
    have hpassed : slot (s₁.txns other) key = .passed value ts := by
      rw [← hsame, hr] at hdrawn
      rw [hr]
      rcases slot_of_drawn hdrawn hvalue with hpending | hpassed
      · rw [← hr, hsame] at hpending
        rw [← hr, hsame] at hdrawn
        exact absurd hpending (hbegin other ts key value hdrawn)
      · exact hpassed
    have hmem := (stamped_of_passed hrun hpassed).1 (hundist key hkey)
    -- the version is visible at the end, and so at all times
    have hend : During s₀ (.begin id isolation) acts s₁ := ⟨acts, [], by simp, h₁⟩
    obtain ⟨_, _, _, _, hvisible⟩ := during_spec hbegin hend
    rw [hsees s other key hd, ← hvisible]
    exact ⟨_, List.mem_filter.mpr
      ⟨hmem, visible_iff.mpr ⟨ts, rfl, hstamps.bound other ts hdrawn⟩⟩, rfl⟩

/-! ### One writer and one reader -/

/-- A second transaction writes one key and commits. -/
def otherCommit : List Act :=
  [.begin 2 .snapshot, .put 2 "x" [2], .commit 2, .writeIntent 2 "x", .nextTs 2, .commitKey 2 "x"]

/-- A reader that begins first reads the same before and after the commit. -/
theorem snapshot_consistent_first : ∃ s s',
    System.init.run [.begin 1 .snapshot] = some s ∧
      System.init.run (.begin 1 .snapshot :: otherCommit) = some s' ∧
      s.get 1 "x" = s'.get 1 "x" := by
  have hsome : (System.init.run [.begin 1 .snapshot]).isSome = true := by decide +kernel
  have hsome' : (System.init.run (.begin 1 .snapshot :: otherCommit)).isSome = true := by
    decide +kernel
  obtain ⟨s, hs⟩ := Option.isSome_iff_exists.mp hsome
  obtain ⟨s', hs'⟩ := Option.isSome_iff_exists.mp hsome'
  have hunwritten : ∀ {acts : List Act} {t : System}, System.init.run acts = some t →
      ((System.init.run acts).bind fun t => (t.txns 1).map fun r => r.txn.writes["x"]?)
        = some none →
      ∀ r, t.txns 1 = some r → r.txn.writes["x"]? = none := by
    intro acts t ht hw r hr
    rw [ht, Option.bind_some, hr, Option.map_some, Option.some_inj] at hw
    exact hw
  have hquiet : NoneStamping System.init := by
    intro id ts key value hdrawn
    exact absurd hdrawn (by simp [System.init, drawn])
  have hinit : System.init.run [] = some System.init := rfl
  have hreads := (snapshot_consistent (by simp) hinit hquiet hs').1
  exact ⟨s, s', hs, hs', hreads s s' "x" ⟨[], otherCommit, rfl, hs⟩ ⟨otherCommit, [], rfl, hs'⟩
    (hunwritten hs (by decide +kernel)) (hunwritten hs' (by decide +kernel))⟩

/-- A writer has drawn its timestamp and not yet stamped its key. -/
def halfCommit : List Act :=
  [.begin 2 .snapshot, .put 2 "x" [2], .commit 2, .writeIntent 2 "x", .nextTs 2]

/-- The writer's half commit, then the begin of a reader, then the stamp: the states
after each of them. -/
def tornRun : Option (System × System × System) :=
  (System.init.run halfCommit).bind fun s₀ => (s₀.run [.begin 1 .snapshot]).bind fun s =>
    (s₀.run [.begin 1 .snapshot, .commitKey 2 "x"]).map fun s' => (s₀, s, s')

/-- A reader that begins before the stamp reads another value after it. -/
theorem snapshot_torn :
    ¬∀ (acts₀ acts : List Act) (s₀ s₁ : System) (id : ℕ) (isolation : Isolation),
      isolation ≠ .readCommitted → System.init.run acts₀ = some s₀ →
      s₀.run (.begin id isolation :: acts) = some s₁ →
      RepeatableReads s₀ id isolation acts ∧ ∀ other r, s₁.txns other = some r →
        AllOrNone s₀ id isolation acts other r.txn.writes := by
  intro h
  have hsome : tornRun.isSome = true := by decide +kernel
  obtain ⟨⟨s₀, s, s'⟩, hall⟩ := Option.isSome_iff_exists.mp hsome
  have hreads : tornRun.map (fun ss => (ss.2.1.get 1 "x", ss.2.2.get 1 "x"))
      = some (none, some [2]) := by
    decide +kernel
  have hwrites : tornRun.map (fun ss =>
      ((ss.2.1.txns 1).any (fun r => r.txn.writes["x"]?.isSome),
        (ss.2.2.txns 1).any (fun r => r.txn.writes["x"]?.isSome))) = some (false, false) := by
    decide +kernel
  have hnone : ∀ {t : System}, (t.txns 1).any (fun r => r.txn.writes["x"]?.isSome) = false →
      ∀ r, t.txns 1 = some r → r.txn.writes["x"]? = none := by
    intro t ht r hr
    rw [hr, Option.any_some] at ht
    exact Option.not_isSome_iff_eq_none.mp (by simp only [ht]; simp)
  rw [hall, Option.map_some, Option.some_inj, Prod.mk.injEq] at hreads hwrites
  obtain ⟨s₀', hrun₀, hbind⟩ := Option.bind_eq_some_iff.mp hall
  obtain ⟨t, hrun, hmap⟩ := Option.bind_eq_some_iff.mp hbind
  obtain ⟨t', hrun', heq⟩ := Option.map_eq_some_iff.mp hmap
  rw [Prod.mk.injEq, Prod.mk.injEq] at heq
  obtain ⟨rfl, rfl, rfl⟩ := heq
  obtain ⟨hrepeat, _⟩ := h halfCommit [.commitKey 2 "x"] s₀' t' 1 .snapshot (by simp) hrun₀ hrun'
  have hsame := hrepeat t t' "x" ⟨[], _, rfl, hrun⟩ ⟨_, [], rfl, hrun'⟩
    (hnone hwrites.1) (hnone hwrites.2)
  rw [hreads.1, hreads.2] at hsame
  exact absurd hsame (by decide)

end Mvcc

end Uldb
