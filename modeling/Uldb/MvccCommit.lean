/-
What a commit of a transaction leaves in the version chains.

A stamp goes to the head of the chain only, and nothing looks at whether it was
set.  So a commit writes a key exactly if no intent is installed on that key
between its own intent and its stamp:

* `Progress.step` — one act moves a commit on with a key, or leaves it where it is;
* `version_iff` — one key of a commit that has returned;
* `commit_complete_iff` — all keys of it;
* `commit_lost` — two commits on one key, and the first one writes nothing.
-/
import Uldb.Mvcc

namespace Uldb

namespace Mvcc

open Fallible

/-- The acts between the intent of a transaction on a key and its stamp. -/
def between (id : ℕ) (key : String) (acts : List Act) : List Act :=
  ((acts.dropWhile (· ≠ .writeIntent id key)).drop 1).takeWhile (· ≠ .commitKey id key)

/-- No intent is installed on the key between the intent of the transaction and its
stamp. -/
def Undisturbed (id : ℕ) (key : String) (acts : List Act) : Prop :=
  ∀ other, .writeIntent other key ∉ between id key acts

theorem between_eq {id : ℕ} {key : String} {first middle last : List Act}
    (hfirst : .writeIntent id key ∉ first) (hmiddle : .commitKey id key ∉ middle) :
    between id key (first ++ .writeIntent id key :: (middle ++ .commitKey id key :: last))
      = middle := by
  have hne : ∀ {x y : Act} {l : List Act}, y ∉ l → x ∈ l → decide (x ≠ y) = true := by
    intro x y l hy hx
    exact decide_eq_true fun heq => hy (heq ▸ hx)
  rw [between, List.dropWhile_append_of_pos fun x hx => hne hfirst hx]
  simp only [ne_eq, not_true_eq_false, decide_false, Bool.false_eq_true, not_false_eq_true,
    List.dropWhile_cons_of_neg, List.drop_succ_cons, List.drop_zero]
  rw [List.takeWhile_append_of_pos fun x hx => hne hmiddle hx]
  simp

/-- How far the commit of a transaction has come with a key, with the history and
what is left of it in the chain. -/
inductive Progress (id : ℕ) (key : String) (acts : List Act) (s : System) : Prop
  | before (hslot : slot (s.txns id) key = .before) (hacts : .writeIntent id key ∉ acts)
      (hchain : ∀ ver ∈ s.store.chain key, ver.txnId ≠ id)
  | pending {value : Bytes} {first middle : List Act} {newer older : List Version}
      (hslot : slot (s.txns id) key = .pending value)
      (hacts : acts = first ++ .writeIntent id key :: middle)
      (hfirst : .writeIntent id key ∉ first) (hmiddle : .commitKey id key ∉ middle)
      (hchain : s.store.chain key = newer ++ ⟨value, id, none⟩ :: older)
      (hothers : ∀ ver ∈ newer ++ older, ver.txnId ≠ id)
      (hnewer : newer = [] ↔ ∀ other, .writeIntent other key ∉ middle)
  | passed {value : Bytes} {ts : ℕ} {first middle last : List Act}
      (hslot : slot (s.txns id) key = .passed value ts)
      (hacts : acts = first ++ .writeIntent id key :: (middle ++ .commitKey id key :: last))
      (hfirst : .writeIntent id key ∉ first) (hmiddle : .commitKey id key ∉ middle)
      (hkept : (∀ other, .writeIntent other key ∉ middle) →
        ⟨value, id, some ts⟩ ∈ s.store.chain key)
      (hlost : ¬(∀ other, .writeIntent other key ∉ middle) →
        ∀ ver ∈ s.store.chain key, ver.txnId = id → ver.commitTs = none)

variable {id : ℕ} {key : String} {acts : List Act} {s s' : System} {a : Act}

/-- A stamp of another transaction does not touch a version. -/
theorem stampHead_append {id' ts : ℕ} (hid : id' ≠ id) (value : Bytes)
    (newer older : List Version) :
    MvccStore.stampHead id' ts (newer ++ ⟨value, id, none⟩ :: older)
      = MvccStore.stampHead id' ts newer ++ ⟨value, id, none⟩ :: older := by
  cases newer with
  | nil =>
    simp [MvccStore.stampHead, Ne.symm hid]
  | cons ver newer =>
    rw [List.cons_append, MvccStore.stampHead, MvccStore.stampHead]
    by_cases hver : ver.txnId = id' ∧ ver.commitTs = none
    · rw [if_pos hver, if_pos hver]
      rfl
    · rw [if_neg hver, if_neg hver]
      rfl

theorem stampHead_eq_nil {id' ts : ℕ} {vs : List Version} :
    MvccStore.stampHead id' ts vs = [] ↔ vs = [] := by
  cases vs with
  | nil => simp [MvccStore.stampHead]
  | cons ver vs =>
    rw [MvccStore.stampHead]
    by_cases hver : ver.txnId = id' ∧ ver.commitTs = none <;> simp [hver]

/-- A version that is stamped stays as it is. -/
theorem mem_stampHead_of_stamped {id' ts ts' : ℕ} {vs : List Version} {ver : Version}
    (h : ver ∈ vs) (hver : ver.commitTs = some ts') : ver ∈ MvccStore.stampHead id' ts vs := by
  cases vs with
  | nil => exact absurd h (by simp)
  | cons v vs =>
    rw [MvccStore.stampHead]
    by_cases hv : v.txnId = id' ∧ v.commitTs = none
    · rw [if_pos hv]
      rcases List.mem_cons.mp h with rfl | h
      · rw [hver] at hv
        exact absurd hv.2 (by simp)
      · exact List.mem_cons_of_mem _ h
    · rw [if_neg hv]
      exact h

/-- The own versions after an act of another transaction were there before it. -/
theorem Effect.mem_of_own (h : Effect s a s') (ha : a ≠ .writeIntent id key)
    (ha' : a ≠ .commitKey id key) {ver : Version} (hver : ver ∈ s'.store.chain key)
    (hid : ver.txnId = id) : ver ∈ s.store.chain key := by
  rcases h.chain_eq key with ⟨_, hchain⟩ | ⟨id', _, rfl, hchain, _⟩ |
    ⟨id', _, _, rfl, hchain, _⟩
  · rw [hchain] at hver
    exact hver
  · rw [hchain] at hver
    rcases List.mem_cons.mp hver with rfl | hver
    · exact absurd (by rw [show id' = id from hid]) ha
    · exact hver
  · rw [hchain] at hver
    rcases mem_stampHead hver with hver | ⟨hid', _⟩
    · exact hver
    · exact absurd (by rw [← hid', hid]) ha'

/-- No act takes a stamped version away. -/
theorem Effect.mem_of_stamped (h : Effect s a s') {ver : Version} {ts : ℕ}
    (hver : ver ∈ s.store.chain key) (hts : ver.commitTs = some ts) :
    ver ∈ s'.store.chain key := by
  rcases h.chain_eq key with ⟨_, hchain⟩ | ⟨_, _, _, hchain, _⟩ | ⟨_, _, _, _, hchain, _⟩
  · rw [hchain]
    exact hver
  · rw [hchain]
    exact List.mem_cons_of_mem _ hver
  · rw [hchain]
    exact mem_stampHead_of_stamped hver hts

/-- The own stamp hits the own version if that is the head, and misses it otherwise. -/
theorem mem_stampHead_own (value : Bytes) (ts : ℕ) {newer older : List Version}
    (hothers : ∀ ver ∈ newer ++ older, ver.txnId ≠ id) :
    (newer = [] →
      ⟨value, id, some ts⟩ ∈ MvccStore.stampHead id ts (newer ++ ⟨value, id, none⟩ :: older)) ∧
    (newer ≠ [] →
      ∀ ver ∈ MvccStore.stampHead id ts (newer ++ ⟨value, id, none⟩ :: older),
        ver.txnId = id → ver.commitTs = none) := by
  constructor
  · rintro rfl
    rw [List.nil_append, MvccStore.stampHead, if_pos ⟨rfl, rfl⟩]
    exact List.mem_cons_self
  · intro hne ver hver hid
    obtain ⟨top, newer', rfl⟩ := List.exists_cons_of_ne_nil hne
    have htop : ¬(top.txnId = id ∧ top.commitTs = none) := fun hc =>
      hothers top (by simp) hc.1
    rw [List.cons_append, MvccStore.stampHead, if_neg htop, ← List.cons_append] at hver
    rcases List.mem_append.mp hver with hver | hver
    · exact absurd hid (hothers ver (List.mem_append_left _ hver))
    · rcases List.mem_cons.mp hver with rfl | hver
      · rfl
      · exact absurd hid (hothers ver (List.mem_append_right _ hver))

/-- An act of another transaction may put an intent over a pending version, and
changes nothing else about it. -/
theorem Effect.chain_of_pending (h : Effect s a s') (ha : a ≠ .writeIntent id key)
    (ha' : a ≠ .commitKey id key) {value : Bytes} {newer older : List Version}
    (hchain : s.store.chain key = newer ++ ⟨value, id, none⟩ :: older)
    (hothers : ∀ ver ∈ newer ++ older, ver.txnId ≠ id) :
    ∃ newer', s'.store.chain key = newer' ++ ⟨value, id, none⟩ :: older ∧
      (∀ ver ∈ newer' ++ older, ver.txnId ≠ id) ∧
      (newer' = [] ↔ newer = [] ∧ ∀ other, a ≠ .writeIntent other key) := by
  rcases h.chain_eq key with ⟨hne, hchain'⟩ | ⟨id', value', rfl, hchain', _⟩ |
    ⟨id', _, ts, rfl, hchain', _⟩
  · exact ⟨newer, hchain'.trans hchain, hothers, (and_iff_left fun id => (hne id).1).symm⟩
  · refine ⟨⟨value', id', none⟩ :: newer, by rw [hchain', hchain, List.cons_append],
      fun ver hver => ?_, by simp⟩
    rcases List.mem_cons.mp (List.cons_append ▸ hver) with rfl | hver
    · exact fun heq => ha (by rw [show id' = id from heq])
    · exact hothers ver hver
  · have hid' : id' ≠ id := fun heq => ha' (by rw [heq])
    rw [hchain, stampHead_append hid'] at hchain'
    refine ⟨MvccStore.stampHead id' ts newer, hchain', fun ver hver => ?_, ?_⟩
    · rcases List.mem_append.mp hver with hver | hver
      · rcases mem_stampHead hver with hver | ⟨hver, _⟩
        · exact hothers ver (List.mem_append_left _ hver)
        · rw [hver]
          exact hid'
      · exact hothers ver (List.mem_append_right _ hver)
    · rw [stampHead_eq_nil]
      simp

/-- **One act** moves a commit on with a key, or leaves it where it is. -/
theorem Progress.step (hp : Progress id key acts s) (h : Effect s a s') :
    Progress id key (acts ++ [a]) s' := by
  -- which calls the slot allows
  have hintent : a = .writeIntent id key → slot (s.txns id) key = .before := by
    rintro rfl
    obtain ⟨_, _, hslot, _⟩ := h.of_writeIntent
    exact hslot
  have hstamp : a = .commitKey id key → ∃ value, slot (s.txns id) key = .pending value := by
    rintro rfl
    obtain ⟨value, _, _, hslot, _⟩ := h.of_commitKey
    exact ⟨value, hslot⟩
  cases hp with
  | before hslot hacts hchain =>
    by_cases ha : a = .writeIntent id key
    · subst ha
      obtain ⟨value, hchain', _, hslot', _⟩ := h.of_writeIntent
      have hchain₁ : s'.store.chain key = [] ++ ⟨value, id, none⟩ :: s.store.chain key := hchain'
      exact .pending hslot' (rfl : _ = acts ++ .writeIntent id key :: []) hacts (by simp) hchain₁
        hchain (by simp)
    · have ha' : a ≠ .commitKey id key := by
        intro heq
        obtain ⟨value, hpending⟩ := hstamp heq
        rw [hslot] at hpending
        exact absurd hpending (by simp)
      refine .before ((h.slot_eq ha ha').trans hslot) ?_ fun ver hver hid => ?_
      · intro hmem
        rcases List.mem_append.mp hmem with hmem | hmem
        · exact hacts hmem
        · exact ha (List.mem_singleton.mp hmem).symm
      · exact hchain ver (h.mem_of_own ha ha' hver hid) hid
  | @pending value first middle newer older hslot hacts hfirst hmiddle hchain hothers hnewer =>
    have ha : a ≠ .writeIntent id key := by
      intro heq
      rw [hintent heq] at hslot
      exact absurd hslot (by simp)
    by_cases ha' : a = .commitKey id key
    · subst ha'
      obtain ⟨value', ts, hchain', hslot₁, hslot', _⟩ := h.of_commitKey
      obtain rfl : value = value' := by simpa [hslot] using hslot₁
      have hacts' : acts ++ [.commitKey id key]
          = first ++ .writeIntent id key :: (middle ++ .commitKey id key :: []) := by
        rw [hacts]
        simp
      -- the stamp goes to the head, which is the own version or a newer intent
      obtain ⟨hkept, hlost⟩ := mem_stampHead_own value ts hothers
      rw [← hchain, ← hchain'] at hkept hlost
      exact .passed hslot' hacts' hfirst hmiddle (fun hundist => hkept (hnewer.mpr hundist))
        fun hdist => hlost (mt hnewer.mp hdist)
    · have hacts' : acts ++ [a] = first ++ .writeIntent id key :: (middle ++ [a]) := by
        rw [hacts]
        simp
      have hmiddle' : .commitKey id key ∉ middle ++ [a] := by
        intro hmem
        rcases List.mem_append.mp hmem with hmem | hmem
        · exact hmiddle hmem
        · exact ha' (List.mem_singleton.mp hmem).symm
      obtain ⟨newer', hchain', hothers', hnil⟩ := h.chain_of_pending ha ha' hchain hothers
      refine .pending ((h.slot_eq ha ha').trans hslot) hacts' hfirst hmiddle' hchain' hothers' ?_
      rw [hnil, hnewer, ← forall_and]
      refine forall_congr' fun other => ?_
      rw [List.mem_append, List.mem_singleton, not_or, ne_comm]
  | @passed value ts first middle last hslot hacts hfirst hmiddle hkept hlost =>
    have ha : a ≠ .writeIntent id key := by
      intro heq
      rw [hintent heq] at hslot
      exact absurd hslot (by simp)
    have ha' : a ≠ .commitKey id key := by
      intro heq
      obtain ⟨_, hpending⟩ := hstamp heq
      rw [hslot] at hpending
      exact absurd hpending (by simp)
    have hacts' : acts ++ [a] = first ++ .writeIntent id key ::
        (middle ++ .commitKey id key :: (last ++ [a])) := by
      rw [hacts]
      simp
    refine .passed ((h.slot_eq ha ha').trans hslot) hacts' hfirst hmiddle (fun hundist => ?_)
      fun hdist ver hver hid => ?_
    · exact h.mem_of_stamped (hkept hundist) rfl
    · exact hlost hdist ver (h.mem_of_own ha ha' hver hid) hid

/-! ### Commits that have returned -/

theorem Progress.reachable (h : System.init.run acts = some s) (id : ℕ) (key : String) :
    Progress id key acts s := by
  refine foldlM_history ?_ (fun _ _ _ _ _ hp hstep => hp.step (effect_of_step hstep)) h
  exact .before rfl (by simp) (by simp [System.init, MvccStore.new, MvccStore.chain])

/-- A commit that has returned a timestamp has drawn it, and has passed all its keys. -/
theorem passed_of_result {r : Running} {ts : ℕ} (hres : r.result = some (.ok ts)) :
    drawn (some r) = some ts ∧
      ∀ key value, r.txn.writes[key]? = some value → slot (some r) key = .passed value ts := by
  rw [Running.result] at hres
  cases hphase : r.phase with
  | stamping ts' visited =>
    simp only [hphase] at hres
    by_cases hall : r.txn.visitedAll visited = true
    · rw [if_pos hall, Option.some_inj, Except.ok.injEq] at hres
      subst hres
      refine ⟨by simp [drawn, hphase], fun key value hvalue => ?_⟩
      simp [slot, hphase, hvalue, mem_of_visitedAll hall hvalue]
    · rw [if_neg hall] at hres
      exact absurd hres (by simp)
  | _ =>
    simp only [hphase] at hres
    exact absurd hres (by simp)

/-- What is left of a key that the loop of the stamps has passed. -/
theorem stamped_of_passed {value : Bytes} {ts : ℕ} (h : System.init.run acts = some s)
    (hslot : slot (s.txns id) key = .passed value ts) :
    (Undisturbed id key acts → ⟨value, id, some ts⟩ ∈ s.store.chain key) ∧
      (¬Undisturbed id key acts →
        ∀ ver ∈ s.store.chain key, ver.txnId = id → ver.commitTs = none) := by
  cases Progress.reachable h id key with
  | before hslot' => exact absurd (hslot.symm.trans hslot') (by simp)
  | pending hslot' => exact absurd (hslot.symm.trans hslot') (by simp)
  | @passed value' ts' first middle last hslot' hacts hfirst hmiddle hkept hlost =>
    obtain ⟨rfl, rfl⟩ : value = value' ∧ ts = ts' := by simpa [hslot] using hslot'
    rw [Undisturbed, hacts, between_eq hfirst hmiddle]
    exact ⟨hkept, hlost⟩

/-- **One key of a commit**: its version is in the chain, stamped, exactly if no intent
came between its own intent and its stamp. -/
theorem version_iff {r : Running} {ts : ℕ} {value : Bytes} (h : System.init.run acts = some s)
    (hr : s.txns id = some r) (hres : r.result = some (.ok ts))
    (hvalue : r.txn.writes[key]? = some value) :
    (∃ ver ∈ s.store.chain key, ver.value = value ∧ ver.commitTs = some ts) ↔
      Undisturbed id key acts := by
  obtain ⟨hdrawn, hslots⟩ := passed_of_result hres
  have hslot := hslots key value hvalue
  rw [← hr] at hdrawn hslot
  obtain ⟨hkept, hlost⟩ := stamped_of_passed h hslot
  constructor
  · rintro ⟨ver, hver, _, hts⟩
    by_contra hdist
    -- the timestamp belongs to one transaction
    have hstamps := Stamps.reachable h
    have hid := hstamps.inj ver.txnId id ts (hstamps.stamped key ver hver ts hts) hdrawn
    rw [hlost hdist ver hver hid] at hts
    exact absurd hts (by simp)
  · intro hundist
    exact ⟨_, hkept hundist, rfl, rfl⟩

/-- **Complete commits.**  In every interleaving, a commit that has returned a timestamp
has left all its writes in the chains, with that timestamp, exactly if on none of its
keys an intent came between its own intent and its stamp. -/
theorem commit_complete_iff {r : Running} {ts : ℕ} (h : System.init.run acts = some s)
    (hr : s.txns id = some r) (hres : r.result = some (.ok ts)) :
    (∀ key value, r.txn.writes[key]? = some value →
        ∃ ver ∈ s.store.chain key, ver.value = value ∧ ver.commitTs = some ts) ↔
      ∀ key ∈ r.txn.writes, Undisturbed id key acts := by
  constructor
  · intro hall key hkey
    obtain ⟨value, hvalue⟩ := Option.isSome_iff_exists.mp
      (Std.TreeMap.mem_iff_isSome_getElem?.mp hkey)
    exact (version_iff h hr hres hvalue).mp (hall key value hvalue)
  · intro hall key value hvalue
    have hkey : key ∈ r.txn.writes :=
      Std.TreeMap.mem_iff_isSome_getElem?.mpr (by rw [hvalue]; rfl)
    exact (version_iff h hr hres hvalue).mpr (hall key hkey)

/-- Two transactions with a key in common, each of which installs its intents between the
steps of the other one. -/
def pairCommit : List Act :=
  [.begin 1 .snapshot, .begin 2 .snapshot, .put 1 "x" [1], .put 1 "y" [2], .put 2 "x" [3],
    .commit 1, .commit 2, .writeIntent 1 "x", .writeIntent 1 "y", .nextTs 1, .commitKey 1 "x",
    .writeIntent 2 "x", .nextTs 2, .commitKey 1 "y", .commitKey 2 "x"]

theorem exists_pairCommit : ∃ s r r', System.init.run pairCommit = some s ∧ s.txns 1 = some r ∧
    r.result = some (.ok 1) ∧ s.txns 2 = some r' ∧ r'.result = some (.ok 2) := by
  have hsome : ((System.init.run pairCommit).bind fun s => (s.txns 1).bind fun r =>
      (s.txns 2).bind fun r' => r.result.bind fun ts => r'.result.map fun ts' => (ts, ts'))
      = some (.ok 1, .ok 2) := by
    decide +kernel
  obtain ⟨s, hrun, hsome⟩ := Option.bind_eq_some_iff.mp hsome
  obtain ⟨r, hr, hsome⟩ := Option.bind_eq_some_iff.mp hsome
  obtain ⟨r', hr', hsome⟩ := Option.bind_eq_some_iff.mp hsome
  obtain ⟨ts, hts, hsome⟩ := Option.bind_eq_some_iff.mp hsome
  obtain ⟨ts', hts', hpair⟩ := Option.map_eq_some_iff.mp hsome
  obtain ⟨rfl, rfl⟩ := Prod.mk.inj hpair
  exact ⟨s, r, r', hrun, hr, hts, hr', hts'⟩

/-- Both commits are complete. -/
theorem commit_complete_pair : ∃ s r r', System.init.run pairCommit = some s ∧
    s.txns 1 = some r ∧ s.txns 2 = some r' ∧
    (∀ key value, r.txn.writes[key]? = some value →
      ∃ ver ∈ s.store.chain key, ver.value = value ∧ ver.commitTs = some 1) ∧
    ∀ key value, r'.txn.writes[key]? = some value →
      ∃ ver ∈ s.store.chain key, ver.value = value ∧ ver.commitTs = some 2 := by
  obtain ⟨s, r, r', hrun, hr, hres, hr', hres'⟩ := exists_pairCommit
  refine ⟨s, r, r', hrun, hr, hr', (commit_complete_iff hrun hr hres).mpr fun key _ other => ?_,
    (commit_complete_iff hrun hr' hres').mpr fun key _ other => ?_⟩
  · by_cases hx : key = "x"
    · simp [between, pairCommit, hx]
    · by_cases hy : key = "y"
      · simp [between, pairCommit, hy]
      · simp [between, pairCommit, Ne.symm hx, Ne.symm hy]
  · by_cases hx : key = "x"
    · simp [between, pairCommit, hx]
    · simp [between, pairCommit, Ne.symm hx]

/-- Two transactions install intents on one key, and the first one goes on. -/
def overtaken : List Act :=
  [.begin 1 .snapshot, .begin 2 .snapshot, .put 1 "x" [1], .put 2 "x" [2], .commit 1, .commit 2,
    .writeIntent 1 "x", .writeIntent 2 "x", .nextTs 1, .commitKey 1 "x"]

/-- The commit of the first transaction returns a timestamp, and no version has it. -/
theorem commit_lost :
    ¬∀ (acts : List Act) (s : System) (id : ℕ) (r : Running) (ts : ℕ),
      System.init.run acts = some s → s.txns id = some r → r.result = some (.ok ts) →
      ∀ key value, r.txn.writes[key]? = some value →
        ∃ ver ∈ s.store.chain key, ver.value = value ∧ ver.commitTs = some ts := by
  intro h
  have hsome : ((System.init.run overtaken).bind fun s => (s.txns 1).map fun r => (s, r)).isSome
      = true := by
    decide +kernel
  obtain ⟨⟨s, r⟩, hbind⟩ := Option.isSome_iff_exists.mp hsome
  have hvalues : ((System.init.run overtaken).bind fun s => (s.txns 1).map fun r => (s, r)).map
      (fun sr => (sr.2.result, sr.2.txn.writes["x"]?,
        (sr.1.store.chain "x").map Version.commitTs))
      = some (some (.ok 1), some [1], [none, none]) := by
    decide +kernel
  rw [hbind, Option.map_some, Option.some_inj, Prod.mk.injEq, Prod.mk.injEq] at hvalues
  obtain ⟨hres, hvalue, hchain⟩ := hvalues
  obtain ⟨s', hrun, hmap⟩ := Option.bind_eq_some_iff.mp hbind
  obtain ⟨r', hr, heq⟩ := Option.map_eq_some_iff.mp hmap
  rw [Prod.mk.injEq] at heq
  obtain ⟨rfl, rfl⟩ := heq
  obtain ⟨ver, hver, _, hts⟩ := h overtaken s' 1 r' 1 hrun hr hres "x" [1] hvalue
  have hmem : some 1 ∈ (s'.store.chain "x").map Version.commitTs := by
    rw [← hts]
    exact List.mem_map_of_mem hver
  rw [hchain] at hmem
  exact absurd hmem (by decide)

end Mvcc

end Uldb
