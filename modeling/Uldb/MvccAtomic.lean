/-
Transactions whose commits run alone.

Where every commit is one step, the version chains are the list of the commits so
far, seen through one key (`Ordered.chains`): fully stamped, with timestamps that
decrease in the order of the commits.  So a read takes the value of the commit with the
largest timestamp up to its snapshot, and the validation of a serializable commit
compares the snapshot with all later commits.

The other calls interleave in any way, and so do the two store accesses of a read at
level read committed.  `atomic_reads` is the result on whole histories.
-/
import Uldb.Mvcc

namespace Uldb

namespace Mvcc

open Fallible

namespace MvccStore

/-- The first loop of a commit: an intent on every key of the write set. -/
def install (store : MvccStore) (writes : Std.TreeMap String Bytes) (order : List String)
    (txnId : ℕ) : MvccStore :=
  order.foldl (fun store key =>
    match writes[key]? with
    | some value => store.writeIntent key value txnId
    | none => store) store

/-- The second loop of a commit. -/
def stamp (store : MvccStore) (order : List String) (txnId commitTs : ℕ) : MvccStore :=
  order.foldl (fun store key => (store.commitKey key txnId commitTs).2) store

end MvccStore

namespace Transaction

/-- The first key a serializable transaction has read and someone has committed since. -/
def conflict (t : Transaction) (store : MvccStore) : Option String :=
  if t.isolation = .serializable then
    t.reads.find? fun key => store.hasCommittedSince key t.snapshotTs
  else none

/-- The whole commit.  `order` is the order in which the hash map of the write set is
visited, the same in both loops. -/
def commit (t : Transaction) (store : MvccStore) (txnId : ℕ) (order : List String) :
    Except String ℕ × MvccStore :=
  match t.conflict store with
  | some key => (.error ("serialization conflict on key=" ++ key), store)
  | none =>
    let (commitTs, store) := (store.install t.writes order txnId).nextTs
    (.ok commitTs, store.stamp order txnId commitTs)

end Transaction

/-! ### Histories -/

/-- A commit that has returned a timestamp, and what it has written. -/
structure Committed where
  id : ℕ
  ts : ℕ
  writes : Std.TreeMap String Bytes

/-- The latest committed value of a key.  Commits are listed newest first. -/
def committed (log : List Committed) (key : String) : Option Bytes :=
  log.findSome? fun c => c.writes[key]?

/-- The value of a key by the commit with the largest timestamp that is not above `ts`. -/
def IsValueAt (log : List Committed) (key : String) (ts : ℕ) : Option Bytes → Prop
  | some value => ∃ c ∈ log, c.writes[key]? = some value ∧ c.ts ≤ ts ∧
      ∀ c' ∈ log, (c'.writes[key]?).isSome = true → c'.ts ≤ ts → c'.ts ≤ c.ts
  | none => ∀ c ∈ log, c.ts ≤ ts → c.writes[key]? = none

/-- A transaction that has not ended, and what `current_ts` has returned to its last read. -/
structure Pending where
  txn : Transaction
  now : ℕ

/-- What a read returns. -/
def Pending.get (p : Pending) (store : MvccStore) (key : String) : Option Bytes :=
  (p.txn.get store p.now key).1

/-- The store, the transaction manager's counter, the transactions that have not ended, and
the commits so far, newest first. -/
structure History where
  store : MvccStore
  nextTxnId : ℕ
  txns : ℕ → Option Pending
  log : List Committed

/-- One call.  A read at level read committed asks for the timestamp first, which is a step
of its own. -/
inductive Event where
  | begin (isolation : Isolation)
  | currentTs (id : ℕ)
  | get (id : ℕ) (key : String)
  | put (id : ℕ) (key : String) (value : Bytes)
  | commit (id : ℕ) (order : List String)
  | abort (id : ℕ)
  deriving DecidableEq

namespace History

def init : History := ⟨MvccStore.new, 0, fun _ => none, []⟩

def set (h : History) (id : ℕ) (p : Option Pending) : History :=
  { h with txns := Function.update h.txns id p }

def step (h : History) : Event → Option History
  | .begin isolation => some
      (set { h with nextTxnId := h.nextTxnId + 1 } (h.nextTxnId + 1)
        (some ⟨Transaction.new h.store isolation, 0⟩))
  | .currentTs id => (h.txns id).map fun p => h.set id (some { p with now := h.store.currentTs })
  | .get id key => (h.txns id).map fun p =>
      h.set id (some { p with txn := (p.txn.get h.store p.now key).2 })
  | .put id key value => (h.txns id).map fun p =>
      h.set id (some { p with txn := p.txn.put key value })
  | .abort id => (h.txns id).map fun _ => h.set id none
  | .commit id order => (h.txns id).bind fun p =>
      if order.Perm p.txn.writes.keys then
        match p.txn.commit h.store id order with
        | (.ok ts, store) => some
            (set { h with store := store, log := ⟨id, ts, p.txn.writes⟩ :: h.log } id none)
        | (.error _, store) => some (set { h with store := store } id none)
      else none

def run (h : History) (es : List Event) : Option History := es.foldlM step h

end History

/-! ### A commit -/

namespace MvccStore

variable {writes : Std.TreeMap String Bytes} {order : List String} {txnId : ℕ}

theorem ts_install (store : MvccStore) (writes : Std.TreeMap String Bytes) (order : List String)
    (txnId : ℕ) : (store.install writes order txnId).ts = store.ts := by
  induction order generalizing store with
  | nil => rfl
  | cons key order ih =>
    rw [install, List.foldl_cons, ← install, ih]
    cases writes[key]? <;> rfl

theorem ts_stamp (store : MvccStore) (order : List String) (txnId commitTs : ℕ) :
    (store.stamp order txnId commitTs).ts = store.ts := by
  induction order generalizing store with
  | nil => rfl
  | cons key order ih => rw [stamp, List.foldl_cons, ← stamp, ih, ts_commitKey]

theorem chain_install (hnodup : order.Nodup) (store : MvccStore) (k : String) :
    (store.install writes order txnId).chain k
      = if k ∈ order then
          ((writes[k]?).map fun value => ⟨value, txnId, none⟩).toList ++ store.chain k
        else store.chain k := by
  induction order generalizing store with
  | nil => rfl
  | cons key order ih =>
    rw [List.nodup_cons] at hnodup
    rw [install, List.foldl_cons, ← install, ih hnodup.2]
    by_cases hk : k = key
    · subst hk
      rw [if_neg hnodup.1, if_pos (by simp)]
      cases writes[k]? with
      | none => rfl
      | some value =>
        rw [chain_writeIntent, if_pos rfl]
        rfl
    · have hchain : (match writes[key]? with
          | some value => store.writeIntent key value txnId
          | none => store).chain k = store.chain k := by
        cases writes[key]? with
        | none => rfl
        | some value => rw [chain_writeIntent, if_neg hk]
      rw [hchain]
      simp [hk]

theorem chain_stamp (hnodup : order.Nodup) (store : MvccStore) (commitTs : ℕ) (k : String) :
    (store.stamp order txnId commitTs).chain k
      = if k ∈ order then stampHead txnId commitTs (store.chain k) else store.chain k := by
  induction order generalizing store with
  | nil => rfl
  | cons key order ih =>
    rw [List.nodup_cons] at hnodup
    rw [stamp, List.foldl_cons, ← stamp, ih hnodup.2, chain_commitKey]
    by_cases hk : k = key
    · subst hk
      rw [if_neg hnodup.1, if_pos rfl, if_pos (by simp)]
    · rw [if_neg hk]
      simp [hk]

end MvccStore

theorem Transaction.commit_error {t : Transaction} {store store' : MvccStore} {txnId : ℕ}
    {order : List String} {msg : String}
    (h : t.commit store txnId order = (.error msg, store')) : store' = store := by
  rw [commit] at h
  cases hc : t.conflict store with
  | some key =>
    rw [hc, Prod.mk.injEq] at h
    exact h.2.symm
  | none =>
    rw [hc, Prod.mk.injEq] at h
    exact absurd h.1 (by simp)

/-- **A commit that succeeds** puts a stamped version on the chain of every key it writes. -/
theorem Transaction.commit_ok {t : Transaction} {store store' : MvccStore} {txnId ts : ℕ}
    {order : List String} (hperm : order.Perm t.writes.keys)
    (h : t.commit store txnId order = (.ok ts, store')) :
    t.conflict store = none ∧ ts = store.ts + 1 ∧ store'.ts = store.ts + 1 ∧
      ∀ k, store'.chain k
        = ((t.writes[k]?).map fun value => ⟨value, txnId, some ts⟩).toList ++ store.chain k := by
  rw [commit] at h
  cases hc : t.conflict store with
  | some key =>
    rw [hc, Prod.mk.injEq] at h
    exact absurd h.1 (by simp)
  | none =>
    rw [hc, Prod.mk.injEq, Except.ok.injEq] at h
    obtain ⟨hts, rfl⟩ := h
    have hnext : ts = store.ts + 1 := by rw [← hts, MvccStore.nextTs, MvccStore.ts_install]
    have hnodup : order.Nodup := hperm.nodup_iff.mpr Std.TreeMap.nodup_keys
    refine ⟨rfl, hnext, ?_, fun k => ?_⟩
    · rw [MvccStore.ts_stamp]
      show (store.install t.writes order txnId).ts + 1 = _
      rw [MvccStore.ts_install]
    · rw [hts, MvccStore.chain_stamp hnodup]
      show (if k ∈ order then MvccStore.stampHead txnId ts
        ((store.install t.writes order txnId).chain k)
        else (store.install t.writes order txnId).chain k) = _
      rw [MvccStore.chain_install hnodup]
      have hmem : k ∈ order ↔ (t.writes[k]?).isSome = true := by
        rw [hperm.mem_iff, Std.TreeMap.mem_keys, Std.TreeMap.mem_iff_isSome_getElem?]
      cases hk : t.writes[k]? with
      | none =>
        rw [hk] at hmem
        rw [if_neg (by simp [hmem]), if_neg (by simp [hmem])]
        rfl
      | some value =>
        rw [hk] at hmem
        rw [if_pos (hmem.mpr rfl), if_pos (hmem.mpr rfl)]
        simp [MvccStore.stampHead]

/-! ### What an event does -/

/-- What an event can do to a history. -/
inductive EventEffect (h : History) : Event → History → Prop
  | begins {isolation : Isolation} :
      EventEffect h (.begin isolation)
        (History.set { h with nextTxnId := h.nextTxnId + 1 } (h.nextTxnId + 1)
          (some ⟨Transaction.new h.store isolation, 0⟩))
  /-- A transaction goes on. -/
  | goes {e : Event} {id : ℕ} {p p' : Pending} (hp : h.txns id = some p)
      (hcont : p'.txn.Continues p.txn) (hreads : ∀ k ∈ p.txn.reads, k ∈ p'.txn.reads)
      (hnow : e ≠ .currentTs id → p'.now = p.now) : EventEffect h e (h.set id (some p'))
  /-- A transaction ends without a trace. -/
  | ends {e : Event} {id : ℕ} : EventEffect h e (h.set id none)
  | commits {id ts : ℕ} {order : List String} {p : Pending} {store : MvccStore}
      (hp : h.txns id = some p) (hts : ts = h.store.ts + 1) (hstore : store.ts = h.store.ts + 1)
      (hchain : ∀ k, store.chain k
        = ((p.txn.writes[k]?).map fun value => ⟨value, id, some ts⟩).toList ++ h.store.chain k) :
      EventEffect h (.commit id order)
        (History.set { h with store := store, log := ⟨id, ts, p.txn.writes⟩ :: h.log } id none)

theorem reads_get (t : Transaction) (store : MvccStore) (now : ℕ) (key : String) :
    ∀ k ∈ t.reads, k ∈ (t.get store now key).2.reads := by
  intro k hk
  rw [Transaction.get]
  cases t.writes[key]? with
  | some value => exact hk
  | none =>
    by_cases h : t.isolation = .serializable
    · simp only [if_pos h]
      exact List.mem_append_left _ hk
    · simp only [if_neg h]
      exact hk

/-- **What an event can do.** -/
theorem effect_of_event {h h' : History} {e : Event} (hstep : h.step e = some h') :
    EventEffect h e h' := by
  cases e with
  | begin isolation =>
    rw [← Option.some_inj.mp hstep]
    exact .begins
  | currentTs id =>
    obtain ⟨p, hp, rfl⟩ := Option.map_eq_some_iff.mp hstep
    exact .goes hp (.refl _) (fun k hk => hk) fun hne => absurd rfl hne
  | get id key =>
    obtain ⟨p, hp, rfl⟩ := Option.map_eq_some_iff.mp hstep
    exact .goes hp (continues_get _ _ _ _) (reads_get _ _ _ _) fun _ => rfl
  | put id key value =>
    obtain ⟨p, hp, rfl⟩ := Option.map_eq_some_iff.mp hstep
    exact .goes hp ⟨rfl, rfl⟩ (fun k hk => hk) fun _ => rfl
  | abort id =>
    obtain ⟨p, _, rfl⟩ := Option.map_eq_some_iff.mp hstep
    exact .ends
  | commit id order =>
    obtain ⟨p, hp, hstep⟩ := Option.bind_eq_some_iff.mp hstep
    by_cases hperm : order.Perm p.txn.writes.keys
    · rw [if_pos hperm] at hstep
      cases hcommit : p.txn.commit h.store id order with
      | mk result store =>
        rw [hcommit] at hstep
        cases result with
        | error msg =>
          rw [← Option.some_inj.mp hstep, Transaction.commit_error hcommit]
          exact .ends
        | ok ts =>
          obtain ⟨_, hts, hstore, hchain⟩ := Transaction.commit_ok hperm hcommit
          rw [← Option.some_inj.mp hstep]
          exact .commits hp hts hstore hchain
    · rw [if_neg hperm] at hstep
      exact absurd hstep (by simp)

/-! ### The chains are the commits -/

/-- The versions that the commits have left of a key. -/
def versionsOf (log : List Committed) (k : String) : List Version :=
  log.filterMap fun c => (c.writes[k]?).map fun value => ⟨value, c.id, some c.ts⟩

/-- The value of the first commit in the list with a timestamp up to `ts`. -/
def valueAt (log : List Committed) (key : String) (ts : ℕ) : Option Bytes :=
  log.findSome? fun c => if c.ts ≤ ts then c.writes[key]? else none

/-- The chains hold the commits, whose timestamps decrease from the newest to the oldest. -/
structure Ordered (h : History) : Prop where
  chains : ∀ k, h.store.chain k = versionsOf h.log k
  sorted : h.log.Pairwise fun c c' => c'.ts < c.ts
  bound : ∀ c ∈ h.log, c.ts ≤ h.store.ts
  snapshot : ∀ id p, h.txns id = some p → p.txn.snapshotTs ≤ h.store.ts
  ids : ∀ id p, h.txns id = some p → id ≤ h.nextTxnId

theorem ordered_init : Ordered .init where
  chains k := rfl
  sorted := List.Pairwise.nil
  bound c hc := absurd hc (by simp [History.init])
  snapshot id p hp := absurd hp (by simp [History.init])
  ids id p hp := absurd hp (by simp [History.init])

theorem History.set_txns (h : History) (id id' : ℕ) (p : Option Pending) :
    (h.set id p).txns id' = if id' = id then p else h.txns id' := by
  rw [set]
  by_cases hid : id' = id
  · rw [hid, if_pos rfl]
    exact Function.update_self ..
  · rw [if_neg hid]
    exact Function.update_of_ne hid ..

/-- A transaction after one of them was changed. -/
theorem History.txns_of_set {h : History} {id id' : ℕ} {p : Option Pending} {q : Pending}
    (hq : (h.set id p).txns id' = some q) : id' = id ∧ p = some q ∨ h.txns id' = some q := by
  rw [set_txns] at hq
  by_cases hid : id' = id
  · rw [if_pos hid] at hq
    exact .inl ⟨hid, hq⟩
  · rw [if_neg hid] at hq
    exact .inr hq

/-- A transaction after one of them has ended was there before. -/
theorem History.txns_of_ended {h : History} {id id' : ℕ} {q : Pending}
    (hq : (h.set id none).txns id' = some q) : h.txns id' = some q := by
  rcases txns_of_set hq with ⟨_, hnone⟩ | hq
  · exact absurd hnone (by simp)
  · exact hq

theorem History.run_cons {h h' : History} {e : Event} {es : List Event}
    (hrun : h.run (e :: es) = some h') : ∃ h₁, h.step e = some h₁ ∧ h₁.run es = some h' :=
  foldlM_cons_eq_some.mp hrun

theorem Ordered.step {h h' : History} {e : Event} (ho : Ordered h) (hstep : h.step e = some h') :
    Ordered h' := by
  cases effect_of_event hstep with
  | begins =>
    refine ⟨ho.chains, ho.sorted, ho.bound, fun id p hp => ?_, fun id p hp => ?_⟩
    · rcases History.txns_of_set hp with ⟨_, hnew⟩ | hp
      · rw [← Option.some_inj.mp hnew]
        exact le_refl _
      · exact ho.snapshot id p hp
    · rcases History.txns_of_set hp with ⟨hid, _⟩ | hp
      · exact le_of_eq hid
      · exact Nat.le_succ_of_le (ho.ids id p hp)
  | @goes _ id₀ p₀ p₀' hp₀ hcont _ _ =>
    refine ⟨ho.chains, ho.sorted, ho.bound, fun id p hp => ?_, fun id p hp => ?_⟩
    · rcases History.txns_of_set hp with ⟨_, hnew⟩ | hp
      · rw [← Option.some_inj.mp hnew, hcont.snapshotTs]
        exact ho.snapshot id₀ p₀ hp₀
      · exact ho.snapshot id p hp
    · rcases History.txns_of_set hp with ⟨hid, _⟩ | hp
      · rw [hid]
        exact ho.ids id₀ p₀ hp₀
      · exact ho.ids id p hp
  | ends =>
    exact ⟨ho.chains, ho.sorted, ho.bound, fun id p hp => ho.snapshot id p (History.txns_of_ended hp),
      fun id p hp => ho.ids id p (History.txns_of_ended hp)⟩
  | @commits id₀ ts order p₀ store hp₀ hts hstore hchain =>
    -- the new commit comes first in the log, as its timestamp is above all others
    refine ⟨fun k => ?_, ?_, fun c hc => ?_, fun id p hp => ?_, fun id p hp => ?_⟩
    · show store.chain k = versionsOf (_ :: h.log) k
      rw [hchain k, ho.chains k, versionsOf, versionsOf, List.filterMap_cons]
      cases p₀.txn.writes[k]? <;> rfl
    · refine List.pairwise_cons.mpr ⟨fun c hc => ?_, ho.sorted⟩
      have hle := ho.bound c hc
      show c.ts < ts
      omega
    · show c.ts ≤ store.ts
      rcases List.mem_cons.mp hc with rfl | hc
      · show ts ≤ store.ts
        omega
      · have hle := ho.bound c hc
        omega
    · have hle := ho.snapshot id p (History.txns_of_ended hp)
      show p.txn.snapshotTs ≤ store.ts
      omega
    · exact ho.ids id p (History.txns_of_ended hp)

/-- **In every history** the chains are the commits. -/
theorem Ordered.run {h h' : History} {es : List Event} (ho : Ordered h)
    (hrun : h.run es = some h') : Ordered h' :=
  foldlM_induction hrun ho fun _ _ _ _ ht hstep => ht.step hstep

/-! ### Reads -/

/-- A read takes the value of the newest commit up to its timestamp. -/
theorem Ordered.read {h : History} (ho : Ordered h) (key : String) (ts : ℕ) :
    h.store.read key ts = valueAt h.log key ts := by
  rw [MvccStore.read, ho.chains, versionsOf, valueAt]
  induction h.log with
  | nil => rfl
  | cons c log ih =>
    rw [List.filterMap_cons, List.findSome?_cons]
    cases hw : c.writes[key]? with
    | none =>
      rw [ite_self]
      exact ih
    | some value =>
      rw [Option.map_some]
      by_cases hts : c.ts ≤ ts
      · simp [Version.visible, hts]
      · rw [if_neg hts, List.find?_cons_of_neg (by simp [Version.visible, hts])]
        exact ih

/-- A commit that is too new, or has not written the key, does not matter. -/
theorem IsValueAt.skip {log : List Committed} {key : String} {ts : ℕ} {v : Option Bytes}
    (h : IsValueAt log key ts v) {c : Committed} (hc : c.ts ≤ ts → c.writes[key]? = none) :
    IsValueAt (c :: log) key ts v := by
  cases v with
  | some value =>
    obtain ⟨c₁, hc₁, hw₁, hts₁, hmax⟩ := h
    refine ⟨c₁, by simp [hc₁], hw₁, hts₁, fun c' hc' hsome hts' => ?_⟩
    rcases List.mem_cons.mp hc' with rfl | hc'
    · rw [hc hts'] at hsome
      exact absurd hsome (by simp)
    · exact hmax c' hc' hsome hts'
  | none =>
    intro c' hc' hts'
    rcases List.mem_cons.mp hc' with rfl | hc'
    · exact hc hts'
    · exact h c' hc' hts'

/-- The newest commit up to `ts` in the list is the one with the largest timestamp. -/
theorem isValueAt_valueAt {log : List Committed} (hsorted : log.Pairwise fun c c' => c'.ts < c.ts)
    (key : String) (ts : ℕ) : IsValueAt log key ts (valueAt log key ts) := by
  induction log with
  | nil => exact fun c hc => absurd hc (by simp)
  | cons c log ih =>
    rw [List.pairwise_cons] at hsorted
    have hrest := ih hsorted.2
    rw [valueAt, List.findSome?_cons, ← valueAt]
    by_cases hts : c.ts ≤ ts
    · rw [if_pos hts]
      cases hw : c.writes[key]? with
      | some value =>
        refine ⟨c, by simp, hw, hts, fun c' hc' _ _ => ?_⟩
        rcases List.mem_cons.mp hc' with rfl | hc'
        · exact le_refl _
        · exact le_of_lt (hsorted.1 c' hc')
      | none => exact hrest.skip fun _ => hw
    · rw [if_neg hts]
      exact hrest.skip fun h => absurd h hts

/-- Commits above `ts` do not matter. -/
theorem valueAt_append {new log : List Committed} {ts : ℕ} (hnew : ∀ c ∈ new, ts < c.ts)
    (key : String) : valueAt (new ++ log) key ts = valueAt log key ts := by
  have hnone : (new.findSome? fun c => if c.ts ≤ ts then c.writes[key]? else none) = none := by
    rw [List.findSome?_eq_none_iff]
    intro c hc
    have hlt := hnew c hc
    rw [if_neg (by omega)]
  rw [valueAt, List.findSome?_append, hnone]
  rfl

/-- Where no commit of the key is above `ts`, the value there is the latest one. -/
theorem valueAt_eq_committed {log : List Committed} {key : String} {ts : ℕ}
    (h : ∀ c ∈ log, (c.writes[key]?).isSome = true → c.ts ≤ ts) :
    valueAt log key ts = committed log key := by
  rw [valueAt, committed]
  induction log with
  | nil => rfl
  | cons c log ih =>
    rw [List.findSome?_cons, List.findSome?_cons, ih fun c' hc' => h c' (by simp [hc'])]
    cases hw : c.writes[key]? with
    | none => rw [ite_self]
    | some value => rw [if_pos (h c (by simp) (by rw [hw]; rfl))]

/-- The check of a key finds the commits of the key above the timestamp. -/
theorem Ordered.hasCommittedSince_iff {h : History} (ho : Ordered h) {key : String} {ts : ℕ} :
    h.store.hasCommittedSince key ts = true ↔
      ∃ c ∈ h.log, (c.writes[key]?).isSome = true ∧ ts < c.ts := by
  rw [MvccStore.hasCommittedSince, ho.chains, List.any_eq_true]
  constructor
  · rintro ⟨v, hv, hts⟩
    obtain ⟨c, hc, hv⟩ := List.mem_filterMap.mp hv
    obtain ⟨value, hw, rfl⟩ := Option.map_eq_some_iff.mp hv
    exact ⟨c, hc, by rw [hw]; rfl, by simpa using hts⟩
  · rintro ⟨c, hc, hsome, hts⟩
    obtain ⟨value, hw⟩ := Option.isSome_iff_exists.mp hsome
    exact ⟨⟨value, c.id, some c.ts⟩, List.mem_filterMap.mpr ⟨c, hc, by rw [hw]; rfl⟩,
      by simpa using hts⟩

/-- The validation of a serializable commit passes only over keys that nobody has
committed since. -/
theorem Ordered.le_of_validated {h : History} (ho : Ordered h) {key : String} {ts : ℕ}
    (hvalid : h.store.hasCommittedSince key ts = false) :
    ∀ c ∈ h.log, (c.writes[key]?).isSome = true → c.ts ≤ ts := by
  intro c hc hsome
  by_contra hlt
  rw [ho.hasCommittedSince_iff.mpr ⟨c, hc, hsome, not_le.mp hlt⟩] at hvalid
  exact absurd hvalid (by simp)

/-! ### What happens between two points of a history -/

/-- Between two points of a history, as far as one transaction is concerned: the commits
that came in are above the clock of the first point, and the transaction, if it has not
ended, is the same. -/
structure Later (id : ℕ) (h h' : History) : Prop where
  log : ∃ new, h'.log = new ++ h.log ∧ ∀ c ∈ new, h.store.ts < c.ts
  ts : h.store.ts ≤ h'.store.ts
  used : id ≤ h'.nextTxnId
  txn : ∀ p', h'.txns id = some p' → ∃ p, h.txns id = some p ∧ p'.txn.Continues p.txn ∧
    ∀ k ∈ p.txn.reads, k ∈ p'.txn.reads

theorem Later.refl {id : ℕ} {h : History} (hused : id ≤ h.nextTxnId) : Later id h h :=
  ⟨⟨[], rfl, by simp⟩, le_refl _, hused, fun p hp => ⟨p, hp, .refl _, fun _ hk => hk⟩⟩

theorem Later.step {id : ℕ} {h h₁ h' : History} (hl : Later id h h₁) {e : Event}
    (hstep : h₁.step e = some h') : Later id h h' := by
  obtain ⟨new, hlog, hnew⟩ := hl.log
  have hts := hl.ts
  have hused := hl.used
  cases effect_of_event hstep with
  | begins =>
    refine ⟨⟨new, hlog, hnew⟩, hts, Nat.le_succ_of_le hused, fun p' hp' => ?_⟩
    rw [History.set_txns, if_neg (by omega)] at hp'
    exact hl.txn p' hp'
  | @goes _ id₀ p₀ p₀' hp₀ hcont hreads _ =>
    refine ⟨⟨new, hlog, hnew⟩, hts, hused, fun p' hp' => ?_⟩
    rcases History.txns_of_set hp' with ⟨hid, hp'⟩ | hp'
    · obtain ⟨p, hp, hsame, hkeys⟩ := hl.txn p₀ (hid ▸ hp₀)
      rw [← Option.some_inj.mp hp']
      exact ⟨p, hp, ⟨hcont.snapshotTs.trans hsame.snapshotTs, hcont.isolation.trans hsame.isolation⟩,
        fun k hk => hreads k (hkeys k hk)⟩
    · exact hl.txn p' hp'
  | ends =>
    exact ⟨⟨new, hlog, hnew⟩, hts, hused, fun p' hp' => hl.txn p' (History.txns_of_ended hp')⟩
  | @commits id₀ ts order p₀ store hp₀ hts₀ hstore _ =>
    refine ⟨⟨⟨id₀, ts, p₀.txn.writes⟩ :: new, ?_, fun c hc => ?_⟩, ?_, hused,
      fun p' hp' => hl.txn p' (History.txns_of_ended hp')⟩
    · show _ :: h₁.log = _
      rw [hlog, List.cons_append]
    · rcases List.mem_cons.mp hc with rfl | hc
      · show h.store.ts < ts
        omega
      · exact hnew c hc
    · show h.store.ts ≤ store.ts
      omega

theorem Later.run {id : ℕ} {h h' : History} {es : List Event} (hrun : h.run es = some h')
    (hused : id ≤ h.nextTxnId) : Later id h h' :=
  foldlM_induction hrun (.refl hused) fun _ _ _ _ ht hstep => ht.step hstep

/-- Nobody else touches the timestamp that a read has asked for. -/
theorem now_of_run {id n : ℕ} {h h' : History} {es : List Event} (hrun : h.run es = some h')
    (hes : .currentTs id ∉ es) (hused : id ≤ h.nextTxnId)
    (hnow : ∀ p, h.txns id = some p → p.now = n) : ∀ p, h'.txns id = some p → p.now = n := by
  refine (foldlM_induction (P := fun h : History => id ≤ h.nextTxnId ∧
    ∀ p, h.txns id = some p → p.now = n) hrun ⟨hused, hnow⟩ ?_).2
  rintro e he h₁ h₂ ⟨hused₁, hnow₁⟩ hstep
  have hne : e ≠ .currentTs id := fun heq => hes (heq ▸ he)
  cases effect_of_event hstep with
  | begins =>
    refine ⟨Nat.le_succ_of_le hused₁, fun p hp => ?_⟩
    rw [History.set_txns, if_neg (by omega)] at hp
    exact hnow₁ p hp
  | @goes _ id₀ p₀ p₀' hp₀ _ _ hnow₀ =>
    refine ⟨hused₁, fun p hp => ?_⟩
    rcases History.txns_of_set hp with ⟨rfl, hnew⟩ | hp
    · rw [← Option.some_inj.mp hnew, hnow₀ hne]
      exact hnow₁ p₀ hp₀
    · exact hnow₁ p hp
  | ends | commits => exact ⟨hused₁, fun p hp => hnow₁ p (History.txns_of_ended hp)⟩

/-- What a read of a key returns that the transaction has not written. -/
theorem Pending.get_eq {p : Pending} {key : String} (h : p.txn.writes[key]? = none)
    (store : MvccStore) :
    p.get store key
      = store.read key (if p.txn.isolation = .readCommitted then p.now else p.txn.snapshotTs) := by
  rw [Pending.get, Transaction.get, h]
  cases p.txn.isolation <;> rfl

theorem mem_reads_get {t : Transaction} {key : String} (hiso : t.isolation = .serializable)
    (h : t.writes[key]? = none) (store : MvccStore) (now : ℕ) :
    key ∈ (t.get store now key).2.reads := by
  rw [Transaction.get, h]
  simp only [if_pos hiso]
  simp

/-- A read at level read committed that asks for the timestamp now returns the latest
value committed now, whenever it accesses the store. -/
theorem Ordered.get_readCommitted {h h' : History} (ho : Ordered h) {id : ℕ} {es : List Event}
    (hrun : h.run (.currentTs id :: es) = some h') (hes : .currentTs id ∉ es) {p' : Pending}
    (hp' : h'.txns id = some p') {key : String} (hunwritten : p'.txn.writes[key]? = none)
    (hiso : p'.txn.isolation = .readCommitted) : p'.get h'.store key = committed h.log key := by
  obtain ⟨h₁, hstep, hrun⟩ := History.run_cons hrun
  have ho' := (ho.step hstep).run hrun
  obtain ⟨p, hp, rfl⟩ := Option.map_eq_some_iff.mp hstep
  have hused : id ≤ h.nextTxnId := ho.ids id p hp
  obtain ⟨new, hlog, hnew⟩ := (Later.run hrun hused).log
  have hnow : p'.now = h.store.ts := by
    refine now_of_run hrun hes hused (fun q hq => ?_) p' hp'
    rw [History.set_txns, if_pos rfl, Option.some_inj] at hq
    rw [← hq]
    rfl
  calc p'.get h'.store key
      = valueAt h'.log key h.store.ts := by
        rw [Pending.get_eq hunwritten, if_pos hiso, hnow, ho'.read]
    _ = valueAt h.log key h.store.ts := by
        rw [hlog]
        exact valueAt_append hnew key
    _ = committed h.log key := valueAt_eq_committed fun c hc _ => ho.bound c hc

/-- A serializable commit that succeeds has checked every key that was read. -/
theorem Transaction.validated_of_commit {t : Transaction} {store : MvccStore} {txnId ts : ℕ}
    {order : List String} (hcommit : (t.commit store txnId order).1 = .ok ts)
    (hiso : t.isolation = .serializable) {key : String} (hread : key ∈ t.reads) :
    store.hasCommittedSince key t.snapshotTs = false := by
  have hnone : t.conflict store = none := by
    rw [commit] at hcommit
    cases hc : t.conflict store with
    | none => rfl
    | some key' =>
      rw [hc] at hcommit
      exact absurd hcommit (by simp)
  rw [conflict, if_pos hiso, List.find?_eq_none] at hnone
  simpa using hnone key hread

/-- What a transaction reads from its snapshot now it reads at any later point: the value of
the newest commit up to the snapshot. -/
theorem Ordered.get_stable {h h' : History} (ho : Ordered h) {id : ℕ} {key : String}
    {es : List Event} (hrun : h.run es = some h') {p p' : Pending} (hp : h.txns id = some p)
    (hiso : p.txn.isolation ≠ .readCommitted) (hunwritten : p.txn.writes[key]? = none)
    (hp' : h'.txns id = some p') :
    p.get h.store key = valueAt h'.log key p'.txn.snapshotTs := by
  have hlater := Later.run hrun (ho.ids id p hp)
  obtain ⟨new, hlog, hnew⟩ := hlater.log
  obtain ⟨p₁, hp₁, hsame, _⟩ := hlater.txn p' hp'
  obtain rfl : p = p₁ := Option.some_inj.mp (hp.symm.trans hp₁)
  have hbegan := ho.snapshot id p hp
  calc p.get h.store key
      = valueAt h.log key p.txn.snapshotTs := by
        rw [Pending.get_eq hunwritten, if_neg hiso, ho.read]
    _ = valueAt h'.log key p.txn.snapshotTs := by
        rw [hlog]
        refine (valueAt_append (fun c hc => ?_) key).symm
        have hlt : h.store.ts < c.ts := hnew c hc
        omega
    _ = valueAt h'.log key p'.txn.snapshotTs := by rw [hsame.snapshotTs]

/-- What a serializable transaction reads now is the latest value right before its commit,
if that succeeds. -/
theorem Ordered.get_serializable {h h' : History} (ho : Ordered h) {id : ℕ} {key : String}
    {es : List Event} (hrun : h.run (.get id key :: es) = some h') {p p' : Pending}
    (hp : h.txns id = some p) (hiso : p.txn.isolation = .serializable)
    (hunwritten : p.txn.writes[key]? = none) (hp' : h'.txns id = some p') {order : List String}
    {ts : ℕ} (hcommit : (p'.txn.commit h'.store id order).1 = .ok ts) :
    p.get h.store key = committed h'.log key := by
  have ho' := ho.run hrun
  obtain ⟨h₁, hstep, hrun₁⟩ := History.run_cons hrun
  obtain ⟨p₁, hp₁, rfl⟩ := Option.map_eq_some_iff.mp hstep
  obtain rfl : p₁ = p := Option.some_inj.mp (hp₁.symm.trans hp)
  -- the read is in the read set when the commit validates it
  obtain ⟨p₂, hp₂, hsame, hreads⟩ := (Later.run hrun₁ (ho.ids id p₁ hp)).txn p' hp'
  rw [History.set_txns, if_pos rfl, Option.some_inj] at hp₂
  have hserial : p'.txn.isolation = .serializable := by
    rw [hsame.isolation, ← hp₂, ← hiso]
    exact (continues_get p₁.txn h.store p₁.now key).isolation
  have hread : key ∈ p'.txn.reads := by
    refine hreads key ?_
    rw [← hp₂]
    exact mem_reads_get hiso hunwritten _ _
  have hvalid := Transaction.validated_of_commit hcommit hserial hread
  calc p₁.get h.store key
      = valueAt h'.log key p'.txn.snapshotTs :=
        ho.get_stable hrun hp (by rw [hiso]; simp) hunwritten hp'
    _ = committed h'.log key := valueAt_eq_committed (ho'.le_of_validated hvalid)

/-- A transaction that begins now reads the latest values. -/
theorem Ordered.get_begun {h : History} (ho : Ordered h) (isolation : Isolation) (key : String) :
    (Pending.mk (.new h.store isolation) h.store.ts).get h.store key = committed h.log key := by
  rw [Pending.get_eq (by simp [Transaction.new])]
  show h.store.read key (if isolation = .readCommitted then h.store.ts else h.store.ts) = _
  rw [ite_self, ho.read, valueAt_eq_committed fun c hc _ => ho.bound c hc]

/-- **Reads under atomic commits.**  Take any history of any transactions, up to a point.

* A read of a snapshot or serializable transaction, of a key it has not written, returns
  the value of the commit with the largest timestamp not above its begin timestamp.
* A read at level read committed that asks for the timestamp at that point, and accesses
  the store at any later one, returns the latest value committed at that point.
* If a serializable transaction reads a key at that point, and its commit succeeds at any
  later one, then it has read the latest value committed right before its commit, which is
  what it would have read if it had begun there. -/
theorem atomic_reads {es : List Event} {h : History} (hrun : History.init.run es = some h) :
    (∀ id p key, h.txns id = some p → p.txn.writes[key]? = none →
      p.txn.isolation ≠ .readCommitted →
      IsValueAt h.log key p.txn.snapshotTs (p.get h.store key)) ∧
    (∀ id key es' h' p', h.run (.currentTs id :: es') = some h' → .currentTs id ∉ es' →
      h'.txns id = some p' → p'.txn.writes[key]? = none → p'.txn.isolation = .readCommitted →
      p'.get h'.store key = committed h.log key) ∧
    ∀ id key p es' h' p' order ts, h.txns id = some p → p.txn.isolation = .serializable →
      p.txn.writes[key]? = none → h.run (.get id key :: es') = some h' → h'.txns id = some p' →
      (p'.txn.commit h'.store id order).1 = .ok ts →
      p.get h.store key = committed h'.log key ∧
        p.get h.store key
          = (Pending.mk (.new h'.store .serializable) 0).get h'.store key := by
  have ho := ordered_init.run hrun
  refine ⟨fun id p key hp hunwritten hiso => ?_, fun id key es' h' p' hrun' hes hp' hunwritten hiso =>
    ho.get_readCommitted hrun' hes hp' hunwritten hiso,
    fun id key p es' h' p' order ts hp hiso hunwritten hrun' hp' hcommit => ?_⟩
  · rw [Pending.get_eq hunwritten, if_neg hiso, ho.read]
    exact isValueAt_valueAt ho.sorted key _
  · have hvalue := ho.get_serializable hrun' hp hiso hunwritten hp' hcommit
    exact ⟨hvalue, hvalue.trans ((ho.run hrun').get_begun .serializable key).symm⟩

/-- A key is committed, and then read by a serializable transaction that commits while
another one has committed a second key. -/
theorem atomic_reads_two : ∃ h h' p p',
    History.init.run [.begin .snapshot, .put 1 "x" [1], .commit 1 ["x"], .begin .serializable,
      .begin .readCommitted, .put 3 "y" [2]] = some h ∧
    h.run [.get 2 "x", .commit 3 ["y"]] = some h' ∧ h.txns 2 = some p ∧ h'.txns 2 = some p' ∧
    (p'.txn.commit h'.store 2 []).1 = .ok 3 ∧ p.get h.store "x" = some [1] ∧
    committed h'.log "x" = some [1] := by
  have hsome : ((History.init.run [.begin .snapshot, .put 1 "x" [1], .commit 1 ["x"],
      .begin .serializable, .begin .readCommitted, .put 3 "y" [2]]).bind fun h =>
      (h.run [.get 2 "x", .commit 3 ["y"]]).bind fun h' =>
      (h.txns 2).bind fun p => (h'.txns 2).map fun p' =>
        (decide (p.txn.isolation = .serializable), p.txn.writes["x"]?,
          (p'.txn.commit h'.store 2 []).1.toOption, p.get h.store "x"))
      = some (true, none, some 3, some [1]) := by decide +kernel
  rw [Option.bind_eq_some_iff] at hsome
  obtain ⟨h, hrun, hsome⟩ := hsome
  rw [Option.bind_eq_some_iff] at hsome
  obtain ⟨h', hrun', hsome⟩ := hsome
  rw [Option.bind_eq_some_iff] at hsome
  obtain ⟨p, hp, hsome⟩ := hsome
  obtain ⟨p', hp', hfacts⟩ := Option.map_eq_some_iff.mp hsome
  rw [Prod.mk.injEq, Prod.mk.injEq, Prod.mk.injEq] at hfacts
  obtain ⟨hiso, hunwritten, hcommit, hget⟩ := hfacts
  have hok : (p'.txn.commit h'.store 2 []).1 = .ok 3 := by
    cases hresult : (p'.txn.commit h'.store 2 []).1 with
    | error msg =>
      rw [hresult] at hcommit
      exact absurd hcommit (by simp [Except.toOption])
    | ok ts =>
      rw [hresult] at hcommit
      rw [show ts = 3 by simpa [Except.toOption] using hcommit]
  have hlatest := ((atomic_reads hrun).2.2 2 "x" p [.commit 3 ["y"]] h' p' [] 3 hp
    (of_decide_eq_true hiso) hunwritten hrun' hp' hok).1
  exact ⟨h, h', p, p', hrun, hrun', hp, hp', hok, hget, hlatest.symm.trans hget⟩

end Mvcc

end Uldb
