/-
Multi-version concurrency control (`tx/mvcc.rs`).

Every key has a chain of versions, newest first.  A transaction buffers its
writes; its commit installs an intent on each key, draws a timestamp, and stamps
the intents one by one.  A read takes the first version of the chain that was
stamped at or before its snapshot.

`step` is one call on the store, made under its lock by one of any number of
transactions, so that a list of acts is an interleaving.  A commit visits the
keys of its write set in any order.

* `begin_eq_some`, .., `commitKey_eq_some` — when a transaction can take an act, and
  what becomes of it;
* `effect_of_step` — what an act can do, for all proofs about runs;
* `slot` — how far the commit of a transaction has come with one key;
* `Stamps.reachable` — a stamp is the timestamp that its transaction has drawn,
  and no two transactions have drawn the same one.
-/
import Uldb.Lib.Fallible
import Uldb.Basic

namespace Uldb

namespace Mvcc

open Fallible

/-- Isolation level for a transaction. -/
inductive Isolation where
  | readCommitted
  | snapshot
  | serializable
  deriving DecidableEq, Repr

/-- One version in the version chain of a key. -/
structure Version where
  value : Bytes
  txnId : ℕ
  commitTs : Option ℕ
  deriving DecidableEq, Repr

/-- A read at the snapshot does not skip the version. -/
def Version.visible (snapshotTs : ℕ) (v : Version) : Bool := v.commitTs.any (· ≤ snapshotTs)

structure MvccStore where
  /-- The version chains, each from the newest to the oldest version. -/
  chains : Std.TreeMap String (List Version)
  ts : ℕ

namespace MvccStore

def new : MvccStore := ⟨∅, 0⟩

def nextTs (store : MvccStore) : ℕ × MvccStore := (store.ts + 1, { store with ts := store.ts + 1 })

def currentTs (store : MvccStore) : ℕ := store.ts

/-- The version chain of a key, empty where there is none. -/
def chain (store : MvccStore) (key : String) : List Version := (store.chains[key]?).getD []

def read (store : MvccStore) (key : String) (snapshotTs : ℕ) : Option Bytes :=
  ((store.chain key).find? (·.visible snapshotTs)).map (·.value)

def writeIntent (store : MvccStore) (key : String) (value : Bytes) (txnId : ℕ) : MvccStore :=
  { store with chains := store.chains.insert key (⟨value, txnId, none⟩ :: store.chain key) }

/-- Stamp the head of a chain, if it is an unstamped version of the transaction. -/
def commitKey (store : MvccStore) (key : String) (txnId commitTs : ℕ) : Bool × MvccStore :=
  match store.chain key with
  | [] => (false, store)
  | ver :: prev =>
    if ver.txnId = txnId ∧ ver.commitTs = none then
      (true, { store with
        chains := store.chains.insert key ({ ver with commitTs := some commitTs } :: prev) })
    else (false, store)

def hasCommittedSince (store : MvccStore) (key : String) (sinceTs : ℕ) : Bool :=
  (store.chain key).any fun v => v.commitTs.any (sinceTs < ·)

end MvccStore

/-- A buffered transaction over the store. -/
structure Transaction where
  snapshotTs : ℕ
  isolation : Isolation
  writes : Std.TreeMap String Bytes
  reads : List String

/-- Where a transaction stands. -/
inductive Phase where
  | active
  /-- A serializable commit checks the keys it has read. -/
  | validating (todo : List String)
  /-- The commit has installed intents on the visited keys. -/
  | installing (visited : List String)
  /-- The commit has drawn a timestamp and stamped the visited keys. -/
  | stamping (ts : ℕ) (visited : List String)
  | failed (msg : String)
  | aborted
  deriving DecidableEq, Repr

namespace Transaction

def new (store : MvccStore) (isolation : Isolation) : Transaction :=
  ⟨store.currentTs, isolation, ∅, []⟩

/-- Read a key; a serializable transaction remembers it.  `now` is what the call of
`current_ts` has returned, for a transaction at level read committed. -/
def get (t : Transaction) (store : MvccStore) (now : ℕ) (key : String) :
    Option Bytes × Transaction :=
  match t.writes[key]? with
  | some value => (some value, t)
  | none =>
    let ts := match t.isolation with
      | .readCommitted => now
      | .snapshot => t.snapshotTs
      | .serializable => t.snapshotTs
    (store.read key ts,
      if t.isolation = .serializable then { t with reads := t.reads ++ [key] } else t)

def put (t : Transaction) (key : String) (value : Bytes) : Transaction :=
  { t with writes := t.writes.insert key value }

/-- A loop over the write set has visited all of its keys. -/
def visitedAll (t : Transaction) (visited : List String) : Bool :=
  t.writes.keys.all (· ∈ visited)

def startCommit (t : Transaction) : Phase :=
  if t.isolation = .serializable then .validating t.reads else .installing []

/-- Check the next key that was read. -/
def validate (t : Transaction) (store : MvccStore) : List String → Phase
  | [] => .installing []
  | key :: todo =>
    if store.hasCommittedSince key t.snapshotTs then
      .failed ("serialization conflict on key=" ++ key)
    else .validating todo

end Transaction

/-- A transaction, the last result of its `current_ts`, and where it stands. -/
structure Running where
  txn : Transaction
  now : ℕ
  phase : Phase

/-- What `commit` has returned, if it has. -/
def Running.result (r : Running) : Option (Except String ℕ) :=
  match r.phase with
  | .stamping ts visited => if r.txn.visitedAll visited then some (.ok ts) else none
  | .failed msg => some (.error msg)
  | _ => none

/-- The store and the transactions on it, by their ids. -/
structure System where
  store : MvccStore
  txns : ℕ → Option Running

/-- One call of a transaction on the store, or a local step of it. -/
inductive Act where
  | begin (id : ℕ) (isolation : Isolation)
  | currentTs (id : ℕ)
  | get (id : ℕ) (key : String)
  | put (id : ℕ) (key : String) (value : Bytes)
  | abort (id : ℕ)
  | commit (id : ℕ)
  | validate (id : ℕ)
  | writeIntent (id : ℕ) (key : String)
  | nextTs (id : ℕ)
  | commitKey (id : ℕ) (key : String)
  deriving DecidableEq, Repr

/-- The transaction that acts. -/
def Act.id : Act → ℕ
  | begin id _ => id
  | currentTs id => id
  | get id _ => id
  | put id _ _ => id
  | abort id => id
  | commit id => id
  | validate id => id
  | writeIntent id _ => id
  | nextTs id => id
  | commitKey id _ => id

namespace System

def init : System := ⟨MvccStore.new, fun _ => none⟩

def set (s : System) (id : ℕ) (r : Running) : System :=
  { s with txns := Function.update s.txns id (some r) }

/-- A step of a transaction that has not started to commit. -/
def onActive (s : System) (id : ℕ) (f : Running → Running) : Option System :=
  (s.txns id).bind fun r => if r.phase = .active then some (s.set id (f r)) else none

/-- One act; none where the transaction cannot take it.  Ids are distinct. -/
def step (s : System) : Act → Option System
  | .begin id isolation =>
    match s.txns id with
    | some _ => none
    | none => some (s.set id ⟨Transaction.new s.store isolation, 0, .active⟩)
  | .currentTs id => s.onActive id fun r => { r with now := s.store.currentTs }
  | .get id key => s.onActive id fun r => { r with txn := (r.txn.get s.store r.now key).2 }
  | .put id key value => s.onActive id fun r => { r with txn := r.txn.put key value }
  | .abort id => s.onActive id fun r => { r with phase := .aborted }
  | .commit id => s.onActive id fun r => { r with phase := r.txn.startCommit }
  | .validate id => (s.txns id).bind fun r =>
    match r.phase with
    | .validating todo => some (s.set id { r with phase := r.txn.validate s.store todo })
    | _ => none
  | .writeIntent id key => (s.txns id).bind fun r =>
    match r.phase with
    | .installing visited =>
      (r.txn.writes[key]?).bind fun value =>
        if key ∈ visited then none
        else some (set { s with store := s.store.writeIntent key value id } id
          { r with phase := .installing (key :: visited) })
    | _ => none
  | .nextTs id => (s.txns id).bind fun r =>
    match r.phase with
    | .installing visited =>
      if r.txn.visitedAll visited then
        some (set { s with store := s.store.nextTs.2 } id
          { r with phase := .stamping s.store.nextTs.1 [] })
      else none
    | _ => none
  | .commitKey id key => (s.txns id).bind fun r =>
    match r.phase with
    | .stamping ts visited =>
      (r.txn.writes[key]?).bind fun _ =>
        if key ∈ visited then none
        else some (set { s with store := (s.store.commitKey key id ts).2 } id
          { r with phase := .stamping ts (key :: visited) })
    | _ => none

/-- What a transaction reads. -/
def get (s : System) (id : ℕ) (key : String) : Option Bytes :=
  (s.txns id).bind fun r => (r.txn.get s.store r.now key).1

def run (s : System) (acts : List Act) : Option System := acts.foldlM step s

end System

/-! ### The store -/

namespace MvccStore

theorem chain_insert (store : MvccStore) (key : String) (vs : List Version) (k : String) :
    chain { store with chains := store.chains.insert key vs } k
      = if k = key then vs else store.chain k := by
  rw [chain, Std.TreeMap.getElem?_insert]
  by_cases hk : k = key
  · rw [if_pos hk, if_pos (by rw [hk]; exact Std.ReflCmp.compare_self)]
    rfl
  · rw [if_neg hk, if_neg fun hc => hk (Std.LawfulEqCmp.eq_of_compare hc).symm]
    rfl

theorem chain_writeIntent (store : MvccStore) (key : String) (value : Bytes) (txnId : ℕ)
    (k : String) :
    (store.writeIntent key value txnId).chain k
      = if k = key then ⟨value, txnId, none⟩ :: store.chain key else store.chain k :=
  store.chain_insert key _ k

/-- The effect of a stamp on a chain. -/
def stampHead (txnId commitTs : ℕ) : List Version → List Version
  | [] => []
  | ver :: prev =>
    if ver.txnId = txnId ∧ ver.commitTs = none then { ver with commitTs := some commitTs } :: prev
    else ver :: prev

theorem chain_commitKey (store : MvccStore) (key : String) (txnId commitTs : ℕ) (k : String) :
    (store.commitKey key txnId commitTs).2.chain k
      = if k = key then stampHead txnId commitTs (store.chain key) else store.chain k := by
  rw [commitKey]
  cases hc : store.chain key with
  | nil =>
    by_cases hk : k = key
    · rw [if_pos hk, hk, stampHead]
      exact hc
    · rw [if_neg hk]
  | cons ver prev =>
    rw [stampHead]
    by_cases hver : ver.txnId = txnId ∧ ver.commitTs = none
    · simp only [if_pos hver]
      exact store.chain_insert key _ k
    · simp only [if_neg hver]
      by_cases hk : k = key
      · rw [if_pos hk, hk]
        exact hc
      · rw [if_neg hk]

@[simp] theorem ts_writeIntent (store : MvccStore) (key : String) (value : Bytes) (txnId : ℕ) :
    (store.writeIntent key value txnId).ts = store.ts := rfl

@[simp] theorem ts_commitKey (store : MvccStore) (key : String) (txnId commitTs : ℕ) :
    (store.commitKey key txnId commitTs).2.ts = store.ts := by
  rw [commitKey]
  split
  · rfl
  · split <;> rfl

end MvccStore

/-! ### What an act does -/

/-- How far the commit of a transaction has come with a key. -/
inductive Slot where
  | before
  /-- The intent is installed and not yet stamped. -/
  | pending (value : Bytes)
  /-- The loop of the stamps has passed the key. -/
  | passed (value : Bytes) (ts : ℕ)

def slot (r : Option Running) (key : String) : Slot :=
  match r with
  | none => .before
  | some r =>
    match r.phase, r.txn.writes[key]? with
    | .installing visited, some value => if key ∈ visited then .pending value else .before
    | .stamping ts visited, some value => if key ∈ visited then .passed value ts else .pending value
    | _, _ => .before

/-- The timestamp that a transaction has drawn. -/
def drawn (r : Option Running) : Option ℕ :=
  r.bind fun r => match r.phase with
    | .stamping ts _ => some ts
    | _ => none

/-- The transaction has the same snapshot and level. -/
structure Transaction.Continues (t' t : Transaction) : Prop where
  snapshotTs : t'.snapshotTs = t.snapshotTs
  isolation : t'.isolation = t.isolation

/-- What an act can do to the system.  The acts other than the three calls of a
commit leave the store alone, and their transaction has not started to install
its intents. -/
inductive Effect (s : System) : Act → System → Prop
  | quiet {a : Act} {r' : Running} (hact : ∀ id key, a ≠ .writeIntent id key ∧ a ≠ .commitKey id key)
      (hslot : ∀ key, slot (s.txns a.id) key = .before) (hslot' : ∀ key, slot (some r') key = .before)
      (hdrawn : drawn (s.txns a.id) = none) (hdrawn' : drawn (some r') = none)
      (hkept : ∀ r, s.txns a.id = some r → r'.txn.Continues r.txn) :
      Effect s a (s.set a.id r')
  | intent {id : ℕ} {key : String} {r : Running} {visited : List String} {value : Bytes}
      (hr : s.txns id = some r) (hphase : r.phase = .installing visited)
      (hvalue : r.txn.writes[key]? = some value) (hnew : key ∉ visited) :
      Effect s (.writeIntent id key)
        (System.set { s with store := s.store.writeIntent key value id } id
          { r with phase := .installing (key :: visited) })
  | draw {id : ℕ} {r : Running} {visited : List String} (hr : s.txns id = some r)
      (hphase : r.phase = .installing visited) (hall : r.txn.visitedAll visited = true) :
      Effect s (.nextTs id)
        (System.set { s with store := s.store.nextTs.2 } id
          { r with phase := .stamping s.store.nextTs.1 [] })
  | stamp {id : ℕ} {key : String} {r : Running} {ts : ℕ} {visited : List String} {value : Bytes}
      (hr : s.txns id = some r) (hphase : r.phase = .stamping ts visited)
      (hvalue : r.txn.writes[key]? = some value) (hnew : key ∉ visited) :
      Effect s (.commitKey id key)
        (System.set { s with store := (s.store.commitKey key id ts).2 } id
          { r with phase := .stamping ts (key :: visited) })

variable {s s' : System} {a : Act}

theorem slot_eq_before {r : Running} (hi : ∀ visited, r.phase ≠ .installing visited)
    (hs : ∀ ts visited, r.phase ≠ .stamping ts visited) (key : String) :
    slot (some r) key = .before := by
  rw [slot]
  split
  · rename_i hphase _
    exact absurd hphase (hi _)
  · rename_i hphase _
    exact absurd hphase (hs _ _)
  · rfl

theorem slot_installing_nil {r : Running} (hr : r.phase = .installing []) (key : String) :
    slot (some r) key = .before := by
  rw [slot, hr]
  cases r.txn.writes[key]? with
  | none => rfl
  | some value => exact if_neg List.not_mem_nil

theorem drawn_eq_none {r : Running} (hs : ∀ ts visited, r.phase ≠ .stamping ts visited) :
    drawn (some r) = none := by
  rw [drawn, Option.bind_some]
  split
  · rename_i hphase
    exact absurd hphase (hs _ _)
  · rfl

/-- A phase in which no intent has been installed. -/
def Phase.Early (p : Phase) : Prop :=
  p = .installing [] ∨ ((∀ visited, p ≠ .installing visited) ∧ ∀ ts visited, p ≠ .stamping ts visited)

theorem Phase.Early.slot {r : Running} (h : r.phase.Early) (key : String) :
    Mvcc.slot (some r) key = .before := by
  rcases h with h | ⟨hi, hs⟩
  · exact slot_installing_nil h key
  · exact slot_eq_before hi hs key

theorem Phase.Early.drawn {r : Running} (h : r.phase.Early) : Mvcc.drawn (some r) = none := by
  rcases h with h | ⟨_, hs⟩
  · exact drawn_eq_none fun ts visited => by simp [h]
  · exact drawn_eq_none hs

theorem early_startCommit (t : Transaction) : t.startCommit.Early := by
  rw [Transaction.startCommit]
  by_cases h : t.isolation = .serializable
  · rw [if_pos h]
    exact .inr ⟨by simp, by simp⟩
  · rw [if_neg h]
    exact .inl rfl

theorem early_validate (t : Transaction) (store : MvccStore) (todo : List String) :
    (t.validate store todo).Early := by
  cases todo with
  | nil => exact .inl rfl
  | cons key todo =>
    rw [Transaction.validate]
    by_cases h : store.hasCommittedSince key t.snapshotTs = true
    · rw [if_pos h]
      exact .inr ⟨by simp, by simp⟩
    · rw [if_neg h]
      exact .inr ⟨by simp, by simp⟩

/-- A local step of a transaction that stays before its intents. -/
theorem Effect.of_early {r r' : Running}
    (hact : ∀ id key, a ≠ .writeIntent id key ∧ a ≠ .commitKey id key)
    (hr : s.txns a.id = some r) (he : r.phase.Early) (he' : r'.phase.Early)
    (hkept : r'.txn.Continues r.txn) : Effect s a (s.set a.id r') := by
  refine .quiet hact (fun key => ?_) he'.slot ?_ he'.drawn fun r₀ hr₀ => ?_
  · rw [hr]
    exact he.slot key
  · rw [hr]
    exact he.drawn
  · rw [hr, Option.some_inj] at hr₀
    rw [← hr₀]
    exact hkept

theorem Transaction.Continues.refl (t : Transaction) : t.Continues t := ⟨rfl, rfl⟩

theorem continues_get (t : Transaction) (store : MvccStore) (now : ℕ) (key : String) :
    (t.get store now key).2.Continues t := by
  rw [Transaction.get]
  cases t.writes[key]? with
  | some value => exact .refl t
  | none =>
    by_cases h : t.isolation = .serializable
    · simp only [if_pos h]
      exact ⟨rfl, rfl⟩
    · simp only [if_neg h]
      exact .refl t

/-! ### The acts, one by one -/

namespace System

theorem begin_eq_some {id : ℕ} {isolation : Isolation} (h : s.step (.begin id isolation) = some s') :
    s.txns id = none ∧ s' = s.set id ⟨Transaction.new s.store isolation, 0, .active⟩ := by
  rw [step] at h
  cases hr : s.txns id with
  | some r =>
    rw [hr] at h
    exact absurd h (by simp)
  | none =>
    rw [hr, Option.some_inj] at h
    exact ⟨rfl, h.symm⟩

theorem onActive_eq_some {id : ℕ} {f : Running → Running} (h : s.onActive id f = some s') :
    ∃ r, s.txns id = some r ∧ r.phase = .active ∧ s' = s.set id (f r) := by
  obtain ⟨r, hr, h⟩ := Option.bind_eq_some_iff.mp h
  by_cases hphase : r.phase = .active
  · rw [if_pos hphase, Option.some_inj] at h
    exact ⟨r, hr, hphase, h.symm⟩
  · rw [if_neg hphase] at h
    exact absurd h (by simp)

theorem validate_eq_some {id : ℕ} (h : s.step (.validate id) = some s') :
    ∃ r todo, s.txns id = some r ∧ r.phase = .validating todo ∧
      s' = s.set id { r with phase := r.txn.validate s.store todo } := by
  obtain ⟨r, hr, h⟩ := Option.bind_eq_some_iff.mp h
  cases hphase : r.phase with
  | validating todo =>
    rw [hphase, Option.some_inj] at h
    exact ⟨r, todo, hr, hphase, h.symm⟩
  | _ =>
    rw [hphase] at h
    exact absurd h (by simp)

theorem writeIntent_eq_some {id : ℕ} {key : String} (h : s.step (.writeIntent id key) = some s') :
    ∃ r visited value, s.txns id = some r ∧ r.phase = .installing visited ∧
      r.txn.writes[key]? = some value ∧ key ∉ visited ∧
        s' = System.set { s with store := s.store.writeIntent key value id } id
          { r with phase := .installing (key :: visited) } := by
  obtain ⟨r, hr, h⟩ := Option.bind_eq_some_iff.mp h
  cases hphase : r.phase with
  | installing visited =>
    rw [hphase] at h
    obtain ⟨value, hvalue, h⟩ := Option.bind_eq_some_iff.mp h
    by_cases hnew : key ∈ visited
    · rw [if_pos hnew] at h
      exact absurd h (by simp)
    · rw [if_neg hnew, Option.some_inj] at h
      exact ⟨r, visited, value, hr, hphase, hvalue, hnew, h.symm⟩
  | _ =>
    rw [hphase] at h
    exact absurd h (by simp)

theorem nextTs_eq_some {id : ℕ} (h : s.step (.nextTs id) = some s') :
    ∃ r visited, s.txns id = some r ∧ r.phase = .installing visited ∧
      r.txn.visitedAll visited = true ∧
        s' = System.set { s with store := s.store.nextTs.2 } id
          { r with phase := .stamping s.store.nextTs.1 [] } := by
  obtain ⟨r, hr, h⟩ := Option.bind_eq_some_iff.mp h
  cases hphase : r.phase with
  | installing visited =>
    rw [hphase] at h
    by_cases hall : r.txn.visitedAll visited = true
    · simp only [if_pos hall, Option.some_inj] at h
      exact ⟨r, visited, hr, hphase, hall, h.symm⟩
    · simp only [if_neg hall] at h
      exact absurd h (by simp)
  | _ =>
    rw [hphase] at h
    exact absurd h (by simp)

theorem commitKey_eq_some {id : ℕ} {key : String} (h : s.step (.commitKey id key) = some s') :
    ∃ r ts visited value, s.txns id = some r ∧ r.phase = .stamping ts visited ∧
      r.txn.writes[key]? = some value ∧ key ∉ visited ∧
        s' = System.set { s with store := (s.store.commitKey key id ts).2 } id
          { r with phase := .stamping ts (key :: visited) } := by
  obtain ⟨r, hr, h⟩ := Option.bind_eq_some_iff.mp h
  cases hphase : r.phase with
  | stamping ts visited =>
    rw [hphase] at h
    obtain ⟨value, hvalue, h⟩ := Option.bind_eq_some_iff.mp h
    by_cases hnew : key ∈ visited
    · rw [if_pos hnew] at h
      exact absurd h (by simp)
    · rw [if_neg hnew, Option.some_inj] at h
      exact ⟨r, ts, visited, value, hr, hphase, hvalue, hnew, h.symm⟩
  | _ =>
    rw [hphase] at h
    exact absurd h (by simp)

end System

/-- **What an act can do.** -/
theorem effect_of_step (h : s.step a = some s') : Effect s a s' := by
  -- calls of an active transaction leave the store and the log of commits alone
  have hactive : ∀ {f : Running → Running}, s.onActive a.id f = some s' →
      (∀ id key, a ≠ .writeIntent id key ∧ a ≠ .commitKey id key) →
      (∀ r, r.phase = .active → (f r).phase.Early ∧ (f r).txn.Continues r.txn) →
      Effect s a s' := by
    intro f hf hact hkept
    obtain ⟨r, hr, hphase, rfl⟩ := System.onActive_eq_some hf
    exact .of_early hact hr (.inr ⟨by simp [hphase], by simp [hphase]⟩) (hkept r hphase).1
      (hkept r hphase).2
  have hearly : ∀ {r : Running}, r.phase = .active → r.phase.Early := fun hr =>
    .inr ⟨by simp [hr], by simp [hr]⟩
  cases a with
  | begin id isolation =>
    obtain ⟨hnone, rfl⟩ := System.begin_eq_some h
    have hnew : (Running.mk (Transaction.new s.store isolation) 0 .active).phase.Early :=
      hearly rfl
    refine .quiet (a := .begin id isolation) (by simp) (fun key => ?_) hnew.slot ?_ hnew.drawn
      fun r' hr' => ?_
    · rw [show s.txns (Act.begin id isolation).id = none from hnone]
      rfl
    · rw [show s.txns (Act.begin id isolation).id = none from hnone]
      rfl
    · rw [show s.txns (Act.begin id isolation).id = none from hnone] at hr'
      exact absurd hr' (by simp)
  | currentTs id => exact hactive h (by simp) fun r hr => ⟨hearly hr, .refl _⟩
  | get id key => exact hactive h (by simp) fun r hr => ⟨hearly hr, continues_get _ _ _ _⟩
  | put id key value => exact hactive h (by simp) fun r hr => ⟨hearly hr, rfl, rfl⟩
  | abort id => exact hactive h (by simp) fun r _ => ⟨.inr ⟨by simp, by simp⟩, .refl _⟩
  | commit id => exact hactive h (by simp) fun r _ => ⟨early_startCommit _, .refl _⟩
  | validate id =>
    obtain ⟨r, todo, hr, hphase, rfl⟩ := System.validate_eq_some h
    exact .of_early (a := .validate id) (by simp) hr (.inr ⟨by simp [hphase], by simp [hphase]⟩)
      (early_validate _ _ _) (.refl _)
  -- the three kinds of step that change the store
  | writeIntent id key =>
    obtain ⟨r, visited, value, hr, hphase, hvalue, hnew, rfl⟩ := System.writeIntent_eq_some h
    exact .intent hr hphase hvalue hnew
  | nextTs id =>
    obtain ⟨r, visited, hr, hphase, hall, rfl⟩ := System.nextTs_eq_some h
    exact .draw hr hphase hall
  | commitKey id key =>
    obtain ⟨r, ts, visited, value, hr, hphase, hvalue, hnew, rfl⟩ := System.commitKey_eq_some h
    exact .stamp hr hphase hvalue hnew

/-! ### The parts of an effect -/

@[simp] theorem txns_set_self (s : System) (id : ℕ) (r : Running) :
    (s.set id r).txns id = some r := by
  show Function.update s.txns id (some r) id = some r
  rw [Function.update_self]

theorem txns_set_of_ne (s : System) {id id' : ℕ} (r : Running) (h : id' ≠ id) :
    (s.set id r).txns id' = s.txns id' := by
  show Function.update s.txns id (some r) id' = s.txns id'
  rw [Function.update_of_ne h]

/-- Only the acting transaction changes. -/
theorem Effect.txns_eq (h : Effect s a s') {id : ℕ} (hid : id ≠ a.id) :
    s'.txns id = s.txns id := by
  cases h with
  | quiet => exact txns_set_of_ne s _ hid
  | intent => exact txns_set_of_ne _ _ hid
  | draw => exact txns_set_of_ne _ _ hid
  | stamp => exact txns_set_of_ne _ _ hid

/-- A transaction draws a timestamp once, above all earlier ones. -/
theorem Effect.drawn_eq (h : Effect s a s') (id : ℕ) :
    drawn (s'.txns id) = drawn (s.txns id) ∨
      drawn (s.txns id) = none ∧ drawn (s'.txns id) = some (s.store.ts + 1) ∧
        a = .nextTs id ∧ s'.store.ts = s.store.ts + 1 := by
  by_cases hid : id = a.id
  · subst hid
    cases h with
    | quiet _ _ _ hdrawn hdrawn' _ =>
      left
      rw [txns_set_self, hdrawn, hdrawn']
    | @intent id _ _ _ _ hr hphase _ _ =>
      left
      show drawn ((System.set _ id _).txns id) = drawn (s.txns id)
      rw [txns_set_self, hr]
      simp [drawn, hphase]
    | @draw id _ _ hr hphase _ =>
      right
      show drawn (s.txns id) = none ∧ drawn ((System.set _ id _).txns id) = _ ∧ _
      rw [txns_set_self, hr]
      simp [drawn, hphase, MvccStore.nextTs, System.set, Act.id]
    | @stamp id _ _ _ _ _ hr hphase _ _ =>
      left
      show drawn ((System.set _ id _).txns id) = drawn (s.txns id)
      rw [txns_set_self, hr]
      simp [drawn, hphase]
  · left
    rw [h.txns_eq hid]

theorem Effect.ts_le (h : Effect s a s') : s.store.ts ≤ s'.store.ts := by
  cases h with
  | quiet => exact le_refl _
  | intent => exact le_refl _
  | draw => exact Nat.le_succ _
  | stamp =>
    show _ ≤ (s.store.commitKey _ _ _).2.ts
    rw [MvccStore.ts_commitKey]

/-- A loop that has visited all keys has visited each. -/
theorem mem_of_visitedAll {t : Transaction} {visited : List String}
    (hall : t.visitedAll visited = true) {key : String} {value : Bytes}
    (hvalue : t.writes[key]? = some value) : key ∈ visited := by
  have hmem : key ∈ t.writes.keys :=
    Std.TreeMap.mem_keys.mpr (Std.TreeMap.mem_iff_isSome_getElem?.mpr (by rw [hvalue]; rfl))
  simpa using List.all_eq_true.mp hall key hmem

/-- A commit moves on with a key by its own two calls on it only. -/
theorem Effect.slot_eq (h : Effect s a s') {id : ℕ} {key : String}
    (hintent : a ≠ .writeIntent id key) (hstamp : a ≠ .commitKey id key) :
    slot (s'.txns id) key = slot (s.txns id) key := by
  by_cases hid : id = a.id
  · subst hid
    cases h with
    | quiet _ hslot hslot' _ _ _ => rw [txns_set_self, hslot, hslot']
    | @intent id key' r visited value hr hphase hvalue hnew =>
      have hkey : key ≠ key' := fun heq => hintent (by rw [heq]; rfl)
      show slot ((System.set _ id _).txns id) key = slot (s.txns id) key
      rw [txns_set_self, hr, slot, slot]
      simp only [hphase]
      cases r.txn.writes[key]? with
      | none => rfl
      | some v => simp [hkey]
    | @draw id r visited hr hphase hall =>
      show slot ((System.set _ id _).txns id) key = slot (s.txns id) key
      rw [txns_set_self, hr, slot, slot]
      simp only [hphase]
      cases hv : r.txn.writes[key]? with
      | none => rfl
      | some v => simp [mem_of_visitedAll hall hv]
    | @stamp id key' r ts visited value hr hphase hvalue hnew =>
      have hkey : key ≠ key' := fun heq => hstamp (by rw [heq]; rfl)
      show slot ((System.set _ id _).txns id) key = slot (s.txns id) key
      rw [txns_set_self, hr, slot, slot]
      simp only [hphase]
      cases r.txn.writes[key]? with
      | none => rfl
      | some v => simp [hkey]
  · rw [h.txns_eq hid]

/-- What an act does to the chain of a key: nothing, a new intent, or a stamp. -/
theorem Effect.chain_eq (h : Effect s a s') (key : String) :
    ((∀ id, a ≠ .writeIntent id key ∧ a ≠ .commitKey id key) ∧
        s'.store.chain key = s.store.chain key) ∨
      (∃ id value, a = .writeIntent id key ∧
        s'.store.chain key = ⟨value, id, none⟩ :: s.store.chain key ∧
        slot (s.txns id) key = .before ∧ slot (s'.txns id) key = .pending value ∧
        drawn (s.txns id) = none) ∨
      ∃ id value ts, a = .commitKey id key ∧
        s'.store.chain key = MvccStore.stampHead id ts (s.store.chain key) ∧
        slot (s.txns id) key = .pending value ∧ slot (s'.txns id) key = .passed value ts ∧
        drawn (s.txns id) = some ts := by
  cases h with
  | quiet hact => exact .inl ⟨fun id => hact id key, rfl⟩
  | @intent id key' r visited value hr hphase hvalue hnew =>
    by_cases hkey : key = key'
    · subst hkey
      refine .inr (.inl ⟨id, value, rfl, ?_, ?_, ?_, ?_⟩)
      · show (s.store.writeIntent key value id).chain key = _
        rw [MvccStore.chain_writeIntent, if_pos rfl]
      · simp [slot, hr, hphase, hvalue, hnew]
      · simp [slot, hvalue]
      · simp [drawn, hr, hphase]
    · refine .inl ⟨fun id' => by simp [Ne.symm hkey], ?_⟩
      show (s.store.writeIntent key' value id).chain key = _
      rw [MvccStore.chain_writeIntent, if_neg hkey]
  | draw => exact .inl ⟨by simp, rfl⟩
  | @stamp id key' r ts visited value hr hphase hvalue hnew =>
    by_cases hkey : key = key'
    · subst hkey
      refine .inr (.inr ⟨id, value, ts, rfl, ?_, ?_, ?_, ?_⟩)
      · show (s.store.commitKey key id ts).2.chain key = _
        rw [MvccStore.chain_commitKey, if_pos rfl]
      · simp [slot, hr, hphase, hvalue, hnew]
      · simp [slot, hvalue]
      · simp [drawn, hr, hphase]
    · refine .inl ⟨fun id' => by simp [Ne.symm hkey], ?_⟩
      show (s.store.commitKey key' id ts).2.chain key = _
      rw [MvccStore.chain_commitKey, if_neg hkey]

/-- An intent on a key is the start of the commit with it. -/
theorem Effect.of_writeIntent {id : ℕ} {key : String} (h : Effect s (.writeIntent id key) s') :
    ∃ value, s'.store.chain key = ⟨value, id, none⟩ :: s.store.chain key ∧
      slot (s.txns id) key = .before ∧ slot (s'.txns id) key = .pending value ∧
      drawn (s.txns id) = none := by
  rcases h.chain_eq key with ⟨hne, _⟩ | ⟨id', value, hact, heffect⟩ | ⟨_, _, _, hact, _⟩
  · exact absurd rfl (hne id).1
  · rw [Act.writeIntent.injEq] at hact
    rw [← hact.1] at heffect
    exact ⟨value, heffect⟩
  · exact absurd hact (by simp)

/-- A stamp on a key is the end of the commit with it. -/
theorem Effect.of_commitKey {id : ℕ} {key : String} (h : Effect s (.commitKey id key) s') :
    ∃ value ts, s'.store.chain key = MvccStore.stampHead id ts (s.store.chain key) ∧
      slot (s.txns id) key = .pending value ∧ slot (s'.txns id) key = .passed value ts ∧
      drawn (s.txns id) = some ts := by
  rcases h.chain_eq key with ⟨hne, _⟩ | ⟨_, _, hact, _⟩ | ⟨id', value, ts, hact, heffect⟩
  · exact absurd rfl (hne id).2
  · exact absurd hact (by simp)
  · rw [Act.commitKey.injEq] at hact
    rw [← hact.1] at heffect
    exact ⟨value, ts, heffect⟩

/-! ### Timestamps -/

/-- A stamp is the timestamp that its transaction has drawn, and timestamps are
drawn once. -/
structure Stamps (s : System) : Prop where
  bound : ∀ id ts, drawn (s.txns id) = some ts → ts ≤ s.store.ts
  inj : ∀ id id' ts, drawn (s.txns id) = some ts → drawn (s.txns id') = some ts → id = id'
  stamped : ∀ key, ∀ ver ∈ s.store.chain key, ∀ ts, ver.commitTs = some ts →
    drawn (s.txns ver.txnId) = some ts

theorem stamps_init : Stamps System.init where
  bound id ts h := absurd h (by simp [drawn, System.init])
  inj id id' ts h := absurd h (by simp [drawn, System.init])
  stamped key ver h := absurd h (by simp [System.init, MvccStore.new, MvccStore.chain])

/-- The stamps of a chain after a stamp on its head. -/
theorem mem_stampHead {id ts : ℕ} {vs : List Version} {ver : Version}
    (h : ver ∈ MvccStore.stampHead id ts vs) :
    ver ∈ vs ∨ ver.txnId = id ∧ ver.commitTs = some ts := by
  cases vs with
  | nil => exact absurd h (by simp [MvccStore.stampHead])
  | cons v vs =>
    rw [MvccStore.stampHead] at h
    by_cases hv : v.txnId = id ∧ v.commitTs = none
    · rw [if_pos hv] at h
      rcases List.mem_cons.mp h with rfl | h
      · exact .inr ⟨hv.1, rfl⟩
      · exact .inl (List.mem_cons_of_mem _ h)
    · rw [if_neg hv] at h
      exact .inl h

theorem Stamps.step (hs : Stamps s) (h : Effect s a s') : Stamps s' := by
  -- what has been drawn stays drawn
  have hkeeps : ∀ id ts, drawn (s.txns id) = some ts → drawn (s'.txns id) = some ts := by
    intro id ts hd
    rcases h.drawn_eq id with heq | ⟨hnone, _⟩
    · rw [heq, hd]
    · rw [hd] at hnone
      exact absurd hnone (by simp)
  refine ⟨fun id ts hd => ?_, fun id id' ts hd hd' => ?_, fun key ver hver ts hts => ?_⟩
  · rcases h.drawn_eq id with heq | ⟨_, hnew, _, hts⟩
    · rw [heq] at hd
      exact (hs.bound id ts hd).trans h.ts_le
    · rw [hnew, Option.some_inj] at hd
      omega
  · rcases h.drawn_eq id with heq | ⟨_, hnew, hact, _⟩
    · rcases h.drawn_eq id' with heq' | ⟨_, hnew', _, _⟩
      · rw [heq] at hd
        rw [heq'] at hd'
        exact hs.inj id id' ts hd hd'
      · -- the new timestamp is above the old one
        rw [heq] at hd
        rw [hnew', Option.some_inj] at hd'
        have := hs.bound id ts hd
        omega
    · rcases h.drawn_eq id' with heq' | ⟨_, _, hact', _⟩
      · rw [heq'] at hd'
        rw [hnew, Option.some_inj] at hd
        have := hs.bound id' ts hd'
        omega
      · rw [hact, Act.nextTs.injEq] at hact'
        exact hact'
  · rcases h.chain_eq key with ⟨_, hchain⟩ | ⟨id, value, _, hchain, _⟩ |
      ⟨id, value, ts', _, hchain, _, _, hdrawn⟩
    · rw [hchain] at hver
      exact hkeeps _ _ (hs.stamped key ver hver ts hts)
    · rw [hchain] at hver
      rcases List.mem_cons.mp hver with rfl | hver
      · exact absurd hts (by simp)
      · exact hkeeps _ _ (hs.stamped key ver hver ts hts)
    · rw [hchain] at hver
      rcases mem_stampHead hver with hver | ⟨hid, hstamp⟩
      · exact hkeeps _ _ (hs.stamped key ver hver ts hts)
      · rw [hstamp] at hts
        rw [hid, ← hts]
        exact hkeeps _ _ hdrawn

/-- **Every reachable system** has consistent stamps. -/
theorem Stamps.reachable {acts : List Act} (h : System.init.run acts = some s) : Stamps s :=
  foldlM_induction h stamps_init fun _ _ _ _ ht hstep => ht.step (effect_of_step hstep)

end Mvcc

end Uldb
