/-
Calls on the engine, and what every call keeps.

`Call` collects the engine's calls and the step of the background worker, and
`exec` runs one.  Two facts about all of them carry the results on whole runs:

* `exec_wal`, `run_wal` — successful calls append exactly their records to the log;
* `exec_keeps` — every call, also a failing one, keeps an invariant of the memory
  part that writes, flushes and the worker keep (`CoreInv`).  Two such invariants
  are `Drained`, that the frozen memtables are empty, and `Tracked`, that pages
  are sorted and no key appears that was not written.
-/
import Uldb.Engine

namespace Uldb

open Fallible

/-- A call on the engine, or a step of its worker. -/
inductive Call where
  | put (key value : Bytes)
  | putProfiled (key value : Bytes)
  | delete (key : Bytes)
  | putBatch (entries : List (Bytes × Bytes))
  | bulkIngest (entries : List (Bytes × Bytes))
  | flush
  | sync
  | get (key : Bytes)
  | scan (start stop : Bytes)
  | work
  | snapshotCreate (name : String)
  | snapshotRestore (name : String)
  | snapshotDelete (name : String)
  | branchCreate (branch source : String)
  | branchMerge (branch : String)
  | branchRollback (branch : String)
  | agentPut (name : String) (path content : Bytes)
  | agentDelete (name : String) (path : Bytes)
  | agentLoad (name : String) (records : List (Bytes × Bytes))

namespace Call

/-- The call may write the value to the key; no value stands for a delete. -/
def writes : Call → Bytes → Option Bytes → Prop
  | put key value, k, v => key = k ∧ some value = v
  | putProfiled key value, k, v => key = k ∧ some value = v
  | delete key, k, v => key = k ∧ none = v
  | putBatch entries, k, v => ∃ value, (k, value) ∈ entries ∧ some value = v
  | bulkIngest entries, k, v => ∃ value, (k, value) ∈ entries ∧ some value = v
  | branchMerge _, _, _ => True
  | _, _, _ => False

/-- The log records of a call, for calls other than a merge. -/
def records : Call → List WalRecord
  | put key value => [⟨key, value⟩]
  | putProfiled key value => [⟨key, value⟩]
  | delete key => [⟨key, []⟩]
  | putBatch entries => Engine.batchRecords entries
  | bulkIngest entries => Engine.batchRecords entries
  | _ => []

/-- The call changes the live trie and the snapshots only. -/
def onSnapshots : Call → Bool
  | snapshotCreate _ => true
  | snapshotRestore _ => true
  | snapshotDelete _ => true
  | branchCreate _ _ => true
  | branchRollback _ => true
  | agentPut _ _ _ => true
  | agentDelete _ _ => true
  | agentLoad _ _ => true
  | _ => false

/-- The call is a merge, whose log records are those of the merged branch. -/
def isMerge : Call → Bool
  | branchMerge _ => true
  | _ => false

end Call

namespace Engine

/-- Run a call, without its return value. -/
def exec [Codec] : Call → EngineM Unit
  | .put key value => put key value
  | .putProfiled key value => putProfiled key value
  | .delete key => delete key
  | .putBatch entries => putBatch entries
  | .bulkIngest entries => do let _ ← bulkIngest entries
  | .flush => flush
  | .sync => sync
  | .get key => modify fun e => (e.get key).2
  | .scan start stop => fun e =>
    match e.scan start stop with
    | .ok _ => .ok () e
    | .error failure => .error failure e
  | .work => modify work
  | .snapshotCreate name => do let _ ← snapshotCreate name
  | .snapshotRestore name => snapshotRestore name
  | .snapshotDelete name => do let _ ← snapshotDelete name
  | .branchCreate branch source => do let _ ← branchCreate branch source
  | .branchMerge branch => do let _ ← branchMerge branch
  | .branchRollback branch => do let _ ← branchRollback branch
  | .agentPut name path content => agentPut name path content
  | .agentDelete name path => agentDelete name path
  | .agentLoad name records => agentLoad name records

theorem statePut_eq_ok {key value : Bytes} {e e' : Engine} {u : Unit}
    (h : statePut key value e = .ok u e') :
    ∃ state, e.state.put key value = some state ∧ e' = { e with state := state } := by
  rw [statePut] at h
  cases hput : e.state.put key value with
  | none =>
    rw [hput] at h
    exact absurd h (by simp)
  | some state =>
    rw [hput, EStateM.Result.ok.injEq] at h
    exact ⟨state, rfl, h.2.symm⟩

/-! ### Invariants of the memory part -/

/-- The engine after a flush that reached the worker's channel. -/
def flushed (e : Engine) : Engine :=
  { e with
    memtable := Memtable.new e.flushThreshold
    compactor := { e.compactor with queue := e.compactor.queue ++ [e.memtable.toPage.1] }
    frozen := (e.frozen ++ [e.memtable.toPage.2]).drop (e.frozen.length - 1)
    flushCount := e.flushCount + 1 }

theorem flushMemtable_of_alive {e : Engine} (h : e.compactor.alive = true) :
    flushMemtable e = .ok () e.flushed := by
  simp only [flushMemtable, submit, bind, EStateM.bind, EStateM.get, modify, modifyGet,
    MonadStateOf.modifyGet, EStateM.modifyGet, h, if_true, flushed, List.length_append,
    List.length_singleton]
  rfl

/-- A flush that fails has already emptied the memtable. -/
theorem flushMemtable_of_dead {e : Engine} (h : e.compactor.alive = false) :
    flushMemtable e
      = .error (.error "failed to submit page to compactor: sending on a closed channel")
        { e with memtable := Memtable.new e.flushThreshold } := by
  simp only [flushMemtable, submit, bind, EStateM.bind, EStateM.get, modify, modifyGet,
    MonadStateOf.modifyGet, EStateM.modifyGet, h]
  rfl

/-- An invariant that the memory part of a write keeps, as long as the keys and values
that are written satisfy `K`: a write to the memtable and to the trie, a flush, and any
change of the indices, the cache and the counters. -/
structure MemInv (K : Bytes → Option Bytes → Prop) (I : Engine → Prop) : Prop where
  write : ∀ {e : Engine} {key : Bytes} {value : Option Bytes}, I e → K key value →
    I { e with memtable := e.memtable.write key value }
  put : ∀ {e : Engine} {key value : Bytes} {state : Hamt}, I e → K key (some value) →
    e.state.put key value = some state → I { e with state := state }
  delete : ∀ {e : Engine} {key : Bytes}, I e → K key none →
    I { e with state := e.state.delete key }
  flushed : ∀ {e : Engine}, I e → I e.flushed
  dropped : ∀ {e : Engine}, I e → e.compactor.alive = false →
    I { e with memtable := Memtable.new e.flushThreshold }
  other : ∀ {e : Engine} (indices : IndexManager) (cache : LruCache) (puts gets deletes : ℕ),
    I e → I { e with
      indices := indices, cache := cache,
      totalPuts := puts, totalGets := gets, totalDeletes := deletes }

/-- An invariant that every call other than those on snapshots keeps. -/
structure StorageInv [Codec] (K : Bytes → Option Bytes → Prop) (I : Engine → Prop) : Prop extends
    MemInv K I where
  wal : ∀ {e : Engine} (w : WalWriter), I e → I { e with wal := w }
  work : ∀ {e : Engine}, I e → I e.work

/-- An invariant that every call keeps: it is about the memtables and the compactor. -/
structure CoreInv [Codec] (K : Bytes → Option Bytes → Prop) (I : Engine → Prop) : Prop extends
    StorageInv K I where
  snapshots : ∀ {e : Engine} (state : Hamt) (snapshots : Std.TreeMap String Hamt) (n : ℕ), I e →
    I { e with state := state, snapshots := snapshots, snapshotCounter := n }

namespace MemInv

variable {K : Bytes → Option Bytes → Prop} {I : Engine → Prop}

theorem memtablePut (hI : MemInv K I) {key value : Bytes} (hkey : K key (some value)) :
    Keeps I (memtablePut key value) := fun _ he => hI.write he hkey

theorem memtableDelete (hI : MemInv K I) {key : Bytes} (hkey : K key none) :
    Keeps I (memtableDelete key) := fun _ he => hI.write he hkey

theorem flushMemtable (hI : MemInv K I) : Keeps I flushMemtable := by
  intro e he
  cases halive : e.compactor.alive with
  | true =>
    rw [flushMemtable_of_alive halive]
    exact hI.flushed he
  | false =>
    rw [flushMemtable_of_dead halive]
    exact hI.dropped he halive

theorem countPut (hI : MemInv K I) : Keeps I countPut := fun e he =>
  hI.other e.indices e.cache (e.totalPuts + 1) e.totalGets e.totalDeletes he

theorem countDelete (hI : MemInv K I) :
    Keeps I (modify fun e => { e with totalDeletes := e.totalDeletes + 1 } : EngineM PUnit) :=
  fun e he => hI.other e.indices e.cache e.totalPuts e.totalGets (e.totalDeletes + 1) he

theorem invalidate (hI : MemInv K I) (key : Bytes) : Keeps I (invalidate key) := fun e he =>
  hI.other e.indices _ e.totalPuts e.totalGets e.totalDeletes he

theorem clearCache (hI : MemInv K I) : Keeps I clearCache := fun e he =>
  hI.other e.indices _ e.totalPuts e.totalGets e.totalDeletes he

theorem indexPut (hI : MemInv K I) (key value : Bytes) : Keeps I (indexPut key value) :=
  fun e he => hI.other _ e.cache e.totalPuts e.totalGets e.totalDeletes he

theorem indexDelete (hI : MemInv K I) (key : Bytes) :
    Keeps I (modify fun e => { e with indices := e.indices.onDelete key } : EngineM PUnit) :=
  fun e he => hI.other _ e.cache e.totalPuts e.totalGets e.totalDeletes he

theorem stateDelete (hI : MemInv K I) {key : Bytes} (hkey : K key none) :
    Keeps I (modify fun e => { e with state := e.state.delete key } : EngineM PUnit) :=
  fun _ he => hI.delete he hkey

theorem statePut (hI : MemInv K I) {key value : Bytes} (hkey : K key (some value)) :
    Keeps I (statePut key value) := by
  intro e he
  rw [Engine.statePut]
  cases hput : e.state.put key value with
  | none => exact he
  | some state => exact hI.put he hkey hput

theorem applyEntries (hI : MemInv K I) {entries : List (Bytes × Bytes)}
    (h : ∀ kv ∈ entries, K kv.1 (some kv.2)) : Keeps I (applyEntries entries) := by
  induction entries with
  | nil => exact Keeps.pure _
  | cons kv entries ih =>
    obtain ⟨key, value⟩ := kv
    have hkv : K key (some value) := h (key, value) (by simp)
    refine Keeps.bind (hI.memtablePut hkv) fun _ => ?_
    refine Keeps.bind hI.countPut fun _ => Keeps.bind (hI.indexPut key value) fun _ => ?_
    refine Keeps.bind (hI.statePut hkv) fun _ => ?_
    exact Keeps.bind (ih fun kv hkv => h kv (by simp [hkv])) fun _ => Keeps.pure _

/-- The part of a write after the log. -/
theorem afterLog (hI : MemInv K I) {key value : Bytes} (hkey : K key (some value)) :
    Keeps I (do
      let shouldFlush ← Engine.memtablePut key value
      Engine.countPut
      Engine.invalidate key
      Engine.indexPut key value
      Engine.statePut key value
      ifThen (shouldFlush = true) Engine.flushMemtable : EngineM Unit) := by
  refine Keeps.bind (hI.memtablePut hkey) fun full => ?_
  refine Keeps.bind hI.countPut fun _ => Keeps.bind (hI.invalidate key) fun _ => ?_
  refine Keeps.bind (hI.indexPut key value) fun _ => Keeps.bind (hI.statePut hkey) fun _ => ?_
  exact Keeps.ifThen hI.flushMemtable

theorem afterLogProfiled (hI : MemInv K I) {key value : Bytes} (hkey : K key (some value)) :
    Keeps I (do
      let shouldFlush ← Engine.memtablePut key value
      Engine.countPut
      Engine.indexPut key value
      Engine.statePut key value
      ifThen (shouldFlush = true) Engine.flushMemtable : EngineM Unit) := by
  refine Keeps.bind (hI.memtablePut hkey) fun full => ?_
  refine Keeps.bind hI.countPut fun _ => Keeps.bind (hI.indexPut key value) fun _ => ?_
  exact Keeps.bind (hI.statePut hkey) fun _ => Keeps.ifThen hI.flushMemtable

theorem afterLogDelete (hI : MemInv K I) {key : Bytes} (hkey : K key none) :
    Keeps I (do
      let shouldFlush ← Engine.memtableDelete key
      modify fun e => { e with totalDeletes := e.totalDeletes + 1 }
      Engine.invalidate key
      modify fun e => { e with indices := e.indices.onDelete key }
      modify fun e => { e with state := e.state.delete key }
      ifThen (shouldFlush = true) Engine.flushMemtable : EngineM Unit) := by
  refine Keeps.bind (hI.memtableDelete hkey) fun full => ?_
  refine Keeps.bind hI.countDelete fun _ => Keeps.bind (hI.invalidate key) fun _ => ?_
  refine Keeps.bind (hI.indexDelete key) fun _ => Keeps.bind (hI.stateDelete hkey) fun _ => ?_
  exact Keeps.ifThen hI.flushMemtable

theorem afterLogBatch (hI : MemInv K I) {entries : List (Bytes × Bytes)}
    (h : ∀ kv ∈ entries, K kv.1 (some kv.2)) :
    Keeps I (do
      Engine.clearCache
      let shouldFlush ← Engine.applyEntries entries
      ifThen (shouldFlush = true) Engine.flushMemtable : EngineM Unit) :=
  Keeps.bind hI.clearCache fun _ => Keeps.bind (hI.applyEntries h) fun _ =>
    Keeps.ifThen hI.flushMemtable

theorem afterLogIngest (hI : MemInv K I) {entries : List (Bytes × Bytes)}
    (h : ∀ kv ∈ entries, K kv.1 (some kv.2)) :
    Keeps I (do
      Engine.clearCache
      let _ ← Engine.applyEntries entries
      let e ← EStateM.get
      ifThen (e.memtable.shouldFlush = true) Engine.flushMemtable
      pure entries.length : EngineM ℕ) := by
  refine Keeps.bind hI.clearCache fun _ => Keeps.bind (hI.applyEntries h) fun _ => ?_
  refine Keeps.bind (fun e he => he) fun _ => ?_
  exact Keeps.bind (Keeps.ifThen hI.flushMemtable) fun _ => Keeps.pure _

theorem flush (hI : MemInv K I) : Keeps I flush :=
  Keeps.bind (fun _ he => he) fun _ => Keeps.ifThen hI.flushMemtable

end MemInv

namespace StorageInv

variable [Codec] {K : Bytes → Option Bytes → Prop} {I : Engine → Prop}

theorem onWal (hI : StorageInv K I) {α : Type} (x : EStateM Failure WalWriter α) :
    Keeps I (onWal x) :=
  Keeps.onPart fun _ w he => hI.wal w he

theorem appendAll (hI : StorageInv K I) (rs : List WalRecord) : Keeps I (appendAll rs) :=
  Keeps.bind (hI.onWal _) fun _ => hI.onWal _

theorem mergeEntry (hI : StorageInv K I) {kv : Bytes × Bytes} (hK : K kv.1 (some kv.2)) :
    Keeps I (mergeEntry kv) := by
  refine Keeps.bind (hI.statePut hK) fun _ => ?_
  refine Keeps.bind (Keeps.mapError (hI.onWal _)) fun _ => ?_
  exact Keeps.bind (hI.memtablePut hK) fun _ => hI.indexPut _ _

/-- A merge writes the keys of the branch, and removes it. -/
theorem branchMerge (hI : StorageInv K I) (hK : ∀ k v, K k v) {branch : String}
    (herase : ∀ {e : Engine}, I e → I { e with snapshots := e.snapshots.erase branch }) :
    Keeps I (branchMerge branch) := by
  refine Keeps.bind (fun e he => he) fun e => ?_
  cases e.snapshots[branch]? with
  | none => exact Keeps.throw _
  | some base =>
    refine Keeps.bind (Keeps.forM fun kv _ => hI.mergeEntry (hK kv.1 _)) fun _ => ?_
    exact Keeps.bind (Keeps.modify fun _ he => herase he) fun _ => Keeps.pure _

end StorageInv

/-! ### Reading -/

/-- What a read finds below the memtable: the frozen memtables, newest first,
then the cache, then the levels. -/
def below (e : Engine) (k : Bytes) : Option Bytes :=
  ((e.frozen.reverse.findSome? fun m => m.getEntry k).map MemEntry.value).getD
    ((e.cache.lookup k).or (e.compactor.compaction.get k))

/-- The answer of a read. -/
theorem get_fst (e : Engine) (k : Bytes) :
    (e.get k).1 = ((e.memtable.getEntry k).map MemEntry.value).getD (e.below k) := by
  rw [get, below]
  cases e.memtable.getEntry k with
  | some entry => rfl
  | none =>
    cases e.frozen.reverse.findSome? fun m => m.getEntry k with
    | some entry => rfl
    | none =>
      have hhit := e.cache.get_fst k
      cases hc : e.cache.get k with
      | mk hit cache =>
        rw [hc] at hhit
        simp only [Option.map_none, Option.getD_none, ← hhit]
        cases hit with
        | some value => rfl
        | none => cases hlev : e.compactor.compaction.get k <;> rfl

/-- A read changes the cache and a counter only. -/
theorem get_frame (e : Engine) (key : Bytes) :
    ∃ cache, (e.get key).2 = { e with cache := cache, totalGets := e.totalGets + 1 } := by
  rw [get]
  cases e.memtable.getEntry key with
  | some entry => exact ⟨e.cache, rfl⟩
  | none =>
    cases e.frozen.reverse.findSome? fun m => m.getEntry key with
    | some entry => exact ⟨e.cache, rfl⟩
    | none =>
      cases e.cache.get key with
      | mk hit cache =>
        cases hit with
        | some value => exact ⟨cache, rfl⟩
        | none =>
          cases e.compactor.compaction.get key with
          | some value => exact ⟨cache.insert key value, rfl⟩
          | none => exact ⟨cache, rfl⟩

theorem onBranch_frame (name : String) (f : Hamt → Option Hamt) (e : Engine) :
    ∃ snapshots, finalState (onBranch name f e) = { e with snapshots := snapshots } := by
  rw [onBranch]
  cases e.snapshots[name]? with
  | none => exact ⟨e.snapshots, rfl⟩
  | some branch =>
    cases hf : f branch with
    | none => exact ⟨e.snapshots, by simp [hf, finalState]⟩
    | some updated => exact ⟨e.snapshots.insert name updated, by simp [hf, finalState]⟩

theorem finalState_bind_pure {α : Type} (x : EngineM α) (e : Engine) :
    finalState ((do let _ ← x; pure () : EngineM Unit) e) = finalState (x e) := by
  show finalState (EStateM.bind x _ e) = _
  rw [EStateM.bind]
  cases x e <;> rfl

/-- What the calls on snapshots and branches can change. -/
theorem exec_onSnapshots [Codec] {c : Call} (hc : c.onSnapshots = true) (e : Engine) :
    ∃ state snapshots n, finalState (exec c e)
      = { e with state := state, snapshots := snapshots, snapshotCounter := n } := by
  have hagent : ∀ name f, ∃ state snapshots n, finalState (onBranch name f e)
      = { e with state := state, snapshots := snapshots, snapshotCounter := n } := by
    intro name f
    obtain ⟨snapshots, heq⟩ := onBranch_frame name f e
    exact ⟨e.state, snapshots, e.snapshotCounter, heq⟩
  cases c with
  | snapshotCreate name =>
    simp only [exec, finalState_bind_pure, snapshotCreate]
    by_cases hname : name = ""
    · exact ⟨e.state, _, e.snapshotCounter + 1, by rw [if_pos hname]; rfl⟩
    · exact ⟨e.state, _, e.snapshotCounter, by rw [if_neg hname]; rfl⟩
  | snapshotRestore name =>
    simp only [exec, snapshotRestore]
    cases e.snapshots[name]? with
    | none => exact ⟨e.state, e.snapshots, e.snapshotCounter, rfl⟩
    | some snap => exact ⟨snap, e.snapshots, e.snapshotCounter, rfl⟩
  | snapshotDelete name => exact ⟨e.state, _, e.snapshotCounter, rfl⟩
  | branchCreate branch source =>
    simp only [exec, finalState_bind_pure, branchCreate]
    by_cases hsource : source = ""
    · exact ⟨e.state, _, e.snapshotCounter, by rw [if_pos hsource]; rfl⟩
    · rw [if_neg hsource]
      cases e.snapshots[source]? with
      | none => exact ⟨e.state, e.snapshots, e.snapshotCounter, rfl⟩
      | some base => exact ⟨e.state, _, e.snapshotCounter, rfl⟩
  | branchRollback branch => exact ⟨e.state, _, e.snapshotCounter, rfl⟩
  | agentPut name path content => exact hagent name _
  | agentDelete name path => exact hagent name fun branch => some (branch.delete path)
  | agentLoad name records => exact hagent name _
  | _ => exact absurd hc (by simp [Call.onSnapshots])

theorem exec_scan [Codec] (start stop : Bytes) (e : Engine) :
    finalState (exec (.scan start stop) e) = e := by
  simp only [exec]
  cases e.scan start stop <;> rfl

variable [Codec]

/-- Every call keeps an invariant of the storage, except perhaps the calls on snapshots
and the merges; whether it succeeds or fails. -/
theorem exec_storage {K : Bytes → Option Bytes → Prop} {I : Engine → Prop} (hI : StorageInv K I) {c : Call}
    (hs : c.onSnapshots = false) (hm : c.isMerge = false) (h : ∀ k v, c.writes k v → K k v) :
    Keeps I (exec c) := by
  cases c with
  | put key value =>
    exact Keeps.bind (hI.onWal _) fun _ => Keeps.bind (hI.onWal _) fun _ =>
      hI.afterLog (h key _ ⟨rfl, rfl⟩)
  | putProfiled key value =>
    exact Keeps.bind (hI.onWal _) fun _ => Keeps.bind (hI.onWal _) fun _ =>
      hI.afterLogProfiled (h key _ ⟨rfl, rfl⟩)
  | delete key =>
    exact Keeps.bind (hI.onWal _) fun _ => Keeps.bind (hI.onWal _) fun _ =>
      hI.afterLogDelete (h key _ ⟨rfl, rfl⟩)
  | putBatch entries =>
    exact Keeps.bind (hI.appendAll _) fun _ => hI.afterLogBatch fun kv hkv =>
      h kv.1 _ ⟨kv.2, hkv, rfl⟩
  | bulkIngest entries =>
    refine Keeps.bind ?_ fun _ => Keeps.pure _
    rw [bulkIngest]
    by_cases hnil : entries = []
    · rw [if_pos hnil]
      exact Keeps.pure _
    · rw [if_neg hnil]
      exact Keeps.bind (hI.appendAll _) fun _ => hI.afterLogIngest fun kv hkv =>
        h kv.1 _ ⟨kv.2, hkv, rfl⟩
  | flush => exact hI.flush
  | sync => exact hI.onWal _
  | get key =>
    refine Keeps.modify fun e he => ?_
    obtain ⟨cache, heq⟩ := get_frame e key
    rw [heq]
    exact hI.other e.indices cache e.totalPuts (e.totalGets + 1) e.totalDeletes he
  | scan start stop =>
    intro e he
    rw [exec_scan]
    exact he
  | work => exact Keeps.modify fun e he => hI.work he
  | branchMerge branch => exact absurd hm (by simp [Call.isMerge])
  | _ => exact absurd hs (by simp [Call.onSnapshots])

/-- **Every call keeps an invariant of the memory part**, whether it succeeds or fails. -/
theorem exec_keeps {K : Bytes → Option Bytes → Prop} {I : Engine → Prop} (hI : CoreInv K I) (c : Call)
    (h : ∀ k v, c.writes k v → K k v) : Keeps I (exec c) := by
  cases hs : c.onSnapshots with
  | true =>
    intro e he
    obtain ⟨state, snapshots, n, heq⟩ := exec_onSnapshots hs e
    rw [heq]
    exact hI.snapshots state snapshots n he
  | false =>
    cases c with
    | branchMerge branch =>
      refine Keeps.bind (hI.branchMerge (fun k v => h k v trivial) ?_) fun _ => Keeps.pure _
      exact fun {e} he => hI.snapshots e.state (e.snapshots.erase branch) e.snapshotCounter he
    | _ => exact exec_storage hI.toStorageInv hs rfl h

/-! ### Drained memtables and sorted pages -/

/-- Every frozen memtable has been drained: a read finds nothing in it. -/
def Drained (e : Engine) : Prop := ∀ m ∈ e.frozen, ∀ k, m.getEntry k = none

theorem drained_coreInv : CoreInv (fun _ _ => True) Drained where
  write he _ := he
  put he _ _ := he
  delete he _ := he
  flushed {e} he m hm k := by
    rcases List.mem_append.mp (List.mem_of_mem_drop hm) with hm | hm
    · exact he m hm k
    · rw [List.mem_singleton.mp hm]
      exact e.memtable.getEntry_toPage k
  dropped he _ := he
  other _ _ _ _ _ he := he
  wal _ he := he
  work he := he
  snapshots _ _ _ he := he

omit [Codec] in
/-- A read of an engine whose frozen memtables are drained asks the cache and the levels. -/
theorem Drained.below_eq {e : Engine} (he : e.Drained) (k : Bytes) :
    e.below k = (e.cache.lookup k).or (e.compactor.compaction.get k) := by
  have hnone : (e.frozen.reverse.findSome? fun m => m.getEntry k) = none := by
    rw [List.findSome?_eq_none_iff]
    intro m hm
    exact he m (List.mem_reverse.mp hm) k
  rw [below, hnone]
  rfl

/-- A sorted page whose keys all satisfy `K`. -/
def PageIn (K : Bytes → Prop) (p : Page) : Prop := p.Sorted ∧ ∀ r ∈ p.records, K r.key

/-- The memory part of an engine into which only keys of `K` were written. -/
structure Tracked (K : Bytes → Prop) (e : Engine) : Prop where
  memtable : ∀ k entry, e.memtable.getEntry k = some entry → K k
  queue : ∀ p ∈ e.compactor.queue, PageIn K p
  levels : ∀ p ∈ e.compactor.compaction.allPages, PageIn K p

variable {K : Bytes → Prop} {e : Engine}

omit [Codec] in
theorem pageIn_mergePages {pages : List Page} (h : ∀ p ∈ pages, PageIn K p) (drop : Bool) :
    PageIn K (mergePages pages drop) := by
  refine ⟨mergePages_sorted pages drop, fun r hr => ?_⟩
  obtain ⟨hget, _⟩ := mem_mergePages.mp hr
  rw [getElem?_latest] at hget
  obtain ⟨p, hp, hlook⟩ := List.exists_of_findSome?_eq_some hget
  exact (h p hp).2 r (Page.mem_of_lookup hlook)

theorem pageIn_addL0Page {cm : CompactionManager} {page : Page} (hpage : PageIn K page)
    (hcm : ∀ p ∈ cm.allPages, PageIn K p) : ∀ p ∈ (cm.addL0Page page).allPages, PageIn K p := by
  have hl0 : ∀ p ∈ cm.l0 ++ [page], PageIn K p := by
    intro p hp
    rcases List.mem_append.mp hp with hp | hp
    · exact hcm p (by simp [CompactionManager.allPages, hp])
    · rw [List.mem_singleton.mp hp]
      exact hpage
  have hl1 : ∀ p ∈ cm.l1, PageIn K p := fun p hp =>
    hcm p (by simp [CompactionManager.allPages, hp])
  have hl2 : ∀ p ∈ cm.l2, PageIn K p := fun p hp =>
    hcm p (by simp [CompactionManager.allPages, hp])
  set merged := mergePages ((cm.l0 ++ [page]) ++ cm.l1) false with hmerged
  have hmergedIn : PageIn K merged := pageIn_mergePages (fun p hp => by
    rcases List.mem_append.mp hp with hp | hp
    · exact hl0 p hp
    · exact hl1 p hp) false
  intro p hp
  rw [CompactionManager.addL0Page] at hp
  by_cases hfull : l0Limit ≤ (cm.l0 ++ [page]).length
  · simp only [if_pos hfull, CompactionManager.compactL0ToL1, ← hmerged] at hp
    by_cases hsize : l1SizeLimit < merged.serialize.length
    · -- everything is in one page of L2
      rw [if_pos hsize] at hp
      obtain rfl : p = mergePages ([merged] ++ cm.l2) true := by
        simpa [CompactionManager.compactL1ToL2, CompactionManager.allPages] using hp
      refine pageIn_mergePages (fun q hq => ?_) true
      rcases List.mem_append.mp hq with hq | hq
      · rw [List.mem_singleton.mp hq]
        exact hmergedIn
      · exact hl2 q hq
    · rw [if_neg hsize] at hp
      rcases (by simpa [CompactionManager.allPages] using hp : p = merged ∨ p ∈ cm.l2) with rfl | hp
      · exact hmergedIn
      · exact hl2 p hp
  · simp only [if_neg hfull] at hp
    rcases (by simpa [CompactionManager.allPages, or_assoc] using hp :
      p ∈ cm.l0 ∨ p = page ∨ p ∈ cm.l1 ∨ p ∈ cm.l2) with hp | rfl | hp | hp
    · exact hl0 p (by simp [hp])
    · exact hpage
    · exact hl1 p hp
    · exact hl2 p hp

omit [Codec] in
/-- The page of the memtable, as the flush submits it. -/
theorem pageIn_toPage {m : Memtable} (h : ∀ k entry, m.getEntry k = some entry → K k) :
    PageIn K m.toPage.1 := by
  refine ⟨m.toPage_sorted, fun r hr => ?_⟩
  obtain ⟨entry, hentry⟩ := Memtable.key_mem_toPage hr
  exact h r.key entry hentry

theorem tracked_coreInv : CoreInv (fun k _ => K k) (Tracked K) where
  put he _ _ := ⟨he.memtable, he.queue, he.levels⟩
  delete he _ := ⟨he.memtable, he.queue, he.levels⟩
  write {e key value} he hkey := by
    refine ⟨fun k entry hk => ?_, he.queue, he.levels⟩
    have hk' : (e.memtable.write key value).getEntry k = some entry := hk
    rw [Memtable.getEntry_write] at hk'
    by_cases heq : key = k
    · exact heq ▸ hkey
    · rw [if_neg heq] at hk'
      exact he.memtable k entry hk'
  flushed {e} he := by
    refine ⟨fun k entry hk => absurd hk (by simp [Engine.flushed]), fun p hp => ?_, he.levels⟩
    rcases List.mem_append.mp hp with hp | hp
    · exact he.queue p hp
    · rw [List.mem_singleton.mp hp]
      exact pageIn_toPage he.memtable
  dropped he _ := ⟨fun k entry hk => absurd hk (by simp), he.queue, he.levels⟩
  other _ _ _ _ _ he := ⟨he.memtable, he.queue, he.levels⟩
  wal _ he := ⟨he.memtable, he.queue, he.levels⟩
  snapshots _ _ _ he := ⟨he.memtable, he.queue, he.levels⟩
  work {e} he := by
    rw [Engine.work, BackgroundCompactor.receive]
    cases hq : e.compactor.queue with
    | nil => exact ⟨he.memtable, he.queue, he.levels⟩
    | cons page queue =>
      have hpage : PageIn K page := he.queue page (by simp [hq])
      exact ⟨he.memtable, fun p hp => he.queue p (by simp [hq, hp]),
        pageIn_addL0Page hpage he.levels⟩

/-! ### The log -/

omit [Codec] in
/-- The memory part of a write leaves the log alone. -/
theorem wal_memInv (w : WalWriter) : MemInv (fun _ _ => True) fun e : Engine => e.wal = w where
  write he _ := he
  put he _ _ := he
  delete he _ := he
  flushed he := he
  dropped he _ := he
  other _ _ _ _ _ he := he

/-- The log of `e'` is the one of `e` and the records `rs`; nothing waits in the
buffer if nothing did before. -/
def Logged (rs : List WalRecord) (e e' : Engine) : Prop :=
  e'.wal.content = e.wal.content ++ Wal.encode rs ∧ (e.wal.buffer = [] → e'.wal.buffer = [])

variable {e e' : Engine}

theorem logged_nil (h : e'.wal = e.wal) : Logged [] e e' := by
  rw [Logged, h, Wal.encode_nil, List.append_nil]
  exact ⟨rfl, id⟩

/-- As `Logged`, with everything in the file. -/
def Synced (rs : List WalRecord) (e e' : Engine) : Prop :=
  e'.wal.file = e.wal.content ++ Wal.encode rs ∧ e'.wal.buffer = []

theorem Synced.logged {rs : List WalRecord} (h : Synced rs e e') : Logged rs e e' := by
  obtain ⟨hfile, hbuf⟩ := h
  refine ⟨?_, fun _ => hbuf⟩
  rw [WalWriter.content, hfile, hbuf, List.append_nil]

/-- A program that appends and flushes, and then leaves the log alone. -/
theorem synced_of_append {r : WalRecord} {rest : EngineM Unit} {u : Unit}
    (hrest : ∀ w, Keeps (fun e : Engine => e.wal = w) rest)
    (h : (do onWal (WalWriter.append r); onWal WalWriter.flush; rest : EngineM Unit) e
      = .ok u e') : Synced [r] e e' := by
  rw [bind_eq_ok] at h
  obtain ⟨_, e₁, happend, h⟩ := h
  rw [bind_eq_ok] at h
  obtain ⟨_, e₂, hflush, h⟩ := h
  obtain ⟨w₁, hw₁, rfl⟩ := onPart_eq_ok.mp happend
  obtain ⟨w₂, hw₂, rfl⟩ := onPart_eq_ok.mp hflush
  have hfinal : e'.wal = w₂ := (hrest w₂).of_ok h rfl
  obtain ⟨hfile, hbuf⟩ := WalWriter.flush_eq_ok hw₂
  refine ⟨?_, by rw [hfinal, hbuf]⟩
  rw [hfinal, hfile]
  show w₁.content = _
  rw [WalWriter.append_eq_ok hw₁, Wal.encode_cons, Wal.encode_nil, List.append_nil]

theorem synced_of_appendAll {α : Type} {rs : List WalRecord} {rest : EngineM α} {a : α}
    (hrest : ∀ w, Keeps (fun e : Engine => e.wal = w) rest)
    (h : (do appendAll rs; rest : EngineM α) e = .ok a e') : Synced rs e e' := by
  rw [bind_eq_ok] at h
  obtain ⟨_, e₂, happend, h⟩ := h
  rw [appendAll, bind_eq_ok] at happend
  obtain ⟨_, e₁, happend, hflush⟩ := happend
  obtain ⟨w₁, hw₁, rfl⟩ := onPart_eq_ok.mp happend
  obtain ⟨w₂, hw₂, rfl⟩ := onPart_eq_ok.mp hflush
  have hfinal : e'.wal = w₂ := (hrest w₂).of_ok h rfl
  obtain ⟨hfile, hbuf⟩ := WalWriter.flush_eq_ok hw₂
  refine ⟨?_, by rw [hfinal, hbuf]⟩
  rw [hfinal, hfile]
  show w₁.content = _
  rw [WalWriter.forM_append_eq_ok hw₁]

/-- **A successful write has its records in the file.** -/
theorem exec_synced {c : Call} (hc : c.records ≠ []) {u : Unit} (h : exec c e = .ok u e') :
    Synced c.records e e' := by
  cases c with
  | put key value => exact synced_of_append (fun w => (wal_memInv w).afterLog trivial) h
  | putProfiled key value =>
    exact synced_of_append (fun w => (wal_memInv w).afterLogProfiled trivial) h
  | delete key => exact synced_of_append (fun w => (wal_memInv w).afterLogDelete trivial) h
  | putBatch entries =>
    exact synced_of_appendAll (fun w => (wal_memInv w).afterLogBatch fun _ _ => trivial) h
  | bulkIngest entries =>
    obtain ⟨n, e₁, hrun, h⟩ := bind_eq_ok.mp h
    obtain ⟨_, rfl⟩ := pure_eq_ok.mp h
    have hne : entries ≠ [] := by
      rintro rfl
      exact hc rfl
    rw [bulkIngest, if_neg hne] at hrun
    exact synced_of_appendAll (fun w => (wal_memInv w).afterLogIngest fun _ _ => trivial) hrun
  | _ => exact absurd rfl hc

/-- A program that leaves the log alone logs nothing. -/
theorem logged_of_keeps {x : EngineM Unit} {u : Unit}
    (hx : ∀ w, Keeps (fun e : Engine => e.wal = w) x) (h : x e = .ok u e') : Logged [] e e' :=
  logged_nil ((hx e.wal).of_ok h rfl)

/-- **A successful call appends exactly its records to the log.** -/
theorem exec_wal {c : Call} (hc : c.isMerge = false) {u : Unit} (h : exec c e = .ok u e') :
    Logged c.records e e' := by
  by_cases hrecords : c.records = []
  case neg => exact (exec_synced hrecords h).logged
  rw [hrecords]
  by_cases hs : c.onSnapshots = true
  · obtain ⟨state, snapshots, n, heq⟩ := exec_onSnapshots hs e
    rw [h] at heq
    have hwal : (finalState (.ok u e' : EStateM.Result Failure Engine Unit)).wal = e.wal := by
      rw [heq]
    exact logged_nil hwal
  cases c with
  | putBatch entries =>
    -- an empty batch still flushes the log
    have hnil : batchRecords entries = [] := hrecords
    rw [← hnil]
    exact (synced_of_appendAll (fun w => (wal_memInv w).afterLogBatch fun _ _ => trivial) h).logged
  | bulkIngest entries =>
    have hnil : entries = [] := List.map_eq_nil_iff.mp hrecords
    subst hnil
    obtain ⟨n, e₁, hrun, h⟩ := bind_eq_ok.mp h
    obtain ⟨_, rfl⟩ := pure_eq_ok.mp h
    rw [bulkIngest, if_pos rfl] at hrun
    obtain ⟨_, rfl⟩ := pure_eq_ok.mp hrun
    exact logged_nil rfl
  | flush => exact logged_of_keeps (fun w => (wal_memInv w).flush) h
  | sync =>
    simp only [exec, sync, onWal] at h
    obtain ⟨w, hw, rfl⟩ := onPart_eq_ok.mp h
    obtain ⟨hfile, hbuf⟩ := WalWriter.flush_eq_ok hw
    have hsynced : Synced [] e { e with wal := w } := by
      refine ⟨?_, hbuf⟩
      rw [Wal.encode_nil, List.append_nil]
      exact hfile
    exact hsynced.logged
  | get key =>
    simp only [exec] at h
    obtain ⟨cache, heq⟩ := get_frame e key
    rw [modify_eq_ok.mp h, heq]
    exact logged_nil rfl
  | scan start stop =>
    have hstate := exec_scan start stop e
    rw [h] at hstate
    exact logged_nil (congrArg Engine.wal hstate)
  | work =>
    simp only [exec] at h
    rw [modify_eq_ok.mp h]
    exact logged_nil rfl
  | branchMerge branch => exact absurd hc (by simp [Call.isMerge])
  | put key value => exact absurd hrecords (by simp [Call.records])
  | putProfiled key value => exact absurd hrecords (by simp [Call.records])
  | delete key => exact absurd hrecords (by simp [Call.records])
  | _ => exact absurd rfl hs

/-! ### Runs -/

/-- A run of calls that all succeed. -/
def run (e : Engine) (cs : List Call) : Option Engine :=
  cs.foldlM (fun e c => success (exec c e)) e

theorem run_cons (c : Call) (cs : List Call) :
    run e (c :: cs) = (success (exec c e)).bind fun e₁ => run e₁ cs := rfl

/-- The engine after calls that succeed or fail. -/
def after (e : Engine) (cs : List Call) : Engine :=
  cs.foldl (fun e c => finalState (exec c e)) e

theorem after_of_run {cs : List Call} (h : run e cs = some e') : e.after cs = e' := by
  induction cs generalizing e with
  | nil => exact Option.some_inj.mp h
  | cons c cs ih =>
    rw [run_cons, Option.bind_eq_some_iff] at h
    obtain ⟨e₁, hc, hrun⟩ := h
    obtain ⟨_, hexec⟩ := success_eq_some hc
    rw [← ih hrun, after, List.foldl_cons, hexec]
    rfl

/-- **Every run keeps an invariant of the memory part.** -/
theorem after_keeps {K : Bytes → Option Bytes → Prop} {I : Engine → Prop} (hI : CoreInv K I)
    {cs : List Call} (h : ∀ c ∈ cs, ∀ k v, c.writes k v → K k v) (he : I e) :
    I (e.after cs) := by
  induction cs generalizing e with
  | nil => exact he
  | cons c cs ih =>
    exact ih (fun c' hc' => h c' (by simp [hc'])) (exec_keeps hI c (h c (by simp)) e he)

theorem Drained.after (he : e.Drained) (cs : List Call) : (e.after cs).Drained :=
  after_keeps drained_coreInv (fun _ _ _ _ _ => trivial) he

/-- The records of a run. -/
def runRecords (cs : List Call) : List WalRecord := cs.flatMap Call.records

/-- **A run without merges appends exactly its records to the log.** -/
theorem run_wal {cs : List Call} (hcs : ∀ c ∈ cs, c.isMerge = false)
    (h : run e cs = some e') : Logged (runRecords cs) e e' := by
  induction cs generalizing e with
  | nil =>
    obtain rfl : e = e' := by simpa [run] using h
    exact logged_nil rfl
  | cons c cs ih =>
    rw [run_cons, Option.bind_eq_some_iff] at h
    obtain ⟨e₁, hc, hrun⟩ := h
    obtain ⟨_, hexec⟩ := success_eq_some hc
    obtain ⟨hcontent₁, hbuf₁⟩ := exec_wal (hcs c (by simp)) hexec
    obtain ⟨hcontent, hbuf⟩ := ih (fun c' hc' => hcs c' (by simp [hc'])) hrun
    refine ⟨?_, fun hb => hbuf (hbuf₁ hb)⟩
    have hrecords : runRecords (c :: cs) = c.records ++ runRecords cs := List.flatMap_cons
    rw [hcontent, hcontent₁, hrecords, Wal.encode_append, List.append_assoc]

end Engine

end Uldb
