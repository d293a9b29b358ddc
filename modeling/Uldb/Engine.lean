/-
The storage engine (`engine.rs`, `storage/bg_compaction.rs`).

A write goes to the log, the memtable, the indices and the trie of the live
state; a memtable that reaches the threshold is drained into a page, which waits
in the channel of the background worker until the worker adds it to L0 and saves
all pages.  A read asks the memtable, the frozen memtables, the cache and the
levels, in this order.

Calls are programs in `EngineM`: they change the engine, and can fail half-way
with an error or a panic, keeping what they have changed.
-/
import Uldb.HamtMap
import Uldb.PageStore
import Uldb.WalWriter
import Uldb.Memtable
import Uldb.Cache

namespace Uldb

open Fallible

/-- The background compaction service. -/
structure BackgroundCompactor where
  /-- The submitted pages the worker has not received yet. -/
  queue : List Page
  compaction : CompactionManager
  /-- The pages directory the worker saves to. -/
  dir : Dir
  /-- The worker still receives. -/
  alive : Bool

/-- The worker receives one page: it goes to L0, and all pages are saved. -/
def BackgroundCompactor.receive [Codec] (c : BackgroundCompactor) : BackgroundCompactor :=
  match c.queue with
  | [] => c
  | page :: queue =>
    { c with
      queue := queue
      compaction := c.compaction.addL0Page page
      dir := PageStore.saveAll c.dir (c.compaction.addL0Page page) }

structure Engine where
  wal : WalWriter
  memtable : Memtable
  frozen : List Memtable
  flushThreshold : ℕ
  compactor : BackgroundCompactor
  indices : IndexManager
  state : Hamt
  snapshots : Std.TreeMap String Hamt
  snapshotCounter : ℕ
  flushCount : ℕ
  totalPuts : ℕ
  totalGets : ℕ
  totalDeletes : ℕ
  cache : LruCache

/-- A call on the engine. -/
abbrev EngineM := EStateM Failure Engine

namespace Engine

/-! ### Opening -/

/-- One record of the log, on recovery.  An empty value is a delete marker. -/
def replayRecord (m : Memtable × IndexManager) (r : WalRecord) : Memtable × IndexManager :=
  if r.value = [] then ((m.1.delete r.key).1, m.2)
  else ((m.1.put r.key r.value).1, m.2.onReplay r.key r.value)

/-- The live entries of a memtable, in key order. -/
def liveEntries (m : Memtable) : List (Bytes × Bytes) :=
  m.entries.toList.filterMap fun ke => ke.2.value.map fun v => (ke.1, v)

/-- Rebuild the trie; none where the trie's recursion does not end. -/
def rebuildState (m : Memtable) : Option Hamt :=
  (liveEntries m).foldlM (fun state kv => state.put kv.1 kv.2) Hamt.new

/-- The memtable and the indices after the replay of a log. -/
def replayLog [Codec] (flushThreshold : ℕ) (log : Bytes) : Memtable × IndexManager :=
  (Wal.replay log).1.foldl replayRecord (Memtable.new flushThreshold, IndexManager.new)

/-- Open a database on a pages directory and a log, if there is one.  The log is
kept and appended to.  The submission of a replayed page cannot fail: the worker
has just been started. -/
def «open» [Codec] (flushThreshold : ℕ) (dir : Dir) (log : Option Bytes)
    (outcomes : List (Option WriteFault)) : Except Failure Engine := do
  let compaction ← PageStore.loadAll dir
  let (memtable, indices) := replayLog flushThreshold (log.getD [])
  let (memtable, queue) :=
    if log.isSome ∧ memtable.shouldFlush then (memtable.toPage.2, [memtable.toPage.1])
    else (memtable, [])
  match rebuildState memtable with
  | none => .error .panic
  | some state => .ok {
      wal := WalWriter.open (log.getD []) outcomes
      memtable := memtable
      frozen := []
      flushThreshold := flushThreshold
      compactor := ⟨queue, compaction, dir, true⟩
      indices := indices
      state := state
      snapshots := ∅
      snapshotCounter := 0
      flushCount := 0
      totalPuts := 0
      totalGets := 0
      totalDeletes := 0
      cache := LruCache.new 1024 }

/-! ### Flushing -/

/-- Submit a page to the worker. -/
def submit (page : Page) : EngineM Unit := fun e =>
  if e.compactor.alive then
    .ok () { e with compactor := { e.compactor with queue := e.compactor.queue ++ [page] } }
  else .error (.error "failed to submit page to compactor: sending on a closed channel") e

/-- Swap in an empty memtable and submit the page of the old one.  What is kept
as the frozen memtable has been drained into the page. -/
def flushMemtable : EngineM Unit := do
  let e ← EStateM.get
  modify fun e => { e with memtable := Memtable.new e.flushThreshold }
  submit e.memtable.toPage.1
  modify fun e' =>
    let frozen := e'.frozen ++ [e.memtable.toPage.2]
    { e' with frozen := frozen.drop (frozen.length - 2), flushCount := e'.flushCount + 1 }

def flush : EngineM Unit := do
  let e ← EStateM.get
  ifThen (e.memtable.isEmpty = false) flushMemtable

/-! ### Writing -/

/-- Run a program on the log writer. -/
def onWal {α : Type} (x : EStateM Failure WalWriter α) : EngineM α :=
  onPart (·.wal) (fun w e => { e with wal := w }) x

def memtablePut (key value : Bytes) : EngineM Bool := fun e =>
  .ok (e.memtable.put key value).2 { e with memtable := (e.memtable.put key value).1 }

def memtableDelete (key : Bytes) : EngineM Bool := fun e =>
  .ok (e.memtable.delete key).2 { e with memtable := (e.memtable.delete key).1 }

/-- Update the trie of the live state. -/
def statePut (key value : Bytes) : EngineM Unit := fun e =>
  match e.state.put key value with
  | some state => .ok () { e with state := state }
  | none => .error .panic e

/-- Invalidate a key in the cache, unless it is empty. -/
def invalidate (key : Bytes) : EngineM Unit := modify fun e =>
  { e with cache := if e.cache.isEmpty then e.cache else e.cache.invalidate key }

def indexPut (key value : Bytes) : EngineM Unit :=
  modify fun e => { e with indices := e.indices.onPut key value }

def countPut : EngineM Unit := modify fun e => { e with totalPuts := e.totalPuts + 1 }

section

variable [Codec]

/-- Write one key-value pair. -/
def put (key value : Bytes) : EngineM Unit := do
  onWal (WalWriter.append ⟨key, value⟩)
  onWal WalWriter.flush
  let shouldFlush ← memtablePut key value
  countPut
  invalidate key
  indexPut key value
  statePut key value
  ifThen (shouldFlush = true) flushMemtable

/-- `put_profiled`: as `put`, without the cache invalidation. -/
def putProfiled (key value : Bytes) : EngineM Unit := do
  onWal (WalWriter.append ⟨key, value⟩)
  onWal WalWriter.flush
  let shouldFlush ← memtablePut key value
  countPut
  indexPut key value
  statePut key value
  ifThen (shouldFlush = true) flushMemtable

/-- Append records to the log and flush it once. -/
def appendAll (rs : List WalRecord) : EngineM Unit := do
  onWal (forM rs WalWriter.append)
  onWal WalWriter.flush

def clearCache : EngineM Unit := modify fun e => { e with cache := e.cache.clear }

/-- The entries of a batch as log records. -/
def batchRecords (entries : List (Bytes × Bytes)) : List WalRecord :=
  entries.map fun kv => ⟨kv.1, kv.2⟩

/-- The in-memory part of a batch; tells whether any entry reached the threshold. -/
def applyEntries : List (Bytes × Bytes) → EngineM Bool
  | [] => pure false
  | (key, value) :: entries => do
    let full ← memtablePut key value
    countPut
    indexPut key value
    statePut key value
    let rest ← applyEntries entries
    pure (full || rest)

/-- Write several pairs with a single flush of the log. -/
def putBatch (entries : List (Bytes × Bytes)) : EngineM Unit := do
  appendAll (batchRecords entries)
  clearCache
  let shouldFlush ← applyEntries entries
  ifThen (shouldFlush = true) flushMemtable

/-- As `putBatch`, with the flush decided once at the end. -/
def bulkIngest (entries : List (Bytes × Bytes)) : EngineM ℕ :=
  if entries = [] then pure 0
  else do
    appendAll (batchRecords entries)
    clearCache
    let _ ← applyEntries entries
    let e ← EStateM.get
    ifThen (e.memtable.shouldFlush = true) flushMemtable
    pure entries.length

/-- Delete one key by writing a tombstone. -/
def delete (key : Bytes) : EngineM Unit := do
  onWal (WalWriter.append ⟨key, []⟩)
  onWal WalWriter.flush
  let shouldFlush ← memtableDelete key
  modify fun e => { e with totalDeletes := e.totalDeletes + 1 }
  invalidate key
  modify fun e => { e with indices := e.indices.onDelete key }
  modify fun e => { e with state := e.state.delete key }
  ifThen (shouldFlush = true) flushMemtable

end

/-- Flush the log to the file. -/
def sync : EngineM Unit := onWal WalWriter.flush

/-! ### Reading -/

/-- Read one key; a hit in the levels is put into the cache. -/
def get (e : Engine) (key : Bytes) : Option Bytes × Engine :=
  let e := { e with totalGets := e.totalGets + 1 }
  match e.memtable.getEntry key with
  | some entry => (entry.value, e)
  | none =>
    match e.frozen.reverse.findSome? fun m => m.getEntry key with
    | some entry => (entry.value, e)
    | none =>
      let (hit, cache) := e.cache.get key
      match hit with
      | some value => (some value, { e with cache := cache })
      | none =>
        match e.compactor.compaction.get key with
        | some value => (some value, { e with cache := cache.insert key value })
        | none => (none, { e with cache := cache })

/-- Overlay the entries of a memtable on a scan result. -/
def overlay (start stop : Bytes) (results : Std.TreeMap Bytes Bytes) (m : Memtable) :
    Except Failure (Std.TreeMap Bytes Bytes) :=
  match m.range start stop with
  | none => .error .panic
  | some entries => .ok <| entries.foldl (fun results ke =>
      match ke.2.value with
      | some value => results.insert ke.1 value
      | none => results.erase ke.1) results

/-- Range scan.  Before the first flush only the memtable is asked. -/
def scan (e : Engine) (start stop : Bytes) : Except Failure (List (Bytes × Bytes)) :=
  if e.frozen = [] ∧ e.flushCount = 0 then
    match e.memtable.range start stop with
    | none => .error .panic
    | some entries => .ok (entries.filterMap fun ke => ke.2.value.map fun v => (ke.1, v))
  else do
    let results := e.compactor.compaction.scan start stop
    let results ← e.frozen.foldlM (overlay start stop) results
    let results ← overlay start stop results e.memtable
    .ok results.toList

/-! ### The worker -/

/-- The background worker takes a step. -/
def work [Codec] (e : Engine) : Engine := { e with compactor := e.compactor.receive }

/-! ### Snapshots and branches -/

/-- The id of an unnamed snapshot: `snap-` and the counter, padded to four digits. -/
def snapshotId (n : ℕ) : String :=
  let digits := Nat.toDigits 10 n
  "snap-" ++ String.ofList (List.replicate (4 - digits.length) '0' ++ digits)

def snapshotCreate (name : String) : EngineM String := fun e =>
  if name = "" then
    let id := snapshotId (e.snapshotCounter + 1)
    .ok id { e with
      snapshotCounter := e.snapshotCounter + 1
      snapshots := e.snapshots.insert id e.state.snapshot }
  else .ok name { e with snapshots := e.snapshots.insert name e.state.snapshot }

def snapshotRestore (name : String) : EngineM Unit := fun e =>
  match e.snapshots[name]? with
  | some snap => .ok () { e with state := snap }
  | none => .error (.error ("snapshot not found: " ++ name)) e

def snapshotDelete (name : String) : EngineM Bool := fun e =>
  .ok (e.snapshots.contains name) { e with snapshots := e.snapshots.erase name }

def snapshotGet (e : Engine) (name : String) (key : Bytes) : Option Bytes :=
  (e.snapshots[name]?).bind fun snap => snap.get key

/-- Create a branch from the live state or from a snapshot. -/
def branchCreate (branch source : String) : EngineM String := fun e =>
  if source = "" then
    .ok branch { e with snapshots := e.snapshots.insert branch e.state.snapshot }
  else match e.snapshots[source]? with
    | some base => .ok branch { e with snapshots := e.snapshots.insert branch base }
    | none => .error (.error ("source snapshot not found: " ++ source)) e

/-- Append a merged entry to the log; the log is not flushed here. -/
def mergeAppend [Codec] (key value : Bytes) : EngineM Unit :=
  mapError (Failure.prepend "WAL write failed during merge: ")
    (onWal (WalWriter.append ⟨key, value⟩))

/-- One entry of a merge. -/
def mergeEntry [Codec] (kv : Bytes × Bytes) : EngineM Unit := do
  statePut kv.1 kv.2
  mergeAppend kv.1 kv.2
  let _ ← memtablePut kv.1 kv.2
  indexPut kv.1 kv.2

/-- Write all pairs of a branch to the live state, and remove the branch. -/
def branchMerge [Codec] (branch : String) : EngineM ℕ := do
  let e ← EStateM.get
  match e.snapshots[branch]? with
  | none => throw (.error ("branch not found: " ++ branch))
  | some base =>
    forM base.iter mergeEntry
    modify fun e => { e with snapshots := e.snapshots.erase branch }
    pure base.iter.length

def branchRollback (branch : String) : EngineM Bool := snapshotDelete branch

/-- The keys on which a branch and the live state differ: those of the branch
first, then the live ones that the branch does not have. -/
def branchDiff (e : Engine) (branch : String) :
    Except Failure (List (Bytes × Option Bytes × Option Bytes)) :=
  match e.snapshots[branch]? with
  | none => .error (.error ("branch not found: " ++ branch))
  | some base => .ok <|
      (base.iter.filterMap fun kv =>
        if e.state.get kv.1 = some kv.2 then none else some (kv.1, e.state.get kv.1, some kv.2)) ++
      (e.state.iter.filterMap fun kv =>
        if (base.get kv.1).isNone then some (kv.1, some kv.2, none) else none)

/-! ### Agents

An agent (`python.rs`) is a branch of its own name; these are the calls of an
agent that is not finished. -/

/-- Change the branch of an agent. -/
def onBranch (name : String) (f : Hamt → Option Hamt) : EngineM Unit := fun e =>
  match e.snapshots[name]? with
  | none => .error (.error "agent branch not found") e
  | some branch =>
    match f branch with
    | none => .error .panic e
    | some updated => .ok () { e with snapshots := e.snapshots.insert name updated }

def agentPut (name : String) (path content : Bytes) : EngineM Unit :=
  onBranch name fun branch => branch.put path content

def agentDelete (name : String) (path : Bytes) : EngineM Unit :=
  onBranch name fun branch => some (branch.delete path)

def agentLoad (name : String) (records : List (Bytes × Bytes)) : EngineM Unit :=
  onBranch name fun branch => records.foldlM (fun branch kv => branch.put kv.1 kv.2) branch

/-- Read a document: from the branch first, then from the live engine. -/
def agentGet (e : Engine) (name : String) (path : Bytes) : Option Bytes × Engine :=
  match e.snapshotGet name path with
  | some value => (some value, e)
  | none => e.get path

end Engine

end Uldb
