/-
The server as a map.

To its clients the server is a map from keys to values, over a log that has some faults to come.
`Serves` tells how the map answers a request and what is written.  A write fails exactly if the
log meets its next fault there, and then nothing is written; by a range delete that fails, the
deletes of the first keys of its range are.  The delete of a namespace drops its errors, and
leaves one key for each fault.  The engine holds more than the map: the trie gets the same writes.

* `Holds.handle` — a handler answers as the map that the engine holds, and the engine then has
  what is written;
* `served_like_map` — so does a server on an empty directory, until the fourth flush, and it
  answers all requests whose bounds are in order, while no two keys have the same hash.
-/
import Uldb.Answers
import Uldb.LiveTrie

namespace Uldb

open Fallible UmpHandler

/-! ### The map -/

/-- The writes of deletes. -/
def deletes (keys : List Bytes) : List (Bytes × Option Bytes) := keys.map fun key => (key, none)

namespace Kv

/-- Set or remove a key. -/
def write (kv : Kv) (w : Bytes × Option Bytes) : Kv :=
  match w.2 with
  | some value => kv.insert w.1 value
  | none => kv.erase w.1

def writeAll (kv : Kv) (ws : List (Bytes × Option Bytes)) : Kv := ws.foldl write kv

/-- Remove keys. -/
def eraseAll (kv : Kv) (keys : List Bytes) : Kv := kv.writeAll (deletes keys)

theorem getElem?_write (kv : Kv) (w : Bytes × Option Bytes) (k : Bytes) :
    (kv.write w)[k]? = if w.1 = k then w.2 else kv[k]? := by
  obtain ⟨key, value⟩ := w
  have hcmp : compare key k = .eq ↔ key = k := Std.LawfulEqCmp.compare_eq_iff_eq
  cases value with
  | some value =>
    show (kv.insert key value)[k]? = _
    rw [Std.TreeMap.getElem?_insert]
    simp only [hcmp]
  | none =>
    show (kv.erase key)[k]? = _
    rw [Std.TreeMap.getElem?_erase]
    simp only [hcmp]

theorem getElem?_writeAll (kv : Kv) (ws : List (Bytes × Option Bytes)) (k : Bytes) :
    (kv.writeAll ws)[k]? = (lastWrite ws k).getD kv[k]? := by
  induction ws generalizing kv with
  | nil => rfl
  | cons w ws ih =>
    have hstep : (kv.writeAll (w :: ws))[k]? = (lastWrite ws k).getD (kv.write w)[k]? :=
      ih (kv.write w)
    rw [hstep, getElem?_write, ← List.singleton_append, lastWrite_append, lastWrite_singleton]
    by_cases hk : w.1 = k
    · rw [if_pos hk, if_pos hk]
      cases lastWrite ws k <;> rfl
    · rw [if_neg hk, if_neg hk]
      cases lastWrite ws k <;> rfl

theorem getElem?_eraseAll (kv : Kv) (keys : List Bytes) (k : Bytes) :
    (kv.eraseAll keys)[k]? = if k ∈ keys then none else kv[k]? := by
  have hdeletes : deletes keys = (keys.map TxOp.delete).map TxOp.write := by
    rw [List.map_map]
    rfl
  rw [eraseAll, getElem?_writeAll, hdeletes, Engine.lastWrite_deletes]
  by_cases hk : k ∈ keys
  · rw [if_pos hk, if_pos hk]
    rfl
  · rw [if_neg hk, if_neg hk]
    rfl

theorem mem_scan {kv : Kv} {start stop k v : Bytes} :
    (k, v) ∈ kv.scan start stop ↔ InRange start stop k ∧ kv[k]? = some v := by
  rw [scan, List.mem_filter, Std.TreeMap.mem_toList_iff_getElem?_eq_some, decide_eq_true_eq,
    and_comm]

theorem ascending_scan (kv : Kv) (start stop : Bytes) : Ascending (kv.scan start stop) :=
  Std.TreeMap.ordered_keys_toList.filter _

end Kv

namespace Request

/-- The writes of a request that is one call of the engine, its response, and the text in front
of an error. -/
def update : Request → Option (List (Bytes × Option Bytes) × Response × String)
  | put key value =>
    some ([(scopeKey 0 key.1, some value)], resultEndResponse 1 0, "put failed: ")
  | delete key => some ([(scopeKey 0 key.1, none)], resultEndResponse 1 0, "delete failed: ")
  | putBatch records =>
    some ((scopedRecords records).map fun record => (record.1, some record.2),
      resultEndResponse records.length 0, "batch put failed: ")
  | compact => some ([], resultEndResponse 0 0, "compact failed: ")
  | nsCreate repoUrl commitSha description =>
    some ([(nsKey repoUrl, some (nsValue commitSha description))], resultEndResponse 1 0,
      "ns create failed: ")
  | _ => none

/-- The response to a request that only reads. -/
def view (kv : Kv) : Request → Option Response
  | get key => some (getResponse key kv[scopeKey 0 key.1]?)
  | getBatch keys =>
    some (getBatchResponse keys (keys.map fun key => kv[scopeKey 0 key.1]?.getD []))
  | scan start stop limit =>
    some (scanResponse limit (kv.scan (scopeKey 0 start.1) (scopeKey 0 stop.1)))
  | nsList => some (nsListResponse (kv.scan nsPrefix (nsPrefix ++ [0xFF])))
  | _ => none

end Request

/-- The keys of a range. -/
def Kv.keysIn (kv : Kv) (start stop : Bytes) : List Bytes := (kv.scan start stop).map Prod.fst

/-- How a map answers a request, what is written, and the faults that the log then still has to
meet. -/
inductive Serves (kv : Kv) : List WriteFault → Request → Response →
    List (Bytes × Option Bytes) → List WriteFault → Prop
  | view {faults : List WriteFault} {request : Request} {response : Response}
    (h : request.view kv = some response) : Serves kv faults request response [] faults
  | done {faults : List WriteFault} {request : Request} {ws : List (Bytes × Option Bytes)}
    {response : Response} {failed : String} (h : request.update = some (ws, response, failed)) :
    Serves kv faults request response ws faults
  | failed {request : Request} {ws : List (Bytes × Option Bytes)} {response : Response}
    {failed : String} (h : request.update = some (ws, response, failed)) (fault : WriteFault)
    (rest : List WriteFault) :
    Serves kv (fault :: rest) request (errorResponse 0xFF (failed ++ fault.msg)) [] rest
  | rangeDelete {faults : List WriteFault} {start stop : Str} {keys : List Bytes}
    (hkeys : keys = kv.keysIn (scopeKey 0 start.1) (scopeKey 0 stop.1)) :
    Serves kv faults (.rangeDelete start stop) (resultEndResponse keys.length 0) (deletes keys)
      faults
  | rangeDeleteFailed {start stop : Str} {deleted later : List Bytes} {key : Bytes}
    (hkeys : kv.keysIn (scopeKey 0 start.1) (scopeKey 0 stop.1) = deleted ++ key :: later)
    (fault : WriteFault) (rest : List WriteFault) :
    Serves kv (fault :: rest) (.rangeDelete start stop)
      (errorResponse 0xFF ("range delete failed: " ++ fault.msg)) (deletes deleted) rest
  | nsDelete {namespaceId : UInt64} {keys deleted : List Bytes}
    (hkeys : keys = kv.keysIn (nsScanRange namespaceId).1 (nsScanRange namespaceId).2)
    (hdeleted : deleted.Sublist keys) {met : List WriteFault}
    (hmet : deleted.length + met.length = keys.length) (rest : List WriteFault) :
    Serves kv (met ++ rest) (.nsDelete namespaceId) (resultEndResponse keys.length 0)
      (deletes deleted) rest

/-- Requests one after the other, on a map and the faults to come. -/
abbrev ServesAll : Kv × List WriteFault → List Request → List Response → Kv × List WriteFault →
    Prop :=
  Refinement.Allows fun m request response m' =>
    ∃ ws, Serves m.1 m.2 request response ws m'.2 ∧ m'.1 = m.1.writeAll ws

/-- What the server stores.  Reads see the live records, which its writes have made; snapshots,
branches and transactions are copies of the trie, which a restore replaces. -/
structure Store where
  /-- The faults of the log that are still to come. -/
  faults : List WriteFault
  written : List (Bytes × Option Bytes)
  live : Kv
  trie : Kv
  named : String → Option Kv
  counter : ℕ

namespace Store

def empty (faults : List WriteFault) : Store :=
  ⟨faults, [], (∅ : Std.TreeMap Bytes Bytes), (∅ : Std.TreeMap Bytes Bytes), fun _ => none, 0⟩

def writeAll (s : Store) (ws : List (Bytes × Option Bytes)) : Store :=
  { s with
    written := s.written ++ ws
    live := s.live.writeAll ws
    trie := s.trie.writeAll ws }

@[simp] theorem writeAll_nil (s : Store) : s.writeAll [] = s := by
  rw [writeAll, List.append_nil]
  rfl

theorem writeAll_append (s : Store) (ws ws' : List (Bytes × Option Bytes)) :
    (s.writeAll ws).writeAll ws' = s.writeAll (ws ++ ws') := by
  simp only [writeAll, Kv.writeAll, List.append_assoc, List.foldl_append]

end Store

/-! ### The worker -/

section

variable [Codec] {add : CompactionManager → Page → CompactionManager}

namespace BackgroundCompactor

theorem settle_of_queue {c : BackgroundCompactor} (h : c.queue = []) : c.settle add = c := by
  rw [settle, h, List.foldl_nil, ← h]

/-- A page that is submitted last is processed last. -/
theorem settle_submitted (c : BackgroundCompactor) (page : Page) :
    ({ c with queue := c.queue ++ [page] } : BackgroundCompactor).settle add
      = (c.settle add).hand add page := by
  rw [settle, settle, List.foldl_append, List.foldl_cons, List.foldl_nil]

end BackgroundCompactor

namespace Engine

variable {e e' : Engine} {ws : List (Bytes × Option Bytes)}

theorem settle_of_queue (h : e.compactor.queue = []) : e.settle add = e := by
  rw [settle, BackgroundCompactor.settle_of_queue h]

/-- The worker may as well process what is waiting before the next page is submitted. -/
theorem settle_flushed (e : Engine) :
    (e.settle add).flushed.settle add = e.flushed.settle add := by
  have hqueue : (e.compactor.settle add).queue = [] := queue_settle e
  have hcompactor : (e.settle add).flushed.compactor.settle add
      = e.flushed.compactor.settle add := by
    show ({ e.compactor.settle add with
      queue := (e.compactor.settle add).queue ++ [e.memtable.toPage.1] } :
        BackgroundCompactor).settle add = _
    rw [BackgroundCompactor.settle_submitted, BackgroundCompactor.settle_of_queue hqueue]
    exact (BackgroundCompactor.settle_submitted _ _).symm
  show { e.flushed with compactor := (e.settle add).flushed.compactor.settle add } = _
  rw [hcompactor]
  rfl

theorem Wrote.settle {f : LruCache → LruCache} (h : Wrote ws f e e') :
    Wrote ws f (e.settle add) (e'.settle add) where
  memtable := h.memtable
  frozen := h.frozen
  compactor := by
    show e'.compactor.settle add = e.compactor.settle add
    rw [h.compactor]
  flushThreshold := h.flushThreshold
  flushCount := h.flushCount
  cache := h.cache

end Engine

/-! ### An engine that holds the store -/

/-- The trie has the pairs of the map. -/
def Hamt.Is (h : Hamt) (kv : Kv) : Prop := ∀ k : Bytes, h.get k = kv[k]?

/-- The tries are those of the store, and the indices have seen its writes. -/
structure Copies (s : Store) (e : Engine) : Prop where
  indices : e.indices = s.written.foldl IndexManager.onWrite .new
  trie : e.state.Is s.trie
  named : ∀ name, Option.Rel Hamt.Is e.snapshots[name]? (s.named name)
  counter : e.snapshotCounter = s.counter

/-- When the worker has processed what is waiting, the engine reads the live records, and every
page is that of a flush. -/
structure Holds (add : CompactionManager → Page → CompactionManager) (s : Store) (e : Engine) :
    Prop where
  reads : ∃ pages, Engine.Reads add s.written pages (e.settle add) ∧ pages.length = e.flushCount
  faults : e.faults = s.faults
  live : ∀ k : Bytes, s.live[k]? = reference s.written k
  copies : Copies s e

namespace Copies

open Engine

variable {s : Store} {e e' : Engine} {c : Call}

theorem exec_ok (h : Copies s e) (hc : c.isWrite = true) (hbasic : c.isBasic = true) {u : Unit}
    (hexec : exec c e = .ok u e') : Copies (s.writeAll c.entries) e' := by
  obtain ⟨hsnapshots, hcounter⟩ := snapshots_exec hbasic e
  rw [hexec] at hsnapshots hcounter
  refine ⟨?_, fun k => ?_, fun name => ?_, hcounter.trans h.counter⟩
  · rw [indices_exec_ok hc hbasic hexec, h.indices]
    exact List.foldl_append.symm
  · rw [state_exec_ok hc hbasic hexec, h.trie k]
    exact (Kv.getElem?_writeAll _ _ _).symm
  · rw [show e'.snapshots = e.snapshots from hsnapshots]
    exact h.named name

theorem exec_failed (h : Copies s e) (hc : c.isWrite = true) (hbasic : c.isBasic = true)
    (halive : e.Alive) {msg : String} (hexec : exec c e = .error (.error msg) e')
    (faults : List WriteFault) : Copies { s with faults := faults } e' := by
  obtain ⟨hsnapshots, hcounter⟩ := snapshots_exec hbasic e
  rw [hexec] at hsnapshots hcounter
  obtain ⟨hstate, hindices⟩ := kept_exec_failed hc hbasic halive hexec
  refine ⟨hindices.trans h.indices, ?_, fun name => ?_, hcounter.trans h.counter⟩
  · rw [hstate]
    exact h.trie
  · rw [show e'.snapshots = e.snapshots from hsnapshots]
    exact h.named name

omit [Codec] in
/-- A read changes the cache. -/
theorem get (h : Copies s e) (key : Bytes) : Copies s (e.get key).2 := by
  obtain ⟨cache, heq⟩ := get_frame e key
  rw [heq]
  exact ⟨h.indices, h.trie, h.named, h.counter⟩

end Copies

namespace Holds

open Engine

variable {s : Store} {e e' : Engine}

theorem settle (h : Holds add s e) : Holds add s (e.settle add) := by
  obtain ⟨⟨pages, hreads, hcount⟩, hfaults, hlive, hcopies⟩ := h
  refine ⟨⟨pages, ?_, hcount⟩, hfaults, hlive, hcopies.indices, hcopies.trie, hcopies.named,
    hcopies.counter⟩
  rw [settle_of_queue (queue_settle e)]
  exact hreads

theorem alive (h : Holds add s e) : e.Alive := by
  obtain ⟨pages, hreads, -⟩ := h.reads
  have halive := hreads.alive
  rwa [Alive, alive_settle] at halive

/-- **A write** that succeeds. -/
theorem exec_ok (h : Holds add s e) {c : Call} (hc : c.isWrite = true) (hbasic : c.isBasic = true)
    {u : Unit} (hexec : exec c e = .ok u e') : Holds add (s.writeAll c.entries) e' := by
  have hcopies := h.copies.exec_ok hc hbasic hexec
  have hfaults : e'.faults = (s.writeAll c.entries).faults :=
    (faults_exec_ok hc h.alive hexec).trans h.faults
  obtain ⟨pages, hreads, hcount⟩ := h.reads
  obtain ⟨e₁, hwrote, hflush⟩ := exec_wrote hc hexec
  have hreads₁ := hreads.wrote hwrote.settle fun k v hv =>
    Call.lookup_onCache (Call.not_profiled hbasic) hv
  have hlive : ∀ k : Bytes,
      (s.live.writeAll c.entries)[k]? = reference (s.written ++ c.entries) k := by
    intro k
    rw [Kv.getElem?_writeAll, h.live k, reference, reference, lastWrite_append]
    cases lastWrite c.entries k <;> rfl
  rcases hflush with rfl | ⟨_, rfl⟩
  · exact ⟨⟨pages, hreads₁, hcount.trans hwrote.flushCount.symm⟩, hfaults, hlive, hcopies⟩
  · have hreads₂ := hreads₁.flushed
    rw [settle_flushed] at hreads₂
    refine ⟨⟨_, hreads₂, ?_⟩, hfaults, hlive, hcopies⟩
    show _ = e₁.flushCount + 1
    rw [List.length_append, List.length_singleton, hcount, hwrote.flushCount]

/-- A write that fails with an error has met the first fault. -/
theorem exec_failed (h : Holds add s e) {c : Call} (hc : c.isWrite = true)
    (hbasic : c.isBasic = true) {msg : String} (hexec : exec c e = .error (.error msg) e') :
    ∃ fault rest, msg = fault.msg ∧ s.faults = fault :: rest ∧
      Holds add { s with faults := rest } e' := by
  obtain ⟨fault, hmsg, hfirst⟩ := faults_exec_failed hc h.alive hexec
  have hwrote := Engine.exec_failed hc h.alive hexec
  have hcopies := h.copies.exec_failed hc hbasic h.alive hexec e'.faults
  obtain ⟨⟨pages, hreads, hcount⟩, hfaults, hlive, -⟩ := h
  have hreads' := hreads.wrote hwrote.settle fun k v hv => ⟨rfl, hv⟩
  rw [List.append_nil] at hreads'
  refine ⟨fault, e'.faults, hmsg, hfaults.symm.trans hfirst, ?_⟩
  exact ⟨⟨pages, hreads', hcount.trans hwrote.flushCount.symm⟩, rfl, hlive, hcopies⟩

/-- **A read**, when nothing is waiting. -/
theorem get (h : Holds add s e) (hadd : Newest add) (hqueue : e.compactor.queue = [])
    (key : Bytes) : (e.get key).1 = s.live[key]? ∧ Holds add s (e.get key).2 ∧
      (e.get key).2.compactor.queue = [] := by
  have hcopies := h.copies.get key
  obtain ⟨⟨pages, hreads, hcount⟩, hfaults, hlive, -⟩ := h
  rw [settle_of_queue hqueue] at hreads
  have hreads' := hreads.get hadd key
  have hframe : (e.get key).2.flushCount = e.flushCount ∧ (e.get key).2.faults = e.faults := by
    obtain ⟨cache, heq⟩ := get_frame e key
    rw [heq]
    exact ⟨rfl, rfl⟩
  refine ⟨(hreads.get_fst hadd key).trans (hlive key).symm,
    ⟨⟨pages, ?_, hcount.trans hframe.1.symm⟩, hframe.2.trans hfaults, hlive, hcopies⟩,
    hreads'.queue⟩
  rw [settle_of_queue hreads'.queue]
  exact hreads'

/-- **A scan** that returns, when nothing is waiting. -/
theorem scan (h : Holds add s e) (hadd : Newest add) (hqueue : e.compactor.queue = [])
    {start stop : Bytes} (hreturns : compare start stop ≠ .gt ∨ e.NothingBuffered) :
    e.scan start stop = .ok (s.live.scan start stop) := by
  by_cases hgt : compare start stop = .gt
  · -- both find nothing between reversed bounds
    have hempty : s.live.scan start stop = [] := by
      rw [List.eq_nil_iff_forall_not_mem]
      rintro ⟨k, v⟩ hmem
      have hlt := (Kv.mem_scan.mp hmem).1.start_lt
      rw [hgt] at hlt
      exact absurd hlt (by simp)
    rw [hempty]
    exact e.scan_of_not_lt (by rw [hgt]; simp) hreturns
  · obtain ⟨pages, hreads, -⟩ := h.reads
    rw [settle_of_queue hqueue] at hreads
    obtain ⟨out, hscan, hasc, hmem⟩ := scan_spec hreads.drained hgt
    have hout : out = s.live.scan start stop := by
      refine AgentStore.eq_of_ascending hasc (Kv.ascending_scan s.live start stop) fun kv => ?_
      obtain ⟨k, v⟩ := kv
      rw [hmem, hreads.scanned hadd, Kv.mem_scan, h.live k]
      by_cases hk : InRange start stop k
      · simp [hk]
      · simp [hk]
    rw [hscan, hout]

/-! ### Writes in a row -/

/-- **Operations up to the first error**, which is that of the first fault, have written the
operations before. -/
theorem forM_ops {ι : Type} {f : ι → EngineM Unit} (op : ι → TxOp) (text : ι → String → String)
    (hok : ∀ i e u e', f i e = .ok u e' → exec (op i).call e = .ok u e')
    (herror : ∀ i e msg e', f i e = .error (.error msg) e' →
      ∃ msg', exec (op i).call e = .error (.error msg') e' ∧ msg = text i msg')
    (h : Holds add s e) (is : List ι) :
    (∀ u e', (forM is f : EngineM Unit) e = .ok u e' →
      Holds add (s.writeAll (is.map fun i => (op i).write)) e') ∧
    ∀ msg e', (forM is f : EngineM Unit) e = .error (.error msg) e' →
      ∃ done i later fault rest, is = done ++ i :: later ∧ s.faults = fault :: rest ∧
        msg = text i fault.msg ∧
        Holds add { s.writeAll (done.map fun i => (op i).write) with faults := rest } e' := by
  have hcall : ∀ i, (op i).call.isWrite = true ∧ (op i).call.isBasic = true ∧
      (op i).call.entries = [(op i).write] := by
    intro i
    cases op i <;> exact ⟨rfl, rfl, rfl⟩
  induction is generalizing s e with
  | nil =>
    refine ⟨fun u e' hrun => ?_, fun msg e' hrun => ?_⟩
    · obtain rfl := forM_nil_eq_ok.mp hrun
      rw [List.map_nil, Store.writeAll_nil]
      exact h
    · exact absurd hrun (by simp [pure, EStateM.pure])
  | cons i is ih =>
    obtain ⟨hwrite, hbasic, hentries⟩ := hcall i
    have hfirst : ∀ {u e₁}, f i e = .ok u e₁ → Holds add (s.writeAll [(op i).write]) e₁ := by
      intro u e₁ hrun
      rw [← hentries]
      exact h.exec_ok hwrite hbasic (hok i e u e₁ hrun)
    have hcons : ∀ is : List ι, (s.writeAll [(op i).write]).writeAll (is.map fun i => (op i).write)
        = s.writeAll ((i :: is).map fun i => (op i).write) := fun is => s.writeAll_append _ _
    refine ⟨fun u e' hrun => ?_, fun msg e' hrun => ?_⟩
    · obtain ⟨e₁, hop, hrest⟩ := forM_cons_eq_ok.mp hrun
      rw [← hcons]
      exact (ih (hfirst hop)).1 u e' hrest
    · rw [List.forM_cons] at hrun
      rcases bind_eq_error.mp hrun with hop | ⟨_, e₁, hop, hrest⟩
      -- the first fault is met here, or later
      · obtain ⟨msg', hexec, rfl⟩ := herror i e msg e' hop
        obtain ⟨fault, rest, rfl, hfaults, h'⟩ := h.exec_failed hwrite hbasic hexec
        refine ⟨[], i, is, fault, rest, rfl, hfaults, rfl, ?_⟩
        rw [List.map_nil, Store.writeAll_nil]
        exact h'
      · obtain ⟨done, j, later, fault, rest, rfl, hfaults, hmsg, h'⟩ :=
          (ih (hfirst hop)).2 msg e' hrest
        rw [hcons] at h'
        exact ⟨i :: done, j, later, fault, rest, rfl, hfaults, hmsg, h'⟩

/-- Deletes up to the first error have removed the keys before. -/
theorem forM_delete (h : Holds add s e) (keys : List Bytes) :
    (∀ u e', (forM keys Engine.delete : EngineM Unit) e = .ok u e' →
      Holds add (s.writeAll (deletes keys)) e') ∧
    ∀ msg e', (forM keys Engine.delete : EngineM Unit) e = .error (.error msg) e' →
      ∃ deleted key later fault rest, keys = deleted ++ key :: later ∧ s.faults = fault :: rest ∧
        msg = fault.msg ∧ Holds add { s.writeAll (deletes deleted) with faults := rest } e' :=
  forM_ops TxOp.delete (fun _ msg => msg) (fun _ _ _ _ hrun => hrun)
    (fun _ _ msg _ hrun => ⟨msg, hrun, rfl⟩) h keys

/-- Deletes whose errors are dropped leave one key for each fault that they meet. -/
theorem forM_deleteIgnored (h : Holds add s e) (keys : List Bytes) {u : Unit}
    (hrun : (forM keys deleteIgnored : EngineM Unit) e = .ok u e') :
    ∃ deleted met rest, deleted.Sublist keys ∧ deleted.length + met.length = keys.length ∧
      s.faults = met ++ rest ∧
      Holds add { s.writeAll (deletes deleted) with faults := rest } e' := by
  induction keys generalizing s e with
  | nil =>
    obtain rfl := forM_nil_eq_ok.mp hrun
    refine ⟨[], [], s.faults, List.Sublist.slnil, rfl, rfl, ?_⟩
    rw [deletes, List.map_nil, Store.writeAll_nil]
    exact h
  | cons key keys ih =>
    obtain ⟨e₁, hdelete, hrest⟩ := forM_cons_eq_ok.mp hrun
    rw [deleteIgnored] at hdelete
    cases hexec : Engine.delete key e with
    | ok u₁ e₂ =>
      rw [hexec, EStateM.Result.ok.injEq] at hdelete
      obtain ⟨-, rfl⟩ := hdelete
      have h₁ : Holds add (s.writeAll (Call.delete key).entries) e₂ := h.exec_ok rfl rfl hexec
      obtain ⟨deleted, met, rest, hsub, hlength, hfaults, h'⟩ := ih h₁ hrest
      rw [Store.writeAll_append] at h'
      refine ⟨key :: deleted, met, rest, hsub.cons_cons key, ?_, hfaults, h'⟩
      rw [List.length_cons, List.length_cons, ← hlength]
      omega
    | error failure e₂ =>
      cases failure with
      | error msg =>
        -- the error is dropped, and the key stays
        rw [hexec, EStateM.Result.ok.injEq] at hdelete
        obtain ⟨-, rfl⟩ := hdelete
        obtain ⟨fault, rest₁, -, hfirst, h₁⟩ := h.exec_failed (c := .delete key) rfl rfl hexec
        obtain ⟨deleted, met, rest, hsub, hlength, hfaults, h'⟩ := ih h₁ hrest
        refine ⟨deleted, fault :: met, rest, hsub.cons key, ?_, ?_, h'⟩
        · rw [List.length_cons, List.length_cons, ← hlength]
          omega
        · rw [hfirst, show rest₁ = met ++ rest from hfaults, List.cons_append]
      | panic =>
        rw [hexec] at hdelete
        exact absurd hdelete (by simp)

/-! ### Reads in a row -/

theorem getAll (h : Holds add s e) (hadd : Newest add) (hqueue : e.compactor.queue = [])
    {keys values : List Bytes} (hrun : UmpHandler.getAll keys e = .ok values e') :
    (values = keys.map fun key => s.live[key]?.getD []) ∧ Holds add s e' := by
  induction keys generalizing e values with
  | nil =>
    obtain ⟨rfl, rfl⟩ := pure_eq_ok.mp hrun
    exact ⟨rfl, h⟩
  | cons key keys ih =>
    obtain ⟨value, e₁, hget, hrun⟩ := bind_eq_ok.mp hrun
    obtain ⟨rest, e₂, hrest, hrun⟩ := bind_eq_ok.mp hrun
    obtain ⟨rfl, rfl⟩ := pure_eq_ok.mp hrun
    rw [getLocked, EStateM.Result.ok.injEq] at hget
    obtain ⟨rfl, rfl⟩ := hget
    obtain ⟨hvalue, h₁, hqueue₁⟩ := h.get hadd hqueue key
    obtain ⟨hvalues, h₂⟩ := ih h₁ hqueue₁ hrest
    rw [hvalue, hvalues]
    exact ⟨rfl, h₂⟩

theorem scanLocked (h : Holds add s e) (hadd : Newest add) (hqueue : e.compactor.queue = [])
    {start stop : Bytes} {results : List (Bytes × Bytes)}
    (hrun : UmpHandler.scanLocked start stop e = .ok results e') :
    results = s.live.scan start stop ∧ e' = e := by
  rw [UmpHandler.scanLocked] at hrun
  by_cases hreturns : compare start stop ≠ .gt ∨ e.NothingBuffered
  · rw [h.scan hadd hqueue hreturns, EStateM.Result.ok.injEq] at hrun
    exact ⟨hrun.1.symm, hrun.2.symm⟩
  · rw [not_or, not_not] at hreturns
    rw [e.scan_reversed hreturns.1 hreturns.2] at hrun
    exact absurd hrun (by simp)

/-! ### Requests -/

/-- What is written, and the faults that are still to come. -/
theorem unchanged (h : Holds add s e) :
    Holds add { s.writeAll [] with faults := s.faults } e := by
  rw [Store.writeAll_nil]
  exact h

/-- A request that is one call of the engine. -/
theorem answered (h : Holds add s e) {request : Request} {c : Call} {response response' : Response}
    {failed : String} (hupdate : request.update = some (c.entries, response, failed))
    (hc : c.isWrite = true) (hbasic : c.isBasic = true)
    (hrun : UmpHandler.answered (exec c) (fun _ => response) failed e = .ok response' e') :
    ∃ ws faults, Serves s.live s.faults request response' ws faults ∧
      Holds add { s.writeAll ws with faults := faults } e' := by
  rcases answered_eq_ok.mp hrun with ⟨u, hexec, rfl⟩ | ⟨msg, hexec, rfl⟩
  · exact ⟨_, _, .done hupdate, h.exec_ok hc hbasic hexec⟩
  · obtain ⟨fault, rest, rfl, hfaults, h'⟩ := h.exec_failed hc hbasic hexec
    refine ⟨[], rest, ?_, ?_⟩
    · rw [hfaults]
      exact .failed hupdate fault rest
    · rw [Store.writeAll_nil]
      exact h'

/-- **One request**: the handler answers as the map does, and the engine then has what is
written. -/
theorem handle (h : Holds add s e) (hadd : Newest add) (hqueue : e.compactor.queue = [])
    {request : Request} {response : Response}
    (hrun : UmpHandler.handle request e = .ok response e') :
    ∃ ws faults, Serves s.live s.faults request response ws faults ∧
      Holds add { s.writeAll ws with faults := faults } e' := by
  cases request with
  | put key value => exact h.answered (c := .put (scopeKey 0 key.1) value) rfl rfl rfl hrun
  | delete key => exact h.answered (c := .delete (scopeKey 0 key.1)) rfl rfl rfl hrun
  | putBatch records => exact h.answered (c := .putBatch (scopedRecords records)) rfl rfl rfl hrun
  | compact => exact h.answered (c := .flush) rfl rfl rfl hrun
  | nsCreate repoUrl commitSha description =>
    exact h.answered (c := .put (nsKey repoUrl) (nsValue commitSha description)) rfl rfl rfl hrun
  | get key =>
    obtain ⟨value, e₁, hget, hrun⟩ := bind_eq_ok.mp hrun
    obtain ⟨rfl, rfl⟩ := pure_eq_ok.mp hrun
    rw [getLocked, EStateM.Result.ok.injEq] at hget
    obtain ⟨rfl, rfl⟩ := hget
    obtain ⟨hvalue, h', -⟩ := h.get hadd hqueue (scopeKey 0 key.1)
    rw [hvalue]
    exact ⟨[], _, .view rfl, h'.unchanged⟩
  | getBatch keys =>
    obtain ⟨values, e₁, hall, hrun⟩ := bind_eq_ok.mp hrun
    obtain ⟨rfl, rfl⟩ := pure_eq_ok.mp hrun
    obtain ⟨hvalues, h'⟩ := h.getAll hadd hqueue hall
    rw [hvalues, List.map_map]
    exact ⟨[], _, .view rfl, h'.unchanged⟩
  | scan start stop limit =>
    have hscan : handleScan start stop limit e = .ok response e' := hrun
    rw [handleScan_eq] at hscan
    obtain ⟨results, e₁, hresults, hrun⟩ := bind_eq_ok.mp hscan
    obtain ⟨rfl, rfl⟩ := pure_eq_ok.mp hrun
    obtain ⟨rfl, rfl⟩ := h.scanLocked hadd hqueue hresults
    exact ⟨[], _, .view rfl, h.unchanged⟩
  | nsList =>
    obtain ⟨results, e₁, hresults, hrun⟩ := bind_eq_ok.mp hrun
    obtain ⟨rfl, rfl⟩ := pure_eq_ok.mp hrun
    obtain ⟨rfl, rfl⟩ := h.scanLocked hadd hqueue hresults
    exact ⟨[], _, .view rfl, h.unchanged⟩
  | rangeDelete start stop =>
    have hrange : handleRangeDelete start stop e = .ok response e' := hrun
    rw [handleRangeDelete_eq] at hrange
    obtain ⟨results, e₁, hresults, hanswered⟩ := bind_eq_ok.mp hrange
    obtain ⟨rfl, rfl⟩ := h.scanLocked hadd hqueue hresults
    obtain ⟨hok, hfailed⟩ := h.forM_delete (s.live.keysIn (scopeKey 0 start.1) (scopeKey 0 stop.1))
    rcases answered_eq_ok.mp hanswered with ⟨u, hdelete, rfl⟩ | ⟨msg, hdelete, rfl⟩
    · exact ⟨_, _, .rangeDelete rfl, hok u e' hdelete⟩
    · obtain ⟨deleted, key, later, fault, rest, hkeys, hfaults, rfl, h'⟩ := hfailed msg e' hdelete
      rw [hfaults]
      exact ⟨_, _, .rangeDeleteFailed hkeys fault rest, h'⟩
  | nsDelete namespaceId =>
    obtain ⟨results, e₁, hresults, hrun⟩ := bind_eq_ok.mp hrun
    obtain ⟨u, e₂, hdelete, hrun⟩ := bind_eq_ok.mp hrun
    obtain ⟨rfl, rfl⟩ := pure_eq_ok.mp hrun
    obtain ⟨rfl, rfl⟩ := h.scanLocked hadd hqueue hresults
    obtain ⟨deleted, met, rest, hsub, hmet, hfaults, h'⟩ := h.forM_deleteIgnored _ hdelete
    rw [hfaults]
    exact ⟨_, _, .nsDelete rfl hsub hmet rest, h'⟩

end Holds

/-! ### The real levels -/

namespace Engine

/-- A handler keeps what every call keeps. -/
theorem handle_keeps {I : Engine → Prop} (hI : CoreInv (fun _ _ => True) I) (request : Request) :
    Keeps I (UmpHandler.handle request) := by
  have hexec : ∀ c, Keeps I (exec c) := fun c => exec_keeps hI c fun _ _ _ => trivial
  have hanswered : ∀ {α : Type} {x : EngineM α} (response : α → Response) (failed : String),
      Keeps I x → Keeps I (answered x response failed) := by
    intro α x response failed hx e he
    have hfinal := hx e he
    rw [answered]
    cases hrun : x e with
    | ok a e' =>
      rw [hrun] at hfinal
      exact hfinal
    | error failure e' =>
      rw [hrun] at hfinal
      cases failure <;> exact hfinal
  have hscan : ∀ start stop, Keeps I (scanLocked start stop) := by
    intro start stop e he
    rw [scanLocked]
    cases e.scan start stop <;> exact he
  have hget : ∀ key, Keeps I (getLocked key) := fun key e he => hexec (.get key) e he
  have hall : ∀ keys, Keeps I (getAll keys) := by
    intro keys
    induction keys with
    | nil => exact Keeps.pure _
    | cons key keys ih =>
      exact Keeps.bind (hget key) fun _ => Keeps.bind ih fun _ => Keeps.pure _
  cases request with
  | put key value => exact hanswered _ _ (hexec (.put _ _))
  | delete key => exact hanswered _ _ (hexec (.delete _))
  | putBatch records => exact hanswered _ _ (hexec (.putBatch _))
  | compact => exact hanswered _ _ (hexec .flush)
  | nsCreate repoUrl commitSha description => exact hanswered _ _ (hexec (.put _ _))
  | get key => exact Keeps.bind (hget _) fun _ => Keeps.pure _
  | getBatch keys => exact Keeps.bind (hall _) fun _ => Keeps.pure _
  | scan start stop limit =>
    show Keeps I (handleScan start stop limit)
    rw [handleScan_eq]
    exact Keeps.bind (hscan _ _) fun _ => Keeps.pure _
  | nsList => exact Keeps.bind (hscan _ _) fun _ => Keeps.pure _
  | rangeDelete start stop =>
    show Keeps I (handleRangeDelete start stop)
    rw [handleRangeDelete_eq]
    refine Keeps.bind (hscan _ _) fun results => hanswered _ _ ?_
    exact Keeps.forM fun key _ => hexec (.delete key)
  | nsDelete namespaceId =>
    refine Keeps.bind (hscan _ _) fun results => Keeps.bind (Keeps.forM fun key _ => ?_) fun _ =>
      Keeps.pure _
    intro e he
    rw [deleteIgnored_eq]
    exact hexec (.delete key) e he

theorem flushCount_coreInv (n : ℕ) : CoreInv (fun _ _ => True) fun e => n ≤ e.flushCount where
  write he _ := he
  put he _ _ := he
  delete he _ := he
  flushed he := Nat.le_succ_of_le he
  dropped he _ := he
  other _ _ _ _ _ he := he
  wal _ he := he
  work he := he
  snapshots _ _ _ he := he

/-- Flushes are counted up. -/
theorem flushCount_serveOne {e e' : Engine} {request : Request} {response : Response}
    (hrun : serveOne add e request = some (response, e')) : e.flushCount ≤ e'.flushCount := by
  obtain ⟨e₁, hhandle, rfl⟩ := serveOne_eq_some.mp hrun
  have hstep : e.flushCount ≤ e₁.flushCount :=
    (handle_keeps (flushCount_coreInv e.flushCount) request).of_ok hhandle le_rfl
  exact hstep

/-- Below their limit, the pages stay in L0. -/
theorem hand_addL0Page {c : BackgroundCompactor} {page : Page}
    (hfew : c.compaction.l0.length + 1 < l0Limit) :
    c.hand CompactionManager.addL0Page page = c.hand keepAll page := by
  have hadd : c.compaction.addL0Page page = keepAll c.compaction page := by
    rw [CompactionManager.addL0Page, keepAll]
    rw [if_neg]
    rw [List.length_append, List.length_singleton]
    omega
  rw [BackgroundCompactor.hand, BackgroundCompactor.hand, hadd]

theorem foldl_hand_addL0Page (queue : List Page) (c : BackgroundCompactor)
    (hfew : c.compaction.l0.length + queue.length < l0Limit) :
    queue.foldl (BackgroundCompactor.hand CompactionManager.addL0Page) c
      = queue.foldl (BackgroundCompactor.hand keepAll) c := by
  induction queue generalizing c with
  | nil => rfl
  | cons page queue ih =>
    rw [List.length_cons] at hfew
    rw [List.foldl_cons, List.foldl_cons, hand_addL0Page (by omega), ih]
    show (c.compaction.l0 ++ [page]).length + queue.length < l0Limit
    rw [List.length_append, List.length_singleton]
    omega

end Engine

namespace Holds

open Engine

variable {s : Store} {e e' : Engine}

/-- Before the fourth flush no page has left L0. -/
theorem settle_addL0Page (h : Holds keepAll s e) (hfew : e.flushCount < l0Limit) :
    e.settle CompactionManager.addL0Page = e.settle keepAll := by
  obtain ⟨pages, hreads, hcount⟩ := h.reads
  have hlevels := hreads.levels
  rw [levels_settle, foldl_keepAll, foldl_keepAll] at hlevels
  have hl0 : e.compactor.compaction.l0 ++ e.compactor.queue = pages := by
    have := congrArg CompactionManager.l0 hlevels
    simpa [CompactionManager.new] using this
  have hlength : e.compactor.compaction.l0.length + e.compactor.queue.length = e.flushCount := by
    rw [← List.length_append, hl0, hcount]
  rw [Engine.settle, Engine.settle, BackgroundCompactor.settle, BackgroundCompactor.settle,
    foldl_hand_addL0Page]
  show e.compactor.compaction.l0.length + e.compactor.queue.length < l0Limit
  omega

/-- **One request**, after which the worker processes what was submitted. -/
theorem serveOne (h : Holds keepAll s e) (hqueue : e.compactor.queue = []) {request : Request}
    {response : Response}
    (hrun : UmpHandler.serveOne CompactionManager.addL0Page e request = some (response, e'))
    (hfew : e'.flushCount < l0Limit) :
    ∃ ws faults, Serves s.live s.faults request response ws faults ∧
      Holds keepAll { s.writeAll ws with faults := faults } e' ∧ e'.compactor.queue = [] := by
  obtain ⟨e₁, hhandle, rfl⟩ := serveOne_eq_some.mp hrun
  obtain ⟨ws, faults, hserves, h₁⟩ := h.handle keepAll_newest hqueue hhandle
  rw [h₁.settle_addL0Page hfew]
  exact ⟨ws, faults, hserves, h₁.settle, queue_settle e₁⟩

/-- The server refines the map, below four flushes. -/
theorem serveOne_refines : Refinement.Refines (UmpHandler.serveOne CompactionManager.addL0Page)
    (fun m request response m' =>
      ∃ ws, Serves m.1 m.2 request response ws m'.2 ∧ m'.1 = m.1.writeAll ws)
    (fun m e => ∃ s, (s.live, s.faults) = m ∧ Holds keepAll s e ∧ e.compactor.queue = [])
    Engine.flushCount l0Limit where
  mono _ _ _ _ hrun := flushCount_serveOne hrun
  one m e request response e' hrel hrun hfew := by
    obtain ⟨s, rfl, h, hqueue⟩ := hrel
    obtain ⟨ws, faults, hserves, h', hqueue'⟩ := h.serveOne hqueue hrun hfew
    exact ⟨(s.live.writeAll ws, faults), ⟨ws, hserves, rfl⟩, _, rfl, h', hqueue'⟩

/-- Requests one after the other. -/
theorem serveAll (h : Holds keepAll s e) (hqueue : e.compactor.queue = [])
    {requests : List Request} {responses : List Response}
    (hrun : UmpHandler.serveAll CompactionManager.addL0Page e requests = some (responses, e'))
    (hfew : e'.flushCount < l0Limit) :
    ∃ s', ServesAll (s.live, s.faults) requests responses (s'.live, s'.faults) ∧
      Holds keepAll s' e' ∧ e'.compactor.queue = [] := by
  obtain ⟨m, hall, s', rfl, h', hqueue'⟩ :=
    serveOne_refines.serve ⟨s, rfl, h, hqueue⟩ hrun hfew
  exact ⟨s', hall, h', hqueue'⟩

/-- A database on an empty directory is empty, over a log with these faults to come. -/
theorem opened {t : ℕ} {outcomes : List (Option WriteFault)}
    (hopen : Engine.open t ∅ none outcomes = .ok e) :
    Holds keepAll (.empty (outcomes.filterMap id)) e ∧ e.compactor.queue = [] := by
  have hreads : Reads keepAll [] [] e := Reads.opened hopen
  have ho := opened_of_open hopen
  obtain ⟨hsnapshots, hcounter⟩ := snapshots_of_open hopen
  refine ⟨⟨⟨[], ?_, ho.flushCount.symm⟩, ?_, fun k => Std.TreeMap.getElem?_emptyc, ?_, fun k => ?_,
    fun name => ?_, hcounter⟩, hreads.queue⟩
  · rw [settle_of_queue hreads.queue]
    exact hreads
  · rw [Engine.faults, ho.wal]
    rfl
  · rw [ho.indices]
    rfl
  · rw [state_of_open_empty hopen, Hamt.get_new, Store.empty, Std.TreeMap.getElem?_emptyc]
  · rw [hsnapshots, Std.TreeMap.getElem?_emptyc]
    exact .none

end Holds

end

/-- The requests of a client that puts a record, lists the namespaces and deletes the record. -/
def putListDelete : List Request :=
  [.put (.ascii 107) [1], .nsCreate (.ascii 114) (.ascii 115) (.ascii 100), .nsList,
    .getBatch [.ascii 107, .ascii 108], .delete (.ascii 107), .get (.ascii 107)]

/-- The third write to the log fails. -/
def diskFull : List (Option WriteFault) := [none, none, some ⟨3, "disk full"⟩]

/-- A server that flushes after every write, over such a log. -/
def servedRun (requests : List Request) : Option (List Response × Engine) :=
  (@Engine.open storedCodec 1 ∅ none diskFull).toOption.bind fun e =>
    @serveAll storedCodec (@CompactionManager.addL0Page storedCodec) e requests

/-- Two flushes happen, and the record is still there. -/
theorem servedRun_putListDelete :
    (servedRun putListDelete).map (fun served =>
      (served.2.flushCount, (served.2.get (scopeKey 0 [107])).1)) = some (2, some [1]) := by
  decide +kernel

end Uldb
