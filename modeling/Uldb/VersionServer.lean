/-
Snapshots and branches over the wire (`server.rs`).

A restore replaces the trie, and the records that reads see stay what they are.  So the store has
both: `Store.Serves` tells how a store answers requests for snapshots and branches, and what
becomes of it.

* `handleVersion` — the handlers;
* `handleVersion_answers` — they always answer;
* `Holds.handleVersion` — a handler answers as the store that the engine holds does.
-/
import Uldb.BranchDiff
import Uldb.MapServer

namespace Uldb

open Fallible

/-- A request for snapshots or branches.  They are listed in the order in which the hash map
gives them. -/
inductive VersionRequest where
  | snapCreate (description : String)
  | snapRestore (snapshotId : String)
  | snapDelete (snapshotId : String)
  | branchCreate (branchId fromSnapshot : String)
  | branchRollback (branchId : String)
  | branchDiff (branchId : String)
  | list (hashed : List String → List String)

/-! ### Handlers -/

namespace UmpHandler

def idResponse (id : String) : Response := .single .resultEnd (enc [stringField id.toUTF8.toList])

/-- The entries of a diff; a missing value is sent as an empty one. -/
def diffResponse (diffs : List DiffEntry) : Response :=
  rowsResponse diffs.length
    (diffs.zipIdx.map fun row =>
      enc [stringField (fromUtf8Lossy row.1.1), bytesField (row.1.2.1.getD []),
        bytesField (row.1.2.2.getD []), u32Field row.2])
    diffs.length

def namesResponse (names : List String) : Response :=
  rowsResponse names.length
    (names.zipIdx.map fun row => enc [stringField row.1.toUTF8.toList, u32Field row.2])
    names.length

/-- A call whose error becomes the response as it is. -/
def orError {α : Type} (code : UInt8) (x : EngineM α) (response : α → Response) :
    EngineM Response := fun e =>
  match x e with
  | .ok a e => .ok (response a) e
  | .error (.error msg) e => .ok (errorResponse code msg) e
  | .error .panic e => .error .panic e

def handleSnapCreate (description : String) : EngineM Response := do
  let id ← Engine.snapshotCreate description
  pure (idResponse id)

def handleSnapRestore (snapshotId : String) : EngineM Response :=
  orError 0x82 (Engine.snapshotRestore snapshotId) fun _ => resultEndResponse 1 0

def handleSnapDelete (snapshotId : String) : EngineM Response := do
  let found ← Engine.snapshotDelete snapshotId
  pure (if found then resultEndResponse 1 0
    else errorResponse 0x82 ("snapshot not found: " ++ snapshotId))

def handleBranchCreate (branchId fromSnapshot : String) : EngineM Response :=
  orError 0x80 (Engine.branchCreate branchId fromSnapshot) idResponse

def handleBranchRollback (branchId : String) : EngineM Response := do
  let found ← Engine.branchRollback branchId
  pure (if found then resultEndResponse 1 0
    else errorResponse 0x80 ("branch not found: " ++ branchId))

/-- A diff under the engine's lock. -/
def diffLocked (branchId : String) : EngineM (List DiffEntry) := fun e =>
  match e.branchDiff branchId with
  | .ok diffs => .ok diffs e
  | .error failure => .error failure e

def handleBranchDiff (branchId : String) : EngineM Response :=
  orError 0x80 (diffLocked branchId) diffResponse

/-- `handle_snap_list`, and `handle_branch_list`, which lists the same names. -/
def handleSnapList (hashed : List String → List String) : EngineM Response := fun e =>
  .ok (namesResponse (hashed e.snapshots.keys)) e

/-- The response to a request. -/
def handleVersion : VersionRequest → EngineM Response
  | .snapCreate description => handleSnapCreate description
  | .snapRestore snapshotId => handleSnapRestore snapshotId
  | .snapDelete snapshotId => handleSnapDelete snapshotId
  | .branchCreate branchId fromSnapshot => handleBranchCreate branchId fromSnapshot
  | .branchRollback branchId => handleBranchRollback branchId
  | .branchDiff branchId => handleBranchDiff branchId
  | .list hashed => handleSnapList hashed

/-! ### Every request is answered -/

open Engine

variable {K : Set Bytes} {e : Engine}

theorem triesIn_insert (he : TriesIn K e) (name : String) {snap : Hamt}
    (hsnap : ∀ k, (snap.get k).isSome → k ∈ K) :
    TriesIn K { e with snapshots := e.snapshots.insert name snap } := by
  refine ⟨he.1, fun name' snap' h => ?_⟩
  by_cases hname : name = name'
  · subst hname
    rw [Std.TreeMap.getElem?_insert_self, Option.some_inj] at h
    exact h ▸ hsnap
  · rw [getElem?_insert_of_ne hname] at h
    exact he.2 name' snap' h

theorem triesIn_erase (he : TriesIn K e) (name : String) :
    TriesIn K { e with snapshots := e.snapshots.erase name } := by
  refine ⟨he.1, fun name' snap' h => ?_⟩
  by_cases hname : name = name'
  · subst hname
    rw [Std.TreeMap.getElem?_erase_self] at h
    exact absurd h (by simp)
  · rw [getElem?_erase_of_ne hname] at h
    exact he.2 name' snap' h

/-- An error becomes a response. -/
theorem orError_answers {α : Type} {x : EngineM α} (hx : SafeIn K x) (code : UInt8)
    (response : α → Response) : AnswersIn K (orError code x response) := by
  intro e he
  obtain ⟨hfinal, hfails⟩ := hx e he
  rw [orError]
  cases hrun : x e with
  | ok a e₁ =>
    rw [hrun] at hfinal
    exact Stays.at_ok hfinal _
  | error failure e₁ =>
    rw [hrun] at hfinal
    cases failure with
    | error msg => exact Stays.at_ok hfinal _
    | panic => exact absurd rfl (hfails _ _ hrun)

/-- **One request** is answered. -/
theorem handleVersion_answers (request : VersionRequest) :
    AnswersIn K (handleVersion request) := by
  have hdelete : ∀ name, AnswersIn K (snapshotDelete name) := fun name =>
    Stays.of_ok (fun _ => rfl) fun e he => triesIn_erase he name
  cases request with
  | snapCreate description =>
    refine Stays.bind (fun e he => ?_) fun _ => Stays.pure _
    rw [snapshotCreate]
    split
    · -- the counter is no part of the tries
      refine Stays.at_ok ?_ _
      exact triesIn_insert he (snapshotId (e.snapshotCounter + 1)) he.1
    · exact Stays.at_ok (triesIn_insert he description he.1) _
  | snapRestore snapshotId =>
    refine orError_answers (fun e he => ?_) _ _
    rw [snapshotRestore]
    split
    · rename_i snap hsnap
      -- the live trie becomes the stored one, whose keys are in `K` too
      exact Stays.at_ok ⟨he.2 snapshotId snap hsnap, he.2⟩ _
    · exact Stays.at_error he (by simp)
  | snapDelete snapshotId => exact Stays.bind (hdelete snapshotId) fun _ => Stays.pure _
  | branchCreate branchId fromSnapshot =>
    refine orError_answers (fun e he => ?_) _ _
    rw [branchCreate]
    split
    · exact Stays.at_ok (triesIn_insert he branchId he.1) _
    · split
      · rename_i base hbase
        exact Stays.at_ok (triesIn_insert he branchId (he.2 fromSnapshot base hbase)) _
      · exact Stays.at_error he (by simp)
  | branchRollback branchId => exact Stays.bind (hdelete branchId) fun _ => Stays.pure _
  | branchDiff branchId =>
    refine orError_answers (fun e he => ?_) _ _
    rw [diffLocked, branchDiff]
    cases e.snapshots[branchId]? with
    | some base => exact Stays.at_ok he _
    | none => exact Stays.at_error he (by simp)
  | list hashed => exact Stays.of_ok (fun _ => rfl) fun e he => he

end UmpHandler

/-! ### The store -/

open UmpHandler

namespace Store

/-- Set or remove a snapshot. -/
def set (s : Store) (name : String) (kv : Option Kv) : Store :=
  { s with named := Function.update s.named name kv }

/-- How the store answers a request, and the store afterwards. -/
inductive Serves (s : Store) : VersionRequest → Response → Store → Prop
  | snapCreate {description : String} (h : description ≠ "") :
    Serves s (.snapCreate description) (idResponse description)
      (s.set description (some s.trie))
  | snapCreateUnnamed :
    Serves s (.snapCreate "") (idResponse (Engine.snapshotId (s.counter + 1)))
      { s.set (Engine.snapshotId (s.counter + 1)) (some s.trie) with counter := s.counter + 1 }
  | snapRestore {snapshotId : String} {kv : Kv} (h : s.named snapshotId = some kv) :
    Serves s (.snapRestore snapshotId) (resultEndResponse 1 0) { s with trie := kv }
  | snapRestoreMissing {snapshotId : String} (h : s.named snapshotId = none) :
    Serves s (.snapRestore snapshotId)
      (errorResponse 0x82 ("snapshot not found: " ++ snapshotId)) s
  | snapDelete {snapshotId : String} (h : (s.named snapshotId).isSome = true) :
    Serves s (.snapDelete snapshotId) (resultEndResponse 1 0) (s.set snapshotId none)
  | snapDeleteMissing {snapshotId : String} (h : s.named snapshotId = none) :
    Serves s (.snapDelete snapshotId)
      (errorResponse 0x82 ("snapshot not found: " ++ snapshotId)) s
  | branchCreate (branchId : String) :
    Serves s (.branchCreate branchId "") (idResponse branchId) (s.set branchId (some s.trie))
  | branchCreateFrom {fromSnapshot : String} (hne : fromSnapshot ≠ "") {kv : Kv}
    (h : s.named fromSnapshot = some kv) (branchId : String) :
    Serves s (.branchCreate branchId fromSnapshot) (idResponse branchId) (s.set branchId (some kv))
  | branchCreateMissing {fromSnapshot : String} (hne : fromSnapshot ≠ "")
    (h : s.named fromSnapshot = none) (branchId : String) :
    Serves s (.branchCreate branchId fromSnapshot)
      (errorResponse 0x80 ("source snapshot not found: " ++ fromSnapshot)) s
  | branchRollback {branchId : String} (h : (s.named branchId).isSome = true) :
    Serves s (.branchRollback branchId) (resultEndResponse 1 0) (s.set branchId none)
  | branchRollbackMissing {branchId : String} (h : s.named branchId = none) :
    Serves s (.branchRollback branchId) (errorResponse 0x80 ("branch not found: " ++ branchId)) s
  | branchDiff {branchId : String} {kv : Kv} (h : s.named branchId = some kv)
    {diffs : List DiffEntry} (hnodup : (diffs.map Prod.fst).Nodup)
    (hdiffs : ∀ (k : Bytes) old new, (k, old, new) ∈ diffs ↔
      old = s.trie[k]? ∧ new = kv[k]? ∧ old ≠ new) :
    Serves s (.branchDiff branchId) (diffResponse diffs) s
  | branchDiffMissing {branchId : String} (h : s.named branchId = none) :
    Serves s (.branchDiff branchId) (errorResponse 0x80 ("branch not found: " ++ branchId)) s
  | list {names : List String} (hnodup : names.Nodup)
    (hnames : ∀ name, name ∈ names ↔ (s.named name).isSome = true)
    (hashed : List String → List String) :
    Serves s (.list hashed) (namesResponse (hashed names)) s

end Store

/-! ### The handlers answer as the store -/

section

variable {s s' : Store} {e e' : Engine} {name : String}

namespace Copies

/-- There is a snapshot of this name, or there is none. -/
theorem cases (h : Copies s e) (name : String) :
    (e.snapshots[name]? = none ∧ s.named name = none) ∨
      ∃ snap kv, e.snapshots[name]? = some snap ∧ s.named name = some kv ∧ snap.Is kv := by
  have hrel := h.named name
  generalize e.snapshots[name]? = o at hrel
  generalize s.named name = o' at hrel
  cases hrel with
  | none => exact .inl ⟨rfl, rfl⟩
  | some his => exact .inr ⟨_, _, rfl, rfl, his⟩

/-- A snapshot is inserted. -/
theorem insert (h : Copies s e) (name : String) {snap : Hamt} {kv : Kv} (his : snap.Is kv) :
    Copies (s.set name (some kv)) { e with snapshots := e.snapshots.insert name snap } := by
  refine ⟨h.indices, h.trie, fun name' => ?_, h.counter⟩
  show Option.Rel Hamt.Is (e.snapshots.insert name snap)[name']?
    (Function.update s.named name (some kv) name')
  by_cases hname : name = name'
  · subst hname
    rw [Std.TreeMap.getElem?_insert_self, Function.update_self]
    exact .some his
  · rw [Engine.getElem?_insert_of_ne hname, Function.update_of_ne (Ne.symm hname)]
    exact h.named name'

/-- A snapshot is removed. -/
theorem erase (h : Copies s e) (name : String) :
    Copies (s.set name none) { e with snapshots := e.snapshots.erase name } := by
  refine ⟨h.indices, h.trie, fun name' => ?_, h.counter⟩
  show Option.Rel Hamt.Is (e.snapshots.erase name)[name']? (Function.update s.named name none name')
  by_cases hname : name = name'
  · subst hname
    rw [Std.TreeMap.getElem?_erase_self, Function.update_self]
    exact .none
  · rw [Engine.getElem?_erase_of_ne hname, Function.update_of_ne (Ne.symm hname)]
    exact h.named name'

/-- Nothing is removed where there is nothing. -/
theorem erase_of_none (h : Copies s e) (hnone : s.named name = none) :
    Copies s { e with snapshots := e.snapshots.erase name } := by
  have herase := h.erase name
  have hsame : s.set name none = s := by
    rw [Store.set, ← hnone, Function.update_eq_self]
  rwa [hsame] at herase

end Copies

section

variable [Codec] {add : CompactionManager → Page → CompactionManager}

namespace Holds

open Engine

/-- A step on the tries leaves what reads see. -/
theorem copied (h : Holds add s e) {state : Hamt} {snapshots : Std.TreeMap String Hamt} {n : ℕ}
    (hsame : s'.faults = s.faults ∧ s'.written = s.written ∧ s'.live = s.live) (hcopies : Copies s'
      { e with state := state, snapshots := snapshots, snapshotCounter := n }) :
    Holds add s' { e with state := state, snapshots := snapshots, snapshotCounter := n } := by
  obtain ⟨pages, hreads, hcount⟩ := h.reads
  obtain ⟨hfaults, hwritten, hlive⟩ := hsame
  refine ⟨⟨pages, ?_, hcount⟩, h.faults.trans hfaults.symm, ?_, hcopies⟩
  · rw [hwritten]
    exact ⟨hreads.drained, hreads.alive, hreads.queue, hreads.levels, hreads.sorted,
      hreads.unflushed, hreads.shadows, hreads.coherent⟩
  · rw [hwritten, hlive]
    exact h.live

/-- A delete of a snapshot or the rollback of a branch. -/
theorem snapshotDelete (h : Holds add s e) (name : String) :
    (e.snapshots.contains name = true ∧ (s.named name).isSome = true ∧
        Holds add (s.set name none) { e with snapshots := e.snapshots.erase name }) ∨
      (e.snapshots.contains name = false ∧ s.named name = none ∧
        Holds add s { e with snapshots := e.snapshots.erase name }) := by
  rw [Std.TreeMap.contains_eq_isSome_getElem?]
  rcases h.copies.cases name with ⟨hnone, hnone'⟩ | ⟨snap, kv, hsome, hsome', -⟩
  · refine .inr ⟨?_, hnone', h.copied ⟨rfl, rfl, rfl⟩ (h.copies.erase_of_none hnone')⟩
    rw [hnone]
    rfl
  · refine .inl ⟨?_, ?_, h.copied ⟨rfl, rfl, rfl⟩ (h.copies.erase name)⟩
    · rw [hsome]
      rfl
    · rw [hsome']
      rfl

theorem handleSnapCreate (h : Holds add s e) (description : String) {response : Response}
    (hrun : UmpHandler.handleSnapCreate description e = .ok response e') :
    ∃ s', s.Serves (.snapCreate description) response s' ∧ Holds add s' e' := by
  obtain ⟨id, e₁, hcreate, hrun⟩ := bind_eq_ok.mp hrun
  obtain ⟨rfl, rfl⟩ := pure_eq_ok.mp hrun
  rw [snapshotCreate] at hcreate
  by_cases hname : description = ""
  · subst hname
    rw [if_pos rfl, EStateM.Result.ok.injEq] at hcreate
    obtain ⟨rfl, rfl⟩ := hcreate
    have hinsert := h.copies.insert (snapshotId (e.snapshotCounter + 1)) h.copies.trie
    rw [h.copies.counter] at hinsert ⊢
    exact ⟨_, .snapCreateUnnamed, h.copied ⟨rfl, rfl, rfl⟩
      ⟨hinsert.indices, hinsert.trie, hinsert.named, rfl⟩⟩
  · rw [if_neg hname, EStateM.Result.ok.injEq] at hcreate
    obtain ⟨rfl, rfl⟩ := hcreate
    exact ⟨_, .snapCreate hname,
      h.copied ⟨rfl, rfl, rfl⟩ (h.copies.insert description h.copies.trie)⟩

theorem handleSnapRestore (h : Holds add s e) (snapshotId : String) {response : Response}
    (hrun : UmpHandler.handleSnapRestore snapshotId e = .ok response e') :
    ∃ s', s.Serves (.snapRestore snapshotId) response s' ∧ Holds add s' e' := by
  rw [UmpHandler.handleSnapRestore, orError, snapshotRestore] at hrun
  rcases h.copies.cases snapshotId with ⟨hnone, hnone'⟩ | ⟨snap, kv, hsome, hsome', his⟩
  · rw [hnone, EStateM.Result.ok.injEq] at hrun
    obtain ⟨rfl, rfl⟩ := hrun
    exact ⟨s, .snapRestoreMissing hnone', h⟩
  · rw [hsome, EStateM.Result.ok.injEq] at hrun
    obtain ⟨rfl, rfl⟩ := hrun
    exact ⟨_, .snapRestore hsome', h.copied ⟨rfl, rfl, rfl⟩
      ⟨h.copies.indices, his, h.copies.named, h.copies.counter⟩⟩

theorem handleBranchCreate (h : Holds add s e) (branchId fromSnapshot : String)
    {response : Response}
    (hrun : UmpHandler.handleBranchCreate branchId fromSnapshot e = .ok response e') :
    ∃ s', s.Serves (.branchCreate branchId fromSnapshot) response s' ∧ Holds add s' e' := by
  rw [UmpHandler.handleBranchCreate, orError, branchCreate] at hrun
  by_cases hfrom : fromSnapshot = ""
  · subst hfrom
    rw [if_pos rfl, EStateM.Result.ok.injEq] at hrun
    obtain ⟨rfl, rfl⟩ := hrun
    exact ⟨_, .branchCreate branchId,
      h.copied ⟨rfl, rfl, rfl⟩ (h.copies.insert branchId h.copies.trie)⟩
  · rw [if_neg hfrom] at hrun
    rcases h.copies.cases fromSnapshot with ⟨hnone, hnone'⟩ | ⟨snap, kv, hsome, hsome', his⟩
    · rw [hnone, EStateM.Result.ok.injEq] at hrun
      obtain ⟨rfl, rfl⟩ := hrun
      exact ⟨s, .branchCreateMissing hfrom hnone' branchId, h⟩
    · rw [hsome, EStateM.Result.ok.injEq] at hrun
      obtain ⟨rfl, rfl⟩ := hrun
      exact ⟨_, .branchCreateFrom hfrom hsome' branchId,
        h.copied ⟨rfl, rfl, rfl⟩ (h.copies.insert branchId his)⟩

theorem handleBranchDiff (h : Holds add s e) (branchId : String) {response : Response}
    (hrun : UmpHandler.handleBranchDiff branchId e = .ok response e') :
    ∃ s', s.Serves (.branchDiff branchId) response s' ∧ Holds add s' e' := by
  rcases h.copies.cases branchId with ⟨hnone, hnone'⟩ | ⟨snap, kv, hsome, hsome', his⟩
  · have hdiff : diffLocked branchId e
        = .error (.error ("branch not found: " ++ branchId)) e := by
      rw [diffLocked, branchDiff, hnone]
    rw [UmpHandler.handleBranchDiff, orError, hdiff, EStateM.Result.ok.injEq] at hrun
    obtain ⟨rfl, rfl⟩ := hrun
    exact ⟨s, .branchDiffMissing hnone', h⟩
  · have hdiff : diffLocked branchId e
        = .ok (Hamt.changed e.state snap ++ Hamt.removed e.state snap) e := by
      rw [diffLocked, branchDiff, hsome]
      rfl
    rw [UmpHandler.handleBranchDiff, orError, hdiff, EStateM.Result.ok.injEq] at hrun
    obtain ⟨rfl, rfl⟩ := hrun
    refine ⟨s, .branchDiff hsome' Hamt.nodup_keys_diff fun k old new => ?_, h⟩
    rw [← h.copies.trie k, ← his k]
    exact Hamt.mem_diff

/-- **One request** for snapshots or branches. -/
theorem handleVersion (h : Holds add s e) {request : VersionRequest} {response : Response}
    (hrun : UmpHandler.handleVersion request e = .ok response e') :
    ∃ s', s.Serves request response s' ∧ Holds add s' e' := by
  cases request with
  | snapCreate description => exact h.handleSnapCreate description hrun
  | snapRestore snapshotId => exact h.handleSnapRestore snapshotId hrun
  | branchCreate branchId fromSnapshot => exact h.handleBranchCreate branchId fromSnapshot hrun
  | branchDiff branchId => exact h.handleBranchDiff branchId hrun
  | snapDelete snapshotId =>
    obtain ⟨found, e₁, hdelete, hrun⟩ := bind_eq_ok.mp hrun
    obtain ⟨rfl, rfl⟩ := pure_eq_ok.mp hrun
    rw [Engine.snapshotDelete, EStateM.Result.ok.injEq] at hdelete
    obtain ⟨rfl, rfl⟩ := hdelete
    rcases h.snapshotDelete snapshotId with ⟨hfound, hsome, h'⟩ | ⟨hmissing, hnone, h'⟩
    · rw [if_pos hfound]
      exact ⟨_, .snapDelete hsome, h'⟩
    · rw [if_neg (by rw [hmissing]; exact Bool.false_ne_true)]
      exact ⟨s, .snapDeleteMissing hnone, h'⟩
  | branchRollback branchId =>
    obtain ⟨found, e₁, hdelete, hrun⟩ := bind_eq_ok.mp hrun
    obtain ⟨rfl, rfl⟩ := pure_eq_ok.mp hrun
    rw [branchRollback, Engine.snapshotDelete, EStateM.Result.ok.injEq] at hdelete
    obtain ⟨rfl, rfl⟩ := hdelete
    rcases h.snapshotDelete branchId with ⟨hfound, hsome, h'⟩ | ⟨hmissing, hnone, h'⟩
    · rw [if_pos hfound]
      exact ⟨_, .branchRollback hsome, h'⟩
    · rw [if_neg (by rw [hmissing]; exact Bool.false_ne_true)]
      exact ⟨s, .branchRollbackMissing hnone, h'⟩
  | list hashed =>
    obtain ⟨rfl, rfl⟩ := (EStateM.Result.ok.injEq _ _ _ _).mp hrun
    refine ⟨s, .list Std.TreeMap.nodup_keys (fun name => ?_) hashed, h⟩
    rw [Std.TreeMap.mem_keys, Std.TreeMap.mem_iff_isSome_getElem?]
    rcases h.copies.cases name with ⟨hnone, hnone'⟩ | ⟨snap, kv, hsome, hsome', -⟩
    · rw [hnone, hnone']
      exact Iff.rfl
    · rw [hsome, hsome']
      exact Iff.rfl

end Holds

end

/-- Nothing is flushed. -/
theorem Engine.flushCount_handleVersion {request : VersionRequest} {response : Response}
    (hrun : handleVersion request e = .ok response e') : e'.flushCount = e.flushCount := by
  have hdelete : ∀ name (f : Bool → Response),
      (do let found ← Engine.snapshotDelete name; pure (f found) : EngineM Response) e
        = .ok response e' → e'.flushCount = e.flushCount := by
    intro name f hrun
    obtain ⟨found, e₁, hdelete, hrun⟩ := bind_eq_ok.mp hrun
    obtain ⟨-, rfl⟩ := pure_eq_ok.mp hrun
    rw [Engine.snapshotDelete, EStateM.Result.ok.injEq] at hdelete
    rw [← hdelete.2]
  cases request with
  | snapCreate description =>
    obtain ⟨id, e₁, hcreate, hrun⟩ := bind_eq_ok.mp hrun
    obtain ⟨-, rfl⟩ := pure_eq_ok.mp hrun
    rw [snapshotCreate] at hcreate
    split at hcreate
    · rw [← (EStateM.Result.ok.inj hcreate).2]
    · rw [← (EStateM.Result.ok.inj hcreate).2]
  | snapRestore snapshotId =>
    rw [handleVersion, handleSnapRestore, orError, snapshotRestore] at hrun
    cases hsnap : e.snapshots[snapshotId]? with
    | none =>
      rw [hsnap] at hrun
      rw [← (EStateM.Result.ok.inj hrun).2]
    | some snap =>
      rw [hsnap] at hrun
      rw [← (EStateM.Result.ok.inj hrun).2]
  | snapDelete snapshotId => exact hdelete snapshotId _ hrun
  | branchCreate branchId fromSnapshot =>
    rw [handleVersion, handleBranchCreate, orError, branchCreate] at hrun
    split_ifs at hrun
    · rw [← (EStateM.Result.ok.inj hrun).2]
    · cases hsnap : e.snapshots[fromSnapshot]? with
      | none =>
        rw [hsnap] at hrun
        rw [← (EStateM.Result.ok.inj hrun).2]
      | some snap =>
        rw [hsnap] at hrun
        rw [← (EStateM.Result.ok.inj hrun).2]
  | branchRollback branchId => exact hdelete branchId _ hrun
  | branchDiff branchId =>
    rw [handleVersion, handleBranchDiff, orError, diffLocked] at hrun
    cases hdiff : e.branchDiff branchId with
    | ok diffs =>
      rw [hdiff] at hrun
      rw [← (EStateM.Result.ok.inj hrun).2]
    | error failure =>
      rw [hdiff] at hrun
      cases failure with
      | error msg => rw [← (EStateM.Result.ok.inj hrun).2]
      | panic => exact absurd hrun (by simp)
  | list hashed => rw [← (EStateM.Result.ok.inj hrun).2]

end

end Uldb
