/-
Merging the branch of an agent.

A branch is a whole copy of the live state, not a list of edits: a merge writes
every pair of the branch, also those that the agent never touched, with the
values they had when the branch was created.

* `after_branch` — a branch under calls on main and on other branches: its base
  with the updates that were made on it;
* `merge_spec` — what a merge writes;
* `merge_untouched_iff` — a merge leaves a key that was not edited in the branch
  alone exactly if the branch has no value for it, or main still has that value;
* `merge_reverts` — two agents with disjoint edits, and the first one is lost.
-/
import Uldb.Replay
import Uldb.StoredCodec
import Uldb.Writes

namespace Uldb

open Fallible

/-! ### Updates of a branch -/

namespace HamtOp

/-- What the update leaves at its key. -/
def value : HamtOp → Option Bytes
  | put _ value => some value
  | delete _ => none

def write (op : HamtOp) : Bytes × Option Bytes := (op.key, op.value)

end HamtOp

theorem Hamt.get_run {h h' : Hamt} {ops : List HamtOp} (hrun : h.run ops = some h') (k : Bytes) :
    h'.get k = (lastWrite (ops.map HamtOp.write) k).getD (h.get k) := by
  induction ops generalizing h with
  | nil =>
    obtain rfl : h = h' := Option.some_inj.mp hrun
    rfl
  | cons op ops ih =>
    obtain ⟨h₁, hop, hrun⟩ := foldlM_cons_eq_some.mp hrun
    have hone : h₁.get k = (lastWrite [op.write] k).getD (h.get k) := by
      rw [HamtOp.write, lastWrite_singleton]
      cases op with
      | put key value =>
        rw [get_put hop]
        by_cases hk : key = k
        · simp [HamtOp.key, HamtOp.value, hk]
        · simp [HamtOp.key, hk, Ne.symm hk]
      | delete key =>
        rw [← Option.some_inj.mp hop, get_delete]
        by_cases hk : key = k
        · simp [HamtOp.key, HamtOp.value, hk]
        · simp [HamtOp.key, hk, Ne.symm hk]
    have hsplit : (op :: ops).map HamtOp.write = [op.write] ++ ops.map HamtOp.write := rfl
    rw [ih hrun, hone, hsplit, lastWrite_append]
    cases lastWrite (ops.map HamtOp.write) k <;> rfl

namespace Call

/-- The call neither replaces the branch `b` nor removes it, and does not put or
delete the key `k` in it. -/
def Spares (b : String) (k : Bytes) : Call → Prop
  | snapshotCreate name => name ≠ "" ∧ name ≠ b
  | snapshotDelete name => name ≠ b
  | branchCreate branch _ => branch ≠ b
  | branchMerge branch => branch ≠ b
  | branchRollback branch => branch ≠ b
  | agentPut name path _ => name = b → path ≠ k
  | agentDelete name path => name = b → path ≠ k
  | agentLoad name records => name = b → k ∉ records.map (·.1)
  | _ => True

/-- The call neither replaces the branch `b` nor removes it. -/
def Leaves (b : String) : Call → Prop
  | snapshotCreate name => name ≠ "" ∧ name ≠ b
  | snapshotDelete name => name ≠ b
  | branchCreate branch _ => branch ≠ b
  | branchMerge branch => branch ≠ b
  | branchRollback branch => branch ≠ b
  | _ => True

/-- The updates that the call makes on the branch `b`. -/
def branchOps (b : String) : Call → List HamtOp
  | agentPut name path content => if name = b then [.put path content] else []
  | agentDelete name path => if name = b then [.delete path] else []
  | agentLoad name records => if name = b then records.map fun kv => .put kv.1 kv.2 else []
  | _ => []

variable {b : String} {k : Bytes} {c : Call}

theorem Spares.leaves (h : c.Spares b k) : c.Leaves b := by
  cases c <;> first | exact h | trivial

theorem Spares.key_ne (h : c.Spares b k) : ∀ op ∈ c.branchOps b, op.key ≠ k := by
  intro op hop
  cases c with
  | agentPut name path content =>
    obtain ⟨hname, hop⟩ := List.mem_ite_nil_right.mp hop
    rw [List.mem_singleton.mp hop]
    exact h hname
  | agentDelete name path =>
    obtain ⟨hname, hop⟩ := List.mem_ite_nil_right.mp hop
    rw [List.mem_singleton.mp hop]
    exact h hname
  | agentLoad name records =>
    obtain ⟨hname, hop⟩ := List.mem_ite_nil_right.mp hop
    obtain ⟨kv, hkv, rfl⟩ := List.mem_map.mp hop
    exact fun hk => h hname (List.mem_map.mpr ⟨kv, hkv, hk⟩)
  | _ => exact absurd hop (by simp [branchOps])

end Call

namespace Engine

/-! ### The branch between its creation and its merge -/

variable {b : String} {k : Bytes} {v : Option Bytes} {e : Engine} {h : Hamt}

theorem branch_storageInv [Codec] (b : String) (h : Hamt) :
    StorageInv (fun _ _ => True) fun e : Engine => e.snapshots[b]? = some h where
  write he _ := he
  put he _ _ := he
  delete he _ := he
  flushed he := he
  dropped he _ := he
  other _ _ _ _ _ he := he
  wal _ he := he
  work he := he

theorem getElem?_insert_of_ne {name : String} (hname : name ≠ b)
    (snapshots : Std.TreeMap String Hamt) (h : Hamt) :
    (snapshots.insert name h)[b]? = snapshots[b]? := by
  rw [Std.TreeMap.getElem?_insert, if_neg fun hc => hname (Std.LawfulEqCmp.eq_of_compare hc)]

theorem getElem?_erase_of_ne {name : String} (hname : name ≠ b)
    (snapshots : Std.TreeMap String Hamt) : (snapshots.erase name)[b]? = snapshots[b]? := by
  rw [Std.TreeMap.getElem?_erase, if_neg fun hc => hname (Std.LawfulEqCmp.eq_of_compare hc)]

/-- The updates on the branch that a call has made; a call that fails makes none. -/
def opsOf [Codec] (b : String) (c : Call) (e : Engine) : List HamtOp :=
  match exec c e with
  | .ok _ _ => c.branchOps b
  | .error _ _ => []

/-- The updates on the branch in a run of calls that succeed or fail. -/
def branchOps [Codec] (b : String) (e : Engine) : List Call → List HamtOp
  | [] => []
  | c :: cs => opsOf b c e ++ branchOps b (finalState (exec c e)) cs

/-- An agent's call, on this branch or on another one. -/
theorem onBranch_branch {name : String} {f : Hamt → Option Hamt} (ops : List HamtOp)
    (hf : ∀ h, f h = h.run ops) (he : e.snapshots[b]? = some h) :
    ∃ h', (finalState (onBranch name f e)).snapshots[b]? = some h' ∧
      h.run (match onBranch name f e with
        | .ok _ _ => if name = b then ops else []
        | .error _ _ => []) = some h' := by
  rw [onBranch]
  cases hs : e.snapshots[name]? with
  | none => exact ⟨h, he, rfl⟩
  | some branch =>
    simp only []
    cases hedit : f branch with
    | none => exact ⟨h, he, rfl⟩
    | some updated =>
      by_cases hname : name = b
      · subst hname
        obtain rfl : branch = h := by simpa [hs] using he
        refine ⟨updated, Std.TreeMap.getElem?_insert_self, ?_⟩
        show branch.run (if name = name then ops else []) = some updated
        rw [if_pos rfl, ← hf, hedit]
      · refine ⟨h, (getElem?_insert_of_ne hname _ _).trans he, ?_⟩
        simp only [if_neg hname]
        rfl

/-- A call that leaves the branch in place makes its updates on it. -/
theorem exec_branch [Codec] {c : Call} (hc : c.Leaves b) (he : e.snapshots[b]? = some h) :
    ∃ h', (finalState (exec c e)).snapshots[b]? = some h' ∧ h.run (opsOf b c e) = some h' := by
  -- calls that have nothing to do with the branch keep it
  have hother : c.branchOps b = [] →
      Keeps (fun e : Engine => e.snapshots[b]? = some h) (exec c) →
      ∃ h', (finalState (exec c e)).snapshots[b]? = some h' ∧ h.run (opsOf b c e) = some h' := by
    intro hops hkeeps
    refine ⟨h, hkeeps e he, ?_⟩
    rw [opsOf, hops]
    cases exec c e <;> rfl
  cases c with
  | agentPut name path content =>
    refine onBranch_branch [.put path content] (fun h => ?_) he
    rw [Hamt.run, List.foldlM_cons]
    simp [HamtOp.apply]
  | agentDelete name path => exact onBranch_branch [.delete path] (fun h => rfl) he
  | agentLoad name records =>
    refine onBranch_branch (records.map fun kv => .put kv.1 kv.2) (fun h => ?_) he
    rw [Hamt.run, List.foldlM_map]
    rfl
  | snapshotCreate name =>
    refine hother rfl fun e he => ?_
    simp only [exec, finalState_bind_pure, snapshotCreate, if_neg hc.1]
    exact (getElem?_insert_of_ne hc.2 _ _).trans he
  | snapshotRestore name =>
    refine hother rfl fun e he => ?_
    simp only [exec, snapshotRestore]
    cases e.snapshots[name]? with
    | none => exact he
    | some snap => exact he
  | snapshotDelete name => exact hother rfl fun e he => (getElem?_erase_of_ne hc _).trans he
  | branchCreate branch source =>
    refine hother rfl fun e he => ?_
    simp only [exec, finalState_bind_pure, branchCreate]
    by_cases hsource : source = ""
    · rw [if_pos hsource]
      exact (getElem?_insert_of_ne hc _ _).trans he
    · rw [if_neg hsource]
      cases e.snapshots[source]? with
      | none => exact he
      | some base => exact (getElem?_insert_of_ne hc _ _).trans he
  | branchMerge branch =>
    refine hother rfl (Keeps.bind ?_ fun _ => Keeps.pure _)
    exact (branch_storageInv b h).branchMerge (fun _ _ => trivial)
      fun he => (getElem?_erase_of_ne hc _).trans he
  | branchRollback branch => exact hother rfl fun e he => (getElem?_erase_of_ne hc _).trans he
  | _ => exact hother rfl (exec_storage (branch_storageInv b h) rfl rfl fun _ _ _ => trivial)

/-- **A branch under calls**: its base with the updates that were made on it. -/
theorem after_branch [Codec] (he : e.snapshots[b]? = some h) {cs : List Call}
    (hcs : ∀ c ∈ cs, c.Leaves b) :
    ∃ h', (e.after cs).snapshots[b]? = some h' ∧ h.run (branchOps b e cs) = some h' := by
  induction cs generalizing e h with
  | nil => exact ⟨h, he, rfl⟩
  | cons c cs ih =>
    obtain ⟨h₁, he₁, hrun₁⟩ := exec_branch (hcs c (by simp)) he
    obtain ⟨h₂, he₂, hrun₂⟩ := ih he₁ fun c' hc' => hcs c' (by simp [hc'])
    exact ⟨h₂, he₂, foldlM_append_eq_some.mpr ⟨h₁, hrun₁, hrun₂⟩⟩

/-- The branch exists and holds `v` for the key. -/
def BranchHas (b : String) (k : Bytes) (v : Option Bytes) (e : Engine) : Prop :=
  ∃ branch, e.snapshots[b]? = some branch ∧ branch.get k = v

/-- The branch's value of a key: the last update, and the base's value without one. -/
theorem BranchHas.after [Codec] (he : e.BranchHas b k v) {cs : List Call}
    (hcs : ∀ c ∈ cs, c.Leaves b) :
    (e.after cs).BranchHas b k
      ((lastWrite ((branchOps b e cs).map HamtOp.write) k).getD v) := by
  obtain ⟨h, hh, rfl⟩ := he
  obtain ⟨h', hh', hrun⟩ := after_branch hh hcs
  exact ⟨h', hh', Hamt.get_run hrun k⟩

theorem key_of_mem_opsOf [Codec] {c : Call} {op : HamtOp} (hop : op ∈ opsOf b c e) :
    op ∈ c.branchOps b := by
  rw [opsOf] at hop
  cases hexec : exec c e with
  | ok u e₁ =>
    rw [hexec] at hop
    exact hop
  | error failure e₁ =>
    rw [hexec] at hop
    exact absurd hop (by simp)

theorem mem_branchOps [Codec] {cs : List Call} {op : HamtOp} (hop : op ∈ branchOps b e cs) :
    ∃ c ∈ cs, op ∈ c.branchOps b := by
  induction cs generalizing e with
  | nil => exact absurd hop (by simp [branchOps])
  | cons c cs ih =>
    rcases List.mem_append.mp hop with hop | hop
    · exact ⟨c, by simp, key_of_mem_opsOf hop⟩
    · obtain ⟨c', hc', hop⟩ := ih hop
      exact ⟨c', by simp [hc'], hop⟩

/-- **Calls that spare the key of a branch** leave the branch and its value alone. -/
theorem branch_after [Codec] (he : e.BranchHas b k v) {cs : List Call}
    (hcs : ∀ c ∈ cs, c.Spares b k) : (e.after cs).BranchHas b k v := by
  have hafter := he.after fun c hc => (hcs c hc).leaves
  have hnone : lastWrite ((branchOps b e cs).map HamtOp.write) k = none := by
    rw [lastWrite_eq_none]
    intro w hw
    obtain ⟨op, hop, rfl⟩ := List.mem_map.mp hw
    obtain ⟨c, hc, hop⟩ := mem_branchOps hop
    exact (hcs c hc).key_ne op hop
  rw [hnone] at hafter
  exact hafter

/-! ### The merge -/

variable [Codec]

/-- One entry of a merge: the trie, the log without a flush, the memtable, the indices. -/
theorem mergeEntry_eq_ok {kv : Bytes × Bytes} {u : Unit} {e' : Engine}
    (h : mergeEntry kv e = .ok u e') :
    ∃ state w, e.state.put kv.1 kv.2 = some state ∧
      WalWriter.append ⟨kv.1, kv.2⟩ e.wal = .ok () w ∧
      e' = { e with
        state := state
        wal := w
        memtable := e.memtable.write kv.1 (some kv.2)
        indices := e.indices.onPut kv.1 kv.2 } := by
  rw [mergeEntry, bind_eq_ok] at h
  obtain ⟨_, e₁, hstate, h⟩ := h
  rw [bind_eq_ok] at h
  obtain ⟨_, e₂, happend, h⟩ := h
  obtain ⟨_, e₃, hmem, h⟩ := bind_eq_ok.mp h
  obtain rfl := modify_eq_ok.mp h
  rw [mergeAppend, mapError_eq_ok] at happend
  obtain ⟨w, hw, rfl⟩ := onPart_eq_ok.mp happend
  obtain ⟨state, hput, rfl⟩ := statePut_eq_ok hstate
  rw [memtablePut] at hmem
  simp only [EStateM.Result.ok.injEq] at hmem
  obtain ⟨_, rfl⟩ := hmem
  exact ⟨state, w, hput, hw, rfl⟩

/-- A merge writes the pairs of the branch, and removes it. -/
theorem branchMerge_eq_ok {n : ℕ} {e' : Engine} (h : branchMerge b e = .ok n e') :
    ∃ branch e₁, e.snapshots[b]? = some branch ∧
      (forM branch.iter mergeEntry : EngineM Unit) e = .ok () e₁ ∧
      e' = { e₁ with snapshots := e₁.snapshots.erase b } := by
  rw [branchMerge, bind_eq_ok] at h
  obtain ⟨e₀, e₁, hget, h⟩ := h
  obtain ⟨rfl, rfl⟩ := get_eq_ok.mp hget
  cases hbranch : e₁.snapshots[b]? with
  | none =>
    rw [hbranch] at h
    exact absurd h (by simp [throw, throwThe, MonadExceptOf.throw, EStateM.throw])
  | some branch =>
    rw [hbranch] at h
    obtain ⟨_, e₂, hentries, h⟩ := bind_eq_ok.mp h
    obtain ⟨_, e₃, herase, h⟩ := bind_eq_ok.mp h
    obtain ⟨_, rfl⟩ := pure_eq_ok.mp h
    exact ⟨branch, e₂, rfl, hentries, modify_eq_ok.mp herase⟩

/-- The entries of a merge: a key that occurs is written with its value, another one
keeps its entry. -/
theorem forM_mergeEntry {pairs : List (Bytes × Bytes)} (hnodup : (pairs.map (·.1)).Nodup)
    {u : Unit} {e' : Engine} (h : (forM pairs mergeEntry : EngineM Unit) e = .ok u e') :
    e'.below = e.below ∧
      (∀ w, (k, w) ∈ pairs → (e'.memtable.getEntry k).map MemEntry.value = some (some w)) ∧
      (k ∉ pairs.map (·.1) → e'.memtable.getEntry k = e.memtable.getEntry k) := by
  induction pairs generalizing e with
  | nil =>
    obtain rfl := forM_nil_eq_ok.mp h
    exact ⟨rfl, fun w hw => absurd hw (by simp), fun _ => rfl⟩
  | cons kv pairs ih =>
    obtain ⟨e₁, hentry, h⟩ := forM_cons_eq_ok.mp h
    obtain ⟨state, wal, _, _, rfl⟩ := mergeEntry_eq_ok hentry
    rw [List.map_cons, List.nodup_cons] at hnodup
    obtain ⟨hbelow, hin, hout⟩ := ih hnodup.2 h
    refine ⟨hbelow, fun w hw => ?_, fun hk => ?_⟩
    · rcases List.mem_cons.mp hw with rfl | hw
      · rw [hout hnodup.1, Memtable.getEntry_write, if_pos rfl]
        rfl
      · exact hin w hw
    · rw [List.map_cons, List.mem_cons, not_or] at hk
      rw [hout hk.2, Memtable.getEntry_write, if_neg (Ne.symm hk.1)]

/-- **A merge**: a read after it answers the branch's value, where the branch has one,
and otherwise as before. -/
theorem merge_spec {n : ℕ} {e' : Engine} (he : e.BranchHas b k v)
    (h : branchMerge b e = .ok n e') : (e'.get k).1 = v.or (e.get k).1 := by
  obtain ⟨branch, hbranch, rfl⟩ := he
  obtain ⟨branch', e₂, hbranch', hentries, rfl⟩ := branchMerge_eq_ok h
  obtain rfl : branch = branch' := by simpa [hbranch] using hbranch'
  obtain ⟨hbelow, hin, hout⟩ := forM_mergeEntry (k := k) branch.iter_keys_nodup hentries
  rw [get_fst]
  show ((e₂.memtable.getEntry k).map MemEntry.value).getD (e₂.below k) = _
  cases hk : branch.get k with
  | some w =>
    rw [hin w (branch.mem_iter_iff.mpr hk)]
    rfl
  | none =>
    have hnot : k ∉ branch.iter.map (·.1) := by
      intro hc
      obtain ⟨⟨k', w⟩, hkw, rfl⟩ := List.mem_map.mp hc
      rw [branch.mem_iter_iff.mp hkw] at hk
      exact absurd hk (by simp)
    rw [hout hnot, hbelow, get_fst]
    rfl

/-- The trie after the entries of a merge. -/
theorem forM_mergeEntry_state {pairs : List (Bytes × Bytes)} {u : Unit} {e' : Engine}
    (h : (forM pairs mergeEntry : EngineM Unit) e = .ok u e') :
    pairs.foldlM (fun state kv => state.put kv.1 kv.2) e.state = some e'.state := by
  induction pairs generalizing e with
  | nil =>
    obtain rfl := forM_nil_eq_ok.mp h
    rfl
  | cons kv pairs ih =>
    obtain ⟨e₁, hentry, h⟩ := forM_cons_eq_ok.mp h
    obtain ⟨state, wal, hput, _, rfl⟩ := mergeEntry_eq_ok hentry
    rw [List.foldlM_cons, hput]
    exact ih h

/-- A merge merges the tries. -/
theorem merge_state {n : ℕ} {e' : Engine} (he : e.BranchHas b k v)
    (h : branchMerge b e = .ok n e') : e'.state.get k = v.or (e.state.get k) := by
  obtain ⟨branch, hbranch, rfl⟩ := he
  obtain ⟨branch', e₂, hbranch', hentries, rfl⟩ := branchMerge_eq_ok h
  obtain rfl : branch = branch' := by simpa [hbranch] using hbranch'
  exact Hamt.get_mergeFrom (forM_mergeEntry_state hentries) k

omit [Codec] in
/-- A branch that is created from the live state holds its pairs. -/
theorem branchHas_of_create {e₀ e₁ : Engine} {id : String}
    (hcreate : branchCreate b "" e₀ = .ok id e₁) : e₁.BranchHas b k (e₀.state.get k) := by
  rw [branchCreate, if_pos rfl, EStateM.Result.ok.injEq] at hcreate
  obtain ⟨_, rfl⟩ := hcreate
  exact ⟨e₀.state.snapshot, Std.TreeMap.getElem?_insert_self, rfl⟩

/-- **The frame of a merge.**  A branch is created from the live state; then come any
calls on main, on other branches, and on other keys of the branch; then the merge
succeeds.  It leaves the key alone exactly if the live state had no value for the
key at the creation, or a read still answers that value right before the merge. -/
theorem merge_untouched_iff {e₀ e₁ e₂ : Engine} {id : String} {n : ℕ}
    (hcreate : branchCreate b "" e₀ = .ok id e₁) {cs : List Call}
    (hcs : ∀ c ∈ cs, c.Spares b k) (hmerge : branchMerge b (e₁.after cs) = .ok n e₂) :
    (e₂.get k).1 = ((e₁.after cs).get k).1 ↔
      e₀.state.get k = none ∨ ((e₁.after cs).get k).1 = e₀.state.get k := by
  rw [merge_spec (branch_after (branchHas_of_create hcreate) hcs) hmerge]
  cases e₀.state.get k with
  | none => simp
  | some w => simp [eq_comm]

end Engine

/-! ### Two agents -/

namespace Engine

/-- Two keys with values and a branch of another agent, then a branch `b`, the calls
and its merge: the engines before the branch, before the merge and after it. -/
def mergeRun (cs : List Call) : Option (Engine × Engine × Engine) :=
  (@openRun storedCodec 1000 ∅ none
    [.put [120] [0], .put [121] [0], .branchCreate "a" ""]).bind fun e₀ =>
      let e := @after storedCodec (finalState (branchCreate "b" "" e₀)) cs
      (success (@branchMerge storedCodec "b" e)).map fun e' => (e₀, e, e')

theorem exists_of_mergeRun {cs : List Call} (h : (mergeRun cs).isSome = true) :
    ∃ e₀ e₁ id e n e', mergeRun cs = some (e₀, e, e') ∧ branchCreate "b" "" e₀ = .ok id e₁ ∧
      e = @after storedCodec e₁ cs ∧ @branchMerge storedCodec "b" e = .ok n e' := by
  obtain ⟨⟨e₀, e, e'⟩, hrun⟩ := Option.isSome_iff_exists.mp h
  have hbind := hrun
  rw [mergeRun, Option.bind_eq_some_iff] at hbind
  obtain ⟨e₀', _, hbind⟩ := hbind
  obtain ⟨e'', hmerge, heq⟩ := Option.map_eq_some_iff.mp hbind
  rw [Prod.mk.injEq, Prod.mk.injEq] at heq
  obtain ⟨rfl, rfl, rfl⟩ := heq
  obtain ⟨n, hmerge⟩ := success_eq_some hmerge
  exact ⟨e₀', finalState (branchCreate "b" "" e₀'), "b", _, n, e'', hrun, rfl, rfl, hmerge⟩

/-- An agent that edits another key, with nothing on main: the key keeps its value. -/
theorem merge_untouched_one : ∃ e₀ e e',
    mergeRun [.agentPut "b" [121] [2]] = some (e₀, e, e') ∧
      (e'.get [120]).1 = (e.get [120]).1 := by
  obtain ⟨e₀, e₁, id, e, n, e', hrun, hcreate, rfl, hmerge⟩ :=
    @exists_of_mergeRun [.agentPut "b" [121] [2]] (by decide +kernel)
  have hsame : (mergeRun [.agentPut "b" [121] [2]]).map
      (fun es => decide ((es.2.1.get [120]).1 = es.1.state.get [120])) = some true := by
    decide +kernel
  rw [hrun, Option.map_some, Option.some_inj, decide_eq_true_eq] at hsame
  refine ⟨e₀, _, e', hrun, ?_⟩
  refine (@merge_untouched_iff "b" [120] storedCodec e₀ e₁ e' id n hcreate _ ?_ hmerge).mpr
    (.inr hsame)
  intro c hc
  rw [List.mem_singleton.mp hc]
  exact fun _ => by decide

/-- Two agents edit different keys.  The second merge writes the first agent's key
back to its value at the creation of the branch. -/
theorem merge_reverts :
    ¬∀ (b : String) (k : Bytes) (e₀ e₁ e₂ : Engine) (id : String) (n : ℕ) (cs : List Call),
      branchCreate b "" e₀ = .ok id e₁ → (∀ c ∈ cs, c.Spares b k) →
      @branchMerge storedCodec b (@after storedCodec e₁ cs) = .ok n e₂ →
      (e₂.get k).1 = ((@after storedCodec e₁ cs).get k).1 := by
  intro h
  obtain ⟨e₀, e₁, id, e, n, e', hrun, hcreate, rfl, hmerge⟩ := @exists_of_mergeRun
    [.agentPut "a" [120] [1], .agentPut "b" [121] [2], .branchMerge "a"] (by decide +kernel)
  have hspares : ∀ c ∈ [Call.agentPut "a" [120] [1], .agentPut "b" [121] [2], .branchMerge "a"],
      c.Spares "b" [120] := by
    simp [Call.Spares]
  have hget := h "b" [120] e₀ e₁ e' id n _ hcreate hspares hmerge
  have hvalues : (mergeRun [.agentPut "a" [120] [1], .agentPut "b" [121] [2],
      .branchMerge "a"]).map (fun es => ((es.2.1.get [120]).1, (es.2.2.get [120]).1))
        = some (some [1], some [0]) := by
    decide +kernel
  rw [hrun, Option.map_some, Option.some_inj, Prod.mk.injEq, hget] at hvalues
  exact absurd (hvalues.1.symm.trans hvalues.2) (by decide)

end Engine

end Uldb
