/-
Snapshots under later calls.

Named snapshots, branches and snapshots without a name share one map.  A call changes the
entry of its own name only, and a `snapshot_create` without a name that of the name that the
counter gives it, whoever chose that name before.

* `snapshot_immutable` — a snapshot keeps its values until its name is used again;
* `generated_name_taken` — the first generated name replaces a snapshot of that name.
-/
import Uldb.Branches

namespace Uldb

open Fallible

namespace Call

/-- The call is not given `s` as its own name, or only to restore it. -/
def Omits (s : String) : Call → Prop
  | snapshotCreate name => name ≠ s
  | snapshotDelete name => name ≠ s
  | branchCreate branch _ => branch ≠ s
  | branchMerge branch => branch ≠ s
  | branchRollback branch => branch ≠ s
  | agentPut name _ _ => name ≠ s
  | agentDelete name _ => name ≠ s
  | agentLoad name _ => name ≠ s
  | _ => True

/-- The call is a `snapshot_create` without a name, and the counter gives it the name `s`. -/
def Generates (s : String) (e : Engine) (c : Call) : Prop :=
  c = snapshotCreate "" ∧ Engine.snapshotId (e.snapshotCounter + 1) = s

theorem Omits.branchOps_eq_nil {s : String} {c : Call} (h : c.Omits s) : c.branchOps s = [] := by
  cases c with
  | agentPut name path content => exact if_neg h
  | agentDelete name path => exact if_neg h
  | agentLoad name records => exact if_neg h
  | _ => rfl

theorem Omits.leaves {s : String} {c : Call} (h : c.Omits s) (hc : c ≠ snapshotCreate "") :
    c.Leaves s := by
  cases c with
  | snapshotCreate name => exact ⟨fun hname => hc (by rw [hname]), h⟩
  | agentPut name path content => trivial
  | agentDelete name path => trivial
  | agentLoad name records => trivial
  | _ => exact h

end Call

namespace Engine

variable [Codec] {s : String} {e : Engine} {snap : Hamt}

/-- No call of the run generates the name `s`. -/
def Clashfree (s : String) : Engine → List Call → Prop
  | _, [] => True
  | e, c :: cs => ¬c.Generates s e ∧ Clashfree s (finalState (exec c e)) cs

/-- A call with other names leaves a snapshot alone. -/
theorem exec_snapshot {c : Call} (hc : c.Omits s) (hname : ¬c.Generates s e)
    (he : e.snapshots[s]? = some snap) : (finalState (exec c e)).snapshots[s]? = some snap := by
  by_cases hcreate : c = .snapshotCreate ""
  · have hid : snapshotId (e.snapshotCounter + 1) ≠ s := fun h => hname ⟨hcreate, h⟩
    subst hcreate
    exact (getElem?_insert_of_ne hid _ _).trans he
  · obtain ⟨snap', hsnap', hrun⟩ := exec_branch (hc.leaves hcreate) he
    have hops : opsOf s c e = [] :=
      List.eq_nil_iff_forall_not_mem.mpr fun op hop => by
        have hmem := key_of_mem_opsOf hop
        rw [hc.branchOps_eq_nil] at hmem
        exact List.not_mem_nil hmem
    rw [hops] at hrun
    rw [hsnap', ← hrun]
    rfl

theorem after_snapshot {cs : List Call} (hcs : ∀ c ∈ cs, c.Omits s) (hclash : Clashfree s e cs)
    (he : e.snapshots[s]? = some snap) : (e.after cs).snapshots[s]? = some snap := by
  induction cs generalizing e with
  | nil => exact he
  | cons c cs ih =>
    have hstep := exec_snapshot (hcs c List.mem_cons_self) hclash.1 he
    exact ih (fun c' hc' => hcs c' (List.mem_cons_of_mem _ hc')) hclash.2 hstep

omit [Codec] in
/-- A new snapshot is the live state. -/
theorem snapshotCreate_eq_ok {name id : String} {e₁ : Engine}
    (h : snapshotCreate name e = .ok id e₁) : e₁.snapshots[id]? = some e.state := by
  rw [snapshotCreate] at h
  by_cases hname : name = ""
  · rw [if_pos hname, EStateM.Result.ok.injEq] at h
    obtain ⟨rfl, rfl⟩ := h
    exact Std.TreeMap.getElem?_insert_self
  · rw [if_neg hname, EStateM.Result.ok.injEq] at h
    obtain ⟨rfl, rfl⟩ := h
    exact Std.TreeMap.getElem?_insert_self

/-- **A snapshot is immutable** as long as no call is given its name and no snapshot without
a name generates it: every read from it answers what the live state had. -/
theorem snapshot_immutable {name : String} {e₁ : Engine}
    (hcreate : snapshotCreate name e = .ok s e₁) {cs : List Call} (hcs : ∀ c ∈ cs, c.Omits s)
    (hclash : Clashfree s e₁ cs) (k : Bytes) :
    (e₁.after cs).snapshotGet s k = e.state.get k := by
  rw [snapshotGet, after_snapshot hcs hclash (snapshotCreate_eq_ok hcreate)]
  rfl

/-! ### A generated name -/

omit [Codec] in
/-- One write on an empty database, a snapshot, and calls on it: the engine before the
snapshot, and the one after the calls. -/
def snapshotRun (name : String) (cs : List Call) : Option (Engine × Engine) :=
  (@Engine.open storedCodec 1000 ∅ none []).toOption.map fun e₀ =>
    let e := @after storedCodec e₀ [.put [107] [1]]
    (e, @after storedCodec (finalState (snapshotCreate name e)) cs)

omit [Codec] in
theorem exists_of_snapshotRun {name : String} (hname : name ≠ "") (cs : List Call) :
    ∃ e₀ e₁, @Engine.open storedCodec 1000 ∅ none [] = .ok e₀ ∧
      snapshotCreate name (@after storedCodec e₀ [.put [107] [1]]) = .ok name e₁ ∧
      snapshotRun name cs
        = some (@after storedCodec e₀ [.put [107] [1]], @after storedCodec e₁ cs) := by
  have hsome : ((@Engine.open storedCodec 1000 ∅ none []).toOption).isSome = true := by
    decide +kernel
  obtain ⟨e₀, he₀⟩ := Option.isSome_iff_exists.mp hsome
  obtain ⟨e₁, hcreate⟩ : ∃ e₁,
      snapshotCreate name (@after storedCodec e₀ [.put [107] [1]]) = .ok name e₁ :=
    ⟨_, if_neg hname⟩
  refine ⟨e₀, e₁, eq_ok_of_toOption he₀, hcreate, ?_⟩
  rw [snapshotRun, he₀, Option.map_some]
  show some (_, @after storedCodec (finalState (snapshotCreate name _)) cs) = _
  rw [hcreate]
  rfl

omit [Codec] in
/-- A snapshot under a name of its own, a write and a snapshot without a name. -/
theorem snapshot_immutable_checkpoint : ∃ e e',
    snapshotRun "checkpoint" [.put [107] [2], .snapshotCreate ""] = some (e, e') ∧
      ∀ k, e'.snapshotGet "checkpoint" k = e.state.get k := by
  obtain ⟨e₀, e₁, _, hcreate, hrun⟩ :=
    exists_of_snapshotRun (by decide : "checkpoint" ≠ "") [.put [107] [2], .snapshotCreate ""]
  -- a generated name begins with an `s`
  have hname : ∀ n, snapshotId n ≠ "checkpoint" := by
    intro n hn
    have hhead := congrArg (·.toList.head?) hn
    simp [snapshotId] at hhead
  refine ⟨_, _, hrun, fun k => @snapshot_immutable storedCodec _ _ _ _ hcreate _
    (by simp [Call.Omits]) ?_ k⟩
  exact ⟨fun h => absurd h.1 (by simp), fun h => hname _ h.2, trivial⟩

omit [Codec] in
/-- A snapshot under the first generated name, a write and a snapshot without a name: the
snapshot has the value that was written after it. -/
theorem generated_name_taken :
    ¬∀ (t : ℕ) (dir : Dir) (log : Option Bytes) (e₀ e₁ : Engine) (before cs : List Call)
      (name s : String), @Engine.open storedCodec t dir log [] = .ok e₀ →
      snapshotCreate name (@after storedCodec e₀ before) = .ok s e₁ →
      (∀ c ∈ cs, c.Omits s) →
      ∀ k, (@after storedCodec e₁ cs).snapshotGet s k
        = (@after storedCodec e₀ before).state.get k := by
  intro h
  obtain ⟨e₀, e₁, hopen, hcreate, hrun⟩ :=
    exists_of_snapshotRun (by decide : "snap-0001" ≠ "") [.put [107] [2], .snapshotCreate ""]
  have hget := h _ _ _ e₀ e₁ _ [.put [107] [2], .snapshotCreate ""] _ _ hopen hcreate
    (by simp [Call.Omits]) [107]
  have hvalues : (snapshotRun "snap-0001" [.put [107] [2], .snapshotCreate ""]).map
      (fun es => (es.1.state.get [107], es.2.snapshotGet "snap-0001" [107]))
        = some (some [1], some [2]) := by
    decide +kernel
  rw [hrun, Option.map_some, Option.some_inj, Prod.mk.injEq, hget] at hvalues
  exact absurd (hvalues.1.symm.trans hvalues.2) (by decide)

end Engine

end Uldb
