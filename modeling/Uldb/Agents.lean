/-
What an agent reads, and what it leaves on main.

An agent works on a copy of the live state, and its delete removes the key from the
copy.  A key that the copy does not have can have been deleted by the agent, or never
have been there: neither the reads of the agent nor the merge tell these apart.

* `agentGet_iff` — the agent reads its view, except for the keys that its view does
  not have and main has;
* `merge_conveys_iff` — a merge conveys all puts, and no deletes: a deleted key is
  absent afterwards exactly if it was absent on main already.
-/
import Uldb.Branches

namespace Uldb

open Fallible

namespace Engine

variable [Codec] {b : String} {e₀ e₁ e₂ : Engine} {id : String} {cs : List Call}

/-! ### Reads of an agent -/

/-- What the agent should read: the state at its creation under its own updates. -/
def view (base : Hamt) (ops : List HamtOp) (k : Bytes) : Option Bytes :=
  (lastWrite (ops.map HamtOp.write) k).getD (base.get k)

theorem branchHas_view (hcreate : branchCreate b "" e₀ = .ok id e₁)
    (hcs : ∀ c ∈ cs, c.Leaves b) (k : Bytes) :
    (e₁.after cs).BranchHas b k (view e₀.state (branchOps b e₁ cs) k) :=
  (branchHas_of_create hcreate).after hcs

omit [Codec] in
theorem agentGet_fst {e : Engine} {k : Bytes} {v : Option Bytes} (he : e.BranchHas b k v) :
    (e.agentGet b k).1 = v.or (e.get k).1 := by
  obtain ⟨branch, hbranch, rfl⟩ := he
  rw [agentGet, snapshotGet, hbranch, Option.bind_some]
  cases branch.get k <;> rfl

/-- **Isolated reads.**  An agent is created; then come any calls on main and on other
branches, and calls of the agent.  It reads its own view for every key exactly if main has
none of the keys that are absent from the view. -/
theorem agentGet_iff (hcreate : branchCreate b "" e₀ = .ok id e₁)
    (hcs : ∀ c ∈ cs, c.Leaves b) :
    (∀ k, ((e₁.after cs).agentGet b k).1 = view e₀.state (branchOps b e₁ cs) k) ↔
      ∀ k, view e₀.state (branchOps b e₁ cs) k = none → ((e₁.after cs).get k).1 = none := by
  refine forall_congr' fun k => ?_
  rw [agentGet_fst (branchHas_view hcreate hcs k)]
  cases view e₀.state (branchOps b e₁ cs) k with
  | none => simp
  | some v => simp

omit [Codec] in
/-- A read finds nothing for a key without an entry, where nothing was flushed or cached. -/
theorem get_eq_none {e : Engine} {k : Bytes} (hfrozen : e.frozen = [])
    (hcache : e.cache.isEmpty = true) (hpages : e.compactor.compaction.allPages = [])
    (hk : e.memtable.getEntry k = none) : (e.get k).1 = none := by
  have hlevels := CompactionManager.get_of_isEmpty (List.isEmpty_iff.mpr hpages) k
  rw [get_fst, hk, below, hfrozen, LruCache.lookup_of_isEmpty hcache, hlevels]
  rfl

omit [Codec] in
/-- Two keys on main, then an agent: what holds of the engines before and after its
creation. -/
def agentRun (P : Engine → Engine → Prop) [∀ e₀ e₁, Decidable (P e₀ e₁)] : Option Bool :=
  (@openRun storedCodec 1000 ∅ none [.put [120] [0], .put [121] [0]]).map fun e₀ =>
    decide (P e₀ (finalState (branchCreate "b" "" e₀)))

omit [Codec] in
theorem exists_of_agentRun {P : Engine → Engine → Prop} [∀ e₀ e₁, Decidable (P e₀ e₁)]
    (h : agentRun P = some true) :
    ∃ e₀ e₁, branchCreate "b" "" e₀ = .ok "b" e₁ ∧ P e₀ e₁ := by
  obtain ⟨e₀, _, hP⟩ := Option.map_eq_some_iff.mp h
  exact ⟨e₀, finalState (branchCreate "b" "" e₀), rfl, of_decide_eq_true hP⟩

/-- The agent loads a new key, and main changes another one. -/
def loadAndPut : List Call := [.agentLoad "b" [([122], [1])], .put [120] [9]]

omit [Codec] in
/-- The agent reads its view. -/
theorem agentGet_isolated : ∃ e₀ e₁, branchCreate "b" "" e₀ = .ok "b" e₁ ∧
    ∀ k, ((@after storedCodec e₁ loadAndPut).agentGet "b" k).1
      = view e₀.state (@branchOps storedCodec "b" e₁ loadAndPut) k := by
  obtain ⟨e₀, e₁, hcreate, ⟨hops, hfirst, hsecond⟩, hentries, hfrozen, hcache, hpages⟩ :=
    exists_of_agentRun (P := fun e₀ e₁ =>
      ((@branchOps storedCodec "b" e₁ loadAndPut).map HamtOp.write = [([122], some [1])] ∧
        e₀.state.get [120] = some [0] ∧ e₀.state.get [121] = some [0]) ∧
      (@after storedCodec e₁ loadAndPut).memtable.entries.toList.map (·.1) = [[120], [121]] ∧
      (@after storedCodec e₁ loadAndPut).frozen.isEmpty = true ∧
      (@after storedCodec e₁ loadAndPut).cache.isEmpty = true ∧
      (@after storedCodec e₁ loadAndPut).compactor.compaction.allPages.isEmpty = true)
    (by decide +kernel)
  refine ⟨e₀, e₁, hcreate, (@agentGet_iff storedCodec _ _ _ _ _ hcreate
    (by simp [loadAndPut, Call.Leaves])).mpr fun k hview => ?_⟩
  refine get_eq_none (List.isEmpty_iff.mp hfrozen) hcache (List.isEmpty_iff.mp hpages) ?_
  cases hentry : (@after storedCodec e₁ loadAndPut).memtable.getEntry k with
  | none => rfl
  | some entry =>
    -- the keys with an entry are in the state at the creation
    have hmem : k ∈ [[120], [121]] := by
      rw [← hentries]
      exact List.mem_map_of_mem (Std.TreeMap.mem_toList_iff_getElem?_eq_some.mpr hentry)
    rw [view, hops, lastWrite_singleton] at hview
    rcases List.mem_cons.mp hmem with rfl | hmem
    · rw [if_neg (by decide), Option.getD_none, hfirst] at hview
      exact absurd hview (by simp)
    · rw [List.mem_singleton.mp hmem, if_neg (by decide), Option.getD_none, hsecond] at hview
      exact absurd hview (by simp)

omit [Codec] in
/-- The agent deletes a key of main, and reads it from main. -/
theorem agentGet_deleted :
    ¬∀ (b : String) (e₀ e₁ : Engine) (id : String) (cs : List Call),
      branchCreate b "" e₀ = .ok id e₁ → (∀ c ∈ cs, c.Leaves b) →
      ∀ k, ((@after storedCodec e₁ cs).agentGet b k).1
        = view e₀.state (@branchOps storedCodec b e₁ cs) k := by
  intro h
  obtain ⟨e₀, e₁, hcreate, hread, hview⟩ := exists_of_agentRun (P := fun e₀ e₁ =>
      ((@after storedCodec e₁ [.agentDelete "b" [120]]).agentGet "b" [120]).1 = some [0] ∧
        view e₀.state (@branchOps storedCodec "b" e₁ [.agentDelete "b" [120]]) [120] = none)
    (by decide +kernel)
  have heq := h "b" e₀ e₁ "b" [.agentDelete "b" [120]] hcreate (by simp [Call.Leaves]) [120]
  rw [hread, hview] at heq
  exact absurd heq (by simp)

/-! ### The merge -/

/-- Main has what the updates have left: the values of the keys that were put last, and
nothing for the keys that were deleted last. -/
structure Conveyed (ops : List HamtOp) (e : Engine) : Prop where
  put : ∀ k v, lastWrite (ops.map HamtOp.write) k = some (some v) →
    (e.get k).1 = some v ∧ e.state.get k = some v
  delete : ∀ k, lastWrite (ops.map HamtOp.write) k = some none →
    (e.get k).1 = none ∧ e.state.get k = none

/-- **A merge conveys the updates of its branch** exactly if every key that was deleted
last in the branch is absent from main right before the merge. -/
theorem merge_conveys_iff (hcreate : branchCreate b "" e₀ = .ok id e₁)
    (hcs : ∀ c ∈ cs, c.Leaves b) {n : ℕ} (hmerge : branchMerge b (e₁.after cs) = .ok n e₂) :
    Conveyed (branchOps b e₁ cs) e₂ ↔
      ∀ k, lastWrite ((branchOps b e₁ cs).map HamtOp.write) k = some none →
        ((e₁.after cs).get k).1 = none ∧ (e₁.after cs).state.get k = none := by
  have hget : ∀ k, (e₂.get k).1
      = (view e₀.state (branchOps b e₁ cs) k).or ((e₁.after cs).get k).1 :=
    fun k => merge_spec (branchHas_view hcreate hcs k) hmerge
  have hstate : ∀ k, e₂.state.get k
      = (view e₀.state (branchOps b e₁ cs) k).or ((e₁.after cs).state.get k) :=
    fun k => merge_state (branchHas_view hcreate hcs k) hmerge
  have hdeleted : ∀ k, lastWrite ((branchOps b e₁ cs).map HamtOp.write) k = some none →
      view e₀.state (branchOps b e₁ cs) k = none := by
    intro k hk
    rw [view, hk]
    rfl
  constructor
  · intro h k hk
    have habsent := h.delete k hk
    rw [hget, hstate, hdeleted k hk] at habsent
    exact habsent
  · intro h
    refine ⟨fun k v hk => ?_, fun k hk => ?_⟩
    · have hview : view e₀.state (branchOps b e₁ cs) k = some v := by
        rw [view, hk]
        rfl
      rw [hget, hstate, hview]
      exact ⟨rfl, rfl⟩
    · rw [hget, hstate, hdeleted k hk]
      exact h k hk

/-- The agent deletes a key that main deletes as well, and puts another one. -/
def deleteOnBoth : List Call :=
  [.agentDelete "b" [120], .delete [120], .agentPut "b" [121] [2]]

omit [Codec] in
/-- The merge conveys the put, and the deleted key is absent. -/
theorem merge_conveys_deleted_on_both : ∃ e₀ e₁ n e₂, branchCreate "b" "" e₀ = .ok "b" e₁ ∧
    @branchMerge storedCodec "b" (@after storedCodec e₁ deleteOnBoth) = .ok n e₂ ∧
    Conveyed (@branchOps storedCodec "b" e₁ deleteOnBoth) e₂ := by
  obtain ⟨e₀, e₁, hcreate, hops, hsome, hget, hstate⟩ := exists_of_agentRun
    (P := fun _ e₁ =>
      (@branchOps storedCodec "b" e₁ deleteOnBoth).map HamtOp.write
        = [([120], none), ([121], some [2])] ∧
      (success (@branchMerge storedCodec "b" (@after storedCodec e₁ deleteOnBoth))).isSome = true ∧
      ((@after storedCodec e₁ deleteOnBoth).get [120]).1 = none ∧
      (@after storedCodec e₁ deleteOnBoth).state.get [120] = none)
    (by decide +kernel)
  obtain ⟨e₂, hsome⟩ := Option.isSome_iff_exists.mp hsome
  obtain ⟨n, hmerge⟩ := success_eq_some hsome
  refine ⟨e₀, e₁, n, e₂, hcreate, hmerge, (@merge_conveys_iff storedCodec _ _ _ _ _ _ hcreate
    (by simp [deleteOnBoth, Call.Leaves]) _ hmerge).mpr fun k hk => ?_⟩
  -- the only key that was deleted last
  obtain rfl : k = [120] := by
    have hsplit : [([120], none), ([121], some [2])]
        = ([([120], none)] ++ [([121], some [2])] : List (Bytes × Option Bytes)) := rfl
    rw [hops, hsplit, lastWrite_append, lastWrite_singleton, lastWrite_singleton] at hk
    by_cases hput : [121] = k
    · rw [if_pos hput] at hk
      exact absurd hk (by simp)
    · by_cases hdelete : [120] = k
      · exact hdelete.symm
      · rw [if_neg hput, if_neg hdelete] at hk
        exact absurd hk (by simp)
  exact ⟨hget, hstate⟩

omit [Codec] in
/-- The agent deletes a key of main and finishes: the key is still there. -/
theorem merge_keeps_deleted :
    ¬∀ (b : String) (e₀ e₁ e₂ : Engine) (id : String) (n : ℕ) (cs : List Call),
      branchCreate b "" e₀ = .ok id e₁ → (∀ c ∈ cs, c.Leaves b) →
      @branchMerge storedCodec b (@after storedCodec e₁ cs) = .ok n e₂ →
      Conveyed (@branchOps storedCodec b e₁ cs) e₂ := by
  intro h
  obtain ⟨e₀, e₁, hcreate, hlast, hread⟩ := exists_of_agentRun (P := fun _ e₁ =>
      lastWrite ((@branchOps storedCodec "b" e₁ [.agentDelete "b" [120]]).map HamtOp.write) [120]
        = some none ∧
      (success (@branchMerge storedCodec "b" (@after storedCodec e₁
        [.agentDelete "b" [120]]))).map (fun e => (e.get [120]).1) = some (some [0]))
    (by decide +kernel)
  obtain ⟨e₂, hsome, hread⟩ := Option.map_eq_some_iff.mp hread
  obtain ⟨n, hmerge⟩ := success_eq_some hsome
  have hconveyed := h "b" e₀ e₁ e₂ "b" n [.agentDelete "b" [120]] hcreate
    (by simp [Call.Leaves]) hmerge
  have habsent := (hconveyed.delete [120] hlast).1
  rw [hread] at habsent
  exact absurd habsent (by simp)

end Engine

end Uldb
