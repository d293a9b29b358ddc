/-
Comparing a branch with the live state (`Engine::branch_diff`).

The first loop goes over the pairs of the branch, the second one over those of the live
trie.  A key that both have is compared in the first loop only, and no trie lists a key
twice, so every difference is reported once.

* `branchDiff_spec` — the entries are the keys on which the two maps differ.
-/
import Uldb.Replay
import Uldb.StoredCodec

namespace Uldb

open Fallible

/-- An entry of a diff: a key, its live value and its value in the branch. -/
abbrev DiffEntry := Bytes × Option Bytes × Option Bytes

namespace Hamt

variable {live branch : Hamt}

/-- The first loop of a diff, over the pairs of the branch. -/
def changed (live branch : Hamt) : List DiffEntry :=
  branch.iter.filterMap fun kv =>
    if live.get kv.1 = some kv.2 then none else some (kv.1, live.get kv.1, some kv.2)

/-- The second loop of a diff, over the pairs of the live trie. -/
def removed (live branch : Hamt) : List DiffEntry :=
  live.iter.filterMap fun kv =>
    if (branch.get kv.1).isNone then some (kv.1, some kv.2, none) else none

theorem mem_changed {k : Bytes} {old new : Option Bytes} :
    (k, old, new) ∈ changed live branch ↔
      new.isSome ∧ old = live.get k ∧ new = branch.get k ∧ old ≠ new := by
  rw [changed, List.mem_filterMap]
  constructor
  · rintro ⟨⟨key, value⟩, hkv, h⟩
    rw [branch.mem_iter_iff] at hkv
    split at h
    · exact absurd h (by simp)
    · rename_i hne
      obtain ⟨rfl, rfl, rfl⟩ := (by simpa using h : key = k ∧ live.get key = old ∧ some value = new)
      exact ⟨rfl, rfl, hkv.symm, hne⟩
  · rintro ⟨hsome, rfl, rfl, hne⟩
    obtain ⟨value, hvalue⟩ := Option.isSome_iff_exists.mp hsome
    refine ⟨(k, value), branch.mem_iter_iff.mpr hvalue, ?_⟩
    rw [hvalue] at hne ⊢
    exact if_neg hne

theorem mem_removed {k : Bytes} {old new : Option Bytes} :
    (k, old, new) ∈ removed live branch ↔
      new.isSome = false ∧ old = live.get k ∧ new = branch.get k ∧ old ≠ new := by
  rw [removed, List.mem_filterMap]
  constructor
  · rintro ⟨⟨key, value⟩, hkv, h⟩
    rw [live.mem_iter_iff] at hkv
    split at h
    · rename_i hnone
      obtain ⟨rfl, rfl, rfl⟩ := (by simpa using h : key = k ∧ some value = old ∧ none = new)
      exact ⟨rfl, hkv.symm, (Option.isNone_iff_eq_none.mp hnone).symm, by simp⟩
    · exact absurd h (by simp)
  · rintro ⟨hnone, rfl, rfl, hne⟩
    have hbranch : branch.get k = none := by simpa using hnone
    rw [hbranch] at hne ⊢
    obtain ⟨value, hvalue⟩ := Option.ne_none_iff_exists'.mp hne
    refine ⟨(k, value), live.mem_iter_iff.mpr hvalue, ?_⟩
    rw [hvalue]
    exact if_pos (by simp [hbranch])

/-- The keys of a loop over a trie come from its pairs, each once. -/
theorem nodup_keys_filterMap (h : Hamt) {f : Bytes × Bytes → Option DiffEntry}
    (hf : ∀ kv entry, f kv = some entry → entry.1 = kv.1) :
    ((h.iter.filterMap f).map Prod.fst).Nodup := by
  have hkeys : ((h.iter.filterMap f).map Prod.fst).Sublist (h.iter.map Prod.fst) := by
    rw [List.map_filterMap]
    induction h.iter with
    | nil => exact List.Sublist.refl _
    | cons kv pairs ih =>
      rw [List.map_cons]
      cases hkv : f kv with
      | none =>
        rw [List.filterMap_cons_none (by rw [hkv]; rfl)]
        exact ih.cons _
      | some entry =>
        rw [List.filterMap_cons_some (by rw [hkv]; rfl), hf kv entry hkv]
        exact ih.cons_cons _
  exact h.iter_keys_nodup.sublist hkeys

theorem nodup_keys_diff : ((changed live branch ++ removed live branch).map Prod.fst).Nodup := by
  rw [List.map_append]
  refine List.Nodup.append ?_ ?_ ?_
  · refine branch.nodup_keys_filterMap fun kv entry h => ?_
    split at h
    · exact absurd h (by simp)
    · rw [← Option.some_inj.mp h]
  · refine live.nodup_keys_filterMap fun kv entry h => ?_
    split at h
    · rw [← Option.some_inj.mp h]
    · exact absurd h (by simp)
  · -- the branch has a value for the keys of the first loop, and none for those of the second
    intro k hchanged hremoved
    obtain ⟨⟨_, old, new⟩, hentry, rfl⟩ := List.mem_map.mp hchanged
    obtain ⟨⟨_, old', new'⟩, hentry', rfl⟩ := List.mem_map.mp hremoved
    obtain ⟨hsome, _, hnew, _⟩ := mem_changed.mp hentry
    obtain ⟨hnone, _, hnew', _⟩ := mem_removed.mp hentry'
    rw [hnew, ← hnew', hnone] at hsome
    exact absurd hsome (by simp)

theorem mem_diff {k : Bytes} {old new : Option Bytes} :
    (k, old, new) ∈ changed live branch ++ removed live branch ↔
      old = live.get k ∧ new = branch.get k ∧ old ≠ new := by
  rw [List.mem_append, mem_changed, mem_removed, ← or_and_right]
  cases new <;> simp

end Hamt

namespace Engine

/-- **A diff lists the differences**: one entry for each key on which the branch and the live
state differ, with the two values, and no other entry. -/
theorem branchDiff_spec {e : Engine} {b : String} {branch : Hamt}
    (hb : e.snapshots[b]? = some branch) :
    ∃ diffs, e.branchDiff b = .ok diffs ∧ (diffs.map Prod.fst).Nodup ∧
      (∀ k old new, (k, old, new) ∈ diffs ↔
        old = e.state.get k ∧ new = branch.get k ∧ old ≠ new) ∧
      (diffs = [] ↔ ∀ k, e.state.get k = branch.get k) := by
  refine ⟨Hamt.changed e.state branch ++ Hamt.removed e.state branch, ?_, Hamt.nodup_keys_diff,
    fun k old new => Hamt.mem_diff, ?_⟩
  · rw [branchDiff, hb]
    rfl
  · rw [List.eq_nil_iff_forall_not_mem]
    constructor
    · intro h k
      by_contra hne
      exact h (k, _, _) (Hamt.mem_diff.mpr ⟨rfl, rfl, hne⟩)
    · rintro h ⟨k, old, new⟩ hmem
      obtain ⟨rfl, rfl, hne⟩ := Hamt.mem_diff.mp hmem
      exact hne (h k)

/-- A branch of two keys, and then one of them changed, one deleted and another one added on
the live state. -/
def diffRun : Option Engine :=
  @openRun storedCodec 1000 ∅ none [.put [97] [1], .put [98] [1], .branchCreate "b" "",
    .put [97] [2], .delete [98], .put [99] [3]]

theorem branchDiff_three : ∃ e diffs, diffRun = some e ∧ e.branchDiff "b" = .ok diffs ∧
    ([97], some [2], some [1]) ∈ diffs ∧ ([98], none, some [1]) ∈ diffs ∧
      ([99], some [3], none) ∈ diffs := by
  have hvalues : diffRun.bind (fun e => (e.snapshots["b"]?).map fun branch =>
      ([[97], [98], [99]] : List Bytes).map fun k => (e.state.get k, branch.get k))
      = some [(some [2], some [1]), (none, some [1]), (some [3], none)] := by
    decide +kernel
  obtain ⟨e, he, hvalues⟩ := Option.bind_eq_some_iff.mp hvalues
  obtain ⟨branch, hb, hvalues⟩ := Option.map_eq_some_iff.mp hvalues
  obtain ⟨diffs, hok, _, hmem, _⟩ := branchDiff_spec hb
  simp only [List.map_cons, List.map_nil, List.cons.injEq, Prod.mk.injEq, and_true] at hvalues
  obtain ⟨⟨ha, ha'⟩, ⟨hb, hb'⟩, hc, hc'⟩ := hvalues
  exact ⟨e, diffs, he, hok, (hmem _ _ _).mpr ⟨ha.symm, ha'.symm, by simp⟩,
    (hmem _ _ _).mpr ⟨hb.symm, hb'.symm, by simp⟩, (hmem _ _ _).mpr ⟨hc.symm, hc'.symm, by simp⟩⟩

end Engine

end Uldb
