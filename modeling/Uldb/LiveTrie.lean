/-
The live trie and the indices beside the records (`Engine::state`, `engine.rs`).

Every write stores its entries in the memtable and in the trie, and shows them to the indices.
Transactions read the trie, and validate against it.

* `state_exec_ok` — after a write the trie has its entries;
* `indices_exec_ok` — and the indices have seen them;
* `kept_exec_failed` — a write that fails with an error leaves both;
* `snapshots_exec` — no call on records touches the snapshots.
-/
import Uldb.BatchWrites
import Uldb.IndexReplay
import Uldb.Reference

namespace Uldb

open Fallible

theorem Hamt.get_putAll {h h' : Hamt} {entries : List (Bytes × Bytes)}
    (hput : h.putAll entries = some h') (k : Bytes) :
    h'.get k = (lastWrite (Engine.batchEntries entries) k).getD (h.get k) := by
  have hrun : h.run (entries.map fun kv => .put kv.1 kv.2) = some h' := by
    rw [Hamt.run, List.foldlM_map]
    exact hput
  rw [Hamt.get_run hrun, List.map_map]
  rfl

namespace Engine

section

variable [Codec] {e e' : Engine} {c : Call}

/-- **The trie after a write.** -/
theorem state_exec_ok (hc : c.isWrite = true) (hbasic : c.isBasic = true) {u : Unit}
    (h : exec c e = .ok u e') (k : Bytes) :
    e'.state.get k = (lastWrite c.entries k).getD (e.state.get k) := by
  have hop : ∀ op : TxOp, exec op.call e = .ok u e' →
      e'.state.get k = (lastWrite [op.write] k).getD (e.state.get k) := by
    intro op hexec
    have hrun : e.run ([op].map TxOp.call) = some e' := by
      rw [List.map_singleton, run_cons, hexec]
      rfl
    rw [get_run hrun, List.map_singleton]
  cases c with
  | put key value => exact hop (.put key value) h
  | delete key => exact hop (.delete key) h
  | putBatch entries => exact Hamt.get_putAll (putBatch_ingested h).state k
  | bulkIngest entries => exact Hamt.get_putAll (bulkIngest_ingested h).state k
  | flush =>
    simp only [exec, flush, bind_eq_ok] at h
    obtain ⟨_, _, hget, h⟩ := h
    obtain ⟨rfl, rfl⟩ := get_eq_ok.mp hget
    rw [(flushes_of_ifThen h).state]
    rfl
  | get key => exact absurd hc (by simp [Call.isWrite])
  | _ => exact absurd hbasic (by simp [Call.isBasic])

/-- **The indices after a write.** -/
theorem indices_exec_ok (hc : c.isWrite = true) (hbasic : c.isBasic = true) {u : Unit}
    (h : exec c e = .ok u e') :
    e'.indices = c.entries.foldl IndexManager.onWrite e.indices := by
  have hpairs : ∀ entries : List (Bytes × Bytes), e.indices.onPutAll entries
      = (batchEntries entries).foldl IndexManager.onWrite e.indices := by
    intro entries
    rw [batchEntries, List.foldl_map]
    rfl
  cases c with
  | put key value => exact exec_indices rfl h
  | delete key => exact exec_indices rfl h
  | putBatch entries => exact (putBatch_ingested h).indices.trans (hpairs entries)
  | bulkIngest entries => exact (bulkIngest_ingested h).indices.trans (hpairs entries)
  | flush =>
    simp only [exec, flush, bind_eq_ok] at h
    obtain ⟨_, _, hget, h⟩ := h
    obtain ⟨rfl, rfl⟩ := get_eq_ok.mp hget
    exact indices_of_flushes (flushes_of_ifThen h)
  | get key => exact absurd hc (by simp [Call.isWrite])
  | _ => exact absurd hbasic (by simp [Call.isBasic])

omit [Codec] in
/-- A program that first works on the log and can only panic afterwards: if it fails with an
error, then the trie and the indices are not changed. -/
theorem kept_of_failed {α : Type} {x y : EStateM Failure WalWriter Unit} {rest : EngineM α}
    (hrest : PanicsOnly rest) (halive : Alive e) {msg : String}
    (h : (do onWal x; onWal y; rest : EngineM α) e = .error (.error msg) e') :
    e'.state = e.state ∧ e'.indices = e.indices := by
  have hwal : ∀ {z : EStateM Failure WalWriter Unit},
      Keeps (fun t => (t.state = e.state ∧ t.indices = e.indices) ∧ Alive t) (onWal z) :=
    Keeps.onPart fun _ _ ht => ht
  rcases bind_eq_error.mp h with h | ⟨_, e₁, hx, h⟩
  · have hfinal := hwal (z := x) e ⟨⟨rfl, rfl⟩, halive⟩
    rw [h] at hfinal
    exact hfinal.1
  · have h₁ := (hwal (z := x)).of_ok hx ⟨⟨rfl, rfl⟩, halive⟩
    rcases bind_eq_error.mp h with h | ⟨_, e₂, hy, h⟩
    · have hfinal := hwal (z := y) e₁ h₁
      rw [h] at hfinal
      exact hfinal.1
    · have h₂ := (hwal (z := y)).of_ok hy h₁
      exact absurd ((hrest e₂ h₂.2).2 _ _ h) (by simp)

/-- **A write that fails with an error** leaves the trie and the indices, while the worker is
alive. -/
theorem kept_exec_failed (hc : c.isWrite = true) (hbasic : c.isBasic = true) (halive : Alive e)
    {msg : String} (h : exec c e = .error (.error msg) e') :
    e'.state = e.state ∧ e'.indices = e.indices := by
  cases c with
  | put key value => exact kept_of_failed (afterLog_panicsOnly key value) halive h
  | delete key => exact kept_of_failed (afterLogDelete_panicsOnly key) halive h
  | putBatch entries =>
    simp only [exec, putBatch, appendAll, bind_assoc] at h
    exact kept_of_failed (afterLogBatch_panicsOnly entries) halive h
  | bulkIngest entries =>
    rcases bind_eq_error.mp h with h | ⟨_, _, _, h⟩
    · rw [bulkIngest] at h
      by_cases hnil : entries = []
      · rw [if_pos hnil] at h
        exact absurd h (by simp [pure, EStateM.pure])
      · simp only [if_neg hnil, appendAll, bind_assoc] at h
        exact kept_of_failed (afterLogIngest_panicsOnly entries) halive h
    · exact absurd h (by simp [pure, EStateM.pure])
  | flush => exact absurd ((flush_panicsOnly e halive).2 _ _ h) (by simp)
  | get key => exact absurd hc (by simp [Call.isWrite])
  | _ => exact absurd hbasic (by simp [Call.isBasic])

/-- A call on records leaves the snapshots, whether it succeeds or fails. -/
theorem snapshots_exec (hbasic : c.isBasic = true) (e : Engine) :
    (finalState (exec c e)).snapshots = e.snapshots ∧
      (finalState (exec c e)).snapshotCounter = e.snapshotCounter := by
  have hI : StorageInv (fun _ _ => True) fun t : Engine =>
      t.snapshots = e.snapshots ∧ t.snapshotCounter = e.snapshotCounter :=
    { write := fun ht _ => ht
      put := fun ht _ _ => ht
      delete := fun ht _ => ht
      flushed := fun ht => ht
      dropped := fun ht _ => ht
      other := fun _ _ _ _ _ ht => ht
      wal := fun _ ht => ht
      work := fun ht => ht }
  have hs : c.onSnapshots = false ∧ c.isMerge = false := by
    cases c with
    | put | putBatch | bulkIngest | delete | flush | get => exact ⟨rfl, rfl⟩
    | _ => exact absurd hbasic (by simp [Call.isBasic])
  exact exec_storage hI hs.1 hs.2 (fun _ _ _ => trivial) e ⟨rfl, rfl⟩

/-- No snapshot is kept over a restart. -/
theorem snapshots_of_open {t : ℕ} {dir : Dir} {log : Option Bytes}
    {outcomes : List (Option WriteFault)} (h : Engine.open t dir log outcomes = .ok e) :
    e.snapshots = ∅ ∧ e.snapshotCounter = 0 := by
  rw [Engine.open] at h
  cases hload : PageStore.loadAll dir with
  | error failure =>
    rw [hload] at h
    exact absurd h (by simp [bind, Except.bind])
  | ok compaction =>
    rw [hload] at h
    simp only [bind, Except.bind] at h
    split at h
    · exact absurd h (by simp)
    · rw [Except.ok.injEq] at h
      subst h
      exact ⟨rfl, rfl⟩

end

end Engine

end Uldb
