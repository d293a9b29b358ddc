/-
How a call of the engine fails.

A write has its records in the log before it touches the memory.  So a write that fails with an
error has met a fault of the log, whose text it tells, and each fault is met once; that is, as
long as the worker receives.  And it panics only where two keys of the trie have one hash.

* `exec_accounted` — a write uses up the first fault of the log, or none;
* `exec_returns` — no call on records panics while the keys have different hashes.
-/
import Uldb.Lib.Faults
import Uldb.Writes

namespace Uldb

open Fallible

/-! ### Faults of the log -/

/-- The error of a write that meets the fault. -/
def WriteFault.failure (fault : WriteFault) : Failure := .error fault.msg

namespace WalWriter

/-- The faults that are still to come. -/
def faults (w : WalWriter) : List WriteFault := w.outcomes.filterMap id

/-- Writing to the log meets the first fault, or none. -/
abbrev Accounts {α : Type} (x : EStateM Failure WalWriter α) : Prop :=
  Accounted (fun _ => True) faults WriteFault.failure (fun _ => False) x

theorem modify_accounts {f : WalWriter → WalWriter} (hf : ∀ w, (f w).outcomes = w.outcomes) :
    Accounts (modify f : EStateM Failure WalWriter PUnit) := by
  refine Accounted.of_failsOnly (FailsOnly.of_ok (fun _ => rfl) fun _ _ => trivial) ?_
  refine fun fs => Keeps.modify fun w hw => ?_
  rw [faults, hf]
  exact hw

theorem writeFile_accounts (data : Bytes) : Accounts (writeFile data) := by
  rintro ⟨file, buffer, bytesWritten, recordsWritten, outcomes⟩ -
  rcases outcomes with - | ⟨- | fault, rest⟩
  · exact Accounted.at_ok trivial rfl _
  · exact Accounted.at_ok trivial rfl _
  · refine ⟨fun u w' h => absurd h (by simp [writeFile]), fun err w' h => .inr ⟨fault, ?_⟩⟩
    obtain ⟨rfl, rfl⟩ := EStateM.Result.error.inj h
    exact ⟨rfl, rfl⟩

theorem flush_accounts : Accounts flush := by
  rintro ⟨file, buffer, bytesWritten, recordsWritten, outcomes⟩ -
  by_cases hb : buffer = []
  · simp only [flush, if_pos hb]
    exact Accounted.at_ok trivial rfl _
  · rcases outcomes with - | ⟨- | fault, rest⟩
    · simp only [flush, if_neg hb]
      exact Accounted.at_ok trivial rfl _
    · simp only [flush, if_neg hb]
      exact Accounted.at_ok trivial rfl _
    · simp only [flush, if_neg hb]
      refine ⟨fun u w' h => absurd h (by simp), fun err w' h => .inr ⟨fault, ?_⟩⟩
      obtain ⟨rfl, rfl⟩ := EStateM.Result.error.inj h
      exact ⟨rfl, rfl⟩

theorem append_accounts [Codec] (r : WalRecord) : Accounts (append r) := by
  refine Accounted.bind ?_ fun _ => modify_accounts fun _ => rfl
  refine Accounted.bind ?_ fun w => ?_
  · exact Accounted.of_failsOnly (FailsOnly.of_ok (fun _ => rfl) fun _ h => h) fun _ _ h => h
  · refine Accounted.bind (Accounted.ifThen flush_accounts) fun _ => ?_
    split
    · exact writeFile_accounts _
    · exact modify_accounts fun _ => rfl

end WalWriter

namespace Engine

/-- The faults that the log is still to meet. -/
def faults (e : Engine) : List WriteFault := e.wal.faults

/-- With the worker alive, a program meets the first fault of the log, or none, or it panics. -/
abbrev Accounts {α : Type} (x : EngineM α) : Prop :=
  Accounted Alive faults WriteFault.failure (· = .panic) x

theorem onWal_accounts {x : EStateM Failure WalWriter Unit} (hx : WalWriter.Accounts x) :
    Accounts (onWal x) := by
  have hweak : Accounted (fun _ => True) WalWriter.faults WriteFault.failure (· = .panic) x :=
    fun w hw => ⟨(hx w hw).1, fun err w' h => .inr (((hx w hw).2 err w' h).resolve_left id)⟩
  exact Accounted.onPart hweak (fun _ _ => trivial) (fun _ _ he _ => he) fun _ _ => rfl

/-- A program that leaves the log. -/
theorem accounts_of_panicsOnly {α : Type} {x : EngineM α} (hx : PanicsOnly x)
    (hwal : ∀ w : WalWriter, Keeps (fun e => e.wal = w) x) : Accounts x := by
  refine Accounted.of_failsOnly hx fun fs e he => ?_
  have hkept : (finalState (x e)).wal = e.wal := hwal e.wal e rfl
  rw [← he]
  exact congrArg WalWriter.faults hkept

section

variable [Codec]

theorem appendAll_accounts (rs : List WalRecord) : Accounts (appendAll rs) :=
  Accounted.bind (onWal_accounts (Accounted.forM fun r _ => WalWriter.append_accounts r)) fun _ =>
    onWal_accounts WalWriter.flush_accounts

/-- **A write** meets the first fault of the log, or none. -/
theorem exec_accounted {c : Call} (hc : c.isWrite = true) : Accounts (exec c) := by
  -- what follows the log does not come back to it
  have hlogged : ∀ {r : WalRecord} {rest : EngineM Unit}, PanicsOnly rest →
      (∀ w : WalWriter, Keeps (fun e => e.wal = w) rest) →
      Accounts (do onWal (WalWriter.append r); onWal WalWriter.flush; rest) := by
    intro r rest hrest hwal
    refine Accounted.bind (onWal_accounts (WalWriter.append_accounts r)) fun _ => ?_
    refine Accounted.bind (onWal_accounts WalWriter.flush_accounts) fun _ => ?_
    exact accounts_of_panicsOnly hrest hwal
  have hall : ∀ {entries : List (Bytes × Bytes)}, ∀ kv ∈ entries, True := fun _ _ => trivial
  cases c with
  | put key value =>
    exact hlogged (afterLog_panicsOnly key value) fun w => (wal_memInv w).afterLog trivial
  | putProfiled key value =>
    exact hlogged (afterLogProfiled_panicsOnly key value) fun w =>
      (wal_memInv w).afterLogProfiled trivial
  | delete key =>
    exact hlogged (afterLogDelete_panicsOnly key) fun w => (wal_memInv w).afterLogDelete trivial
  | putBatch entries =>
    exact Accounted.bind (appendAll_accounts _) fun _ =>
      accounts_of_panicsOnly (afterLogBatch_panicsOnly entries) fun w =>
        (wal_memInv w).afterLogBatch hall
  | bulkIngest entries =>
    refine Accounted.bind ?_ fun _ =>
      Accounted.of_failsOnly (FailsOnly.pure _) fun _ => Keeps.pure _
    rw [bulkIngest]
    by_cases hnil : entries = []
    · rw [if_pos hnil]
      exact Accounted.of_failsOnly (FailsOnly.pure _) fun _ => Keeps.pure _
    · rw [if_neg hnil]
      exact Accounted.bind (appendAll_accounts _) fun _ =>
        accounts_of_panicsOnly (afterLogIngest_panicsOnly entries) fun w =>
          (wal_memInv w).afterLogIngest hall
  | flush => exact accounts_of_panicsOnly flush_panicsOnly fun w => (wal_memInv w).flush
  | sync => exact onWal_accounts WalWriter.flush_accounts
  | _ => exact absurd hc (by simp [Call.isWrite])

/-- A write that succeeds meets no fault. -/
theorem faults_exec_ok {c : Call} (hc : c.isWrite = true) {e e' : Engine} (halive : e.Alive)
    {u : Unit} (h : exec c e = .ok u e') : e'.faults = e.faults :=
  ((exec_accounted hc e halive).1 u e' h).2

/-- A write that fails has met the first fault. -/
theorem faults_exec_failed {c : Call} (hc : c.isWrite = true) {e e' : Engine} (halive : e.Alive)
    {msg : String} (h : exec c e = .error (.error msg) e') :
    ∃ fault, msg = fault.msg ∧ e.faults = fault :: e'.faults := by
  obtain ⟨fault, hmsg, hfaults⟩ := (exec_accounted hc).of_error halive h (by simp)
  rw [WriteFault.failure, Failure.error.injEq] at hmsg
  exact ⟨fault, hmsg, hfaults⟩

end

/-! ### Panics -/

end Engine

/-- The keys that a call puts, for calls other than a merge. -/
def Call.putKeys : Call → List Bytes
  | put key _ => [key]
  | putProfiled key _ => [key]
  | putBatch entries => entries.map Prod.fst
  | bulkIngest entries => entries.map Prod.fst
  | _ => []

/-- What is written with a value is put. -/
theorem Call.mem_putKeys {c : Call} (hbasic : c.isBasic = true) {key : Bytes} {value : Option Bytes}
    (h : c.writes key value) (hvalue : value ≠ none) : key ∈ c.putKeys := by
  cases c with
  | put key' value' => exact List.mem_singleton.mpr h.1.symm
  | putBatch entries =>
    obtain ⟨value', hmem, -⟩ := h
    exact List.mem_map_of_mem (f := Prod.fst) hmem
  | bulkIngest entries =>
    obtain ⟨value', hmem, -⟩ := h
    exact List.mem_map_of_mem (f := Prod.fst) hmem
  | delete key' => exact absurd h.2.symm hvalue
  | flush => exact absurd h id
  | get key' => exact absurd h id
  | _ => exact absurd hbasic (by simp [Call.isBasic])

namespace Engine

/-- The program can only fail with an error. -/
abbrev NeverPanics {σ α : Type} (x : EStateM Failure σ α) : Prop :=
  FailsOnly (fun _ => True) (· ≠ .panic) x

theorem flush_neverPanics : NeverPanics WalWriter.flush := by
  intro w _
  refine ⟨fun _ _ _ => trivial, fun err w' h => ?_⟩
  rw [WalWriter.flush] at h
  split at h
  · exact absurd h (by simp)
  · split at h
    · rw [EStateM.Result.error.injEq] at h
      rw [← h.1]
      simp
    · exact absurd h (by simp)

theorem writeFile_neverPanics (data : Bytes) : NeverPanics (WalWriter.writeFile data) := by
  intro w _
  refine ⟨fun _ _ _ => trivial, fun err w' h => ?_⟩
  rw [WalWriter.writeFile] at h
  split at h
  · rw [EStateM.Result.error.injEq] at h
    rw [← h.1]
    simp
  · exact absurd h (by simp)

theorem modify_neverPanics {σ : Type} (f : σ → σ) :
    NeverPanics (modify f : EStateM Failure σ PUnit) :=
  FailsOnly.of_ok (fun _ => rfl) fun _ _ => trivial

theorem append_neverPanics [Codec] (r : WalRecord) : NeverPanics (WalWriter.append r) := by
  refine FailsOnly.bind ?_ fun _ => modify_neverPanics _
  refine FailsOnly.bind (FailsOnly.of_ok (fun _ => rfl) fun _ h => h) fun w => ?_
  refine FailsOnly.bind (FailsOnly.ifThen flush_neverPanics) fun _ => ?_
  split
  · exact writeFile_neverPanics _
  · exact modify_neverPanics _

theorem onWal_neverPanics {x : EStateM Failure WalWriter Unit} (hx : NeverPanics x) :
    NeverPanics (onWal x) := by
  intro e _
  refine ⟨fun _ _ _ => trivial, fun err e' h => ?_⟩
  rw [onWal, onPart] at h
  cases hw : x e.wal with
  | ok u w =>
    rw [hw] at h
    exact absurd h (by simp)
  | error failure w =>
    rw [hw, EStateM.Result.error.injEq] at h
    rw [← h.1]
    exact (hx e.wal trivial).2 failure w hw

theorem flushMemtable_neverPanics : NeverPanics flushMemtable := by
  intro e _
  refine ⟨fun _ _ _ => trivial, fun err e' h => ?_⟩
  cases halive : e.compactor.alive with
  | true =>
    rw [flushMemtable_of_alive halive] at h
    exact absurd h (by simp)
  | false =>
    rw [flushMemtable_of_dead halive, EStateM.Result.error.injEq] at h
    rw [← h.1]
    simp

/-- A delete can fail, but it cannot panic. -/
theorem delete_neverPanics [Codec] (key : Bytes) : NeverPanics (delete key) := by
  refine FailsOnly.bind (onWal_neverPanics (append_neverPanics _)) fun _ => ?_
  refine FailsOnly.bind (onWal_neverPanics flush_neverPanics) fun _ => ?_
  refine FailsOnly.bind (FailsOnly.of_ok (fun _ => rfl) fun _ h => h) fun _ => ?_
  refine FailsOnly.bind (modify_neverPanics _) fun _ => ?_
  refine FailsOnly.bind (modify_neverPanics _) fun _ => ?_
  refine FailsOnly.bind (modify_neverPanics _) fun _ => ?_
  refine FailsOnly.bind (modify_neverPanics _) fun _ => ?_
  exact FailsOnly.ifThen flushMemtable_neverPanics

/-- The keys of the trie. -/
def StateIn (K : Set Bytes) (e : Engine) : Prop := ∀ k, (e.state.get k).isSome → k ∈ K

variable {K : Set Bytes}

theorem stateIn_memInv : MemInv (fun key value => value ≠ none → key ∈ K) (StateIn K) where
  write he _ := he
  put {e key value state} he hkey hput := by
    intro k hk
    have hget : (state.get k).isSome := hk
    rw [Hamt.get_put hput] at hget
    by_cases hkk : k = key
    · exact hkk ▸ hkey (by simp)
    · rw [if_neg hkk] at hget
      exact he k hget
  delete {e key} he _ := by
    intro k hk
    have hget : ((e.state.delete key).get k).isSome := hk
    rw [Hamt.get_delete] at hget
    by_cases hkk : k = key
    · rw [if_pos hkk] at hget
      exact absurd hget (by simp)
    · rw [if_neg hkk] at hget
      exact he k hget
  flushed he := he
  dropped he _ := he
  other _ _ _ _ _ he := he

theorem stateIn_storageInv [Codec] :
    StorageInv (fun key value => value ≠ none → key ∈ K) (StateIn K) where
  toMemInv := stateIn_memInv
  wal _ he := he
  work he := he

/-- From a trie with keys of `K`, the program leads to such a trie, and does not panic. -/
abbrev ReturnsIn {α : Type} (K : Set Bytes) (x : EngineM α) : Prop :=
  FailsOnly (StateIn K) (· ≠ .panic) x

theorem onWal_returns {x : EStateM Failure WalWriter Unit} (hx : NeverPanics x) :
    ReturnsIn K (onWal x) :=
  FailsOnly.of_keeps (onWal_neverPanics hx) (Keeps.onPart fun _ _ he => he)

theorem modify_returns {f : Engine → Engine} (hf : ∀ e, StateIn K e → StateIn K (f e)) :
    ReturnsIn K (modify f : EngineM PUnit) :=
  FailsOnly.of_ok (fun _ => rfl) hf

theorem memtablePut_returns (key value : Bytes) : ReturnsIn K (memtablePut key value) :=
  FailsOnly.of_ok (fun _ => rfl) fun _ he => he

theorem flushMemtable_returns : ReturnsIn K flushMemtable :=
  FailsOnly.of_keeps flushMemtable_neverPanics stateIn_memInv.flushMemtable

/-- An insertion returns, as no other key has its hash. -/
theorem statePut_returns (hK : Set.InjOn fnv1a K) {key : Bytes} (hkey : key ∈ K) (value : Bytes) :
    ReturnsIn K (statePut key value) := by
  intro e he
  refine ⟨fun u e' h => (stateIn_memInv.statePut fun _ => hkey).of_ok h he, fun err e' h => ?_⟩
  obtain ⟨state, hput⟩ : ∃ state, e.state.put key value = some state :=
    Hamt.put_isSome fun k hk hne heq => hne (hK (he k hk) hkey heq)
  rw [statePut, hput] at h
  exact absurd h (by simp)

theorem applyEntries_returns (hK : Set.InjOn fnv1a K) {entries : List (Bytes × Bytes)}
    (hkeys : ∀ kv ∈ entries, kv.1 ∈ K) : ReturnsIn K (applyEntries entries) := by
  induction entries with
  | nil => exact FailsOnly.pure _
  | cons kv entries ih =>
    obtain ⟨key, value⟩ := kv
    have hkey : key ∈ K := hkeys (key, value) List.mem_cons_self
    refine FailsOnly.bind (memtablePut_returns key value) fun _ => ?_
    refine FailsOnly.bind (modify_returns fun _ he => he) fun _ => ?_
    refine FailsOnly.bind (modify_returns fun _ he => he) fun _ => ?_
    refine FailsOnly.bind (statePut_returns hK hkey value) fun _ => ?_
    refine FailsOnly.bind (ih fun kv hkv => hkeys kv (List.mem_cons_of_mem _ hkv)) fun _ => ?_
    exact FailsOnly.pure _

variable [Codec]

theorem put_returns (hK : Set.InjOn fnv1a K) {key : Bytes} (hkey : key ∈ K) (value : Bytes) :
    ReturnsIn K (put key value) := by
  refine FailsOnly.bind (onWal_returns (append_neverPanics _)) fun _ => ?_
  refine FailsOnly.bind (onWal_returns flush_neverPanics) fun _ => ?_
  refine FailsOnly.bind (memtablePut_returns key value) fun _ => ?_
  refine FailsOnly.bind (modify_returns fun _ he => he) fun _ => ?_
  refine FailsOnly.bind (modify_returns fun _ he => he) fun _ => ?_
  refine FailsOnly.bind (modify_returns fun _ he => he) fun _ => ?_
  refine FailsOnly.bind (statePut_returns hK hkey value) fun _ => ?_
  exact FailsOnly.ifThen flushMemtable_returns

theorem delete_returns (key : Bytes) : ReturnsIn K (delete key) := by
  refine FailsOnly.of_keeps (delete_neverPanics key) ?_
  refine Keeps.bind (Keeps.onPart fun _ _ he => he) fun _ => ?_
  refine Keeps.bind (Keeps.onPart fun _ _ he => he) fun _ => ?_
  exact stateIn_memInv.afterLogDelete fun h => absurd rfl h

theorem appendAll_returns (rs : List WalRecord) : ReturnsIn K (appendAll rs) :=
  FailsOnly.bind (onWal_returns (FailsOnly.forM fun r _ => append_neverPanics r)) fun _ =>
    onWal_returns flush_neverPanics

theorem putBatch_returns (hK : Set.InjOn fnv1a K) {entries : List (Bytes × Bytes)}
    (hkeys : ∀ kv ∈ entries, kv.1 ∈ K) : ReturnsIn K (putBatch entries) := by
  refine FailsOnly.bind (appendAll_returns _) fun _ => ?_
  refine FailsOnly.bind (modify_returns fun _ he => he) fun _ => ?_
  refine FailsOnly.bind (applyEntries_returns hK hkeys) fun _ => ?_
  exact FailsOnly.ifThen flushMemtable_returns

theorem bulkIngest_returns (hK : Set.InjOn fnv1a K) {entries : List (Bytes × Bytes)}
    (hkeys : ∀ kv ∈ entries, kv.1 ∈ K) : ReturnsIn K (bulkIngest entries) := by
  rw [bulkIngest]
  by_cases hnil : entries = []
  · rw [if_pos hnil]
    exact FailsOnly.pure _
  · rw [if_neg hnil]
    refine FailsOnly.bind (appendAll_returns _) fun _ => ?_
    refine FailsOnly.bind (modify_returns fun _ he => he) fun _ => ?_
    refine FailsOnly.bind (applyEntries_returns hK hkeys) fun _ => ?_
    refine FailsOnly.bind (FailsOnly.of_ok (fun _ => rfl) fun _ he => he) fun _ => ?_
    exact FailsOnly.bind (FailsOnly.ifThen flushMemtable_returns) fun _ => FailsOnly.pure _

omit [Codec] in
theorem flush_returns : ReturnsIn K flush :=
  FailsOnly.bind (FailsOnly.of_ok (fun _ => rfl) fun _ he => he) fun _ =>
    FailsOnly.ifThen flushMemtable_returns

/-- **No call on records panics** while the keys that it puts, and those of the trie, have
different hashes. -/
theorem exec_returns (hK : Set.InjOn fnv1a K) {c : Call} (hbasic : c.isBasic = true)
    (hkeys : ∀ k ∈ c.putKeys, k ∈ K) : ReturnsIn K (exec c) := by
  cases c with
  | put key value => exact put_returns hK (hkeys key List.mem_cons_self) value
  | delete key => exact delete_returns key
  | putBatch entries =>
    exact putBatch_returns hK fun kv hkv => hkeys kv.1 (List.mem_map_of_mem hkv)
  | bulkIngest entries =>
    refine FailsOnly.bind (bulkIngest_returns hK fun kv hkv => ?_) fun _ => FailsOnly.pure _
    exact hkeys kv.1 (List.mem_map_of_mem hkv)
  | flush => exact flush_returns
  | get key =>
    refine modify_returns fun e he => ?_
    obtain ⟨cache, heq⟩ := get_frame e key
    rw [heq]
    exact he
  | _ => exact absurd hbasic (by simp [Call.isBasic])

/-- A call adds the keys that it puts. -/
theorem exec_stateIn {c : Call} (hbasic : c.isBasic = true) (hkeys : ∀ k ∈ c.putKeys, k ∈ K) :
    Keeps (StateIn K) (exec c) := by
  have hs : c.onSnapshots = false ∧ c.isMerge = false := by
    cases c with
    | put | putBatch | bulkIngest | delete | flush | get => exact ⟨rfl, rfl⟩
    | _ => exact absurd hbasic (by simp [Call.isBasic])
  exact exec_storage stateIn_storageInv hs.1 hs.2 fun k v hwrites hv =>
    hkeys k (Call.mem_putKeys hbasic hwrites hv)

end Engine

end Uldb
