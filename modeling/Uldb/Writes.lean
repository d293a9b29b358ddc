/-
What a successful write does to the memtable and the cache.

A write stores its entries in the memtable, one after the other, and drops the cached
values it knows to be stale; then it may flush (`exec_wrote`).  The trie, the indices
and the log do not matter to a read, and are left open here.

A write that fails with an error fails at the log: the memory part of a write can only
panic, as long as the worker receives (`exec_failed`).
-/
import Uldb.EngineCalls

namespace Uldb

open Fallible

/-! ### Entries -/

/-- The last value that was written to a key; no value stands for a delete. -/
def lastWrite (ws : List (Bytes × Option Bytes)) (k : Bytes) : Option (Option Bytes) :=
  (ws.reverse.find? fun w => w.1 = k).map (·.2)

theorem lastWrite_append (ws ws' : List (Bytes × Option Bytes)) (k : Bytes) :
    lastWrite (ws ++ ws') k = (lastWrite ws' k).or (lastWrite ws k) := by
  rw [lastWrite, List.reverse_append, List.find?_append, lastWrite, lastWrite]
  cases ws'.reverse.find? fun w => w.1 = k <;> rfl

theorem lastWrite_singleton (key : Bytes) (value : Option Bytes) (k : Bytes) :
    lastWrite [(key, value)] k = if key = k then some value else none := by
  by_cases hk : key = k
  · simp [lastWrite, hk]
  · simp [lastWrite, hk]

theorem lastWrite_eq_none {ws : List (Bytes × Option Bytes)} {k : Bytes} :
    lastWrite ws k = none ↔ ∀ w ∈ ws, w.1 ≠ k := by
  rw [lastWrite, Option.map_eq_none_iff, List.find?_eq_none]
  simp

/-- Store entries one after the other. -/
def Memtable.writeAll (m : Memtable) (ws : List (Bytes × Option Bytes)) : Memtable :=
  ws.foldl (fun m w => m.write w.1 w.2) m

theorem Memtable.getEntry_writeAll (m : Memtable) (ws : List (Bytes × Option Bytes)) (k : Bytes) :
    ((m.writeAll ws).getEntry k).map MemEntry.value
      = (lastWrite ws k).or ((m.getEntry k).map MemEntry.value) := by
  induction ws generalizing m with
  | nil => rfl
  | cons w ws ih =>
    have hwrite : ((m.write w.1 w.2).getEntry k).map MemEntry.value
        = (lastWrite [w] k).or ((m.getEntry k).map MemEntry.value) := by
      rw [getEntry_write, lastWrite_singleton]
      by_cases hk : w.1 = k
      · rw [if_pos hk, if_pos hk]
        rfl
      · rw [if_neg hk, if_neg hk]
        rfl
    rw [← List.singleton_append, lastWrite_append, Option.or_assoc, ← hwrite, ← ih]
    rfl

/-- The cache without the value that a write of the key makes stale. -/
def LruCache.dropped (key : Bytes) (cache : LruCache) : LruCache :=
  if cache.isEmpty then cache else cache.invalidate key

theorem LruCache.lookup_dropped {cache : LruCache} {key k v : Bytes}
    (h : (cache.dropped key).lookup k = some v) : key ≠ k ∧ cache.lookup k = some v := by
  rw [dropped] at h
  by_cases hempty : cache.isEmpty
  · rw [if_pos hempty, lookup_of_isEmpty hempty] at h
    exact absurd h (by simp)
  · rw [if_neg hempty, lookup_invalidate] at h
    by_cases hk : key = k
    · rw [if_pos hk] at h
      exact absurd h (by simp)
    · rw [if_neg hk] at h
      exact ⟨hk, h⟩

namespace Call

/-- The entries a call stores, for calls other than a merge. -/
def entries : Call → List (Bytes × Option Bytes)
  | put key value => [(key, some value)]
  | putProfiled key value => [(key, some value)]
  | delete key => [(key, none)]
  | putBatch entries => entries.map fun kv => (kv.1, some kv.2)
  | bulkIngest entries => entries.map fun kv => (kv.1, some kv.2)
  | _ => []

/-- What a write does to the cache. -/
def onCache : Call → LruCache → LruCache
  | put key _ => LruCache.dropped key
  | delete key => LruCache.dropped key
  | putBatch _ => LruCache.clear
  | bulkIngest entries => if entries = [] then id else LruCache.clear
  | _ => id

/-- A write of keys, or a flush of the memtable or the log. -/
def isWrite : Call → Bool
  | put _ _ => true
  | putProfiled _ _ => true
  | delete _ => true
  | putBatch _ => true
  | bulkIngest _ => true
  | flush => true
  | sync => true
  | _ => false

/-- A call on records. -/
def isBasic : Call → Bool
  | put _ _ => true
  | putBatch _ => true
  | bulkIngest _ => true
  | delete _ => true
  | flush => true
  | get _ => true
  | _ => false

/-- What a write leaves in the cache was there, and is not a key of the write: it drops
these, except for `putProfiled`, which must not find its key cached. -/
theorem lookup_onCache {c : Call} {cache : LruCache}
    (hc : ∀ key value, c = .putProfiled key value → cache.lookup key = none) {k v : Bytes}
    (h : (c.onCache cache).lookup k = some v) :
    lastWrite c.entries k = none ∧ cache.lookup k = some v := by
  cases c with
  | put key value =>
    obtain ⟨hk, hv⟩ := LruCache.lookup_dropped h
    rw [entries, lastWrite_singleton, if_neg hk]
    exact ⟨rfl, hv⟩
  | putProfiled key value =>
    have hv : cache.lookup k = some v := h
    have hk : key ≠ k := by
      rintro rfl
      rw [hc key value rfl] at hv
      exact absurd hv (by simp)
    rw [entries, lastWrite_singleton, if_neg hk]
    exact ⟨rfl, hv⟩
  | delete key =>
    obtain ⟨hk, hv⟩ := LruCache.lookup_dropped h
    rw [entries, lastWrite_singleton, if_neg hk]
    exact ⟨rfl, hv⟩
  | putBatch entries =>
    rw [onCache, LruCache.lookup_clear] at h
    exact absurd h (by simp)
  | bulkIngest entries =>
    rw [onCache] at h
    by_cases hnil : entries = []
    · rw [if_pos hnil] at h
      rw [Call.entries, hnil]
      exact ⟨rfl, h⟩
    · rw [if_neg hnil, LruCache.lookup_clear] at h
      exact absurd h (by simp)
  | _ => exact ⟨rfl, h⟩

end Call

namespace Engine

/-- The entries are in the memtable, and the cache is changed as given. -/
structure Wrote (ws : List (Bytes × Option Bytes)) (f : LruCache → LruCache) (e e' : Engine) :
    Prop where
  memtable : e'.memtable = e.memtable.writeAll ws
  frozen : e'.frozen = e.frozen
  compactor : e'.compactor = e.compactor
  flushThreshold : e'.flushThreshold = e.flushThreshold
  flushCount : e'.flushCount = e.flushCount
  cache : e'.cache = f e.cache

variable {e e' : Engine} {u : Unit}

theorem flushMemtable_eq_ok (h : flushMemtable e = .ok u e') :
    e.compactor.alive = true ∧ e' = e.flushed := by
  cases halive : e.compactor.alive with
  | true =>
    rw [flushMemtable_of_alive halive, EStateM.Result.ok.injEq] at h
    exact ⟨rfl, h.2.symm⟩
  | false =>
    rw [flushMemtable_of_dead halive] at h
    exact absurd h (by simp)

/-- A call has stored the entries, and flushed afterwards or not. -/
def Flushes (e₁ e' : Engine) : Prop :=
  e' = e₁ ∨ (e₁.compactor.alive = true ∧ e' = e₁.flushed)

theorem flushes_of_ifThen {c : Prop} [Decidable c] {u : PUnit}
    (h : ifThen c flushMemtable e = .ok u e') : Flushes e e' := by
  rcases ifThen_eq_ok.mp h with ⟨_, hflush⟩ | ⟨_, rfl⟩
  · exact .inr (flushMemtable_eq_ok hflush)
  · exact .inl rfl

/-! ### The steps of a write -/

theorem Wrote.refl (e : Engine) : Wrote [] id e e := ⟨rfl, rfl, rfl, rfl, rfl, rfl⟩

theorem Wrote.trans {ws ws' : List (Bytes × Option Bytes)} {f f' : LruCache → LruCache}
    {e e₁ e' : Engine} (h : Wrote ws f e e₁) (h' : Wrote ws' f' e₁ e') :
    Wrote (ws ++ ws') (f' ∘ f) e e' where
  memtable := by
    rw [h'.memtable, h.memtable]
    exact List.foldl_append.symm
  frozen := h'.frozen.trans h.frozen
  compactor := h'.compactor.trans h.compactor
  flushThreshold := h'.flushThreshold.trans h.flushThreshold
  flushCount := h'.flushCount.trans h.flushCount
  cache := by
    rw [h'.cache, h.cache]
    rfl

/-- A step that the memtable does not notice. -/
theorem Wrote.aside {ws : List (Bytes × Option Bytes)} {f f' : LruCache → LruCache}
    {e e₁ e' : Engine} (h : Wrote ws f e e₁) (h' : Wrote [] f' e₁ e') :
    Wrote ws (f' ∘ f) e e' := by
  have := h.trans h'
  rwa [List.append_nil] at this

theorem onWal_wrote {α : Type} {x : EStateM Failure WalWriter α} {a : α}
    (h : onWal x e = .ok a e') : Wrote [] id e e' := by
  obtain ⟨w, _, rfl⟩ := onPart_eq_ok.mp h
  exact ⟨rfl, rfl, rfl, rfl, rfl, rfl⟩

theorem memtablePut_wrote {key value : Bytes} {full : Bool}
    (h : memtablePut key value e = .ok full e') : Wrote [(key, some value)] id e e' := by
  rw [memtablePut, EStateM.Result.ok.injEq] at h
  obtain ⟨_, rfl⟩ := h
  exact ⟨rfl, rfl, rfl, rfl, rfl, rfl⟩

theorem countPut_wrote (h : countPut e = .ok u e') : Wrote [] id e e' := by
  obtain rfl := modify_eq_ok.mp h
  exact ⟨rfl, rfl, rfl, rfl, rfl, rfl⟩

theorem indexPut_wrote {key value : Bytes} (h : indexPut key value e = .ok u e') :
    Wrote [] id e e' := by
  obtain rfl := modify_eq_ok.mp h
  exact ⟨rfl, rfl, rfl, rfl, rfl, rfl⟩

theorem statePut_wrote {key value : Bytes} (h : statePut key value e = .ok u e') :
    Wrote [] id e e' := by
  obtain ⟨state, _, rfl⟩ := statePut_eq_ok h
  exact ⟨rfl, rfl, rfl, rfl, rfl, rfl⟩

theorem clearCache_wrote (h : clearCache e = .ok u e') : Wrote [] LruCache.clear e e' := by
  obtain rfl := modify_eq_ok.mp h
  exact ⟨rfl, rfl, rfl, rfl, rfl, rfl⟩

theorem applyEntries_wrote {entries : List (Bytes × Bytes)} {full : Bool}
    (h : applyEntries entries e = .ok full e') :
    Wrote (entries.map fun kv => (kv.1, some kv.2)) id e e' := by
  induction entries generalizing e full with
  | nil =>
    obtain ⟨_, rfl⟩ := pure_eq_ok.mp h
    exact Wrote.refl e'
  | cons kv entries ih =>
    obtain ⟨key, value⟩ := kv
    simp only [applyEntries, bind_eq_ok] at h
    obtain ⟨_, e₁, hmem, _, e₂, hcount, _, e₃, hindex, _, e₄, hstate, _, e₅, hrest, h⟩ := h
    obtain ⟨_, rfl⟩ := pure_eq_ok.mp h
    have hfirst := (((memtablePut_wrote hmem).aside (countPut_wrote hcount)).aside
      (indexPut_wrote hindex)).aside (statePut_wrote hstate)
    exact hfirst.trans (ih hrest)

/-! ### Writes -/

variable [Codec]

theorem appendAll_wrote {rs : List WalRecord} (h : appendAll rs e = .ok u e') :
    Wrote [] id e e' := by
  rw [appendAll, bind_eq_ok] at h
  obtain ⟨_, e₁, happend, hflush⟩ := h
  exact (onWal_wrote happend).aside (onWal_wrote hflush)

/-- **A successful put**, but for the log and the trie. -/
theorem put_eq_ok {key value : Bytes} (h : put key value e = .ok u e') :
    ∃ wal state, Flushes { e with
      wal := wal
      memtable := (e.memtable.put key value).1
      totalPuts := e.totalPuts + 1
      cache := e.cache.dropped key
      indices := e.indices.onPut key value
      state := state } e' := by
  simp only [put, bind_eq_ok] at h
  obtain ⟨_, e₁, happend, _, e₂, hlog, _, e₃, hmem, _, e₄, hcount, _, e₅, hcache, _, e₆, hindex, _,
    e₇, hstate, hflush⟩ := h
  obtain ⟨_, _, rfl⟩ := onPart_eq_ok.mp happend
  obtain ⟨wal, _, rfl⟩ := onPart_eq_ok.mp hlog
  rw [memtablePut, EStateM.Result.ok.injEq] at hmem
  obtain ⟨_, rfl⟩ := hmem
  obtain rfl := modify_eq_ok.mp hcount
  obtain rfl := modify_eq_ok.mp hcache
  obtain rfl := modify_eq_ok.mp hindex
  obtain ⟨state, _, rfl⟩ := statePut_eq_ok hstate
  exact ⟨wal, state, flushes_of_ifThen hflush⟩

theorem put_wrote {key value : Bytes} (h : put key value e = .ok u e') :
    ∃ e₁, Wrote [(key, some value)] (LruCache.dropped key) e e₁ ∧ Flushes e₁ e' := by
  obtain ⟨wal, state, hflush⟩ := put_eq_ok h
  refine ⟨_, ?_, hflush⟩
  exact ⟨rfl, rfl, rfl, rfl, rfl, rfl⟩

theorem putProfiled_wrote {key value : Bytes} (h : putProfiled key value e = .ok u e') :
    ∃ e₁, Wrote [(key, some value)] id e e₁ ∧ Flushes e₁ e' := by
  simp only [putProfiled, bind_eq_ok] at h
  obtain ⟨_, e₁, happend, _, e₂, hlog, _, e₃, hmem, _, e₄, hcount, _, e₅, hindex, _, e₆, hstate,
    h⟩ := h
  have hlogged := (onWal_wrote happend).aside (onWal_wrote hlog)
  have hstored := (hlogged.trans (memtablePut_wrote hmem)).aside (countPut_wrote hcount)
  exact ⟨e₆, (hstored.aside (indexPut_wrote hindex)).aside (statePut_wrote hstate),
    flushes_of_ifThen h⟩

/-- **A successful delete**, but for the log. -/
theorem delete_eq_ok {key : Bytes} (h : delete key e = .ok u e') :
    ∃ wal, Flushes { e with
      wal := wal
      memtable := (e.memtable.delete key).1
      totalDeletes := e.totalDeletes + 1
      cache := e.cache.dropped key
      indices := e.indices.onDelete key
      state := e.state.delete key } e' := by
  simp only [delete, bind_eq_ok] at h
  obtain ⟨_, e₁, happend, _, e₂, hlog, _, e₃, hmem, _, e₄, hcount, _, e₅, hcache, _, e₆, hindex, _,
    e₇, hstate, hflush⟩ := h
  obtain ⟨_, _, rfl⟩ := onPart_eq_ok.mp happend
  obtain ⟨wal, _, rfl⟩ := onPart_eq_ok.mp hlog
  rw [memtableDelete, EStateM.Result.ok.injEq] at hmem
  obtain ⟨_, rfl⟩ := hmem
  obtain rfl := modify_eq_ok.mp hcount
  obtain rfl := modify_eq_ok.mp hcache
  obtain rfl := modify_eq_ok.mp hindex
  obtain rfl := modify_eq_ok.mp hstate
  exact ⟨wal, flushes_of_ifThen hflush⟩

theorem delete_wrote {key : Bytes} (h : delete key e = .ok u e') :
    ∃ e₁, Wrote [(key, none)] (LruCache.dropped key) e e₁ ∧ Flushes e₁ e' := by
  obtain ⟨wal, hflush⟩ := delete_eq_ok h
  refine ⟨_, ?_, hflush⟩
  exact ⟨rfl, rfl, rfl, rfl, rfl, rfl⟩

theorem putBatch_wrote {entries : List (Bytes × Bytes)} (h : putBatch entries e = .ok u e') :
    ∃ e₁, Wrote (entries.map fun kv => (kv.1, some kv.2)) LruCache.clear e e₁ ∧ Flushes e₁ e' := by
  simp only [putBatch, bind_eq_ok] at h
  obtain ⟨_, e₁, happend, _, e₂, hclear, _, e₃, hentries, h⟩ := h
  have hcleared := (appendAll_wrote happend).aside (clearCache_wrote hclear)
  exact ⟨e₃, hcleared.trans (applyEntries_wrote hentries), flushes_of_ifThen h⟩

theorem bulkIngest_wrote {entries : List (Bytes × Bytes)} {n : ℕ}
    (h : bulkIngest entries e = .ok n e') :
    ∃ e₁, Wrote (entries.map fun kv => (kv.1, some kv.2))
      (if entries = [] then id else LruCache.clear) e e₁ ∧ Flushes e₁ e' := by
  rw [bulkIngest] at h
  by_cases hnil : entries = []
  · rw [if_pos hnil, pure_eq_ok] at h
    rw [if_pos hnil, h.2, hnil]
    exact ⟨e, Wrote.refl e, .inl rfl⟩
  · rw [if_neg hnil] at h
    rw [if_neg hnil]
    simp only [bind_eq_ok] at h
    obtain ⟨_, e₁, happend, _, e₂, hclear, _, e₃, hentries, e₃', _, hget, _, e₅, hflush, h⟩ := h
    obtain ⟨_, rfl⟩ := get_eq_ok.mp hget
    obtain ⟨_, rfl⟩ := pure_eq_ok.mp h
    have hcleared := (appendAll_wrote happend).aside (clearCache_wrote hclear)
    exact ⟨_, hcleared.trans (applyEntries_wrote hentries), flushes_of_ifThen hflush⟩

/-- **A successful write** stores its entries and updates the cache, and may then flush. -/
theorem exec_wrote {c : Call} (hc : c.isWrite = true) (h : exec c e = .ok u e') :
    ∃ e₁, Wrote c.entries c.onCache e e₁ ∧ Flushes e₁ e' := by
  cases c with
  | put key value => exact put_wrote h
  | putProfiled key value => exact putProfiled_wrote h
  | delete key => exact delete_wrote h
  | putBatch entries => exact putBatch_wrote h
  | bulkIngest entries =>
    obtain ⟨n, e₁, hrun, h⟩ := bind_eq_ok.mp h
    obtain ⟨_, rfl⟩ := pure_eq_ok.mp h
    exact bulkIngest_wrote hrun
  | flush =>
    simp only [exec, flush, bind_eq_ok] at h
    obtain ⟨_, _, hget, h⟩ := h
    obtain ⟨rfl, rfl⟩ := get_eq_ok.mp hget
    exact ⟨_, Wrote.refl _, flushes_of_ifThen h⟩
  | sync => exact ⟨e', onWal_wrote h, .inl rfl⟩
  | _ => exact absurd hc (by simp [Call.isWrite])

/-! ### Failed writes -/

/-- The worker receives. -/
def Alive (e : Engine) : Prop := e.compactor.alive = true

/-- With the worker alive, the program can only fail by a panic. -/
abbrev PanicsOnly {α : Type} (x : EngineM α) : Prop := FailsOnly Alive (· = .panic) x

omit [Codec] in
theorem flushMemtable_panicsOnly : PanicsOnly flushMemtable := by
  intro e he
  rw [flushMemtable_of_alive he]
  refine ⟨fun _ e' heq => ?_, fun err e' heq => absurd heq (by simp)⟩
  rw [EStateM.Result.ok.injEq] at heq
  rw [← heq.2]
  exact he

omit [Codec] in
theorem statePut_panicsOnly (key value : Bytes) : PanicsOnly (statePut key value) := by
  intro e he
  refine ⟨fun _ e' h => ?_, fun err e' h => ?_⟩
  · obtain ⟨state, _, rfl⟩ := statePut_eq_ok h
    exact he
  · rw [statePut] at h
    cases hput : e.state.put key value with
    | some state =>
      rw [hput] at h
      exact absurd h (by simp)
    | none =>
      rw [hput, EStateM.Result.error.injEq] at h
      exact h.1.symm

omit [Codec] in
theorem modify_panicsOnly {f : Engine → Engine} (hf : ∀ e, Alive e → Alive (f e)) :
    PanicsOnly (modify f : EngineM PUnit) :=
  FailsOnly.of_ok (fun _ => rfl) hf

omit [Codec] in
theorem memtablePut_panicsOnly (key value : Bytes) : PanicsOnly (memtablePut key value) :=
  FailsOnly.of_ok (fun _ => rfl) fun _ he => he

omit [Codec] in
theorem memtableDelete_panicsOnly (key : Bytes) : PanicsOnly (memtableDelete key) :=
  FailsOnly.of_ok (fun _ => rfl) fun _ he => he

omit [Codec] in
/-- The part of a put after the log. -/
theorem afterLog_panicsOnly (key value : Bytes) : PanicsOnly (do
    let shouldFlush ← memtablePut key value
    countPut
    invalidate key
    indexPut key value
    statePut key value
    ifThen (shouldFlush = true) flushMemtable) := by
  refine FailsOnly.bind (memtablePut_panicsOnly key value) fun _ => ?_
  refine FailsOnly.bind (modify_panicsOnly fun _ he => he) fun _ => ?_
  refine FailsOnly.bind (modify_panicsOnly fun _ he => he) fun _ => ?_
  refine FailsOnly.bind (modify_panicsOnly fun _ he => he) fun _ => ?_
  refine FailsOnly.bind (statePut_panicsOnly key value) fun _ => ?_
  exact FailsOnly.ifThen flushMemtable_panicsOnly

omit [Codec] in
theorem afterLogProfiled_panicsOnly (key value : Bytes) : PanicsOnly (do
    let shouldFlush ← memtablePut key value
    countPut
    indexPut key value
    statePut key value
    ifThen (shouldFlush = true) flushMemtable) := by
  refine FailsOnly.bind (memtablePut_panicsOnly key value) fun _ => ?_
  refine FailsOnly.bind (modify_panicsOnly fun _ he => he) fun _ => ?_
  refine FailsOnly.bind (modify_panicsOnly fun _ he => he) fun _ => ?_
  refine FailsOnly.bind (statePut_panicsOnly key value) fun _ => ?_
  exact FailsOnly.ifThen flushMemtable_panicsOnly

omit [Codec] in
theorem afterLogDelete_panicsOnly (key : Bytes) : PanicsOnly (do
    let shouldFlush ← memtableDelete key
    modify fun e => { e with totalDeletes := e.totalDeletes + 1 }
    invalidate key
    modify fun e => { e with indices := e.indices.onDelete key }
    modify fun e => { e with state := e.state.delete key }
    ifThen (shouldFlush = true) flushMemtable) := by
  refine FailsOnly.bind (memtableDelete_panicsOnly key) fun _ => ?_
  refine FailsOnly.bind (modify_panicsOnly fun _ he => he) fun _ => ?_
  refine FailsOnly.bind (modify_panicsOnly fun _ he => he) fun _ => ?_
  refine FailsOnly.bind (modify_panicsOnly fun _ he => he) fun _ => ?_
  refine FailsOnly.bind (modify_panicsOnly fun _ he => he) fun _ => ?_
  exact FailsOnly.ifThen flushMemtable_panicsOnly

omit [Codec] in
theorem applyEntries_panicsOnly (entries : List (Bytes × Bytes)) :
    PanicsOnly (applyEntries entries) := by
  induction entries with
  | nil => exact FailsOnly.pure _
  | cons kv entries ih =>
    obtain ⟨key, value⟩ := kv
    refine FailsOnly.bind (memtablePut_panicsOnly key value) fun _ => ?_
    refine FailsOnly.bind (modify_panicsOnly fun _ he => he) fun _ => ?_
    refine FailsOnly.bind (modify_panicsOnly fun _ he => he) fun _ => ?_
    refine FailsOnly.bind (statePut_panicsOnly key value) fun _ => ?_
    exact FailsOnly.bind ih fun _ => FailsOnly.pure _

omit [Codec] in
theorem afterLogBatch_panicsOnly (entries : List (Bytes × Bytes)) : PanicsOnly (do
    clearCache
    let shouldFlush ← applyEntries entries
    ifThen (shouldFlush = true) flushMemtable) := by
  refine FailsOnly.bind (modify_panicsOnly fun _ he => he) fun _ => ?_
  refine FailsOnly.bind (applyEntries_panicsOnly entries) fun _ => ?_
  exact FailsOnly.ifThen flushMemtable_panicsOnly

omit [Codec] in
theorem afterLogIngest_panicsOnly (entries : List (Bytes × Bytes)) : PanicsOnly (do
    clearCache
    let _ ← applyEntries entries
    let e ← EStateM.get
    ifThen (e.memtable.shouldFlush = true) flushMemtable
    pure entries.length) := by
  refine FailsOnly.bind (modify_panicsOnly fun _ he => he) fun _ => ?_
  refine FailsOnly.bind (applyEntries_panicsOnly entries) fun _ => ?_
  refine FailsOnly.bind (FailsOnly.of_ok (fun _ => rfl) fun _ he => he) fun _ => ?_
  exact FailsOnly.bind (FailsOnly.ifThen flushMemtable_panicsOnly) fun _ => FailsOnly.pure _

omit [Codec] in
theorem flush_panicsOnly : PanicsOnly flush :=
  FailsOnly.bind (FailsOnly.of_ok (fun _ => rfl) fun _ he => he) fun _ =>
    FailsOnly.ifThen flushMemtable_panicsOnly

omit [Codec] in
/-- A program that first works on the log and can only panic afterwards: if it fails
with an error, then the log alone is changed. -/
theorem wrote_of_failed {α : Type} {x y : EStateM Failure WalWriter Unit} {rest : EngineM α}
    (hrest : PanicsOnly rest) (halive : Alive e) {msg : String}
    (h : (do onWal x; onWal y; rest : EngineM α) e = .error (.error msg) e') :
    Wrote [] id e e' := by
  have hwal : ∀ {z : EStateM Failure WalWriter Unit}, Keeps (Wrote [] id e) (onWal z) :=
    Keeps.onPart fun e₁ w he₁ =>
      ⟨he₁.memtable, he₁.frozen, he₁.compactor, he₁.flushThreshold, he₁.flushCount, he₁.cache⟩
  rcases bind_eq_error.mp h with h | ⟨_, e₁, hx, h⟩
  · have hfinal := hwal (z := x) e (Wrote.refl e)
    rw [h] at hfinal
    exact hfinal
  · have hwrote₁ : Wrote [] id e e₁ := onWal_wrote hx
    rcases bind_eq_error.mp h with h | ⟨_, e₂, hy, h⟩
    · have hfinal := hwal (z := y) e₁ hwrote₁
      rw [h] at hfinal
      exact hfinal
    · have hwrote₂ : Wrote [] id e e₂ := hwal.of_ok hy hwrote₁
      have halive₂ : Alive e₂ := by
        rw [Alive, hwrote₂.compactor]
        exact halive
      exact absurd ((hrest e₂ halive₂).2 _ _ h) (by simp)

/-- **A write that fails with an error** changes the log alone, while the worker is alive. -/
theorem exec_failed {c : Call} (hc : c.isWrite = true) (halive : Alive e) {msg : String}
    (h : exec c e = .error (.error msg) e') : Wrote [] id e e' := by
  cases c with
  | put key value => exact wrote_of_failed (afterLog_panicsOnly key value) halive h
  | putProfiled key value => exact wrote_of_failed (afterLogProfiled_panicsOnly key value) halive h
  | delete key => exact wrote_of_failed (afterLogDelete_panicsOnly key) halive h
  | putBatch entries =>
    simp only [exec, putBatch, appendAll, bind_assoc] at h
    exact wrote_of_failed (afterLogBatch_panicsOnly entries) halive h
  | bulkIngest entries =>
    rcases bind_eq_error.mp h with h | ⟨_, _, _, h⟩
    · rw [bulkIngest] at h
      by_cases hnil : entries = []
      · rw [if_pos hnil] at h
        exact absurd h (by simp [pure, EStateM.pure])
      · simp only [if_neg hnil, appendAll, bind_assoc] at h
        exact wrote_of_failed (afterLogIngest_panicsOnly entries) halive h
    · exact absurd h (by simp [pure, EStateM.pure])
  | flush => exact absurd ((flush_panicsOnly e halive).2 _ _ h) (by simp)
  | sync =>
    have hsync : Keeps (Wrote [] id e) (onWal WalWriter.flush) := Keeps.onPart fun e₁ w he₁ =>
      ⟨he₁.memtable, he₁.frozen, he₁.compactor, he₁.flushThreshold, he₁.flushCount, he₁.cache⟩
    have hfinal := hsync e (Wrote.refl e)
    rw [show onWal WalWriter.flush e = _ from h] at hfinal
    exact hfinal
  | _ => exact absurd hc (by simp [Call.isWrite])

end Engine

end Uldb
