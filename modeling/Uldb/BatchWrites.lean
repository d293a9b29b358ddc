/-
Three ways to write a list of pairs (`engine.rs`).

`put` after `put`, `put_batch` and `bulk_ingest` flush the memtable at different moments, so
that the entries end up in different pages.  A flush takes no entry away from what is found in
the memtable and the submitted pages, the newest first.

* `Ingested` — what is the same after each of the three;
* `batch_eq_puts` — each of the three does it, and they succeed together.
-/
import Uldb.CompactionOrder
import Uldb.FlushFailure
import Uldb.Scan
import Uldb.TxWrites

namespace Uldb

open Fallible

/-- Put the pairs into the trie, in order; none where the trie's recursion does not end. -/
def Hamt.putAll (h : Hamt) (entries : List (Bytes × Bytes)) : Option Hamt :=
  entries.foldlM (fun h kv => h.put kv.1 kv.2) h

/-- Index the pairs, in order. -/
def IndexManager.onPutAll (indices : IndexManager) (entries : List (Bytes × Bytes)) :
    IndexManager :=
  entries.foldl (fun indices kv => indices.onPut kv.1 kv.2) indices

/-- Append records and flush the log once. -/
def WalWriter.logAll [Codec] (rs : List WalRecord) : EStateM Failure WalWriter Unit := do
  forM rs WalWriter.append
  WalWriter.flush

namespace Engine

/-- The newest entry of a key in the memtable and the submitted pages. -/
def newestEntry (e : Engine) (k : Bytes) : Option (Option Bytes) :=
  ((e.memtable.getEntry k).map MemEntry.value).or
    ((newest e.compactor.queue k).map PageRecord.live)

/-- The entries that pairs are stored as. -/
def batchEntries (entries : List (Bytes × Bytes)) : List (Bytes × Option Bytes) :=
  entries.map fun kv => (kv.1, some kv.2)

/-- What writing the pairs does, however the memtable is flushed. -/
structure Ingested [Codec] (entries : List (Bytes × Bytes)) (e e' : Engine) : Prop where
  content : e'.wal.content = e.wal.content ++ Wal.encode (batchRecords entries)
  state : e.state.putAll entries = some e'.state
  indices : e'.indices = e.indices.onPutAll entries
  totalPuts : e'.totalPuts = e.totalPuts + entries.length
  newest : ∀ k, e'.newestEntry k = (lastWrite (batchEntries entries) k).or (e.newestEntry k)

/-! ### Flushes -/

/-- **A flush takes no entry away.** -/
theorem newestEntry_flushed (e : Engine) (k : Bytes) :
    e.flushed.newestEntry k = e.newestEntry k := by
  have hpage : (newest [e.memtable.toPage.1] k).map PageRecord.live
      = (e.memtable.getEntry k).map MemEntry.value := by
    rw [newest, List.reverse_singleton, List.findSome?_singleton, Memtable.live_lookup_toPage]
  rw [newestEntry, newestEntry, flushed, Memtable.getEntry_new, newest_append, Option.map_or,
    hpage]
  rfl

variable {entries entries' : List (Bytes × Bytes)} {e e₁ e' : Engine}

section

variable [Codec]

theorem Ingested.flushes (h : Ingested entries e e₁) (hflush : Flushes e₁ e') :
    Ingested entries e e' := by
  rcases hflush with rfl | ⟨_, rfl⟩
  · exact h
  · refine ⟨h.content, h.state, h.indices, h.totalPuts, fun k => ?_⟩
    rw [newestEntry_flushed, h.newest]

theorem Ingested.refl (e : Engine) : Ingested [] e e := by
  refine ⟨?_, rfl, rfl, rfl, fun k => rfl⟩
  simp [batchRecords]

theorem Ingested.trans (h : Ingested entries e e₁) (h' : Ingested entries' e₁ e') :
    Ingested (entries ++ entries') e e' where
  content := by
    have hrecords : batchRecords (entries ++ entries')
        = batchRecords entries ++ batchRecords entries' := List.map_append
    rw [h'.content, h.content, hrecords, Wal.encode_append, List.append_assoc]
  state := foldlM_append_eq_some.mpr ⟨e₁.state, h.state, h'.state⟩
  indices := by
    rw [h'.indices, h.indices]
    exact List.foldl_append.symm
  totalPuts := by
    rw [h'.totalPuts, h.totalPuts, List.length_append, Nat.add_assoc]
  newest k := by
    have hentries : batchEntries (entries ++ entries')
        = batchEntries entries ++ batchEntries entries' := List.map_append
    rw [h'.newest, h.newest, hentries, lastWrite_append, Option.or_assoc]

end

/-! ### The memory part of a batch -/

/-- The engine after the in-memory part of a batch. -/
def batchStored (e : Engine) (entries : List (Bytes × Bytes)) (state : Hamt) : Engine :=
  { e with
    memtable := e.memtable.writeAll (batchEntries entries)
    totalPuts := e.totalPuts + entries.length
    indices := e.indices.onPutAll entries
    state := state }

/-- The first pair goes into the trie, and then the others. -/
theorem applyEntries_cons_eq_ok {key value : Bytes} {full : Bool} :
    applyEntries ((key, value) :: entries) e = .ok full e' ↔
      ∃ state rest, e.state.put key value = some state ∧
        applyEntries entries (e.batchStored [(key, value)] state) = .ok rest e' ∧
        full = ((e.memtable.put key value).2 || rest) := by
  have hsplit := statePut_bind key value
    (fun _ => applyEntries entries >>= fun rest => pure ((e.memtable.put key value).2 || rest))
    (e.batchStored [(key, value)] e.state)
  rw [show (e.batchStored [(key, value)] e.state).state = e.state from rfl] at hsplit
  have happly : applyEntries ((key, value) :: entries) e
      = (statePut key value >>= fun _ => applyEntries entries >>= fun rest =>
        pure ((e.memtable.put key value).2 || rest)) (e.batchStored [(key, value)] e.state) := rfl
  rw [happly, hsplit]
  cases e.state.put key value with
  | none =>
    constructor
    · intro h
      exact absurd h (by simp)
    · rintro ⟨_, _, h, _⟩
      exact absurd h (by simp)
  | some state =>
    show (applyEntries entries >>= _) (e.batchStored [(key, value)] state) = _ ↔ _
    rw [bind_eq_ok]
    constructor
    · rintro ⟨rest, e₁, hrest, hpure⟩
      obtain ⟨rfl, rfl⟩ := pure_eq_ok.mp hpure
      exact ⟨state, rest, rfl, hrest, rfl⟩
    · rintro ⟨_, rest, hstate, hrest, rfl⟩
      obtain rfl := Option.some_inj.mp hstate
      exact ⟨rest, e', hrest, pure_eq_ok.mpr ⟨rfl, rfl⟩⟩

/-- The in-memory part of a batch can only fail in the trie. -/
theorem applyEntries_eq_ok : (∃ full, applyEntries entries e = .ok full e') ↔
    ∃ state, e.state.putAll entries = some state ∧ e' = e.batchStored entries state := by
  induction entries generalizing e with
  | nil =>
    constructor
    · rintro ⟨full, h⟩
      obtain ⟨_, rfl⟩ := pure_eq_ok.mp h
      exact ⟨e'.state, rfl, rfl⟩
    · rintro ⟨state, hstate, rfl⟩
      obtain rfl : e.state = state := Option.some_inj.mp hstate
      exact ⟨false, rfl⟩
  | cons kv entries ih =>
    obtain ⟨key, value⟩ := kv
    have hcons : ∀ state state', (e.batchStored [(key, value)] state).batchStored entries state'
        = e.batchStored ((key, value) :: entries) state' := by
      intro state state'
      simp only [batchStored, batchEntries, Memtable.writeAll, IndexManager.onPutAll,
        List.map_cons, List.map_nil, List.foldl_cons, List.foldl_nil, List.length_cons,
        List.length_nil]
      congr 1
      omega
    constructor
    · rintro ⟨full, h⟩
      obtain ⟨state, rest, hput, hrest, _⟩ := applyEntries_cons_eq_ok.mp h
      obtain ⟨state', hstate', rfl⟩ := ih.mp ⟨rest, hrest⟩
      exact ⟨state', foldlM_cons_eq_some.mpr ⟨state, hput, hstate'⟩, hcons state state'⟩
    · rintro ⟨state', hstate', rfl⟩
      obtain ⟨state, hput, hrest⟩ := foldlM_cons_eq_some.mp hstate'
      obtain ⟨rest, hrest⟩ := (ih (e := e.batchStored [(key, value)] state)).mpr
        ⟨state', hrest, (hcons state state').symm⟩
      exact ⟨_, applyEntries_cons_eq_ok.mpr ⟨state, rest, hput, hrest, rfl⟩⟩

variable [Codec]

theorem ingested_batchStored {w : WalWriter} {state : Hamt}
    (hcontent : w.content = e.wal.content ++ Wal.encode (batchRecords entries))
    (hstate : e.state.putAll entries = some state) (cache : LruCache) :
    Ingested entries e ({ e with wal := w, cache := cache }.batchStored entries state) := by
  refine ⟨hcontent, hstate, rfl, rfl, fun k => ?_⟩
  rw [newestEntry, newestEntry, batchStored, Memtable.getEntry_writeAll, Option.or_assoc]

/-! ### The three ways -/

/-- One put after the other. -/
def puts (entries : List (Bytes × Bytes)) : List Call := entries.map fun kv => .put kv.1 kv.2

theorem logAll_eq_ok {rs : List WalRecord} {u : Unit} {w w' : WalWriter}
    (h : WalWriter.logAll rs w = .ok u w') : w'.content = w.content ++ Wal.encode rs := by
  obtain ⟨_, w₁, happend, hflush⟩ := bind_eq_ok.mp h
  obtain ⟨hfile, hbuf⟩ := WalWriter.flush_eq_ok hflush
  rw [WalWriter.content, hfile, hbuf, List.append_nil, WalWriter.forM_append_eq_ok happend]

theorem appendAll_eq_ok {rs : List WalRecord} {u : Unit} : appendAll rs e = .ok u e' ↔
    ∃ w, WalWriter.logAll rs e.wal = .ok () w ∧ e' = { e with wal := w } := by
  rw [appendAll, bind_eq_ok]
  constructor
  · rintro ⟨_, e₁, happend, hflush⟩
    obtain ⟨w₁, hrecords, rfl⟩ := onPart_eq_ok.mp happend
    obtain ⟨w, hfile, rfl⟩ := onPart_eq_ok.mp hflush
    exact ⟨w, bind_eq_ok.mpr ⟨_, w₁, hrecords, hfile⟩, rfl⟩
  · rintro ⟨w, hlog, rfl⟩
    obtain ⟨_, w₁, happend, hflush⟩ := bind_eq_ok.mp hlog
    exact ⟨_, _, onPart_eq_ok.mpr ⟨w₁, happend, rfl⟩, onPart_eq_ok.mpr ⟨w, hflush, rfl⟩⟩

/-- A batch up to its flush. -/
theorem beforeFlush_batch : (∃ full, beforeFlush (.putBatch entries) e = .ok full e') ↔
    ∃ w state, WalWriter.logAll (batchRecords entries) e.wal = .ok () w ∧
      e.state.putAll entries = some state ∧
      e' = { e with wal := w, cache := e.cache.clear }.batchStored entries state := by
  constructor
  · rintro ⟨full, h⟩
    obtain ⟨_, e₁, happend, hrest⟩ := bind_eq_ok.mp h
    obtain ⟨w, hlog, rfl⟩ := appendAll_eq_ok.mp happend
    obtain ⟨_, e₂, hclear, happly⟩ := bind_eq_ok.mp hrest
    obtain rfl := modify_eq_ok.mp hclear
    obtain ⟨state, hstate, rfl⟩ := applyEntries_eq_ok.mp ⟨full, happly⟩
    exact ⟨w, state, hlog, hstate, rfl⟩
  · rintro ⟨w, state, hlog, hstate, rfl⟩
    obtain ⟨full, h⟩ := (applyEntries_eq_ok
      (e := { e with wal := w, cache := e.cache.clear })).mpr ⟨state, hstate, rfl⟩
    exact ⟨full, bind_eq_ok.mpr ⟨(), _, appendAll_eq_ok.mpr ⟨w, hlog, rfl⟩,
      bind_eq_ok.mpr ⟨(), _, rfl, h⟩⟩⟩

/-- But for the flush, `bulk_ingest` is `put_batch`; it does nothing for an empty list. -/
theorem beforeFlush_ingest (hne : entries ≠ []) :
    (∃ full, beforeFlush (.bulkIngest entries) e = .ok full e') ↔
      ∃ full, beforeFlush (.putBatch entries) e = .ok full e' := by
  have hingest : beforeFlush (.bulkIngest entries) = beforeFlush (.putBatch entries) >>=
      fun _ => EStateM.get >>= fun e => pure e.memtable.shouldFlush := by
    simp only [beforeFlush, if_neg hne, bind_assoc]
  rw [hingest]
  constructor
  · rintro ⟨_, h⟩
    obtain ⟨full, e₁, hbatch, hrest⟩ := bind_eq_ok.mp h
    obtain ⟨_, e₂, hget, hpure⟩ := bind_eq_ok.mp hrest
    obtain ⟨_, rfl⟩ := get_eq_ok.mp hget
    obtain ⟨_, rfl⟩ := pure_eq_ok.mp hpure
    exact ⟨full, hbatch⟩
  · rintro ⟨full, hbatch⟩
    exact ⟨e'.memtable.shouldFlush, bind_eq_ok.mpr ⟨full, e', hbatch, rfl⟩⟩

theorem exec_eq_ok {c : Call} {u : Unit} : exec c e = .ok u e' ↔
    ∃ full e₁, beforeFlush c e = .ok full e₁ ∧
      ifThen (full = true) flushMemtable e₁ = .ok u e' := by
  rw [exec_eq_beforeFlush, bind_eq_ok]

theorem putBatch_ingested {u : Unit} (h : exec (.putBatch entries) e = .ok u e') :
    Ingested entries e e' := by
  obtain ⟨full, e₁, hbefore, hflush⟩ := exec_eq_ok.mp h
  obtain ⟨w, state, hlog, hstate, rfl⟩ := beforeFlush_batch.mp ⟨full, hbefore⟩
  exact (ingested_batchStored (logAll_eq_ok hlog) hstate _).flushes (flushes_of_ifThen hflush)

theorem bulkIngest_ingested {u : Unit} (h : exec (.bulkIngest entries) e = .ok u e') :
    Ingested entries e e' := by
  obtain ⟨full, e₁, hbefore, hflush⟩ := exec_eq_ok.mp h
  by_cases hnil : entries = []
  · rw [beforeFlush, if_pos hnil] at hbefore
    obtain ⟨_, rfl⟩ := pure_eq_ok.mp hbefore
    rw [hnil]
    exact (Ingested.refl _).flushes (flushes_of_ifThen hflush)
  · obtain ⟨full', hbatch⟩ := (beforeFlush_ingest hnil).mp ⟨full, hbefore⟩
    obtain ⟨w, state, hlog, hstate, rfl⟩ := beforeFlush_batch.mp ⟨full', hbatch⟩
    exact (ingested_batchStored (logAll_eq_ok hlog) hstate _).flushes (flushes_of_ifThen hflush)

/-- One put. -/
theorem put_ingested {key value : Bytes} {u : Unit} (h : exec (.put key value) e = .ok u e') :
    Ingested [(key, value)] e e' := by
  have hop : exec (TxOp.put key value).call e = .ok u e' := h
  obtain ⟨w, state, hlog, happly, hflush⟩ := exec_op_eq_ok.mp hop
  have hcontent : w.content = e.wal.content ++ Wal.encode (batchRecords [(key, value)]) := by
    obtain ⟨_, w₁, happend, hfile⟩ := bind_eq_ok.mp hlog
    obtain ⟨hw, hbuf⟩ := WalWriter.flush_eq_ok hfile
    rw [WalWriter.content, hw, hbuf, List.append_nil, WalWriter.append_eq_ok happend]
    simp [batchRecords, Wal.encode, TxOp.record]
  have hstored : e.stored (.put key value) w state
      = { e with wal := w, cache := e.cache.dropped key }.batchStored [(key, value)] state := rfl
  rw [hstored] at hflush
  exact (ingested_batchStored hcontent (foldlM_cons_eq_some.mpr ⟨state, happly, rfl⟩) _).flushes
    (flushIfFull_eq_ok hflush)

/-- Puts one after the other. -/
theorem puts_ingested (h : e.run (puts entries) = some e') : Ingested entries e e' := by
  induction entries generalizing e with
  | nil =>
    obtain rfl : e = e' := Option.some_inj.mp h
    exact .refl e
  | cons kv entries ih =>
    rw [puts, List.map_cons, run_cons, Option.bind_eq_some_iff] at h
    obtain ⟨e₁, hput, hrest⟩ := h
    obtain ⟨_, hput⟩ := success_eq_some hput
    exact (put_ingested hput).trans (ih hrest)

/-! ### When they succeed -/

omit [Codec] in
/-- With the worker at hand, a flush succeeds. -/
theorem exists_flush (halive : Alive e) (full : Bool) :
    ∃ e', ifThen (full = true) flushMemtable e = .ok () e' := by
  cases full with
  | true => exact ⟨e.flushed, ifThen_eq_ok.mpr (.inl ⟨rfl, flushMemtable_of_alive halive⟩)⟩
  | false => exact ⟨e, ifThen_eq_ok.mpr (.inr ⟨by simp, rfl⟩)⟩

theorem putBatch_succeeds (hwal : e.wal.Reliable) (halive : Alive e) {state : Hamt}
    (hstate : e.state.putAll entries = some state) :
    ∃ e', exec (.putBatch entries) e = .ok () e' := by
  obtain ⟨w₁, happend, hw₁⟩ := WalWriter.forM_append_of_reliable (batchRecords entries) hwal
  obtain ⟨w, hfile, _⟩ := WalWriter.flush_of_reliable hw₁
  obtain ⟨full, hbefore⟩ := beforeFlush_batch.mpr
    ⟨w, state, bind_eq_ok.mpr ⟨_, w₁, happend, hfile⟩, hstate, rfl⟩
  have halive' : Alive ({ e with wal := w, cache := e.cache.clear }.batchStored entries state) :=
    halive
  obtain ⟨e', hflush⟩ := exists_flush halive' full
  exact ⟨e', exec_eq_ok.mpr ⟨full, _, hbefore, hflush⟩⟩

theorem bulkIngest_succeeds (hwal : e.wal.Reliable) (halive : Alive e) {state : Hamt}
    (hstate : e.state.putAll entries = some state) :
    ∃ e', exec (.bulkIngest entries) e = .ok () e' := by
  by_cases hnil : entries = []
  · have hbefore : beforeFlush (.bulkIngest entries) e = .ok false e := by
      simp only [beforeFlush, if_pos hnil]
      rfl
    obtain ⟨e', hflush⟩ := exists_flush halive false
    exact ⟨e', exec_eq_ok.mpr ⟨false, e, hbefore, hflush⟩⟩
  · obtain ⟨w₁, happend, hw₁⟩ := WalWriter.forM_append_of_reliable (batchRecords entries) hwal
    obtain ⟨w, hfile, _⟩ := WalWriter.flush_of_reliable hw₁
    obtain ⟨full, hbefore⟩ := (beforeFlush_ingest hnil).mpr (beforeFlush_batch.mpr
      ⟨w, state, bind_eq_ok.mpr ⟨_, w₁, happend, hfile⟩, hstate, rfl⟩)
    have halive' : Alive ({ e with wal := w, cache := e.cache.clear }.batchStored entries state) :=
      halive
    obtain ⟨e', hflush⟩ := exists_flush halive' full
    exact ⟨e', exec_eq_ok.mpr ⟨full, _, hbefore, hflush⟩⟩

/-- One put succeeds, and the next one can as well. -/
theorem put_succeeds (hwal : e.wal.Reliable) (halive : Alive e) {key value : Bytes} {state : Hamt}
    (hstate : e.state.put key value = some state) :
    ∃ e', exec (.put key value) e = .ok () e' ∧ e'.wal.Reliable ∧ Alive e' ∧ e'.state = state := by
  obtain ⟨w₁, happend, hw₁⟩ := WalWriter.append_of_reliable ⟨key, value⟩ hwal
  obtain ⟨w, hfile, hw⟩ := WalWriter.flush_of_reliable hw₁
  have hlog : WalWriter.log (TxOp.put key value).record e.wal = .ok () w :=
    bind_eq_ok.mpr ⟨_, w₁, happend, hfile⟩
  have halive' : Alive (e.stored (.put key value) w state) := halive
  obtain ⟨e', hflush⟩ : ∃ e', flushIfFull (e.stored (.put key value) w state) = .ok () e' := by
    rw [flushIfFull]
    split
    · exact ⟨_, flushMemtable_of_alive halive'⟩
    · exact ⟨_, rfl⟩
  refine ⟨e', exec_op_eq_ok.mpr ⟨w, state, hlog, hstate, hflush⟩, ?_⟩
  rcases flushIfFull_eq_ok hflush with rfl | ⟨_, rfl⟩
  · exact ⟨hw, halive, rfl⟩
  · exact ⟨hw, halive, rfl⟩

theorem puts_succeed (hwal : e.wal.Reliable) (halive : Alive e) {state : Hamt}
    (hstate : e.state.putAll entries = some state) : ∃ e', e.run (puts entries) = some e' := by
  induction entries generalizing e with
  | nil => exact ⟨e, rfl⟩
  | cons kv entries ih =>
    obtain ⟨state₁, hput, hrest⟩ := foldlM_cons_eq_some.mp hstate
    obtain ⟨e₁, hexec, hwal₁, halive₁, rfl⟩ := put_succeeds hwal halive hput
    obtain ⟨e', hrun⟩ := ih hwal₁ halive₁ hrest
    refine ⟨e', ?_⟩
    rw [puts, List.map_cons, run_cons, hexec]
    exact hrun

/-! ### The same engine -/

/-- The engines have logged the same bytes and hold the same data. -/
structure SameData (e e' : Engine) : Prop where
  content : e.wal.content = e'.wal.content
  state : e.state = e'.state
  indices : e.indices = e'.indices
  totalPuts : e.totalPuts = e'.totalPuts
  newest : ∀ k, e.newestEntry k = e'.newestEntry k

theorem Ingested.sameData (h : Ingested entries e e₁) (h' : Ingested entries e e') :
    SameData e₁ e' where
  content := h.content.trans h'.content.symm
  state := Option.some_inj.mp (h.state.symm.trans h'.state)
  indices := h.indices.trans h'.indices.symm
  totalPuts := h.totalPuts.trans h'.totalPuts.symm
  newest k := (h.newest k).trans (h'.newest k).symm

/-- **`put_batch` and `bulk_ingest` do what the puts do**, for any threshold of the memtable.
With the files and the worker in order, they succeed exactly if the puts do. -/
theorem batch_eq_puts (e : Engine) (entries : List (Bytes × Bytes)) :
    (∀ c ∈ [Call.putBatch entries, .bulkIngest entries], ∀ u e₁ e',
        exec c e = .ok u e₁ → e.run (puts entries) = some e' → SameData e₁ e') ∧
      (e.wal.Reliable → Alive e → ∀ c ∈ [Call.putBatch entries, .bulkIngest entries],
        (∃ u e₁, exec c e = .ok u e₁) ↔ ∃ e', e.run (puts entries) = some e') := by
  have hingested : ∀ c ∈ [Call.putBatch entries, .bulkIngest entries], ∀ u e₁,
      exec c e = .ok u e₁ → Ingested entries e e₁ := by
    intro c hc u e₁ h
    rcases List.mem_pair.mp hc with rfl | rfl
    · exact putBatch_ingested h
    · exact bulkIngest_ingested h
  refine ⟨fun c hc u e₁ e' h h' => (hingested c hc u e₁ h).sameData (puts_ingested h'), ?_⟩
  intro hwal halive c hc
  constructor
  · rintro ⟨u, e₁, h⟩
    exact puts_succeed hwal halive (hingested c hc u e₁ h).state
  · rintro ⟨e', h⟩
    have hstate := (puts_ingested h).state
    rcases List.mem_pair.mp hc with rfl | rfl
    · obtain ⟨e₁, hexec⟩ := putBatch_succeeds hwal halive hstate
      exact ⟨(), e₁, hexec⟩
    · obtain ⟨e₁, hexec⟩ := bulkIngest_succeeds hwal halive hstate
      exact ⟨(), e₁, hexec⟩

omit [Codec]

/-- A key whose value fills the memtable, and is then overwritten by an empty one. -/
def shrinking : List (Bytes × Bytes) := [([107], [1, 2, 3]), ([107], [])]

/-- The puts flush in the middle, `put_batch` at the end, and `bulk_ingest` not at all. -/
theorem batch_eq_puts_shrinking : ∃ e e₁ e₂ e', @Engine.open storedCodec 10 ∅ none [] = .ok e ∧
    @exec storedCodec (.putBatch shrinking) e = .ok () e₁ ∧
    @exec storedCodec (.bulkIngest shrinking) e = .ok () e₂ ∧
    @run storedCodec e (puts shrinking) = some e' ∧ SameData e₁ e' ∧ SameData e₂ e' ∧
    (e₁.memtable.isEmpty, e₂.memtable.isEmpty, e'.memtable.isEmpty) = (true, false, false) ∧
    (e₁.compactor.queue.length, e₂.compactor.queue.length, e'.compactor.queue.length)
      = (1, 0, 1) := by
  have hopened : ((@Engine.open storedCodec 10 ∅ none []).toOption.map fun e =>
      (success (@exec storedCodec (.putBatch shrinking) e)).bind fun e₁ =>
      (success (@exec storedCodec (.bulkIngest shrinking) e)).bind fun e₂ =>
      (@run storedCodec e (puts shrinking)).map fun e' =>
        ((e₁.memtable.isEmpty, e₂.memtable.isEmpty, e'.memtable.isEmpty),
          (e₁.compactor.queue.length, e₂.compactor.queue.length, e'.compactor.queue.length)))
      = some (some ((true, false, false), (1, 0, 1))) := by
    decide +kernel
  obtain ⟨e, hopen, hruns⟩ := Option.map_eq_some_iff.mp hopened
  obtain ⟨e₁, hbatch, hruns⟩ := Option.bind_eq_some_iff.mp hruns
  obtain ⟨e₂, hingest, hruns⟩ := Option.bind_eq_some_iff.mp hruns
  obtain ⟨e', hputs, hsizes⟩ := Option.map_eq_some_iff.mp hruns
  obtain ⟨_, hbatch⟩ := success_eq_some hbatch
  obtain ⟨_, hingest⟩ := success_eq_some hingest
  have hsame := (@batch_eq_puts storedCodec e shrinking).1
  exact ⟨e, e₁, e₂, e', eq_ok_of_toOption hopen, hbatch, hingest, hputs,
    hsame _ (by simp) _ _ _ hbatch hputs, hsame _ (by simp) _ _ _ hingest hputs,
    (Prod.mk.injEq _ _ _ _).mp hsizes⟩

end Engine

end Uldb
