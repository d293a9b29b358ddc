/-
Restoring a snapshot.

`snapshot_restore` replaces the trie of the live state, which transactions read.
Reads and scans of the database never ask the trie: they ask the memtable, the
cache and the levels, and a restore leaves those alone.

* `snapshotRestore_eq_ok` — what a restore changes;
* `rolledBack_iff` — a restore rolls the reads back exactly if the storage already
  holds the pairs of the snapshot;
* `restore_misses` — a key changed after the snapshot keeps its new value.
-/
import Uldb.Scan
import Uldb.StoredCodec

namespace Uldb

open Fallible

namespace Engine

/-- Reads answer as the snapshot does, and scans return its pairs. -/
structure RolledBack (name : String) (e : Engine) : Prop where
  get : ∀ k, (e.get k).1 = e.snapshotGet name k
  scan : e.Scans fun k => e.snapshotGet name k

/-- The storage holds the pairs of the snapshot: every entry of the memtable has the
snapshot's value of its key, and for the other keys the cache and the levels have it,
under a read and under a scan. -/
structure StorageHolds (name : String) (e : Engine) : Prop where
  memtable : ∀ k entry, e.memtable.getEntry k = some entry → entry.value = e.snapshotGet name k
  below : ∀ k, e.memtable.getEntry k = none →
    (e.cache.lookup k).or (e.compactor.compaction.get k) = e.snapshotGet name k
  /-- Before the first flush a scan asks the memtable only. -/
  unflushed : e.Unflushed → ∀ k, e.memtable.getEntry k = none → e.snapshotGet name k = none
  levels : ¬e.Unflushed → ∀ start stop k, compare start stop ≠ .gt →
    ¬(InRange start stop k ∧ (e.memtable.getEntry k).isSome = true) →
      (e.compactor.compaction.scan start stop)[k]?
        = if InRange start stop k then e.snapshotGet name k else none

variable {e e' : Engine} {name : String} {u : Unit}

/-- A restore changes the trie of the live state only. -/
theorem snapshotRestore_eq_ok (h : snapshotRestore name e = .ok u e') :
    ∃ snap, e.snapshots[name]? = some snap ∧ e' = { e with state := snap } := by
  rw [snapshotRestore] at h
  cases hsnap : e.snapshots[name]? with
  | none =>
    rw [hsnap] at h
    exact absurd h (by simp)
  | some snap =>
    rw [hsnap, EStateM.Result.ok.injEq] at h
    exact ⟨snap, rfl, h.2.symm⟩

/-- Reads against a map. -/
theorem reads_iff (he : e.Drained) {f : Bytes → Option Bytes} :
    (∀ k, (e.get k).1 = f k) ↔
      (∀ k entry, e.memtable.getEntry k = some entry → entry.value = f k) ∧
        ∀ k, e.memtable.getEntry k = none →
          (e.cache.lookup k).or (e.compactor.compaction.get k) = f k := by
  constructor
  · intro h
    refine ⟨fun k entry hentry => ?_, fun k hnone => ?_⟩
    · rw [← h k, get_fst, hentry]
      rfl
    · rw [← h k, get_fst, hnone, ← he.below_eq k]
      rfl
  · rintro ⟨hmem, hbelow⟩ k
    rw [get_fst]
    cases hentry : e.memtable.getEntry k with
    | some entry => exact hmem k entry hentry
    | none =>
      rw [← hbelow k hentry, ← he.below_eq k]
      rfl

/-- The reads are rolled back to a snapshot that the storage holds, and to no other. -/
theorem Drained.reads_restored_iff (he : e.Drained) : e.RolledBack name ↔ e.StorageHolds name := by
  constructor
  · intro h
    obtain ⟨hmem, hbelow⟩ := (reads_iff he).mp h.get
    obtain ⟨hfast, hfull⟩ := (scans_iff he hmem).mp h.scan
    exact ⟨hmem, hbelow, hfast, hfull⟩
  · intro h
    exact ⟨(reads_iff he).mpr ⟨h.memtable, h.below⟩,
      (scans_iff he h.memtable).mpr ⟨h.unflushed, h.levels⟩⟩

/-- **A restore rolls the reads back** exactly if the storage already held the pairs of
the snapshot right before it, after any calls on an opened database. -/
theorem rolledBack_iff [Codec] {t : ℕ} {dir : Dir} {log : Option Bytes}
    {outcomes : List (Option WriteFault)} {e₀ : Engine}
    (hopen : Engine.open t dir log outcomes = .ok e₀) {cs : List Call}
    (h : snapshotRestore name (e₀.after cs) = .ok u e') :
    e'.RolledBack name ↔ (e₀.after cs).StorageHolds name := by
  have hdrained := (opened_of_open hopen).drained.after cs
  obtain ⟨snap, hsnap, rfl⟩ := snapshotRestore_eq_ok h
  have hrestored : ({ e₀.after cs with state := snap } : Engine).Drained := hdrained
  rw [hrestored.reads_restored_iff]
  -- the restore leaves the storage and the snapshots alone
  exact ⟨fun hs => ⟨hs.memtable, hs.below, hs.unflushed, hs.levels⟩,
    fun hs => ⟨hs.memtable, hs.below, hs.unflushed, hs.levels⟩⟩

/-! ### A changed key -/

/-- Calls on an empty database and a restore: the engines before and after it. -/
def restoreRun (name : String) (cs : List Call) : Option (Engine × Engine) :=
  (@Engine.open storedCodec 1000 ∅ none []).toOption.bind fun e₀ =>
    (success (snapshotRestore name (@after storedCodec e₀ cs))).map fun e' =>
      (@after storedCodec e₀ cs, e')

theorem exists_of_restoreRun {cs : List Call} (h : (restoreRun name cs).isSome = true) :
    ∃ e₀ e', restoreRun name cs = some (@after storedCodec e₀ cs, e') ∧
      @Engine.open storedCodec 1000 ∅ none [] = .ok e₀ ∧
      snapshotRestore name (@after storedCodec e₀ cs) = .ok () e' := by
  obtain ⟨⟨e, e'⟩, hrun⟩ := Option.isSome_iff_exists.mp h
  have hbind := hrun
  rw [restoreRun, Option.bind_eq_some_iff] at hbind
  obtain ⟨e₀, hopen, hbind⟩ := hbind
  obtain ⟨e'', hrestore, heq⟩ := Option.map_eq_some_iff.mp hbind
  rw [Prod.mk.injEq] at heq
  obtain ⟨rfl, rfl⟩ := heq
  obtain ⟨u, hrestore⟩ := success_eq_some hrestore
  exact ⟨e₀, e'', hrun, eq_ok_of_toOption hopen, hrestore⟩

/-- Nothing is written after the snapshot, and it is restored. -/
theorem rolledBack_unwritten : ∃ e e',
    restoreRun "s" [.put [107] [118], .snapshotCreate "s"] = some (e, e') ∧ e'.RolledBack "s" := by
  obtain ⟨e₀, e', hrun, hopen, hrestore⟩ := @exists_of_restoreRun "s"
    [.put [107] [118], .snapshotCreate "s"] (by decide +kernel)
  have hpairs : (restoreRun "s" [.put [107] [118], .snapshotCreate "s"]).map (fun es =>
      (es.1.memtable.entries.toList.map (fun ke => (ke.1, ke.2.value)),
        (es.1.snapshots["s"]?).map Hamt.iter))
      = some ([([107], some [118])], some [([107], [118])]) := by
    decide +kernel
  have hbelow : (restoreRun "s" [.put [107] [118], .snapshotCreate "s"]).map (fun es =>
      (decide es.1.Unflushed, es.1.cache.isEmpty, es.1.compactor.compaction.allPages.isEmpty))
      = some (true, true, true) := by
    decide +kernel
  rw [hrun, Option.map_some, Option.some_inj, Prod.mk.injEq] at hpairs
  rw [hrun, Option.map_some, Option.some_inj, Prod.mk.injEq, Prod.mk.injEq,
    decide_eq_true_eq] at hbelow
  obtain ⟨hentries, hsnap⟩ := hpairs
  obtain ⟨hfast, hcache, hpages⟩ := hbelow
  obtain ⟨snap, hbranch, hiter⟩ := Option.map_eq_some_iff.mp hsnap
  refine ⟨_, e', hrun, (@rolledBack_iff _ _ _ storedCodec _ _ _ _ _ hopen _ hrestore).mpr ?_⟩
  set e := @after storedCodec e₀ [.put [107] [118], .snapshotCreate "s"] with he
  have hget : ∀ k v, e.snapshotGet "s" k = some v ↔ k = [107] ∧ v = [118] := by
    intro k v
    rw [snapshotGet, hbranch, Option.bind_some, ← snap.mem_iter_iff, hiter, List.mem_singleton,
      Prod.mk.injEq]
  have hentry : ∀ k entry, e.memtable.getEntry k = some entry →
      k = [107] ∧ entry.value = some [118] := by
    intro k entry hk
    have hmem := List.mem_map_of_mem (f := fun ke => (ke.1, MemEntry.value ke.2))
      (Std.TreeMap.mem_toList_iff_getElem?_eq_some.mpr hk)
    rw [hentries, List.mem_singleton, Prod.mk.injEq] at hmem
    exact hmem
  have hnone : ∀ k, e.memtable.getEntry k = none → e.snapshotGet "s" k = none := by
    intro k hk
    cases hv : e.snapshotGet "s" k with
    | none => rfl
    | some v =>
      -- the only key of the snapshot has an entry
      obtain ⟨rfl, _⟩ := (hget k v).mp hv
      obtain ⟨ke, hke, hpair⟩ := List.mem_map.mp
        (show (([107], some [118]) : Bytes × Option Bytes) ∈ _ from hentries ▸ List.mem_singleton.mpr rfl)
      rw [Prod.mk.injEq] at hpair
      have hfound := Std.TreeMap.mem_toList_iff_getElem?_eq_some.mp hke
      rw [hpair.1] at hfound
      exact absurd (hfound.symm.trans hk) (by simp)
  refine ⟨fun k entry hk => ?_, fun k hk => ?_, fun _ => hnone, fun hfull => absurd hfast hfull⟩
  · obtain ⟨rfl, hvalue⟩ := hentry k entry hk
    rw [hvalue]
    exact ((hget _ _).mpr ⟨rfl, rfl⟩).symm
  · rw [LruCache.lookup_of_isEmpty hcache, CompactionManager.get_of_isEmpty hpages, hnone k hk]
    rfl

/-- A key is changed after the snapshot: a read after the restore answers the new value. -/
theorem restore_misses :
    ¬∀ (t : ℕ) (dir : Dir) (log : Option Bytes) (outcomes : List (Option WriteFault))
      (e₀ e' : Engine) (cs : List Call) (name : String),
      @Engine.open storedCodec t dir log outcomes = .ok e₀ →
      snapshotRestore name (@after storedCodec e₀ cs) = .ok () e' → e'.RolledBack name := by
  intro h
  obtain ⟨e₀, e', hrun, hopen, hrestore⟩ := @exists_of_restoreRun "s"
    [.put [107] [1], .snapshotCreate "s", .put [107] [2]] (by decide +kernel)
  have hread := (h _ _ _ _ e₀ e' _ "s" hopen hrestore).get [107]
  have hvalues : (restoreRun "s" [.put [107] [1], .snapshotCreate "s", .put [107] [2]]).map
      (fun es => ((es.2.get [107]).1, es.2.snapshotGet "s" [107])) = some (some [2], some [1]) := by
    decide +kernel
  rw [hrun, Option.map_some, Option.some_inj, Prod.mk.injEq, hread] at hvalues
  exact absurd (hvalues.1.symm.trans hvalues.2) (by decide)

end Engine

end Uldb
