/-
What a read sees of a page that waits in the channel of the worker.

The memtable of a flush is drained into the page before it is kept as a frozen
memtable, so the frozen memtables have nothing to bridge the gap with: until the
worker receives the page, reads see the cache and the levels only.

* `waiting_visible_iff` — a waiting page is visible exactly if the cache and the
  levels already answer as the page does;
* `waiting_invisible` — a put that triggers a flush is not visible after it.
-/
import Uldb.Scan
import Uldb.StoredCodec

namespace Uldb

namespace Engine

variable {e : Engine}

/-! ### Waiting pages -/

/-- A page of a flush waits in the channel, and a key of it has not been written
since: neither a later page nor the memtable has an entry for it. -/
structure Waiting (e : Engine) (k : Bytes) (r : PageRecord) : Prop where
  flushed : 0 < e.flushCount
  queue : ∃ earlier page later, e.compactor.queue = earlier ++ page :: later ∧
    page.lookup k = some r ∧ ∀ p ∈ later, p.lookup k = none
  memtable : e.memtable.getEntry k = none

/-- The reads and the scans answer `v` for a key. -/
def Visible (e : Engine) (k : Bytes) (v : Option Bytes) : Prop :=
  (e.get k).1 = v ∧ ∀ start stop, InRange start stop k →
    ∃ out, e.scan start stop = .ok out ∧ ∀ w, (k, w) ∈ out ↔ v = some w

/-- The cache and the levels answer `v` for a key: a cached value is `v`, a miss
finds `v` in the levels, and so do the scans of the levels. -/
structure Below (e : Engine) (k : Bytes) (v : Option Bytes) : Prop where
  hit : ∀ w, e.cache.lookup k = some w → v = some w
  miss : e.cache.lookup k = none → e.compactor.compaction.get k = v
  scan : ∀ start stop, InRange start stop k → (e.compactor.compaction.scan start stop)[k]? = v

theorem visible_iff (he : e.Drained) (hflush : 0 < e.flushCount) {k : Bytes}
    (hmem : e.memtable.getEntry k = none) (v : Option Bytes) : e.Visible k v ↔ e.Below k v := by
  have hfull : ¬e.Unflushed := by
    rintro ⟨_, hzero⟩
    omega
  -- without an entry in the memtable, a read asks the cache and the levels
  have hget : (e.get k).1 = (e.cache.lookup k).or (e.compactor.compaction.get k) := by
    rw [get_fst, hmem, he.below_eq]
    rfl
  -- and a scan asks the levels alone
  have hscan : ∀ start stop, InRange start stop k →
      ((∃ out, e.scan start stop = .ok out ∧ ∀ w, (k, w) ∈ out ↔ v = some w) ↔
        (e.compactor.compaction.scan start stop)[k]? = v) := by
    intro start stop hk
    obtain ⟨out, hout, _, hall⟩ := scan_spec he hk.start_le
    have hmem_out : ∀ w, (k, w) ∈ out ↔ (e.compactor.compaction.scan start stop)[k]? = some w := by
      intro w
      rw [hall, scanned, if_pos hk, hmem, scannedBelow, if_neg hfull]
      rfl
    constructor
    · rintro ⟨out', hout', hv⟩
      obtain rfl : out = out' := by simpa [hout] using hout'
      apply Option.ext
      intro w
      rw [← hmem_out, hv]
    · rintro rfl
      exact ⟨out, hout, hmem_out⟩
  constructor
  · rintro ⟨hv, hvs⟩
    rw [hget] at hv
    refine ⟨fun w hw => ?_, fun hw => ?_, fun start stop hk => (hscan start stop hk).mp (hvs _ _ hk)⟩
    · rw [hw] at hv
      exact hv.symm
    · rw [hw] at hv
      exact hv
  · intro h
    refine ⟨?_, fun start stop hk => (hscan start stop hk).mpr (h.scan start stop hk)⟩
    rw [hget]
    cases hw : e.cache.lookup k with
    | some w => exact (h.hit w hw).symm
    | none => exact h.miss hw

/-- **Visibility.**  In every engine reached by any calls and worker steps, a key
of a waiting page that was not written since is read as the page has it exactly
if the cache and the levels already answer so. -/
theorem waiting_visible_iff [Codec] {t : ℕ} {dir : Dir} {log : Option Bytes}
    {outcomes : List (Option WriteFault)} {e₀ : Engine}
    (hopen : Engine.open t dir log outcomes = .ok e₀) (cs : List Call) {k : Bytes}
    {r : PageRecord} (hwait : (e₀.after cs).Waiting k r) :
    (e₀.after cs).Visible k r.live ↔ (e₀.after cs).Below k r.live := by
  have hdrained := (opened_of_open hopen).drained.after cs
  exact visible_iff hdrained hwait.flushed hwait.memtable r.live

/-! ### One key -/

/-- The key waits in the only page of the queue. -/
theorem waiting_of_queue {cs : List Call} {e : Engine}
    (he : @openRun storedCodec 1 ∅ none cs = some e)
    (h : ((@openRun storedCodec 1 ∅ none cs).map fun e =>
      (decide (0 < e.flushCount), e.compactor.queue.map fun p => p.lookup [107],
        (e.memtable.getEntry [107]).isNone))
      = some (true, [some ⟨[107], [118], false⟩], true)) :
    e.Waiting [107] ⟨[107], [118], false⟩ := by
  rw [he, Option.map_some, Option.some_inj, Prod.mk.injEq, Prod.mk.injEq] at h
  obtain ⟨hflush, hqueue, hmem⟩ := h
  obtain ⟨page, hpage, hlookup⟩ := List.map_eq_singleton_iff.mp hqueue
  refine ⟨of_decide_eq_true hflush, ⟨[], page, [], ?_, hlookup, by simp⟩, ?_⟩
  · rw [hpage, List.nil_append]
  · exact Option.isNone_iff_eq_none.mp hmem

/-- A put of the value that the levels already have: the waiting page is visible. -/
theorem waiting_visible_same : ∃ e,
    @openRun storedCodec 1 ∅ none [.put [107] [118], .work, .put [107] [118]] = some e ∧
      e.Waiting [107] ⟨[107], [118], false⟩ ∧ e.Visible [107] (some [118]) := by
  have hsome : (@openRun storedCodec 1 ∅ none [.put [107] [118], .work, .put [107] [118]]).isSome
      = true := by decide +kernel
  obtain ⟨e, he⟩ := Option.isSome_iff_exists.mp hsome
  have hwait := waiting_of_queue he (by decide +kernel)
  refine ⟨e, he, hwait, ?_⟩
  obtain ⟨e₀, hopen, hrun⟩ := @exists_of_openRun storedCodec _ _ _ _ _ he
  have hafter := @after_of_run storedCodec _ _ _ hrun
  rw [← hafter] at hwait ⊢
  refine (@waiting_visible_iff storedCodec _ _ _ _ _ hopen _ _ _ hwait).mpr ?_
  rw [hafter]
  -- the levels are one sorted page, and the cache is empty
  have hlevels : ((@openRun storedCodec 1 ∅ none
      [.put [107] [118], .work, .put [107] [118]]).map fun e =>
      (e.cache.lookup [107], e.compactor.compaction.get [107],
        e.compactor.compaction.allPages.map fun p => p.records))
      = some (none, some [118], [[⟨[107], [118], false⟩]]) := by decide +kernel
  rw [he, Option.map_some, Option.some_inj, Prod.mk.injEq, Prod.mk.injEq] at hlevels
  obtain ⟨hcache, hget, hpages⟩ := hlevels
  have hsorted : e.compactor.compaction.Sorted := by
    intro p hp
    have hrecords : p.records ∈ [[⟨[107], [118], false⟩]] := by
      rw [← hpages]
      exact List.mem_map_of_mem hp
    rw [Page.Sorted, List.mem_singleton.mp hrecords]
    exact List.pairwise_singleton _ _
  refine ⟨fun w hw => ?_, fun _ => hget, fun start stop hk => ?_⟩
  · rw [hcache] at hw
    exact absurd hw (by simp)
  · rw [CompactionManager.getElem?_scan hsorted, if_pos hk, hget]
    rfl

/-- The first put of a key that triggers a flush is not visible until the worker
has received its page. -/
theorem waiting_invisible :
    ¬∀ (t : ℕ) (dir : Dir) (log : Option Bytes) (outcomes : List (Option WriteFault))
      (e₀ : Engine), @Engine.open storedCodec t dir log outcomes = .ok e₀ →
      ∀ (cs : List Call) (k : Bytes) (r : PageRecord),
        (@after storedCodec e₀ cs).Waiting k r → (@after storedCodec e₀ cs).Visible k r.live := by
  intro h
  have hsome : (@openRun storedCodec 1 ∅ none [.put [107] [118]]).isSome = true := by
    decide +kernel
  obtain ⟨e, he⟩ := Option.isSome_iff_exists.mp hsome
  have hwait := waiting_of_queue he (by decide +kernel)
  obtain ⟨e₀, hopen, hrun⟩ := @exists_of_openRun storedCodec _ _ _ _ _ he
  have hafter := @after_of_run storedCodec _ _ _ hrun
  rw [← hafter] at hwait
  obtain ⟨hget, _⟩ := h _ _ _ _ e₀ hopen _ _ _ hwait
  rw [hafter] at hget
  have hnone : ((@openRun storedCodec 1 ∅ none [.put [107] [118]]).map fun e => (e.get [107]).1)
      = some none := by decide +kernel
  rw [he, Option.map_some, Option.some_inj, hget] at hnone
  exact absurd hnone (by decide)

end Engine

end Uldb
