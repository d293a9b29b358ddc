/-
The order of flushed pages under compaction.

`merge_pages` expects its pages newest-first, but `compact_l0_to_l1` hands it L0
in flush order.  So within one batch of four flushes the *oldest* record of a key
survives, while batches and the pages still in L0 are read newest-first.

* `addPages_batch` — what four flushes do to a settled manager;
* `get_addPages` — what a read returns after any run of flushes;
* `get_addPages_eq_newest_iff` — exactly when that is the newest record.
-/
import Uldb.Compaction
import Uldb.StoredCodec

namespace Uldb

/-- The record of a key in the last page that has one. -/
def newest (pages : List Page) (k : Bytes) : Option PageRecord :=
  pages.reverse.findSome? fun p => p.lookup k

/-- The record of a key in the first page that has one. -/
def oldest (pages : List Page) (k : Bytes) : Option PageRecord :=
  pages.findSome? fun p => p.lookup k

/-- A run of flushes cut into batches of `l0Limit` pages, and the pages left over. -/
def batches : List Page → List (List Page) × List Page
  | a :: b :: c :: d :: rest => ([a, b, c, d] :: (batches rest).1, (batches rest).2)
  | tail => ([], tail)

/-- The last batch in which a key occurs. -/
def lastBatch (pages : List Page) (k : Bytes) : Option (List Page) :=
  (batches pages).1.reverse.find? fun batch => (oldest batch k).isSome

theorem newest_append (ps qs : List Page) (k : Bytes) :
    newest (ps ++ qs) k = (newest qs k).or (newest ps k) := by
  rw [newest, List.reverse_append, List.findSome?_append]
  rfl

/-- Both ends of a list of pages have a record of the key, or neither has. -/
theorem newest_eq_none_iff (pages : List Page) (k : Bytes) :
    newest pages k = none ↔ oldest pages k = none := by
  rw [newest, oldest, List.findSome?_eq_none_iff, List.findSome?_eq_none_iff]
  simp only [List.mem_reverse]

theorem answer_filter_live (o : Option PageRecord) :
    answer (o.filter fun r => !(true && r.tombstone)) = answer o := by
  cases o with
  | none => rfl
  | some r => cases ht : r.tombstone <;> simp [answer, PageRecord.live, Option.filter, ht]

theorem reverse_of_length_le_one {α : Type*} {l : List α} (h : l.length ≤ 1) : l.reverse = l := by
  rcases l with - | ⟨a, - | ⟨b, l⟩⟩
  · rfl
  · rfl
  · simp at h

/-! ### Batches -/

theorem batches_of_length_lt {tail : List Page} (h : tail.length < l0Limit) :
    batches tail = ([], tail) := by
  rcases tail with - | ⟨a, - | ⟨b, - | ⟨c, - | ⟨d, tail⟩⟩⟩⟩
  · rfl
  · rfl
  · rfl
  · rfl
  · simp [l0Limit] at h
    omega

theorem length_lt_of_not_batch {tail : List Page}
    (h : ∀ a b c d rest, tail = a :: b :: c :: d :: rest → False) : tail.length < l0Limit := by
  rcases tail with - | ⟨a, - | ⟨b, - | ⟨c, - | ⟨d, tail⟩⟩⟩⟩
  · simp [l0Limit]
  · simp [l0Limit]
  · simp [l0Limit]
  · simp [l0Limit]
  · exact absurd rfl (h a b c d tail)

theorem lastBatch_cons (a b c d : Page) (rest : List Page) (k : Bytes) :
    lastBatch (a :: b :: c :: d :: rest) k = (lastBatch rest k).or
      (if (oldest [a, b, c, d] k).isSome then some [a, b, c, d] else none) := by
  rw [lastBatch, batches, List.reverse_cons, List.find?_append, lastBatch]
  congr 1
  by_cases h : (oldest [a, b, c, d] k).isSome <;> simp [h]

/-- The last batch of a key has a record of it. -/
theorem exists_of_lastBatch {pages batch : List Page} {k : Bytes}
    (h : lastBatch pages k = some batch) : ∃ r, oldest batch k = some r :=
  Option.isSome_iff_exists.mp (by simpa using List.find?_some h)

/-- The newest record of a run, by the pages left over and the last batch. -/
theorem newest_eq_batches (pages : List Page) (k : Bytes) :
    newest pages k
      = (newest (batches pages).2 k).or ((lastBatch pages k).bind fun batch => newest batch k) := by
  induction pages using batches.induct with
  | case1 a b c d rest ih =>
    have hsplit : newest (a :: b :: c :: d :: rest) k
        = (newest rest k).or (newest [a, b, c, d] k) := newest_append [a, b, c, d] rest k
    rw [hsplit, ih, batches, lastBatch_cons, Option.or_assoc]
    congr 1
    cases hb : lastBatch rest k with
    | some batch =>
      obtain ⟨r, hr⟩ := exists_of_lastBatch hb
      cases hn : newest batch k with
      | none => exact absurd ((newest_eq_none_iff batch k).mp hn) (by simp [hr])
      | some r' => simp [hn]
    | none =>
      cases ho : oldest [a, b, c, d] k with
      | none => simp [(newest_eq_none_iff _ k).mpr ho]
      | some r => simp
  | case2 tail htail =>
    rw [lastBatch, batches_of_length_lt (length_lt_of_not_batch htail)]
    simp

namespace CompactionManager

section

variable [Codec]

/-- Flush pages one after the other. -/
def addPages (cm : CompactionManager) (pages : List Page) : CompactionManager :=
  pages.foldl addL0Page cm

/-- Between two compactions: nothing in L0, at most one page in each other level. -/
structure Settled (cm : CompactionManager) : Prop where
  l0 : cm.l0 = []
  l1 : cm.l1.length ≤ 1
  l2 : cm.l2.length ≤ 1
  sorted : cm.Sorted

omit [Codec] in
theorem settled_new : new.Settled :=
  ⟨rfl, by simp [new], by simp [new], fun p hp => absurd hp (by simp [new, allPages])⟩

/-! ### One batch -/

omit [Codec] in
/-- A read of a settled manager asks L1, then L2. -/
theorem Settled.get_eq {cm : CompactionManager} (h : cm.Settled) (k : Bytes) :
    cm.get k = answer (oldest (cm.l1 ++ cm.l2) k) := by
  rw [CompactionManager.get_eq h.sorted, readOrder, h.l0, reverse_of_length_le_one h.l1,
    reverse_of_length_le_one h.l2]
  rfl

/-- Four pages in L0 are merged, the oldest record of a key first. -/
theorem compactL0ToL1_settled {cm : CompactionManager} {batch : List Page}
    (hcm : cm.Settled) (k : Bytes) :
    ({ cm with l0 := batch }.compactL0ToL1).Settled ∧
      ({ cm with l0 := batch }.compactL0ToL1).get k
        = ((oldest batch k).map PageRecord.live).getD (cm.get k) := by
  set merged := mergePages (batch ++ cm.l1) false with hmerged
  have hsort : merged.Sorted := mergePages_sorted _ _
  have hlook : merged.lookup k = (oldest batch k).or (oldest cm.l1 k) := by
    rw [hmerged, lookup_mergePages, List.findSome?_append]
    show Option.filter _ ((oldest batch k).or (oldest cm.l1 k)) = _
    cases (oldest batch k).or (oldest cm.l1 k) with
    | none => rfl
    | some r => rfl
  -- either way the answer is the one of the merged page, or else of L2
  have hans : answer ((merged.lookup k).or (oldest cm.l2 k))
      = ((oldest batch k).map PageRecord.live).getD (cm.get k) := by
    rw [hlook, hcm.get_eq, oldest, oldest, oldest, oldest, List.findSome?_append]
    cases batch.findSome? (fun p => p.lookup k) <;> simp [answer]
  have hsorted_l2 : ∀ p ∈ cm.l2, p.Sorted := fun p hp => hcm.sorted p (by simp [allPages, hp])
  by_cases hsize : l1SizeLimit < merged.serialize.length
  · have heq : { cm with l0 := batch }.compactL0ToL1
        = ⟨[], [], [mergePages ([merged] ++ cm.l2) true], cm.compactionCount + 1 + 1⟩ := by
      rw [compactL0ToL1]
      simp only [← hmerged, if_pos hsize]
      rfl
    have hset : ({ cm with l0 := batch }.compactL0ToL1).Settled := by
      rw [heq]
      refine ⟨rfl, by simp, by simp, fun p hp => ?_⟩
      have : p = mergePages ([merged] ++ cm.l2) true := by simpa [allPages] using hp
      rw [this]
      exact mergePages_sorted _ _
    refine ⟨hset, ?_⟩
    rw [hset.get_eq, ← hans, heq]
    simp only [oldest, List.nil_append, List.findSome?_singleton]
    rw [lookup_mergePages, answer_filter_live, List.findSome?_append, List.findSome?_singleton]
  · have heq : { cm with l0 := batch }.compactL0ToL1
        = ⟨[], [merged], cm.l2, cm.compactionCount + 1⟩ := by
      rw [compactL0ToL1]
      simp only [← hmerged, if_neg hsize]
    have hset : ({ cm with l0 := batch }.compactL0ToL1).Settled := by
      rw [heq]
      refine ⟨rfl, by simp, hcm.l2, fun p hp => ?_⟩
      rcases (by simpa [allPages] using hp : p = merged ∨ p ∈ cm.l2) with rfl | hp
      · exact hsort
      · exact hsorted_l2 p hp
    refine ⟨hset, ?_⟩
    rw [hset.get_eq, ← hans, heq]
    simp [oldest, List.findSome?_cons]
    cases merged.lookup k <;> rfl

/-- **Four flushes**: the oldest record of a key in the batch decides. -/
theorem addPages_batch {cm : CompactionManager} (hcm : cm.Settled) (a b c d : Page) (k : Bytes) :
    (cm.addPages [a, b, c, d]).Settled ∧
      (cm.addPages [a, b, c, d]).get k
        = ((oldest [a, b, c, d] k).map PageRecord.live).getD (cm.get k) := by
  have heq : cm.addPages [a, b, c, d] = { cm with l0 := [a, b, c, d] }.compactL0ToL1 := by
    simp [addPages, addL0Page, hcm.l0, l0Limit]
  rw [heq]
  exact compactL0ToL1_settled hcm k

/-- Fewer than four pages stay in L0, the newest one read first. -/
theorem get_addPages_tail {cm : CompactionManager} (hcm : cm.Settled) {tail : List Page}
    (hlen : tail.length < l0Limit) (htail : ∀ p ∈ tail, p.Sorted) (k : Bytes) :
    (cm.addPages tail).get k = ((newest tail k).map PageRecord.live).getD (cm.get k) := by
  have heq : cm.addPages tail = { cm with l0 := tail } := by
    rcases tail with - | ⟨a, - | ⟨b, - | ⟨c, - | ⟨d, tail⟩⟩⟩⟩
    · show cm = _
      rw [← hcm.l0]
    · simp [addPages, addL0Page, hcm.l0, l0Limit]
    · simp [addPages, addL0Page, hcm.l0, l0Limit]
    · simp [addPages, addL0Page, hcm.l0, l0Limit]
    · simp [l0Limit] at hlen
      omega
  have hsorted : ({ cm with l0 := tail }).Sorted := by
    intro p hp
    rcases (by simpa [allPages] using hp : p ∈ tail ∨ p ∈ cm.l1 ∨ p ∈ cm.l2) with h | h
    · exact htail p h
    · exact hcm.sorted p (by simpa [allPages] using Or.inr h)
  rw [heq, CompactionManager.get_eq hsorted, hcm.get_eq, newest, oldest, readOrder,
    List.findSome?_append, reverse_of_length_le_one hcm.l1, reverse_of_length_le_one hcm.l2]
  cases tail.reverse.findSome? (fun p => p.lookup k) <;> simp [answer]

/-! ### A whole run -/

/-- The last batch in which a key occurs, with that batch's oldest record. -/
def batchHit (pages : List Page) (k : Bytes) : Option PageRecord :=
  (lastBatch pages k).bind fun batch => oldest batch k

/-- **After any run of flushes** a read takes the newest record among the pages
left in L0, then the oldest record of the last batch that has the key. -/
theorem get_addPages {cm : CompactionManager} (hcm : cm.Settled) (pages : List Page)
    (hpages : ∀ p ∈ pages, p.Sorted) (k : Bytes) :
    (cm.addPages pages).get k
      = (((newest (batches pages).2 k).or (batchHit pages k)).map PageRecord.live).getD
          (cm.get k) := by
  induction pages using batches.induct generalizing cm with
  | case1 a b c d rest ih =>
    obtain ⟨hset, hget⟩ := addPages_batch hcm a b c d k
    have hsplit : cm.addPages (a :: b :: c :: d :: rest)
        = (cm.addPages [a, b, c, d]).addPages rest := by simp [addPages]
    rw [hsplit, ih hset fun p hp => hpages p (by simp [hp]), hget, batches, batchHit, batchHit,
      lastBatch_cons]
    cases newest (batches rest).2 k with
    | some r => rfl
    | none =>
      cases hb : lastBatch rest k with
      | some batch =>
        -- the later batch has a record, so the earlier one is not asked
        obtain ⟨r, hr⟩ := exists_of_lastBatch hb
        simp [hr]
      | none =>
        cases ho : oldest [a, b, c, d] k <;> simp [ho]
  | case2 tail htail =>
    have hlen := length_lt_of_not_batch htail
    rw [get_addPages_tail hcm hlen hpages, batchHit, lastBatch, batches_of_length_lt hlen]
    simp

/-- The last batch of a key gives the same answer by its oldest and its newest record. -/
def LastBatchAgrees (pages : List Page) (k : Bytes) : Prop :=
  ∀ batch, lastBatch pages k = some batch → answer (oldest batch k) = answer (newest batch k)

/-- **Exactly when a read returns the newest flushed record**: the key is in one
of the pages still in L0, or the oldest and the newest record of the last batch
that has the key give the same answer. -/
theorem get_addPages_eq_newest_iff (pages : List Page) (hpages : ∀ p ∈ pages, p.Sorted)
    (k : Bytes) :
    (new.addPages pages).get k = answer (newest pages k) ↔
      (∃ p ∈ (batches pages).2, (p.lookup k).isSome) ∨ LastBatchAgrees pages k := by
  have hnew : new.get k = none := get_eq_none fun p hp => absurd hp (by simp [new, allPages])
  rw [get_addPages settled_new pages hpages k, newest_eq_batches pages k, hnew, batchHit]
  cases ht : newest (batches pages).2 k with
  | some r =>
    obtain ⟨p, hp, hr⟩ := List.exists_of_findSome?_eq_some ht
    rw [List.mem_reverse] at hp
    constructor
    · intro _
      exact .inl ⟨p, hp, by rw [hr]; rfl⟩
    · intro _
      rfl
  | none =>
    have htail : ¬∃ p ∈ (batches pages).2, (p.lookup k).isSome := by
      rintro ⟨p, hp, hr⟩
      rw [newest, List.findSome?_eq_none_iff] at ht
      rw [ht p (List.mem_reverse.mpr hp)] at hr
      exact absurd hr (by simp)
    rw [or_iff_right htail, LastBatchAgrees]
    cases hb : lastBatch pages k with
    | none => simp [answer]
    | some batch =>
      obtain ⟨r, hr⟩ := exists_of_lastBatch hb
      simp [hr, answer]

end

/-- A page with one live record of the key `k`. -/
def singlePage (value : Bytes) : Page := ⟨[⟨[107], value, false⟩], 0⟩

/-- Five flushes of one key: the fifth page is still in L0, and the read is right. -/
theorem get_addPages_eq_newest_five :
    (@addPages storedCodec new
      [singlePage [0], singlePage [1], singlePage [2], singlePage [3], singlePage [4]]).get [107]
      = some [4] := by
  have h := (@get_addPages_eq_newest_iff storedCodec
    [singlePage [0], singlePage [1], singlePage [2], singlePage [3], singlePage [4]]
    (by simp [Page.Sorted, singlePage]) [107]).mpr (.inl ⟨singlePage [4], by decide, by decide⟩)
  rw [h]
  decide

/-- Four flushes of one key: the compaction brings the first value back. -/
theorem get_addPages_four_oldest :
    ¬∀ pages : List Page, (∀ p ∈ pages, p.Sorted) → ∀ k : Bytes,
      (@addPages storedCodec new pages).get k = answer (newest pages k) := by
  intro h
  have hfour := h [singlePage [0], singlePage [1], singlePage [2], singlePage [3]]
    (by simp [Page.Sorted, singlePage]) [107]
  -- the read gives `[0]`, the newest record says `[3]`
  exact absurd hfour (by decide +kernel)

end CompactionManager

end Uldb
