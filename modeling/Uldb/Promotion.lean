/-
The promotion of L1 into L2.

A merge into L2 drops tombstones.  It runs right after L0 has been merged into L1, so the
merged pages are all the pages there are: one in L1, at most one in L2, and nothing older
that a tombstone could hide (`Reachable.leveled`).

* `addL0Page_eq` — when a flush promotes L1;
* `promotion_invisible` — a promotion changes no read and no scan.
-/
import Uldb.Levels
import Uldb.CompactionOrder
import Uldb.PageFiles

namespace Uldb

/-- Maps with the same lookups list the same entries. -/
theorem toList_eq_of_getElem? {a b : Std.TreeMap Bytes Bytes} (h : ∀ k : Bytes, a[k]? = b[k]?) :
    a.toList = b.toList := by
  refine Std.TreeMap.equiv_iff_toList_eq.mp (Std.TreeMap.Equiv.of_toList_perm ?_)
  refine (List.perm_ext_iff_of_nodup ?_ ?_).mpr fun kv => ?_
  · exact (Std.TreeMap.map_fst_toList_eq_keys ▸ Std.TreeMap.nodup_keys).of_map _
  · exact (Std.TreeMap.map_fst_toList_eq_keys ▸ Std.TreeMap.nodup_keys).of_map _
  · obtain ⟨k, v⟩ := kv
    rw [Std.TreeMap.mem_toList_iff_getElem?_eq_some, Std.TreeMap.mem_toList_iff_getElem?_eq_some, h]

namespace CompactionManager

section

variable [Codec]

/-- The first half of `compactL0ToL1`. -/
def mergeL0 (cm : CompactionManager) : CompactionManager :=
  { cm with
    l0 := []
    l1 := [mergePages (cm.l0 ++ cm.l1) false]
    compactionCount := cm.compactionCount + 1 }

/-- The state in which adding a page runs `compactL1ToL2`, if it does. -/
def promotion (cm : CompactionManager) (page : Page) : Option CompactionManager :=
  let full := { cm with l0 := cm.l0 ++ [page] }
  if l0Limit ≤ full.l0.length ∧
      l1SizeLimit < (mergePages (full.l0 ++ full.l1) false).serialize.length then
    some full.mergeL0
  else none

/-- The managers built from a fresh one by sorted pages, and by the levels of such managers,
record for record. -/
inductive Reachable : CompactionManager → Prop
  | new : Reachable new
  | addL0Page {cm : CompactionManager} {page : Page} (hcm : Reachable cm) (hpage : page.Sorted) :
      Reachable (cm.addL0Page page)
  | loadPages {cm saved : CompactionManager} {level : ℕ} {pages : List Page}
      (hcm : Reachable cm) (hsaved : Reachable saved)
      (hpages : pages.map (·.records) = (PageStore.levelOf saved level).map (·.records)) :
      Reachable (cm.loadPages level pages)

/-- L1 and L2 are at most one page each. -/
structure Leveled (cm : CompactionManager) : Prop where
  l1 : cm.l1.length ≤ 1
  l2 : cm.l2.length ≤ 1
  sorted : cm.Sorted

/-- **Adding a page**, by whether it promotes L1. -/
theorem addL0Page_eq (cm : CompactionManager) (page : Page) :
    cm.addL0Page page = match cm.promotion page with
      | some pre => pre.compactL1ToL2
      | none =>
        if l0Limit ≤ cm.l0.length + 1 then { cm with l0 := cm.l0 ++ [page] }.mergeL0
        else { cm with l0 := cm.l0 ++ [page] } := by
  rw [CompactionManager.addL0Page, promotion]
  simp only [List.length_append, List.length_singleton, compactL0ToL1]
  by_cases hfull : l0Limit ≤ cm.l0.length + 1
  · by_cases hsize : l1SizeLimit <
        (mergePages (cm.l0 ++ [page] ++ cm.l1) false).serialize.length
    · rw [if_pos hfull, if_pos hsize, if_pos ⟨hfull, hsize⟩]
      rfl
    · rw [if_pos hfull, if_neg hsize, if_neg fun h => hsize h.2]
      simp only [if_pos hfull]
      rfl
  · rw [if_neg hfull, if_neg fun h => hfull h.1]
    simp only [if_neg hfull]

theorem eq_mergeL0_of_promotion {cm pre : CompactionManager} {page : Page}
    (h : cm.promotion page = some pre) : { cm with l0 := cm.l0 ++ [page] }.mergeL0 = pre := by
  rw [promotion] at h
  by_cases hc : l0Limit ≤ (cm.l0 ++ [page]).length ∧
      l1SizeLimit < (mergePages (cm.l0 ++ [page] ++ cm.l1) false).serialize.length
  · rw [if_pos hc, Option.some_inj] at h
    exact h
  · rw [if_neg hc] at h
    exact absurd h (by simp)

omit [Codec] in
theorem Leveled.mergeL0 {cm : CompactionManager} (h : cm.Leveled) : cm.mergeL0.Settled := by
  refine ⟨rfl, by simp [CompactionManager.mergeL0], h.l2, fun p hp => ?_⟩
  rcases (by simpa [CompactionManager.mergeL0, allPages] using hp :
    p = mergePages (cm.l0 ++ cm.l1) false ∨ p ∈ cm.l2) with rfl | hp
  · exact mergePages_sorted _ _
  · exact h.sorted p (by simp [allPages, hp])

omit [Codec] in
/-- **Dropping the tombstones** of a settled manager changes no read. -/
theorem Settled.compactL1ToL2 {cm : CompactionManager} (h : cm.Settled) :
    cm.compactL1ToL2.Settled ∧ ∀ k, cm.compactL1ToL2.get k = cm.get k := by
  have hset : cm.compactL1ToL2.Settled := by
    refine ⟨h.l0, by simp [CompactionManager.compactL1ToL2],
      by simp [CompactionManager.compactL1ToL2], fun p hp => ?_⟩
    have hp : p = mergePages (cm.l1 ++ cm.l2) true := by
      simpa [CompactionManager.compactL1ToL2, allPages, h.l0] using hp
    rw [hp]
    exact mergePages_sorted _ _
  refine ⟨hset, fun k => ?_⟩
  rw [hset.get_eq, h.get_eq]
  show answer (oldest [mergePages (cm.l1 ++ cm.l2) true] k) = _
  rw [oldest, List.findSome?_singleton, lookup_mergePages, answer_filter_live]
  rfl

omit [Codec] in
theorem Settled.leveled {cm : CompactionManager} (h : cm.Settled) : cm.Leveled :=
  ⟨h.l1, h.l2, h.sorted⟩

omit [Codec] in
theorem Leveled.push {cm : CompactionManager} (h : cm.Leveled) {page : Page}
    (hpage : page.Sorted) : { cm with l0 := cm.l0 ++ [page] }.Leveled := by
  refine ⟨h.l1, h.l2, fun p hp => ?_⟩
  rcases (by simpa [allPages, or_assoc] using hp :
    p ∈ cm.l0 ∨ p = page ∨ p ∈ cm.l1 ∨ p ∈ cm.l2) with hp | rfl | hp
  · exact h.sorted p (by simp [allPages, hp])
  · exact hpage
  · exact h.sorted p (by simpa [allPages] using .inr hp)

theorem Leveled.addL0Page {cm : CompactionManager} (h : cm.Leveled) {page : Page}
    (hpage : page.Sorted) : (cm.addL0Page page).Leveled := by
  have hmerge := (h.push hpage).mergeL0
  rw [addL0Page_eq]
  cases hp : cm.promotion page with
  | some pre =>
    rw [eq_mergeL0_of_promotion hp] at hmerge
    exact hmerge.compactL1ToL2.1.leveled
  | none =>
    by_cases hfull : l0Limit ≤ cm.l0.length + 1
    · simp only [if_pos hfull]
      exact hmerge.leveled
    · simp only [if_neg hfull]
      exact h.push hpage

omit [Codec] in
theorem Leveled.loadPages {cm saved : CompactionManager} (h : cm.Leveled) (hs : saved.Leveled)
    {level : ℕ} {pages : List Page}
    (hpages : pages.map (·.records) = (PageStore.levelOf saved level).map (·.records)) :
    (cm.loadPages level pages).Leveled := by
  have hlen : pages.length = (PageStore.levelOf saved level).length := by
    simpa using congrArg List.length hpages
  have hsorted : ∀ p ∈ pages, p.Sorted := by
    intro p hp
    have hmem : p.records ∈ pages.map (·.records) := List.mem_map_of_mem hp
    rw [hpages] at hmem
    obtain ⟨q, hq, hrec⟩ := List.mem_map.mp hmem
    have hq' : q.Sorted := hs.sorted q (PageStore.mem_allPages_of_levelOf
      (List.getElem?_of_mem hq).choose_spec).2
    rw [Page.Sorted, ← hrec]
    exact hq'
  refine ⟨?_, ?_, h.sorted.loadPages hsorted⟩
  · rcases level with _ | _ | _ | level
    · exact h.l1
    · exact hlen.trans_le hs.l1
    · exact h.l1
    · exact h.l1
  · rcases level with _ | _ | _ | level
    · exact h.l2
    · exact h.l2
    · exact hlen.trans_le hs.l2
    · exact h.l2

theorem Reachable.leveled {cm : CompactionManager} (h : Reachable cm) : cm.Leveled := by
  induction h with
  | new => exact settled_new.leveled
  | addL0Page _ hpage ih => exact ih.addL0Page hpage
  | loadPages _ _ hpages ih ihs => exact ih.loadPages ihs hpages

/-- **A promotion is invisible.**  When adding a page promotes L1, the promotion is the last
thing it does; every read and every scan gives the same before and after, and L2 is one
sorted page without tombstones. -/
theorem promotion_invisible {cm pre : CompactionManager} {page : Page} (hcm : Reachable cm)
    (hpage : page.Sorted) (hpre : cm.promotion page = some pre) :
    cm.addL0Page page = pre.compactL1ToL2 ∧
      (∀ k, pre.compactL1ToL2.get k = pre.get k) ∧
      (∀ start stop, (pre.compactL1ToL2.scan start stop).toList = (pre.scan start stop).toList) ∧
      ∃ p, pre.compactL1ToL2.l2 = [p] ∧ p.Sorted ∧ ∀ r ∈ p.records, r.tombstone = false := by
  have hset : pre.Settled := by
    rw [← eq_mergeL0_of_promotion hpre]
    exact (hcm.leveled.push hpage).mergeL0
  obtain ⟨hset', hget⟩ := hset.compactL1ToL2
  refine ⟨by rw [addL0Page_eq, hpre], hget, fun start stop => ?_, _, rfl, mergePages_sorted _ _,
    fun r hr => ?_⟩
  · refine toList_eq_of_getElem? fun k => ?_
    rw [getElem?_scan hset'.sorted, getElem?_scan hset.sorted, hget]
  · simpa using (mem_mergePages.mp hr).2

end

theorem promotion_of_full [Codec] {cm : CompactionManager} {page : Page}
    (hfull : l0Limit ≤ (cm.l0 ++ [page]).length)
    (hlarge : l1SizeLimit < (mergePages (cm.l0 ++ [page] ++ cm.l1) false).serialize.length) :
    ∃ pre, promotion cm page = some pre := ⟨_, if_pos ⟨hfull, hlarge⟩⟩

/-- A page with a record of the key `j` and a value of the key `k`. -/
def bigPage (value : Bytes) : Page := ⟨[⟨[106], [1], false⟩, ⟨[107], value, false⟩], 0⟩

theorem bigPage_sorted (value : Bytes) : (bigPage value).Sorted :=
  List.pairwise_pair.mpr (by decide : compare ([106] : Bytes) [107] = .lt)

/-- A page with a tombstone of the key `j`. -/
def deletePage : Page := ⟨[⟨[106], [], true⟩], 0⟩

theorem length_le_serialize {p : Page} {r : PageRecord} (hr : r ∈ p.records) :
    r.value.length ≤ (@Page.serialize storedCodec p).length := by
  have hrecord : r.value.length ≤ p.body.length := by
    have hsub := List.Sublist.length_le
      (List.sublist_flatten_of_mem (List.mem_map_of_mem (f := Page.recordBytes) hr))
    rw [Page.recordBytes_length, ← List.flatMap_def] at hsub
    exact le_trans (by omega) hsub
  have hstored : p.body.length ≤ (@Page.stored storedCodec p).1.length := by
    unfold Page.stored
    split
    · exact StoredCodec.length_le_deflateAux _ _
    · exact le_refl _
  unfold Page.serialize
  simp only [List.length_append]
  omega

theorem exists_promotion {value : Bytes} (hvalue : l1SizeLimit < value.length) :
    ∃ pre, @promotion storedCodec (@addPages storedCodec new [bigPage value, deletePage, deletePage])
      deletePage = some pre := by
  have hpages : @addPages storedCodec new [bigPage value, deletePage, deletePage]
      = ⟨[bigPage value, deletePage, deletePage], [], [], 0⟩ := rfl
  rw [hpages]
  refine @promotion_of_full storedCodec _ _ (by simp [l0Limit]) (hvalue.trans_le ?_)
  refine length_le_serialize (r := ⟨[107], value, false⟩) (mem_mergePages.mpr ⟨?_, by simp⟩)
  rw [getElem?_latest]
  simp [Page.lookup, bigPage]

/-- Bytes without a pattern, which no compression makes shorter. -/
def noise (n : ℕ) : Bytes :=
  (List.iterate (fun x : UInt64 => x * 6364136223846793005 + 1442695040888963407) 42 n).map
    fun x => UInt8.ofNat (x.toNat / 2 ^ 33)

theorem length_noise (n : ℕ) : (noise n).length = n := by
  rw [noise, List.length_map, List.length_iterate]

/-- Three deletes after a large value: the fourth page promotes L1. -/
theorem promotion_invisible_four :
    ∃ pre, @promotion storedCodec
        (@addPages storedCodec new [bigPage (noise 70000), deletePage, deletePage])
        deletePage = some pre ∧
      ∀ k, pre.compactL1ToL2.get k = pre.get k := by
  have hvalue : l1SizeLimit < (noise 70000).length := by
    rw [length_noise]
    decide
  obtain ⟨pre, hpre⟩ := exists_promotion hvalue
  have hdelete : deletePage.Sorted := by simp [Page.Sorted, deletePage]
  have hreach : @Reachable storedCodec (@addPages storedCodec new
      [bigPage (noise 70000), deletePage, deletePage]) := by
    let : Codec := storedCodec
    exact .addL0Page (.addL0Page (.addL0Page .new (bigPage_sorted _)) hdelete) hdelete
  have hinvisible := @promotion_invisible storedCodec _ pre deletePage hreach hdelete hpre
  exact ⟨pre, hpre, hinvisible.2.1⟩

end CompactionManager

end Uldb
