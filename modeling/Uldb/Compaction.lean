/-
Leveled compaction (`storage/compaction.rs`).

A manager keeps three levels of pages.  Fresh pages go to L0; four of them are
merged with L1 into one page, and an L1 that has grown too large is merged into
L2, where tombstones are dropped.

On sorted pages each operation is described by the plain lookup of a key:

* `lookup_mergePages` — a merge keeps, for every key, the record of the first
  page that has one;
* `get_eq` — a read takes the record of the first page in read order;
* `getElem?_scan` — a scan returns the same answers as the reads of its range.
-/
import Uldb.PageFormat

namespace Uldb

/-- The number of L0 pages that triggers a compaction. -/
def l0Limit : ℕ := 4

/-- The L1 size above which L1 is merged into L2: 64 KB. -/
def l1SizeLimit : ℕ := 64 * 1024

/-- The pages of the three levels. -/
structure CompactionManager where
  l0 : List Page
  l1 : List Page
  l2 : List Page
  compactionCount : ℕ

/-- The latest record of every key: pages are newest-first, and the first
occurrence of a key wins. -/
def latest (pages : List Page) : Std.TreeMap Bytes PageRecord :=
  pages.foldl (fun m p => p.records.foldl (fun m r => m.insertIfNew r.key r) m) ∅

/-- Merge pages into one sorted page, without tombstones if asked. -/
def mergePages (pages : List Page) (dropTombstones : Bool) : Page :=
  ⟨(latest pages).toList.filterMap fun kr =>
    if dropTombstones && kr.2.tombstone then none else some kr.2, 1⟩

/-- A key is tombstoned in a page. -/
def Page.tombstoned (p : Page) (key : Bytes) : Bool := ((p.find key).map (·.tombstone)).getD false

/-- The page loop of a read: the first page with a value or a tombstone. -/
def getFrom : List Page → Bytes → Option Bytes
  | [], _ => none
  | p :: pages, key =>
    match p.get key with
    | some value => some value
    | none => if p.tombstoned key then none else getFrom pages key

/-- Merge one page's records of a range into a scan result. -/
def scanPage (start stop : Bytes) (m : Std.TreeMap Bytes Bytes) (p : Page) :
    Std.TreeMap Bytes Bytes :=
  (p.range start stop).foldl
    (fun m r => if r.tombstone then m.erase r.key else m.insert r.key r.value) m

namespace CompactionManager

def new : CompactionManager := ⟨[], [], [], 0⟩

/-- Compact L1 into L2, dropping tombstones. -/
def compactL1ToL2 (cm : CompactionManager) : CompactionManager :=
  { cm with
    l1 := []
    l2 := [mergePages (cm.l1 ++ cm.l2) true]
    compactionCount := cm.compactionCount + 1 }

/-- Merge all L0 pages into L1, and promote an L1 that is too large. -/
def compactL0ToL1 [Codec] (cm : CompactionManager) : CompactionManager :=
  let merged := mergePages (cm.l0 ++ cm.l1) false
  let cm := { cm with l0 := [], l1 := [merged], compactionCount := cm.compactionCount + 1 }
  if l1SizeLimit < merged.serialize.length then cm.compactL1ToL2 else cm

/-- Add a freshly flushed page to L0. -/
def addL0Page [Codec] (cm : CompactionManager) (page : Page) : CompactionManager :=
  let cm := { cm with l0 := cm.l0 ++ [page] }
  if l0Limit ≤ cm.l0.length then cm.compactL0ToL1 else cm

/-- Read a key across all levels, the newest flush first. -/
def get (cm : CompactionManager) (key : Bytes) : Option Bytes :=
  getFrom (cm.l0.reverse ++ (cm.l1.reverse ++ cm.l2.reverse)) key

/-- Range scan across all levels, oldest to newest. -/
def scan (cm : CompactionManager) (start stop : Bytes) : Std.TreeMap Bytes Bytes :=
  (cm.l2 ++ (cm.l1 ++ cm.l0)).foldl (scanPage start stop) ∅

def allPages (cm : CompactionManager) : List Page := cm.l0 ++ (cm.l1 ++ cm.l2)

/-- Load pages from disk into a level. -/
def loadPages (cm : CompactionManager) (level : ℕ) (pages : List Page) : CompactionManager :=
  match level with
  | 0 => { cm with l0 := pages }
  | 1 => { cm with l1 := pages }
  | 2 => { cm with l2 := pages }
  | _ => cm

end CompactionManager

/-! ### Merging -/

theorem getElem?_foldl_insertIfNew (rs : List PageRecord) (m : Std.TreeMap Bytes PageRecord)
    (k : Bytes) :
    (rs.foldl (fun m r => m.insertIfNew r.key r) m)[k]?
      = (m[k]?).or (rs.find? fun r => r.key = k) := by
  induction rs generalizing m with
  | nil => simp
  | cons r rs ih =>
    rw [List.foldl_cons, ih, Std.TreeMap.getElem?_insertIfNew, List.find?_cons]
    by_cases hk : r.key = k
    · subst hk
      by_cases hm : r.key ∈ m
      · simp [hm]
      · simp [hm]
    · have hne : ¬compare r.key k = .eq := fun hc => hk (Std.LawfulEqCmp.eq_of_compare hc)
      simp [hne, hk]

theorem getElem?_latest (pages : List Page) (k : Bytes) :
    (latest pages)[k]? = pages.findSome? fun p => p.lookup k := by
  suffices h : ∀ m : Std.TreeMap Bytes PageRecord,
      (pages.foldl (fun m p => p.records.foldl (fun m r => m.insertIfNew r.key r) m) m)[k]?
        = (m[k]?).or (pages.findSome? fun p => p.lookup k) by
    rw [latest, h]
    simp
  induction pages with
  | nil => simp
  | cons p pages ih =>
    intro m
    rw [List.foldl_cons, ih, getElem?_foldl_insertIfNew, List.findSome?_cons, Option.or_assoc]
    congr 1
    rw [Page.lookup]
    cases p.records.find? fun r => r.key = k <;> rfl

theorem key_of_mem_latest {pages : List Page} {kr : Bytes × PageRecord}
    (h : kr ∈ (latest pages).toList) : kr.2.key = kr.1 := by
  have hget := Std.TreeMap.mem_toList_iff_getElem?_eq_some.mp
    (show (kr.1, kr.2) ∈ (latest pages).toList from h)
  rw [getElem?_latest] at hget
  obtain ⟨p, _, hp⟩ := List.exists_of_findSome?_eq_some hget
  exact Page.lookup_eq_some_key hp

theorem mem_mergePages {pages : List Page} {drop : Bool} {r : PageRecord} :
    r ∈ (mergePages pages drop).records ↔
      (latest pages)[r.key]? = some r ∧ ¬(drop && r.tombstone) = true := by
  rw [mergePages, List.mem_filterMap]
  constructor
  · rintro ⟨⟨k, r'⟩, hmem, hr⟩
    have hk := key_of_mem_latest hmem
    by_cases hd : (drop && r'.tombstone) = true
    · rw [if_pos hd] at hr
      exact absurd hr (by simp)
    · rw [if_neg hd, Option.some_inj] at hr
      subst hr
      rw [show r'.key = k from hk]
      exact ⟨Std.TreeMap.mem_toList_iff_getElem?_eq_some.mp hmem, hd⟩
  · rintro ⟨hget, hd⟩
    exact ⟨(r.key, r), Std.TreeMap.mem_toList_iff_getElem?_eq_some.mpr hget, by rw [if_neg hd]⟩

theorem mergePages_sorted (pages : List Page) (drop : Bool) : (mergePages pages drop).Sorted := by
  have hord : (latest pages).toList.Pairwise fun a b => compare a.2.key b.2.key = .lt := by
    refine Std.TreeMap.ordered_keys_toList.imp_of_mem fun {a b} ha hb hlt => ?_
    rw [key_of_mem_latest ha, key_of_mem_latest hb]
    exact hlt
  refine hord.filterMap _ fun a b hab r hr r' hr' => ?_
  split at hr <;> split at hr' <;> simp_all

/-- A merge keeps the record of the first page that has the key. -/
theorem lookup_mergePages (pages : List Page) (drop : Bool) (k : Bytes) :
    (mergePages pages drop).lookup k
      = (pages.findSome? fun p => p.lookup k).filter fun r => !(drop && r.tombstone) := by
  apply Option.ext
  intro r
  rw [(mergePages_sorted pages drop).lookup_eq_some_iff, mem_mergePages,
    Option.filter_eq_some_iff, ← getElem?_latest]
  constructor
  · rintro ⟨⟨hget, hd⟩, rfl⟩
    exact ⟨hget, by cases drop <;> simp_all⟩
  · rintro ⟨hget, hd⟩
    have hkey : r.key = k := by
      rw [getElem?_latest] at hget
      obtain ⟨p, _, hp⟩ := List.exists_of_findSome?_eq_some hget
      exact Page.lookup_eq_some_key hp
    subst hkey
    exact ⟨⟨hget, by cases drop <;> simp_all⟩, rfl⟩

/-! ### Reading -/

/-- The answer a record gives to a read. -/
def answer (r : Option PageRecord) : Option Bytes := r.bind PageRecord.live

theorem findSome?_find_eq {pages : List Page} (h : ∀ p ∈ pages, p.Sorted) (k : Bytes) :
    (pages.findSome? fun p => p.find k) = pages.findSome? fun p => p.lookup k := by
  induction pages with
  | nil => rfl
  | cons p pages ih =>
    rw [List.findSome?_cons, List.findSome?_cons, Page.find_eq_lookup (h p (by simp)),
      ih fun q hq => h q (by simp [hq])]

theorem getFrom_eq (pages : List Page) (k : Bytes) :
    getFrom pages k = answer (pages.findSome? fun p => p.find k) := by
  induction pages with
  | nil => rfl
  | cons p pages ih =>
    rw [getFrom, List.findSome?_cons, Page.get, Page.tombstoned, answer]
    cases hf : p.find k with
    | none => simpa [answer] using ih
    | some r => cases ht : r.tombstone <;> simp [PageRecord.live, ht]

/-! ### Scanning -/

theorem getElem?_foldl_records {rs : List PageRecord}
    (hrs : rs.Pairwise fun a b => compare a.key b.key = .lt) (m : Std.TreeMap Bytes Bytes)
    (k : Bytes) :
    (rs.foldl (fun m r => if r.tombstone then m.erase r.key else m.insert r.key r.value) m)[k]?
      = ((rs.find? fun r => r.key = k).map PageRecord.live).getD m[k]? := by
  induction rs generalizing m with
  | nil => rfl
  | cons r rs ih =>
    rw [List.pairwise_cons] at hrs
    rw [List.foldl_cons, ih hrs.2, List.find?_cons]
    by_cases hk : r.key = k
    · subst hk
      -- no later record has the key again
      have hnone : (rs.find? fun r' => r'.key = r.key) = none := by
        rw [List.find?_eq_none]
        intro r' hr' heq
        have hlt := hrs.1 r' hr'
        rw [of_decide_eq_true heq, Page.compare_self] at hlt
        exact absurd hlt (by simp)
      rw [hnone]
      cases ht : r.tombstone <;> simp [PageRecord.live, ht]
    · have hne : ¬compare r.key k = .eq := fun hc => hk (Std.LawfulEqCmp.eq_of_compare hc)
      cases ht : r.tombstone <;>
        simp [hk, Std.TreeMap.getElem?_erase, Std.TreeMap.getElem?_insert, hne]

theorem getElem?_scanPage {p : Page} (hp : p.Sorted) (start stop : Bytes)
    (m : Std.TreeMap Bytes Bytes) (k : Bytes) :
    (scanPage start stop m p)[k]?
      = if InRange start stop k then ((p.lookup k).map PageRecord.live).getD m[k]? else m[k]? := by
  have hsub : (p.range start stop).Sublist p.records :=
    (List.takeWhile_sublist _).trans (List.drop_sublist _ _)
  have hrange : (p.range start stop).find? (fun r => r.key = k)
      = if InRange start stop k then p.lookup k else none := by
    apply Option.ext
    intro r
    -- the range is itself a sorted page
    have hrs : (Page.mk (p.range start stop) p.level).Sorted := hp.sublist hsub
    rw [show (p.range start stop).find? (fun r => r.key = k)
      = (Page.mk (p.range start stop) p.level).lookup k from rfl, hrs.lookup_eq_some_iff,
      Page.mem_range_iff hp]
    by_cases hk : InRange start stop k
    · rw [if_pos hk, hp.lookup_eq_some_iff]
      constructor
      · rintro ⟨⟨hr, _⟩, hkey⟩
        exact ⟨hr, hkey⟩
      · rintro ⟨hr, hkey⟩
        rw [hkey]
        exact ⟨⟨hr, hk⟩, rfl⟩
    · rw [if_neg hk]
      constructor
      · rintro ⟨⟨_, hin⟩, hkey⟩
        rw [hkey] at hin
        exact absurd hin hk
      · intro h
        exact absurd h (by simp)
  rw [scanPage, getElem?_foldl_records (hp.sublist hsub), hrange]
  by_cases hk : InRange start stop k
  · rw [if_pos hk, if_pos hk]
  · rw [if_neg hk, if_neg hk]
    rfl

theorem getElem?_foldl_scanPage {pages : List Page} (h : ∀ p ∈ pages, p.Sorted)
    (start stop : Bytes) (m : Std.TreeMap Bytes Bytes) (k : Bytes) :
    (pages.foldl (scanPage start stop) m)[k]?
      = if InRange start stop k then
          ((pages.reverse.findSome? fun p => p.lookup k).map PageRecord.live).getD m[k]?
        else m[k]? := by
  induction pages generalizing m with
  | nil => simp
  | cons p pages ih =>
    rw [List.foldl_cons, ih fun q hq => h q (by simp [hq]), getElem?_scanPage (h p (by simp)),
      List.reverse_cons, List.findSome?_append]
    by_cases hk : InRange start stop k
    · rw [if_pos hk, if_pos hk, if_pos hk, List.findSome?_singleton]
      cases pages.reverse.findSome? (fun p => p.lookup k) <;> simp
    · rw [if_neg hk, if_neg hk, if_neg hk]

namespace CompactionManager

/-- All pages of all levels are strictly sorted. -/
def Sorted (cm : CompactionManager) : Prop := ∀ p ∈ cm.allPages, p.Sorted

/-- The pages in the order a read takes them. -/
def readOrder (cm : CompactionManager) : List Page :=
  cm.l0.reverse ++ (cm.l1.reverse ++ cm.l2.reverse)

theorem mem_readOrder {cm : CompactionManager} {p : Page} :
    p ∈ cm.readOrder ↔ p ∈ cm.allPages := by
  simp [readOrder, allPages]

/-- A read takes the record of the first page in read order. -/
theorem get_eq {cm : CompactionManager} (hcm : cm.Sorted) (k : Bytes) :
    cm.get k = answer (cm.readOrder.findSome? fun p => p.lookup k) := by
  rw [get, getFrom_eq, ← readOrder,
    findSome?_find_eq fun p hp => hcm p (mem_readOrder.mp hp)]

/-- A scan returns the answers of the reads of its range, and nothing outside of it. -/
theorem getElem?_scan {cm : CompactionManager} (hcm : cm.Sorted) (start stop k : Bytes) :
    (cm.scan start stop)[k]? = if InRange start stop k then cm.get k else none := by
  rw [scan, getElem?_foldl_scanPage fun p hp => hcm p (by simp [allPages] at hp ⊢; tauto),
    get_eq hcm]
  have hrev : (cm.l2 ++ (cm.l1 ++ cm.l0)).reverse = cm.readOrder := by simp [readOrder]
  rw [hrev]
  by_cases hk : InRange start stop k
  · rw [if_pos hk, if_pos hk, answer]
    cases cm.readOrder.findSome? (fun p => p.lookup k) <;> simp
  · rw [if_neg hk, if_neg hk]
    simp

/-- A read finds nothing for a key that no page has. -/
theorem get_eq_none {cm : CompactionManager} {k : Bytes}
    (h : ∀ p ∈ cm.allPages, ∀ r ∈ p.records, r.key ≠ k) : cm.get k = none := by
  rw [get, getFrom_eq]
  have hnone : (cm.l0.reverse ++ (cm.l1.reverse ++ cm.l2.reverse)).findSome?
      (fun p => p.find k) = none := by
    rw [List.findSome?_eq_none_iff]
    intro p hp
    cases hf : p.find k with
    | none => rfl
    | some r =>
      obtain ⟨hr, hkey⟩ := Page.find_eq_some hf
      exact absurd hkey (h p (mem_readOrder.mp hp) r hr)
  rw [hnone]
  rfl

/-- Without pages there is nothing to read. -/
theorem get_of_isEmpty {cm : CompactionManager} (h : cm.allPages.isEmpty = true) (k : Bytes) :
    cm.get k = none := by
  refine get_eq_none fun p hp => ?_
  rw [List.isEmpty_iff.mp h] at hp
  exact absurd hp List.not_mem_nil

end CompactionManager

end Uldb
