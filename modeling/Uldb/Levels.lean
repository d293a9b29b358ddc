/-
Reads and scans of the levels.

A read goes through the pages from the newest to the oldest and stops at the first
record of the key; a scan goes the other way, and overwrites and deletes.  On sorted
pages both come to the same answer (`CompactionManager.getElem?_scan`).

`sorted_ofCalls`: whatever pages are flushed and loaded, if they are sorted then so are
all pages of the manager, those of the merges included.
-/
import Uldb.EngineCalls
import Uldb.StoredCodec

namespace Uldb

/-- A call that changes the pages of a manager. -/
inductive LevelCall where
  | addL0Page (page : Page)
  | loadPages (level : ℕ) (pages : List Page)

/-- The pages that a call brings in. -/
def LevelCall.pages : LevelCall → List Page
  | addL0Page page => [page]
  | loadPages _ pages => pages

namespace CompactionManager

variable [Codec]

def exec (cm : CompactionManager) : LevelCall → CompactionManager
  | .addL0Page page => cm.addL0Page page
  | .loadPages level pages => cm.loadPages level pages

/-- A fresh manager after a run of calls. -/
def ofCalls (cs : List LevelCall) : CompactionManager := cs.foldl exec new

theorem Sorted.addL0Page {cm : CompactionManager} (hcm : cm.Sorted) {page : Page}
    (hpage : page.Sorted) : (cm.addL0Page page).Sorted := by
  have hin : ∀ p ∈ cm.allPages, Engine.PageIn (fun _ => True) p := fun p hp =>
    ⟨hcm p hp, fun _ _ => trivial⟩
  exact fun p hp => (Engine.pageIn_addL0Page ⟨hpage, fun _ _ => trivial⟩ hin p hp).1

omit [Codec] in
theorem Sorted.loadPages {cm : CompactionManager} (hcm : cm.Sorted) {level : ℕ}
    {pages : List Page} (hpages : ∀ p ∈ pages, p.Sorted) : (cm.loadPages level pages).Sorted := by
  intro p hp
  have hold : ∀ q, q ∈ cm.l0 ∨ q ∈ cm.l1 ∨ q ∈ cm.l2 → q.Sorted := fun q hq =>
    hcm q (by simpa [allPages] using hq)
  rcases level with _ | _ | _ | level
  · rcases (by simpa [CompactionManager.loadPages, allPages] using hp :
      p ∈ pages ∨ p ∈ cm.l1 ∨ p ∈ cm.l2) with h | h
    · exact hpages p h
    · exact hold p (.inr h)
  · rcases (by simpa [CompactionManager.loadPages, allPages] using hp :
      p ∈ cm.l0 ∨ p ∈ pages ∨ p ∈ cm.l2) with h | h | h
    · exact hold p (.inl h)
    · exact hpages p h
    · exact hold p (.inr (.inr h))
  · rcases (by simpa [CompactionManager.loadPages, allPages] using hp :
      p ∈ cm.l0 ∨ p ∈ cm.l1 ∨ p ∈ pages) with h | h | h
    · exact hold p (.inl h)
    · exact hold p (.inr (.inl h))
    · exact hpages p h
  · exact hcm p hp

/-- **All pages stay sorted.** -/
theorem sorted_ofCalls {cs : List LevelCall} (h : ∀ c ∈ cs, ∀ p ∈ c.pages, p.Sorted) :
    (ofCalls cs).Sorted := by
  induction cs using List.reverseRecOn with
  | nil => exact fun p hp => absurd hp (by simp [ofCalls, new, allPages])
  | append_singleton cs c ih =>
    have hcs := ih fun c' hc' => h c' (by simp [hc'])
    have hc := h c (by simp)
    rw [ofCalls, List.foldl_append]
    cases c with
    | addL0Page page => exact hcs.addL0Page (hc page (List.mem_singleton.mpr rfl))
    | loadPages level pages => exact hcs.loadPages hc

/-- **Scans are the reads of their range**, after any run of flushes and loads of sorted
pages. -/
theorem scan_eq_some_iff {cs : List LevelCall} (h : ∀ c ∈ cs, ∀ p ∈ c.pages, p.Sorted)
    (start stop k v : Bytes) :
    ((ofCalls cs).scan start stop)[k]? = some v ↔
      InRange start stop k ∧ (ofCalls cs).get k = some v := by
  rw [getElem?_scan (sorted_ofCalls h)]
  by_cases hk : InRange start stop k
  · rw [if_pos hk]
    exact (and_iff_right hk).symm
  · rw [if_neg hk]
    exact ⟨fun hv => absurd hv (by simp), fun hv => absurd hv.1 hk⟩

omit [Codec] in
/-- A flush over a loaded page: the newer record of the key is scanned. -/
theorem scan_eq_some_two :
    ((@ofCalls storedCodec [.loadPages 2 [⟨[⟨[107], [1], false⟩], 2⟩],
      .addL0Page ⟨[⟨[107], [2], false⟩], 0⟩]).scan [107] [108])[([107] : Bytes)]? = some [2] := by
  refine (@scan_eq_some_iff storedCodec _ ?_ [107] [108] [107] [2]).mpr ⟨by decide, by decide⟩
  simp [LevelCall.pages, Page.Sorted]

end CompactionManager

end Uldb
