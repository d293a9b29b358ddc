/-
Page files on disk (`storage/page_store.rs`).

The pages directory is a map from file names to bytes.  `saveAll` replaces all
page files by the current pages; `loadAll` reads what is there, skips what does
not decode, and panics where the record count of a file does not.

`loadAll_of_damaged`: from any mixture of page files, complete or cut short, of
pages within the format's limits, loading succeeds, and every page it returns
has the records of one of them.
-/
import Uldb.Compaction
import Uldb.Index

namespace Uldb

/-- The files of the pages directory, by name. -/
abbrev Dir := Std.TreeMap Bytes Bytes

namespace PageStore

/-- `"ulpg"` -/
def pageExt : Bytes := [117, 108, 112, 103]

/-- The parts before and after the last dot. -/
def rsplitDot (name : Bytes) : Option (Bytes × Bytes) :=
  let after := (name.reverse.takeWhile (· ≠ 46)).reverse
  if after.length = name.length then none
  else some (name.take (name.length - after.length - 1), after)

/-- `Path::extension`: none for a name whose only dot comes first. -/
def extension (name : Bytes) : Option Bytes :=
  match rsplitDot name with
  | some (before, after) => if before = [] then none else some after
  | none => none

/-- `Path::file_stem` -/
def fileStem (name : Bytes) : Bytes :=
  match rsplitDot name with
  | some (before, _) => if before = [] then name else before
  | none => name

/-- `str::parse::<usize>`: digits after an optional `+`, below `2 ^ 64`. -/
def parseUsize (text : Bytes) : Option ℕ :=
  let digits := match text with
    | 43 :: rest => rest
    | _ => text
  if digits = [] then none
  else if digits.all fun b => 48 ≤ b && b ≤ 57 then
    let n := digits.foldl (fun n b => n * 10 + (b.toNat - 48)) 0
    if n < 2 ^ 64 then some n else none
  else none

/-- The level and the index of a file name `l{level}_{index}`. -/
def parsePageFilename (name : Bytes) : Option (ℕ × ℕ) :=
  match name with
  | 108 :: rest =>
    let before := rest.takeWhile (· ≠ 95)
    if before.length = rest.length then none
    else do
      let level ← parseUsize before
      let index ← parseUsize (rest.drop (before.length + 1))
      some (level, index)
  | _ => none

def decimal (n : ℕ) : Bytes := (Nat.toDigits 10 n).map fun c => UInt8.ofNat c.toNat

/-- `format!("l{}_{:04}.{}", level, index, PAGE_EXT)` -/
def pageFilename (level index : ℕ) : Bytes :=
  let digits := decimal index
  108 :: (decimal level ++ (95 :: (List.replicate (4 - digits.length) 48 ++ (digits ++
    (46 :: pageExt)))))

/-- Delete all page files. -/
def clear (dir : Dir) : Dir := dir.filter fun name _ => extension name ≠ some pageExt

/-- The pages of one level with their file names. -/
def levelFiles (level : ℕ) (pages : List Page) : List (Bytes × Page) :=
  pages.mapIdx fun index page => (pageFilename level index, page)

/-- The pages of all levels with their file names, in the order they are written. -/
def pageFiles (cm : CompactionManager) : List (Bytes × Page) :=
  levelFiles 0 cm.l0 ++ (levelFiles 1 cm.l1 ++ levelFiles 2 cm.l2)

/-- Replace all page files by the current pages. -/
def saveAll [Codec] (dir : Dir) (cm : CompactionManager) : Dir :=
  (pageFiles cm).foldl (fun dir file => dir.insert file.1 file.2.serialize) (clear dir)

/-- One file of the load loop: its level, index and page, or none if it is skipped. -/
def loadFile [Codec] (name data : Bytes) : Except Failure (Option (ℕ × ℕ × Page)) :=
  if extension name ≠ some pageExt then .ok none
  else if validUtf8 (fileStem name) = false then .ok none
  else match parsePageFilename (fileStem name) with
    | none => .ok none
    | some (level, index) =>
      if 2 < level then .ok none
      else match Page.deserialize data with
        | .ok page => .ok (some (level, index, { page with level := level }))
        | .error (.invalidData _) => .ok none
        | .error .assertionFailed => .error .panic

/-- The load loop, in the order of the file names. -/
def loadFiles [Codec] : List (Bytes × Bytes) → Except Failure (List (ℕ × ℕ × Page))
  | [] => .ok []
  | (name, data) :: files => do
    let loaded ← loadFile name data
    let rest ← loadFiles files
    .ok (loaded.toList ++ rest)

/-- The pages of a level, by index. -/
def levelPages (loaded : List (ℕ × ℕ × Page)) (level : ℕ) : List Page :=
  ((loaded.filter fun x => x.1 = level).mergeSort fun a b => a.2.1 ≤ b.2.1).map (·.2.2)

/-- Load all pages from disk into the levels of a fresh manager. -/
def loadAll [Codec] (dir : Dir) : Except Failure CompactionManager := do
  let loaded ← loadFiles dir.toList
  let cm := CompactionManager.new
  .ok (((cm.loadPages 0 (levelPages loaded 0)).loadPages 1 (levelPages loaded 1)).loadPages 2
    (levelPages loaded 2))

theorem loadAll_empty [Codec] {dir : Dir} (h : dir.isEmpty = true) :
    loadAll dir = .ok CompactionManager.new := by
  have hnone : ∀ level, levelPages [] level = [] := fun level => by simp [levelPages]
  have hfiles : dir.toList = [] := by
    rw [← List.isEmpty_iff, Std.TreeMap.isEmpty_toList, h]
  rw [loadAll, hfiles]
  show Except.ok (((CompactionManager.new.loadPages 0 (levelPages [] 0)).loadPages 1
    (levelPages [] 1)).loadPages 2 (levelPages [] 2)) = _
  rw [hnone, hnone, hnone]
  rfl

/-! ### Loading damaged files -/

/-- Every page file holds a prefix of the file of one of the pages. -/
def Damaged [Codec] (written : List Page) (dir : Dir) : Prop :=
  ∀ name data, dir[name]? = some data → extension name = some pageExt →
    ∃ p ∈ written, data <+: p.serialize


theorem mem_levelPages {loaded : List (ℕ × ℕ × Page)} {level : ℕ} {p : Page}
    (h : p ∈ levelPages loaded level) : ∃ x ∈ loaded, x.2.2 = p := by
  rw [levelPages, List.mem_map] at h
  obtain ⟨x, hx, rfl⟩ := h
  rw [List.mem_mergeSort] at hx
  exact ⟨x, (List.mem_filter.mp hx).1, rfl⟩

variable [Codec] {written : List Page}

theorem loadFile_of_prefix (hflate : Codec.Lossless) (hfits : ∀ p ∈ written, p.Fits)
    {name data : Bytes}
    (h : extension name = some pageExt → ∃ p ∈ written, data <+: p.serialize) :
    ∃ loaded, loadFile name data = .ok loaded ∧
      ∀ x ∈ loaded, ∃ p ∈ written, x.2.2.records = p.records := by
  rw [loadFile]
  by_cases hext : extension name ≠ some pageExt
  · exact ⟨none, by rw [if_pos hext], by simp⟩
  by_cases hutf : validUtf8 (fileStem name) = false
  · exact ⟨none, by rw [if_neg hext, if_pos hutf], by simp⟩
  rw [if_neg hext, if_neg hutf]
  cases hparse : parsePageFilename (fileStem name) with
  | none => exact ⟨none, rfl, by simp⟩
  | some li =>
    obtain ⟨level, index⟩ := li
    by_cases hlevel : 2 < level
    · exact ⟨none, by simp [hlevel], by simp⟩
    obtain ⟨p, hp, hpre⟩ := h (not_not.mp hext)
    simp only [if_neg hlevel]
    by_cases hall : data = p.serialize
    · refine ⟨some (level, index, ⟨p.records, level⟩), ?_, ?_⟩
      · rw [hall, Page.deserialize_serialize hflate (hfits p hp)]
      · intro x hx
        obtain rfl : (level, index, (⟨p.records, level⟩ : Page)) = x := by simpa using hx
        exact ⟨p, hp, rfl⟩
    · -- a file cut short does not decode
      obtain ⟨msg, hmsg⟩ := Page.deserialize_of_prefix (hfits p hp) hpre hall
      exact ⟨none, by rw [hmsg], by simp⟩

theorem loadFiles_of_prefix (hflate : Codec.Lossless) (hfits : ∀ p ∈ written, p.Fits)
    {files : List (Bytes × Bytes)}
    (h : ∀ f ∈ files, extension f.1 = some pageExt → ∃ p ∈ written, f.2 <+: p.serialize) :
    ∃ loaded, loadFiles files = .ok loaded ∧
      ∀ x ∈ loaded, ∃ p ∈ written, x.2.2.records = p.records := by
  induction files with
  | nil => exact ⟨[], rfl, by simp⟩
  | cons f files ih =>
    obtain ⟨first, hfirst, hfirst'⟩ := loadFile_of_prefix hflate hfits (h f (by simp))
    obtain ⟨rest, hrest, hrest'⟩ := ih fun g hg => h g (by simp [hg])
    refine ⟨first.toList ++ rest, ?_, ?_⟩
    · rw [loadFiles, hfirst, hrest]
      rfl
    · intro x hx
      rcases List.mem_append.mp hx with hx | hx
      · exact hfirst' x (by simpa using hx)
      · exact hrest' x hx

/-- **Loading succeeds on any damaged directory**, and brings back no record
that was not in a written page. -/
theorem loadAll_of_damaged (hflate : Codec.Lossless) (hfits : ∀ p ∈ written, p.Fits) {dir : Dir}
    (hdir : Damaged written dir) :
    ∃ cm, loadAll dir = .ok cm ∧
      ∀ p ∈ cm.allPages, ∃ q ∈ written, p.records = q.records := by
  have hfiles : ∀ f ∈ dir.toList, extension f.1 = some pageExt →
      ∃ p ∈ written, f.2 <+: p.serialize := fun f hf =>
    hdir f.1 f.2 (Std.TreeMap.mem_toList_iff_getElem?_eq_some.mp hf)
  obtain ⟨loaded, hloaded, hmem⟩ := loadFiles_of_prefix hflate hfits hfiles
  refine ⟨_, by rw [loadAll, hloaded]; rfl, fun p hp => ?_⟩
  have hlevel : ∃ level, p ∈ levelPages loaded level := by
    rcases (by simpa [CompactionManager.allPages, CompactionManager.loadPages] using hp :
      p ∈ levelPages loaded 0 ∨ p ∈ levelPages loaded 1 ∨ p ∈ levelPages loaded 2) with h | h | h
    · exact ⟨0, h⟩
    · exact ⟨1, h⟩
    · exact ⟨2, h⟩
  obtain ⟨level, hp⟩ := hlevel
  obtain ⟨x, hx, rfl⟩ := mem_levelPages hp
  exact hmem x hx

end PageStore

end Uldb
