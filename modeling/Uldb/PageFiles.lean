/-
What is saved is loaded.

A page file holds its page (`Page.records_of_serialize`).  The level of a page and its
place in the level are only in the name of its file: `parsePageFilename_stem` reads them
back from a name, so that different pages have different names, and the load loop can
sort the pages of a level by their indices.

`loadAll_saveAll` puts the two together: a save replaces whatever was in the directory,
and the next load finds exactly the saved pages, in their order.
-/
import Uldb.PageStore
import Uldb.StoredCodec

namespace Uldb

/-! ### One page -/

/-- **A page file** decodes to the records of its page, in their order. -/
theorem Page.records_of_serialize [Codec] (hflate : Codec.Lossless) {p : Page}
    (hkey : ∀ r ∈ p.records, r.key.length ≤ 65535)
    (hvalue : ∀ r ∈ p.records, r.value.length < 2 ^ 32) (hbody : p.body.length < 2 ^ 32)
    (hdeflate : (Codec.deflate p.body).length < 2 ^ 32) :
    ∃ q, deserialize p.serialize = .ok q ∧ q.records = p.records := by
  have hfits : p.Fits := by
    refine ⟨fun r hr => ⟨?_, hvalue r hr⟩, hbody, hdeflate⟩
    have := hkey r hr
    omega
  exact ⟨_, deserialize_serialize hflate hfits, rfl⟩

/-- A page out of order, with a tombstone and an empty value. -/
theorem Page.records_of_serialize_two :
    ∃ q, @Page.deserialize storedCodec
      (@Page.serialize storedCodec ⟨[⟨[108], [1], true⟩, ⟨[107], [], false⟩], 0⟩) = .ok q ∧
        q.records = [⟨[108], [1], true⟩, ⟨[107], [], false⟩] := by
  have hbody : (Page.mk [⟨[108], [1], true⟩, ⟨[107], [], false⟩] 0).body.length = 25 := by decide
  refine @Page.records_of_serialize storedCodec storedCodec_lossless
    ⟨[⟨[108], [1], true⟩, ⟨[107], [], false⟩], 0⟩ (by simp) (by simp) (by rw [hbody]; decide) ?_
  decide +kernel

namespace PageStore

/-! ### Numbers in file names -/

/-- The byte is a decimal digit. -/
def IsDigit (b : UInt8) : Prop := 48 ≤ b ∧ b ≤ 57

theorem isDigit_of_mem_decimal {n : ℕ} {b : UInt8} (h : b ∈ decimal n) : IsDigit b := by
  rw [decimal, List.mem_map] at h
  obtain ⟨c, hc, rfl⟩ := h
  have hdigit := Nat.isDigit_of_mem_toDigits (by decide) (by decide) hc
  simp only [Char.isDigit, ge_iff_le, Bool.and_eq_true, decide_eq_true_eq] at hdigit
  have hlow : 48 ≤ c.toNat := hdigit.1
  have hhigh : c.toNat ≤ 57 := hdigit.2
  rw [IsDigit, UInt8.le_iff_toNat_le, UInt8.le_iff_toNat_le, UInt8.toNat_ofNat']
  show 48 ≤ c.toNat % 256 ∧ c.toNat % 256 ≤ 57
  omega

/-- The number that a run of digits stands for. -/
theorem foldl_decimal (n : ℕ) :
    (decimal n).foldl (fun n b => n * 10 + (b.toNat - 48)) 0 = n := by
  rw [decimal, List.foldl_map]
  have hdigits : ∀ (acc : ℕ), ∀ c ∈ Nat.toDigits 10 n,
      acc * 10 + ((UInt8.ofNat c.toNat).toNat - 48) = 10 * acc + (c.toNat - '0'.toNat) := by
    intro acc c hc
    have hdigit := Nat.isDigit_of_mem_toDigits (by decide) (by decide) hc
    simp only [Char.isDigit, ge_iff_le, Bool.and_eq_true, decide_eq_true_eq] at hdigit
    have hhigh : c.toNat ≤ 57 := hdigit.2
    have hmod : (UInt8.ofNat c.toNat).toNat = c.toNat := by
      rw [UInt8.toNat_ofNat']
      omega
    rw [hmod, mul_comm]
    rfl
  rw [List.foldl_ext _ _ 0 hdigits, ← Nat.ofDigitChars_eq_foldl, Nat.ofDigitChars_ten_toDigits]

theorem decimal_ne_nil (n : ℕ) : decimal n ≠ [] := by
  rw [decimal]
  exact fun h => Nat.toDigits_ne_nil (List.map_eq_nil_iff.mp h)

/-- The index of a page in its file name, padded to four digits. -/
def padded (n : ℕ) : Bytes := List.replicate (4 - (decimal n).length) 48 ++ decimal n

theorem isDigit_of_mem_padded {n : ℕ} {b : UInt8} (h : b ∈ padded n) : IsDigit b := by
  rcases List.mem_append.mp h with h | h
  · rw [(List.mem_replicate.mp h).2]
    exact ⟨by decide, by decide⟩
  · exact isDigit_of_mem_decimal h

/-- Padding does not change the number. -/
theorem foldl_padded (n : ℕ) : (padded n).foldl (fun n b => n * 10 + (b.toNat - 48)) 0 = n := by
  have hzeros : ∀ zeros : ℕ,
      (List.replicate zeros (48 : UInt8)).foldl (fun n b => n * 10 + (b.toNat - 48)) 0 = 0 := by
    intro zeros
    induction zeros with
    | zero => rfl
    | succ zeros ih =>
      rw [List.replicate_succ, List.foldl_cons]
      exact ih
  rw [padded, List.foldl_append, hzeros, foldl_decimal]

theorem parseUsize_of_digits {text : Bytes} (hne : text ≠ []) (h : ∀ b ∈ text, IsDigit b) {n : ℕ}
    (hn : text.foldl (fun n b => n * 10 + (b.toNat - 48)) 0 = n) (hlt : n < 2 ^ 64) :
    parseUsize text = some n := by
  -- a text of digits has no sign
  have hsign : ∀ rest, text = 43 :: rest → False := fun rest heq =>
    absurd (h 43 (by rw [heq]; simp)).1 (by decide)
  have hall : (text.all fun b => 48 ≤ b && b ≤ 57) = true := by
    rw [List.all_eq_true]
    intro b hb
    obtain ⟨hlow, hhigh⟩ := h b hb
    simp [hlow, hhigh]
  rw [parseUsize.eq_2 _ hsign]
  simp only [if_neg hne, if_pos hall, hn, if_pos hlt]

/-! ### File names -/

theorem rsplitDot_append {before after : Bytes} (h : 46 ∉ after) :
    rsplitDot (before ++ 46 :: after) = some (before, after) := by
  have hafter : ((before ++ 46 :: after).reverse.takeWhile (· ≠ 46)).reverse = after := by
    have hall : ∀ b ∈ after.reverse, decide (b ≠ 46) = true := fun b hb =>
      decide_eq_true fun heq => h (heq ▸ List.mem_reverse.mp hb)
    rw [List.reverse_append, List.reverse_cons, List.append_assoc,
      List.takeWhile_append_of_pos hall]
    simp
  rw [rsplitDot]
  simp only [hafter]
  have hlen : (before ++ 46 :: after).length - after.length - 1 = before.length := by
    rw [List.length_append, List.length_cons]
    omega
  rw [if_neg (by rw [List.length_append, List.length_cons]; omega), hlen, List.take_left' rfl]

/-- The name of a page file without its extension. -/
def pageStem (level index : ℕ) : Bytes := 108 :: (decimal level ++ (95 :: padded index))

theorem pageFilename_eq (level index : ℕ) :
    pageFilename level index = pageStem level index ++ 46 :: pageExt := by
  simp [pageFilename, pageStem, padded]

theorem rsplitDot_pageFilename (level index : ℕ) :
    rsplitDot (pageFilename level index) = some (pageStem level index, pageExt) := by
  rw [pageFilename_eq, rsplitDot_append (by decide)]

theorem extension_pageFilename (level index : ℕ) :
    extension (pageFilename level index) = some pageExt := by
  rw [extension, rsplitDot_pageFilename]
  rfl

theorem fileStem_pageFilename (level index : ℕ) :
    fileStem (pageFilename level index) = pageStem level index := by
  rw [fileStem, rsplitDot_pageFilename]
  rfl

theorem validUtf8_pageStem (level index : ℕ) : validUtf8 (pageStem level index) = true := by
  have hdigit : ∀ {b : UInt8}, IsDigit b → b < 0x80 := fun hb =>
    UInt8.lt_of_le_of_lt hb.2 (by decide)
  refine validUtf8_of_ascii fun b hb => ?_
  rw [pageStem, List.mem_cons, List.mem_append, List.mem_cons] at hb
  rcases hb with rfl | hb | rfl | hb
  · decide
  · exact hdigit (isDigit_of_mem_decimal hb)
  · decide
  · exact hdigit (isDigit_of_mem_padded hb)

/-- **The level and the index of a page** are read back from its file name. -/
theorem parsePageFilename_stem {level index : ℕ} (hlevel : level < 2 ^ 64)
    (hindex : index < 2 ^ 64) : parsePageFilename (pageStem level index) = some (level, index) := by
  have hunderscore : ∀ b ∈ decimal level, decide (b ≠ 95) = true := by
    intro b hb
    refine decide_eq_true fun heq => ?_
    have hdigit := (isDigit_of_mem_decimal hb).2
    rw [heq] at hdigit
    exact absurd hdigit (by decide)
  have hbefore : (decimal level ++ (95 :: padded index)).takeWhile (· ≠ 95) = decimal level := by
    rw [List.takeWhile_append_of_pos hunderscore]
    simp
  have hlen : (decimal level).length ≠ (decimal level ++ (95 :: padded index)).length := by
    rw [List.length_append, List.length_cons]
    omega
  have hdrop : (decimal level ++ (95 :: padded index)).drop ((decimal level).length + 1)
      = padded index := by
    rw [← List.drop_drop, List.drop_left' rfl]
    rfl
  have hne : padded index ≠ [] := fun h => decimal_ne_nil index (List.append_eq_nil_iff.mp h).2
  rw [pageStem, parsePageFilename]
  simp only [hbefore, if_neg hlen, hdrop]
  rw [parseUsize_of_digits (decimal_ne_nil level) (fun _ => isDigit_of_mem_decimal)
      (foldl_decimal level) hlevel,
    parseUsize_of_digits hne (fun _ => isDigit_of_mem_padded) (foldl_padded index) hindex]
  rfl

/-! ### A saved directory -/

/-- The pages of a level. -/
def levelOf (cm : CompactionManager) : ℕ → List Page
  | 0 => cm.l0
  | 1 => cm.l1
  | 2 => cm.l2
  | _ => []

/-- No level has more pages than a vector can hold. -/
def Indexable (cm : CompactionManager) : Prop := ∀ level, (levelOf cm level).length ≤ 2 ^ 64

variable {cm : CompactionManager}

theorem mem_allPages_of_levelOf {level index : ℕ} {p : Page}
    (h : (levelOf cm level)[index]? = some p) : level ≤ 2 ∧ p ∈ cm.allPages := by
  have hmem := List.mem_of_getElem? h
  match level with
  | 0 => exact ⟨by omega, by simp [CompactionManager.allPages, show p ∈ cm.l0 from hmem]⟩
  | 1 => exact ⟨by omega, by simp [CompactionManager.allPages, show p ∈ cm.l1 from hmem]⟩
  | 2 => exact ⟨by omega, by simp [CompactionManager.allPages, show p ∈ cm.l2 from hmem]⟩
  | _ + 3 => exact absurd hmem (by simp [levelOf])

theorem mem_levelFiles {level : ℕ} {pages : List Page} {name : Bytes} {p : Page} :
    (name, p) ∈ levelFiles level pages ↔
      ∃ index, pages[index]? = some p ∧ name = pageFilename level index := by
  rw [levelFiles, List.mem_mapIdx]
  constructor
  · rintro ⟨index, hindex, heq⟩
    rw [Prod.mk.injEq] at heq
    exact ⟨index, by rw [List.getElem?_eq_getElem hindex, heq.2], heq.1.symm⟩
  · rintro ⟨index, hp, rfl⟩
    obtain ⟨hindex, rfl⟩ := List.getElem?_eq_some_iff.mp hp
    exact ⟨index, hindex, rfl⟩

theorem mem_pageFiles {name : Bytes} {p : Page} :
    (name, p) ∈ pageFiles cm ↔
      ∃ level index, (levelOf cm level)[index]? = some p ∧ name = pageFilename level index := by
  rw [pageFiles, List.mem_append, List.mem_append, mem_levelFiles, mem_levelFiles, mem_levelFiles]
  constructor
  · rintro (⟨index, h⟩ | ⟨index, h⟩ | ⟨index, h⟩)
    · exact ⟨0, index, h⟩
    · exact ⟨1, index, h⟩
    · exact ⟨2, index, h⟩
  · rintro ⟨level, index, h⟩
    match level with
    | 0 => exact .inl ⟨index, h⟩
    | 1 => exact .inr (.inl ⟨index, h⟩)
    | 2 => exact .inr (.inr ⟨index, h⟩)
    | _ + 3 => exact absurd h.1 (by simp [levelOf])

/-- The level and the index are read back from the name of a page's file. -/
theorem parse_of_levelOf (hcount : Indexable cm) {level index : ℕ} {p : Page}
    (h : (levelOf cm level)[index]? = some p) :
    parsePageFilename (fileStem (pageFilename level index)) = some (level, index) := by
  have hlevel := (mem_allPages_of_levelOf h).1
  obtain ⟨hindex, _⟩ := List.getElem?_eq_some_iff.mp h
  have hlen := hcount level
  rw [fileStem_pageFilename]
  exact parsePageFilename_stem (by omega) (by omega)

/-- Two pages do not have the same file name. -/
theorem pageFiles_functional (hcount : Indexable cm) {name : Bytes} {p q : Page}
    (hp : (name, p) ∈ pageFiles cm) (hq : (name, q) ∈ pageFiles cm) : p = q := by
  obtain ⟨level, index, hpage, rfl⟩ := mem_pageFiles.mp hp
  obtain ⟨level', index', hpage', heq⟩ := mem_pageFiles.mp hq
  have hparse := parse_of_levelOf hcount hpage
  rw [heq, parse_of_levelOf hcount hpage', Option.some_inj, Prod.mk.injEq] at hparse
  obtain ⟨rfl, rfl⟩ := hparse
  exact Option.some_inj.mp (hpage.symm.trans hpage')

variable [Codec]

/-- Files written over a directory, none of them twice. -/
theorem getElem?_foldl_write {files : List (Bytes × Page)}
    (hfun : ∀ name p q, (name, p) ∈ files → (name, q) ∈ files → p = q) (dir : Dir)
    (name data : Bytes) :
    (files.foldl (fun dir file => dir.insert file.1 file.2.serialize) dir)[name]? = some data ↔
      (∃ p, (name, p) ∈ files ∧ data = p.serialize) ∨
        (name ∉ files.map (·.1) ∧ dir[name]? = some data) := by
  induction files using List.reverseRecOn with
  | nil => simp
  | append_singleton files file ih =>
    obtain ⟨name', q⟩ := file
    have ih := ih fun n p p' hp hp' => hfun n p p' (by simp [hp]) (by simp [hp'])
    rw [List.foldl_append, List.foldl_cons, List.foldl_nil, Std.TreeMap.getElem?_insert]
    by_cases hname : name' = name
    · subst hname
      rw [if_pos Std.ReflCmp.compare_self]
      constructor
      · intro h
        exact .inl ⟨q, by simp, (Option.some_inj.mp h).symm⟩
      · rintro (⟨p, hp, rfl⟩ | ⟨hnot, _⟩)
        · rw [hfun name' p q hp (by simp)]
        · exact absurd (by simp) hnot
    · rw [if_neg fun hc => hname (Std.LawfulEqCmp.eq_of_compare hc), ih]
      have hne : name ≠ name' := Ne.symm hname
      simp [hne]

/-- **After a save** the page files of the directory are those of the saved pages. -/
theorem getElem?_saveAll (hcount : Indexable cm) {dir : Dir} {name data : Bytes}
    (hext : extension name = some pageExt) :
    (saveAll dir cm)[name]? = some data ↔ ∃ level index p,
      (levelOf cm level)[index]? = some p ∧ name = pageFilename level index ∧
        data = p.serialize := by
  have hclear : (clear dir)[name]? = none := by
    rw [clear, Std.TreeMap.getElem?_filter']
    cases dir[name]? with
    | none => rfl
    | some old => simp [hext]
  rw [saveAll, getElem?_foldl_write fun n p q hp hq => pageFiles_functional hcount hp hq, hclear]
  constructor
  · rintro (⟨p, hp, rfl⟩ | ⟨_, h⟩)
    · obtain ⟨level, index, hpage, hname⟩ := mem_pageFiles.mp hp
      exact ⟨level, index, p, hpage, hname, rfl⟩
    · exact absurd h (by simp)
  · rintro ⟨level, index, p, hpage, hname, rfl⟩
    exact .inl ⟨p, mem_pageFiles.mpr ⟨level, index, hpage, hname⟩, rfl⟩

/-! ### Loading it -/

/-- What the load loop makes of the file of a page. -/
theorem loadFile_pageFile (hflate : Codec.Lossless) (hcount : Indexable cm)
    {level index : ℕ} {p : Page} (hpage : (levelOf cm level)[index]? = some p) (hfits : p.Fits) :
    loadFile (pageFilename level index) p.serialize
      = .ok (some (level, index, { p with level := level })) := by
  have hlevel : ¬2 < level := Nat.not_lt.mpr (mem_allPages_of_levelOf hpage).1
  rw [loadFile, if_neg (by simp [extension_pageFilename]),
    if_neg (by rw [fileStem_pageFilename, validUtf8_pageStem]; simp), parse_of_levelOf hcount hpage]
  simp only [if_neg hlevel, Page.deserialize_serialize hflate hfits]

/-- The load loop on files that are either pages of the manager or no page files. -/
theorem loadFiles_pageFiles (hflate : Codec.Lossless) (hcount : Indexable cm)
    (hfits : ∀ p ∈ cm.allPages, p.Fits) {files : List (Bytes × Bytes)}
    (h : ∀ f ∈ files, extension f.1 = some pageExt → ∃ level index p,
      (levelOf cm level)[index]? = some p ∧ f = (pageFilename level index, p.serialize)) :
    ∃ loaded, loadFiles files = .ok loaded ∧
      (loaded.map fun x => pageFilename x.1 x.2.1).Sublist (files.map (·.1)) ∧
      ∀ x, x ∈ loaded ↔ ∃ level index p, (levelOf cm level)[index]? = some p ∧
        (pageFilename level index, p.serialize) ∈ files ∧
        x = (level, index, { p with level := level }) := by
  induction files with
  | nil => exact ⟨[], rfl, List.Sublist.refl _, by simp⟩
  | cons f files ih =>
    obtain ⟨rest, hrest, hsub, hmem⟩ := ih fun g hg => h g (by simp [hg])
    by_cases hext : extension f.1 = some pageExt
    · obtain ⟨level, index, p, hpage, rfl⟩ := h f (by simp) hext
      have hfile := loadFile_pageFile hflate hcount hpage
        (hfits p (mem_allPages_of_levelOf hpage).2)
      refine ⟨(level, index, { p with level := level }) :: rest, ?_, hsub.cons_cons _, fun x => ?_⟩
      · rw [loadFiles, hfile, hrest]
        rfl
      · rw [List.mem_cons, hmem]
        constructor
        · rintro (rfl | ⟨level', index', q, hq, hin, rfl⟩)
          · exact ⟨level, index, p, hpage, by simp, rfl⟩
          · exact ⟨level', index', q, hq, by simp [hin], rfl⟩
        · rintro ⟨level', index', q, hq, hin, rfl⟩
          rcases List.mem_cons.mp hin with heq | hin
          · -- the file just loaded
            rw [Prod.mk.injEq] at heq
            have hparse := parse_of_levelOf hcount hq
            rw [heq.1, parse_of_levelOf hcount hpage, Option.some_inj, Prod.mk.injEq] at hparse
            obtain ⟨rfl, rfl⟩ := hparse
            obtain rfl : p = q := Option.some_inj.mp (hpage.symm.trans hq)
            exact .inl rfl
          · exact .inr ⟨level', index', q, hq, hin, rfl⟩
    · have hskip : loadFile f.1 f.2 = .ok none := by rw [loadFile, if_pos hext]
      refine ⟨rest, ?_, hsub.cons _, fun x => ?_⟩
      · rw [loadFiles, hskip, hrest]
        rfl
      · rw [hmem]
        refine exists_congr fun level => exists_congr fun index => exists_congr fun p =>
          and_congr_right fun hpage => and_congr_left fun _ => ?_
        have hne : (pageFilename level index, p.serialize) ≠ f := by
          rintro rfl
          exact hext (extension_pageFilename level index)
        simp [hne]

omit [Codec] in
/-- The pages of a level in the order of their indices. -/
theorem levelPages_eq {loaded : List (ℕ × ℕ × Page)} (hnodup : loaded.Nodup) (level : ℕ)
    (hmem : ∀ x, x ∈ loaded ↔ ∃ level index p, (levelOf cm level)[index]? = some p ∧
      x = (level, index, { p with level := level })) :
    levelPages loaded level = (levelOf cm level).map fun p => { p with level := level } := by
  set target : List (ℕ × ℕ × Page) :=
    (levelOf cm level).mapIdx fun index p => (level, index, { p with level := level }) with htarget
  have hsorted : target.Pairwise fun a b => a.2.1 < b.2.1 := by
    rw [List.pairwise_iff_getElem]
    intro i j hi hj hlt
    simpa [htarget] using hlt
  have hperm : ((loaded.filter fun x => x.1 = level).mergeSort fun a b => a.2.1 ≤ b.2.1).Perm
      target := by
    refine (List.mergeSort_perm _ _).trans ?_
    have htargetNodup : target.Nodup := hsorted.imp fun {a b} hlt heq => by
      rw [heq] at hlt
      omega
    rw [List.perm_ext_iff_of_nodup (hnodup.filter _) htargetNodup]
    intro x
    rw [List.mem_filter, hmem, htarget, List.mem_mapIdx]
    constructor
    · rintro ⟨⟨level', index, p, hp, rfl⟩, hlevel⟩
      obtain rfl : level' = level := of_decide_eq_true hlevel
      obtain ⟨hindex, rfl⟩ := List.getElem?_eq_some_iff.mp hp
      exact ⟨index, hindex, rfl⟩
    · rintro ⟨index, hindex, rfl⟩
      exact ⟨⟨level, index, _, List.getElem?_eq_getElem hindex, rfl⟩, decide_eq_true rfl⟩
  have hle : ((loaded.filter fun x => x.1 = level).mergeSort fun a b => a.2.1 ≤ b.2.1).Pairwise
      fun a b => a.2.1 ≤ b.2.1 := by
    refine (List.pairwise_mergeSort (fun a b c hab hbc => ?_) (fun a b => ?_) _).imp
      fun h => of_decide_eq_true h
    · exact decide_eq_true ((of_decide_eq_true hab).trans (of_decide_eq_true hbc))
    · simpa using Nat.le_total a.2.1 b.2.1
  -- both are sorted by index, and an index occurs once
  have heq : ((loaded.filter fun x => x.1 = level).mergeSort fun a b => a.2.1 ≤ b.2.1)
      = target := by
    refine hperm.eq_of_pairwise (fun a b ha hb hab hba => ?_) hle
      (hsorted.imp fun hlt => le_of_lt hlt)
    obtain ⟨i, hi, rfl⟩ := List.mem_mapIdx.mp (hperm.mem_iff.mp ha)
    obtain ⟨j, hj, rfl⟩ := List.mem_mapIdx.mp hb
    obtain rfl : i = j := Nat.le_antisymm hab hba
    rfl
  rw [levelPages, heq, htarget]
  refine List.ext_getElem? fun i => ?_
  rw [List.getElem?_map, List.getElem?_map, List.getElem?_mapIdx, Option.map_map]
  rfl

/-- **A load after a save** finds the saved pages of every level, record for record and in
their order, and nothing of what was in the directory before. -/
theorem loadAll_saveAll (hflate : Codec.Lossless) (hfits : ∀ p ∈ cm.allPages, p.Fits)
    (hcount : Indexable cm) (dir : Dir) :
    ∃ cm', loadAll (saveAll dir cm) = .ok cm' ∧
      cm'.l0.map (·.records) = cm.l0.map (·.records) ∧
      cm'.l1.map (·.records) = cm.l1.map (·.records) ∧
      cm'.l2.map (·.records) = cm.l2.map (·.records) := by
  have hfiles : ∀ f ∈ (saveAll dir cm).toList, extension f.1 = some pageExt → ∃ level index p,
      (levelOf cm level)[index]? = some p ∧ f = (pageFilename level index, p.serialize) := by
    rintro ⟨name, data⟩ hf hext
    obtain ⟨level, index, p, hpage, rfl, rfl⟩ :=
      (getElem?_saveAll hcount hext).mp (Std.TreeMap.mem_toList_iff_getElem?_eq_some.mp hf)
    exact ⟨level, index, p, hpage, rfl⟩
  obtain ⟨loaded, hloaded, hsub, hmem⟩ := loadFiles_pageFiles hflate hcount hfits hfiles
  have hnames : ((saveAll dir cm).toList.map (·.1)).Nodup := by
    have hkeys : (saveAll dir cm).toList.map (·.1) = (saveAll dir cm).keys :=
      Std.TreeMap.map_fst_toList_eq_keys
    rw [hkeys]
    exact Std.TreeMap.nodup_keys
  have hnodup : loaded.Nodup := (hsub.nodup hnames).of_map _
  have hall : ∀ x, x ∈ loaded ↔ ∃ level index p, (levelOf cm level)[index]? = some p ∧
      x = (level, index, { p with level := level }) := by
    intro x
    rw [hmem]
    refine exists_congr fun level => exists_congr fun index => exists_congr fun p => ?_
    refine and_congr_right fun hpage => and_iff_right ?_
    exact Std.TreeMap.mem_toList_iff_getElem?_eq_some.mpr
      ((getElem?_saveAll hcount (extension_pageFilename level index)).mpr
        ⟨level, index, p, hpage, rfl, rfl⟩)
  have hlevel : ∀ level, (levelPages loaded level).map (·.records)
      = (levelOf cm level).map (·.records) := by
    intro level
    rw [levelPages_eq hnodup level hall, List.map_map]
    rfl
  refine ⟨_, by rw [loadAll, hloaded]; rfl, hlevel 0, hlevel 1, hlevel 2⟩

omit [Codec] in
/-- Two pages of L0 saved over an old page of L2: they come back in their order, and the
old page does not. -/
theorem loadAll_saveAll_two : ∃ cm',
    @loadAll storedCodec (@saveAll storedCodec ((∅ : Dir).insert (pageFilename 2 0) [1])
      ⟨[⟨[⟨[108], [1], false⟩], 0⟩, ⟨[⟨[107], [], true⟩], 0⟩], [], [], 0⟩) = .ok cm' ∧
      cm'.l0.map (·.records) = [[⟨[108], [1], false⟩], [⟨[107], [], true⟩]] ∧ cm'.l2 = [] := by
  set cm : CompactionManager :=
    ⟨[⟨[⟨[108], [1], false⟩], 0⟩, ⟨[⟨[107], [], true⟩], 0⟩], [], [], 0⟩ with hcm
  have hfits : ∀ p ∈ cm.allPages, @Page.Fits storedCodec p := by
    intro p hp
    rcases (by simpa [hcm, CompactionManager.allPages] using hp :
      p = ⟨[⟨[108], [1], false⟩], 0⟩ ∨ p = ⟨[⟨[107], [], true⟩], 0⟩) with rfl | rfl
    · exact @Page.Fits.mk storedCodec _ (by simp [PageRecord.Fits]) (by decide) (by decide +kernel)
    · exact @Page.Fits.mk storedCodec _ (by simp [PageRecord.Fits]) (by decide) (by decide +kernel)
  have hcount : Indexable cm := by
    intro level
    rcases level with _ | _ | _ | n
    all_goals simp [levelOf, hcm]
  obtain ⟨cm', hload, hl0, _, hl2⟩ := @loadAll_saveAll cm storedCodec storedCodec_lossless hfits
    hcount ((∅ : Dir).insert (pageFilename 2 0) [1])
  exact ⟨cm', hload, hl0, List.map_eq_nil_iff.mp hl2⟩

end PageStore

end Uldb
