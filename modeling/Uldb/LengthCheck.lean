/-
The length check of the edit distance.

`levenshtein` gives up at once on texts whose lengths differ by more than the bound.  The lengths
are in bytes, and everything after them is in characters, which take up to four bytes.

* `levenshtein_le_iff` — past the check, the answer is exact up to the bound;
* `checkSound_iff` — the check never rejects near texts, exactly if the byte lengths are not far
  apart, or so far apart that the characters must be as well.
-/
import Uldb.FuzzyRecall

namespace Uldb

open EditDistance

/-! ### Characters -/

section

variable {text rest : Bytes} {b : UInt8}

theorem flatten_chars (text : Bytes) : (chars text).flatten = text := by
  induction text with
  | nil => rfl
  | cons b text ih =>
    rw [chars, List.foldr_cons, ← chars]
    unfold consByte
    split
    · rename_i c char rest hchars
      rw [hchars, List.flatten_cons] at ih
      split
      · rw [List.flatten_cons, List.cons_append, ih]
      · rw [List.flatten_cons, List.flatten_cons, ih, List.singleton_append]
    · rw [List.flatten_cons, ih, List.singleton_append]

/-- A text does not begin with a continuation byte. -/
theorem validUtf8_head (h : validUtf8 text = true) :
    ∀ c ∈ text.head?, contByte 0x80 0xBF c = false := by
  intro c hc
  obtain ⟨text, rfl⟩ : ∃ rest, text = c :: rest := ⟨text.tail, List.eq_cons_of_mem_head? hc⟩
  by_contra hcont
  rw [Bool.not_eq_false, contByte, Bool.and_eq_true, decide_eq_true_iff, decide_eq_true_iff]
    at hcont
  have hlow : ¬c < 0x80 := UInt8.not_lt.mpr hcont.1
  have hhigh : ∀ d : UInt8, 0xBF < d → ¬d ≤ c ∧ c ≠ d := by
    intro d hd
    refine ⟨fun hle => absurd (UInt8.lt_of_lt_of_le hd hle) (UInt8.not_lt.mpr hcont.2), ?_⟩
    rintro rfl
    exact absurd hd (UInt8.not_lt.mpr hcont.2)
  have hlead := fun d hd => (hhigh d hd).1
  have hne := fun d hd => (hhigh d hd).2
  rcases text with _ | ⟨d, _ | ⟨e, _ | ⟨f, text⟩⟩⟩ <;>
    simp [validUtf8, hlow, hlead 0xC2, hlead 0xE1, hlead 0xF1, hne 0xE0, hne 0xED, hne 0xF0,
      hne 0xF4] at h

theorem exists_chars_cons (b : UInt8) (text : Bytes) :
    ∃ char rest, chars (b :: text) = (b :: char) :: rest := by
  rw [chars, List.foldr_cons]
  unfold consByte
  split
  · split
    · exact ⟨_, _, rfl⟩
    · exact ⟨_, _, rfl⟩
  · exact ⟨_, _, rfl⟩

theorem chars_cons_of_cont {c : UInt8} (hc : contByte 0x80 0xBF c = true) {char : Bytes}
    {others : List Bytes} (h : chars (c :: rest) = (c :: char) :: others) :
    chars (b :: c :: rest) = (b :: c :: char) :: others := by
  rw [chars, List.foldr_cons, ← chars, h, consByte, if_pos hc]

theorem chars_cons_of_head (h : ∀ c ∈ rest.head?, contByte 0x80 0xBF c = false) :
    chars (b :: rest) = [b] :: chars rest := by
  cases rest with
  | nil => rfl
  | cons c rest =>
    obtain ⟨char, others, hchars⟩ := exists_chars_cons c rest
    have hc := h c rfl
    rw [chars, List.foldr_cons, ← chars, hchars, consByte, hc, if_neg Bool.false_ne_true]

/-- A byte and the continuation bytes after it are one character. -/
theorem chars_append {conts : Bytes} (hconts : ∀ c ∈ conts, contByte 0x80 0xBF c = true)
    (h : ∀ c ∈ rest.head?, contByte 0x80 0xBF c = false) :
    chars (b :: (conts ++ rest)) = (b :: conts) :: chars rest := by
  induction conts generalizing b with
  | nil => exact chars_cons_of_head h
  | cons c conts ih =>
    exact chars_cons_of_cont (hconts c List.mem_cons_self)
      (ih fun d hd => hconts d (List.mem_cons_of_mem _ hd))

theorem contByte_mono {lo hi c : UInt8} (h : contByte lo hi c = true) (hlo : 0x80 ≤ lo)
    (hhi : hi ≤ 0xBF) : contByte 0x80 0xBF c = true := by
  rw [contByte, Bool.and_eq_true, decide_eq_true_iff, decide_eq_true_iff] at h ⊢
  exact ⟨UInt8.le_trans hlo h.1, UInt8.le_trans h.2 hhi⟩

/-- `b` and a few continuation bytes are a character, and a valid text comes after it. -/
def FirstChar (b : UInt8) (text : Bytes) : Prop :=
  ∃ conts rest, text = conts ++ rest ∧ conts.length ≤ 3 ∧
    (∀ c ∈ conts, contByte 0x80 0xBF c = true) ∧ validUtf8 (b :: conts) = true ∧
      validUtf8 rest = true

theorem firstChar_of_cons (h : validUtf8 (b :: text) = true) : FirstChar b text := by
  rw [validUtf8.eq_def] at h
  simp only at h
  split at h
  · refine ⟨[], text, rfl, Nat.zero_le _, by simp, ?_, h⟩
    rw [validUtf8.eq_def]
    grind [validUtf8]
  rcases text with _ | ⟨c, text⟩
  · exact absurd h Bool.noConfusion
  simp only at h
  split at h
  · rw [Bool.and_eq_true] at h
    refine ⟨[c], text, rfl, Nat.le_add_left 1 2, by simpa using h.1, ?_, h.2⟩
    rw [validUtf8.eq_def]
    grind [validUtf8]
  rcases text with _ | ⟨d, text⟩
  · exact absurd h Bool.noConfusion
  -- three bytes: the second one has its bounds from the first
  have htwo : ∀ {lo hi : UInt8}, 0x80 ≤ lo → hi ≤ 0xBF →
      (contByte lo hi c && contByte 0x80 0xBF d && validUtf8 text) = true →
      validUtf8 [b, c, d] = true → FirstChar b (c :: d :: text) := by
    intro lo hi hlo hhi h hchar
    rw [Bool.and_eq_true, Bool.and_eq_true] at h
    have hc := contByte_mono h.1.1 hlo hhi
    exact ⟨[c, d], text, rfl, Nat.le_add_left 2 1, by simp [hc, h.1.2], hchar, h.2⟩
  simp only at h
  split at h
  · refine htwo (by decide) (by decide) h ?_
    rw [validUtf8.eq_def]
    grind [validUtf8]
  split at h
  · refine htwo (by decide) (by decide) h ?_
    rw [validUtf8.eq_def]
    grind [validUtf8]
  split at h
  · refine htwo (by decide) (by decide) h ?_
    rw [validUtf8.eq_def]
    grind [validUtf8]
  rcases text with _ | ⟨e, text⟩
  · exact absurd h Bool.noConfusion
  -- four bytes, in the same way
  have hthree : ∀ {lo hi : UInt8}, 0x80 ≤ lo → hi ≤ 0xBF →
      (contByte lo hi c && (contByte 0x80 0xBF d && contByte 0x80 0xBF e && validUtf8 text))
        = true →
      validUtf8 [b, c, d, e] = true → FirstChar b (c :: d :: e :: text) := by
    intro lo hi hlo hhi h hchar
    rw [Bool.and_eq_true, Bool.and_eq_true, Bool.and_eq_true] at h
    have hc := contByte_mono h.1 hlo hhi
    exact ⟨[c, d, e], text, rfl, le_refl 3, by simp [hc, h.2.1], hchar, h.2.2⟩
  simp only at h
  split at h
  · refine hthree (by decide) (by decide) h ?_
    rw [validUtf8.eq_def]
    grind [validUtf8]
  split at h
  · refine hthree (by decide) (by decide) h ?_
    rw [validUtf8.eq_def]
    grind [validUtf8]
  split at h
  · refine hthree (by decide) (by decide) h ?_
    rw [validUtf8.eq_def]
    grind [validUtf8]
  exact absurd h Bool.noConfusion

/-- **Character by character** over a text. -/
theorem text_induction {motive : Bytes → Prop} (hnil : motive [])
    (hcons : ∀ (b : UInt8) (conts rest : Bytes), conts.length ≤ 3 →
      (∀ c ∈ conts, contByte 0x80 0xBF c = true) → validUtf8 (b :: conts) = true →
      validUtf8 rest = true → motive rest → motive ((b :: conts) ++ rest))
    {text : Bytes} (h : validUtf8 text = true) : motive text := by
  induction hn : text.length using Nat.strong_induction_on generalizing text with
  | _ n ih =>
    cases text with
    | nil => exact hnil
    | cons b text =>
      obtain ⟨conts, rest, rfl, hlen, hconts, hchar, hrest⟩ := firstChar_of_cons h
      refine hcons b conts rest hlen hconts hchar hrest (ih rest.length ?_ hrest rfl)
      rw [← hn, List.length_cons, List.length_append]
      omega

end

theorem sum_length_chars (text : Bytes) : ((chars text).map List.length).sum = text.length := by
  rw [← List.length_flatten, flatten_chars]

/-- An edit of the characters changes the number of bytes by the widest character at most. -/
theorem length_le_of_distance {a b : Bytes} {w : ℕ} (ha : ∀ char ∈ chars a, char.length ≤ w) :
    a.length ≤ b.length + w * distance (chars a) (chars b) := by
  have h := (edits_distance (chars a) (chars b)).sum_map_le ha
  rwa [sum_length_chars, sum_length_chars] at h

/-! ### The length check -/

/-- What the length check compares: two byte lengths differ by more than the bound. -/
def FarApart (la lb maxDist : ℕ) : Prop := la + maxDist < lb ∨ lb + maxDist < la

instance (la lb maxDist : ℕ) : Decidable (FarApart la lb maxDist) :=
  inferInstanceAs (Decidable (_ ∨ _))

section

variable {a b : Bytes} {maxDist : ℕ}

theorem levenshtein_of_farApart (h : FarApart a.length b.length maxDist) :
    levenshtein a b maxDist = maxDist + 1 := by
  rw [levenshtein]
  by_cases hlen : b.length < a.length
  · simp only [if_pos hlen]
    exact if_pos (by rcases h with h | h <;> omega)
  · simp only [if_neg hlen]
    exact if_pos (by rcases h with h | h <;> omega)

/-- **Past the length check** an answer is within the bound exactly if the edit distance of the
characters is, and then it is that distance. -/
theorem levenshtein_le_iff (hcheck : ¬FarApart a.length b.length maxDist) :
    (levenshtein a b maxDist ≤ maxDist ↔ distance (chars a) (chars b) ≤ maxDist) ∧
      (distance (chars a) (chars b) ≤ maxDist →
        levenshtein a b maxDist = distance (chars a) (chars b)) := by
  rw [FarApart, not_or, not_lt, not_lt] at hcheck
  have heq : distance (chars a) (chars b) ≤ maxDist →
      levenshtein a b maxDist = distance (chars a) (chars b) :=
    fun h => levenshtein_eq h hcheck.2 hcheck.1
  refine ⟨⟨fun h => ?_, fun h => ?_⟩, heq⟩
  · rw [← levenshtein_eq_of_le h]
    exact h
  · rw [heq h]
    exact h

/-- A letter is missing. -/
theorem levenshtein_le_sendEmail :
    distance (chars FuzzyMatcher.sendEmal) (chars FuzzyMatcher.sendEmail) ≤ 4 :=
  (levenshtein_le_iff (by decide)).1.mp (by decide +kernel)

end

/-- The check never gives up on texts of these lengths, of characters of up to `w` bytes, whose
characters are near enough. -/
def CheckSound (w la lb maxDist : ℕ) : Prop :=
  ∀ a b : Bytes, validUtf8 a = true → validUtf8 b = true →
    (∀ char ∈ chars a, char.length ≤ w) → (∀ char ∈ chars b, char.length ≤ w) →
    a.length = la → b.length = lb → FarApart la lb maxDist →
    maxDist < distance (chars a) (chars b)

theorem CheckSound.symm {w la lb maxDist : ℕ} (h : CheckSound w la lb maxDist) :
    CheckSound w lb la maxDist := by
  intro a b ha hb hwa hwb hla hlb hfar
  rw [distance_comm]
  exact h b a hb ha hwb hwa hlb hla hfar.symm

/-- Far more bytes are more characters. -/
theorem checkSound_of_farApart {w la lb maxDist : ℕ} (h : FarApart la lb (w * maxDist)) :
    CheckSound w la lb maxDist := by
  rintro a b _ _ hwa hwb rfl rfl _
  have hab := length_le_of_distance (b := b) hwa
  have hba := length_le_of_distance (b := a) hwb
  rw [distance_comm] at hba
  have hlt : w * maxDist < w * distance (chars a) (chars b) := by
    rcases h with h | h
    · omega
    · omega
  exact Nat.lt_of_mul_lt_mul_left hlt

/-- A character of one to four bytes: `a`, `é`, `日`, `😀`. -/
def wide : ℕ → Bytes
  | 1 => [97]
  | 2 => [0xC3, 0xA9]
  | 3 => [0xE6, 0x97, 0xA5]
  | 4 => [0xF0, 0x9F, 0x98, 0x80]
  | _ => []

/-- The text of characters of these widths. -/
def wideText (ws : List ℕ) : Bytes := ws.flatMap wide

theorem wide_spec {w : ℕ} (hw : 1 ≤ w ∧ w ≤ 4) :
    validUtf8 (wide w) = true ∧ (wide w).length = w := by
  obtain ⟨hlow, hhigh⟩ := hw
  interval_cases w <;> decide

theorem chars_wide_append {w : ℕ} (hw : 1 ≤ w ∧ w ≤ 4) {rest : Bytes}
    (hrest : validUtf8 rest = true) : chars (wide w ++ rest) = wide w :: chars rest := by
  have happend : ∀ {b : UInt8} (conts : Bytes), (∀ c ∈ conts, contByte 0x80 0xBF c = true) →
      chars (b :: (conts ++ rest)) = (b :: conts) :: chars rest :=
    fun _ hconts => chars_append hconts (validUtf8_head hrest)
  obtain ⟨hlow, hhigh⟩ := hw
  interval_cases w
  · exact happend [] (by simp)
  · exact happend [0xA9] (by simp [contByte])
  · exact happend [0x97, 0xA5] (by simp [contByte])
  · exact happend [0x9F, 0x98, 0x80] (by simp [contByte])

theorem wideText_spec {ws : List ℕ} (hws : ∀ w ∈ ws, 1 ≤ w ∧ w ≤ 4) :
    validUtf8 (wideText ws) = true ∧ chars (wideText ws) = ws.map wide ∧
      (wideText ws).length = ws.sum := by
  induction ws with
  | nil => exact ⟨by simp [wideText, validUtf8], rfl, rfl⟩
  | cons w ws ih =>
    obtain ⟨hvalid, hchars, hlen⟩ := ih fun v hv => hws v (List.mem_cons_of_mem _ hv)
    have hw := hws w List.mem_cons_self
    rw [wideText, List.flatMap_cons, ← wideText]
    refine ⟨?_, ?_, ?_⟩
    · rw [validUtf8_append (wide_spec hw).1, hvalid]
    · rw [chars_wide_append hw hvalid, hchars, List.map_cons]
    · rw [List.length_append, hlen, (wide_spec hw).2, List.sum_cons]

/-- As few widths of up to `w` as possible for so many bytes. -/
def fewWidths (w n : ℕ) : List ℕ := List.replicate (n / w) w ++ if n % w = 0 then [] else [n % w]

theorem mem_fewWidths {w n v : ℕ} (hw : 1 ≤ w) (h : v ∈ fewWidths w n) : 1 ≤ v ∧ v ≤ w := by
  rw [fewWidths] at h
  rcases List.mem_append.mp h with h | h
  · rw [List.eq_of_mem_replicate h]
    exact ⟨hw, le_refl w⟩
  · split at h
    · exact absurd h List.not_mem_nil
    · rw [List.mem_singleton.mp h]
      exact ⟨by omega, (Nat.mod_lt n hw).le⟩

theorem sum_fewWidths (w n : ℕ) : (fewWidths w n).sum = n := by
  have hdiv := Nat.div_add_mod' n w
  rw [fewWidths, List.sum_append, List.sum_replicate, smul_eq_mul]
  split
  · rw [List.sum_nil]
    omega
  · rw [List.sum_singleton]
    omega

theorem length_fewWidths_le {w n k : ℕ} (hw : 1 ≤ w) (hn : n ≤ w * k) :
    (fewWidths w n).length ≤ k := by
  rw [fewWidths, List.length_append, List.length_replicate]
  split
  · rw [List.length_nil, Nat.add_zero]
    exact Nat.div_le_of_le_mul hn
  · -- `n` is no multiple of `w`, so it is below the bound
    rename_i hmod
    rw [List.length_singleton, Nat.succ_le_iff, Nat.div_lt_iff_lt_mul hw, Nat.mul_comm]
    refine lt_of_le_of_ne hn ?_
    rintro rfl
    exact hmod (Nat.mul_mod_right w k)

/-- **Texts whose bytes are further apart than their characters**: a run of `a`, and the same with
a few wide characters after it. -/
theorem exists_near_texts {w : ℕ} (hw : 1 ≤ w ∧ w ≤ 4) {la lb k : ℕ} (hle : la ≤ lb)
    (hk : lb ≤ la + w * k) : ∃ a b : Bytes, validUtf8 a = true ∧ validUtf8 b = true ∧
      (∀ char ∈ chars a, char.length ≤ w) ∧ (∀ char ∈ chars b, char.length ≤ w) ∧
      a.length = la ∧ b.length = lb ∧ distance (chars a) (chars b) ≤ k := by
  have hone : ∀ v ∈ List.replicate la 1, 1 ≤ v ∧ v ≤ w := by
    intro v hv
    rw [List.eq_of_mem_replicate hv]
    exact ⟨le_refl 1, hw.1⟩
  have hboth : ∀ v ∈ List.replicate la 1 ++ fewWidths w (lb - la), 1 ≤ v ∧ v ≤ w :=
    fun v hv => (List.mem_append.mp hv).elim (hone v) (mem_fewWidths hw.1)
  have hwide : ∀ {ws : List ℕ}, (∀ v ∈ ws, 1 ≤ v ∧ v ≤ w) → ∀ v ∈ ws, 1 ≤ v ∧ v ≤ 4 :=
    fun h v hv => ⟨(h v hv).1, (h v hv).2.trans hw.2⟩
  obtain ⟨ha, hcharsa, hlena⟩ := wideText_spec (hwide hone)
  obtain ⟨hb, hcharsb, hlenb⟩ := wideText_spec (hwide hboth)
  have hchars : ∀ {ws : List ℕ}, (∀ v ∈ ws, 1 ≤ v ∧ v ≤ w) →
      ∀ char ∈ ws.map wide, char.length ≤ w := by
    intro ws hws char hchar
    obtain ⟨v, hv, rfl⟩ := List.mem_map.mp hchar
    rw [(wide_spec (hwide hws v hv)).2]
    exact (hws v hv).2
  refine ⟨_, _, ha, hb, ?_, ?_, ?_, ?_, ?_⟩
  · rw [hcharsa]
    exact hchars hone
  · rw [hcharsb]
    exact hchars hboth
  · rw [hlena, List.sum_replicate, smul_eq_mul, Nat.mul_one]
  · rw [hlenb, List.sum_append, List.sum_replicate, smul_eq_mul, Nat.mul_one, sum_fewWidths]
    omega
  · have hedits := (Edits.refl ((List.replicate la 1).map wide)).append
      (edits_nil_left ((fewWidths w (lb - la)).map wide))
    rw [List.append_nil, ← List.map_append, ← hcharsa, ← hcharsb, Nat.zero_add, List.length_map]
      at hedits
    exact hedits.distance_le.trans (length_fewWidths_le hw.1 (by omega))

/-- **When the length check is sound**: where it does not apply, or the lengths are further apart
than so many edits can account for. -/
theorem checkSound_iff {w : ℕ} (hw : 1 ≤ w ∧ w ≤ 4) {la lb maxDist : ℕ} :
    CheckSound w la lb maxDist ↔ ¬FarApart la lb maxDist ∨ FarApart la lb (w * maxDist) := by
  constructor
  · intro h
    by_contra hnear
    rw [not_or, not_not] at hnear
    obtain ⟨hfar, hnear⟩ := hnear
    rw [FarApart, not_or, not_lt, not_lt] at hnear
    rcases Nat.le_total la lb with hle | hle
    · obtain ⟨a, b, ha, hb, hwa, hwb, hla, hlb, hd⟩ := exists_near_texts hw hle hnear.1
      exact absurd (h a b ha hb hwa hwb hla hlb hfar) (not_lt.mpr hd)
    · obtain ⟨b, a, hb, ha, hwb, hwa, hlb, hla, hd⟩ := exists_near_texts hw hle hnear.2
      exact absurd (h.symm b a hb ha hwb hwa hlb hla hfar.symm) (not_lt.mpr hd)
  · rintro (hcheck | hfar)
    · exact fun a b _ _ _ _ _ _ hfar => absurd hfar hcheck
    · exact checkSound_of_farApart hfar

namespace FuzzyMatcher

theorem normalize_append (a b : Bytes) : normalize (a ++ b) = normalize a ++ normalize b := by
  rw [normalize, List.filter_append, List.map_append, ← normalize, ← normalize]

/-- Only ASCII bytes are changed. -/
theorem normalize_cons {b : UInt8} (h : ¬b < 0x80) (text : Bytes) :
    normalize (b :: text) = b :: normalize text := by
  have hle := UInt8.not_lt.mp h
  have hne : ∀ c : UInt8, c < 0x80 → b ≠ c := by
    rintro c hc rfl
    exact h hc
  have hupper : isAsciiUppercase b = false := by
    rw [isAsciiUppercase, Bool.and_eq_false_iff]
    right
    exact decide_eq_false fun hb => h (UInt8.lt_of_le_of_lt hb (by decide))
  have hkeep : (!(b = 95 || b = 45 || b = 32)) = true := by
    simp [hne 95 (by decide), hne 45 (by decide), hne 32 (by decide)]
  have hfilter : (b :: text).filter (fun b => !(b = 95 || b = 45 || b = 32))
      = b :: text.filter (fun b => !(b = 95 || b = 45 || b = 32)) := List.filter_cons_of_pos hkeep
  rw [normalize, hfilter, List.map_cons, ← normalize, toAsciiLowercase, hupper,
    if_neg Bool.false_ne_true]

theorem normalize_conts {conts : Bytes} (h : ∀ c ∈ conts, contByte 0x80 0xBF c = true) :
    normalize conts = conts := by
  induction conts with
  | nil => rfl
  | cons c conts ih =>
    have hc := h c List.mem_cons_self
    rw [contByte, Bool.and_eq_true, decide_eq_true_iff] at hc
    rw [normalize_cons (UInt8.not_lt.mpr hc.1), ih fun d hd => h d (List.mem_cons_of_mem _ hd)]

/-- A normal form is a text. -/
theorem validUtf8_normalize {text : Bytes} (h : validUtf8 text = true) :
    validUtf8 (normalize text) = true := by
  refine text_induction (motive := fun text => validUtf8 (normalize text) = true) (by decide)
    (fun b conts rest _ hconts hchar _ ih => ?_) h
  · have hfirst : validUtf8 (normalize (b :: conts)) = true := by
      by_cases hb : b < 0x80
      · have hnone : conts = [] := by
          rw [validUtf8.eq_def] at hchar
          simp only [hb, if_true] at hchar
          have hhead := validUtf8_head hchar
          cases conts with
          | nil => rfl
          | cons c conts =>
            have hlead := hhead c rfl
            rw [hconts c List.mem_cons_self] at hlead
            exact absurd hlead.symm Bool.false_ne_true
        subst hnone
        have hascii : IsAscii [b] := by simpa [IsAscii] using hb
        exact validUtf8_of_ascii hascii.normalForm
      · rw [normalize_cons hb, normalize_conts hconts]
        exact hchar
    rw [normalize_append, validUtf8_append hfirst]
    exact ih

/-- Phase 2 discards the symbols whose bounded distance is above the bound. -/
theorem Filed.checkDistance_isSome_iff {m : FuzzyMatcher} {syms : List Bytes} (h : Filed m syms)
    {s : Bytes} {i : ℕ} (hi : syms[i]? = some s) (q : Bytes) (maxDistance : ℕ) (jaccard : ℚ) :
    (m.checkDistance q (normalize q) maxDistance (jaccard, i)).isSome ↔
      boundedDist q s maxDistance ≤ maxDistance := by
  have hnorm : m.normalized.getD i [] = normalize s := by
    rw [h.normalized, List.getD_eq_getElem?_getD, List.getElem?_map, hi, Option.map_some,
      Option.getD_some]
  rw [checkDistance, hnorm, boundedDist]
  split
  · exact iff_of_true rfl ‹_›
  · exact iff_of_false (by simp) ‹_›

/-- No symbol within the bound is discarded, among symbols and queries with normal forms of these
lengths, of characters of up to `w` bytes. -/
def KeepsNear (w la lb maxDistance : ℕ) : Prop :=
  ∀ (m : FuzzyMatcher) (syms : List Bytes), Filed m syms → ∀ (q s : Bytes) (i : ℕ) (jaccard : ℚ),
    validUtf8 q = true → validUtf8 s = true → syms[i]? = some s →
    (∀ char ∈ chars (normalize q), char.length ≤ w) →
    (∀ char ∈ chars (normalize s), char.length ≤ w) →
    (normalize q).length = la → (normalize s).length = lb → symbolDistance q s ≤ maxDistance →
    (m.checkDistance q (normalize q) maxDistance (jaccard, i)).isSome

theorem keepsNear_of_checkSound {w la lb maxDistance : ℕ} (h : CheckSound w la lb maxDistance) :
    KeepsNear w la lb maxDistance := by
  rintro m syms hfiled q s i jaccard hq hs hi hwq hws rfl rfl hd
  rw [hfiled.checkDistance_isSome_iff hi]
  have hcheck : ¬FarApart (normalize q).length (normalize s).length maxDistance := fun hfar =>
    absurd (h _ _ (validUtf8_normalize hq) (validUtf8_normalize hs) hwq hws rfl rfl hfar)
      (not_lt.mpr hd)
  rw [FarApart, not_or, not_lt, not_lt] at hcheck
  rw [boundedDist, levenshtein_eq hd hcheck.2 hcheck.1]
  exact hd

/-- **The length check** rejects only texts beyond the bound, and the matcher keeps the near
symbols, exactly where the byte lengths are not far apart or further than `w` times the bound, for
the width `w` of the widest character. -/
theorem lengthCheck_sound_iff {w : ℕ} (hw : 1 ≤ w ∧ w ≤ 4) (la lb maxDist : ℕ) :
    CheckSound w la lb maxDist ∧ KeepsNear w la lb maxDist ↔
      ¬FarApart la lb maxDist ∨ FarApart la lb (w * maxDist) := by
  rw [← checkSound_iff hw]
  exact and_iff_left_of_imp keepsNear_of_checkSound

/-- Lengths 2 and 8, and a bound of 4: sound for ASCII. -/
theorem lengthCheck_sound_ascii : CheckSound 1 2 8 4 ∧ KeepsNear 1 2 8 4 :=
  (lengthCheck_sound_iff ⟨le_refl 1, Nat.le_add_left 1 3⟩ 2 8 4).mpr (.inr (by decide))

/-- `ab` -/
def ab : Bytes := [97, 98]

/-- `ab日本` -/
def abWide : Bytes := [97, 98, 0xE6, 0x97, 0xA5, 0xE6, 0x9C, 0xAC]

/-- **Two characters of three bytes**: `ab日本` is two edits from `ab`, shares trigrams with it, and
is not found within four. -/
theorem lengthCheck_abWide :
    validUtf8 abWide = true ∧ FarApart ab.length abWide.length 4 ∧ levenshtein ab abWide 4 = 5 ∧
      distance (chars ab) (chars abWide) = 2 ∧ symbolDistance ab abWide = 2 ∧
      (trigramSet ab ∩ trigramSet abWide).Nonempty ∧
      ([abWide].foldl FuzzyMatcher.add (.new 4)).query ab 10 = [] := by
  have hfar : FarApart ab.length abWide.length 4 := by decide
  have hlev : levenshtein ab abWide 4 = 5 := levenshtein_of_farApart hfar
  have hnorm : normalize ab = ab ∧ normalize abWide = abWide := by decide
  have hdist : distance (chars ab) (chars abWide) = 2 := by
    have hsix : levenshtein ab abWide 6 = 2 := by decide +kernel
    rw [← levenshtein_eq_of_le (hsix.trans_le (show 2 ≤ 6 by decide)), hsix]
  refine ⟨by decide, hfar, hlev, hdist, ?_, ?_, ?_⟩
  · rw [symbolDistance, hnorm.1, hnorm.2, hdist]
  · refine ⟨[35, 35, 97], ?_⟩
    decide +kernel
  · have hnear : nearby [abWide] ab 10 4 = [] := by
      rw [nearby, List.filter_eq_nil_iff]
      intro p hp
      have hrelated := Ranking.sort_perm.mem_iff.mp (List.mem_of_mem_take hp)
      have hsym : p.1 = abWide := by
        have hmem := List.mem_of_getElem? (mem_related.mp hrelated).1
        exact List.mem_singleton.mp hmem
      rw [hsym, boundedDist, hnorm.1, hnorm.2, hlev]
      decide
    have hfiled := (Filed.new 4).foldl [abWide]
    rw [query, maxDistance_foldl, hfiled.queryWithMax_eq]
    show (fuzzySearch [abWide] ab 10 4).map _ = []
    have hnil : Ranking.sort (FuzzyResult.key ∘ resultOf ab 4) [] = [] := List.mergeSort_nil
    rw [fuzzySearch, hnear, hnil]
    rfl

end FuzzyMatcher

end Uldb
