/-
What the trigram filter of a symbol search lets through.

An edit of a padded text destroys three trigrams at most.  So two texts whose distance is less
than a third of their trigrams share one, and the second text is a candidate for the first.

* `trigramSet_inter_nonempty` — near texts share a trigram;
* `recall_near` — with room for all candidates and all near symbols, a query returns a near
  symbol with its distance.
-/
import Uldb.Fuzzy

namespace Uldb

open EditDistance

namespace FuzzyMatcher

/-- Every byte is an ASCII character. -/
def IsAscii (text : Bytes) : Prop := ∀ b ∈ text, b < 128

instance (text : Bytes) : Decidable (IsAscii text) :=
  inferInstanceAs (Decidable (∀ b ∈ text, b < 128))

/-- The edit distance of the normal forms. -/
def symbolDistance (q s : Bytes) : ℕ := distance (chars (normalize q)) (chars (normalize s))

section

variable {q s text w : Bytes} {a b : Bytes} {n : ℕ}

theorem IsAscii.normalForm (h : IsAscii text) : IsAscii (normalize text) := by
  intro b hb
  obtain ⟨c, hc, rfl⟩ := List.mem_map.mp hb
  have hc := h c (List.mem_of_mem_filter hc)
  rw [toAsciiLowercase, isAsciiUppercase]
  split
  · rename_i hupper
    rw [Bool.and_eq_true, decide_eq_true_iff, decide_eq_true_iff] at hupper
    rw [UInt8.lt_iff_toNat_lt, UInt8.toNat_add]
    have hle := UInt8.le_iff_toNat_le.mp hupper.2
    simp only [UInt8.reduceToNat] at hle ⊢
    omega
  · exact hc

/-- The characters of an ASCII text are its bytes. -/
theorem IsAscii.chars_eq (h : IsAscii text) : chars text = text.map fun b => [b] := by
  induction text with
  | nil => rfl
  | cons b text ih =>
    have hrest : IsAscii text := fun c hc => h c (List.mem_cons_of_mem _ hc)
    have hchars := ih hrest
    rw [chars, List.foldr_cons, ← chars, hchars, List.map_cons]
    cases text with
    | nil => rfl
    | cons c text =>
      have hc : c < 128 := hrest c List.mem_cons_self
      have hlead : ¬contByte 0x80 0xBF c = true := by
        rw [contByte, Bool.and_eq_true, decide_eq_true_iff]
        exact fun hcont => absurd hcont.1 (UInt8.not_le.mpr hc)
      rw [List.map_cons, consByte, if_neg hlead]

/-- Edits of the characters of ASCII texts are edits of the bytes. -/
theorem edits_of_isAscii (ha : IsAscii a) (hb : IsAscii b) (h : Edits n (chars a) (chars b)) :
    Edits n a b := by
  have hbytes : ∀ text : Bytes, (text.map fun b => [b]).map (fun c => c.headD 0) = text := by
    intro text
    rw [List.map_map]
    exact List.map_id' text
  rw [ha.chars_eq, hb.chars_eq] at h
  have hmap := h.map fun c => c.headD 0
  rwa [hbytes, hbytes] at hmap

theorem edits_symbolDistance (hq : IsAscii q) (hs : IsAscii s) :
    Edits (symbolDistance q s) (normalize q) (normalize s) :=
  edits_of_isAscii hq.normalForm hs.normalForm (edits_distance _ _)

/-- A piece of three bytes is a window. -/
theorem mem_windows (hlen : w.length = 3) (h : w <:+: text) : w ∈ windows text := by
  obtain ⟨u, v, rfl⟩ := h
  obtain ⟨x, y, z, rfl⟩ := List.length_eq_three.mp hlen
  induction u with
  | nil => exact List.mem_cons_self
  | cons c u ih =>
    obtain ⟨d, e, rest, hrest⟩ : ∃ d e rest, u ++ [x, y, z] ++ v = d :: e :: rest := by
      match u with
      | [] => exact ⟨x, y, z :: v, rfl⟩
      | [d] => exact ⟨d, x, y :: z :: v, rfl⟩
      | d :: e :: u => exact ⟨d, e, u ++ [x, y, z] ++ v, rfl⟩
    rw [List.cons_append, List.cons_append, hrest, windows, ← hrest]
    exact List.mem_cons_of_mem _ ih

/-- **Few edits leave a trigram.** -/
theorem trigrams_inter_of_edits (ha : a ≠ []) (hb : b ≠ []) (h : Edits n a b)
    (hn : 3 * n < a.length + 2) : ∃ w, w ∈ trigrams a ∧ w ∈ trigrams b := by
  have hpadded : Edits n ([35, 35] ++ a ++ [35, 35]) ([35, 35] ++ b ++ [35, 35]) := by
    have := ((Edits.refl [35, 35]).append h).append (Edits.refl [35, 35])
    rwa [Nat.zero_add, Nat.add_zero] at this
  obtain ⟨w, hlen, hwa, hwb⟩ := hpadded.common_window (q := 3) (u := []) (by decide) (by
    simp only [List.length_append, List.length_cons, List.length_nil]
    omega)
  rw [List.nil_append] at hwa hwb
  refine ⟨w, ?_, ?_⟩
  · rw [trigrams, if_neg ha]
    exact mem_windows hlen hwa
  · rw [trigrams, if_neg hb]
    exact mem_windows hlen hwb

/-- **Near symbols share a trigram.** -/
theorem trigramSet_inter_nonempty (hq : IsAscii q) (hs : IsAscii s) (hqn : normalize q ≠ [])
    (hsn : normalize s ≠ [])
    (hd : 3 * symbolDistance q s < max (normalize q).length (normalize s).length + 2) :
    (trigramSet q ∩ trigramSet s).Nonempty := by
  have hedits := edits_symbolDistance hq hs
  obtain ⟨w, hwq, hws⟩ : ∃ w, w ∈ trigrams (normalize q) ∧ w ∈ trigrams (normalize s) := by
    rcases max_choice (normalize q).length (normalize s).length with hmax | hmax
    · rw [hmax] at hd
      exact trigrams_inter_of_edits hqn hsn hedits hd
    · -- the longer text is the symbol
      rw [hmax] at hd
      obtain ⟨w, hws, hwq⟩ := trigrams_inter_of_edits hsn hqn hedits.symm hd
      exact ⟨w, hwq, hws⟩
  exact ⟨w, Finset.mem_inter.mpr ⟨List.mem_toFinset.mpr hwq, List.mem_toFinset.mpr hws⟩⟩

/-- On ASCII the bounded distance is the distance, up to the bound. -/
theorem boundedDist_eq {maxDistance : ℕ} (hq : IsAscii q) (hs : IsAscii s)
    (hmax : symbolDistance q s ≤ maxDistance) :
    boundedDist q s maxDistance = symbolDistance q s := by
  have hedits := edits_symbolDistance hq hs
  have hle := hedits.length_le
  have hle' := hedits.symm.length_le
  exact levenshtein_eq hmax (by omega) (by omega)

end

section

variable {syms : List Bytes} {q s : Bytes} {topK maxDistance : ℕ}

/-- What passes the distance check is counted by the distance. -/
theorem length_nearby_le_countP : (nearby syms q topK maxDistance).length
    ≤ syms.countP fun t => symbolDistance q t ≤ maxDistance := by
  have hnear : ∀ p : Bytes × ℕ, boundedDist q p.1 maxDistance ≤ maxDistance →
      symbolDistance q p.1 ≤ maxDistance := by
    intro p hp
    rw [symbolDistance, ← levenshtein_eq_of_le hp]
    exact hp
  have hsub : (shortlist syms q topK).Subperm syms.zipIdx :=
    ((List.take_sublist _ _).subperm.trans Ranking.sort_perm.subperm).trans
      List.filter_sublist.subperm
  rw [nearby, ← List.countP_eq_length_filter, ← countP_zipIdx]
  refine (List.countP_mono_left fun p _ hp => ?_).trans (hsub.countP_le _)
  exact decide_eq_true (hnear p (of_decide_eq_true hp))

/-- **Recall of the trigram filter**: a near symbol is returned with its distance, where there is
room for all candidates and all symbols within the bound. -/
theorem recall_near (syms : List Bytes) (hmem : s ∈ syms) (hq : IsAscii q) (hs : IsAscii s)
    (hqn : normalize q ≠ []) (hsn : normalize s ≠ [])
    (hd : 3 * symbolDistance q s < max (normalize q).length (normalize s).length + 2)
    (hmax : symbolDistance q s ≤ maxDistance) (bound : ℕ)
    (hlimit : ((syms.foldl FuzzyMatcher.add (.new bound)).candidates
      (uniqueTrigrams (normalize q))).length ≤ candidateLimit topK)
    (htop : (syms.countP fun t => symbolDistance q t ≤ maxDistance) ≤ topK) :
    ∃ r ∈ (syms.foldl FuzzyMatcher.add (.new bound)).queryWithMax q topK maxDistance,
      r.symbol = s ∧ r.distance = symbolDistance q s := by
  have hfiled := (Filed.new bound).foldl syms
  rw [List.nil_append] at hfiled
  rw [(hfiled.candidates_perm q).length_eq, List.length_map] at hlimit
  have hperm := @fuzzySearch_perm syms q topK maxDistance hlimit
    (length_nearby_le_countP.trans htop)
  obtain ⟨i, hi⟩ := List.getElem?_of_mem hmem
  have hrelated : (s, i) ∈ related syms q :=
    mem_related.mpr ⟨hi, trigramSet_inter_nonempty hq hs hqn hsn hd⟩
  have hdist := boundedDist_eq hq hs hmax
  have hfound : (s, i) ∈ fuzzySearch syms q topK maxDistance := by
    rw [hperm.mem_iff, List.mem_filter, hdist]
    exact ⟨hrelated, decide_eq_true hmax⟩
  rw [hfiled.queryWithMax_eq]
  exact ⟨_, List.mem_map_of_mem hfound, rfl, hdist⟩

end

/-- `sendEmail` -/
def sendEmail : Bytes := [115, 101, 110, 100, 69, 109, 97, 105, 108]

/-- `sendEmal` -/
def sendEmal : Bytes := [115, 101, 110, 100, 69, 109, 97, 108]

/-- `sendMail`, `readEmail` and `sendEmail`. -/
def mailSymbols : List Bytes :=
  [[115, 101, 110, 100, 77, 97, 105, 108], [114, 101, 97, 100, 69, 109, 97, 105, 108], sendEmail]

/-- A typo, among symbols that are like it. -/
theorem recall_sendEmail :
    ∃ r ∈ (mailSymbols.foldl FuzzyMatcher.add (.new 4)).queryWithMax sendEmal 3 4,
      r.symbol = sendEmail ∧ r.distance = symbolDistance sendEmal sendEmail := by
  have hlev : levenshtein (normalize sendEmal) (normalize sendEmail) 1 = 1 := by decide +kernel
  have hdist : symbolDistance sendEmal sendEmail = 1 := by
    rw [symbolDistance, ← levenshtein_eq_of_le hlev.le, hlev]
  have hcandidates := ((Filed.new 4).foldl mailSymbols).candidates_perm sendEmal
  refine recall_near mailSymbols (by simp [mailSymbols]) (by decide +kernel) (by decide +kernel)
    (by decide) (by decide) ?_ ?_ 4 ?_ List.countP_le_length
  · rw [hdist]
    decide
  · rw [hdist]
    decide
  · rw [hcandidates.length_eq, List.length_map]
    exact (length_related_le _ _).trans (by decide)

end FuzzyMatcher

end Uldb
