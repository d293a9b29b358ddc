/-
Posting lists of a collection of texts.

A text is a list of tokens.  The posting list of a token has, for every text the token
occurs in, the position of the text and the number of times the token occurs there, in
the order of the texts.

* `occurrences_concat` — one more text;
* `mem_occurrences` — what is on a posting list.
-/
import Mathlib

namespace Postings

variable {α : Type} [BEq α] [LawfulBEq α]

/-- The posting list of a token. -/
def occurrences (tok : α) (texts : List (List α)) : List (ℕ × ℕ) :=
  texts.zipIdx.filterMap fun p => if tok ∈ p.1 then some (p.2, p.1.count tok) else none

theorem occurrences_concat (tok : α) (texts : List (List α)) (text : List α) :
    occurrences tok (texts ++ [text]) = occurrences tok texts ++
      if text.count tok = 0 then [] else [(texts.length, text.count tok)] := by
  rw [occurrences, List.zipIdx_append, List.filterMap_append, occurrences]
  congr 1
  by_cases h : tok ∈ text
  · have hcount : text.count tok ≠ 0 := (List.count_pos_iff.mpr h).ne'
    simp [h, hcount]
  · simp [h, List.count_eq_zero.mpr h]

theorem mem_occurrences {tok : α} {texts : List (List α)} {i n : ℕ} :
    (i, n) ∈ occurrences tok texts ↔
      ∃ text, texts[i]? = some text ∧ tok ∈ text ∧ n = text.count tok := by
  rw [occurrences, List.mem_filterMap]
  constructor
  · rintro ⟨⟨text, j⟩, hmem, heq⟩
    by_cases h : tok ∈ text
    · rw [if_pos h, Option.some_inj, Prod.mk.injEq] at heq
      obtain ⟨rfl, rfl⟩ := heq
      exact ⟨text, List.mk_mem_zipIdx_iff_getElem?.mp hmem, h, rfl⟩
    · rw [if_neg h] at heq
      exact absurd heq (by simp)
  · rintro ⟨text, hi, h, rfl⟩
    exact ⟨(text, i), List.mk_mem_zipIdx_iff_getElem?.mpr hi, if_pos h⟩

theorem pos_of_mem_occurrences {tok : α} {texts : List (List α)} {p : ℕ × ℕ}
    (h : p ∈ occurrences tok texts) : 0 < p.2 := by
  obtain ⟨text, _, htok, hn⟩ := mem_occurrences.mp h
  rw [hn]
  exact List.count_pos_iff.mpr htok

theorem length_occurrences_le (tok : α) (texts : List (List α)) :
    (occurrences tok texts).length ≤ texts.length := by
  have h := List.length_filterMap_le
    (fun p : List α × ℕ => if tok ∈ p.1 then some (p.2, p.1.count tok) else none) texts.zipIdx
  rwa [List.length_zipIdx] at h

end Postings
