/-
Whether a symbol search finds the symbol that was asked for.

An added symbol has the greatest similarity to itself, but so has every symbol with the same
trigrams, and the cut of the candidates prefers the older ones.  The preference for the raw
symbol comes after the cut.

* `mem_shortlist_self` — the symbol passes the cut exactly if few enough older symbols have its
  trigrams;
* `query_exact_iff` — this is when a query returns it first.
-/
import Uldb.Fuzzy

namespace Uldb

open OrderDual

namespace FuzzyMatcher

section

variable {syms : List Bytes} {q s : Bytes} {topK maxDistance i : ℕ}

theorem candidateKey_lt {c d : ℚ × ℕ} :
    candidateKey c < candidateKey d ↔ c.1 < d.1 ∨ c.1 = d.1 ∧ d.2 < c.2 := by
  rw [candidateKey, candidateKey, Prod.Lex.toLex_lt_toLex, toDual_lt_toDual]

theorem similarity_le_one (q s : Bytes) : similarity q s ≤ 1 := by
  refine div_le_one_of_le₀ ?_ (Nat.cast_nonneg _)
  exact_mod_cast Finset.card_le_card
    (Finset.inter_subset_left.trans Finset.subset_union_left)

/-- The greatest similarity is that of the same trigrams. -/
theorem similarity_eq_one_iff (hq : normalize q ≠ []) :
    similarity q s = 1 ↔ trigramSet s = trigramSet q := by
  have hunion : ((trigramSet q ∪ trigramSet s).card : ℚ) ≠ 0 := by
    exact_mod_cast ((trigramSet_nonempty hq).mono Finset.subset_union_left).card_pos.ne'
  rw [similarity, div_eq_one_iff_eq hunion, Nat.cast_inj]
  constructor
  · intro hcard
    have hsame := Finset.eq_of_subset_of_card_le
      (Finset.inter_subset_left.trans Finset.subset_union_left) hcard.ge
    refine Finset.Subset.antisymm ?_ ?_
    · exact Finset.subset_union_right.trans (hsame.ge.trans Finset.inter_subset_left)
    · exact Finset.subset_union_left.trans (hsame.ge.trans Finset.inter_subset_right)
  · intro hset
    rw [hset, Finset.inter_self, Finset.union_self]

/-- Counting items before a place. -/
theorem countP_zipIdx_lt (P : Bytes → Bool) (l : List Bytes) (n k : ℕ) :
    (l.zipIdx k).countP (fun p => P p.1 && decide (p.2 < n)) = (l.take (n - k)).countP P := by
  induction l generalizing k with
  | nil => simp
  | cons a l ih =>
    rw [List.zipIdx_cons, List.countP_cons, ih]
    by_cases hk : k < n
    · have hsub : n - k = n - (k + 1) + 1 := by omega
      rw [hsub, List.take_succ_cons, List.countP_cons]
      simp [hk]
    · have hsub : n - k = 0 := by omega
      have hsub' : n - (k + 1) = 0 := by omega
      simp [hk, hsub, hsub']

/-- The candidates above a symbol, when it is asked for itself. -/
theorem length_above_self (hq : normalize q ≠ []) :
    (Ranking.above (candidateKey ∘ candidateOf q) (related syms q) (q, i)).length
      = (syms.take i).countP fun s => trigramSet s = trigramSet q := by
  have habove : ∀ p : Bytes × ℕ,
      (candidateKey ∘ candidateOf q) (q, i) < (candidateKey ∘ candidateOf q) p ↔
        trigramSet p.1 = trigramSet q ∧ p.2 < i := by
    intro p
    have hself : similarity q q = 1 := (similarity_eq_one_iff hq).mpr rfl
    rw [Function.comp_apply, Function.comp_apply, candidateKey_lt, candidateOf, candidateOf, hself,
      eq_comm, similarity_eq_one_iff hq]
    exact or_iff_right (not_lt.mpr (similarity_le_one q p.1))
  have hcount := countP_zipIdx_lt (fun s => trigramSet s = trigramSet q) syms i 0
  rw [Nat.sub_zero] at hcount
  rw [← hcount, Ranking.above, related, List.filter_filter, List.countP_eq_length_filter]
  congr 1
  refine List.filter_congr fun p _ => ?_
  rw [Bool.eq_iff_iff]
  simp only [Bool.and_eq_true, decide_eq_true_iff, habove p]
  refine and_iff_left_of_imp fun h => ?_
  rw [h.1, Finset.inter_self]
  exact trigramSet_nonempty hq

theorem candidate_injOn {p p' : Bytes × ℕ} (hp : p ∈ related syms q) (hp' : p' ∈ related syms q)
    (h : (candidateKey ∘ candidateOf q) p = (candidateKey ∘ candidateOf q) p') : p = p' :=
  eq_of_mem_related hp hp' (Prod.mk.inj (candidateKey_injective h)).2

/-- **What passes the cut**: a symbol with few enough older symbols of its trigrams. -/
theorem mem_shortlist_self (hq : normalize q ≠ []) (hi : syms[i]? = some q) :
    (q, i) ∈ shortlist syms q topK ↔
      ((syms.take i).countP fun s => trigramSet s = trigramSet q) < candidateLimit topK := by
  rw [shortlist, Ranking.mem_take_sort (fun _ hp _ hp' => candidate_injOn hp hp')
    (nodup_related syms q) ((mem_related_self hq).mpr hi), length_above_self hq]

theorem mem_nearby_self :
    (q, i) ∈ nearby syms q topK maxDistance ↔ (q, i) ∈ shortlist syms q topK := by
  rw [nearby, List.mem_filter, boundedDist_self]
  exact and_iff_left (decide_eq_true (Nat.zero_le _))

/-- The symbol that is asked for ranks first, the oldest copy of it before the others. -/
theorem key_le_self {p : Bytes × ℕ} (hold : p.1 = q → i ≤ p.2) :
    (FuzzyResult.key ∘ resultOf q maxDistance) p
      ≤ (FuzzyResult.key ∘ resultOf q maxDistance) (q, i) := by
  rw [Function.comp_apply, Function.comp_apply, FuzzyResult.key, FuzzyResult.key,
    Prod.Lex.toLex_le_toLex, toDual_lt_toDual, resultOf, resultOf, boundedDist_self]
  rcases Nat.eq_zero_or_pos (boundedDist q p.1 maxDistance) with hdist | hdist
  · refine .inr ⟨congrArg toDual hdist, ?_⟩
    rw [Prod.Lex.toLex_le_toLex, toDual_lt_toDual]
    by_cases hp : p.1 = q
    · refine .inr ⟨by simp [hp], not_lt.mp ?_⟩
      rw [candidateKey_lt, hp]
      exact fun h => h.elim (lt_irrefl _) fun h => absurd h.2 (not_lt.mpr (hold hp))
    · left
      simp [hp]
  · exact .inl hdist

theorem idxOf_le_of_getElem? (hi : syms[i]? = some q) : syms.idxOf q ≤ i := by
  by_contra hbefore
  obtain ⟨hin, hget⟩ := List.getElem?_eq_some_iff.mp hi
  have hne := List.not_of_lt_findIdx (not_le.mp hbefore)
  rw [hget, beq_self_eq_true] at hne
  exact absurd hne (by simp)

/-- A copy of the symbol passes the cut exactly if the oldest one does. -/
theorem exists_mem_shortlist_iff (hmem : q ∈ syms) (hq : normalize q ≠ []) :
    (∃ i, (q, i) ∈ shortlist syms q topK) ↔
      ((syms.take (syms.idxOf q)).countP fun s => trigramSet s = trigramSet q)
        < candidateLimit topK := by
  constructor
  · rintro ⟨i, hi⟩
    have hplace := (mem_related.mp (Ranking.sort_perm.mem_iff.mp (List.mem_of_mem_take hi))).1
    have hlt := (mem_shortlist_self hq hplace).mp hi
    exact ((List.take_sublist_take_left (idxOf_le_of_getElem? hplace)).countP_le).trans_lt hlt
  · intro hlt
    exact ⟨_, (mem_shortlist_self hq (List.getElem?_idxOf hmem)).mpr hlt⟩

/-- **The first result** is the symbol that is asked for, if the symbol passes the cut. -/
theorem head?_fuzzySearch (hmem : q ∈ syms) (hq : normalize q ≠ []) (htop : 1 ≤ topK) :
    (∃ i, (fuzzySearch syms q topK maxDistance).head? = some (q, i)) ↔
      ((syms.take (syms.idxOf q)).countP fun s => trigramSet s = trigramSet q)
        < candidateLimit topK := by
  constructor
  · rintro ⟨i, hi⟩
    have hsearch := List.mem_of_mem_head? (Option.mem_def.mpr hi)
    have hnearby := Ranking.sort_perm.mem_iff.mp (List.mem_of_mem_take hsearch)
    exact (exists_mem_shortlist_iff hmem hq).mp ⟨i, mem_nearby_self.mp hnearby⟩
  · intro hlt
    have hnearby := (@mem_nearby_self syms q topK maxDistance _).mpr
      ((mem_shortlist_self hq (List.getElem?_idxOf hmem)).mpr hlt)
    refine ⟨syms.idxOf q, ?_⟩
    rw [fuzzySearch, List.head?_take, if_neg (by omega)]
    refine Ranking.head?_sort ?_ hnearby ?_
    · intro p hp p' hp' hkey
      refine eq_of_mem_related (mem_related_of_mem_nearby hp) (mem_related_of_mem_nearby hp') ?_
      have hrest := (Prod.mk.inj (toLex.injective (Prod.mk.inj (toLex.injective hkey)).2)).2
      exact (Prod.mk.inj (candidateKey_injective hrest)).2
    · intro p hp
      refine key_le_self fun hpq => idxOf_le_of_getElem? ?_
      rw [← hpq]
      exact (mem_related.mp (mem_related_of_mem_nearby hp)).1

theorem head?_query (syms : List Bytes) (q : Bytes) (topK maxDistance : ℕ) :
    (∃ r, ((syms.foldl FuzzyMatcher.add (.new maxDistance)).query q topK).head? = some r ∧
      r.symbol = q ∧ r.distance = 0) ↔
      ∃ i, (fuzzySearch syms q topK maxDistance).head? = some (q, i) := by
  have hfiled := (Filed.new maxDistance).foldl syms
  rw [query, maxDistance_foldl, hfiled.queryWithMax_eq, List.head?_map, List.nil_append,
    FuzzyMatcher.new]
  constructor
  · rintro ⟨r, hr, hsymbol, _⟩
    obtain ⟨⟨s, i⟩, hp, rfl⟩ := Option.map_eq_some_iff.mp hr
    obtain rfl : s = q := hsymbol
    exact ⟨i, hp⟩
  · rintro ⟨i, hi⟩
    rw [hi]
    exact ⟨_, rfl, rfl, boundedDist_self q maxDistance⟩

/-- **Asking for an added symbol** returns it first, with distance 0, exactly if fewer symbols
with its trigrams than the candidate limit were added before it. -/
theorem query_exact_iff (syms : List Bytes) (hmem : q ∈ syms) (hq : normalize q ≠ [])
    (htop : 1 ≤ topK) (maxDistance : ℕ) :
    (∃ r, ((syms.foldl FuzzyMatcher.add (.new maxDistance)).query q topK).head? = some r ∧
      r.symbol = q ∧ r.distance = 0) ↔
      ((syms.take (syms.idxOf q)).countP fun s => trigramSet s = trigramSet q)
        < candidateLimit topK := by
  rw [head?_query]
  exact head?_fuzzySearch hmem hq htop

end

/-- `AB` was added before `ab`. -/
theorem query_exact_ab :
    ∃ r, (([[65, 66], [97, 98]].foldl FuzzyMatcher.add (.new 4)).query [97, 98] 1).head? = some r ∧
      r.symbol = [97, 98] ∧ r.distance = 0 :=
  (query_exact_iff [[65, 66], [97, 98]] (by decide) (by decide) (by decide) 4).mpr
    (Nat.lt_of_le_of_lt List.countP_le_length (by decide))

/-- Many copies of `AB`, and then `ab`. -/
def crowd : List Bytes := List.replicate 200 [65, 66] ++ [[97, 98]]

/-- **The copies take all places** before the cut. -/
theorem query_exact_crowd :
    [97, 98] ∈ crowd ∧ normalize [97, 98] ≠ [] ∧
    ¬∃ r, ((crowd.foldl FuzzyMatcher.add (.new 4)).query [97, 98] 1).head? = some r ∧
      r.symbol = [97, 98] ∧ r.distance = 0 := by
  have hmem : [97, 98] ∈ crowd := List.mem_append_right _ (List.mem_singleton_self _)
  have hq : normalize [97, 98] ≠ [] := by decide
  have hplace : crowd.idxOf [97, 98] = 200 := by
    rw [crowd, List.idxOf_append_of_notMem, List.idxOf_cons_self, List.length_replicate]
    intro h
    exact absurd (List.eq_of_mem_replicate h) (by decide)
  have hset : trigramSet [65, 66] = trigramSet [97, 98] := by
    rw [trigramSet, trigramSet]
    congr 2
  refine ⟨hmem, hq, ?_⟩
  rw [head?_query, head?_fuzzySearch hmem hq (le_refl 1), hplace, crowd,
    List.take_left' (List.length_replicate), List.countP_replicate, hset]
  decide

end FuzzyMatcher

end Uldb
