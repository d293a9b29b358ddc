/-
The symbol search of `index/fuzzy.rs`.

A query counts the trigrams that it shares with each symbol, keeps the most similar symbols,
and ranks those within a bounded edit distance.  Similarities are exact rationals: with counts
below `2^26` the floating-point quotients compare in the same way.  The hash map of the counts
may be iterated in any order, since no two entries compare equal.

`Filed` says what a matcher holds, and `hitCounts_foldl` what a query counts in it.
`queryWithMax_eq` gives the answer of a query in terms of the added symbols alone
(`fuzzySearch`).
-/
import Uldb.Levenshtein
import Uldb.Lib.Ranking

namespace Uldb

open OrderDual

structure FuzzyMatch where
  symbol : Bytes
  distance : ℕ
  jaccard : ℚ
  deriving DecidableEq

/-- An entry of `results`. -/
structure FuzzyResult where
  dist : ℕ
  /-- `!raw_exact` -/
  inexact : Bool
  jaccard : ℚ
  idx : ℕ

/-- Descending similarity, then ascending index. -/
def candidateKey (c : ℚ × ℕ) : ℚ ×ₗ ℕᵒᵈ := toLex (c.1, toDual c.2)

/-- Ascending distance, the raw symbol first, descending similarity, ascending index. -/
def FuzzyResult.key (r : FuzzyResult) : ℕᵒᵈ ×ₗ Boolᵒᵈ ×ₗ ℚ ×ₗ ℕᵒᵈ :=
  toLex (toDual r.dist, toLex (toDual r.inexact, candidateKey (r.jaccard, r.idx)))

/-- The product of two `usize` wraps.  (With overflow checks, as in a debug build, it is a panic
from `2 ^ 62` on.) -/
def candidateLimit (topK : ℕ) : ℕ := max topK 50 * 4 % 2 ^ 64

/-- `hits as f64 / union as f64` -/
def jaccard (qTriN triCount hits : ℕ) : ℚ :=
  let union := qTriN + triCount - hits
  if 0 < union then hits / union else 0

namespace FuzzyMatcher

/-- The trigrams of a normal form, sorted and without duplicates. -/
def uniqueTrigrams (norm : Bytes) : List Bytes :=
  ((trigrams norm).mergeSort fun a b => (compare a b).isLE).dedup

/-- `*hit_count.entry(idx).or_default() += 1` -/
def countHit (hitCount : Std.TreeMap ℕ ℕ) (idx : ℕ) : Std.TreeMap ℕ ℕ :=
  hitCount.insert idx (hitCount.getD idx 0 + 1)

/-- Phase 1: count trigram hits per candidate. -/
def hitCounts (m : FuzzyMatcher) (qTrigs : List Bytes) : Std.TreeMap ℕ ℕ :=
  qTrigs.foldl (fun hitCount tg => ((m.index[tg]?).getD []).foldl countHit hitCount) ∅

/-- The candidates with their similarities, before they are sorted. -/
def candidates (m : FuzzyMatcher) (qTrigs : List Bytes) : List (ℚ × ℕ) :=
  (m.hitCounts qTrigs).toList.map fun entry =>
    (jaccard qTrigs.length (m.triCounts.getD entry.1 0) entry.2, entry.1)

/-- Phase 2 for one candidate. -/
def checkDistance (m : FuzzyMatcher) (q qNorm : Bytes) (maxDistance : ℕ) (c : ℚ × ℕ) :
    Option FuzzyResult :=
  let dist := levenshtein qNorm (m.normalized.getD c.2 []) maxDistance
  if dist ≤ maxDistance then some ⟨dist, m.symbols.getD c.2 [] ≠ q, c.1, c.2⟩ else none

def toMatch (m : FuzzyMatcher) (r : FuzzyResult) : FuzzyMatch :=
  ⟨m.symbols.getD r.idx [], r.dist, r.jaccard⟩

/-- Query with a custom max edit distance. -/
def queryWithMax (m : FuzzyMatcher) (q : Bytes) (topK maxDistance : ℕ) : List FuzzyMatch :=
  let qNorm := normalize q
  if trigrams qNorm = [] then []
  else
    let qTrigs := uniqueTrigrams qNorm
    if (m.hitCounts qTrigs).isEmpty then []
    else
      let candidates :=
        (Ranking.sort candidateKey (m.candidates qTrigs)).take (candidateLimit topK)
      let results := candidates.filterMap (m.checkDistance q qNorm maxDistance)
      ((Ranking.sort FuzzyResult.key results).take topK).map m.toMatch

def query (m : FuzzyMatcher) (q : Bytes) (topK : ℕ) : List FuzzyMatch :=
  m.queryWithMax q topK m.maxDistance

/-! ### What a matcher holds -/

theorem mem_uniqueTrigrams {tg norm : Bytes} : tg ∈ uniqueTrigrams norm ↔ tg ∈ trigrams norm := by
  rw [uniqueTrigrams, List.mem_dedup, List.mem_mergeSort]

theorem nodup_uniqueTrigrams (norm : Bytes) : (uniqueTrigrams norm).Nodup := List.nodup_dedup _

/-- Items that are picked with their places have different places. -/
theorem nodup_map_snd_filter (P : Bytes × ℕ → Bool) (l : List Bytes) :
    ((l.zipIdx.filter P).map (·.2)).Nodup := by
  have hsub := (List.filter_sublist (p := P) (l := l.zipIdx)).map (·.2)
  rw [List.zipIdx_map_snd] at hsub
  exact hsub.nodup List.nodup_range'

theorem countP_zipIdx (P : Bytes → Bool) (l : List Bytes) :
    l.zipIdx.countP (P ∘ Prod.fst) = l.countP P := by
  rw [← List.countP_map, List.zipIdx_map_fst]

/-- The places of the symbols with a trigram. -/
def places (syms : List Bytes) (tg : Bytes) : List ℕ :=
  (syms.zipIdx.filter fun p => (uniqueTrigrams (normalize p.1)).contains tg).map (·.2)

theorem places_concat (syms : List Bytes) (symbol tg : Bytes) :
    places (syms ++ [symbol]) tg
      = places syms tg ++ if tg ∈ uniqueTrigrams (normalize symbol) then [syms.length] else [] := by
  rw [places, List.zipIdx_append, List.filter_append, List.map_append, ← places]
  congr 1
  by_cases h : tg ∈ uniqueTrigrams (normalize symbol)
  · simp [h]
  · simp [h]

theorem mem_places {syms : List Bytes} {tg : Bytes} {i : ℕ} :
    i ∈ places syms tg ↔ ∃ s, syms[i]? = some s ∧ tg ∈ uniqueTrigrams (normalize s) := by
  rw [places, List.mem_map]
  constructor
  · rintro ⟨⟨s, j⟩, hmem, rfl⟩
    rw [List.mem_filter] at hmem
    exact ⟨s, List.mk_mem_zipIdx_iff_getElem?.mp hmem.1, List.contains_iff_mem.mp hmem.2⟩
  · rintro ⟨s, hi, htg⟩
    exact ⟨(s, i), List.mem_filter.mpr
      ⟨List.mk_mem_zipIdx_iff_getElem?.mpr hi, List.contains_iff_mem.mpr htg⟩, rfl⟩

theorem nodup_places (syms : List Bytes) (tg : Bytes) : (places syms tg).Nodup :=
  nodup_map_snd_filter _ syms

/-- A matcher holds some symbols, in the order they were added. -/
structure Filed (m : FuzzyMatcher) (syms : List Bytes) : Prop where
  symbols : m.symbols = syms
  normalized : m.normalized = syms.map normalize
  triCounts : m.triCounts = syms.map fun s => (uniqueTrigrams (normalize s)).length
  index : ∀ tg, (m.index[tg]?).getD [] = places syms tg

theorem Filed.new (maxDistance : ℕ) : Filed (FuzzyMatcher.new maxDistance) [] :=
  ⟨rfl, rfl, rfl, fun tg => by simp [FuzzyMatcher.new, places]⟩

/-- Adding a place to the lists of some trigrams. -/
theorem getD_foldl_insert {tgs : List Bytes} (hnodup : tgs.Nodup) (n : ℕ)
    (index : Std.TreeMap Bytes (List ℕ)) (tg : Bytes) :
    ((tgs.foldl (fun index tg => index.insert tg ((index[tg]?).getD [] ++ [n])) index)[tg]?).getD []
      = (index[tg]?).getD [] ++ if tg ∈ tgs then [n] else [] := by
  induction tgs generalizing index with
  | nil => simp
  | cons t tgs ih =>
    obtain ⟨ht, hnodup⟩ := List.nodup_cons.mp hnodup
    rw [List.foldl_cons, ih hnodup, Std.TreeMap.getElem?_insert]
    by_cases htg : t = tg
    · subst htg
      simp [ht]
    · have hne : ¬compare t tg = .eq := fun hc => htg (Std.LawfulEqCmp.eq_of_compare hc)
      simp [hne, Ne.symm htg]

theorem Filed.add {m : FuzzyMatcher} {syms : List Bytes} (h : Filed m syms) (symbol : Bytes) :
    Filed (m.add symbol) (syms ++ [symbol]) where
  symbols := by rw [FuzzyMatcher.add, h.symbols]
  normalized := by rw [FuzzyMatcher.add, h.normalized, List.map_append, List.map_singleton]
  triCounts := by
    rw [FuzzyMatcher.add, h.triCounts, List.map_append, List.map_singleton]
    rfl
  index := by
    intro tg
    have hget := getD_foldl_insert (nodup_uniqueTrigrams (normalize symbol)) m.symbols.length
      m.index tg
    rw [h.index, h.symbols, ← places_concat] at hget
    rw [← hget, ← h.symbols]
    rfl

theorem Filed.foldl {m : FuzzyMatcher} {syms : List Bytes} (h : Filed m syms)
    (added : List Bytes) : Filed (added.foldl FuzzyMatcher.add m) (syms ++ added) := by
  induction added generalizing m syms with
  | nil => rwa [List.append_nil]
  | cons symbol added ih =>
    rw [List.foldl_cons, List.append_cons]
    exact ih (h.add symbol)

/-- Adding symbols keeps the bound of `query`. -/
theorem maxDistance_foldl (m : FuzzyMatcher) (added : List Bytes) :
    (added.foldl FuzzyMatcher.add m).maxDistance = m.maxDistance := by
  induction added generalizing m with
  | nil => rfl
  | cons symbol added ih =>
    rw [List.foldl_cons, ih]
    rfl

/-! ### Hits -/

/-- The trigrams of a symbol. -/
def trigramSet (s : Bytes) : Finset Bytes := (trigrams (normalize s)).toFinset

/-- Jaccard similarity of the trigrams. -/
def similarity (q s : Bytes) : ℚ :=
  (trigramSet q ∩ trigramSet s).card / (trigramSet q ∪ trigramSet s).card

/-- A symbol without trigrams consists of separators. -/
theorem trigramSet_eq_empty_iff {s : Bytes} : trigramSet s = ∅ ↔ normalize s = [] := by
  rw [trigramSet, List.toFinset_eq_empty_iff, trigrams]
  split
  · exact iff_of_true rfl ‹_›
  · refine iff_of_false ?_ ‹_›
    obtain ⟨b, norm, hnorm⟩ := List.exists_cons_of_ne_nil ‹normalize s ≠ []›
    rw [hnorm]
    exact List.cons_ne_nil _ _

theorem trigramSet_nonempty {s : Bytes} (hs : normalize s ≠ []) : (trigramSet s).Nonempty := by
  rwa [Finset.nonempty_iff_ne_empty, Ne, trigramSet_eq_empty_iff]

theorem toFinset_uniqueTrigrams (s : Bytes) :
    (uniqueTrigrams (normalize s)).toFinset = trigramSet s := by
  ext tg
  rw [List.mem_toFinset, mem_uniqueTrigrams, trigramSet, List.mem_toFinset]

theorem length_uniqueTrigrams (s : Bytes) :
    (uniqueTrigrams (normalize s)).length = (trigramSet s).card := by
  rw [← toFinset_uniqueTrigrams, List.toFinset_card_of_nodup (nodup_uniqueTrigrams _)]

theorem jaccard_eq (q s : Bytes) :
    jaccard (trigramSet q).card (trigramSet s).card (trigramSet q ∩ trigramSet s).card
      = similarity q s := by
  have hunion := Finset.card_union (trigramSet q) (trigramSet s)
  rw [jaccard, similarity, ← hunion]
  split
  · rfl
  · rename_i hzero
    rw [not_lt, Nat.le_zero] at hzero
    rw [hzero, Nat.cast_zero, div_zero]

theorem getD_foldl_countHit (idxs : List ℕ) (hitCount : Std.TreeMap ℕ ℕ) (i : ℕ) :
    (idxs.foldl countHit hitCount).getD i 0 = hitCount.getD i 0 + idxs.count i := by
  induction idxs generalizing hitCount with
  | nil => simp
  | cons idx idxs ih =>
    rw [List.foldl_cons, ih, countHit, Std.TreeMap.getD_insert, List.count_cons]
    by_cases hi : idx = i
    · subst hi
      rw [if_pos Std.ReflCmp.compare_self, if_pos (beq_self_eq_true idx)]
      omega
    · simp [hi]

theorem mem_foldl_countHit (idxs : List ℕ) (hitCount : Std.TreeMap ℕ ℕ) (i : ℕ) :
    i ∈ idxs.foldl countHit hitCount ↔ i ∈ hitCount ∨ i ∈ idxs := by
  induction idxs generalizing hitCount with
  | nil => simp
  | cons idx idxs ih =>
    rw [List.foldl_cons, ih, countHit, Std.TreeMap.mem_insert, compare_eq_iff_eq, List.mem_cons]
    tauto

section

variable {m : FuzzyMatcher} {syms : List Bytes}

theorem Filed.hitCounts_eq (h : Filed m syms) (qTrigs : List Bytes) :
    m.hitCounts qTrigs = (qTrigs.flatMap (places syms)).foldl countHit ∅ := by
  rw [hitCounts, List.foldl_flatMap]
  simp only [h.index]

/-- How often a symbol is hit. -/
theorem count_flatMap_places {q s : Bytes} {i : ℕ} (hi : syms[i]? = some s) :
    ((uniqueTrigrams (normalize q)).flatMap (places syms)).count i
      = (trigramSet q ∩ trigramSet s).card := by
  have hcount : ∀ tg, (places syms tg).count i = if tg ∈ trigramSet s then 1 else 0 := by
    intro tg
    have hmem : i ∈ places syms tg ↔ tg ∈ trigramSet s := by
      rw [mem_places, ← toFinset_uniqueTrigrams, List.mem_toFinset]
      simp [hi]
    split
    · exact List.count_eq_one_of_mem (nodup_places syms tg) (hmem.mpr ‹_›)
    · exact List.count_eq_zero.mpr (fun h => ‹¬_› (hmem.mp h))
  rw [List.count_flatMap, ← toFinset_uniqueTrigrams q, ← Finset.filter_mem_eq_inter,
    Finset.card_filter, List.sum_toFinset _ (nodup_uniqueTrigrams _)]
  exact congrArg List.sum (List.map_congr_left fun tg _ => hcount tg)

/-- **Phase 1** counts the trigrams that a symbol shares with the query. -/
theorem Filed.getElem?_hitCounts (h : Filed m syms) {q : Bytes} {i n : ℕ} :
    (m.hitCounts (uniqueTrigrams (normalize q)))[i]? = some n ↔
      ∃ s, syms[i]? = some s ∧ (trigramSet q ∩ trigramSet s).Nonempty ∧
        n = (trigramSet q ∩ trigramSet s).card := by
  have hmem : i ∈ m.hitCounts (uniqueTrigrams (normalize q)) ↔
      i ∈ (uniqueTrigrams (normalize q)).flatMap (places syms) := by
    rw [h.hitCounts_eq, mem_foldl_countHit]
    simp
  have hcount : (m.hitCounts (uniqueTrigrams (normalize q))).getD i 0
      = ((uniqueTrigrams (normalize q)).flatMap (places syms)).count i := by
    rw [h.hitCounts_eq, getD_foldl_countHit]
    simp
  have hget : (m.hitCounts (uniqueTrigrams (normalize q)))[i]? = some n ↔
      i ∈ (uniqueTrigrams (normalize q)).flatMap (places syms) ∧
        n = ((uniqueTrigrams (normalize q)).flatMap (places syms)).count i := by
    rw [← hmem, ← hcount, Std.TreeMap.mem_iff_isSome_getElem?, Std.TreeMap.getD_eq_getD_getElem?]
    cases (m.hitCounts (uniqueTrigrams (normalize q)))[i]? with
    | none => simp
    | some k => simp [eq_comm]
  rw [hget]
  constructor
  · rintro ⟨hin, rfl⟩
    obtain ⟨tg, _, hplace⟩ := List.mem_flatMap.mp hin
    obtain ⟨s, hi, _⟩ := mem_places.mp hplace
    refine ⟨s, hi, ?_, count_flatMap_places hi⟩
    rw [← Finset.card_pos, ← count_flatMap_places hi]
    exact List.count_pos_iff.mpr hin
  · rintro ⟨s, hi, hne, rfl⟩
    rw [← Finset.card_pos, ← count_flatMap_places hi] at hne
    exact ⟨List.count_pos_iff.mp hne, (count_flatMap_places hi).symm⟩

/-- **Counting hits** after any symbols were added: the candidates are the symbols that share a
trigram with the query, each is hit as often as they share one, and so the hits are subtracted from
no less, and the rest is the size of the union. -/
theorem hitCounts_foldl (added : List Bytes) (maxDistance : ℕ) (q : Bytes) :
    let m := added.foldl FuzzyMatcher.add (.new maxDistance)
    let qTrigs := uniqueTrigrams (normalize q)
    (∀ i : ℕ, i ∈ m.hitCounts qTrigs ↔
      ∃ s, added[i]? = some s ∧ (trigramSet q ∩ trigramSet s).Nonempty) ∧
    ∀ i hits : ℕ, (m.hitCounts qTrigs)[i]? = some hits →
      ∃ (s : Bytes) (triCount : ℕ), added[i]? = some s ∧ m.triCounts[i]? = some triCount ∧
        hits = (trigramSet q ∩ trigramSet s).card ∧ hits ≤ qTrigs.length + triCount ∧
        qTrigs.length + triCount - hits = (trigramSet q ∪ trigramSet s).card := by
  intro m qTrigs
  have hfiled : Filed m added := (Filed.new maxDistance).foldl added
  constructor
  · intro i
    rw [Std.TreeMap.mem_iff_isSome_getElem?, Option.isSome_iff_exists]
    constructor
    · rintro ⟨n, hn⟩
      obtain ⟨s, hi, hne, _⟩ := hfiled.getElem?_hitCounts.mp hn
      exact ⟨s, hi, hne⟩
    · rintro ⟨s, hi, hne⟩
      exact ⟨_, hfiled.getElem?_hitCounts.mpr ⟨s, hi, hne, rfl⟩⟩
  · intro i hits hhits
    obtain ⟨s, hi, _, rfl⟩ := hfiled.getElem?_hitCounts.mp hhits
    have htri : m.triCounts[i]? = some (trigramSet s).card := by
      rw [hfiled.triCounts, List.getElem?_map, hi, Option.map_some, length_uniqueTrigrams]
    have hunion := Finset.card_union_add_card_inter (trigramSet q) (trigramSet s)
    have hlen : qTrigs.length = (trigramSet q).card := length_uniqueTrigrams q
    refine ⟨s, _, hi, htri, rfl, ?_, ?_⟩
    · omega
    · omega

end

/-! ### The answer of a query -/

/-- The symbols that share a trigram with the query, with their places. -/
def related (syms : List Bytes) (q : Bytes) : List (Bytes × ℕ) :=
  syms.zipIdx.filter fun p => (trigramSet q ∩ trigramSet p.1).Nonempty

/-- The candidate of a symbol. -/
def candidateOf (q : Bytes) (p : Bytes × ℕ) : ℚ × ℕ := (similarity q p.1, p.2)

/-- The symbols that pass the candidate cut. -/
def shortlist (syms : List Bytes) (q : Bytes) (topK : ℕ) : List (Bytes × ℕ) :=
  (Ranking.sort (candidateKey ∘ candidateOf q) (related syms q)).take (candidateLimit topK)

/-- The bounded distance of a symbol. -/
def boundedDist (q s : Bytes) (maxDistance : ℕ) : ℕ :=
  levenshtein (normalize q) (normalize s) maxDistance

/-- The result of a symbol. -/
def resultOf (q : Bytes) (maxDistance : ℕ) (p : Bytes × ℕ) : FuzzyResult :=
  ⟨boundedDist q p.1 maxDistance, p.1 ≠ q, similarity q p.1, p.2⟩

def matchOf (q : Bytes) (maxDistance : ℕ) (p : Bytes × ℕ) : FuzzyMatch :=
  ⟨p.1, boundedDist q p.1 maxDistance, similarity q p.1⟩

/-- The symbols on the shortlist that are near enough. -/
def nearby (syms : List Bytes) (q : Bytes) (topK maxDistance : ℕ) : List (Bytes × ℕ) :=
  (shortlist syms q topK).filter fun p => boundedDist q p.1 maxDistance ≤ maxDistance

/-- The symbols that a query finds. -/
def fuzzySearch (syms : List Bytes) (q : Bytes) (topK maxDistance : ℕ) : List (Bytes × ℕ) :=
  (Ranking.sort (FuzzyResult.key ∘ resultOf q maxDistance)
    (nearby syms q topK maxDistance)).take topK

theorem candidateKey_injective : Function.Injective candidateKey := by
  intro c d h
  obtain ⟨hjaccard, hidx⟩ := Prod.mk.inj (toLex.injective h)
  exact Prod.ext hjaccard (toDual.injective hidx)

theorem boundedDist_self (s : Bytes) (maxDistance : ℕ) : boundedDist s s maxDistance = 0 :=
  levenshtein_self _ _

theorem mem_related {syms : List Bytes} {q s : Bytes} {i : ℕ} :
    (s, i) ∈ related syms q ↔ syms[i]? = some s ∧ (trigramSet q ∩ trigramSet s).Nonempty := by
  rw [related, List.mem_filter, List.mk_mem_zipIdx_iff_getElem?, decide_eq_true_iff]

/-- A symbol is a candidate for itself. -/
theorem mem_related_self {syms : List Bytes} {s : Bytes} (hs : normalize s ≠ []) {i : ℕ} :
    (s, i) ∈ related syms s ↔ syms[i]? = some s := by
  rw [mem_related, Finset.inter_self]
  exact and_iff_left (trigramSet_nonempty hs)

/-- The symbols of a query have different places. -/
theorem nodup_map_snd_related (syms : List Bytes) (q : Bytes) :
    ((related syms q).map (·.2)).Nodup := nodup_map_snd_filter _ syms

theorem eq_of_mem_related {syms : List Bytes} {q : Bytes} {p p' : Bytes × ℕ}
    (hp : p ∈ related syms q) (hp' : p' ∈ related syms q) (h : p.2 = p'.2) : p = p' := by
  obtain ⟨s, i⟩ := p
  obtain ⟨s', i'⟩ := p'
  obtain rfl : i = i' := h
  have hs := (mem_related.mp hp).1.symm.trans (mem_related.mp hp').1
  rw [Option.some_inj.mp hs]

theorem nodup_related (syms : List Bytes) (q : Bytes) : (related syms q).Nodup :=
  (nodup_map_snd_related syms q).of_map _

theorem length_related_le (syms : List Bytes) (q : Bytes) :
    (related syms q).length ≤ syms.length := by
  rw [← List.length_zipIdx (i := 0) (l := syms)]
  exact List.length_filter_le _ _

theorem le_candidateLimit {topK : ℕ} (hsmall : topK < 2 ^ 62) : topK ≤ candidateLimit topK := by
  have hproduct : max topK 50 * 4 < 2 ^ 64 := by omega
  rw [candidateLimit, Nat.mod_eq_of_lt hproduct]
  omega

section

variable {m : FuzzyMatcher} {syms : List Bytes} {q : Bytes} {topK maxDistance : ℕ}

theorem mem_related_of_mem_nearby {p : Bytes × ℕ} (h : p ∈ nearby syms q topK maxDistance) :
    p ∈ related syms q :=
  Ranking.sort_perm.mem_iff.mp (List.mem_of_mem_take (List.mem_of_mem_filter h))

theorem length_nearby_le : (nearby syms q topK maxDistance).length ≤ (related syms q).length := by
  refine (List.length_filter_le _ _).trans ((List.length_take_le' _ _).trans ?_)
  rw [Ranking.sort_perm.length_eq]

/-- **The candidates** are the symbols that share a trigram with the query. -/
theorem Filed.candidates_perm (h : Filed m syms) (q : Bytes) :
    (m.candidates (uniqueTrigrams (normalize q))).Perm
      ((related syms q).map (candidateOf q)) := by
  have hleft : (m.candidates (uniqueTrigrams (normalize q))).Nodup := by
    refine List.Nodup.of_map Prod.snd ?_
    rw [candidates, List.map_map]
    have hkeys : ((m.hitCounts (uniqueTrigrams (normalize q))).toList.map Prod.fst).Nodup := by
      rw [Std.TreeMap.map_fst_toList_eq_keys]
      exact Std.TreeMap.nodup_keys
    exact hkeys
  have hright : ((related syms q).map (candidateOf q)).Nodup := by
    refine List.Nodup.of_map Prod.snd ?_
    rw [List.map_map]
    exact nodup_map_snd_related syms q
  have hscore : ∀ {i : ℕ} {s : Bytes}, syms[i]? = some s →
      jaccard (uniqueTrigrams (normalize q)).length (m.triCounts.getD i 0)
        (trigramSet q ∩ trigramSet s).card = similarity q s := by
    intro i s hi
    rw [h.triCounts, List.getD_eq_getElem?_getD, List.getElem?_map, hi, Option.map_some,
      Option.getD_some, length_uniqueTrigrams, length_uniqueTrigrams, jaccard_eq]
  refine (List.perm_ext_iff_of_nodup hleft hright).mpr fun c => ?_
  rw [candidates, List.mem_map, List.mem_map]
  constructor
  · rintro ⟨⟨i, n⟩, hentry, rfl⟩
    obtain ⟨s, hi, hne, rfl⟩ :=
      h.getElem?_hitCounts.mp (Std.TreeMap.mem_toList_iff_getElem?_eq_some.mp hentry)
    exact ⟨(s, i), mem_related.mpr ⟨hi, hne⟩, Prod.ext (hscore hi).symm rfl⟩
  · rintro ⟨⟨s, i⟩, hs, rfl⟩
    obtain ⟨hi, hne⟩ := mem_related.mp hs
    exact ⟨(i, (trigramSet q ∩ trigramSet s).card), Std.TreeMap.mem_toList_iff_getElem?_eq_some.mpr
      (h.getElem?_hitCounts.mpr ⟨s, hi, hne, rfl⟩), Prod.ext (hscore hi) rfl⟩

/-- The early exits return what the phases would. -/
theorem queryWithMax_eq_phases (m : FuzzyMatcher) (q : Bytes) (topK maxDistance : ℕ) :
    m.queryWithMax q topK maxDistance = ((Ranking.sort FuzzyResult.key
      (((Ranking.sort candidateKey (m.candidates (uniqueTrigrams (normalize q)))).take
        (candidateLimit topK)).filterMap
        (m.checkDistance q (normalize q) maxDistance))).take topK).map m.toMatch := by
  have hempty : (m.hitCounts (uniqueTrigrams (normalize q))).isEmpty = true →
      m.candidates (uniqueTrigrams (normalize q)) = [] := by
    intro h
    rw [candidates, List.map_eq_nil_iff, ← List.isEmpty_iff, Std.TreeMap.isEmpty_toList]
    exact h
  have hnil : Ranking.sort FuzzyResult.key [] = [] := List.mergeSort_nil
  have hnil' : Ranking.sort candidateKey [] = [] := List.mergeSort_nil
  rw [queryWithMax]
  split
  · rename_i htrigrams
    have hunique : uniqueTrigrams (normalize q) = [] := by
      rw [uniqueTrigrams, htrigrams, List.mergeSort_nil, List.dedup_nil]
    rw [hempty (by rw [hunique]; rfl), hnil', List.take_nil, List.filterMap_nil, hnil,
      List.take_nil, List.map_nil]
  · change (if (m.hitCounts (uniqueTrigrams (normalize q))).isEmpty = true then _ else _) = _
    split
    · rename_i hhits
      rw [hempty hhits, hnil', List.take_nil, List.filterMap_nil, hnil, List.take_nil,
        List.map_nil]
    · rfl

/-- **The answer of a query** in terms of the added symbols. -/
theorem Filed.queryWithMax_eq (h : Filed m syms) (q : Bytes) (topK maxDistance : ℕ) :
    m.queryWithMax q topK maxDistance
      = (fuzzySearch syms q topK maxDistance).map (matchOf q maxDistance) := by
  have hsymbol : ∀ p ∈ related syms q, m.symbols.getD p.2 [] = p.1 := by
    rintro ⟨s, i⟩ hp
    rw [h.symbols, List.getD_eq_getElem?_getD, (mem_related.mp hp).1, Option.getD_some]
  have hnorm : ∀ p ∈ related syms q, m.normalized.getD p.2 [] = normalize p.1 := by
    rintro ⟨s, i⟩ hp
    rw [h.normalized, List.getD_eq_getElem?_getD, List.getElem?_map, (mem_related.mp hp).1,
      Option.map_some, Option.getD_some]
  have hcheck : (shortlist syms q topK).filterMap
      (fun p => m.checkDistance q (normalize q) maxDistance (candidateOf q p))
        = (nearby syms q topK maxDistance).map (resultOf q maxDistance) := by
    rw [nearby, ← List.filterMap_eq_map, List.filterMap_filter]
    refine List.filterMap_congr fun p hp => ?_
    have hp := Ranking.sort_perm.mem_iff.mp (List.mem_of_mem_take hp)
    rw [checkDistance, candidateOf, hsymbol p hp, hnorm p hp, boundedDist]
    by_cases hdist : levenshtein (normalize q) (normalize p.1) maxDistance ≤ maxDistance
    · rw [if_pos hdist, if_pos (decide_eq_true hdist)]
      rfl
    · rw [if_neg hdist, if_neg (by simpa using hdist)]
  rw [queryWithMax_eq_phases, Ranking.sort_eq (h.candidates_perm q)
    (fun a _ b _ hab => candidateKey_injective hab), Ranking.sort_map, ← List.map_take,
    List.filterMap_map, ← shortlist, Function.comp_def, hcheck, Ranking.sort_map, ← List.map_take,
    List.map_map, ← fuzzySearch]
  refine List.map_congr_left fun p hp => ?_
  have hp := mem_related_of_mem_nearby (Ranking.sort_perm.mem_iff.mp (List.mem_of_mem_take hp))
  rw [Function.comp_apply, toMatch, resultOf, hsymbol p hp]
  rfl

/-- With room for all, a query finds every symbol that is near enough. -/
theorem fuzzySearch_perm (hlimit : (related syms q).length ≤ candidateLimit topK)
    (htop : (nearby syms q topK maxDistance).length ≤ topK) :
    (fuzzySearch syms q topK maxDistance).Perm
      ((related syms q).filter fun p => boundedDist q p.1 maxDistance ≤ maxDistance) := by
  rw [fuzzySearch, List.take_of_length_le (by rwa [Ranking.sort_perm.length_eq])]
  refine Ranking.sort_perm.trans ?_
  rw [nearby, shortlist, List.take_of_length_le (by rwa [Ranking.sort_perm.length_eq])]
  exact Ranking.sort_perm.filter _

end

end FuzzyMatcher

end Uldb
