/-
What a repeated put does to the symbol search.

A put removes the old document of its key from the BM25 index, but adds the key to the symbol
index once more.  So after any history

* `count_query_put`: a query for a key returns it as often as it was put;
* `reput_iff`: putting a record again leaves the symbol search alone, and free of repetitions,
  exactly if the key has no trigrams and every key that has was put once.
-/
import Uldb.Fuzzy
import Uldb.Fusion
import Uldb.IndexReplay

namespace Uldb

/-- How many hits `IndexManager::query` asks each index for: `spec.top_k * 2`, which wraps. -/
def hitLimit (topK : ℕ) : ℕ := topK * 2 % 2 ^ 64

theorem hitLimit_eq {topK : ℕ} (hsmall : topK < 2 ^ 63) : hitLimit topK = topK * 2 :=
  Nat.mod_eq_of_lt (by omega)

namespace FuzzyMatcher

/-- The keys of the puts, in their order. -/
def putKeys (ws : List (Bytes × Option Bytes)) : List Bytes :=
  ws.filterMap fun w => w.2.map fun _ => w.1

/-- The symbol hits of `IndexManager::query`. -/
def fuzzyHits (m : FuzzyMatcher) (text : Bytes) (topK : ℕ) : List RankedHit :=
  (m.query text (hitLimit topK)).mapIdx fun i r => ⟨r.symbol, r.jaccard, i⟩

/-- What putting a record again should do to the symbol search: nothing. -/
structure Reput (m : IndexManager) (key value : Bytes) : Prop where
  unchanged : ∀ q topK, (m.onPut key value).fuzzy.query q topK = m.fuzzy.query q topK
  /-- Each symbol occurs at most once in a result. -/
  once : ∀ q topK, (((m.onPut key value).fuzzy.query q topK).map (·.symbol)).Nodup
  /-- A key contributes at most one term of the list to its score. -/
  term : ∀ text topK k, ((fuzzyHits (m.onPut key value).fuzzy text topK).zipIdx.filter
    fun hit => hit.1.key = k).length ≤ 1

/-! ### Searching with another symbol -/

section

variable {syms : List Bytes} {key q : Bytes} {topK maxDistance : ℕ}

/-- A symbol without trigrams is never found. -/
theorem related_concat_of_nil (hkey : normalize key = []) :
    related (syms ++ [key]) q = related syms q := by
  rw [related, List.zipIdx_append, List.filter_append, ← related]
  simp [trigramSet_eq_empty_iff.mpr hkey]

theorem fuzzySearch_concat_of_nil (hkey : normalize key = []) :
    fuzzySearch (syms ++ [key]) q topK maxDistance = fuzzySearch syms q topK maxDistance := by
  rw [fuzzySearch, nearby, shortlist, related_concat_of_nil hkey]
  rfl

/-- **With room for all symbols**, a query for a symbol finds it as often as it was added. -/
theorem count_fuzzySearch (hkey : normalize key ≠ []) (htop : syms.length ≤ topK)
    (hsmall : topK < 2 ^ 62) :
    ((fuzzySearch syms key topK maxDistance).map (·.1)).count key = syms.count key := by
  have hperm := @fuzzySearch_perm syms key topK maxDistance
    (((length_related_le syms key).trans htop).trans (le_candidateLimit hsmall))
    ((length_nearby_le.trans (length_related_le syms key)).trans htop)
  have hself : ∀ p : Bytes × ℕ, p.1 = key →
      (trigramSet key ∩ trigramSet p.1).Nonempty ∧ boundedDist key p.1 maxDistance ≤ maxDistance := by
    rintro p rfl
    rw [Finset.inter_self, boundedDist_self]
    exact ⟨trigramSet_nonempty hkey, Nat.zero_le _⟩
  rw [(hperm.map _).count_eq, related, List.filter_filter, List.count, List.countP_map,
    List.countP_filter, ← countP_zipIdx]
  refine List.countP_congr fun p _ => ?_
  simp only [Function.comp_apply, Bool.and_eq_true, beq_iff_eq, decide_eq_true_iff]
  exact and_iff_left_of_imp fun h => (hself p h).symm

/-- Symbols that were added once are found once. -/
theorem nodup_fuzzySearch (h : (syms.filter fun s => normalize s ≠ []).Nodup) :
    ((fuzzySearch syms q topK maxDistance).map (·.1)).Nodup := by
  have hrelated : ((related syms q).map (·.1)).Nodup := by
    have hsub : ((related syms q).map (·.1)).Sublist (syms.filter fun s => normalize s ≠ []) := by
      rw [← List.zipIdx_map_fst 0 syms, List.filter_map, List.zipIdx_map_fst]
      refine List.Sublist.map _ ?_
      rw [related]
      refine List.monotone_filter_right _ fun p hp => ?_
      simp only [Function.comp_apply, decide_eq_true_iff] at hp ⊢
      rw [Ne, ← trigramSet_eq_empty_iff, ← Ne, ← Finset.nonempty_iff_ne_empty]
      exact hp.mono Finset.inter_subset_right
    exact hsub.nodup h
  -- sorting, cutting and filtering repeat nothing
  have hsort : ∀ (f : Bytes × ℕ → Bytes) {β : Type} [LinearOrder β] (g : Bytes × ℕ → β)
      (l : List (Bytes × ℕ)) (n : ℕ), (l.map f).Nodup →
      (((Ranking.sort g l).take n).map f).Nodup := by
    intro f β _ g l n hl
    have hperm : ((Ranking.sort g l).map f).Nodup :=
      (Ranking.sort_perm.map f).nodup_iff.mpr hl
    exact ((List.take_sublist _ _).map f).nodup hperm
  refine hsort _ _ _ _ ?_
  exact ((List.filter_sublist).map _).nodup (hsort _ _ _ _ hrelated)

end

/-! ### Runs of the manager -/

section

variable {ws : List (Bytes × Option Bytes)} {key value : Bytes}

theorem filed_onWrites (ws : List (Bytes × Option Bytes)) :
    Filed (ws.foldl IndexManager.onWrite .new).fuzzy (putKeys ws) ∧
      (ws.foldl IndexManager.onWrite .new).fuzzy.maxDistance = 4 := by
  induction ws using List.reverseRecOn with
  | nil => exact ⟨Filed.new 4, rfl⟩
  | append_singleton ws w ih =>
    obtain ⟨key, value⟩ := w
    rw [List.foldl_append, putKeys, List.filterMap_append, ← putKeys]
    cases value with
    | none =>
      rw [List.filterMap_cons_none rfl, List.filterMap_nil, List.append_nil]
      exact ih
    | some value => exact ⟨ih.1.add key, ih.2⟩

/-- The symbols that a query returns after some puts and deletes. -/
theorem map_symbol_query (ws : List (Bytes × Option Bytes)) (q : Bytes) (topK : ℕ) :
    ((ws.foldl IndexManager.onWrite .new).fuzzy.query q topK).map (·.symbol)
      = (fuzzySearch (putKeys ws) q topK 4).map (·.1) := by
  obtain ⟨hfiled, hmax⟩ := filed_onWrites ws
  rw [query, hmax, hfiled.queryWithMax_eq, List.map_map]
  rfl

theorem putKeys_concat (ws : List (Bytes × Option Bytes)) (key value : Bytes) :
    putKeys (ws ++ [(key, some value)]) = putKeys ws ++ [key] := by
  rw [putKeys, List.filterMap_append]
  rfl

theorem onPut_eq (ws : List (Bytes × Option Bytes)) (key value : Bytes) :
    (ws.foldl IndexManager.onWrite .new).onPut key value
      = (ws ++ [(key, some value)]).foldl IndexManager.onWrite .new := by
  rw [List.foldl_append]
  rfl

/-- **A query for a key** returns it as often as it was put. -/
theorem count_query_put (ws : List (Bytes × Option Bytes)) {key : Bytes}
    (hkey : normalize key ≠ []) {topK : ℕ} (htop : (putKeys ws).length ≤ topK)
    (hsmall : topK < 2 ^ 62) :
    (((ws.foldl IndexManager.onWrite .new).fuzzy.query key topK).map (·.symbol)).count key
      = (putKeys ws).count key := by
  rw [map_symbol_query]
  exact count_fuzzySearch hkey htop hsmall

/-- A key is on the list of symbol hits as often as in the result. -/
theorem length_filter_fuzzyHits (m : FuzzyMatcher) (text : Bytes) (topK : ℕ) (k : Bytes) :
    ((fuzzyHits m text topK).zipIdx.filter fun hit => hit.1.key = k).length
      = ((m.query text (hitLimit topK)).map (·.symbol)).count k := by
  have hkeys : (fuzzyHits m text topK).zipIdx.map (fun hit => hit.1.key)
      = (m.query text (hitLimit topK)).map (·.symbol) := by
    have hmap : (fuzzyHits m text topK).zipIdx.map (fun hit => hit.1.key)
        = ((fuzzyHits m text topK).zipIdx.map (·.1)).map (·.key) := by
      rw [List.map_map]
      rfl
    rw [hmap, List.zipIdx_map_fst, fuzzyHits]
    refine List.ext_getElem? fun i => ?_
    simp only [List.getElem?_map, List.getElem?_mapIdx, Option.map_map]
    rfl
  rw [← hkeys, List.count, List.countP_map, ← List.countP_eq_length_filter]
  refine List.countP_congr fun hit _ => ?_
  simp

/-- **When a repeated put changes nothing**: the key has no trigrams, and the keys that have
were put once each.  (The symbols are a vector of strings, which holds fewer than `2 ^ 59`.) -/
theorem reput_iff (ws : List (Bytes × Option Bytes)) (hsize : (putKeys ws).length < 2 ^ 59)
    (key value : Bytes) :
    Reput (ws.foldl IndexManager.onWrite .new) key value ↔
      normalize key = [] ∧ ((putKeys ws).filter fun k => normalize k ≠ []).Nodup := by
  constructor
  · intro h
    -- with trigrams, the key itself is found once more than before
    have hkey : normalize key = [] := by
      by_contra hkey
      have hroom : (putKeys (ws ++ [(key, some value)])).length = (putKeys ws).length + 1 := by
        rw [putKeys_concat, List.length_append, List.length_singleton]
      have hsmall : (putKeys ws).length + 1 < 2 ^ 62 := by omega
      have hcount := count_query_put (ws ++ [(key, some value)]) hkey hroom.le hsmall
      rw [← onPut_eq, h.unchanged, count_query_put ws hkey (Nat.le_succ _) hsmall,
        putKeys_concat] at hcount
      simp at hcount
    refine ⟨hkey, List.nodup_iff_count_le_one.mpr fun k => ?_⟩
    by_cases hk : normalize k = []
    · rw [List.count_eq_zero.mpr (by simp [hk])]
      exact Nat.zero_le _
    · have hcount := count_query_put ws hk (le_refl _) (by omega)
      rw [← h.unchanged] at hcount
      have hle : (putKeys ws).count k ≤ 1 := by
        rw [← hcount]
        exact List.nodup_iff_count_le_one.mp (h.once k _) k
      exact (List.filter_sublist.count_le k).trans hle
  · rintro ⟨hkey, hnodup⟩
    -- without trigrams, no posting list has the new symbol
    have hfiled := filed_onWrites ws
    have hunchanged : ∀ q topK, ((ws.foldl IndexManager.onWrite .new).onPut key value).fuzzy.query
        q topK = (ws.foldl IndexManager.onWrite .new).fuzzy.query q topK := by
      intro q topK
      have hafter := filed_onWrites (ws ++ [(key, some value)])
      rw [putKeys_concat, ← onPut_eq] at hafter
      rw [query, query, hafter.2, hfiled.2, hafter.1.queryWithMax_eq, hfiled.1.queryWithMax_eq,
        fuzzySearch_concat_of_nil hkey]
    have honce : ∀ q topK, ((((ws.foldl IndexManager.onWrite .new).onPut key value).fuzzy.query
        q topK).map (·.symbol)).Nodup := by
      intro q topK
      rw [hunchanged, map_symbol_query]
      exact nodup_fuzzySearch hnodup
    refine ⟨hunchanged, honce, fun text topK k => ?_⟩
    rw [length_filter_fuzzyHits]
    exact List.nodup_iff_count_le_one.mp (honce text (hitLimit topK)) k

end

/-- One put, of the key `ab`. -/
def onePut : List (Bytes × Option Bytes) := [([97, 98], some [118])]

/-- A key of a separator only is no symbol. -/
theorem reput_separator : Reput (onePut.foldl IndexManager.onWrite .new) [95] [118] :=
  (reput_iff onePut (by decide) [95] [118]).mpr ⟨by decide, by decide⟩

/-- A record that is put twice is found twice. -/
theorem onePut_reput :
    validUtf8 [97, 98] = true ∧ lastWrite onePut [97, 98] = some (some [118]) ∧
    (((onePut.foldl IndexManager.onWrite .new).fuzzy.query [97, 98] 2).map
      (·.symbol)).count [97, 98] = 1 ∧
    ((((onePut.foldl IndexManager.onWrite .new).onPut [97, 98] [118]).fuzzy.query [97, 98] 2).map
      (·.symbol)).count [97, 98] = 2 ∧
    ¬Reput (onePut.foldl IndexManager.onWrite .new) [97, 98] [118] := by
  have hkey : normalize [97, 98] ≠ [] := by decide
  have hbefore := count_query_put onePut hkey (show _ ≤ 2 by decide) (by decide)
  have hafter := count_query_put (onePut ++ [([97, 98], some [118])]) hkey (show _ ≤ 2 by decide)
    (by decide)
  rw [onPut_eq, hbefore, hafter]
  refine ⟨by decide, by decide, by decide, by decide, fun h => ?_⟩
  have hle := List.nodup_iff_count_le_one.mp (h.once [97, 98] 2) [97, 98]
  rw [onPut_eq, hafter] at hle
  exact absurd hle (by decide)

end FuzzyMatcher

end Uldb
