/-
Reciprocal rank fusion (`query/planner.rs`, and the end of `IndexManager::query`).

`merge_rrf` adds up the scores of the keys in a hash map, lists the map in whatever order it
iterates, and sorts by descending score.  The order of iteration is a parameter here
(`Iterates`), the scores are exact rationals.

* `mem_iterates` — the scores are the sums of the documentation, whatever the order;
* `order_free_iff` — the answer of a query is the same for every order exactly if no two
  keys with the same score compete for its last places.
-/
import Uldb.Basic
import Uldb.Lib.Ranking

namespace Uldb

/-- A hit of one index, or of the merge. -/
structure RankedHit where
  key : Bytes
  score : ℚ
  rank : ℕ

/-- `*scores.entry(key).or_insert(0.0) += 1.0 / (k + rank)`, with the rank from 1. -/
def addHit (k : ℚ) (scores : Std.TreeMap Bytes ℚ) (hit : RankedHit × ℕ) : Std.TreeMap Bytes ℚ :=
  scores.insert hit.1.key (scores.getD hit.1.key 0 + 1 / (k + (hit.2 + 1 : ℕ)))

/-- The score map of `merge_rrf`. -/
def rrfScores (lists : List (List RankedHit)) (k : ℚ) : Std.TreeMap Bytes ℚ :=
  lists.foldl (fun scores list => list.zipIdx.foldl (addHit k) scores) ∅

/-- The hit of an entry of the score map, before ranks are given. -/
def freshHit (entry : Bytes × ℚ) : RankedHit := ⟨entry.1, entry.2, 0⟩

/-- `merge_rrf` on the score map, given as the list of its entries in the order of iteration. -/
def mergeRrf (entries : List (Bytes × ℚ)) : List RankedHit :=
  (Ranking.sort RankedHit.score (entries.map freshHit)).mapIdx
    fun i hit => { hit with rank := i }

/-- `k` of the queries. -/
def rrfK : ℚ := 60

/-- The end of `IndexManager::query`. -/
def queryHits (topK : ℕ) (entries : List (Bytes × ℚ)) : List RankedHit :=
  (mergeRrf entries).take topK

/-- An order in which the score map of a query may be iterated. -/
def Iterates (lists : List (List RankedHit)) (entries : List (Bytes × ℚ)) : Prop :=
  entries.Perm (rrfScores lists rrfK).toList

/-! ### The scores -/

/-- The keys of all lists, each once. -/
def hitKeys (lists : List (List RankedHit)) : List Bytes := (lists.flatten.map (·.key)).dedup

/-- The contributions of some hits to the score of a key. -/
def contributions (hits : List (RankedHit × ℕ)) (key : Bytes) : ℚ :=
  ((hits.filter fun hit => hit.1.key = key).map fun hit => 1 / (rrfK + (hit.2 + 1 : ℕ))).sum

/-- `sum( 1 / (k + rank_i(key)) )` over the places of a key in the lists. -/
def rrf (lists : List (List RankedHit)) (key : Bytes) : ℚ :=
  contributions (lists.flatMap List.zipIdx) key

theorem getD_foldl_addHit (hits : List (RankedHit × ℕ)) (scores : Std.TreeMap Bytes ℚ)
    (key : Bytes) :
    (hits.foldl (addHit rrfK) scores).getD key 0 = scores.getD key 0 + contributions hits key := by
  induction hits generalizing scores with
  | nil => simp [contributions]
  | cons hit hits ih =>
    rw [List.foldl_cons, ih, addHit, Std.TreeMap.getD_insert, contributions, contributions,
      List.filter_cons]
    by_cases hkey : hit.1.key = key
    · subst hkey
      simp [add_assoc]
    · have hne : ¬compare hit.1.key key = .eq := fun hc => hkey (Std.LawfulEqCmp.eq_of_compare hc)
      simp [hkey, hne]

theorem mem_foldl_addHit (hits : List (RankedHit × ℕ)) (scores : Std.TreeMap Bytes ℚ)
    (key : Bytes) :
    key ∈ hits.foldl (addHit rrfK) scores ↔ key ∈ scores ∨ ∃ hit ∈ hits, hit.1.key = key := by
  induction hits generalizing scores with
  | nil => simp
  | cons hit hits ih =>
    rw [List.foldl_cons, ih, addHit, Std.TreeMap.mem_insert, Std.LawfulEqCmp.compare_eq_iff_eq]
    simp only [List.mem_cons, exists_eq_or_imp]
    tauto

theorem rrfScores_eq (lists : List (List RankedHit)) :
    rrfScores lists rrfK = (lists.flatMap List.zipIdx).foldl (addHit rrfK) ∅ := by
  rw [rrfScores, List.foldl_flatMap]

/-- **The scores** are the sums of the documentation. -/
theorem getElem?_rrfScores {lists : List (List RankedHit)} {key : Bytes} {score : ℚ} :
    (rrfScores lists rrfK)[key]? = some score ↔ key ∈ hitKeys lists ∧ score = rrf lists key := by
  have hmem : key ∈ rrfScores lists rrfK ↔ key ∈ hitKeys lists := by
    rw [rrfScores_eq, mem_foldl_addHit, hitKeys, List.mem_dedup]
    simp only [Std.TreeMap.not_mem_emptyc, false_or, List.mem_flatMap, List.mem_map,
      List.mem_flatten]
    constructor
    · rintro ⟨⟨hit, i⟩, ⟨list, hlist, hhit⟩, rfl⟩
      exact ⟨hit, ⟨list, hlist, List.mem_of_getElem? (List.mk_mem_zipIdx_iff_getElem?.mp hhit)⟩,
        rfl⟩
    · rintro ⟨hit, ⟨list, hlist, hhit⟩, rfl⟩
      obtain ⟨i, hi⟩ := List.getElem?_of_mem hhit
      exact ⟨(hit, i), ⟨list, hlist, List.mk_mem_zipIdx_iff_getElem?.mpr hi⟩, rfl⟩
  have hscore : (rrfScores lists rrfK).getD key 0 = rrf lists key := by
    rw [rrfScores_eq, getD_foldl_addHit, rrf]
    simp
  rw [← hmem, ← hscore, Std.TreeMap.mem_iff_isSome_getElem?, Std.TreeMap.getD_eq_getD_getElem?]
  cases (rrfScores lists rrfK)[key]? with
  | none => simp
  | some s => simp [eq_comm]

/-! ### Orders of iteration -/

/-- The entry of a key. -/
def entryOf (lists : List (List RankedHit)) (key : Bytes) : Bytes × ℚ := (key, rrf lists key)

theorem entryOf_injective (lists : List (List RankedHit)) :
    Function.Injective (entryOf lists) := fun _ _ h => (Prod.mk.inj h).1

/-- An order of iteration is an order of the keys. -/
theorem iterates_iff {lists : List (List RankedHit)} {entries : List (Bytes × ℚ)} :
    Iterates lists entries ↔ entries.Perm ((hitKeys lists).map (entryOf lists)) := by
  have hperm : (rrfScores lists rrfK).toList.Perm ((hitKeys lists).map (entryOf lists)) := by
    have hnodup : ((rrfScores lists rrfK).toList.map Prod.fst).Nodup := by
      rw [Std.TreeMap.map_fst_toList_eq_keys]
      exact Std.TreeMap.nodup_keys
    refine (List.perm_ext_iff_of_nodup (hnodup.of_map _)
      ((List.nodup_dedup _).map (entryOf_injective lists))).mpr fun e => ?_
    obtain ⟨key, score⟩ := e
    rw [Std.TreeMap.mem_toList_iff_getElem?_eq_some, getElem?_rrfScores, List.mem_map]
    constructor
    · rintro ⟨hkey, rfl⟩
      exact ⟨key, hkey, rfl⟩
    · rintro ⟨k, hk, heq⟩
      obtain ⟨rfl, rfl⟩ := Prod.mk.inj heq
      exact ⟨hk, rfl⟩
  exact ⟨fun h => h.trans hperm, fun h => h.trans hperm.symm⟩

theorem map_key_queryHits (topK : ℕ) (entries : List (Bytes × ℚ)) :
    (queryHits topK entries).map (·.key)
      = ((Ranking.sort RankedHit.score (entries.map freshHit)).take topK).map (·.key) := by
  have hrank : ∀ hits : List RankedHit,
      (hits.mapIdx fun i hit => { hit with rank := i }).map (·.key) = hits.map (·.key) := by
    intro hits
    refine List.ext_getElem? fun i => ?_
    simp only [List.getElem?_map, List.getElem?_mapIdx, Option.map_map]
    rfl
  rw [queryHits, mergeRrf, List.map_take, List.map_take, hrank]

section

variable {lists : List (List RankedHit)} {topK : ℕ} {a b : Bytes}

/-- How many keys have a larger score. -/
def better (lists : List (List RankedHit)) (key : Bytes) : ℕ :=
  ((hitKeys lists).filter fun c => rrf lists key < rrf lists c).length

theorem length_above {keys : List Bytes} (hkeys : keys.Perm (hitKeys lists)) :
    (Ranking.above RankedHit.score ((keys.map (entryOf lists)).map freshHit)
      (freshHit (entryOf lists a))).length = better lists a := by
  rw [Ranking.above, List.map_map, List.filter_map, List.length_map, better]
  exact (hkeys.filter _).length_eq

/-- Two keys with the same score and a place for one only: two orders, two answers. -/
theorem exists_orders_ne (ha : a ∈ hitKeys lists) (hb : b ∈ hitKeys lists) (hab : a ≠ b)
    (hscore : rrf lists a = rrf lists b) (hplace : better lists a < topK) :
    ∃ e e', Iterates lists e ∧ Iterates lists e' ∧
      (queryHits topK e).map (·.key) ≠ (queryHits topK e').map (·.key) := by
  obtain ⟨rest, hrest⟩ : ∃ rest, (hitKeys lists).Perm (a :: b :: rest) :=
    ⟨_, (List.perm_cons_erase ha).trans
      ((List.perm_cons_erase ((List.mem_erase_of_ne hab.symm).mpr hb)).cons a)⟩
  have hswap : (hitKeys lists).Perm (b :: a :: rest) := hrest.trans (List.Perm.swap b a rest)
  refine ⟨_, _, iterates_iff.mpr (hrest.symm.map _), iterates_iff.mpr (hswap.symm.map _), ?_⟩
  have habove := length_above (a := a) hrest.symm
  simp only [List.map_cons] at habove
  obtain ⟨hfirst, hsecond⟩ := Ranking.take_sort_swap (show (freshHit (entryOf lists a)).score
    = (freshHit (entryOf lists b)).score from hscore) (habove.trans_lt hplace)
  rw [map_key_queryHits, map_key_queryHits]
  intro heq
  have hplaces := congrArg (·[better lists a]?) heq
  rw [habove] at hfirst hsecond
  simp only [List.map_cons, List.getElem?_map] at hplaces
  rw [hfirst, hsecond] at hplaces
  exact hab (Option.some_inj.mp hplaces)

/-- **When the answer is free of the order of iteration**: of the keys with one score, a
query returns all or none, or there is one only. -/
theorem order_free_iff (lists : List (List RankedHit)) (topK : ℕ) :
    (∀ e e', Iterates lists e → Iterates lists e' →
      (queryHits topK e).map (·.key) = (queryHits topK e').map (·.key)) ↔
    ∀ a ∈ hitKeys lists, ∀ b ∈ hitKeys lists, a ≠ b → rrf lists a = rrf lists b →
      topK ≤ better lists a := by
  constructor
  · intro h a ha b hb hab hscore
    by_contra hplace
    obtain ⟨e, e', he, he', hne⟩ := exists_orders_ne ha hb hab hscore (not_le.mp hplace)
    exact hne (h e e' he he')
  · intro h e e' he he'
    rw [map_key_queryHits, map_key_queryHits]
    rw [iterates_iff] at he he'
    rw [Ranking.take_sort_eq ((he.trans he'.symm).map freshHit)]
    intro x hx y hy hscore hne
    have hkey : ∀ z ∈ e.map freshHit, ∃ k ∈ hitKeys lists, z = freshHit (entryOf lists k) := by
      intro z hz
      rw [(he.map freshHit).mem_iff, List.map_map] at hz
      obtain ⟨k, hk, rfl⟩ := List.mem_map.mp hz
      exact ⟨k, hk, rfl⟩
    obtain ⟨a, ha, rfl⟩ := hkey x hx
    obtain ⟨b, hb, rfl⟩ := hkey y hy
    rw [Ranking.length_above_perm (he.map freshHit), length_above (List.Perm.refl _)]
    exact h a ha b hb (fun hab => hne (by rw [hab])) hscore

end

/-- Two lists with one hit each. -/
def twoFirsts : List (List RankedHit) := [[⟨[97], 9, 0⟩], [⟨[98], 5, 0⟩]]

/-- The first places of two indices: either key may be the one that a query returns. -/
theorem twoFirsts_orders : ¬∀ e e', Iterates twoFirsts e → Iterates twoFirsts e' →
    (queryHits 1 e).map (·.key) = (queryHits 1 e').map (·.key) := by
  intro h
  have hkeys : hitKeys twoFirsts = [[97], [98]] := by decide
  have hscore : rrf twoFirsts [97] = rrf twoFirsts [98] := by simp [rrf, contributions, twoFirsts]
  have hbetter : better twoFirsts [97] < 1 := by simp [better, hkeys, hscore]
  obtain ⟨e, e', he, he', hne⟩ := exists_orders_ne (by simp [hkeys]) (by simp [hkeys])
    (by decide) hscore hbetter
  exact hne (h e e' he he')

end Uldb
