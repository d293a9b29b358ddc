/-
What the merge of a query returns (`merge_rrf` and the end of `IndexManager::query`).

The merge lists the keys of all answers by the sum of their contributions, in any order among
equals, and cuts the list.

* `queryHits_merged` — the hits of a query, whatever order the score map is iterated in;
* `rrf_lt_of_outranks`, `outranks_first` — a key that stands before another in every answer that
  has it stands before it in the merge.
-/
import Uldb.Fusion

namespace Uldb

/-- The hits that a merge of some answers keeps. -/
structure Merged (lists : List (List RankedHit)) (topK : ℕ) (hits : List RankedHit) : Prop where
  /-- As many as there are keys, up to the bound. -/
  length : hits.length = min topK (hitKeys lists).length
  /-- The ranks are the places. -/
  ranks : hits.map (·.rank) = List.range hits.length
  /-- Each key has one hit. -/
  nodup : (hits.map (·.key)).Nodup
  /-- A hit is a key of an answer, with the sum of its contributions. -/
  score : ∀ hit ∈ hits, hit.key ∈ hitKeys lists ∧ hit.score = rrf lists hit.key
  /-- The scores descend. -/
  sorted : hits.Pairwise fun a b => b.score ≤ a.score
  /-- No key that is left out has a larger score. -/
  best : ∀ key ∈ hitKeys lists, key ∉ hits.map (·.key) → ∀ hit ∈ hits, rrf lists key ≤ hit.score

section

variable {lists : List (List RankedHit)} {topK : ℕ} {entries : List (Bytes × ℚ)} {a b : Bytes}

/-- Without the ranks, the merge is the sorted list of entries. -/
theorem map_queryHits (topK : ℕ) (entries : List (Bytes × ℚ)) :
    (queryHits topK entries).map (fun hit => (hit.key, hit.score))
      = (Ranking.sort Prod.snd entries).take topK := by
  have hsort : Ranking.sort RankedHit.score (entries.map freshHit)
      = (Ranking.sort Prod.snd entries).map freshHit := Ranking.sort_map freshHit entries
  rw [queryHits, mergeRrf, hsort, List.map_take]
  congr 1
  refine List.ext_getElem? fun i => ?_
  simp only [List.getElem?_map, List.getElem?_mapIdx, Option.map_map]
  cases (Ranking.sort Prod.snd entries)[i]? with
  | none => rfl
  | some entry => rfl

theorem ranks_queryHits (topK : ℕ) (entries : List (Bytes × ℚ)) :
    (queryHits topK entries).map (·.rank) = List.range (queryHits topK entries).length := by
  refine List.ext_getElem? fun i => ?_
  rw [List.getElem?_map]
  by_cases hi : i < (queryHits topK entries).length
  · rw [List.getElem?_range hi, List.getElem?_eq_getElem hi, Option.map_some, Option.some_inj]
    simp only [queryHits, mergeRrf, List.getElem_take, List.getElem_mapIdx]
  · rw [List.getElem?_eq_none (by omega), List.getElem?_eq_none (by simpa using hi)]
    rfl

/-- The entries of the score map. -/
theorem mem_entries (hiter : Iterates lists entries) {entry : Bytes × ℚ} :
    entry ∈ entries ↔ entry.1 ∈ hitKeys lists ∧ entry.2 = rrf lists entry.1 := by
  rw [(iterates_iff.mp hiter).mem_iff, List.mem_map]
  constructor
  · rintro ⟨key, hkey, rfl⟩
    exact ⟨hkey, rfl⟩
  · rintro ⟨hkey, hscore⟩
    exact ⟨entry.1, hkey, Prod.ext rfl hscore.symm⟩

theorem nodup_keys_entries (hiter : Iterates lists entries) : (entries.map Prod.fst).Nodup := by
  have hperm := (iterates_iff.mp hiter).map Prod.fst
  rw [List.map_map] at hperm
  refine hperm.nodup_iff.mpr ?_
  have hid : Prod.fst ∘ entryOf lists = id := rfl
  rw [hid, List.map_id]
  exact List.nodup_dedup _

/-- **The hits of a query**, for every order in which the score map is iterated. -/
theorem queryHits_merged (topK : ℕ) (hiter : Iterates lists entries) :
    Merged lists topK (queryHits topK entries) := by
  have hmap := map_queryHits topK entries
  have hsub : ((queryHits topK entries).map fun hit => (hit.key, hit.score)).Sublist
      (Ranking.sort Prod.snd entries) := hmap ▸ List.take_sublist _ _
  have hperm : (Ranking.sort Prod.snd entries).Perm entries := Ranking.sort_perm
  have hkeys : (queryHits topK entries).map (·.key)
      = ((Ranking.sort Prod.snd entries).take topK).map Prod.fst := by
    rw [← hmap, List.map_map]
    rfl
  refine ⟨?_, ranks_queryHits topK entries, ?_, ?_, ?_, ?_⟩
  · have hlen := congrArg List.length hmap
    rw [List.length_map, List.length_take, hperm.length_eq,
      (iterates_iff.mp hiter).length_eq, List.length_map] at hlen
    exact hlen
  · have hnodup : ((Ranking.sort Prod.snd entries).map Prod.fst).Nodup :=
      (hperm.map Prod.fst).nodup_iff.mpr (nodup_keys_entries hiter)
    rw [hkeys]
    exact hnodup.sublist ((List.take_sublist _ _).map _)
  · intro hit hhit
    have hmem := hperm.mem_iff.mp (hsub.mem (List.mem_map_of_mem hhit))
    exact (mem_entries hiter).mp hmem
  · have hsorted := (Ranking.pairwise_sort (f := Prod.snd) (l := entries)).sublist hsub
    exact List.pairwise_map.mp hsorted
  · intro key hkey hout hit hhit
    -- the entry of the key stands behind the cut
    have hentry : (key, rrf lists key) ∈ Ranking.sort Prod.snd entries :=
      hperm.mem_iff.mpr ((mem_entries hiter).mpr ⟨hkey, rfl⟩)
    rw [← List.take_append_drop topK (Ranking.sort Prod.snd entries), List.mem_append] at hentry
    have hkept : (hit.key, hit.score) ∈ (Ranking.sort Prod.snd entries).take topK := by
      rw [← hmap]
      exact List.mem_map_of_mem hhit
    rcases hentry with hentry | hentry
    · exact absurd (hkeys ▸ List.mem_map_of_mem hentry) hout
    · exact Ranking.le_of_mem_drop_sort hkept hentry

/-- With room for all keys, every key is returned. -/
theorem Merged.exists_hit {hits : List RankedHit} (h : Merged lists topK hits)
    (hroom : (hitKeys lists).length ≤ topK) {key : Bytes} (hkey : key ∈ hitKeys lists) :
    ∃ hit ∈ hits, hit.key = key := by
  have hsub : hits.map (·.key) ⊆ hitKeys lists := by
    intro k hk
    obtain ⟨hit, hhit, rfl⟩ := List.mem_map.mp hk
    exact (h.score hit hhit).1
  have hlen : (hitKeys lists).length ≤ (hits.map (·.key)).length := by
    rw [List.length_map, h.length]
    omega
  have hperm := (h.nodup.subperm hsub).perm_of_length_le hlen
  exact List.mem_map.mp (hperm.mem_iff.mpr hkey)

/-! ### A key that outranks another -/

/-- In one answer, the first key stands before the second wherever that stands, which is at
most once. -/
structure Outranks (list : List RankedHit) (a b : Bytes) : Prop where
  once : ∀ (i j : ℕ) (hit hit' : RankedHit), list[i]? = some hit → list[j]? = some hit' → hit.key = b →
    hit'.key = b → i = j
  before : ∀ (j : ℕ) (hit : RankedHit), list[j]? = some hit → hit.key = b →
    ∃ i < j, ∃ hit' : RankedHit, list[i]? = some hit' ∧ hit'.key = a

theorem contributions_append (hits hits' : List (RankedHit × ℕ)) (key : Bytes) :
    contributions (hits ++ hits') key = contributions hits key + contributions hits' key := by
  rw [contributions, List.filter_append, List.map_append, List.sum_append]
  rfl

theorem contribution_pos (i : ℕ) : (0 : ℚ) < 1 / (rrfK + (i + 1 : ℕ)) := by
  have hk : (0 : ℚ) < rrfK := by norm_num [rrfK]
  positivity

theorem contributions_nonneg (hits : List (RankedHit × ℕ)) (key : Bytes) :
    0 ≤ contributions hits key := by
  refine List.sum_nonneg fun x hx => ?_
  obtain ⟨hit, _, rfl⟩ := List.mem_map.mp hx
  exact (contribution_pos hit.2).le

/-- A hit contributes at least its own term. -/
theorem le_contributions {hits : List (RankedHit × ℕ)} {hit : RankedHit} {i : ℕ}
    (h : (hit, i) ∈ hits) : 1 / (rrfK + (i + 1 : ℕ)) ≤ contributions hits hit.key := by
  have hmem : 1 / (rrfK + (i + 1 : ℕ)) ∈ (hits.filter fun h => h.1.key = hit.key).map
      fun h => 1 / (rrfK + (h.2 + 1 : ℕ)) :=
    List.mem_map.mpr ⟨(hit, i), List.mem_filter.mpr ⟨h, by simp⟩, rfl⟩
  refine List.single_le_sum (fun x hx => ?_) _ hmem
  obtain ⟨hit', _, rfl⟩ := List.mem_map.mp hx
  exact (contribution_pos hit'.2).le

/-- A key that stands at one place only contributes the term of that place. -/
theorem contributions_eq_single {list : List RankedHit} {hit : RankedHit} {j : ℕ}
    (hj : list[j]? = some hit)
    (honce : ∀ i hit', list[i]? = some hit' → hit'.key = hit.key → i = j) :
    contributions list.zipIdx hit.key = 1 / (rrfK + (j + 1 : ℕ)) := by
  have hsingle : list.zipIdx.filter (fun h => h.1.key = hit.key) = [(hit, j)] := by
    have hmem : ∀ h, h ∈ list.zipIdx.filter (fun h => h.1.key = hit.key) ↔ h ∈ [(hit, j)] := by
      rintro ⟨hit', i⟩
      rw [List.mem_filter, List.mk_mem_zipIdx_iff_getElem?, List.mem_singleton, decide_eq_true_eq]
      constructor
      · rintro ⟨hi, hkey⟩
        obtain rfl := honce i hit' hi hkey
        rw [Option.some_inj.mp (hi.symm.trans hj)]
      · rintro heq
        obtain ⟨rfl, rfl⟩ := Prod.mk.inj heq
        exact ⟨hj, rfl⟩
    have hnodup : (list.zipIdx.filter fun h => h.1.key = hit.key).Nodup := by
      refine List.Nodup.filter _ (List.Nodup.of_map Prod.snd ?_)
      rw [List.zipIdx_map_snd]
      exact List.nodup_range'
    exact List.perm_singleton.mp
      ((List.perm_ext_iff_of_nodup hnodup (List.nodup_singleton _)).mpr hmem)
  rw [contributions, hsingle]
  simp

theorem contributions_eq_zero {list : List RankedHit} {key : Bytes}
    (h : key ∉ list.map (·.key)) : contributions list.zipIdx key = 0 := by
  have hnil : list.zipIdx.filter (fun hit => hit.1.key = key) = [] := by
    refine List.filter_eq_nil_iff.mpr fun hit hhit => ?_
    have hmem := List.mem_of_getElem? (List.mk_mem_zipIdx_iff_getElem?.mp hhit)
    have hne : hit.1.key ≠ key := fun heq => h (List.mem_map.mpr ⟨hit.1, hmem, heq⟩)
    simpa using hne
  rw [contributions, hnil]
  rfl

/-- In an answer that has the other key, the key that outranks it gets more. -/
theorem Outranks.contributions_lt {list : List RankedHit} (h : Outranks list a b)
    (hb : b ∈ list.map (·.key)) : contributions list.zipIdx b < contributions list.zipIdx a := by
  obtain ⟨hit, hmem, rfl⟩ := List.mem_map.mp hb
  obtain ⟨j, hj⟩ := List.getElem?_of_mem hmem
  obtain ⟨i, hij, hit', hi, rfl⟩ := h.before j hit hj rfl
  have hsum := contributions_eq_single hj fun i' hit'' hi' hkey =>
    h.once i' j hit'' hit hi' hj hkey rfl
  have hle := le_contributions (List.mk_mem_zipIdx_iff_getElem?.mpr hi)
  refine lt_of_lt_of_le ?_ hle
  rw [hsum]
  have hk : (0 : ℚ) < rrfK := by norm_num [rrfK]
  have hcast : ((i + 1 : ℕ) : ℚ) < ((j + 1 : ℕ) : ℚ) := by exact_mod_cast Nat.succ_lt_succ hij
  exact one_div_lt_one_div_of_lt (by positivity) (by linarith)

theorem Outranks.contributions_le {list : List RankedHit} (h : Outranks list a b) :
    contributions list.zipIdx b ≤ contributions list.zipIdx a := by
  by_cases hb : b ∈ list.map (·.key)
  · exact (h.contributions_lt hb).le
  · rw [contributions_eq_zero hb]
    exact contributions_nonneg _ _

/-- A key that outranks another in every answer is in an answer. -/
theorem mem_hitKeys_of_outranks (hb : b ∈ hitKeys lists)
    (h : ∀ list ∈ lists, Outranks list a b) : a ∈ hitKeys lists := by
  rw [hitKeys, List.mem_dedup, List.mem_map] at hb
  obtain ⟨hit, hhit, hkey⟩ := hb
  obtain ⟨list, hlist, hmem⟩ := List.mem_flatten.mp hhit
  obtain ⟨j, hj⟩ := List.getElem?_of_mem hmem
  obtain ⟨i, _, hit', hi, hkey'⟩ := (h list hlist).before j hit hj hkey
  rw [hitKeys, List.mem_dedup, List.mem_map]
  exact ⟨hit', List.mem_flatten.mpr ⟨list, hlist, List.mem_of_getElem? hi⟩, hkey'⟩

/-- A key that outranks another in every answer has a larger score. -/
theorem rrf_lt_of_outranks (hb : b ∈ hitKeys lists) (h : ∀ list ∈ lists, Outranks list a b) :
    rrf lists b < rrf lists a := by
  rw [hitKeys, List.mem_dedup] at hb
  simp only [rrf]
  induction lists with
  | nil => exact absurd hb (by simp)
  | cons list lists ih =>
    rw [List.flatten_cons, List.map_append, List.mem_append] at hb
    rw [List.flatMap_cons, contributions_append, contributions_append]
    have hhead := h list List.mem_cons_self
    have hle : ∀ rest : List (List RankedHit), (∀ l ∈ rest, Outranks l a b) →
        contributions (rest.flatMap List.zipIdx) b ≤ contributions (rest.flatMap List.zipIdx) a := by
      intro rest hrest
      induction rest with
      | nil => exact le_refl _
      | cons list' rest ihrest =>
        rw [List.flatMap_cons, contributions_append, contributions_append]
        exact add_le_add (hrest list' List.mem_cons_self).contributions_le
          (ihrest fun l hl => hrest l (List.mem_cons_of_mem _ hl))
    rcases hb with hb | hb
    · exact add_lt_add_of_lt_of_le (hhead.contributions_lt hb)
        (hle lists fun l hl => h l (List.mem_cons_of_mem _ hl))
    · exact add_lt_add_of_le_of_lt hhead.contributions_le
        (ih hb fun l hl => h l (List.mem_cons_of_mem _ hl))

/-- **A key that outranks another in every answer stands before it in the merge**: whenever the
second is returned the first is, with a smaller rank. -/
theorem outranks_first (hiter : Iterates lists entries) {hit : RankedHit}
    (hhit : hit ∈ queryHits topK entries) (h : ∀ list ∈ lists, Outranks list a hit.key) :
    ∃ hit' ∈ queryHits topK entries, hit'.key = a ∧ hit'.rank < hit.rank := by
  obtain ⟨hb, hscore⟩ := (queryHits_merged topK hiter).score hit hhit
  have ha := mem_hitKeys_of_outranks hb h
  have hlt := rrf_lt_of_outranks hb h
  obtain ⟨j, hj⟩ := List.getElem?_of_mem hhit
  have hmap := map_queryHits topK entries
  have hrank : ∀ (i : ℕ) (hit : RankedHit),
      (queryHits topK entries)[i]? = some hit → hit.rank = i := by
    intro i hit hi
    have hget := congrArg (·[i]?) (ranks_queryHits topK entries)
    simp only [List.getElem?_map, hi, Option.map_some] at hget
    rw [List.getElem?_range (List.getElem?_eq_some_iff.mp hi).1, Option.some_inj] at hget
    exact hget
  have hjsort : ((Ranking.sort Prod.snd entries).take topK)[j]? = some (hit.key, hit.score) := by
    rw [← hmap, List.getElem?_map, hj]
    rfl
  have hjlt : j < topK := by
    by_contra hge
    rw [List.getElem?_eq_none] at hjsort
    · exact absurd hjsort (by simp)
    · rw [List.length_take]
      omega
  rw [List.getElem?_take_of_lt hjlt] at hjsort
  have hscorelt : hit.score < rrf lists a := hscore ▸ hlt
  obtain ⟨i, hij, hi⟩ := Ranking.exists_getElem?_sort (f := Prod.snd) (b := (hit.key, hit.score))
    ((mem_entries hiter).mpr ⟨ha, rfl⟩ : (a, rrf lists a) ∈ entries) hscorelt hjsort
  rw [← List.getElem?_take_of_lt (hij.trans hjlt), ← hmap, List.getElem?_map,
    Option.map_eq_some_iff] at hi
  obtain ⟨hit', hi', heq⟩ := hi
  refine ⟨hit', List.mem_of_getElem? hi', (Prod.mk.inj heq).1, ?_⟩
  rw [hrank i hit' hi', hrank j hit hj]
  exact hij

end

/-- One answer with two hits. -/
def onePair : List (List RankedHit) := [[⟨[97], 9, 0⟩, ⟨[98], 5, 1⟩]]

/-- The merge of one answer keeps its order. -/
theorem outranks_first_onePair :
    let hits := queryHits 2 ((hitKeys onePair).map (entryOf onePair))
    ∃ hit ∈ hits, hit.key = [98] ∧ ∃ hit' ∈ hits, hit'.key = [97] ∧ hit'.rank < hit.rank := by
  intro hits
  have hiter : Iterates onePair ((hitKeys onePair).map (entryOf onePair)) :=
    iterates_iff.mpr (List.Perm.refl _)
  obtain ⟨hit, hhit, hkey⟩ := (queryHits_merged 2 hiter).exists_hit (by decide)
    (show [98] ∈ hitKeys onePair by decide)
  refine ⟨hit, hhit, hkey, outranks_first hiter hhit ?_⟩
  rw [hkey]
  intro list hlist
  rw [onePair, List.mem_singleton] at hlist
  subst hlist
  have hplace : ∀ (j : ℕ) (hit : RankedHit),
      ([⟨[97], 9, 0⟩, ⟨[98], 5, 1⟩] : List RankedHit)[j]? = some hit → hit.key = [98] → j = 1 := by
    rintro (_ | _ | j) hit hj hb
    · rw [← Option.some_inj.mp hj] at hb
      exact absurd hb (by decide)
    · rfl
    · exact absurd hj (by simp)
  constructor
  · intro i j hit hit' hi hj hb hb'
    rw [hplace i hit hi hb, hplace j hit' hj hb']
  · intro j hit hj hb
    rw [hplace j hit hj hb]
    exact ⟨0, by omega, ⟨[97], 9, 0⟩, rfl, rfl⟩

end Uldb
