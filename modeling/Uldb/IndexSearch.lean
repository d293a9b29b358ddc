/-
What a keyword search returns.

A put adds a document and removes the one that its key had, a delete removes it.  So the
documents that are not removed are the last puts of their keys (`live_iff`), and a search
with room for them returns the keys that are put and match (`search_live`).
-/
import Uldb.IndexReplay

namespace Uldb

namespace Document

variable {ws : List (Bytes × Option Bytes)} {d : Document} {k v : Bytes}

theorem superseded_concat (docs : List Document) (ws : List (Bytes × Option Bytes))
    (w : Bytes × Option Bytes) :
    superseded docs (ws ++ [w])
      = superseded docs ws ++ (current (ws.foldl add docs) w.1).toList := by
  induction ws generalizing docs with
  | nil => simp [superseded]
  | cons w' ws ih =>
    rw [List.cons_append, superseded, ih, superseded, List.append_assoc]
    rfl

/-- The documents that are not removed. -/
def Live (ws : List (Bytes × Option Bytes)) (d : Document) : Prop :=
  d ∈ ws.foldl add [] ∧ d ∉ superseded [] ws

theorem numbered_foldl (ws : List (Bytes × Option Bytes)) : Numbered (ws.foldl add []) := by
  induction ws using List.reverseRecOn with
  | nil => exact fun i d hi => absurd hi (by simp)
  | append_singleton ws w ih =>
    rw [List.foldl_append]
    exact ih.add w

theorem mem_of_superseded (h : d ∈ superseded [] ws) : d ∈ ws.foldl add [] :=
  (Tracks.new.onWrites (m := IndexManager.new) ws).subset d (List.mem_append_left _ h)

/-- The writes of other keys leave the last write of a key. -/
theorem lastWrite_concat (w : Bytes × Option Bytes) :
    lastWrite (ws ++ [w]) k = if w.1 = k then some w.2 else lastWrite ws k := by
  rw [lastWrite_append, lastWrite_singleton]
  by_cases hk : w.1 = k
  · rw [if_pos hk, if_pos hk]
    rfl
  · rw [if_neg hk, if_neg hk]
    rfl

/-- After a write, the documents of other keys are those of before. -/
theorem live_concat_of_ne {w : Bytes × Option Bytes} (hne : w.1 ≠ d.key) :
    Live (ws ++ [w]) d ↔ Live ws d := by
  have hold : d ∉ (current (ws.foldl add []) w.1).toList := by
    rw [Option.mem_toList]
    exact fun h => hne (mem_of_current h).2.symm
  have hmem : d ∈ add (ws.foldl add []) w ↔ d ∈ ws.foldl add [] := by
    obtain ⟨key, value⟩ := w
    cases value with
    | none => exact Iff.rfl
    | some value =>
      rw [add, List.mem_append, List.mem_singleton]
      exact or_iff_left fun h => hne (by rw [h])
  rw [Live, Live, List.foldl_append, superseded_concat, List.mem_append, List.foldl_cons,
    List.foldl_nil, hmem]
  exact and_congr_right fun _ => not_congr (or_iff_left hold)

/-- **The documents that are not removed** are the last puts of their keys. -/
theorem live_iff :
    Live ws d ↔ current (ws.foldl add []) d.key = some d ∧
      lastWrite ws d.key = some (some d.value) := by
  induction ws using List.reverseRecOn with
  | nil => simp [Live, lastWrite]
  | append_singleton ws w ih =>
    obtain ⟨key, value⟩ := w
    rw [lastWrite_concat]
    by_cases hkey : key = d.key
    · rw [if_pos hkey, Live, superseded_concat, List.mem_append, not_or, Option.mem_toList,
        List.foldl_append, List.foldl_cons, List.foldl_nil]
      cases value with
      | none =>
        -- the document of the key was removed by this delete, or before
        refine iff_of_false ?_ (by simp)
        rintro ⟨hmem, hold, hcurrent⟩
        subst hkey
        exact hcurrent (ih.mp ⟨hmem, hold⟩).1
      | some value =>
        rw [add, current_concat, if_pos hkey, List.mem_append, List.mem_singleton]
        constructor
        · rintro ⟨hmem | rfl, hold, hcurrent⟩
          · subst hkey
            exact absurd (ih.mp ⟨hmem, hold⟩).1 hcurrent
          · exact ⟨rfl, rfl⟩
        · rintro ⟨hnew, _⟩
          rw [Option.some_inj] at hnew
          have hfresh := (numbered_foldl ws).notMem key value
          rw [hnew] at hfresh
          exact ⟨.inr hnew.symm, fun h => hfresh (mem_of_superseded h),
            fun h => hfresh (mem_of_current h).1⟩
    · rw [if_neg hkey, live_concat_of_ne hkey, ih, List.foldl_append, List.foldl_cons,
        List.foldl_nil]
      cases value with
      | none => exact Iff.rfl
      | some value => rw [add, current_concat, if_neg hkey]

/-- A key that is put has a document. -/
theorem exists_live (h : lastWrite ws k = some (some v)) :
    ∃ d, Live ws d ∧ d.key = k ∧ d.value = v := by
  induction ws using List.reverseRecOn with
  | nil => simp [lastWrite] at h
  | append_singleton ws w ih =>
    obtain ⟨key, value⟩ := w
    have hlast := h
    rw [lastWrite_concat] at h
    by_cases hkey : key = k
    · rw [if_pos hkey, Option.some_inj] at h
      obtain rfl : value = some v := h
      obtain rfl := hkey
      refine ⟨⟨(ws.foldl add []).length, key, v⟩, live_iff.mpr ⟨?_, hlast⟩, rfl, rfl⟩
      rw [List.foldl_append, List.foldl_cons, List.foldl_nil, add, current_concat, if_pos rfl]
    · rw [if_neg hkey] at h
      obtain ⟨d, hd, rfl, hv⟩ := ih h
      exact ⟨d, (live_concat_of_ne hkey).mpr hd, rfl, hv⟩

end Document

open Document

/-- A key is put, and its key or value has a token of the query. -/
def Answers (ws : List (Bytes × Option Bytes)) (query k : Bytes) : Prop :=
  ∃ v, lastWrite ws k = some (some v) ∧
    ∃ term ∈ tokenize query, term ∈ tokenize k ∨ term ∈ tokenize v

/-- The documents that a query should return. -/
theorem answers_iff {ws : List (Bytes × Option Bytes)} {query k : Bytes} :
    Answers ws query k ↔ ∃ d, Live ws d ∧ d.Matches (tokenize query) ∧ d.key = k := by
  have hmatch : ∀ d : Document, d.Matches (tokenize query) ↔
      ∃ term ∈ tokenize query, term ∈ tokenize d.key ∨ term ∈ tokenize d.value := by
    intro d
    simp only [Document.Matches, Document.tokens, Bm25Index.docTokens, List.mem_append]
  constructor
  · rintro ⟨v, hlast, hterm⟩
    obtain ⟨d, hd, rfl, rfl⟩ := exists_live hlast
    exact ⟨d, hd, (hmatch d).mpr hterm, rfl⟩
  · rintro ⟨d, hd, hterm, rfl⟩
    exact ⟨d.value, (live_iff.mp hd).2, (hmatch d).mp hterm⟩

section

variable {F : Type} [Field F] [LinearOrder F] [IsStrictOrderedRing F] {ln : F → F}

/-- **The keyword index answers the live documents.**  After any puts and deletes of texts,
a search with room for all matches returns exactly the keys that are put and share a token
with the query, each once and with its place as its rank. -/
theorem search_live (hln : ∀ x, 1 < x → 0 < ln x) (ws : List (Bytes × Option Bytes))
    (hws : ∀ w ∈ ws, IsText w.1 ∧ ∀ v, w.2 = some v → validUtf8 v = true) (query : Bytes)
    {topK : ℕ} (htop : {k | Answers ws query k}.ncard ≤ topK) :
    (∀ k, k ∈ ((ws.foldl IndexManager.onWrite .new).bm25.search ln query topK).map Bm25Result.key ↔
      Answers ws query k) ∧
    (((ws.foldl IndexManager.onWrite .new).bm25.search ln query topK).map Bm25Result.key).Nodup ∧
    ((ws.foldl IndexManager.onWrite .new).bm25.search ln query topK).map Bm25Result.rank
      = List.range ((ws.foldl IndexManager.onWrite .new).bm25.search ln query topK).length := by
  have htracks := Tracks.new.onWrites (m := IndexManager.new) ws
  rw [List.append_nil] at htracks
  have hkeys : ∀ d ∈ ws.foldl add [], d.key ≠ [] := by
    intro d hd
    rcases key_of_mem hd with hd | ⟨w, hw, hkey⟩
    · exact absurd hd (by simp)
    · rw [← hkey]
      exact (hws w hw).1.1
  set found := (ws.foldl add []).filter
    fun d => d ∉ superseded [] ws ∧ d.Matches (tokenize query) with hfound
  have hmem : ∀ d, d ∈ found ↔ Live ws d ∧ d.Matches (tokenize query) := by
    intro d
    rw [hfound, List.mem_filter, decide_eq_true_eq, Live, and_assoc]
  have hanswers : ∀ k, k ∈ found.map Document.key ↔ Answers ws query k := by
    intro k
    rw [answers_iff, List.mem_map]
    simp only [hmem, and_assoc]
  have hnodup : (found.map Document.key).Nodup := by
    refine List.Nodup.map_on ?_ ?_
    · -- a key has one live document
      intro d hd d' hd' heq
      have hcurrent := (live_iff.mp ((hmem d).mp hd).1).1
      rw [heq, (live_iff.mp ((hmem d').mp hd').1).1] at hcurrent
      exact (Option.some_inj.mp hcurrent).symm
    · refine List.Nodup.filter _ (List.Nodup.of_map docId ?_)
      rw [(numbered_foldl ws).map_docId]
      exact List.nodup_range
  have hfits : found.length ≤ topK := by
    have hset : {k | Answers ws query k} = ↑(found.map Document.key).toFinset := by
      ext k
      rw [Set.mem_ofPred_eq, ← hanswers, Finset.mem_coe, List.mem_toFinset]
    rw [hset, Set.ncard_coe_finset, List.toFinset_card_of_nodup hnodup, List.length_map] at htop
    exact htop
  have hsearch := htracks.search_keys_of_fits hln hkeys query hfits
  exact ⟨fun k => hsearch.mem_iff.trans (hanswers k), hsearch.nodup_iff.mpr hnodup,
    Bm25Index.search_ranks _ _ _⟩

end

/-- Two documents with one word, of which the first is removed. -/
theorem search_live_two :
    let ws : List (Bytes × Option Bytes) :=
      [([107], some [118]), ([108], some [118]), ([107], none)]
    Answers ws [118] [108] ∧
    ∀ k, k ∈ ((ws.foldl IndexManager.onWrite .new).bm25.search Real.log [118] 1).map
        Bm25Result.key ↔ Answers ws [118] k := by
  intro ws
  have htext : ∀ w ∈ ws, IsText w.1 ∧ ∀ v, w.2 = some v → validUtf8 v = true := by
    simp only [ws, List.forall_mem_cons, List.not_mem_nil, false_implies, implies_true, and_true,
      Option.some_inj, forall_eq', reduceCtorEq, IsText]
    decide
  have honly : ∀ k, Answers ws [118] k → k = [108] := by
    rintro k ⟨v, hlast, _⟩
    by_cases h : [107] = k
    · subst h
      simp [ws, lastWrite] at hlast
    · by_cases h' : [108] = k
      · exact h'.symm
      · simp [ws, lastWrite, h, h'] at hlast
  refine ⟨⟨[118], by decide, [118], by decide, by decide⟩,
    (search_live (fun _ => Real.log_pos) ws htext [118] ?_).1⟩
  refine (Set.ncard_le_one (Set.Finite.subset (Set.finite_singleton [108]) honly)).mpr ?_
  intro a ha b hb
  rw [honly a ha, honly b hb]

end Uldb
