/-
The keyword index over a restart.

While a session runs, a put removes the document its key had before and adds a new one,
and a delete removes it.  A replay adds a document for every put of the log and removes
none.  Both number the documents in the order of the puts, so the two indices have the
same texts and differ in the documents that the session has removed.

* `Tracks` — what an index holds of the documents of a history;
* `Tracks.onWrites`, `Tracks.replay` — the two ways to build it;
* `search_reopened_iff` — the queries for which they agree.
-/
import Uldb.Bm25
import Uldb.Reopen

namespace Uldb

open Fallible

/-! ### Documents -/

/-- A document: a put, and its number among the puts. -/
structure Document where
  docId : ℕ
  key : Bytes
  value : Bytes
  deriving DecidableEq

namespace Document

/-- The tokens of the two texts of a document. -/
def tokens (d : Document) : List Bytes := Bm25Index.docTokens d.key d.value

/-- The last document of a key. -/
def current (docs : List Document) (k : Bytes) : Option Document :=
  docs.reverse.find? fun d => d.key = k

/-- The documents after a write: a put adds one, a delete none. -/
def add (docs : List Document) : Bytes × Option Bytes → List Document
  | (key, some value) => docs ++ [⟨docs.length, key, value⟩]
  | (_, none) => docs

/-- The documents that the writes of a session remove: each write of a key removes the
last document of the key. -/
def superseded (docs : List Document) : List (Bytes × Option Bytes) → List Document
  | [] => []
  | w :: ws => (current docs w.1).toList ++ superseded (add docs w) ws

/-- The number of a document is its position. -/
def Numbered (docs : List Document) : Prop := ∀ (i : ℕ) (d : Document), docs[i]? = some d → d.docId = i

theorem current_concat (docs : List Document) (d : Document) (k : Bytes) :
    current (docs ++ [d]) k = if d.key = k then some d else current docs k := by
  rw [current, List.reverse_append, List.reverse_singleton, List.singleton_append, List.find?_cons]
  by_cases hk : d.key = k
  · rw [if_pos hk, decide_eq_true hk]
  · rw [if_neg hk, decide_eq_false hk]
    rfl

theorem mem_of_current {docs : List Document} {k : Bytes} {d : Document}
    (h : current docs k = some d) : d ∈ docs ∧ d.key = k :=
  ⟨List.mem_reverse.mp (List.mem_of_find?_eq_some h), by simpa using List.find?_some h⟩

theorem Numbered.getElem? {docs : List Document} (h : Numbered docs) {d : Document} (hd : d ∈ docs) :
    docs[d.docId]? = some d := by
  obtain ⟨i, hi⟩ := List.mem_iff_getElem?.mp hd
  rw [h i d hi]
  exact hi

theorem Numbered.map_docId {docs : List Document} (h : Numbered docs) :
    docs.map docId = List.range docs.length := by
  apply List.ext_getElem?
  intro i
  rw [List.getElem?_map]
  by_cases hi : i < docs.length
  · have hat : docs[i]? = some docs[i] := List.getElem?_eq_getElem hi
    rw [List.getElem?_range hi, hat, Option.map_some, h i _ hat]
  · rw [List.getElem?_eq_none (not_lt.mp hi), List.getElem?_eq_none]
    · rfl
    · rw [List.length_range]
      exact not_lt.mp hi

theorem Numbered.add {docs : List Document} (h : Numbered docs) (w : Bytes × Option Bytes) :
    Numbered (add docs w) := by
  obtain ⟨key, value⟩ := w
  cases value with
  | none => exact h
  | some value =>
    intro i d hi
    rw [Document.add, List.getElem?_append] at hi
    by_cases hlt : i < docs.length
    · rw [if_pos hlt] at hi
      exact h i d hi
    · rw [if_neg hlt, List.getElem?_singleton] at hi
      by_cases hzero : i - docs.length = 0
      · rw [if_pos hzero, Option.some_inj] at hi
        rw [← hi]
        show docs.length = i
        omega
      · rw [if_neg hzero] at hi
        exact absurd hi (by simp)

/-- The next document is new. -/
theorem Numbered.notMem {docs : List Document} (h : Numbered docs) (key value : Bytes) :
    ⟨docs.length, key, value⟩ ∉ docs := by
  intro hmem
  have hget := h.getElem? hmem
  rw [List.getElem?_eq_none le_rfl] at hget
  exact absurd hget (by simp)

/-- A document has the key of its write. -/
theorem key_of_mem {ws : List (Bytes × Option Bytes)} {docs : List Document} {d : Document}
    (h : d ∈ ws.foldl add docs) : d ∈ docs ∨ ∃ w ∈ ws, w.1 = d.key := by
  induction ws generalizing docs with
  | nil => exact .inl h
  | cons w ws ih =>
    rcases ih h with hd | ⟨w', hw', hkey⟩
    -- it was there after the first write: before, or by the first write
    · obtain ⟨key, value⟩ := w
      cases value with
      | none => exact .inl hd
      | some value =>
        rcases List.mem_append.mp hd with hd | hd
        · exact .inl hd
        · refine .inr ⟨(key, some value), by simp, ?_⟩
          rw [List.mem_singleton.mp hd]
    · exact .inr ⟨w', by simp [hw'], hkey⟩

end Document

open Document

/-- What an index holds of the documents of a history, of which some are removed. -/
structure Tracks (index : Bm25Index) (docs removed : List Document) : Prop where
  indexes : index.Indexes (docs.map tokens)
  numbered : Numbered docs
  subset : ∀ d ∈ removed, d ∈ docs
  keys : index.docs = docs.map fun d => if d ∈ removed then [] else d.key
  keyToDoc : ∀ k : Bytes, index.keyToDoc[k]?
    = ((current docs k).filter fun d => decide (d ∉ removed)).map Document.docId

namespace Tracks

variable {index : Bm25Index} {docs removed : List Document}

theorem new : Tracks .new [] [] :=
  ⟨Bm25Index.new_indexes, fun i d hi => absurd hi (by simp), by simp, rfl,
    fun k => by simp [Bm25Index.new, current]⟩

/-- Only the set of the removed documents matters. -/
theorem congr {removed' : List Document} (h : Tracks index docs removed)
    (hiff : ∀ d, d ∈ removed ↔ d ∈ removed') : Tracks index docs removed' where
  indexes := h.indexes
  numbered := h.numbered
  subset d hd := h.subset d ((hiff d).mpr hd)
  keys := by
    simp only [← hiff]
    exact h.keys
  keyToDoc k := by
    simp only [← hiff]
    exact h.keyToDoc k

/-- Removing the document of a key. -/
theorem removeDocument (h : Tracks index docs removed) (key : Bytes) :
    Tracks (index.removeDocument key) docs ((current docs key).toList ++ removed) := by
  have hkey := h.keyToDoc key
  cases hdoc : index.keyToDoc[key]? with
  | none =>
    -- the key has no document, or it is removed already
    have hgone : ∀ d, current docs key = some d → d ∈ removed := by
      intro d hd
      rw [hdoc, hd] at hkey
      by_contra hnot
      rw [Option.filter_some, if_pos (by simpa using hnot)] at hkey
      exact absurd hkey (by simp)
    rw [Bm25Index.removeDocument, hdoc]
    refine h.congr fun d => ?_
    rw [List.mem_append, Option.mem_toList]
    exact ⟨.inr, fun hd => hd.elim (hgone d) id⟩
  | some docId =>
    rw [hdoc] at hkey
    obtain ⟨d, hd, hid⟩ := Option.map_eq_some_iff.mp hkey.symm
    obtain ⟨hd, hlive⟩ := Option.filter_eq_some_iff.mp hd
    obtain ⟨hmem, hk⟩ := mem_of_current hd
    have hat : docs[docId]? = some d := hid ▸ h.numbered.getElem? hmem
    have hremoved : ∀ d', d' ∈ (current docs key).toList ++ removed ↔ d' = d ∨ d' ∈ removed := by
      intro d'
      rw [hd, Option.toList_some, List.singleton_append, List.mem_cons]
    refine ⟨h.indexes.removeDocument key, h.numbered, fun d' hd' => ?_, ?_, fun k => ?_⟩
    · rcases (hremoved d').mp hd' with rfl | hd'
      · exact hmem
      · exact h.subset d' hd'
    · rw [Bm25Index.removeDocument, hdoc]
      simp only [hremoved]
      apply List.ext_getElem?
      intro i
      rw [h.keys, List.getElem?_set, List.length_map, List.getElem?_map, List.getElem?_map]
      by_cases hi : docId = i
      · subst hi
        have hlt : docId < docs.length := (List.getElem?_eq_some_iff.mp hat).1
        rw [if_pos rfl, if_pos hlt, hat, Option.map_some, if_pos (.inl rfl)]
      · rw [if_neg hi]
        cases hd' : docs[i]? with
        | none => rfl
        | some d' =>
          -- another position has another document
          have hne : d' ≠ d := by
            rintro rfl
            exact hi (hid.symm.trans (h.numbered i d' hd'))
          simp only [Option.map_some, hne, false_or]
    · rw [Bm25Index.removeDocument, hdoc]
      simp only [hremoved]
      rw [Std.TreeMap.getElem?_erase]
      by_cases hkk : compare key k = .eq
      · rw [if_pos hkk]
        obtain rfl := Std.LawfulEqCmp.compare_eq_iff_eq.mp hkk
        rw [hd, Option.filter_some, if_neg (by simp)]
        rfl
      · rw [if_neg hkk, h.keyToDoc k]
        cases hd' : current docs k with
        | none => rfl
        | some d' =>
          have hne : d' ≠ d := by
            rintro rfl
            refine hkk (Std.LawfulEqCmp.compare_eq_iff_eq.mpr ?_)
            exact hk.symm.trans (mem_of_current hd').2
          simp only [Option.filter_some, hne, false_or]

/-- Adding a document. -/
theorem addDocumentDirect (h : Tracks index docs removed) (key value : Bytes) :
    Tracks (index.addDocumentDirect key key value) (add docs (key, some value)) removed := by
  obtain ⟨hdocs, hkeys⟩ := Bm25Index.docs_addDocumentDirect h.indexes.interned key key value
  have hlength : index.docs.length = docs.length := by
    rw [h.keys, List.length_map]
  have hnew : (⟨docs.length, key, value⟩ : Document) ∉ removed :=
    fun hmem => h.numbered.notMem key value (h.subset _ hmem)
  -- the new document is not among the removed ones, so it is the current one of its key
  refine ⟨?_, h.numbered.add (key, some value), fun d hd => ?_, ?_, fun k => ?_⟩
  · rw [add, List.map_append]
    exact h.indexes.addDocumentDirect key key value
  · exact List.mem_append_left _ (h.subset d hd)
  · rw [hdocs, h.keys, add, List.map_append, List.map_singleton, if_neg hnew]
  · rw [hkeys, Std.TreeMap.getElem?_insert, add, current_concat, hlength]
    simp only [Std.LawfulEqCmp.compare_eq_iff_eq]
    by_cases hk : key = k
    · rw [if_pos hk, if_pos hk, Option.filter_some, if_pos (by simpa using hnew)]
      rfl
    · rw [if_neg hk, if_neg hk]
      exact h.keyToDoc k

end Tracks

/-! ### The two ways to build an index -/

namespace IndexManager

/-- What a write does to the indices of a session. -/
def onWrite (m : IndexManager) : Bytes × Option Bytes → IndexManager
  | (key, some value) => m.onPut key value
  | (key, none) => m.onDelete key

end IndexManager

/-- A put removes the document of its key, if there is one. -/
theorem IndexManager.onPut_bm25 (m : IndexManager) (key value : Bytes) :
    (m.onPut key value).bm25 = (m.bm25.removeDocument key).addDocumentDirect key key value := by
  rw [onPut, Bm25Index.containsKey]
  cases hkey : m.bm25.keyToDoc[key]? with
  | some docId =>
    have hcontains : m.bm25.keyToDoc.contains key = true := by
      rw [Std.TreeMap.contains_eq_isSome_getElem?, hkey]
      rfl
    rw [if_pos hcontains]
  | none =>
    have hcontains : ¬m.bm25.keyToDoc.contains key = true := by
      rw [Std.TreeMap.contains_eq_isSome_getElem?, hkey]
      simp
    have hsame : m.bm25.removeDocument key = m.bm25 := by
      rw [Bm25Index.removeDocument, hkey]
    rw [if_neg hcontains, hsame]

/-- One write of a session. -/
theorem Tracks.onWrite {m : IndexManager} {docs removed : List Document}
    (h : Tracks m.bm25 docs removed) (w : Bytes × Option Bytes) :
    Tracks (m.onWrite w).bm25 (add docs w) ((current docs w.1).toList ++ removed) := by
  obtain ⟨key, value⟩ := w
  cases value with
  | none => exact h.removeDocument key
  | some value =>
    rw [IndexManager.onWrite, IndexManager.onPut_bm25]
    exact (h.removeDocument key).addDocumentDirect key value

/-- The writes of a session add their documents, and remove what they supersede. -/
theorem Tracks.onWrites {m : IndexManager} {docs removed : List Document}
    (h : Tracks m.bm25 docs removed) (ws : List (Bytes × Option Bytes)) :
    Tracks (ws.foldl IndexManager.onWrite m).bm25 (ws.foldl add docs)
      (superseded docs ws ++ removed) := by
  induction ws generalizing m docs removed with
  | nil => exact h
  | cons w ws ih =>
    -- the same set, collected from the other end
    refine (ih (h.onWrite w)).congr fun d => ?_
    rw [superseded, List.mem_append, List.mem_append, List.mem_append, List.mem_append]
    tauto

/-- A text: not empty, and well-formed UTF-8. -/
def IsText (text : Bytes) : Prop := text ≠ [] ∧ validUtf8 text = true

theorem IsText.utf8OrEmpty {text : Bytes} (h : IsText text) : utf8OrEmpty text = text :=
  if_pos h.2

/-- A write whose key and value are texts. -/
def IsTextWrite (w : Bytes × Option Bytes) : Prop := IsText w.1 ∧ ∀ v, w.2 = some v → IsText v

/-- A log record as a write: an empty value is a delete. -/
def WalRecord.write (r : WalRecord) : Bytes × Option Bytes := (r.key, r.live)

theorem WalRecord.write_logRecord {w : Bytes × Option Bytes} (hw : IsTextWrite w) :
    (logRecord w).write = w := by
  obtain ⟨key, value⟩ := w
  rw [write, logRecord_live, logRecord]
  congr 1
  refine logged_eq_self.mpr fun hv => ?_
  exact (hw.2 [] hv).1 rfl

/-- A replay adds the documents of the log, and removes none. -/
theorem Tracks.replay {m : Memtable × IndexManager} {docs : List Document}
    (h : Tracks m.2.bm25 docs []) {rs : List WalRecord} (hrs : ∀ r ∈ rs, IsTextWrite r.write) :
    Tracks (rs.foldl Engine.replayRecord m).2.bm25 ((rs.map WalRecord.write).foldl add docs) [] := by
  induction rs generalizing m docs with
  | nil => exact h
  | cons r rs ih =>
    have hr := hrs r (by simp)
    refine ih ?_ fun r' hr' => hrs r' (by simp [hr'])
    rw [Engine.replayRecord, WalRecord.write, WalRecord.live]
    by_cases hv : r.value = []
    -- a delete marker: the replay leaves the index alone
    · rw [if_pos hv, if_pos hv]
      exact h
    · rw [if_neg hv, if_neg hv]
      have hvalue : IsText r.value := hr.2 r.value (by rw [WalRecord.write, WalRecord.live, if_neg hv])
      have hkey : IsText r.key := hr.1
      have hadd := h.addDocumentDirect r.key r.value
      rw [IndexManager.onReplay, hkey.utf8OrEmpty, hvalue.utf8OrEmpty]
      exact hadd

/-! ### Queries -/

/-- A query has a token of the document. -/
def Document.Matches (d : Document) (query : List Bytes) : Prop := ∃ term ∈ query, term ∈ d.tokens

instance (d : Document) (query : List Bytes) : Decidable (d.Matches query) :=
  inferInstanceAs (Decidable (∃ term ∈ query, term ∈ d.tokens))

section

variable {F : Type} [Field F] [LinearOrder F] [IsStrictOrderedRing F] {ln : F → F}

/-- The answer to a query with room for all matches: the keys of the documents it matches
that are not removed. -/
theorem Tracks.search_keys_of_fits (hln : ∀ x, 1 < x → 0 < ln x) {index : Bm25Index}
    {docs removed : List Document} (h : Tracks index docs removed)
    (hkeys : ∀ d ∈ docs, d.key ≠ []) (query : Bytes) {n : ℕ}
    (hn : (docs.filter fun d => d ∉ removed ∧ d.Matches (tokenize query)).length ≤ n) :
    ((index.search ln query n).map Bm25Result.key).Perm
      ((docs.filter fun d => d ∉ removed ∧ d.Matches (tokenize query)).map key) := by
  have hlength : index.docs.length = docs.length := by rw [h.keys, List.length_map]
  have hdoc : ∀ d ∈ docs, index.docs.getD d.docId [] = (if d ∈ removed then [] else d.key) ∧
      (docs.map tokens).getD d.docId [] = d.tokens := by
    intro d hd
    rw [h.keys, List.getD_eq_getElem?_getD, List.getD_eq_getElem?_getD, List.getElem?_map,
      List.getElem?_map, h.numbered.getElem? hd]
    exact ⟨rfl, rfl⟩
  have hfound : docs.filter ((index.Found (docs.map tokens) (tokenize query) ·) ∘ docId)
      = docs.filter fun d => d ∉ removed ∧ d.Matches (tokenize query) := by
    refine List.filter_congr fun d hd => ?_
    rw [Function.comp_apply, decide_eq_decide, Bm25Index.Found, (hdoc d hd).1, (hdoc d hd).2]
    refine and_congr_left fun _ => ?_
    by_cases hmem : d ∈ removed
    · simp [hmem]
    · simp [hmem, hkeys d hd]
  have hnumbers : (List.range index.docs.length).filter
      (index.Found (docs.map tokens) (tokenize query) ·)
      = (docs.filter fun d => d ∉ removed ∧ d.Matches (tokenize query)).map docId := by
    rw [hlength, ← h.numbered.map_docId, List.filter_map, hfound]
  have hfits : ((List.range index.docs.length).filter
      (index.Found (docs.map tokens) (tokenize query) ·)).length ≤ n := by
    rw [hnumbers, List.length_map]
    exact hn
  have hsearch := Bm25Index.search_keys_of_fits hln h.indexes query hfits
  rw [hnumbers, List.map_map] at hsearch
  refine hsearch.trans (List.Perm.of_eq (List.map_congr_left fun d hd => ?_))
  obtain ⟨hmem, hlive⟩ := List.mem_filter.mp hd
  rw [Function.comp_apply, (hdoc d hmem).1, if_neg (of_decide_eq_true hlive).1]

theorem Tracks.search_keys (hln : ∀ x, 1 < x → 0 < ln x) {index : Bm25Index}
    {docs removed : List Document} (h : Tracks index docs removed)
    (hkeys : ∀ d ∈ docs, d.key ≠ []) (query : Bytes) {n : ℕ} (hn : docs.length ≤ n) :
    ((index.search ln query n).map Bm25Result.key).Perm
      ((docs.filter fun d => d ∉ removed ∧ d.Matches (tokenize query)).map key) :=
  h.search_keys_of_fits hln hkeys query ((List.length_filter_le _ _).trans hn)

/-- **Two indices of the same documents**, one with documents removed and one without, answer
a query with the same keys exactly if the query matches no removed document. -/
theorem Tracks.search_perm_iff (hln : ∀ x, 1 < x → 0 < ln x) {live rebuilt : Bm25Index}
    {docs removed : List Document} (hlive : Tracks live docs removed)
    (hrebuilt : Tracks rebuilt docs []) (hkeys : ∀ d ∈ docs, d.key ≠ []) (query : Bytes) {n : ℕ}
    (hn : docs.length ≤ n) :
    ((live.search ln query n).map Bm25Result.key).Perm
        ((rebuilt.search ln query n).map Bm25Result.key) ↔
      ∀ d ∈ removed, ¬d.Matches (tokenize query) := by
  have hperm := hlive.search_keys hln hkeys query hn
  have hperm' := hrebuilt.search_keys hln hkeys query hn
  constructor
  · intro h d hd hmatch
    -- what the first index finds is part of what the second one finds
    have hsub : (docs.filter fun d => d ∉ removed ∧ d.Matches (tokenize query)).Sublist
        (docs.filter fun d => d ∉ ([] : List Document) ∧ d.Matches (tokenize query)) := by
      refine List.monotone_filter_right _ fun d hd => ?_
      exact decide_eq_true ⟨by simp, (of_decide_eq_true hd).2⟩
    -- and as much, so they are the same documents
    have hsame := ((hperm.symm.trans h).trans hperm').length_eq
    rw [List.length_map, List.length_map] at hsame
    have hmem : d ∈ docs.filter fun d => d ∉ removed ∧ d.Matches (tokenize query) := by
      rw [hsub.eq_of_length hsame, List.mem_filter]
      exact ⟨hlive.subset d hd, decide_eq_true ⟨by simp, hmatch⟩⟩
    exact (of_decide_eq_true (List.mem_filter.mp hmem).2).1 hd
  · intro h
    have hsame : (docs.filter fun d => d ∉ removed ∧ d.Matches (tokenize query))
        = docs.filter fun d => d ∉ ([] : List Document) ∧ d.Matches (tokenize query) := by
      refine List.filter_congr fun d _ => ?_
      rw [decide_eq_decide]
      exact ⟨fun hd => ⟨by simp, hd.2⟩, fun hd => ⟨fun hmem => h d hmem hd.2, hd.2⟩⟩
    rw [hsame] at hperm
    exact hperm.trans hperm'.symm

end

/-! ### A restart -/

namespace Engine

variable {e e' : Engine} {u : Unit}

theorem indices_of_flushes (h : Flushes e e') : e'.indices = e.indices := by
  rcases h with rfl | ⟨_, rfl⟩
  · rfl
  · rfl

/-- The documents that a log leaves behind. -/
def logDocuments (history : List WalRecord) : List Document :=
  (history.map WalRecord.write).foldl add []

theorem key_of_mem_logDocuments {history : List WalRecord}
    (htexts : ∀ r ∈ history, IsTextWrite r.write) {d : Document} (hd : d ∈ logDocuments history) :
    d.key ≠ [] := by
  rcases key_of_mem hd with hd | ⟨w, hw, hkey⟩
  · exact absurd hd (by simp)
  · obtain ⟨r, hr, rfl⟩ := List.mem_map.mp hw
    rw [← hkey]
    exact (htexts r hr).1.1

section

variable {cs : List Call} (hcs : ∀ c ∈ cs, c.isPutOrDelete = true)
  (hwrites : ∀ c ∈ cs, ∀ w ∈ c.entries, IsTextWrite w)

include hcs hwrites

/-- Writes of texts are logged as they are. -/
theorem map_write_runRecords : (runRecords cs).map WalRecord.write = cs.flatMap Call.entries := by
  rw [runRecords, List.map_flatMap]
  refine List.flatMap_congr fun c hc => ?_
  rw [Call.records_eq (hcs c hc), List.map_map]
  exact (List.map_congr_left fun w hw =>
    WalRecord.write_logRecord (hwrites c hc w hw)).trans (List.map_id _)

theorem isTextWrite_of_mem_runRecords {r : WalRecord} (hr : r ∈ runRecords cs) :
    IsTextWrite r.write := by
  have hmem := List.mem_map_of_mem (f := WalRecord.write) hr
  rw [map_write_runRecords hcs hwrites] at hmem
  obtain ⟨c, hc, hw⟩ := List.mem_flatMap.mp hmem
  exact hwrites c hc r.write hw

end

variable [Codec]

/-- A session of puts and deletes feeds its writes to the indices. -/
theorem exec_indices {c : Call} (hc : c.isPutOrDelete = true) (h : exec c e = .ok u e') :
    e'.indices = c.entries.foldl IndexManager.onWrite e.indices := by
  cases c with
  | put key value =>
    obtain ⟨wal, state, hflush⟩ := put_eq_ok h
    exact indices_of_flushes hflush
  | delete key =>
    obtain ⟨wal, hflush⟩ := delete_eq_ok h
    exact indices_of_flushes hflush
  | work => rw [modify_eq_ok.mp h]; rfl
  | _ => exact absurd hc (by simp [Call.isPutOrDelete])

theorem run_indices {cs : List Call} (hcs : ∀ c ∈ cs, c.isPutOrDelete = true)
    (h : e.run cs = some e') :
    e'.indices = (cs.flatMap Call.entries).foldl IndexManager.onWrite e.indices := by
  induction cs generalizing e with
  | nil =>
    obtain rfl : e = e' := by simpa [Engine.run] using h
    rfl
  | cons c cs ih =>
    rw [run_cons, Option.bind_eq_some_iff] at h
    obtain ⟨e₁, hc, hrun⟩ := h
    obtain ⟨_, hexec⟩ := success_eq_some hc
    rw [ih (fun c' hc' => hcs c' (by simp [hc'])) hrun, exec_indices (hcs c (by simp)) hexec,
      List.flatMap_cons, List.foldl_append]

theorem Opened.tracks {t : ℕ} {dir : Dir} {log : Option Bytes} {outcomes : List (Option WriteFault)}
    (ho : Opened t dir log outcomes e) {history : List WalRecord}
    (hlog : log.getD [] = Wal.encode history) (hfits : ∀ r ∈ history, r.Fits)
    (htexts : ∀ r ∈ history, IsTextWrite r.write) :
    Tracks e.indices.bm25 (logDocuments history) [] := by
  rw [ho.indices, replayLog, hlog, Wal.replay_intact hfits]
  exact Tracks.replay (m := (Memtable.new t, IndexManager.new)) Tracks.new htexts

/-- What the index holds at the end of a session, and what the next one rebuilds: the same
documents, of which the session has removed the superseded ones. -/
theorem reopened_tracks {t t' : ℕ} {dir dir' : Dir} {log : Option Bytes}
    {outcomes outcomes' : List (Option WriteFault)} {history : List WalRecord} {e₀ : Engine}
    (hlog : log.getD [] = Wal.encode history) (hfits : ∀ r ∈ history, r.Fits)
    (htexts : ∀ r ∈ history, IsTextWrite r.write)
    (hopen : Engine.open t dir log outcomes = .ok e₀) {cs : List Call}
    (hcs : ∀ c ∈ cs, c.isPutOrDelete = true) (hsized : ∀ c ∈ cs, ∀ r ∈ c.records, r.Fits)
    (hwrites : ∀ c ∈ cs, ∀ w ∈ c.entries, IsTextWrite w) (hrun : e₀.run cs = some e)
    (hopen' : Engine.open t' dir' (some e.wal.file) outcomes' = .ok e') :
    Tracks e.indices.bm25 (logDocuments (history ++ runRecords cs))
        (superseded (logDocuments history) (cs.flatMap Call.entries)) ∧
      Tracks e'.indices.bm25 (logDocuments (history ++ runRecords cs)) [] ∧
      ∀ d ∈ logDocuments (history ++ runRecords cs), d.key ≠ [] := by
  have hall : ∀ r ∈ history ++ runRecords cs, IsTextWrite r.write := by
    intro r hr
    rcases List.mem_append.mp hr with hr | hr
    · exact htexts r hr
    · exact isTextWrite_of_mem_runRecords hcs hwrites hr
  refine ⟨?_, ?_, fun d => key_of_mem_logDocuments hall⟩
  · have hstart := (opened_of_open hopen).tracks hlog hfits htexts
    have hsession := hstart.onWrites (cs.flatMap Call.entries)
    rw [← run_indices hcs hrun, List.append_nil] at hsession
    rw [logDocuments, List.map_append, List.foldl_append, map_write_runRecords hcs hwrites]
    exact hsession
  · refine (opened_of_open hopen').tracks ?_ ?_ hall
    · rw [Option.getD_some, file_of_run hopen hcs hrun, hlog, Wal.encode_append]
    · intro r hr
      rcases List.mem_append.mp hr with hr | hr
      · exact hfits r hr
      · obtain ⟨c, hc, hr⟩ := List.mem_flatMap.mp hr
        exact hsized c hc r hr

/-- **The keyword index over a restart.**  A session on an intact log makes any puts and
deletes of texts, which succeed, within the limits of a log record.  The next session
answers a query with the same keys, however often each, exactly if the query matches no
document that the first one has overwritten or deleted. -/
theorem search_reopened_iff {F : Type} [Field F] [LinearOrder F] [IsStrictOrderedRing F]
    {ln : F → F} (hln : ∀ x, 1 < x → 0 < ln x) {t t' : ℕ} {dir dir' : Dir} {log : Option Bytes}
    {outcomes outcomes' : List (Option WriteFault)} {history : List WalRecord} {e₀ : Engine}
    (hlog : log.getD [] = Wal.encode history) (hfits : ∀ r ∈ history, r.Fits)
    (htexts : ∀ r ∈ history, IsTextWrite r.write)
    (hopen : Engine.open t dir log outcomes = .ok e₀) {cs : List Call}
    (hcs : ∀ c ∈ cs, c.isPutOrDelete = true) (hsized : ∀ c ∈ cs, ∀ r ∈ c.records, r.Fits)
    (hwrites : ∀ c ∈ cs, ∀ w ∈ c.entries, IsTextWrite w) (hrun : e₀.run cs = some e)
    (hopen' : Engine.open t' dir' (some e.wal.file) outcomes' = .ok e') (query : Bytes) {n : ℕ}
    (hn : e.indices.bm25.docs.length ≤ n) :
    ((e.indices.bm25.search ln query n).map Bm25Result.key).Perm
        ((e'.indices.bm25.search ln query n).map Bm25Result.key) ↔
      ∀ d ∈ superseded (logDocuments history) (cs.flatMap Call.entries),
        ¬d.Matches (tokenize query) := by
  obtain ⟨hlive, hrebuilt, hkeys⟩ :=
    reopened_tracks hlog hfits htexts hopen hcs hsized hwrites hrun hopen'
  rw [hlive.keys, List.length_map] at hn
  exact hlive.search_perm_iff hln hrebuilt hkeys query hn

omit [Codec] in
/-- A key is overwritten, and the query asks for the new text: the next session finds the
key once, as this one does. -/
theorem search_reopened_overwritten : ∃ e e',
    reopen 1000 [.put [107] [118], .put [107] [119]] = some (e, e') ∧
      ((e.indices.bm25.search Real.log [119] 2).map Bm25Result.key).Perm
        ((e'.indices.bm25.search Real.log [119] 2).map Bm25Result.key) := by
  obtain ⟨e, e', hpair, hrun, hopen'⟩ :=
    @exists_of_reopen 1000 [.put [107] [118], .put [107] [119]] (by decide +kernel)
  have hlength : (reopen 1000 [.put [107] [118], .put [107] [119]]).map (fun s =>
      s.1.indices.bm25.docs.length) = some 2 := by decide +kernel
  rw [hpair, Option.map_some, Option.some_inj] at hlength
  obtain ⟨e₀, hopen, hcalls⟩ := @exists_of_openRun storedCodec _ _ _ _ _ hrun
  have hwrites : ∀ c ∈ [Call.put [107] [118], Call.put [107] [119]], ∀ w ∈ c.entries,
      IsTextWrite w := by
    simp [Call.entries, IsTextWrite, IsText, validUtf8]
  refine ⟨e, e', hpair, (@search_reopened_iff _ _ storedCodec ℝ _ _ _ Real.log
    (fun x hx => Real.log_pos hx) 1000 1000 ∅ e.compactor.dir none [] [] [] e₀ rfl (by simp)
    (by simp) hopen _ (by simp [Call.isPutOrDelete]) (by simp [Call.records, WalRecord.Fits])
    hwrites hcalls hopen' [119] 2 hlength.le).mpr ?_⟩
  decide +kernel

omit [Codec] in
/-- A key is deleted: this session does not find it, and the next one does. -/
theorem search_finds_deleted : ∃ e e',
    reopen 1000 [.put [107] [118], .delete [107]] = some (e, e') ∧
      (e.indices.bm25.search Real.log [118] 1).map Bm25Result.key = [] ∧
      (e'.indices.bm25.search Real.log [118] 1).map Bm25Result.key = [[107]] := by
  obtain ⟨e, e', hpair, hrun, hopen'⟩ :=
    @exists_of_reopen 1000 [.put [107] [118], .delete [107]] (by decide +kernel)
  obtain ⟨e₀, hopen, hcalls⟩ := @exists_of_openRun storedCodec _ _ _ _ _ hrun
  have hwrites : ∀ c ∈ [Call.put [107] [118], Call.delete [107]], ∀ w ∈ c.entries,
      IsTextWrite w := by
    simp [Call.entries, IsTextWrite, IsText, validUtf8]
  obtain ⟨hlive, hrebuilt, hkeys⟩ := @reopened_tracks e e' storedCodec 1000 1000 ∅
    e.compactor.dir none [] [] [] e₀ rfl (by simp) (by simp) hopen _
    (by simp [Call.isPutOrDelete]) (by simp [Call.records, WalRecord.Fits]) hwrites hcalls hopen'
  have hln : ∀ x : ℝ, 1 < x → 0 < Real.log x := fun x hx => Real.log_pos hx
  refine ⟨e, e', hpair, ?_, ?_⟩
  · refine ((hlive.search_keys hln hkeys [118] (n := 1) (by decide +kernel)).trans
      (List.Perm.of_eq ?_)).eq_nil
    decide +kernel
  · refine List.perm_singleton.mp ((hrebuilt.search_keys hln hkeys [118] (n := 1)
      (by decide +kernel)).trans (List.Perm.of_eq ?_))
    decide +kernel

end Engine

end Uldb
