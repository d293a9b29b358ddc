/-
The keyword index (`index/bm25.rs`): its tokens, its posting lists and its search.

`Indexes` says what an index holds: for every token it knows, the posting list of the
token over the texts of its documents.  Adding a document appends a text; removing one
changes no list, but clears the document's key.

Scores are exact here: an ordered field stands for `f64`, and the logarithm is a
parameter.  A search asks of a score only whether it is zero and which of two is larger.

* `Indexes.addDocumentDirect`, `Indexes.removeDocument` — the lists after a change;
* `search_keys` — a search with a large enough limit returns the keys of the documents
  that have a token of the query and have not been removed, each once.
-/
import Uldb.Index
import Uldb.Lib.Postings

namespace Uldb

open Postings

/-! ### Tokens -/

/-- The token in the buffer, if there is one. -/
def pendingToken (buf : Bytes) : List Bytes := if buf = [] then [] else [buf]

/-- The tokens from a state of the byte loop on. -/
def tokensFrom (buf : Bytes) (prev : Option UInt8) (inToken : Bool) : Bytes → List Bytes
  | [] => pendingToken buf
  | b :: rest =>
    -- a camelCase boundary ends the token
    let boundary := isAsciiUppercase b && inToken && (prev.map isAsciiLowercase).getD false
    let ended := if boundary then pendingToken buf else []
    let buf := if boundary then [] else buf
    ended ++
      if isAsciiAlphanumeric b then tokensFrom (buf ++ [toAsciiLowercase b]) (some b) true rest
      else if inToken then pendingToken buf ++ tokensFrom [] (some b) false rest
      else tokensFrom buf (some b) false rest

/-- Tokenize a text: lowercased runs of letters and digits, cut at camelCase boundaries. -/
def tokenize (text : Bytes) : List Bytes := tokensFrom [] none false text

example : tokenize "getUserById and validate_token".toUTF8.toList =
    ["get", "user", "by", "id", "and", "validate", "token"].map (·.toUTF8.toList) := by
  decide +kernel

/-- One search result. -/
structure Bm25Result (F : Type) where
  key : Bytes
  score : F
  rank : ℕ

namespace Bm25Index

/-- Intern and count one token of the document under work. -/
def TokenState.token (s : TokenState) (tok : Bytes) : TokenState :=
  let (index, termFreq) := s.index.internAndCount tok s.termFreq
  ⟨index, termFreq, [], s.totalTokens + 1⟩

theorem TokenState.emit_eq (s : TokenState) :
    s.emit = (pendingToken s.buf).foldl token { s with buf := [] } := by
  rw [emit, pendingToken]
  by_cases h : s.buf = []
  · rw [if_pos h, if_pos h, List.foldl_nil]
    rw [← h]
  · rw [if_neg h, if_neg h]
    rfl

theorem TokenState.emit_buf (s : TokenState) : s.emit.buf = [] := by
  rw [emit]
  by_cases h : s.buf = []
  · rw [if_pos h]
    exact h
  · rw [if_neg h]

/-- The byte loop counts the tokens of the text one after the other. -/
theorem tokenLoop_eq (text : Bytes) (s : TokenState) (prev : Option UInt8) (inToken : Bool) :
    tokenLoop s prev inToken text
      = (tokensFrom s.buf prev inToken text).foldl TokenState.token { s with buf := [] } := by
  induction text generalizing s prev inToken with
  | nil => exact s.emit_eq
  | cons b text ih =>
    simp only [tokenLoop, tokensFrom, List.foldl_append]
    -- the state after the boundary, with the buffer that is left
    generalize hboundary : (isAsciiUppercase b && inToken
      && (prev.map isAsciiLowercase).getD false) = boundary
    have hcut : ∃ s₁ : TokenState, (if boundary = true then s.emit else s) = s₁ ∧
        s₁.buf = (if boundary = true then [] else s.buf) ∧
        List.foldl TokenState.token { s with buf := [] }
          (if boundary = true then pendingToken s.buf else []) = { s₁ with buf := [] } := by
      cases boundary with
      | true =>
        refine ⟨s.emit, rfl, s.emit_buf, ?_⟩
        rw [if_pos rfl, ← s.emit_eq, ← s.emit_buf]
      | false => exact ⟨s, rfl, rfl, rfl⟩
    obtain ⟨s₁, hs₁, hbuf, hfold⟩ := hcut
    rw [hs₁, hfold, ← hbuf]
    -- the two loops branch alike; only the emitted tokens are counted in between
    by_cases halnum : isAsciiAlphanumeric b = true
    · rw [if_pos halnum, if_pos halnum, ih]
    · rw [if_neg halnum, if_neg halnum]
      by_cases hin : inToken = true
      · rw [if_pos hin, if_pos hin, ih, List.foldl_append, ← s₁.emit_eq, s₁.emit_buf]
        congr 1
        rw [← s₁.emit_buf]
      · rw [if_neg hin, if_neg hin, ih]

/-! ### Term ids -/

/-- The id of a term. -/
def idOf (index : Bm25Index) (tok : Bytes) : Option ℕ := index.termIds[tok]?

/-- Every term has an id of its own, below the size of the pool. -/
structure Interned (index : Bm25Index) : Prop where
  lt : ∀ tok tid, index.idOf tok = some tid → tid < index.termPool
  inj : ∀ tok tok' tid, index.idOf tok = some tid → index.idOf tok' = some tid → tok = tok'

/-- The indices differ in their terms only, and the second one knows those of the first. -/
structure Extends (index index' : Bm25Index) : Prop where
  docs : index'.docs = index.docs
  keyToDoc : index'.keyToDoc = index.keyToDoc
  df : index'.df = index.df
  postings : index'.postings = index.postings
  pool : index.termPool ≤ index'.termPool
  old : ∀ tok tid, index.idOf tok = some tid → index'.idOf tok = some tid
  new : ∀ tok tid, index'.idOf tok = some tid → index.idOf tok = some tid ∨ index.termPool ≤ tid

theorem Extends.refl (index : Bm25Index) : index.Extends index :=
  ⟨rfl, rfl, rfl, rfl, le_rfl, fun _ _ h => h, fun _ _ h => .inl h⟩

theorem Extends.trans {index index' index'' : Bm25Index} (h : index.Extends index')
    (h' : index'.Extends index'') : index.Extends index'' where
  docs := h'.docs.trans h.docs
  keyToDoc := h'.keyToDoc.trans h.keyToDoc
  df := h'.df.trans h.df
  postings := h'.postings.trans h.postings
  pool := h.pool.trans h'.pool
  old tok tid hid := h'.old tok tid (h.old tok tid hid)
  new tok tid hid := by
    rcases h'.new tok tid hid with hid | hle
    · exact h.new tok tid hid
    · exact .inr (h.pool.trans hle)

/-- The index with a new term. -/
def addTerm (index : Bm25Index) (tok : Bytes) : Bm25Index :=
  { index with
    termIds := index.termIds.insert tok index.termPool
    termPool := index.termPool + 1 }

theorem idOf_addTerm (index : Bm25Index) (tok tok' : Bytes) :
    (index.addTerm tok).idOf tok' = if tok = tok' then some index.termPool else index.idOf tok' := by
  rw [idOf, addTerm, Std.TreeMap.getElem?_insert]
  simp only [Std.LawfulEqCmp.compare_eq_iff_eq]
  rfl

theorem addTerm_extends {index : Bm25Index} {tok : Bytes} (hid : index.idOf tok = none) :
    index.Extends (index.addTerm tok) := by
  refine ⟨rfl, rfl, rfl, rfl, Nat.le_succ _, fun tok' tid hid' => ?_, fun tok' tid hid' => ?_⟩
  · have hne : tok ≠ tok' := by
      rintro rfl
      rw [hid] at hid'
      exact absurd hid' (by simp)
    rw [idOf_addTerm, if_neg hne, hid']
  · rw [idOf_addTerm] at hid'
    by_cases heq : tok = tok'
    · rw [if_pos heq, Option.some_inj] at hid'
      exact .inr hid'.le
    · rw [if_neg heq] at hid'
      exact .inl hid'

theorem Interned.addTerm {index : Bm25Index} (h : index.Interned) (tok : Bytes) :
    (index.addTerm tok).Interned := by
  have hnew : ∀ {tok' tid}, (index.addTerm tok).idOf tok' = some tid →
      tok = tok' ∧ tid = index.termPool ∨ index.idOf tok' = some tid ∧ tid < index.termPool := by
    intro tok' tid hid
    rw [idOf_addTerm] at hid
    by_cases heq : tok = tok'
    · rw [if_pos heq, Option.some_inj] at hid
      exact .inl ⟨heq, hid.symm⟩
    · rw [if_neg heq] at hid
      exact .inr ⟨hid, h.lt tok' tid hid⟩
  constructor
  · intro tok' tid hid
    have hpool : (index.addTerm tok).termPool = index.termPool + 1 := rfl
    rcases hnew hid with ⟨_, rfl⟩ | ⟨_, hlt⟩
    · omega
    · omega
  · intro tok₁ tok₂ tid h₁ h₂
    -- an old id is below the pool, so it is not the new one
    rcases hnew h₁ with ⟨rfl, heq⟩ | ⟨h₁, hlt⟩ <;> rcases hnew h₂ with ⟨rfl, heq'⟩ | ⟨h₂, hlt'⟩
    · rfl
    · omega
    · omega
    · exact h.inj tok₁ tok₂ tid h₁ h₂

/-! ### Counting -/

/-- How often a term of the document under work was counted. -/
def freqOf (tid : ℕ) : List (ℕ × ℕ) → ℕ
  | [] => 0
  | (t, n) :: rest => if t = tid then n else freqOf tid rest

theorem freqOf_countTerm (tid t : ℕ) (termFreq : List (ℕ × ℕ)) :
    freqOf t (countTerm tid termFreq) = freqOf t termFreq + if tid = t then 1 else 0 := by
  induction termFreq with
  | nil => simp [countTerm, freqOf]
  | cons p rest ih =>
    obtain ⟨t', n⟩ := p
    rw [countTerm]
    by_cases htid : t' = tid
    · subst htid
      rw [if_pos rfl, freqOf, freqOf]
      by_cases ht : t' = t
      · rw [if_pos ht, if_pos ht, if_pos ht]
      · rw [if_neg ht, if_neg ht, if_neg ht]
        rfl
    · rw [if_neg htid, freqOf, freqOf, ih]
      by_cases ht : t' = t
      · have hne : tid ≠ t := fun h => htid (ht.trans h.symm)
        rw [if_pos ht, if_pos ht, if_neg hne]
        rfl
      · rw [if_neg ht, if_neg ht]

theorem freqOf_eq_zero {tid : ℕ} {termFreq : List (ℕ × ℕ)} (h : ∀ p ∈ termFreq, p.1 ≠ tid) :
    freqOf tid termFreq = 0 := by
  induction termFreq with
  | nil => rfl
  | cons p rest ih =>
    obtain ⟨t, n⟩ := p
    rw [freqOf, if_neg (h (t, n) (by simp))]
    exact ih fun p hp => h p (by simp [hp])

/-- A term that is counted was there or is the one that is counted now. -/
theorem fst_of_mem_countTerm {tid : ℕ} {termFreq : List (ℕ × ℕ)} {p : ℕ × ℕ}
    (h : p ∈ countTerm tid termFreq) : p.1 = tid ∨ ∃ q ∈ termFreq, q.1 = p.1 := by
  induction termFreq with
  | nil =>
    obtain rfl : p = (tid, 1) := by simpa [countTerm] using h
    exact .inl rfl
  | cons q rest ih =>
    obtain ⟨t, n⟩ := q
    rw [countTerm] at h
    by_cases htid : t = tid
    · rw [if_pos htid] at h
      rcases List.mem_cons.mp h with rfl | h
      · exact .inl htid
      · exact .inr ⟨p, by simp [h], rfl⟩
    · rw [if_neg htid] at h
      rcases List.mem_cons.mp h with rfl | h
      · exact .inr ⟨_, by simp, rfl⟩
      · rcases ih h with hp | ⟨q, hq, hp⟩
        · exact .inl hp
        · exact .inr ⟨q, by simp [hq], hp⟩

/-- Every term is counted in one place, and at least once. -/
def Counting (termFreq : List (ℕ × ℕ)) : Prop :=
  (termFreq.map Prod.fst).Nodup ∧ ∀ p ∈ termFreq, 0 < p.2

theorem Counting.countTerm {termFreq : List (ℕ × ℕ)} (h : Counting termFreq) (tid : ℕ) :
    Counting (countTerm tid termFreq) := by
  induction termFreq with
  | nil => exact ⟨by simp [Bm25Index.countTerm], by simp [Bm25Index.countTerm]⟩
  | cons p rest ih =>
    obtain ⟨t, n⟩ := p
    obtain ⟨hnodup, hpos⟩ := h
    rw [List.map_cons, List.nodup_cons] at hnodup
    have hrest : ∀ p ∈ rest, 0 < p.2 := fun p hp => hpos p (by simp [hp])
    rw [Bm25Index.countTerm]
    by_cases htid : t = tid
    · rw [if_pos htid]
      refine ⟨List.nodup_cons.mpr hnodup, fun p hp => ?_⟩
      rcases List.mem_cons.mp hp with rfl | hp
      · exact Nat.succ_pos n
      · exact hrest p hp
    · rw [if_neg htid]
      obtain ⟨hnodup', hpos'⟩ := ih ⟨hnodup.2, hrest⟩
      refine ⟨List.nodup_cons.mpr ⟨fun hmem => ?_, hnodup'⟩, fun p hp => ?_⟩
      · obtain ⟨q, hq, heq⟩ := List.mem_map.mp hmem
        rcases fst_of_mem_countTerm hq with hq | ⟨q', hq', heq'⟩
        · exact htid (heq.symm.trans hq)
        · exact hnodup.1 (List.mem_map.mpr ⟨q', hq', heq'.trans heq⟩)
      · rcases List.mem_cons.mp hp with rfl | hp
        · exact hpos (t, n) (by simp)
        · exact hpos' p hp

/-- The state of the tokenizer after some tokens of a document. -/
structure Counted (index : Bm25Index) (toks : List Bytes) (s : TokenState) : Prop where
  index : index.Extends s.index
  interned : s.index.Interned
  known : ∀ tok ∈ toks, ∃ tid, s.index.idOf tok = some tid
  counting : Counting s.termFreq
  lt : ∀ p ∈ s.termFreq, p.1 < s.index.termPool
  counts : ∀ tok tid, s.index.idOf tok = some tid → freqOf tid s.termFreq = toks.count tok

theorem Counted.token {index : Bm25Index} {toks : List Bytes} {s : TokenState}
    (h : Counted index toks s) (tok : Bytes) : Counted index (toks ++ [tok]) (s.token tok) := by
  rw [TokenState.token, internAndCount]
  have hcount : ∀ tok', (toks ++ [tok]).count tok' = toks.count tok' + if tok = tok' then 1 else 0 := by
    intro tok'
    rw [List.count_append, List.count_singleton]
    simp only [beq_iff_eq]
  cases hid : s.index.termIds[tok]? with
  | some tid =>
    -- a known token: its id is counted once more
    refine ⟨h.index, h.interned, ?_, h.counting.countTerm tid, ?_, ?_⟩
    · intro tok' hmem
      rcases List.mem_append.mp hmem with hmem | hmem
      · exact h.known tok' hmem
      · rw [List.mem_singleton.mp hmem]
        exact ⟨tid, hid⟩
    · intro p hp
      rcases fst_of_mem_countTerm hp with hp | ⟨q, hq, hp⟩
      · exact hp ▸ h.interned.lt tok tid hid
      · exact hp ▸ h.lt q hq
    · intro tok' tid' hid'
      rw [freqOf_countTerm, h.counts tok' tid' hid', hcount]
      by_cases heq : tok = tok'
      · subst heq
        rw [if_pos rfl, if_pos (Option.some_inj.mp (hid.symm.trans hid'))]
      · have hne : tid ≠ tid' := by
          rintro rfl
          exact heq (h.interned.inj tok tok' tid hid hid')
        rw [if_neg heq, if_neg hne]
  | none =>
    have hextends := addTerm_extends hid
    have hnew : (s.index.addTerm tok).idOf tok = some s.index.termPool := by
      rw [idOf_addTerm, if_pos rfl]
    refine ⟨h.index.trans hextends, h.interned.addTerm tok, ?_,
      h.counting.countTerm s.index.termPool, ?_, ?_⟩
    · intro tok' hmem
      rcases List.mem_append.mp hmem with hmem | hmem
      · obtain ⟨tid, hid'⟩ := h.known tok' hmem
        exact ⟨tid, hextends.old tok' tid hid'⟩
      · rw [List.mem_singleton.mp hmem]
        exact ⟨_, hnew⟩
    · intro p hp
      rcases fst_of_mem_countTerm hp with hp | ⟨q, hq, hp⟩
      · exact hp ▸ Nat.lt_succ_self _
      · exact hp ▸ (h.lt q hq).trans (Nat.lt_succ_self _)
    · intro tok' tid' hid'
      have hid'' : (s.index.addTerm tok).idOf tok' = some tid' := hid'
      rw [idOf_addTerm] at hid''
      rw [freqOf_countTerm, hcount]
      by_cases heq : tok = tok'
      · -- the token is new, so neither it nor its id was counted before
        subst heq
        rw [if_pos rfl, Option.some_inj] at hid''
        subst hid''
        have hfresh : freqOf s.index.termPool s.termFreq = 0 :=
          freqOf_eq_zero fun p hp => (h.lt p hp).ne
        have habsent : toks.count tok = 0 := by
          refine List.count_eq_zero.mpr fun hmem => ?_
          obtain ⟨tid, hid'⟩ := h.known tok hmem
          rw [show s.index.idOf tok = none from hid] at hid'
          exact absurd hid' (by simp)
        rw [hfresh, habsent, if_pos rfl, if_pos rfl]
      · rw [if_neg heq] at hid''
        have hne : s.index.termPool ≠ tid' := (h.interned.lt tok' tid' hid'').ne'
        rw [h.counts tok' tid' hid'', if_neg heq, if_neg hne]

theorem Counted.tokens {index : Bm25Index} {toks : List Bytes} {s : TokenState}
    (h : Counted index toks s) (toks' : List Bytes) :
    Counted index (toks ++ toks') (toks'.foldl TokenState.token s) := by
  induction toks' generalizing toks s with
  | nil =>
    rw [List.append_nil]
    exact h
  | cons tok toks' ih =>
    rw [← List.singleton_append, ← List.append_assoc]
    exact ih (h.token tok)

/-! ### Posting lists -/

/-- The postings of a document, one term after the other. -/
theorem postings_foldl_addPosting {termFreq : List (ℕ × ℕ)} (h : Counting termFreq) (docId : ℕ)
    (index : Bm25Index) (tid : ℕ) :
    (termFreq.foldl (addPosting docId) index).postings[tid]?
      = if freqOf tid termFreq = 0 then index.postings[tid]?
        else some ((index.postings[tid]?).getD [] ++ [(docId, freqOf tid termFreq)]) := by
  induction termFreq generalizing index with
  | nil => rfl
  | cons p rest ih =>
    obtain ⟨t, n⟩ := p
    obtain ⟨hnodup, hpos⟩ := h
    rw [List.map_cons, List.nodup_cons] at hnodup
    have hstep : (addPosting docId index (t, n)).postings[tid]?
        = if t = tid then some ((index.postings[t]?).getD [] ++ [(docId, n)])
          else index.postings[tid]? := by
      rw [addPosting, Std.TreeMap.getElem?_insert]
      simp only [Std.LawfulEqCmp.compare_eq_iff_eq]
    rw [List.foldl_cons, ih ⟨hnodup.2, fun p hp => hpos p (by simp [hp])⟩, hstep, freqOf]
    by_cases ht : t = tid
    -- the term is not counted a second time in the rest
    · have hrest : freqOf tid rest = 0 := by
        refine freqOf_eq_zero fun p hp heq => ?_
        exact hnodup.1 (List.mem_map.mpr ⟨p, hp, heq.trans ht.symm⟩)
      have hn : n ≠ 0 := (hpos (t, n) (by simp)).ne'
      rw [if_pos hrest, if_pos ht, if_pos ht, if_neg hn, ht]
    · rw [if_neg ht, if_neg ht]

/-- What adding postings leaves alone. -/
theorem foldl_addPosting_frame (termFreq : List (ℕ × ℕ)) (docId : ℕ) (index : Bm25Index) :
    (termFreq.foldl (addPosting docId) index).docs = index.docs ∧
      (termFreq.foldl (addPosting docId) index).keyToDoc = index.keyToDoc ∧
      (termFreq.foldl (addPosting docId) index).termPool = index.termPool ∧
      (termFreq.foldl (addPosting docId) index).termIds = index.termIds := by
  induction termFreq generalizing index with
  | nil => exact ⟨rfl, rfl, rfl, rfl⟩
  | cons p rest ih => exact ih (addPosting docId index p)

/-- The document frequency of a term is the length of its posting list. -/
def FrequenciesOk (index : Bm25Index) : Prop :=
  ∀ tid : ℕ, index.df[tid]? = (index.postings[tid]?).map List.length

theorem FrequenciesOk.addPosting {index : Bm25Index} (h : index.FrequenciesOk) (docId : ℕ)
    (p : ℕ × ℕ) : (addPosting docId index p).FrequenciesOk := by
  intro tid
  rw [Bm25Index.addPosting, Std.TreeMap.getElem?_insert, Std.TreeMap.getElem?_insert]
  by_cases ht : compare p.1 tid = .eq
  · rw [if_pos ht, if_pos ht, h p.1]
    cases index.postings[p.1]? <;> simp
  · rw [if_neg ht, if_neg ht]
    exact h tid

theorem FrequenciesOk.foldl {index : Bm25Index} (h : index.FrequenciesOk) (docId : ℕ)
    (termFreq : List (ℕ × ℕ)) : (termFreq.foldl (Bm25Index.addPosting docId) index).FrequenciesOk := by
  induction termFreq generalizing index with
  | nil => exact h
  | cons p rest ih => exact ih (h.addPosting docId p)

/-- **What an index holds**: the posting list of every token over the texts of its
documents. -/
structure Indexes (index : Bm25Index) (texts : List (List Bytes)) : Prop where
  docs : index.docs.length = texts.length
  interned : index.Interned
  known : ∀ text ∈ texts, ∀ tok ∈ text, ∃ tid, index.idOf tok = some tid
  postings : ∀ tok tid, index.idOf tok = some tid →
    (index.postings[tid]?).getD [] = occurrences tok texts
  df : index.FrequenciesOk
  unused : ∀ tid, index.termPool ≤ tid → index.postings[tid]? = none

theorem new_indexes : Indexes new [] := by
  refine ⟨rfl, ⟨fun tok tid hid => ?_, fun tok tok' tid hid => ?_⟩, by simp, fun tok tid hid => ?_,
    fun tid => by simp [new], fun tid _ => by simp [new]⟩
  all_goals exact absurd hid (by simp [idOf, new])

/-- The tokens of a document. -/
def docTokens (keyText valueText : Bytes) : List Bytes := tokenize keyText ++ tokenize valueText

theorem buf_foldl_token (toks : List Bytes) {s : TokenState} (hs : s.buf = []) :
    (toks.foldl TokenState.token s).buf = [] := by
  induction toks generalizing s with
  | nil => exact hs
  | cons tok toks ih => exact ih rfl

/-- The two texts of a document are counted as one list of tokens. -/
theorem tokenLoop_texts (index : Bm25Index) (keyText valueText : Bytes) :
    tokenLoop (tokenLoop ⟨index, [], [], 0⟩ none false keyText) none false valueText
      = (docTokens keyText valueText).foldl TokenState.token ⟨index, [], [], 0⟩ := by
  have hbuf := buf_foldl_token (tokenize keyText) (s := ⟨index, [], [], 0⟩) rfl
  have hkey : tokenLoop ⟨index, [], [], 0⟩ none false keyText
      = (tokenize keyText).foldl TokenState.token ⟨index, [], [], 0⟩ := tokenLoop_eq keyText _ _ _
  have hsame : ∀ s : TokenState, s.buf = [] → { s with buf := [] } = s := by
    rintro ⟨_, _, _, _⟩ rfl
    rfl
  rw [hkey, tokenLoop_eq valueText, hbuf, docTokens, List.foldl_append, hsame _ hbuf]
  rfl

/-- The index with a new document that has no postings yet. -/
def addKey (index : Bm25Index) (key : Bytes) : Bm25Index :=
  { index with
    keyToDoc := index.keyToDoc.insert key index.docs.length
    docs := index.docs ++ [key] }

/-- The state after the tokens of a document. -/
def tokensState (index : Bm25Index) (key : Bytes) (toks : List Bytes) : TokenState :=
  toks.foldl TokenState.token ⟨index.addKey key, [], [], 0⟩

theorem counted_tokensState {index : Bm25Index} (h : index.Interned) (key : Bytes)
    (toks : List Bytes) : Counted (index.addKey key) toks (index.tokensState key toks) := by
  have hstart : Counted (index.addKey key) [] ⟨index.addKey key, [], [], 0⟩ :=
    ⟨.refl _, ⟨h.lt, h.inj⟩, by simp, ⟨by simp, by simp⟩, by simp, by simp [freqOf]⟩
  exact hstart.tokens toks

/-- Index the tokens of a document, in their order. -/
def addTokens (index : Bm25Index) (key : Bytes) (toks : List Bytes) : Bm25Index :=
  let s := index.tokensState key toks
  let index := s.termFreq.foldl (addPosting index.docs.length) s.index
  { index with
    docLen := index.docLen ++ [s.totalTokens]
    docTerms := index.docTerms ++ [s.termFreq.map (·.1)]
    totalDocLen := index.totalDocLen + s.totalTokens
    activeDocs := index.activeDocs + 1 }

/-- The two texts of a document are indexed as one list of tokens. -/
theorem addDocumentDirect_eq_addTokens (index : Bm25Index) (key keyText valueText : Bytes) :
    index.addDocumentDirect key keyText valueText
      = index.addTokens key (docTokens keyText valueText) := by
  rw [addTokens, tokensState, ← tokenLoop_texts]
  rfl

theorem docs_addTokens {index : Bm25Index} (h : index.Interned) (key : Bytes)
    (toks : List Bytes) :
    (index.addTokens key toks).docs = index.docs ++ [key] ∧
      (index.addTokens key toks).keyToDoc = index.keyToDoc.insert key index.docs.length := by
  have hcounted := counted_tokensState h key toks
  obtain ⟨hdocs, hkeys, _, _⟩ := foldl_addPosting_frame (index.tokensState key toks).termFreq
    index.docs.length (index.tokensState key toks).index
  exact ⟨hdocs.trans hcounted.index.docs, hkeys.trans hcounted.index.keyToDoc⟩

theorem docs_addDocumentDirect {index : Bm25Index} (h : index.Interned)
    (key keyText valueText : Bytes) :
    (index.addDocumentDirect key keyText valueText).docs = index.docs ++ [key] ∧
      (index.addDocumentDirect key keyText valueText).keyToDoc
        = index.keyToDoc.insert key index.docs.length := by
  rw [addDocumentDirect_eq_addTokens]
  exact docs_addTokens h key (docTokens keyText valueText)

/-- A token with a new id occurs in no earlier text, so its id has the postings of the texts. -/
theorem Indexes.postings_of_new {index : Bm25Index} {texts : List (List Bytes)}
    (h : index.Indexes texts) {tok : Bytes} {tid : ℕ}
    (hnew : index.idOf tok = some tid ∨ index.termPool ≤ tid)
    (hsame : ∀ tid', index.idOf tok = some tid' → tid' = tid) :
    (index.postings[tid]?).getD [] = occurrences tok texts := by
  rcases hnew with hknown | hle
  · exact h.postings tok tid hknown
  · rw [h.unused tid hle, Option.getD_none]
    symm
    rw [List.eq_nil_iff_forall_not_mem]
    rintro ⟨i, n⟩ hmem
    obtain ⟨text, hi, hmem, _⟩ := mem_occurrences.mp hmem
    obtain ⟨tid', hknown⟩ := h.known text (List.mem_of_getElem? hi) tok hmem
    have heq := hsame tid' hknown
    have hlt := h.interned.lt tok tid' hknown
    omega

/-- The tokens of a document are added. -/
theorem Indexes.addTokens {index : Bm25Index} {texts : List (List Bytes)}
    (h : index.Indexes texts) (key : Bytes) (toks : List Bytes) :
    (index.addTokens key toks).Indexes (texts ++ [toks]) := by
  have hdocs := (docs_addTokens h.interned key toks).1
  have hcounted := counted_tokensState h.interned key toks
  obtain ⟨s, hs⟩ : ∃ s, s = index.tokensState key toks := ⟨_, rfl⟩
  obtain ⟨index', hindex'⟩ : ∃ index',
      index' = s.termFreq.foldl (addPosting index.docs.length) s.index := ⟨_, rfl⟩
  have heq : index.addTokens key toks = { index' with
      docLen := index'.docLen ++ [s.totalTokens]
      docTerms := index'.docTerms ++ [s.termFreq.map (·.1)]
      totalDocLen := index'.totalDocLen + s.totalTokens
      activeDocs := index'.activeDocs + 1 } := by
    rw [hindex', hs]
    rfl
  rw [← hs] at hcounted
  have hold : (index.addKey key).postings = index.postings := rfl
  have hext := hcounted.index
  obtain ⟨_, _, hpool, hids⟩ := foldl_addPosting_frame s.termFreq index.docs.length s.index
  have hpostings := postings_foldl_addPosting hcounted.counting index.docs.length s.index
  rw [← hindex'] at hpool hids hpostings
  have hid : ∀ tok, (index.addTokens key toks).idOf tok = s.index.idOf tok := by
    intro tok
    rw [heq, idOf, idOf, hids]
  have hpost : ∀ tid, (index.addTokens key toks).postings[tid]?
      = if freqOf tid s.termFreq = 0 then index.postings[tid]? else some
        ((index.postings[tid]?).getD [] ++ [(index.docs.length, freqOf tid s.termFreq)]) := by
    intro tid
    rw [heq]
    exact (hpostings tid).trans (by rw [hext.postings, hold])
  have hpool' : (index.addTokens key toks).termPool = s.index.termPool := by
    rw [heq]
    exact hpool
  refine ⟨?_, ⟨?_, ?_⟩, ?_, ?_, ?_, ?_⟩
  · rw [hdocs, List.length_append, List.length_append, h.docs]
    rfl
  -- the terms are those of the tokenizer's last state
  · intro tok tid htok
    rw [hid] at htok
    rw [hpool']
    exact hcounted.interned.lt tok tid htok
  · intro tok tok' tid htok htok'
    rw [hid] at htok htok'
    exact hcounted.interned.inj tok tok' tid htok htok'
  · intro text hmem tok htok
    simp only [hid]
    rcases List.mem_append.mp hmem with hmem | hmem
    · obtain ⟨tid, hold⟩ := h.known text hmem tok htok
      exact ⟨tid, hext.old tok tid hold⟩
    · rw [List.mem_singleton.mp hmem] at htok
      exact hcounted.known tok htok
  · intro tok tid htok
    rw [hid] at htok
    have hbefore : (index.postings[tid]?).getD [] = occurrences tok texts :=
      h.postings_of_new (hext.new tok tid htok) fun tid' hknown =>
        Option.some_inj.mp ((hext.old tok tid' hknown).symm.trans htok)
    rw [hpost, occurrences_concat, hcounted.counts tok tid htok, h.docs]
    by_cases hzero : toks.count tok = 0
    · rw [if_pos hzero, if_pos hzero, hbefore, List.append_nil]
    · rw [if_neg hzero, if_neg hzero, Option.getD_some, hbefore]
  · have hstart : s.index.FrequenciesOk := by
      intro tid
      rw [hext.df, hext.postings]
      exact h.df tid
    rw [heq, hindex']
    exact hstart.foldl index.docs.length s.termFreq
  · intro tid hle
    rw [hpool'] at hle
    have hzero : freqOf tid s.termFreq = 0 :=
      freqOf_eq_zero fun p hp => ((hcounted.lt p hp).trans_le hle).ne
    rw [hpost, if_pos hzero]
    exact h.unused tid (le_trans hext.pool hle)

/-- A document is added. -/
theorem Indexes.addDocumentDirect {index : Bm25Index} {texts : List (List Bytes)}
    (h : index.Indexes texts) (key keyText valueText : Bytes) :
    (index.addDocumentDirect key keyText valueText).Indexes
      (texts ++ [docTokens keyText valueText]) := by
  rw [addDocumentDirect_eq_addTokens]
  exact h.addTokens key (docTokens keyText valueText)

theorem removeDocument_frame (index : Bm25Index) (key : Bytes) :
    (index.removeDocument key).docs.length = index.docs.length ∧
      (index.removeDocument key).termPool = index.termPool ∧
      (index.removeDocument key).termIds = index.termIds ∧
      (index.removeDocument key).df = index.df ∧
      (index.removeDocument key).postings = index.postings := by
  rw [removeDocument]
  cases index.keyToDoc[key]? with
  | none => exact ⟨rfl, rfl, rfl, rfl, rfl⟩
  | some docId => exact ⟨List.length_set, rfl, rfl, rfl, rfl⟩

/-- A document is removed; its postings stay. -/
theorem Indexes.removeDocument {index : Bm25Index} {texts : List (List Bytes)}
    (h : index.Indexes texts) (key : Bytes) : (index.removeDocument key).Indexes texts := by
  obtain ⟨hdocs, hpool, hids, hdf, hpostings⟩ := index.removeDocument_frame key
  have hid : ∀ tok, (index.removeDocument key).idOf tok = index.idOf tok := by
    intro tok
    rw [idOf, idOf, hids]
  refine ⟨hdocs.trans h.docs, ⟨?_, ?_⟩, ?_, ?_, ?_, ?_⟩
  · simp only [hid, hpool]
    exact h.interned.lt
  · simp only [hid]
    exact h.interned.inj
  · simp only [hid]
    exact h.known
  · simp only [hid, hpostings]
    exact h.postings
  · intro tid
    rw [hdf, hpostings]
    exact h.df tid
  · simp only [hpool, hpostings]
    exact h.unused

/-! ### Search -/

/-- The scores by document, and the documents that have one. -/
structure Scores (F : Type) where
  scores : List F
  touched : List ℕ

theorem getD_set {α : Type} {xs : List α} {i : ℕ} (hi : i < xs.length) (x d : α) (j : ℕ) :
    (xs.set i x).getD j d = if i = j then x else xs.getD j d := by
  rw [List.getD_eq_getElem?_getD, List.getElem?_set]
  by_cases hij : i = j
  · rw [if_pos hij, if_pos hi, if_pos hij]
    rfl
  · rw [if_neg hij, if_neg hij, List.getD_eq_getElem?_getD]

/-- The keys of the results, in the order of the candidates. -/
theorem map_key_zipIdx {F : Type} (index : Bm25Index) (ranked : List (ℕ × F)) :
    (ranked.zipIdx.map fun c =>
        (⟨index.docs.getD c.1.1 [], c.1.2, c.2⟩ : Bm25Result F)).map Bm25Result.key
      = ranked.map fun c => index.docs.getD c.1 [] := by
  conv_rhs => rw [← List.zipIdx_map_fst 0 ranked, List.map_map]
  rw [List.map_map]
  rfl

section

variable {F : Type} [Field F] [LinearOrder F]

/-- The default saturation parameter. -/
def k1 : F := 3 / 2

/-- The default weight of the document length. -/
def b : F := 3 / 4

/-- The average length of the documents that are not removed. -/
def avgdl (index : Bm25Index) : F :=
  if index.activeDocs = 0 then 0 else (index.totalDocLen : F) / index.activeDocs

/-- The weight of a term that `df` of `nDocs` documents have. -/
def idf (ln : F → F) (nDocs df : ℕ) : F := ln (((nDocs : F) - df + 1 / 2) / (df + 1 / 2) + 1)

/-- What a posting adds to the score of its document. -/
def postingScore (ln : F → F) (index : Bm25Index) (df : ℕ) (p : ℕ × ℕ) : F :=
  let tf : F := p.2
  let dl : F := index.docLen.getD p.1 0
  let denom := tf + k1 * (1 - b + b * dl / max index.avgdl (1 / 10 ^ 9))
  idf ln index.docs.length df * (tf * (k1 + 1)) / denom

/-- Score one posting.  Documents that are removed are skipped. -/
def scorePosting (ln : F → F) (index : Bm25Index) (df : ℕ) (s : Scores F) (p : ℕ × ℕ) : Scores F :=
  if index.docs.getD p.1 [] = [] then s
  else
    let score := s.scores.getD p.1 0
    ⟨s.scores.set p.1 (score + postingScore ln index df p),
      if score = 0 then s.touched ++ [p.1] else s.touched⟩

/-- Score the postings of a term. -/
def scoreTerm (ln : F → F) (index : Bm25Index) (s : Scores F) (term : Bytes) : Scores F :=
  match index.termIds[term]? with
  | none => s
  | some tid =>
    match index.df[tid]?, index.postings[tid]? with
    | some df, some postings => postings.foldl (scorePosting ln index df) s
    | _, _ => s

/-- Search with a keyword query: the best results, by descending score.  Which of two
documents of the same score comes first is left open by the source. -/
def search (ln : F → F) (index : Bm25Index) (query : Bytes) (topK : ℕ) : List (Bm25Result F) :=
  if index.docs = [] ∨ topK = 0 then []
  else if tokenize query = [] then []
  else
    let s := (tokenize query).foldl (scoreTerm ln index) ⟨List.replicate index.docs.length 0, []⟩
    let candidates := s.touched.map fun docId => (docId, s.scores.getD docId 0)
    let ranked := (candidates.mergeSort fun x y => y.2 ≤ x.2).take topK
    ranked.zipIdx.map fun c => ⟨index.docs.getD c.1.1 [], c.1.2, c.2⟩

variable {ln : F → F}

/-- A document that the query finds. -/
def Found (index : Bm25Index) (texts : List (List Bytes)) (query : List Bytes) (i : ℕ) : Prop :=
  index.docs.getD i [] ≠ [] ∧ ∃ term ∈ query, term ∈ texts.getD i []

instance (index : Bm25Index) (texts : List (List Bytes)) (query : List Bytes) (i : ℕ) :
    Decidable (Found index texts query i) := inferInstanceAs (Decidable (_ ∧ _))

/-- The documents that have a score so far are those found, each once. -/
structure Tallied (index : Bm25Index) (found : ℕ → Prop) (s : Scores F) : Prop where
  length : s.scores.length = index.docs.length
  nodup : s.touched.Nodup
  touched : ∀ i, i ∈ s.touched ↔ found i
  pos : ∀ i, found i → 0 < s.scores.getD i 0
  zero : ∀ i, ¬found i → s.scores.getD i 0 = 0

theorem Tallied.congr {index : Bm25Index} {found found' : ℕ → Prop} {s : Scores F}
    (h : Tallied index found s) (hiff : ∀ i, found i ↔ found' i) : Tallied index found' s := by
  obtain rfl : found = found' := funext fun i => propext (hiff i)
  exact h

theorem Tallied.new (index : Bm25Index) :
    Tallied index (fun _ => False) (⟨List.replicate index.docs.length 0, []⟩ : Scores F) := by
  refine ⟨List.length_replicate, List.nodup_nil, by simp, fun i hi => hi.elim, fun i _ => ?_⟩
  rw [List.getD_eq_getElem?_getD, List.getElem?_replicate]
  by_cases hi : i < index.docs.length
  · rw [if_pos hi]
    rfl
  · rw [if_neg hi]
    rfl

/-- The touched documents are the found ones. -/
theorem Tallied.touched_perm {index : Bm25Index} {texts : List (List Bytes)} {query : List Bytes}
    {s : Scores F} (h : Tallied index (index.Found texts query) s) :
    s.touched.Perm ((List.range index.docs.length).filter (index.Found texts query ·)) := by
  refine (List.perm_ext_iff_of_nodup h.nodup (List.nodup_range.filter _)).mpr fun i => ?_
  rw [h.touched, List.mem_filter, List.mem_range, decide_eq_true_eq]
  refine ⟨fun hi => ⟨?_, hi⟩, fun hi => hi.2⟩
  -- a position outside has no key
  by_contra hge
  exact hi.1 (List.getD_eq_default _ _ (not_lt.mp hge))

variable [IsStrictOrderedRing F]

/-- A term that not more documents have than there are has a positive weight. -/
theorem idf_pos (hln : ∀ x, 1 < x → 0 < ln x) {nDocs df : ℕ} (h : df ≤ nDocs) :
    0 < idf ln nDocs df := by
  refine hln _ (lt_add_of_pos_left 1 (div_pos ?_ ?_))
  · have hle : (df : F) ≤ nDocs := by exact_mod_cast h
    linarith
  · have hdf : (0 : F) ≤ df := Nat.cast_nonneg df
    linarith

theorem postingScore_pos (hln : ∀ x, 1 < x → 0 < ln x) {index : Bm25Index} {df : ℕ}
    (hdf : df ≤ index.docs.length) {p : ℕ × ℕ} (hp : 0 < p.2) : 0 < postingScore ln index df p := by
  have htf : (0 : F) < p.2 := by exact_mod_cast hp
  have hmax : (0 : F) < max index.avgdl (1 / 10 ^ 9) := lt_max_of_lt_right (by positivity)
  have hlen : (0 : F) ≤ b * (index.docLen.getD p.1 0 : ℕ) / max index.avgdl (1 / 10 ^ 9) := by
    rw [b]
    positivity
  have hdenom : (0 : F) < p.2 + k1 * (1 - b + b * (index.docLen.getD p.1 0 : ℕ)
      / max index.avgdl (1 / 10 ^ 9)) := by
    refine add_pos htf (mul_pos ?_ (add_pos_of_pos_of_nonneg ?_ hlen))
    · rw [k1]
      norm_num
    · rw [b]
      norm_num
  refine div_pos (mul_pos (idf_pos hln hdf) (mul_pos htf ?_)) hdenom
  rw [k1]
  norm_num

/-- The document of a posting is found, unless it was removed. -/
theorem Tallied.scorePosting {index : Bm25Index} {found : ℕ → Prop} {s : Scores F}
    (h : Tallied index found s) {df : ℕ} {p : ℕ × ℕ} (hpos : 0 < postingScore ln index df p) :
    Tallied index (fun i => found i ∨ index.docs.getD i [] ≠ [] ∧ i = p.1)
      (scorePosting ln index df s p) := by
  rw [Bm25Index.scorePosting]
  by_cases hlive : index.docs.getD p.1 [] = []
  · rw [if_pos hlive]
    refine h.congr fun i => ⟨.inl, ?_⟩
    rintro (hi | ⟨hi, rfl⟩)
    · exact hi
    · exact absurd hlive hi
  · rw [if_neg hlive]
    have hlt : p.1 < s.scores.length := by
      rw [h.length]
      by_contra hge
      exact hlive (List.getD_eq_default _ _ (not_lt.mp hge))
    have hget := getD_set hlt (s.scores.getD p.1 0 + postingScore ln index df p) 0
    -- scores only grow, so a score of zero means that the document was not found before
    have hnonneg : 0 ≤ s.scores.getD p.1 0 := by
      by_cases hp : found p.1
      · exact (h.pos p.1 hp).le
      · exact (h.zero p.1 hp).ge
    -- a document is pushed the first time it scores
    have htouched : ∀ i, i ∈ (if s.scores.getD p.1 0 = 0 then s.touched ++ [p.1] else s.touched) ↔
        found i ∨ index.docs.getD i [] ≠ [] ∧ i = p.1 := by
      intro i
      by_cases hzero : s.scores.getD p.1 0 = 0
      · rw [if_pos hzero, List.mem_append, h.touched, List.mem_singleton]
        refine or_congr_right ⟨fun hi => ⟨?_, hi⟩, fun hi => hi.2⟩
        rw [hi]
        exact hlive
      · rw [if_neg hzero, h.touched]
        refine ⟨.inl, ?_⟩
        rintro (hi | ⟨_, rfl⟩)
        · exact hi
        · by_contra hp
          exact hzero (h.zero p.1 hp)
    have hnodup : (if s.scores.getD p.1 0 = 0 then s.touched ++ [p.1] else s.touched).Nodup := by
      by_cases hzero : s.scores.getD p.1 0 = 0
      · rw [if_pos hzero]
        refine List.nodup_append.mpr ⟨h.nodup, List.nodup_singleton p.1, ?_⟩
        intro i hi j hj heq
        rw [List.mem_singleton] at hj
        have hfound : found p.1 := (h.touched p.1).mp (hj ▸ heq ▸ hi)
        exact absurd hzero (h.pos p.1 hfound).ne'
      · rw [if_neg hzero]
        exact h.nodup
    refine ⟨List.length_set.trans h.length, hnodup, htouched, ?_, ?_⟩
    · intro i hi
      rw [hget]
      by_cases heq : p.1 = i
      · rw [if_pos heq]
        exact add_pos_of_nonneg_of_pos hnonneg hpos
      · rw [if_neg heq]
        rcases hi with hi | ⟨_, hi⟩
        · exact h.pos i hi
        · exact absurd hi.symm heq
    · intro i hi
      rw [not_or] at hi
      have heq : p.1 ≠ i := by
        rintro rfl
        exact hi.2 ⟨hlive, rfl⟩
      rw [hget, if_neg heq]
      exact h.zero i hi.1

theorem Tallied.postings {index : Bm25Index} {found : ℕ → Prop} {s : Scores F}
    (h : Tallied index found s) {df : ℕ} {ps : List (ℕ × ℕ)}
    (hpos : ∀ p ∈ ps, 0 < postingScore ln index df p) :
    Tallied index (fun i => found i ∨ index.docs.getD i [] ≠ [] ∧ ∃ n, (i, n) ∈ ps)
      (ps.foldl (Bm25Index.scorePosting ln index df) s) := by
  induction ps generalizing found s with
  | nil => exact h.congr fun i => by simp
  | cons p ps ih =>
    have hrest := ih (h.scorePosting (hpos p (by simp))) fun q hq => hpos q (by simp [hq])
    refine hrest.congr fun i => ?_
    have hcons : (∃ n, (i, n) ∈ p :: ps) ↔ i = p.1 ∨ ∃ n, (i, n) ∈ ps := by
      simp only [List.mem_cons, Prod.ext_iff, exists_or]
      refine or_congr_left ⟨fun ⟨_, hi, _⟩ => hi, fun hi => ⟨p.2, hi, rfl⟩⟩
    rw [hcons, or_assoc, ← and_or_left]

/-- A term finds the documents that have it. -/
theorem Tallied.scoreTerm (hln : ∀ x, 1 < x → 0 < ln x) {index : Bm25Index}
    {texts : List (List Bytes)} (hindex : index.Indexes texts) {found : ℕ → Prop} {s : Scores F}
    (h : Tallied index found s) (term : Bytes) :
    Tallied index (fun i => found i ∨ index.docs.getD i [] ≠ [] ∧ term ∈ texts.getD i [])
      (scoreTerm ln index s term) := by
  have htexts : ∀ {i}, (∃ n, (i, n) ∈ occurrences term texts) ↔ term ∈ texts.getD i [] := by
    intro i
    rw [List.getD_eq_getElem?_getD]
    constructor
    · rintro ⟨n, hmem⟩
      obtain ⟨text, hi, hterm, _⟩ := mem_occurrences.mp hmem
      rw [hi]
      exact hterm
    · intro hterm
      cases hi : texts[i]? with
      | none =>
        rw [hi] at hterm
        exact absurd hterm (by simp)
      | some text =>
        rw [hi] at hterm
        exact ⟨_, mem_occurrences.mpr ⟨text, hi, hterm, rfl⟩⟩
  rw [Bm25Index.scoreTerm]
  cases hid : index.termIds[term]? with
  | none =>
    -- an unknown term is in no text
    refine h.congr fun i => ⟨.inl, ?_⟩
    rintro (hi | ⟨_, hi⟩)
    · exact hi
    · obtain ⟨n, hmem⟩ := htexts.mpr hi
      obtain ⟨text, htext, hterm, _⟩ := mem_occurrences.mp hmem
      obtain ⟨tid, hknown⟩ := hindex.known text (List.mem_of_getElem? htext) term hterm
      rw [show index.idOf term = none from hid] at hknown
      exact absurd hknown (by simp)
  | some tid =>
    have hlist := hindex.postings term tid hid
    have hdf := hindex.df tid
    cases hps : index.postings[tid]? with
    | none =>
      -- the posting list is empty, and no text has the term
      rw [hps, Option.getD_none] at hlist
      simp only [hdf, hps, Option.map_none]
      refine h.congr fun i => ?_
      rw [← htexts, ← hlist]
      simp
    | some ps =>
      rw [hps, Option.getD_some] at hlist
      rw [hps, Option.map_some] at hdf
      simp only [hdf, hps]
      subst hlist
      refine (h.postings fun p hp => ?_).congr fun i => ?_
      · refine postingScore_pos hln ?_ (pos_of_mem_occurrences hp)
        rw [hindex.docs]
        exact length_occurrences_le term texts
      · rw [htexts]

theorem Tallied.scoreTerms (hln : ∀ x, 1 < x → 0 < ln x) {index : Bm25Index}
    {texts : List (List Bytes)} (hindex : index.Indexes texts) {found : ℕ → Prop} {s : Scores F}
    (h : Tallied index found s) (query : List Bytes) :
    Tallied index (fun i => found i ∨ index.Found texts query i)
      (query.foldl (Bm25Index.scoreTerm ln index) s) := by
  induction query generalizing found s with
  | nil => exact h.congr fun i => by simp [Found]
  | cons term query ih =>
    refine (ih (h.scoreTerm hln hindex term)).congr fun i => ?_
    rw [Found, Found, or_assoc, ← and_or_left, List.exists_mem_cons_iff]

/-- **A search** whose limit is not below the number of matches returns the keys of the
documents that have a token of the query and are not removed, each document once. -/
theorem search_keys_of_fits (hln : ∀ x, 1 < x → 0 < ln x) {index : Bm25Index}
    {texts : List (List Bytes)} (hindex : index.Indexes texts) (query : Bytes) {topK : ℕ}
    (htop : ((List.range index.docs.length).filter
      (index.Found texts (tokenize query) ·)).length ≤ topK) :
    ((index.search ln query topK).map Bm25Result.key).Perm
      (((List.range index.docs.length).filter (index.Found texts (tokenize query) ·)).map
        fun i => index.docs.getD i []) := by
  rw [search]
  by_cases hempty : index.docs = [] ∨ topK = 0
  · have hnone : (List.range index.docs.length).filter
        (index.Found texts (tokenize query) ·) = [] := by
      rcases hempty with hnil | rfl
      · rw [hnil]
        rfl
      · exact List.length_eq_zero_iff.mp (Nat.le_zero.mp htop)
    rw [if_pos hempty, hnone]
    exact List.Perm.refl _
  · rw [if_neg hempty]
    by_cases hquery : tokenize query = []
    · have hnone : (List.range index.docs.length).filter (index.Found texts [] ·) = [] :=
        List.filter_eq_nil_iff.mpr fun i _ => by simp [Found]
      rw [if_pos hquery, hquery, hnone]
      exact List.Perm.refl _
    · rw [if_neg hquery]
      simp only
      have htallied := ((Tallied.new index).scoreTerms hln hindex (tokenize query)).congr
        fun i => Iff.of_eq (false_or _)
      generalize (tokenize query).foldl (Bm25Index.scoreTerm ln index) _ = s at htallied ⊢
      -- all candidates fit, so the sort and the cut only permute them
      have htouched := htallied.touched_perm
      have hfits : ((s.touched.map fun docId => (docId, s.scores.getD docId 0)).mergeSort
          fun x y => y.2 ≤ x.2).length ≤ topK := by
        rw [List.length_mergeSort, List.length_map, htouched.length_eq]
        exact htop
      rw [List.take_of_length_le hfits, map_key_zipIdx]
      refine ((List.mergeSort_perm _ _).map _).trans ?_
      rw [List.map_map]
      exact htouched.map _

/-- A limit that is not below the number of documents is enough. -/
theorem search_keys (hln : ∀ x, 1 < x → 0 < ln x) {index : Bm25Index} {texts : List (List Bytes)}
    (hindex : index.Indexes texts) (query : Bytes) {topK : ℕ} (htop : index.docs.length ≤ topK) :
    ((index.search ln query topK).map Bm25Result.key).Perm
      (((List.range index.docs.length).filter (index.Found texts (tokenize query) ·)).map
        fun i => index.docs.getD i []) := by
  refine search_keys_of_fits hln hindex query ?_
  have hle := List.length_filter_le (index.Found texts (tokenize query) ·)
    (List.range index.docs.length)
  rw [List.length_range] at hle
  exact hle.trans htop

omit [IsStrictOrderedRing F] in
/-- The ranks are the places in the results. -/
theorem search_ranks (index : Bm25Index) (query : Bytes) (topK : ℕ) :
    (index.search ln query topK).map Bm25Result.rank
      = List.range (index.search ln query topK).length := by
  rw [search]
  split
  · rfl
  · split
    · rfl
    · simp only [List.map_map, List.length_map, List.length_zipIdx]
      rw [List.range_eq_range']
      exact List.zipIdx_map_snd 0 _

end

end Bm25Index

end Uldb
