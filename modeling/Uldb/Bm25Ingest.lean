/-
The three ways into the keyword index (`add_document`, `add_document_parts` and
`add_document_direct` in `index/bm25.rs`).

Two of them sort the tokens of a document and index one run of equal tokens after another; the
third counts the tokens as they come, and indexes each term afterwards.  To index the runs is to
count the sorted tokens one by one (`addSorted_eq`), so the three ways differ in the order of
the tokens only, and this order decides nothing but the numbers of new terms.

* `tokenize_append` — a blank between two texts separates their tokens;
* `Holds.contents` — what an index holds of a term, whatever its number is;
* `ingest_agree` — after any calls, a document added in any of the three ways leads to the same
  contents and the same searches.
-/
import Uldb.Bm25
import Uldb.Lib.Runs

namespace Uldb

open Postings Runs

/-! ### Two texts -/

/-- Outside a token the byte before does not matter. -/
theorem tokensFrom_prev (buf : Bytes) (prev prev' : Option UInt8) (text : Bytes) :
    tokensFrom buf prev false text = tokensFrom buf prev' false text := by
  cases text with
  | nil => rfl
  | cons b text => simp only [tokensFrom, Bool.and_false, Bool.false_and]

theorem tokensFrom_append {buf : Bytes} {prev : Option UInt8} {inToken : Bool}
    (hbuf : inToken = false → buf = []) (text text' : Bytes) :
    tokensFrom buf prev inToken (text ++ 32 :: text')
      = tokensFrom buf prev inToken text ++ tokenize text' := by
  induction text generalizing buf prev inToken with
  | nil =>
    have hupper : isAsciiUppercase 32 = false := by decide
    have halnum : isAsciiAlphanumeric 32 = false := by decide
    rw [List.nil_append, tokensFrom, tokensFrom]
    simp only [hupper, halnum, Bool.false_and, Bool.false_eq_true, if_false, List.nil_append]
    cases inToken with
    | true =>
      rw [if_pos rfl, tokensFrom_prev [] (some 32) none]
      rfl
    | false =>
      rw [hbuf rfl, if_neg (by simp), tokensFrom_prev [] (some 32) none]
      rfl
  | cons b text ih =>
    rw [List.cons_append, tokensFrom, tokensFrom, List.append_assoc]
    generalize hboundary : (isAsciiUppercase b && inToken
      && (prev.map isAsciiLowercase).getD false) = boundary
    congr 1
    by_cases halnum : isAsciiAlphanumeric b = true
    · rw [if_pos halnum, if_pos halnum, ih (by simp)]
    · rw [if_neg halnum, if_neg halnum]
      cases inToken with
      | true => rw [if_pos rfl, if_pos rfl, List.append_assoc, ih (fun _ => rfl)]
      | false =>
        -- the buffer is empty between two tokens
        obtain rfl : false = boundary := by simpa using hboundary
        simp only [Bool.false_eq_true, if_false]
        exact ih fun _ => hbuf rfl

/-- **A blank separates** the tokens of two texts. -/
theorem tokenize_append (text text' : Bytes) :
    tokenize (text ++ [32] ++ text') = tokenize text ++ tokenize text' := by
  rw [List.append_assoc]
  exact tokensFrom_append (fun _ => rfl) text text'

namespace Bm25Index

/-! ### The two other ways -/

/-- The id of a term, which is a new one if the term has none. -/
def intern (index : Bm25Index) (token : Bytes) : Bm25Index × ℕ :=
  match index.termIds[token]? with
  | some tid => (index, tid)
  | none => (index.addTerm token, index.termPool)

/-- Index a run of equal tokens; the ids of the terms so far. -/
def indexRun (docId : ℕ) (s : Bm25Index × List ℕ) (run : Bytes × ℕ) : Bm25Index × List ℕ :=
  let (index, tid) := s.1.intern run.1
  (addPosting docId index (tid, run.2), s.2 ++ [tid])

/-- `sort_unstable`: identical tokens are adjacent afterwards. -/
def sortTokens (toks : List Bytes) : List Bytes := toks.mergeSort fun a b => (compare a b).isLE

/-- Sort the tokens of a document, and index the runs. -/
def addSorted (index : Bm25Index) (key : Bytes) (tokens : List Bytes) : Bm25Index :=
  let docId := index.docs.length
  let index := { index with
    keyToDoc := index.keyToDoc.insert key docId
    docs := index.docs ++ [key]
    docLen := index.docLen ++ [tokens.length] }
  let (index, termIds) := (runs (sortTokens tokens)).foldl (indexRun docId) (index, [])
  { index with
    docTerms := index.docTerms ++ [termIds]
    totalDocLen := index.totalDocLen + tokens.length
    activeDocs := index.activeDocs + 1 }

/-- Add one document to the index. -/
def addDocument (index : Bm25Index) (key content : Bytes) : Bm25Index :=
  index.addSorted key (tokenize content)

/-- Index a document from key and value text parts. -/
def addDocumentParts (index : Bm25Index) (key keyText valueText : Bytes) : Bm25Index :=
  index.addSorted key (tokenize keyText ++ tokenize valueText)

/-! ### Runs are counted tokens -/

theorem intern_eq_of_idOf {index : Bm25Index} {tok : Bytes} {tid : ℕ}
    (hid : index.idOf tok = some tid) : index.intern tok = (index, tid) := by
  have hid' : index.termIds[tok]? = some tid := hid
  rw [intern, hid']

theorem intern_eq_addTerm {index : Bm25Index} {tok : Bytes} (hid : index.idOf tok = none) :
    index.intern tok = (index.addTerm tok, index.termPool) := by
  have hid' : index.termIds[tok]? = none := hid
  rw [intern, hid']

theorem idOf_intern (index : Bm25Index) (tok : Bytes) :
    (index.intern tok).1.idOf tok = some (index.intern tok).2 := by
  cases hid : index.idOf tok with
  | some tid => rw [intern_eq_of_idOf hid, hid]
  | none => rw [intern_eq_addTerm hid, idOf_addTerm, if_pos rfl]

theorem TokenState.token_eq (s : TokenState) (tok : Bytes) :
    s.token tok = ⟨(s.index.intern tok).1, countTerm (s.index.intern tok).2 s.termFreq, [],
      s.totalTokens + 1⟩ := by
  rw [token, internAndCount]
  cases hid : s.index.termIds[tok]? with
  | some tid => rw [intern_eq_of_idOf hid]
  | none => rw [intern_eq_addTerm hid, addTerm]

/-- Postings and terms do not touch each other. -/
theorem intern_foldl_addPosting (termFreq : List (ℕ × ℕ)) (docId : ℕ) (index : Bm25Index)
    (tok : Bytes) : (termFreq.foldl (addPosting docId) index).intern tok
      = (termFreq.foldl (addPosting docId) (index.intern tok).1, (index.intern tok).2) := by
  induction termFreq generalizing index with
  | nil => rfl
  | cons p rest ih =>
    have hstep : (addPosting docId index p).intern tok
        = (addPosting docId (index.intern tok).1 p, (index.intern tok).2) := by
      cases hid : index.idOf tok with
      | some tid =>
        rw [intern_eq_of_idOf hid]
        exact intern_eq_of_idOf hid
      | none =>
        rw [intern_eq_addTerm hid]
        exact intern_eq_addTerm hid
    rw [List.foldl_cons, List.foldl_cons, ih, hstep]

theorem countTerm_of_not_mem {tid : ℕ} {termFreq : List (ℕ × ℕ)}
    (h : tid ∉ termFreq.map Prod.fst) : countTerm tid termFreq = termFreq ++ [(tid, 1)] := by
  induction termFreq with
  | nil => rfl
  | cons p rest ih =>
    obtain ⟨t, n⟩ := p
    rw [List.map_cons, List.mem_cons, not_or] at h
    have hne : t ≠ tid := fun heq => h.1 heq.symm
    rw [countTerm, if_neg hne, ih h.2, List.cons_append]

theorem countTerm_concat {tid n : ℕ} {termFreq : List (ℕ × ℕ)}
    (h : tid ∉ termFreq.map Prod.fst) :
    countTerm tid (termFreq ++ [(tid, n)]) = termFreq ++ [(tid, n + 1)] := by
  induction termFreq with
  | nil => simp [countTerm]
  | cons p rest ih =>
    obtain ⟨t, m⟩ := p
    rw [List.map_cons, List.mem_cons, not_or] at h
    have hne : t ≠ tid := fun heq => h.1 heq.symm
    rw [List.cons_append, countTerm, if_neg hne, ih h.2, List.cons_append]

theorem freqOf_pos {termFreq : List (ℕ × ℕ)} (h : Counting termFreq) {tid : ℕ}
    (hmem : tid ∈ termFreq.map Prod.fst) : 0 < freqOf tid termFreq := by
  induction termFreq with
  | nil => exact absurd hmem List.not_mem_nil
  | cons p rest ih =>
    obtain ⟨t, n⟩ := p
    rw [freqOf]
    by_cases ht : t = tid
    · rw [if_pos ht]
      exact h.2 (t, n) List.mem_cons_self
    · rw [if_neg ht]
      rw [List.map_cons, List.mem_cons] at hmem
      rcases hmem with heq | hmem
      · exact absurd heq.symm ht
      · exact ih ⟨(List.nodup_cons.mp h.1).2, fun p hp => h.2 p (List.mem_cons_of_mem _ hp)⟩ hmem

/-- A token that has not come yet has an id that has not been counted. -/
theorem Counted.fresh {index : Bm25Index} {toks : List Bytes} {s : TokenState}
    (h : Counted index toks s) {tok : Bytes} (htok : tok ∉ toks) :
    (s.index.intern tok).2 ∉ s.termFreq.map Prod.fst := by
  intro hmem
  cases hid : s.index.idOf tok with
  | some tid =>
    rw [intern_eq_of_idOf hid] at hmem
    have hpos := freqOf_pos h.counting hmem
    rw [h.counts tok tid hid, List.count_eq_zero.mpr htok] at hpos
    omega
  | none =>
    rw [intern_eq_addTerm hid] at hmem
    obtain ⟨p, hp, heq⟩ := List.mem_map.mp hmem
    have hlt := h.lt p hp
    simp only at heq
    omega

/-- The tokens of a run are counted as one entry. -/
theorem Counted.iterate_token {index : Bm25Index} {toks : List Bytes} {s : TokenState}
    (h : Counted index toks s) {tok : Bytes} (htok : tok ∉ toks) (n : ℕ) :
    (fun s => TokenState.token s tok)^[n + 1] s
      = ⟨(s.index.intern tok).1, s.termFreq ++ [((s.index.intern tok).2, n + 1)], [],
        s.totalTokens + (n + 1)⟩ := by
  have hfresh := h.fresh htok
  induction n with
  | zero =>
    rw [Function.iterate_one, TokenState.token_eq, countTerm_of_not_mem hfresh]
  | succ n ih =>
    -- the term is known now, and its entry is the last one
    rw [Function.iterate_succ_apply', ih, TokenState.token_eq]
    simp only [intern_eq_of_idOf (idOf_intern s.index tok), countTerm_concat hfresh]
    rfl

/-- **To index runs is to count their tokens** and to index the terms afterwards. -/
theorem foldl_indexRun (docId : ℕ) {index : Bm25Index} {rs : List (Bytes × ℕ)}
    (hnodup : (rs.map Prod.fst).Nodup) (hpos : ∀ run ∈ rs, 0 < run.2) {toks : List Bytes}
    {s : TokenState} (h : Counted index toks s) (hnew : ∀ run ∈ rs, run.1 ∉ toks) :
    ∃ s', s' = rs.foldl (fun s run => (fun s => TokenState.token s run.1)^[run.2] s) s ∧
      rs.foldl (indexRun docId) (s.termFreq.foldl (addPosting docId) s.index,
          s.termFreq.map Prod.fst)
        = (s'.termFreq.foldl (addPosting docId) s'.index, s'.termFreq.map Prod.fst) := by
  induction rs generalizing toks s with
  | nil => exact ⟨s, rfl, rfl⟩
  | cons run rs ih =>
    obtain ⟨tok, m⟩ := run
    obtain ⟨n, rfl⟩ : ∃ n, m = n + 1 :=
      ⟨m - 1, (Nat.succ_pred_eq_of_pos (hpos (tok, m) List.mem_cons_self)).symm⟩
    rw [List.map_cons, List.nodup_cons] at hnodup
    have htok : tok ∉ toks := hnew (tok, n + 1) List.mem_cons_self
    have hs := h.iterate_token htok n
    have hcounted := h.tokens (List.replicate (n + 1) tok)
    rw [foldl_replicate_eq] at hcounted
    obtain ⟨s', hs', hfold⟩ := ih hnodup.2 (fun run hrun => hpos run (List.mem_cons_of_mem _ hrun))
      hcounted fun run hrun hmem => by
        rcases List.mem_append.mp hmem with hmem | hmem
        · exact hnew run (List.mem_cons_of_mem _ hrun) hmem
        · exact hnodup.1 (List.mem_map.mpr ⟨run, hrun, List.eq_of_mem_replicate hmem⟩)
    refine ⟨s', hs', ?_⟩
    rw [List.foldl_cons, ← hfold, hs]
    congr 1
    rw [indexRun]
    simp only [intern_foldl_addPosting, List.foldl_append, List.foldl_cons, List.foldl_nil,
      List.map_append, List.map_cons, List.map_nil]

/-! ### The sizes of documents -/

/-- What a token leaves alone. -/
theorem foldl_token_frame (toks : List Bytes) (s : TokenState) :
    (toks.foldl TokenState.token s).index.docLen = s.index.docLen ∧
      (toks.foldl TokenState.token s).index.totalDocLen = s.index.totalDocLen ∧
      (toks.foldl TokenState.token s).index.activeDocs = s.index.activeDocs ∧
      (toks.foldl TokenState.token s).totalTokens = s.totalTokens + toks.length := by
  induction toks generalizing s with
  | nil => exact ⟨rfl, rfl, rfl, rfl⟩
  | cons tok toks ih =>
    have hintern : (s.index.intern tok).1.docLen = s.index.docLen ∧
        (s.index.intern tok).1.totalDocLen = s.index.totalDocLen ∧
        (s.index.intern tok).1.activeDocs = s.index.activeDocs := by
      cases hid : s.index.idOf tok with
      | some tid =>
        rw [intern_eq_of_idOf hid]
        exact ⟨rfl, rfl, rfl⟩
      | none =>
        rw [intern_eq_addTerm hid]
        exact ⟨rfl, rfl, rfl⟩
    obtain ⟨hlen, htotal, hactive, htokens⟩ := ih (s.token tok)
    rw [TokenState.token_eq] at hlen htotal hactive htokens
    rw [List.foldl_cons, TokenState.token_eq, List.length_cons]
    refine ⟨hlen.trans hintern.1, htotal.trans hintern.2.1, hactive.trans hintern.2.2, ?_⟩
    rw [htokens]
    simp only
    omega

theorem foldl_addPosting_sizes (termFreq : List (ℕ × ℕ)) (docId : ℕ) (index : Bm25Index) :
    (termFreq.foldl (addPosting docId) index).docLen = index.docLen ∧
      (termFreq.foldl (addPosting docId) index).totalDocLen = index.totalDocLen ∧
      (termFreq.foldl (addPosting docId) index).activeDocs = index.activeDocs := by
  induction termFreq generalizing index with
  | nil => exact ⟨rfl, rfl, rfl⟩
  | cons p rest ih => exact ih (addPosting docId index p)

/-- The sizes after a document of some tokens. -/
theorem addTokens_sizes (index : Bm25Index) (key : Bytes) (toks : List Bytes) :
    (index.addTokens key toks).docLen = index.docLen ++ [toks.length] ∧
      (index.addTokens key toks).totalDocLen = index.totalDocLen + toks.length ∧
      (index.addTokens key toks).activeDocs = index.activeDocs + 1 := by
  obtain ⟨hlen, htotal, hactive, htokens⟩ := foldl_token_frame toks ⟨index.addKey key, [], [], 0⟩
  obtain ⟨hlen', htotal', hactive'⟩ := foldl_addPosting_sizes (index.tokensState key toks).termFreq
    index.docs.length (index.tokensState key toks).index
  have hcount : (index.tokensState key toks).totalTokens = toks.length :=
    htokens.trans (Nat.zero_add _)
  rw [addTokens]
  simp only [hcount, hlen', htotal', hactive']
  rw [tokensState, hlen, htotal, hactive]
  exact ⟨rfl, rfl, rfl⟩

/-- The runs of a document do not touch the sizes. -/
theorem foldl_indexRun_docLen (docId : ℕ) (rs : List (Bytes × ℕ)) (s : Bm25Index × List ℕ)
    (lens : List ℕ) :
    rs.foldl (indexRun docId) ({ s.1 with docLen := lens }, s.2)
      = ({ (rs.foldl (indexRun docId) s).1 with docLen := lens },
        (rs.foldl (indexRun docId) s).2) := by
  induction rs generalizing s with
  | nil => rfl
  | cons run rs ih =>
    have hstep : indexRun docId ({ s.1 with docLen := lens }, s.2) run
        = ({ (indexRun docId s run).1 with docLen := lens }, (indexRun docId s run).2) := by
      rw [indexRun, indexRun]
      cases hid : s.1.idOf run.1 with
      | some tid =>
        have hid' : ({ s.1 with docLen := lens } : Bm25Index).idOf run.1 = some tid := hid
        rw [intern_eq_of_idOf hid, intern_eq_of_idOf hid']
        rfl
      | none =>
        have hid' : ({ s.1 with docLen := lens } : Bm25Index).idOf run.1 = none := hid
        rw [intern_eq_addTerm hid, intern_eq_addTerm hid']
        rfl
    rw [List.foldl_cons, List.foldl_cons, hstep, ih]

theorem sortTokens_perm (toks : List Bytes) : (sortTokens toks).Perm toks :=
  List.mergeSort_perm _ _

theorem pairwise_sortTokens (toks : List Bytes) :
    (sortTokens toks).Pairwise fun a b => (compare a b).isLE = true := by
  refine List.pairwise_mergeSort (fun a b c hab hbc => ?_) (fun a b => ?_) toks
  · exact Std.TransCmp.isLE_trans hab hbc
  · have hswap : compare b a = (compare a b).swap := Std.OrientedCmp.eq_swap
    rw [hswap]
    cases compare a b <;> rfl

/-- **To index the sorted runs** is to index the sorted tokens in their order. -/
theorem addSorted_eq {index : Bm25Index} (h : index.Interned) (key : Bytes) (toks : List Bytes) :
    index.addSorted key toks = index.addTokens key (sortTokens toks) := by
  have hstart : Counted (index.addKey key) [] ⟨index.addKey key, [], [], 0⟩ :=
    ⟨.refl _, ⟨h.lt, h.inj⟩, by simp, ⟨by simp, by simp⟩, by simp, by simp [freqOf]⟩
  have hanti : ∀ a b : Bytes, (compare a b).isLE = true → (compare b a).isLE = true → a = b :=
    fun a b hab hba => Std.LawfulEqCmp.eq_of_compare (Std.OrientedCmp.isLE_antisymm hab hba)
  obtain ⟨s, hs, hfold⟩ := foldl_indexRun index.docs.length
    (nodup_runs hanti (pairwise_sortTokens toks)) (fun run => pos_of_mem_runs) hstart (by simp)
  rw [← foldl_runs] at hs
  have hstate : s = index.tokensState key (sortTokens toks) := hs
  obtain ⟨hlen, _, _, htokens⟩ := foldl_token_frame (sortTokens toks) ⟨index.addKey key, [], [], 0⟩
  rw [← hs] at hlen htokens
  obtain ⟨hlen', _, _⟩ := foldl_addPosting_sizes s.termFreq index.docs.length s.index
  have hlength : s.totalTokens = toks.length := by
    rw [htokens, (sortTokens_perm toks).length_eq]
    exact Nat.zero_add _
  have hdocLen : (s.termFreq.foldl (addPosting index.docs.length) s.index).docLen = index.docLen :=
    hlen'.trans hlen
  -- the length of the document is pushed before the runs, and not read by them
  have hruns := foldl_indexRun_docLen index.docs.length (runs (sortTokens toks))
    (index.addKey key, []) (index.docLen ++ [toks.length])
  have hfold' : (runs (sortTokens toks)).foldl (indexRun index.docs.length) (index.addKey key, [])
      = (s.termFreq.foldl (addPosting index.docs.length) s.index, s.termFreq.map Prod.fst) := hfold
  have hadd : index.addSorted key toks =
      let r := (runs (sortTokens toks)).foldl (indexRun index.docs.length)
        ({ index.addKey key with docLen := index.docLen ++ [toks.length] }, [])
      { r.1 with
        docTerms := r.1.docTerms ++ [r.2]
        totalDocLen := r.1.totalDocLen + toks.length
        activeDocs := r.1.activeDocs + 1 } := rfl
  rw [hadd, hruns, hfold', addTokens, ← hstate]
  simp only [hdocLen, hlength]

/-! ### Contents -/

/-- The document frequency of a term. -/
def dfOf (index : Bm25Index) (tok : Bytes) : Option ℕ :=
  (index.idOf tok).bind fun tid => index.df[tid]?

/-- The postings of a term. -/
def postingsOf (index : Bm25Index) (tok : Bytes) : Option (List (ℕ × ℕ)) :=
  (index.idOf tok).bind fun tid => index.postings[tid]?

/-- The same contents, whatever the numbers of the terms are. -/
structure SameContents (index index' : Bm25Index) : Prop where
  docs : index.docs = index'.docs
  keyToDoc : index.keyToDoc = index'.keyToDoc
  docLen : index.docLen = index'.docLen
  totalDocLen : index.totalDocLen = index'.totalDocLen
  activeDocs : index.activeDocs = index'.activeDocs
  dfOf : ∀ tok, index.dfOf tok = index'.dfOf tok
  postingsOf : ∀ tok, index.postingsOf tok = index'.postingsOf tok

/-- An index of some texts that knows no other terms than theirs. -/
structure Holds (index : Bm25Index) (texts : List (List Bytes)) : Prop extends
    Indexes index texts where
  terms : ∀ tok tid, index.idOf tok = some tid → ∃ text ∈ texts, tok ∈ text

theorem idOf_foldl_token {toks : List Bytes} {s : TokenState} {tok : Bytes} {tid : ℕ}
    (h : (toks.foldl TokenState.token s).index.idOf tok = some tid) :
    (∃ tid', s.index.idOf tok = some tid') ∨ tok ∈ toks := by
  induction toks generalizing s with
  | nil => exact .inl ⟨tid, h⟩
  | cons t toks ih =>
    rcases ih h with ⟨tid', hid'⟩ | hmem
    · rw [TokenState.token_eq] at hid'
      cases hid : s.index.idOf t with
      | some tid₀ =>
        simp only [intern_eq_of_idOf hid] at hid'
        exact .inl ⟨tid', hid'⟩
      | none =>
        simp only [intern_eq_addTerm hid, idOf_addTerm] at hid'
        by_cases heq : t = tok
        · exact .inr (heq ▸ List.mem_cons_self)
        · rw [if_neg heq] at hid'
          exact .inl ⟨tid', hid'⟩
    · exact .inr (List.mem_cons_of_mem _ hmem)

theorem holds_new : Holds new [] :=
  ⟨new_indexes, fun tok tid hid => absurd hid (by simp [idOf, new])⟩

theorem Holds.addTokens {index : Bm25Index} {texts : List (List Bytes)} (h : index.Holds texts)
    (key : Bytes) (toks : List Bytes) : (index.addTokens key toks).Holds (texts ++ [toks]) := by
  refine ⟨h.toIndexes.addTokens key toks, fun tok tid hid => ?_⟩
  obtain ⟨_, _, _, hids⟩ := foldl_addPosting_frame (index.tokensState key toks).termFreq
    index.docs.length (index.tokensState key toks).index
  have hid' : (index.tokensState key toks).index.idOf tok = some tid := by
    rw [idOf, ← hids]
    exact hid
  rcases idOf_foldl_token hid' with ⟨tid', hold⟩ | hmem
  · obtain ⟨text, htext, htok⟩ := h.terms tok tid' hold
    exact ⟨text, List.mem_append_left _ htext, htok⟩
  · exact ⟨toks, by simp, hmem⟩

theorem Holds.removeDocument {index : Bm25Index} {texts : List (List Bytes)}
    (h : index.Holds texts) (key : Bytes) : (index.removeDocument key).Holds texts := by
  refine ⟨h.toIndexes.removeDocument key, fun tok tid hid => h.terms tok tid ?_⟩
  obtain ⟨_, _, hids, _, _⟩ := index.removeDocument_frame key
  rw [idOf, hids] at hid
  exact hid

/-- **What an index holds of a term**: its posting list over the texts, if it is in one. -/
theorem Holds.contents {index : Bm25Index} {texts : List (List Bytes)} (h : index.Holds texts)
    (tok : Bytes) :
    index.postingsOf tok
        = (if occurrences tok texts = [] then none else some (occurrences tok texts)) ∧
      index.dfOf tok = (index.postingsOf tok).map List.length := by
  have hsome : ∀ text ∈ texts, tok ∈ text → occurrences tok texts ≠ [] := by
    intro text htext htok hnil
    obtain ⟨i, hi⟩ := List.getElem?_of_mem htext
    have hmem := mem_occurrences.mpr ⟨text, hi, htok, rfl⟩
    rw [hnil] at hmem
    exact absurd hmem List.not_mem_nil
  rw [postingsOf, dfOf]
  cases hid : index.idOf tok with
  | none =>
    -- an unknown term is in no text
    have hnil : occurrences tok texts = [] := by
      rw [List.eq_nil_iff_forall_not_mem]
      rintro ⟨i, n⟩ hmem
      obtain ⟨text, hi, htok, _⟩ := mem_occurrences.mp hmem
      obtain ⟨tid, hknown⟩ := h.known text (List.mem_of_getElem? hi) tok htok
      exact absurd (hid.symm.trans hknown) (by simp)
    rw [if_pos hnil]
    exact ⟨rfl, rfl⟩
  | some tid =>
    obtain ⟨text, htext, htok⟩ := h.terms tok tid hid
    have hlist := h.postings tok tid hid
    rw [if_neg (hsome text htext htok), Option.bind_some, Option.bind_some, h.df tid]
    cases hps : index.postings[tid]? with
    | none =>
      rw [hps, Option.getD_none] at hlist
      exact absurd hlist.symm (hsome text htext htok)
    | some ps =>
      rw [hps, Option.getD_some] at hlist
      exact ⟨congrArg some hlist, rfl⟩

/-- The order of the tokens of a document does not matter. -/
theorem Holds.addTokens_perm {index : Bm25Index} {texts : List (List Bytes)}
    (h : index.Holds texts) (key : Bytes) {toks toks' : List Bytes} (hperm : toks.Perm toks') :
    SameContents (index.addTokens key toks) (index.addTokens key toks') := by
  obtain ⟨hdocs, hkeys⟩ := docs_addTokens h.interned key toks
  obtain ⟨hdocs', hkeys'⟩ := docs_addTokens h.interned key toks'
  obtain ⟨hlen, htotal, hactive⟩ := index.addTokens_sizes key toks
  obtain ⟨hlen', htotal', hactive'⟩ := index.addTokens_sizes key toks'
  rw [hperm.length_eq] at hlen htotal
  have hocc : ∀ tok, occurrences tok (texts ++ [toks]) = occurrences tok (texts ++ [toks']) := by
    intro tok
    rw [occurrences_concat, occurrences_concat, hperm.count_eq]
  have hpost : ∀ tok,
      (index.addTokens key toks).postingsOf tok = (index.addTokens key toks').postingsOf tok := by
    intro tok
    rw [((h.addTokens key toks).contents tok).1, ((h.addTokens key toks').contents tok).1, hocc]
  refine ⟨hdocs.trans hdocs'.symm, hkeys.trans hkeys'.symm, hlen.trans hlen'.symm,
    htotal.trans htotal'.symm, hactive.trans hactive'.symm, fun tok => ?_, hpost⟩
  rw [((h.addTokens key toks).contents tok).2, ((h.addTokens key toks').contents tok).2, hpost]

section

variable {F : Type} [Field F] [LinearOrder F]

/-- Of a term, a search reads the document frequency and the postings. -/
theorem scoreTerm_eq (ln : F → F) (index : Bm25Index) (s : Scores F) (term : Bytes) :
    scoreTerm ln index s term = ((index.dfOf term).bind fun df => (index.postingsOf term).map
      fun postings => postings.foldl (scorePosting ln index df) s).getD s := by
  rw [scoreTerm, dfOf, postingsOf, idOf]
  cases index.termIds[term]? with
  | none => rfl
  | some tid =>
    simp only [Option.bind_some]
    cases index.df[tid]? with
    | none => rfl
    | some df => cases index.postings[tid]? <;> rfl

/-- **Indexes with the same contents** have the same searches. -/
theorem SameContents.search {index index' : Bm25Index} (h : SameContents index index')
    (ln : F → F) (query : Bytes) (topK : ℕ) :
    index.search ln query topK = index'.search ln query topK := by
  have hposting : scorePosting ln index = scorePosting ln index' := by
    funext df s p
    rw [scorePosting, scorePosting, postingScore, postingScore, avgdl, avgdl, h.docs, h.docLen,
      h.totalDocLen, h.activeDocs]
  have hterm : scoreTerm ln index = scoreTerm ln index' := by
    funext s term
    rw [scoreTerm_eq, scoreTerm_eq, h.dfOf, h.postingsOf, hposting]
  rw [Bm25Index.search, Bm25Index.search, h.docs, hterm]

end

end Bm25Index

/-! ### Calls -/

/-- A call that changes a keyword index. -/
inductive Bm25Call where
  | addDocument (key content : Bytes)
  | addDocumentParts (key keyText valueText : Bytes)
  | addDocumentDirect (key keyText valueText : Bytes)
  | removeDocument (key : Bytes)

namespace Bm25Index

/-- The index after a call. -/
def call (index : Bm25Index) : Bm25Call → Bm25Index
  | .addDocument key content => index.addDocument key content
  | .addDocumentParts key keyText valueText => index.addDocumentParts key keyText valueText
  | .addDocumentDirect key keyText valueText => index.addDocumentDirect key keyText valueText
  | .removeDocument key => index.removeDocument key

theorem Holds.addSorted {index : Bm25Index} {texts : List (List Bytes)} (h : index.Holds texts)
    (key : Bytes) (toks : List Bytes) :
    (index.addSorted key toks).Holds (texts ++ [sortTokens toks]) := by
  rw [addSorted_eq h.interned]
  exact h.addTokens key (sortTokens toks)

theorem Holds.call {index : Bm25Index} {texts : List (List Bytes)} (h : index.Holds texts)
    (c : Bm25Call) : ∃ texts', (index.call c).Holds texts' := by
  cases c with
  | addDocument key content => exact ⟨_, h.addSorted key (tokenize content)⟩
  | addDocumentParts key keyText valueText =>
    exact ⟨_, h.addSorted key (tokenize keyText ++ tokenize valueText)⟩
  | addDocumentDirect key keyText valueText =>
    rw [Bm25Index.call, addDocumentDirect_eq_addTokens]
    exact ⟨_, h.addTokens key (docTokens keyText valueText)⟩
  | removeDocument key => exact ⟨texts, h.removeDocument key⟩

theorem holds_of_calls (calls : List Bm25Call) : ∃ texts, (calls.foldl call new).Holds texts := by
  induction calls using List.reverseRecOn with
  | nil => exact ⟨[], holds_new⟩
  | append_singleton calls c ih =>
    obtain ⟨texts, hholds⟩ := ih
    rw [List.foldl_append]
    exact hholds.call c

/-- **The three ways agree**: after any calls, they lead to the same contents, and to the same
results of every search. -/
theorem ingest_agree {F : Type} [Field F] [LinearOrder F] (ln : F → F) (calls : List Bm25Call)
    (key keyText valueText : Bytes) :
    let index := calls.foldl call new
    SameContents (index.addDocument key (keyText ++ [32] ++ valueText))
        (index.addDocumentDirect key keyText valueText) ∧
      SameContents (index.addDocumentParts key keyText valueText)
        (index.addDocumentDirect key keyText valueText) ∧
      ∀ query topK,
        (index.addDocument key (keyText ++ [32] ++ valueText)).search ln query topK
            = (index.addDocumentDirect key keyText valueText).search ln query topK ∧
          (index.addDocumentParts key keyText valueText).search ln query topK
            = (index.addDocumentDirect key keyText valueText).search ln query topK := by
  intro index
  obtain ⟨texts, hholds⟩ := holds_of_calls calls
  have hparts : SameContents (index.addDocumentParts key keyText valueText)
      (index.addDocumentDirect key keyText valueText) := by
    rw [addDocumentParts, addSorted_eq hholds.interned, addDocumentDirect_eq_addTokens]
    exact hholds.addTokens_perm key (sortTokens_perm _)
  have hone : index.addDocument key (keyText ++ [32] ++ valueText)
      = index.addDocumentParts key keyText valueText := by
    rw [addDocument, addDocumentParts, tokenize_append]
  rw [hone]
  exact ⟨hparts, hparts, fun query topK => ⟨hparts.search ln query topK,
    hparts.search ln query topK⟩⟩

end Bm25Index

end Uldb
