/-
What `tokenize` (`index/bm25.rs`) makes of a text.

The loop carries a buffer, a flag and the byte before.  All it does with them is to cut the
sequence of the ASCII letters and digits of the text wherever two of them are not next to each
other, or an uppercase letter follows a lowercase one.

* `tokensFrom_eq`, `tokenize_eq_splitBy` — the loop cuts this sequence;
* `tokenize_intercalate` — tokens joined by blanks are tokenized to themselves.
-/
import Uldb.Bm25Ingest

namespace Uldb

/-- The ASCII letters and digits of a text, with their positions from `i` on. -/
def alphanumerics (i : ℕ) (text : Bytes) : List (UInt8 × ℕ) :=
  (text.zipIdx i).filter fun x => isAsciiAlphanumeric x.1

/-- Two letters or digits next to each other, not at a camelCase boundary. -/
def joined (x y : UInt8 × ℕ) : Bool :=
  decide (y.2 = x.2 + 1) && !(isAsciiLowercase x.1 && isAsciiUppercase y.1)

/-- The text of some letters and digits. -/
def lowered (run : List (UInt8 × ℕ)) : Bytes := run.map fun x => toAsciiLowercase x.1

/-! ### The loop -/

section

variable {b : UInt8} {i : ℕ} {rest : Bytes}

theorem alphanumerics_cons_of_pos (h : isAsciiAlphanumeric b = true) :
    alphanumerics i (b :: rest) = (b, i) :: alphanumerics (i + 1) rest := by
  rw [alphanumerics, List.zipIdx_cons]
  exact List.filter_cons_of_pos h

theorem alphanumerics_cons_of_neg (h : ¬isAsciiAlphanumeric b = true) :
    alphanumerics i (b :: rest) = alphanumerics (i + 1) rest := by
  rw [alphanumerics, List.zipIdx_cons]
  exact List.filter_cons_of_neg h

theorem le_of_mem_alphanumerics {x : UInt8 × ℕ} (h : x ∈ alphanumerics i rest) : i ≤ x.2 := by
  obtain ⟨c, j⟩ := x
  exact List.le_snd_of_mem_zipIdx (List.mem_of_mem_filter h)

theorem isAsciiAlphanumeric_of_upper (h : isAsciiUppercase b = true) :
    isAsciiAlphanumeric b = true := by
  rw [isAsciiAlphanumeric, h]
  simp

theorem pendingToken_lowered {run : List (UInt8 × ℕ)} (h : run ≠ []) :
    pendingToken (lowered run) = [lowered run] :=
  if_neg fun hnil => h (List.map_eq_nil_iff.mp hnil)

theorem splitBy_run {run : List (UInt8 × ℕ)} {p : UInt8} {ys : List (UInt8 × ℕ)}
    (hrun : (run ++ [(p, i)]).IsChain fun x y => joined x y)
    (hys : ∀ y ∈ ys.head?, joined (p, i) y = false) :
    ((run ++ [(p, i)] ++ ys).splitBy joined).map lowered
      = pendingToken (lowered (run ++ [(p, i)])) ++ (ys.splitBy joined).map lowered := by
  have hne : run ++ [(p, i)] ≠ [] := List.append_ne_nil_of_right_ne_nil _ (List.cons_ne_nil _ _)
  rw [List.splitBy_append, List.splitBy_of_isChain hne hrun, List.map_append, List.map_singleton,
    pendingToken_lowered hne]
  intro x hx y hy
  rw [List.getLast?_concat, Option.mem_some_iff] at hx
  subst hx
  exact hys y hy

/-- **The loop** cuts the letters and digits that are left, after those of the open token. -/
theorem tokensFrom_eq (rest : Bytes) (i : ℕ) :
    (∀ prev, tokensFrom [] prev false rest
      = ((alphanumerics i rest).splitBy joined).map lowered) ∧
    ∀ (run : List (UInt8 × ℕ)) (p : UInt8) (j : ℕ), j + 1 = i →
      (run ++ [(p, j)]).IsChain (fun x y => joined x y) →
      tokensFrom (lowered (run ++ [(p, j)])) (some p) true rest
        = ((run ++ [(p, j)] ++ alphanumerics i rest).splitBy joined).map lowered := by
  induction rest generalizing i with
  | nil =>
    refine ⟨fun _ => rfl, fun run p j _ hrun => ?_⟩
    rw [splitBy_run hrun (by simp [alphanumerics])]
    exact (List.append_nil _).symm
  | cons b rest ih =>
    obtain ⟨hout, hin⟩ := ih (i + 1)
    constructor
    · intro prev
      rw [tokensFrom]
      simp only [Bool.and_false, Bool.false_and, Bool.false_eq_true, if_false, List.nil_append]
      by_cases halnum : isAsciiAlphanumeric b = true
      · rw [if_pos halnum, alphanumerics_cons_of_pos halnum]
        exact hin [] b i rfl (List.isChain_singleton _)
      · rw [if_neg halnum, alphanumerics_cons_of_neg halnum]
        exact hout (some b)
    · rintro run p j rfl hrun
      rw [tokensFrom]
      simp only [Bool.and_true, Option.map_some, Option.getD_some, if_true]
      by_cases hcamel : (isAsciiUppercase b && isAsciiLowercase p) = true
      · -- a camelCase boundary: the next token begins with `b`
        have halnum := isAsciiAlphanumeric_of_upper (Bool.and_eq_true_iff.mp hcamel).1
        rw [if_pos hcamel, if_pos hcamel, if_pos halnum, alphanumerics_cons_of_pos halnum,
          splitBy_run hrun]
        · exact congrArg _ (hin [] b (j + 1) rfl (List.isChain_singleton _))
        · intro y hy
          obtain rfl := Option.mem_some_iff.mp hy
          rw [joined, Bool.and_comm (isAsciiLowercase p), hcamel, Bool.not_true, Bool.and_false]
      · rw [if_neg hcamel, if_neg hcamel, List.nil_append]
        by_cases halnum : isAsciiAlphanumeric b = true
        · rw [if_pos halnum, alphanumerics_cons_of_pos halnum]
          have hchain : (run ++ [(p, j)] ++ [(b, j + 1)]).IsChain fun x y => joined x y := by
            rw [List.isChain_append]
            refine ⟨hrun, List.isChain_singleton _, fun x hx y hy => ?_⟩
            rw [List.getLast?_concat, Option.mem_some_iff] at hx
            obtain rfl := Option.mem_some_iff.mp hy
            subst hx
            rw [joined, Bool.and_comm (isAsciiLowercase p), Bool.eq_false_iff.mpr hcamel]
            simp
          have hnext := hin (run ++ [(p, j)]) b (j + 1) rfl hchain
          rw [List.append_assoc (run ++ [(p, j)]), List.singleton_append] at hnext
          rw [← hnext]
          congr 1
          simp [lowered]
        · rw [if_neg halnum, alphanumerics_cons_of_neg halnum, splitBy_run hrun, hout (some b)]
          intro y hy
          have hle := le_of_mem_alphanumerics (List.mem_of_mem_head? hy)
          rw [joined, decide_eq_false (by omega), Bool.false_and]

/-- Tokenizing cuts the letters and digits of the text. -/
theorem tokenize_eq (text : Bytes) :
    tokenize text = ((alphanumerics 0 text).splitBy joined).map lowered :=
  (tokensFrom_eq text 0).1 none

end

/-! ### Boundaries in the text -/

/-- A token ends between two letters or digits of a text: another byte stands in between, or an
uppercase letter comes after a lowercase one. -/
def boundary (text : Bytes) (x y : UInt8 × ℕ) : Bool :=
  ((text.take y.2).drop (x.2 + 1)).any (fun b => !isAsciiAlphanumeric b) ||
    (isAsciiLowercase x.1 && isAsciiUppercase y.1)

/-- No letter or digit comes before the first one. -/
theorem head?_alphanumerics {rest : Bytes} {i : ℕ} {y : UInt8 × ℕ}
    (h : y ∈ (alphanumerics i rest).head?) :
    i ≤ y.2 ∧ y.2 < i + rest.length ∧ ∀ b ∈ rest.take (y.2 - i), isAsciiAlphanumeric b = false := by
  induction rest generalizing i with
  | nil => exact absurd h (by simp [alphanumerics])
  | cons b rest ih =>
    by_cases halnum : isAsciiAlphanumeric b = true
    · rw [alphanumerics_cons_of_pos halnum] at h
      obtain rfl := Option.mem_some_iff.mp h
      simp
    · rw [alphanumerics_cons_of_neg halnum] at h
      obtain ⟨hle, hlt, hnone⟩ := ih h
      have hsub : y.2 - i = y.2 - (i + 1) + 1 := by omega
      refine ⟨by omega, by rw [List.length_cons]; omega, ?_⟩
      rw [hsub, List.take_succ_cons]
      intro c hc
      rcases List.mem_cons.mp hc with rfl | hc
      · exact Bool.eq_false_iff.mpr halnum
      · exact hnone c hc

/-- **Neighbours** among the letters and digits are joined where the text has no boundary. -/
theorem isChain_alphanumerics (done rest : Bytes) :
    (alphanumerics done.length rest).IsChain
      fun x y => joined x y = !boundary (done ++ rest) x y := by
  induction rest generalizing done with
  | nil => exact List.isChain_nil
  | cons b rest ih =>
    have hrest := ih (done ++ [b])
    rw [List.length_append, List.length_singleton, List.append_assoc, List.singleton_append]
      at hrest
    by_cases halnum : isAsciiAlphanumeric b = true
    · rw [alphanumerics_cons_of_pos halnum, List.isChain_cons]
      refine ⟨fun y hy => ?_, hrest⟩
      obtain ⟨hle, hlt, hnone⟩ := head?_alphanumerics hy
      have hbetween : ((done ++ b :: rest).take y.2).drop (done.length + 1)
          = rest.take (y.2 - (done.length + 1)) := by
        rw [List.drop_take, List.append_cons, List.drop_left' (by simp)]
      rw [joined, boundary, hbetween, Bool.not_or]
      congr 1
      rw [Bool.eq_iff_iff, decide_eq_true_iff, Bool.not_eq_true', List.any_eq_false]
      constructor
      · intro hnext
        rw [hnext, Nat.sub_self, List.take_zero]
        simp
      · -- a byte in between would have been the next letter or digit
        intro hall
        by_contra hgap
        cases rest with
        | nil =>
          rw [List.length_nil] at hlt
          omega
        | cons c rest =>
          have hfirst : c ∈ (c :: rest).take (y.2 - (done.length + 1)) := by
            have hpos : y.2 - (done.length + 1) = y.2 - (done.length + 2) + 1 := by omega
            rw [hpos, List.take_succ_cons]
            exact List.mem_cons_self
          exact hall c hfirst (by rw [hnone c hfirst, Bool.not_false])
    · rw [alphanumerics_cons_of_neg halnum]
      exact hrest

/-- Only the neighbours matter when a list is cut. -/
theorem splitBy_congr {α : Type*} {r r' : α → α → Bool} {l : List α}
    (h : l.IsChain fun x y => r x y = r' x y) : l.splitBy r = l.splitBy r' := by
  have hloop : ∀ (l : List α) (a : α) (g : List α) (gs : List (List α)),
      (a :: l).IsChain (fun x y => r x y = r' x y) →
      List.splitBy.loop r l a g gs = List.splitBy.loop r' l a g gs := by
    intro l
    induction l with
    | nil => exact fun _ _ _ _ => rfl
    | cons b l ih =>
      intro a g gs h
      rw [List.isChain_cons_cons] at h
      rw [List.splitBy.loop, List.splitBy.loop, h.1]
      split
      · exact ih b _ _ h.2
      · exact ih b _ _ h.2
  cases l with
  | nil => rfl
  | cons a l => exact hloop l a [] [] h

/-- The tokens are the letters and digits of the text, cut at the boundaries. -/
theorem tokenize_eq_splitBy (text : Bytes) :
    tokenize text
      = ((alphanumerics 0 text).splitBy fun x y => !boundary text x y).map lowered := by
  rw [tokenize_eq]
  exact congrArg (List.map lowered) (splitBy_congr (isChain_alphanumerics [] text))

/-! ### Tokens -/

/-- A lowercase letter or a digit. -/
def isTokenByte (b : UInt8) : Bool := isAsciiLowercase b || (48 ≤ b && b ≤ 57)

theorem isTokenByte_lowercase {b : UInt8} (h : isAsciiAlphanumeric b = true) :
    isTokenByte (toAsciiLowercase b) = true := by
  rw [toAsciiLowercase]
  by_cases hupper : isAsciiUppercase b = true
  · rw [if_pos hupper]
    rw [isAsciiUppercase, Bool.and_eq_true, decide_eq_true_iff, decide_eq_true_iff,
      UInt8.le_iff_toNat_le, UInt8.le_iff_toNat_le] at hupper
    rw [isTokenByte, isAsciiLowercase, Bool.or_eq_true, Bool.and_eq_true, decide_eq_true_iff,
      decide_eq_true_iff, UInt8.le_iff_toNat_le, UInt8.le_iff_toNat_le, UInt8.toNat_add]
    left
    simp only [UInt8.reduceToNat] at hupper ⊢
    omega
  · rw [if_neg hupper]
    rw [isAsciiAlphanumeric, Bool.eq_false_iff.mpr hupper, Bool.false_or] at h
    exact h

theorem isAsciiAlphanumeric_of_isTokenByte {b : UInt8} (h : isTokenByte b = true) :
    isAsciiAlphanumeric b = true := by
  rw [isAsciiAlphanumeric, Bool.or_assoc]
  exact Bool.or_eq_true_iff.mpr (.inr h)

theorem not_upper_of_isTokenByte {b : UInt8} (h : isTokenByte b = true) :
    isAsciiUppercase b = false := by
  rw [isTokenByte, isAsciiLowercase, Bool.or_eq_true, Bool.and_eq_true, Bool.and_eq_true] at h
  simp only [decide_eq_true_iff, UInt8.le_iff_toNat_le, UInt8.reduceToNat] at h
  rw [isAsciiUppercase, Bool.and_eq_false_iff, decide_eq_false_iff_not, decide_eq_false_iff_not,
    UInt8.le_iff_toNat_le, UInt8.le_iff_toNat_le]
  simp only [UInt8.reduceToNat]
  omega

theorem mem_token {text tok : Bytes} (h : tok ∈ tokenize text) :
    tok ≠ [] ∧ ∀ b ∈ tok, isTokenByte b = true := by
  rw [tokenize_eq] at h
  obtain ⟨run, hrun, rfl⟩ := List.mem_map.mp h
  refine ⟨fun hnil => List.ne_nil_of_mem_splitBy hrun (List.map_eq_nil_iff.mp hnil), fun b hb => ?_⟩
  obtain ⟨x, hx, rfl⟩ := List.mem_map.mp hb
  have hmem : x ∈ alphanumerics 0 text := by
    rw [← List.flatten_splitBy joined (alphanumerics 0 text)]
    exact List.mem_flatten_of_mem hrun hx
  exact isTokenByte_lowercase (List.mem_filter.mp hmem).2

theorem flatten_tokenize (text : Bytes) :
    (tokenize text).flatten = (text.filter isAsciiAlphanumeric).map toAsciiLowercase := by
  have hfst : (alphanumerics 0 text).map Prod.fst = text.filter isAsciiAlphanumeric := by
    have hzip := List.filter_map (f := Prod.fst) (p := isAsciiAlphanumeric) (l := text.zipIdx 0)
    rw [List.zipIdx_map_fst] at hzip
    exact hzip.symm
  rw [tokenize_eq, ← hfst, List.map_map]
  show (List.map (List.map _) _).flatten = _
  rw [← List.map_flatten, List.flatten_splitBy]
  rfl

/-! ### Tokens as a text -/

/-- Bytes of tokens go into the buffer. -/
theorem tokensFrom_token (tok buf : Bytes) (prev : Option UInt8)
    (h : ∀ b ∈ tok, isTokenByte b = true) :
    tokensFrom buf prev true tok = pendingToken (buf ++ tok) := by
  induction tok generalizing buf prev with
  | nil => rw [tokensFrom, List.append_nil]
  | cons b tok ih =>
    have hupper := not_upper_of_isTokenByte (h b List.mem_cons_self)
    have halnum := isAsciiAlphanumeric_of_isTokenByte (h b List.mem_cons_self)
    rw [tokensFrom]
    simp only [hupper, halnum, Bool.false_and, Bool.false_eq_true, if_false, if_true,
      List.nil_append]
    rw [ih _ _ fun c hc => h c (List.mem_cons_of_mem _ hc), toAsciiLowercase, hupper,
      if_neg Bool.false_ne_true, List.append_assoc, List.singleton_append]

theorem tokenize_token {tok : Bytes} (hne : tok ≠ []) (h : ∀ b ∈ tok, isTokenByte b = true) :
    tokenize tok = [tok] := by
  obtain ⟨b, tok, rfl⟩ := List.exists_cons_of_ne_nil hne
  have hupper := not_upper_of_isTokenByte (h b List.mem_cons_self)
  have halnum := isAsciiAlphanumeric_of_isTokenByte (h b List.mem_cons_self)
  rw [tokenize, tokensFrom]
  simp only [hupper, halnum, Bool.false_and, Bool.false_eq_true, if_false, if_true,
    List.nil_append]
  rw [tokensFrom_token _ _ _ fun c hc => h c (List.mem_cons_of_mem _ hc), toAsciiLowercase, hupper,
    if_neg Bool.false_ne_true, List.singleton_append]
  exact if_neg (List.cons_ne_nil _ _)

/-- **Tokens joined by blanks** are tokenized to themselves. -/
theorem tokenize_intercalate {toks : List Bytes}
    (h : ∀ tok ∈ toks, tok ≠ [] ∧ ∀ b ∈ tok, isTokenByte b = true) :
    tokenize ([32].intercalate toks) = toks := by
  induction toks with
  | nil => rfl
  | cons tok toks ih =>
    obtain ⟨hne, hbytes⟩ := h tok List.mem_cons_self
    have hrest := ih fun t ht => h t (List.mem_cons_of_mem _ ht)
    cases toks with
    | nil =>
      rw [List.intercalate_singleton]
      exact tokenize_token hne hbytes
    | cons tok' toks =>
      rw [List.intercalate_cons_cons, tokenize_append, tokenize_token hne hbytes, hrest]
      rfl

/-- **What tokenizing does**: the tokens are the letters and digits of the text in lowercase, cut
at the boundaries, and the tokens joined by blanks have the same tokens. -/
theorem tokenize_spec (text : Bytes) :
    (∀ tok ∈ tokenize text, tok ≠ [] ∧ ∀ b ∈ tok, isTokenByte b = true) ∧
      (tokenize text).flatten = (text.filter isAsciiAlphanumeric).map toAsciiLowercase ∧
      tokenize text
        = ((alphanumerics 0 text).splitBy fun x y => !boundary text x y).map lowered ∧
      tokenize ([32].intercalate (tokenize text)) = tokenize text :=
  ⟨fun _ => mem_token, flatten_tokenize text, tokenize_eq_splitBy text,
    tokenize_intercalate fun _ => mem_token⟩

end Uldb
