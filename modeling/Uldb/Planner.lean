/-
The query planner (`query/planner.rs`).

A plan names the indices that a query asks, in order.  The rules look at the text, the vector
and the relations of the query; the text counts as a symbol by its punctuation or by a capital
letter after a small one.

* `looksSymbolLike_iff` — the texts that count as symbols;
* `plan_spec` — which indices a plan names, how often, and in which order.
-/
import Uldb.GraphStep
import Uldb.Hnsw
import Uldb.LengthCheck

namespace Uldb

/-! ### Texts -/

/-- `char::is_whitespace`, on the bytes of a character. -/
def isWhitespace (char : Bytes) : Bool :=
  match char with
  | [a] => (9 ≤ a && a ≤ 13) || a = 32
  | [a, b] => a = 0xC2 && (b = 0x85 || b = 0xA0)
  | [a, b, c] =>
    (a = 0xE1 && b = 0x9A && c = 0x80) ||
    (a = 0xE2 && b = 0x80 && (c ≤ 0x8A || c = 0xA8 || c = 0xA9 || c = 0xAF)) ||
    (a = 0xE2 && b = 0x81 && c = 0x9F) ||
    (a = 0xE3 && b = 0x80 && c = 0x80)
  | _ => false

/-- `str::trim`, as a list of characters. -/
def trim (text : Bytes) : List Bytes :=
  (((chars text).dropWhile isWhitespace).reverse.dropWhile isWhitespace).reverse

/-- The text has nothing but blanks. -/
def Blank (text : Bytes) : Prop := ∀ char ∈ chars text, isWhitespace char = true

theorem trim_eq_nil_iff {text : Bytes} : trim text = [] ↔ Blank text := by
  rw [trim, List.reverse_eq_nil_iff, List.dropWhile_eq_nil_iff]
  constructor
  · intro h char hchar
    have hsplit := List.takeWhile_append_dropWhile (p := isWhitespace) (l := chars text)
    rw [← hsplit, List.mem_append] at hchar
    rcases hchar with hchar | hchar
    · exact List.mem_takeWhile_imp hchar
    · exact h char (List.mem_reverse.mpr hchar)
  · intro h char hchar
    have hsub := (List.dropWhile_sublist isWhitespace (l := chars text)).mem
      (List.mem_reverse.mp hchar)
    exact h char hsub

/-- The loop that looks for a capital letter after a small one. -/
def camelCase : Bytes → Bool
  | a :: b :: rest => (isAsciiUppercase b && isAsciiLowercase a) || camelCase (b :: rest)
  | _ => false

/-- Does this text look like a code symbol? -/
def looksSymbolLike (text : Bytes) : Bool :=
  if text = [] then false
  else if [58, 58] <:+: text ∨ 46 ∈ text ∨ 95 ∈ text then true
  else if 32 ∉ text ∧ (chars text).all fun char => char.all isAsciiAlphanumeric then
    camelCase text
  else false

theorem camelCase_iff {text : Bytes} : camelCase text = true ↔
    ∃ front a b back, text = front ++ a :: b :: back ∧
      isAsciiLowercase a = true ∧ isAsciiUppercase b = true := by
  induction text with
  | nil => simp [camelCase]
  | cons x text ih =>
    cases text with
    | nil =>
      refine ⟨fun h => absurd h (by simp [camelCase]), ?_⟩
      rintro ⟨front, a, b, back, heq, _⟩
      have hlen := congrArg List.length heq
      simp only [List.length_cons, List.length_nil, List.length_append] at hlen
      omega
    | cons y text =>
      rw [camelCase, Bool.or_eq_true, Bool.and_eq_true, ih]
      constructor
      · rintro (⟨hy, hx⟩ | ⟨front, a, b, back, heq, ha, hb⟩)
        · exact ⟨[], x, y, text, rfl, hx, hy⟩
        · exact ⟨x :: front, a, b, back, by rw [heq]; rfl, ha, hb⟩
      · rintro ⟨front, a, b, back, heq, ha, hb⟩
        cases front with
        | nil =>
          simp only [List.nil_append, List.cons.injEq] at heq
          obtain ⟨rfl, rfl, _⟩ := heq
          exact .inl ⟨hb, ha⟩
        | cons z front =>
          rw [List.cons_append, List.cons.injEq] at heq
          exact .inr ⟨front, a, b, back, heq.2, ha, hb⟩

/-- A text that counts as a symbol. -/
def SymbolLike (text : Bytes) : Prop :=
  [58, 58] <:+: text ∨ 46 ∈ text ∨ 95 ∈ text ∨
    (∀ b ∈ text, isAsciiAlphanumeric b = true) ∧
      ∃ front a b back, text = front ++ a :: b :: back ∧
        isAsciiLowercase a = true ∧ isAsciiUppercase b = true

/-- **The texts that count as symbols.** -/
theorem looksSymbolLike_iff {text : Bytes} : looksSymbolLike text = true ↔ SymbolLike text := by
  have hall : ((chars text).all fun char => char.all isAsciiAlphanumeric) = true ↔
      ∀ b ∈ text, isAsciiAlphanumeric b = true := by
    conv_rhs => rw [← flatten_chars text]
    simp only [List.all_eq_true, List.mem_flatten]
    exact ⟨fun h b ⟨char, hchar, hb⟩ => h char hchar b hb,
      fun h char hchar b hb => h b ⟨char, hchar, hb⟩⟩
  rw [looksSymbolLike, SymbolLike]
  by_cases hnil : text = []
  · subst hnil
    simp [List.infix_nil]
  rw [if_neg hnil]
  by_cases hmark : [58, 58] <:+: text ∨ 46 ∈ text ∨ 95 ∈ text
  · rw [if_pos hmark]
    simp only [true_iff]
    tauto
  rw [if_neg hmark]
  by_cases hword : ∀ b ∈ text, isAsciiAlphanumeric b = true
  · have hblank : 32 ∉ text := fun h => absurd (hword 32 h) (by decide)
    rw [if_pos ⟨hblank, hall.mpr hword⟩, camelCase_iff]
    tauto
  · rw [if_neg fun h => hword (hall.mp h.2)]
    tauto

/-! ### Plans -/

/-- One step of a query plan. -/
inductive QueryStep where
  | bm25
  | hnsw
  | fuzzy
  | graph
  deriving DecidableEq, Repr

namespace QueryPlanner

/-- The fields of a query spec that a query reads. -/
structure QuerySpec extends Uldb.QuerySpec where
  vector : Floats
  topK : ℕ

/-- Steps without those seen before. -/
def retainNew : List QueryStep → List QueryStep → List QueryStep
  | _, [] => []
  | seen, step :: steps =>
    if step ∈ seen then retainNew seen steps else step :: retainNew (seen ++ [step]) steps

/-- The steps of the rules, in order. -/
def ruleSteps (hasText hasVector hasGraph isSymbol isShort : Bool) : List QueryStep :=
  let steps := if hasGraph then [.graph] else []
  let steps := if hasText && isSymbol && isShort then steps ++ [.fuzzy, .bm25]
    else
      let steps := if hasText then steps ++ [.bm25] else steps
      let steps := if hasVector then steps ++ [.hnsw] else steps
      if hasText && isSymbol then steps ++ [.fuzzy] else steps
  -- a vector without text
  if hasVector && .hnsw ∉ steps then steps ++ [.hnsw] else steps

/-- Produce a plan from a query spec. -/
def plan (q : QuerySpec) : List QueryStep :=
  retainNew [] (ruleSteps (trim q.text.1 ≠ []) (q.vector ≠ []) (q.relations ≠ [])
    (looksSymbolLike q.text.1) (q.text.1.length ≤ 32))

/-- The order of the steps: the symbol index goes first for a short symbol, else last. -/
def order (isSymbol isShort : Bool) : List QueryStep :=
  if isSymbol && isShort then [.graph, .fuzzy, .bm25, .hnsw] else [.graph, .bm25, .hnsw, .fuzzy]

/-- The index can answer something. -/
def Asked (q : QuerySpec) : QueryStep → Prop
  | .bm25 => ¬Blank q.text.1
  | .hnsw => q.vector ≠ []
  | .fuzzy => ¬Blank q.text.1 ∧ SymbolLike q.text.1
  | .graph => q.relations ≠ []

/-- Steps that are all new stay as they are. -/
theorem retainNew_of_nodup {seen steps : List QueryStep} (h : (seen ++ steps).Nodup) :
    retainNew seen steps = steps := by
  induction steps generalizing seen with
  | nil => rfl
  | cons first steps ih =>
    have hnew : first ∉ seen := fun hmem =>
      (List.nodup_append.mp h).2.2 first hmem first List.mem_cons_self rfl
    have hrest : ((seen ++ [first]) ++ steps).Nodup := by
      rw [List.append_assoc]
      exact h
    rw [retainNew, if_neg hnew, ih hrest]

/-- Which step has its flag set. -/
def flagged (hasText hasVector hasGraph isSymbol : Bool) : QueryStep → Bool
  | .bm25 => hasText
  | .hnsw => hasVector
  | .fuzzy => hasText && isSymbol
  | .graph => hasGraph

/-- The rules pick the steps from the order. -/
theorem ruleSteps_eq : ∀ hasText hasVector hasGraph isSymbol isShort : Bool,
    ruleSteps hasText hasVector hasGraph isSymbol isShort
      = (order isSymbol isShort).filter (flagged hasText hasVector hasGraph isSymbol) := by
  decide

theorem order_spec (isSymbol isShort : Bool) :
    (order isSymbol isShort).Nodup ∧ ∀ step, step ∈ order isSymbol isShort := by
  have hall : ∀ isSymbol isShort : Bool, (order isSymbol isShort).Nodup := by decide
  refine ⟨hall isSymbol isShort, fun step => ?_⟩
  cases isSymbol <;> cases isShort <;> cases step <;> decide

theorem flagged_iff (q : QuerySpec) (step : QueryStep) :
    flagged (trim q.text.1 ≠ []) (q.vector ≠ []) (q.relations ≠ []) (looksSymbolLike q.text.1) step
      = true ↔ Asked q step := by
  cases step <;> simp [flagged, Asked, trim_eq_nil_iff, looksSymbolLike_iff]

/-- The last pass over the steps never removes any. -/
theorem plan_eq (q : QuerySpec) :
    plan q = (order (looksSymbolLike q.text.1) (q.text.1.length ≤ 32)).filter
      (flagged (trim q.text.1 ≠ []) (q.vector ≠ []) (q.relations ≠ [])
        (looksSymbolLike q.text.1)) := by
  have hnodup := (order_spec (looksSymbolLike q.text.1) (q.text.1.length ≤ 32)).1
  rw [plan, ruleSteps_eq]
  exact retainNew_of_nodup (hnodup.sublist List.filter_sublist)

theorem mem_plan_iff {q : QuerySpec} {step : QueryStep} : step ∈ plan q ↔ Asked q step := by
  rw [plan_eq, List.mem_filter, flagged_iff]
  exact and_iff_right ((order_spec _ _).2 step)

/-- **What a plan is**: every index that can answer something, once, in the order of the rules. -/
theorem plan_spec (q : QuerySpec) :
    (plan q).Nodup ∧ (∀ step, step ∈ plan q ↔ Asked q step) ∧
      (plan q).Sublist (order (looksSymbolLike q.text.1) (q.text.1.length ≤ 32)) := by
  have hsub : (plan q).Sublist (order (looksSymbolLike q.text.1) (q.text.1.length ≤ 32)) := by
    rw [plan_eq]
    exact List.filter_sublist
  exact ⟨(order_spec _ _).1.sublist hsub, fun step => mem_plan_iff, hsub⟩

end QueryPlanner

end Uldb
