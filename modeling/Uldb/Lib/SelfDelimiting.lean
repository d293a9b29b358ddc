/-
Self-delimiting codes.

The symbols of an item tell which item it is and where it ends, whatever follows them.

* `SelfDelimiting.lengthPrefixed` — an item behind its length;
* `SelfDelimiting.tagged` — an item behind a tag that tells how it is coded;
* `SelfDelimiting.marked` — items one after the other, up to a mark that starts no item.
-/
import Mathlib

/-- On the items of `P`, the code of an item ends where it says itself. -/
def SelfDelimiting {α β : Type*} (P : α → Prop) (code : α → List β) : Prop :=
  ∀ a a' rest rest', P a → P a' → code a ++ rest = code a' ++ rest' → a = a' ∧ rest = rest'

namespace SelfDelimiting

variable {α β : Type*} {P : α → Prop} {code : α → List β}

theorem eq_iff (h : SelfDelimiting P code) {a a' : α} (ha : P a) (ha' : P a')
    {rest rest' : List β} : code a ++ rest = code a' ++ rest' ↔ a = a' ∧ rest = rest' := by
  constructor
  · intro heq
    exact h a a' rest rest' ha ha' heq
  · rintro ⟨rfl, rfl⟩
    rfl

/-- Codes of one length. -/
theorem ofLength {w : ℕ} (hlength : ∀ a, P a → (code a).length = w)
    (hinj : ∀ a a', P a → P a' → code a = code a' → a = a') : SelfDelimiting P code := by
  intro a a' rest rest' ha ha' heq
  have hlen : (code a).length = (code a').length := by rw [hlength a ha, hlength a' ha']
  obtain ⟨hcode, hrest⟩ := List.append_inj heq hlen
  exact ⟨hinj a a' ha ha' hcode, hrest⟩

/-- A list of symbols behind its length. -/
theorem lengthPrefixed {size : ℕ → List β} {N : ℕ} (hsize : SelfDelimiting (· < N) size) :
    SelfDelimiting (fun a : List β => a.length < N) fun a => size a.length ++ a := by
  intro a a' rest rest' ha ha' heq
  simp only [List.append_assoc] at heq
  obtain ⟨hlength, hdata⟩ := hsize _ _ _ _ ha ha' heq
  exact List.append_inj hdata hlength

/-- An item behind a tag that tells how it is coded. -/
theorem tagged {γ : Type*} {Q : β → γ → Prop} {body : β → γ → List β}
    (h : ∀ tag, SelfDelimiting (Q tag) (body tag)) :
    SelfDelimiting (fun a : β × γ => Q a.1 a.2) fun a => a.1 :: body a.1 a.2 := by
  rintro ⟨tag, a⟩ ⟨tag', a'⟩ rest rest' ha ha' heq
  rw [List.cons_append, List.cons_append, List.cons.injEq] at heq
  obtain ⟨htag, heq⟩ := heq
  obtain rfl : tag = tag' := htag
  obtain ⟨rfl, hrest⟩ := h tag a a' rest rest' ha ha' heq
  exact ⟨rfl, hrest⟩

/-- Items up to a mark that starts no item. -/
theorem marked (h : SelfDelimiting P code) {mark : β}
    (hmark : ∀ a, P a → ∃ b bs, code a = b :: bs ∧ b ≠ mark) :
    SelfDelimiting (fun items : List α => ∀ a ∈ items, P a)
      fun items => items.flatMap code ++ [mark] := by
  have hnil : ∀ a items rest rest', P a →
      [mark] ++ rest ≠ (a :: items).flatMap code ++ [mark] ++ rest' := by
    intro a items rest rest' ha heq
    -- the mark would stand where the first item starts
    obtain ⟨b, bs, hcode, hne⟩ := hmark a ha
    rw [List.flatMap_cons, hcode] at heq
    exact hne (List.head_eq_of_cons_eq heq).symm
  intro items
  induction items with
  | nil =>
    intro items' rest rest' _ hitems' heq
    cases items' with
    | nil => exact ⟨rfl, List.cons_injective heq⟩
    | cons a' items' => exact absurd heq (hnil _ _ _ _ (hitems' a' List.mem_cons_self))
  | cons a items ih =>
    intro items' rest rest' hitems hitems' heq
    have ha : P a := hitems a List.mem_cons_self
    cases items' with
    | nil => exact absurd heq.symm (hnil _ _ _ _ ha)
    | cons a' items' =>
      simp only [List.flatMap_cons, List.append_assoc] at heq ih
      obtain ⟨rfl, htail⟩ := h _ _ _ _ ha (hitems' a' List.mem_cons_self) heq
      obtain ⟨rfl, rfl⟩ := ih items' rest rest'
        (fun x hx => hitems x (List.mem_cons_of_mem _ hx))
        (fun x hx => hitems' x (List.mem_cons_of_mem _ hx)) htail
      exact ⟨rfl, rfl⟩

end SelfDelimiting
