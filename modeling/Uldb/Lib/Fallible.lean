/-
Programs that change a state and can fail, keeping what they changed (`EStateM`).

* `bind_eq_ok`, `forM_cons_eq_ok` — a successful run, taken apart into its steps;
* `onPart` — a program on one part of the state;
* `foldlM_append_eq_some` — a run of a partial step function, taken apart;
* `foldlM_induction`, `exists_foldlM_eq_some` — what the steps of a run keep, the run keeps;
* `Keeps` — an invariant that every run keeps, whether it succeeds or fails;
* `FailsOnly` — the errors a run can fail with.
-/
import Mathlib

namespace Fallible

variable {ε σ τ α β : Type}

/-- An `if` without `else`. -/
def ifThen (c : Prop) [Decidable c] (x : EStateM ε σ PUnit) : EStateM ε σ PUnit :=
  if c then x else pure PUnit.unit

/-! ### Successful runs -/

theorem bind_eq_ok {x : EStateM ε σ α} {f : α → EStateM ε σ β} {s s'' : σ} {b : β} :
    (x >>= f) s = .ok b s'' ↔ ∃ a s', x s = .ok a s' ∧ f a s' = .ok b s'' := by
  show EStateM.bind x f s = _ ↔ _
  rw [EStateM.bind]
  cases hx : x s with
  | ok a s' =>
    constructor
    · intro h
      exact ⟨a, s', rfl, h⟩
    · rintro ⟨a', t, heq, h⟩
      rw [EStateM.Result.ok.injEq] at heq
      obtain ⟨rfl, rfl⟩ := heq
      exact h
  | error e s' =>
    constructor
    · intro h
      exact absurd h (by simp)
    · rintro ⟨a', t, heq, _⟩
      exact absurd heq (by simp)

theorem pure_eq_ok {a b : α} {s s' : σ} :
    (pure a : EStateM ε σ α) s = .ok b s' ↔ b = a ∧ s' = s := by
  show EStateM.Result.ok a s = _ ↔ _
  rw [EStateM.Result.ok.injEq]
  exact ⟨fun h => ⟨h.1.symm, h.2.symm⟩, fun h => ⟨h.1.symm, h.2.symm⟩⟩

theorem modify_eq_ok {f : σ → σ} {s s' : σ} {u : PUnit} :
    (modify f : EStateM ε σ PUnit) s = .ok u s' ↔ s' = f s := by
  show EStateM.Result.ok PUnit.unit (f s) = _ ↔ _
  rw [EStateM.Result.ok.injEq]
  exact ⟨fun h => h.2.symm, fun h => ⟨rfl, h.symm⟩⟩

theorem get_eq_ok {s s' a : σ} :
    (EStateM.get : EStateM ε σ σ) s = .ok a s' ↔ a = s ∧ s' = s := pure_eq_ok

theorem ifThen_eq_ok {c : Prop} [Decidable c] {x : EStateM ε σ PUnit} {s s' : σ} {u : PUnit} :
    ifThen c x s = .ok u s' ↔ (c ∧ x s = .ok u s') ∨ (¬c ∧ s' = s) := by
  rw [ifThen]
  by_cases h : c
  · simp [h]
  · rw [if_neg h, pure_eq_ok]
    simp [h]

theorem forM_nil_eq_ok {f : α → EStateM ε σ PUnit} {s s' : σ} {u : PUnit} :
    (forM ([] : List α) f : EStateM ε σ PUnit) s = .ok u s' ↔ s' = s := by
  rw [List.forM_nil, pure_eq_ok]
  exact ⟨fun h => h.2, fun h => ⟨rfl, h⟩⟩

theorem forM_cons_eq_ok {f : α → EStateM ε σ PUnit} {a : α} {as : List α} {s s'' : σ}
    {u : PUnit} :
    (forM (a :: as) f : EStateM ε σ PUnit) s = .ok u s'' ↔
      ∃ s', f a s = .ok PUnit.unit s' ∧ (forM as f : EStateM ε σ PUnit) s' = .ok u s'' := by
  rw [List.forM_cons, bind_eq_ok]
  exact ⟨fun ⟨_, s', h⟩ => ⟨s', h⟩, fun ⟨s', h⟩ => ⟨_, s', h⟩⟩

/-! ### A part of the state -/

/-- Run a program on one part of the state. -/
def onPart (part : σ → τ) (set : τ → σ → σ) (x : EStateM ε τ α) : EStateM ε σ α := fun s =>
  match x (part s) with
  | .ok a t => .ok a (set t s)
  | .error e t => .error e (set t s)

theorem onPart_eq_ok {part : σ → τ} {set : τ → σ → σ} {x : EStateM ε τ α} {s s' : σ} {a : α} :
    onPart part set x s = .ok a s' ↔ ∃ t, x (part s) = .ok a t ∧ s' = set t s := by
  rw [onPart]
  cases hx : x (part s) with
  | ok b t =>
    simp only [EStateM.Result.ok.injEq]
    constructor
    · rintro ⟨rfl, rfl⟩
      exact ⟨t, ⟨rfl, rfl⟩, rfl⟩
    · rintro ⟨t', ⟨rfl, rfl⟩, rfl⟩
      exact ⟨rfl, rfl⟩
  | error e t =>
    constructor
    · intro h
      exact absurd h (by simp)
    · rintro ⟨t', h, _⟩
      exact absurd h (by simp)

/-! ### Error texts -/

/-- Rewrite the error of a program. -/
def mapError (f : ε → ε) (x : EStateM ε σ α) : EStateM ε σ α := fun s =>
  match x s with
  | .ok a s' => .ok a s'
  | .error e s' => .error (f e) s'

theorem mapError_eq_ok {f : ε → ε} {x : EStateM ε σ α} {s s' : σ} {a : α} :
    mapError f x s = .ok a s' ↔ x s = .ok a s' := by
  rw [mapError]
  cases hx : x s with
  | ok b t => exact Iff.rfl
  | error e t =>
    constructor
    · intro h
      exact absurd h (by simp)
    · intro h
      exact absurd h (by simp)

/-! ### Runs of many steps -/

/-- The state after a success. -/
def success : EStateM.Result ε σ α → Option σ
  | .ok _ s => some s
  | .error _ _ => none

theorem success_eq_some {r : EStateM.Result ε σ α} {s : σ} (h : success r = some s) :
    ∃ a, r = .ok a s := by
  cases r with
  | ok a t =>
    obtain rfl : t = s := by simpa [success] using h
    exact ⟨a, rfl⟩
  | error e t => exact absurd h (by simp [success])

theorem foldlM_cons_eq_some {step : σ → τ → Option σ} {l : τ} {ls : List τ} {s s' : σ} :
    (l :: ls).foldlM step s = some s' ↔ ∃ t, step s l = some t ∧ ls.foldlM step t = some s' := by
  rw [List.foldlM_cons, Option.bind_eq_bind, Option.bind_eq_some_iff]

theorem foldlM_append_eq_some {step : σ → τ → Option σ} {ls ls' : List τ} {s s' : σ} :
    (ls ++ ls').foldlM step s = some s' ↔
      ∃ t, ls.foldlM step s = some t ∧ ls'.foldlM step t = some s' := by
  rw [List.foldlM_append, Option.bind_eq_bind, Option.bind_eq_some_iff]

/-- A step of a history, by its position. -/
theorem position_of_split {ls before rest : List τ} {l : τ} (h : ls = before ++ l :: rest) :
    ls[before.length]? = some l ∧ before = ls.take before.length := by
  subst h
  simp

/-- What every step of a run keeps holds at its end. -/
theorem foldlM_induction {step : σ → τ → Option σ} {P : σ → Prop} {ls : List τ} {s s' : σ}
    (hrun : ls.foldlM step s = some s') (hs : P s)
    (hstep : ∀ l ∈ ls, ∀ t t', P t → step t l = some t' → P t') : P s' := by
  induction ls generalizing s with
  | nil =>
    obtain rfl : s = s' := by simpa using hrun
    exact hs
  | cons l ls ih =>
    obtain ⟨t, ht, hrun⟩ := foldlM_cons_eq_some.mp hrun
    exact ih hrun (hstep l (by simp) s t hs ht) fun l' hl' => hstep l' (by simp [hl'])

/-- What holds on the way down a range, one number after the other. -/
theorem foldlM_range'_reverse {step : σ → ℕ → Option σ} {Q : ℕ → σ → Prop} {lo n : ℕ} {s s' : σ}
    (hrun : (List.range' lo n).reverse.foldlM step s = some s') (hs : Q (lo + n) s)
    (hstep : ∀ l, lo ≤ l → l < lo + n → ∀ t t', Q (l + 1) t → step t l = some t' → Q l t') :
    Q lo s' := by
  induction n generalizing s with
  | zero =>
    obtain rfl : s = s' := by simpa using hrun
    exact hs
  | succ n ih =>
    rw [List.range'_concat, List.reverse_append, List.reverse_singleton,
      List.singleton_append] at hrun
    obtain ⟨t, ht, hrun⟩ := foldlM_cons_eq_some.mp hrun
    rw [Nat.one_mul] at ht
    refine ih hrun (hstep (lo + n) (by omega) (by omega) s t hs ht) fun l hlo hlt => ?_
    exact hstep l hlo (by omega)

/-- A run whose steps are possible, and keep that they are, is possible. -/
theorem exists_foldlM_eq_some {step : σ → τ → Option σ} {P : σ → Prop} {ls : List τ} {s : σ}
    (hs : P s) (hstep : ∀ l ∈ ls, ∀ t, P t → ∃ t', step t l = some t' ∧ P t') :
    ∃ s', ls.foldlM step s = some s' ∧ P s' := by
  induction ls generalizing s with
  | nil => exact ⟨s, rfl, hs⟩
  | cons l ls ih =>
    obtain ⟨t, ht, hPt⟩ := hstep l List.mem_cons_self s hs
    obtain ⟨s', hrun, hPs'⟩ := ih hPt fun l' hl' => hstep l' (List.mem_cons_of_mem _ hl')
    exact ⟨s', foldlM_cons_eq_some.mpr ⟨t, ht, hrun⟩, hPs'⟩

/-- A map whose values exist. -/
theorem exists_mapM_eq_some {f : α → Option β} {items : List α}
    (h : ∀ a ∈ items, ∃ b, f a = some b) : ∃ bs, items.mapM f = some bs := by
  induction items with
  | nil => exact ⟨[], rfl⟩
  | cons a items ih =>
    obtain ⟨b, hb⟩ := h a List.mem_cons_self
    obtain ⟨bs, hbs⟩ := ih fun a' ha' => h a' (List.mem_cons_of_mem _ ha')
    exact ⟨b :: bs, by rw [List.mapM_cons, hb, hbs]; rfl⟩

/-- A map, one value after the other. -/
theorem forall₂_of_mapM_eq_some {f : α → Option β} {items : List α} {out : List β}
    (hout : items.mapM f = some out) : List.Forall₂ (fun a b => f a = some b) items out := by
  induction items generalizing out with
  | nil =>
    obtain rfl : [] = out := by simpa using hout
    exact List.Forall₂.nil
  | cons a items ih =>
    rw [List.mapM_cons] at hout
    obtain ⟨b, hb, hout⟩ := Option.bind_eq_some_iff.mp hout
    obtain ⟨bs, hbs, hout⟩ := Option.bind_eq_some_iff.mp hout
    obtain rfl := Option.some_inj.mp hout
    exact List.Forall₂.cons hb (ih hbs)

theorem map_eq_of_forall₂ {γ : Type} {p : β → γ} {q : α → γ} {items : List α} {out : List β}
    (h : List.Forall₂ (fun a b => p b = q a) items out) : out.map p = items.map q := by
  induction h with
  | nil => rfl
  | cons hab _ ih => rw [List.map_cons, List.map_cons, hab, ih]

/-- A value of a map has an argument. -/
theorem exists_of_mem_mapM {f : α → Option β} {items : List α} {out : List β} {b : β}
    (hout : items.mapM f = some out) (hb : b ∈ out) : ∃ a ∈ items, f a = some b := by
  induction items generalizing out with
  | nil =>
    obtain rfl : [] = out := by simpa using hout
    exact absurd hb List.not_mem_nil
  | cons a items ih =>
    rw [List.mapM_cons] at hout
    obtain ⟨b', hb', hout⟩ := Option.bind_eq_some_iff.mp hout
    obtain ⟨bs, hbs, hout⟩ := Option.bind_eq_some_iff.mp hout
    obtain rfl := Option.some_inj.mp hout
    rcases List.mem_cons.mp hb with rfl | hb
    · exact ⟨a, List.mem_cons_self, hb'⟩
    · obtain ⟨a', ha', hfa⟩ := ih hbs hb
      exact ⟨a', List.mem_cons_of_mem a ha', hfa⟩

/-- An argument of a map has a value. -/
theorem exists_of_mem_of_mapM {f : α → Option β} {items : List α} {out : List β} {a : α}
    (hout : items.mapM f = some out) (ha : a ∈ items) : ∃ b ∈ out, f a = some b := by
  induction items generalizing out with
  | nil => exact absurd ha List.not_mem_nil
  | cons a' items ih =>
    rw [List.mapM_cons] at hout
    obtain ⟨b', hb', hout⟩ := Option.bind_eq_some_iff.mp hout
    obtain ⟨bs, hbs, hout⟩ := Option.bind_eq_some_iff.mp hout
    obtain rfl := Option.some_inj.mp hout
    rcases List.mem_cons.mp ha with rfl | ha
    · exact ⟨b', List.mem_cons_self, hb'⟩
    · obtain ⟨b, hb, hfa⟩ := ih hbs ha
      exact ⟨b, List.mem_cons_of_mem b' hb, hfa⟩

/-- The arguments of a map, from its values. -/
theorem map_of_mapM_eq_some {f : α → Option β} {back : β → α} {items : List α}
    {out : List β} (hback : ∀ a b, f a = some b → back b = a) (hout : items.mapM f = some out) :
    out.map back = items := by
  have h := map_eq_of_forall₂ (q := id) ((forall₂_of_mapM_eq_some hout).imp hback)
  rwa [List.map_id] at h

/-- Induction over a run together with its history. -/
theorem foldlM_history {step : σ → τ → Option σ} {P : List τ → σ → Prop} {s : σ} (hs : P [] s)
    (hstep : ∀ ls l t t', ls.foldlM step s = some t → P ls t → step t l = some t' →
      P (ls ++ [l]) t') {ls : List τ} {s' : σ} (hrun : ls.foldlM step s = some s') : P ls s' := by
  induction ls using List.reverseRecOn generalizing s' with
  | nil =>
    obtain rfl : s = s' := by simpa using hrun
    exact hs
  | append_singleton ls l ih =>
    obtain ⟨t, ht, hl⟩ := foldlM_append_eq_some.mp hrun
    obtain ⟨t', ht', hl⟩ := foldlM_cons_eq_some.mp hl
    obtain rfl : t' = s' := by simpa using hl
    exact hstep ls l t t' ht (ih ht) ht'

/-! ### Invariants -/

/-- The state a run ends in. -/
def finalState : EStateM.Result ε σ α → σ
  | .ok _ s => s
  | .error _ s => s

/-- Every run keeps `P`, also one that fails. -/
def Keeps (P : σ → Prop) (x : EStateM ε σ α) : Prop := ∀ s, P s → P (finalState (x s))

namespace Keeps

variable {P : σ → Prop} {x : EStateM ε σ α}

theorem of_ok (hx : Keeps P x) {s s' : σ} {a : α} (h : x s = .ok a s') (hs : P s) : P s' := by
  have := hx s hs
  rw [h] at this
  exact this

theorem pure (a : α) : Keeps P (Pure.pure a : EStateM ε σ α) := fun _ hs => hs

theorem throw (e : ε) : Keeps P (MonadExcept.throw e : EStateM ε σ α) := fun _ hs => hs

theorem modify {f : σ → σ} (hf : ∀ s, P s → P (f s)) :
    Keeps P (modifyGet fun s => (PUnit.unit, f s) : EStateM ε σ PUnit) := fun s hs => hf s hs

theorem bind {f : α → EStateM ε σ β} (hx : Keeps P x) (hf : ∀ a, Keeps P (f a)) :
    Keeps P (x >>= f) := by
  intro s hs
  have hP := hx s hs
  show P (finalState (EStateM.bind x f s))
  rw [EStateM.bind]
  cases h : x s with
  | ok a s' =>
    rw [h] at hP
    exact hf a s' hP
  | error e s' =>
    rw [h] at hP
    exact hP

theorem forM {f : β → EStateM ε σ PUnit} {bs : List β} (hf : ∀ b ∈ bs, Keeps P (f b)) :
    Keeps P (ForM.forM bs f : EStateM ε σ PUnit) := by
  induction bs with
  | nil => exact Keeps.pure _
  | cons b bs ih =>
    exact Keeps.bind (hf b (by simp)) fun _ => ih fun b' hb' => hf b' (by simp [hb'])

theorem ifThen {c : Prop} [Decidable c] {y : EStateM ε σ PUnit} (hy : Keeps P y) :
    Keeps P (ifThen c y) := by
  rw [Fallible.ifThen]
  by_cases h : c
  · rw [if_pos h]
    exact hy
  · rw [if_neg h]
    exact Keeps.pure _

theorem mapError {f : ε → ε} (hx : Keeps P x) : Keeps P (mapError f x) := by
  intro s hs
  have hP := hx s hs
  rw [Fallible.mapError]
  cases h : x s with
  | ok a t =>
    rw [h] at hP
    exact hP
  | error e t =>
    rw [h] at hP
    exact hP

theorem onPart {part : σ → τ} {set : τ → σ → σ} {y : EStateM ε τ α}
    (hset : ∀ s t, P s → P (set t s)) : Keeps P (onPart part set y) := by
  intro s hs
  rw [Fallible.onPart]
  cases y (part s) with
  | ok a t => exact hset s t hs
  | error e t => exact hset s t hs

/-- A program on one part keeps what it keeps of the part. -/
theorem onPart_of_keeps {part : σ → τ} {set : τ → σ → σ} {y : EStateM ε τ α} {Q : τ → Prop}
    (hy : Keeps Q y) (hpart : ∀ s, P s → Q (part s)) (hset : ∀ s t, P s → Q t → P (set t s)) :
    Keeps P (Fallible.onPart part set y) := by
  intro s hs
  have hQ := hy (part s) (hpart s hs)
  rw [Fallible.onPart]
  cases h : y (part s) with
  | ok a t =>
    rw [h] at hQ
    exact hset s t hs hQ
  | error e t =>
    rw [h] at hQ
    exact hset s t hs hQ

end Keeps

/-! ### Failing runs -/

theorem bind_eq_error {x : EStateM ε σ α} {f : α → EStateM ε σ β} {s s'' : σ} {err : ε} :
    (x >>= f) s = .error err s'' ↔
      x s = .error err s'' ∨ ∃ a s', x s = .ok a s' ∧ f a s' = .error err s'' := by
  show EStateM.bind x f s = _ ↔ _
  rw [EStateM.bind]
  cases hx : x s with
  | ok a s' =>
    constructor
    · intro h
      exact .inr ⟨a, s', rfl, h⟩
    · rintro (h | ⟨a', t, heq, h⟩)
      · exact absurd h (by simp)
      · rw [EStateM.Result.ok.injEq] at heq
        obtain ⟨rfl, rfl⟩ := heq
        exact h
  | error e s' =>
    simp only [EStateM.Result.error.injEq]
    constructor
    · intro h
      exact .inl h
    · rintro (h | ⟨a', t, heq, _⟩)
      · exact h
      · exact absurd heq (by simp)

/-- From a state of `P`, a run succeeds in one or fails with an error of `Q`. -/
def FailsOnly (P : σ → Prop) (Q : ε → Prop) (x : EStateM ε σ α) : Prop :=
  ∀ s, P s → (∀ a s', x s = .ok a s' → P s') ∧ ∀ err s', x s = .error err s' → Q err

namespace FailsOnly

variable {P : σ → Prop} {Q : ε → Prop} {x : EStateM ε σ α}

/-- A program that always succeeds. -/
theorem of_ok {g : σ → α} {f : σ → σ} (h : ∀ s, x s = .ok (g s) (f s)) (hf : ∀ s, P s → P (f s)) :
    FailsOnly P Q x := by
  intro s hs
  rw [h s]
  refine ⟨fun a s' heq => ?_, fun err s' heq => absurd heq (by simp)⟩
  rw [EStateM.Result.ok.injEq] at heq
  rw [← heq.2]
  exact hf s hs

theorem pure (a : α) : FailsOnly P Q (Pure.pure a : EStateM ε σ α) :=
  of_ok (fun _ => rfl) fun _ hs => hs

theorem bind {f : α → EStateM ε σ β} (hx : FailsOnly P Q x) (hf : ∀ a, FailsOnly P Q (f a)) :
    FailsOnly P Q (x >>= f) := by
  intro s hs
  obtain ⟨hok, herr⟩ := hx s hs
  refine ⟨fun b s' h => ?_, fun err s' h => ?_⟩
  · obtain ⟨a, t, ht, h⟩ := bind_eq_ok.mp h
    exact (hf a t (hok a t ht)).1 b s' h
  · rcases bind_eq_error.mp h with h | ⟨a, t, ht, h⟩
    · exact herr err s' h
    · exact (hf a t (hok a t ht)).2 err s' h

theorem ifThen {c : Prop} [Decidable c] {y : EStateM ε σ PUnit} (hy : FailsOnly P Q y) :
    FailsOnly P Q (ifThen c y) := by
  rw [Fallible.ifThen]
  by_cases h : c
  · rw [if_pos h]
    exact hy
  · rw [if_neg h]
    exact FailsOnly.pure _

end FailsOnly

end Fallible
