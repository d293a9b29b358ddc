/-
Programs whose errors are those of a schedule of faults.

The state holds the faults that are still to come.  A run that succeeds leaves them, and a run
that fails has used up the first one and has its error (`Accounted`); or it has crashed.

* `Accounted.bind`, `Accounted.ifThen`, `Accounted.onPart` — programs that are put together;
* `Accounted.of_failsOnly` — a program that leaves the faults alone and can only crash;
* `Stays` — what a run keeps, together with the errors that it can fail with.
-/
import Uldb.Lib.Fallible

namespace Fallible

variable {ε σ τ φ α β : Type}

/-! ### Faults -/

/-- From a state of `P`, a run succeeds in one with the same faults to come, or it fails with the
error of the first fault and uses it up, or it crashes. -/
def Accounted (P : σ → Prop) (pending : σ → List φ) (error : φ → ε) (Crash : ε → Prop)
    (x : EStateM ε σ α) : Prop :=
  ∀ s, P s → (∀ a s', x s = .ok a s' → P s' ∧ pending s' = pending s) ∧
    ∀ err s', x s = .error err s' →
      Crash err ∨ ∃ fault, err = error fault ∧ pending s = fault :: pending s'

namespace Accounted

variable {P : σ → Prop} {pending : σ → List φ} {error : φ → ε} {Crash : ε → Prop}
  {x : EStateM ε σ α}

/-- A run that has succeeded. -/
theorem at_ok {s s' : σ} (hs' : P s') (hpending : pending s' = pending s) (a : α) :
    (∀ b t, (.ok a s' : EStateM.Result ε σ α) = .ok b t → P t ∧ pending t = pending s) ∧
      ∀ err t, (.ok a s' : EStateM.Result ε σ α) = .error err t →
        Crash err ∨ ∃ fault, err = error fault ∧ pending s = fault :: pending t := by
  refine ⟨fun b t h => ?_, fun err t h => absurd h (by simp)⟩
  rw [← (EStateM.Result.ok.inj h).2]
  exact ⟨hs', hpending⟩

theorem of_failsOnly (hx : FailsOnly P Crash x)
    (hkeeps : ∀ faults, Keeps (fun s => pending s = faults) x) :
    Accounted P pending error Crash x := by
  intro s hs
  obtain ⟨hok, herr⟩ := hx s hs
  exact ⟨fun a s' h => ⟨hok a s' h, (hkeeps (pending s)).of_ok h rfl⟩,
    fun err s' h => .inl (herr err s' h)⟩

theorem bind {f : α → EStateM ε σ β} (hx : Accounted P pending error Crash x)
    (hf : ∀ a, Accounted P pending error Crash (f a)) :
    Accounted P pending error Crash (x >>= f) := by
  intro s hs
  obtain ⟨hok, herr⟩ := hx s hs
  refine ⟨fun b s' h => ?_, fun err s' h => ?_⟩
  · obtain ⟨a, t, ht, h⟩ := bind_eq_ok.mp h
    obtain ⟨hPt, hpending⟩ := hok a t ht
    obtain ⟨hPs', hpending'⟩ := (hf a t hPt).1 b s' h
    exact ⟨hPs', hpending'.trans hpending⟩
  · rcases bind_eq_error.mp h with h | ⟨a, t, ht, h⟩
    · exact herr err s' h
    · -- the first part has left the faults that the second one meets
      obtain ⟨hPt, hpending⟩ := hok a t ht
      rw [← hpending]
      exact (hf a t hPt).2 err s' h

theorem ifThen {c : Prop} [Decidable c] {y : EStateM ε σ PUnit}
    (hy : Accounted P pending error Crash y) :
    Accounted P pending error Crash (Fallible.ifThen c y) := by
  rw [Fallible.ifThen]
  by_cases h : c
  · rw [if_pos h]
    exact hy
  · rw [if_neg h]
    exact of_failsOnly (FailsOnly.pure _) fun _ => Keeps.pure _

theorem forM {f : β → EStateM ε σ PUnit} {bs : List β}
    (hf : ∀ b ∈ bs, Accounted P pending error Crash (f b)) :
    Accounted P pending error Crash (ForM.forM bs f : EStateM ε σ PUnit) := by
  induction bs with
  | nil => exact of_failsOnly (FailsOnly.pure _) fun _ => Keeps.pure _
  | cons b bs ih =>
    exact bind (hf b List.mem_cons_self) fun _ =>
      ih fun b' hb' => hf b' (List.mem_cons_of_mem b hb')

/-- The faults are in the part of the state that the program works on. -/
theorem onPart {part : σ → τ} {set : τ → σ → σ} {pendingPart : τ → List φ} {y : EStateM ε τ α}
    {Q : τ → Prop} (hy : Accounted Q pendingPart error Crash y) (hpart : ∀ s, P s → Q (part s))
    (hset : ∀ s t, P s → Q t → P (set t s)) (hget : ∀ s t, part (set t s) = t) :
    Accounted P (fun s => pendingPart (part s)) error Crash (Fallible.onPart part set y) := by
  intro s hs
  obtain ⟨hok, herr⟩ := hy (part s) (hpart s hs)
  refine ⟨fun a s' h => ?_, fun err s' h => ?_⟩
  · obtain ⟨t, ht, rfl⟩ := onPart_eq_ok.mp h
    obtain ⟨hQt, hpending⟩ := hok a t ht
    refine ⟨hset s t hs hQt, ?_⟩
    simp only [hget]
    exact hpending
  · rw [Fallible.onPart] at h
    cases hrun : y (part s) with
    | ok a t =>
      rw [hrun] at h
      exact absurd h (by simp)
    | error err' t =>
      rw [hrun, EStateM.Result.error.injEq] at h
      obtain ⟨rfl, rfl⟩ := h
      simp only [hget]
      exact herr err' t hrun

/-- What a run that fails tells. -/
theorem of_error (hx : Accounted P pending error Crash x) {s s' : σ} {err : ε} (hs : P s)
    (h : x s = .error err s') (hcrash : ¬Crash err) :
    ∃ fault, err = error fault ∧ pending s = fault :: pending s' :=
  ((hx s hs).2 err s' h).resolve_left hcrash

end Accounted

/-! ### Errors -/

namespace FailsOnly

variable {P : σ → Prop} {Q : ε → Prop} {x : EStateM ε σ α}

theorem of_keeps (hx : FailsOnly (fun _ => True) Q x) (hkeeps : Keeps P x) : FailsOnly P Q x :=
  fun s hs => ⟨fun _ _ h => hkeeps.of_ok h hs, (hx s trivial).2⟩

theorem forM {f : β → EStateM ε σ PUnit} {bs : List β} (hf : ∀ b ∈ bs, FailsOnly P Q (f b)) :
    FailsOnly P Q (ForM.forM bs f : EStateM ε σ PUnit) := by
  induction bs with
  | nil => exact FailsOnly.pure _
  | cons b bs ih =>
    exact FailsOnly.bind (hf b List.mem_cons_self) fun _ =>
      ih fun b' hb' => hf b' (List.mem_cons_of_mem b hb')

end FailsOnly

/-- From a state of `P`, a run ends in one, and it fails only with an error of `Q`. -/
def Stays (P : σ → Prop) (Q : ε → Prop) (x : EStateM ε σ α) : Prop :=
  ∀ s, P s → P (finalState (x s)) ∧ ∀ err s', x s = .error err s' → Q err

namespace Stays

variable {P : σ → Prop} {Q : ε → Prop} {x : EStateM ε σ α}

theorem keeps (hx : Stays P Q x) : Keeps P x := fun s hs => (hx s hs).1

/-- A program that keeps more than its errors depend on. -/
theorem of_keeps {P' : σ → Prop} (hP : ∀ s, P s → P' s) (hx : FailsOnly P' Q x)
    (hkeeps : Keeps P x) : Stays P Q x :=
  fun s hs => ⟨hkeeps s hs, (hx s (hP s hs)).2⟩

/-- A run that has succeeded. -/
theorem at_ok {s : σ} (hs : P s) (a : α) :
    P (finalState (.ok a s : EStateM.Result ε σ α)) ∧
      ∀ err s', (.ok a s : EStateM.Result ε σ α) = .error err s' → Q err :=
  ⟨hs, fun err s' h => absurd h (by simp)⟩

/-- A run that has failed. -/
theorem at_error {s : σ} (hs : P s) {err : ε} (herr : Q err) :
    P (finalState (.error err s : EStateM.Result ε σ α)) ∧
      ∀ err' s', (.error err s : EStateM.Result ε σ α) = .error err' s' → Q err' := by
  refine ⟨hs, fun err' s' h => ?_⟩
  rw [← (EStateM.Result.error.inj h).1]
  exact herr

theorem of_ok {g : σ → α} {f : σ → σ} (h : ∀ s, x s = .ok (g s) (f s)) (hf : ∀ s, P s → P (f s)) :
    Stays P Q x := by
  intro s hs
  rw [h s]
  exact at_ok (hf s hs) _

theorem pure (a : α) : Stays P Q (Pure.pure a : EStateM ε σ α) :=
  of_ok (fun _ => rfl) fun _ hs => hs

/-- A program that cannot fail returns. -/
theorem returns (hx : Stays P (fun _ => False) x) {s : σ} (hs : P s) :
    ∃ a s', x s = .ok a s' ∧ P s' := by
  obtain ⟨hfinal, hfails⟩ := hx s hs
  cases hrun : x s with
  | ok a s' =>
    rw [hrun] at hfinal
    exact ⟨a, s', rfl, hfinal⟩
  | error err s' => exact (hfails err s' hrun).elim

theorem bind {f : α → EStateM ε σ β} (hx : Stays P Q x) (hf : ∀ a, Stays P Q (f a)) :
    Stays P Q (x >>= f) := by
  intro s hs
  refine ⟨Keeps.bind hx.keeps (fun a => (hf a).keeps) s hs, fun err s' h => ?_⟩
  rcases bind_eq_error.mp h with h | ⟨a, t, ht, h⟩
  · exact (hx s hs).2 err s' h
  · exact (hf a t (hx.keeps.of_ok ht hs)).2 err s' h

theorem forM {f : β → EStateM ε σ PUnit} {bs : List β} (hf : ∀ b ∈ bs, Stays P Q (f b)) :
    Stays P Q (ForM.forM bs f : EStateM ε σ PUnit) := by
  induction bs with
  | nil => exact Stays.pure _
  | cons b bs ih =>
    exact Stays.bind (hf b List.mem_cons_self) fun _ =>
      ih fun b' hb' => hf b' (List.mem_cons_of_mem b hb')

theorem mapError {f : ε → ε} (hf : ∀ err, Q err → Q (f err)) (hx : Stays P Q x) :
    Stays P Q (Fallible.mapError f x) := by
  intro s hs
  refine ⟨hx.keeps.mapError s hs, fun err s' h => ?_⟩
  rw [Fallible.mapError] at h
  cases hrun : x s with
  | ok a t =>
    rw [hrun] at h
    exact absurd h (by simp)
  | error err' t =>
    rw [hrun, EStateM.Result.error.injEq] at h
    rw [← h.1]
    exact hf err' ((hx s hs).2 err' t hrun)

end Stays

end Fallible
