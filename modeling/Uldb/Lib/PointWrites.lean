/-
Runs of writes to single points of a function.

A run that is cut short leaves one of its stages: the function after the first
writes of the run.  `stages_iff` says when every stage is one of two given
functions.
-/
import Mathlib.Logic.Function.Basic
import Mathlib.Data.List.Basic

namespace Uldb

variable {K V : Type*} [DecidableEq K]

/-- The function after a run of writes. -/
def updateAll (f : K → V) (ws : List (K × V)) : K → V :=
  ws.foldl (fun f kv => Function.update f kv.1 kv.2) f

@[simp]
theorem updateAll_nil (f : K → V) : updateAll f [] = f := rfl

@[simp]
theorem updateAll_cons (f : K → V) (kv : K × V) (ws : List (K × V)) :
    updateAll f (kv :: ws) = updateAll (Function.update f kv.1 kv.2) ws := rfl

/-- Every stage of a run of writes is one of two functions. -/
def Stages (f : K → V) (ws : List (K × V)) (s a : K → V) : Prop :=
  ∀ i ≤ ws.length, updateAll f (ws.take i) = s ∨ updateAll f (ws.take i) = a

/-- Two functions differ at one point at most. -/
def DifferOnce (s a : K → V) : Prop := ∃ key, ∀ k, k ≠ key → a k = s k

variable {f s a : K → V} {kv : K × V} {ws : List (K × V)}

theorem stages_nil : Stages f ([] : List (K × V)) s a ↔ f = s ∨ f = a := by
  constructor
  · exact fun h => h 0 (Nat.le_refl 0)
  · intro h i _
    rwa [List.take_nil]

theorem stages_cons :
    Stages f (kv :: ws) s a ↔ (f = s ∨ f = a) ∧ Stages (Function.update f kv.1 kv.2) ws s a := by
  constructor
  · exact fun h => ⟨h 0 (Nat.zero_le _), fun i hi => h (i + 1) (Nat.succ_le_succ hi)⟩
  · rintro ⟨hfirst, hrest⟩ i hi
    cases i with
    | zero => exact hfirst
    | succ i => exact hrest i (Nat.le_of_succ_le_succ hi)

theorem Stages.first (h : Stages f ws s a) : f = s ∨ f = a := h 0 (Nat.zero_le _)

/-- A stage holds what was written to it last. -/
theorem Stages.mem (h : Stages f ws s a) (hkv : kv ∈ ws) : kv.2 = s kv.1 ∨ kv.2 = a kv.1 := by
  induction ws generalizing f with
  | nil => exact absurd hkv List.not_mem_nil
  | cons kv' ws ih =>
    obtain ⟨-, hrest⟩ := stages_cons.mp h
    rcases List.mem_cons.mp hkv with rfl | hkv
    · exact hrest.first.imp (fun hs => by rw [← hs, Function.update_self])
        fun ha => by rw [← ha, Function.update_self]
    · exact ih hrest hkv

/-- The first write that changes the function takes one of the two to the other. -/
theorem Stages.differOnce (h : Stages f ws s a) :
    (∀ kv ∈ ws, kv.2 = f kv.1) ∨ DifferOnce s a := by
  induction ws generalizing f with
  | nil => exact .inl fun _ hkv => absurd hkv List.not_mem_nil
  | cons kv ws ih =>
    obtain ⟨hfirst, hrest⟩ := stages_cons.mp h
    by_cases hkept : kv.2 = f kv.1
    · have hsame : Function.update f kv.1 kv.2 = f := by rw [hkept, Function.update_eq_self]
      rw [hsame] at hrest
      refine (ih hrest).imp_left fun hall kv' hkv' => ?_
      rcases List.mem_cons.mp hkv' with rfl | hkv'
      · exact hkept
      · exact hall kv' hkv'
    · have hchanged : Function.update f kv.1 kv.2 ≠ f := fun hsame => hkept <| by
        rw [← congrFun hsame kv.1, Function.update_self]
      have hoff : ∀ k, k ≠ kv.1 → Function.update f kv.1 kv.2 k = f k :=
        fun k hk => Function.update_of_ne hk ..
      refine .inr ⟨kv.1, fun k hk => ?_⟩
      have hk' := hoff k hk
      -- the write is a step from one function to the other, in either direction
      rcases hfirst with rfl | rfl <;> rcases hrest.first with hnext | hnext
      · exact absurd hnext hchanged
      · rwa [hnext] at hk'
      · rw [hnext] at hk'
        exact hk'.symm
      · exact absurd hnext hchanged

theorem stages_of_kept (hfirst : f = s ∨ f = a) (hkept : ∀ kv ∈ ws, kv.2 = f kv.1) :
    Stages f ws s a := by
  induction ws with
  | nil => exact stages_nil.mpr hfirst
  | cons kv ws ih =>
    refine stages_cons.mpr ⟨hfirst, ?_⟩
    rw [hkept kv List.mem_cons_self, Function.update_eq_self]
    exact ih fun kv' hkv' => hkept kv' (List.mem_cons_of_mem kv hkv')

theorem stages_of_differOnce (hfirst : f = s ∨ f = a) (hdiffer : DifferOnce s a)
    (hws : ∀ kv ∈ ws, kv.2 = s kv.1 ∨ kv.2 = a kv.1) : Stages f ws s a := by
  obtain ⟨key, hkey⟩ := hdiffer
  induction ws generalizing f with
  | nil => exact stages_nil.mpr hfirst
  | cons kv ws ih =>
    refine stages_cons.mpr ⟨hfirst, ih ?_ fun kv' hkv' => hws kv' (List.mem_cons_of_mem kv hkv')⟩
    have hoff : ∀ k, k ≠ key → f k = s k := fun k hk => by
      rcases hfirst with rfl | rfl
      · rfl
      · exact hkey k hk
    have hv := hws kv List.mem_cons_self
    rcases eq_or_ne kv.1 key with rfl | hne
    · -- the write decides which of the two it is
      refine hv.imp (fun hv => ?_) fun hv => ?_
      · rw [hv, Function.update_eq_iff]
        exact ⟨rfl, hoff⟩
      · rw [hv, Function.update_eq_iff]
        exact ⟨rfl, fun k hk => (hoff k hk).trans (hkey k hk).symm⟩
    · -- the two agree there, and so the write changes nothing
      rw [hkey kv.1 hne, or_self] at hv
      rwa [hv, ← hoff kv.1 hne, Function.update_eq_self]

/-- **All stages of a run of writes** are one of two functions exactly if the first one is,
every write leaves the value of one of them, and either no write changes anything or the
two differ at one point only. -/
theorem stages_iff : Stages f ws s a ↔ (f = s ∨ f = a) ∧
    (∀ kv ∈ ws, kv.2 = s kv.1 ∨ kv.2 = a kv.1) ∧
    ((∀ kv ∈ ws, kv.2 = f kv.1) ∨ DifferOnce s a) := by
  constructor
  · exact fun h => ⟨h.first, fun _ hkv => h.mem hkv, h.differOnce⟩
  · rintro ⟨hfirst, hws, hkept | hdiffer⟩
    · exact stages_of_kept hfirst hkept
    · exact stages_of_differOnce hfirst hdiffer hws

end Uldb
