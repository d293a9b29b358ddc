/-
Runs of equal items in a list.

* `foldl_runs` — to go through a list is to go through its runs, each as often as it is long;
* `nodup_runs` — in a sorted list every item has one run.
-/
import Mathlib

namespace Runs

variable {α σ : Type*} [DecidableEq α]

/-- The runs of equal items, with their lengths. -/
def runs : List α → List (α × ℕ)
  | [] => []
  | a :: rest => (a, (rest.takeWhile (· = a)).length + 1) :: runs (rest.dropWhile (· = a))
termination_by l => l.length
decreasing_by exact Nat.lt_succ_of_le (List.dropWhile_sublist _).length_le

omit [DecidableEq α] in
theorem foldl_replicate_eq (f : σ → α → σ) (a : α) (n : ℕ) (s : σ) :
    (List.replicate n a).foldl f s = (fun s => f s a)^[n] s := by
  induction n generalizing s with
  | zero => rfl
  | succ n ih => exact ih (f s a)

/-- An item and those that follow it are a run, and the rest. -/
theorem cons_eq_run (a : α) (rest : List α) :
    a :: rest = List.replicate ((rest.takeWhile (· = a)).length + 1) a
      ++ rest.dropWhile (· = a) := by
  have hrun : rest.takeWhile (· = a) = List.replicate (rest.takeWhile (· = a)).length a := by
    refine List.eq_replicate_iff.mpr ⟨rfl, fun b hb => ?_⟩
    have hb' := List.mem_takeWhile_imp hb
    exact of_decide_eq_true hb'
  rw [List.replicate_succ, List.cons_append, ← hrun, List.takeWhile_append_dropWhile]

/-- The items of a run follow each other. -/
theorem foldl_runs (f : σ → α → σ) (s : σ) (l : List α) :
    l.foldl f s = (runs l).foldl (fun s run => (fun s => f s run.1)^[run.2] s) s := by
  induction l using runs.induct generalizing s with
  | case1 => rw [runs, List.foldl_nil, List.foldl_nil]
  | case2 a rest ih =>
    conv_lhs => rw [cons_eq_run a rest, List.foldl_append, foldl_replicate_eq, ih]
    rw [runs]
    rfl

theorem mem_of_mem_runs {l : List α} {run : α × ℕ} (h : run ∈ runs l) : run.1 ∈ l := by
  induction l using runs.induct with
  | case1 =>
    rw [runs] at h
    exact absurd h List.not_mem_nil
  | case2 a rest ih =>
    rw [runs] at h
    rcases List.mem_cons.mp h with rfl | h
    · exact List.mem_cons_self
    · exact List.mem_cons_of_mem _ ((List.dropWhile_sublist _).subset (ih h))

/-- A run is not empty. -/
theorem pos_of_mem_runs {l : List α} {run : α × ℕ} (h : run ∈ runs l) : 0 < run.2 := by
  induction l using runs.induct with
  | case1 =>
    rw [runs] at h
    exact absurd h List.not_mem_nil
  | case2 a rest ih =>
    rw [runs] at h
    rcases List.mem_cons.mp h with rfl | h
    · exact Nat.succ_pos _
    · exact ih h

/-- In a sorted list the runs are of different items. -/
theorem nodup_runs {le : α → α → Prop} (hanti : ∀ a b, le a b → le b a → a = b) {l : List α}
    (hl : l.Pairwise le) : ((runs l).map Prod.fst).Nodup := by
  induction l using runs.induct with
  | case1 =>
    rw [runs]
    exact List.nodup_nil
  | case2 a rest ih =>
    obtain ⟨hfirst, hrest⟩ := List.pairwise_cons.mp hl
    have hdrop := hrest.sublist (List.dropWhile_sublist (· = a))
    rw [runs, List.map_cons, List.nodup_cons]
    refine ⟨fun hmem => ?_, ih hdrop⟩
    obtain ⟨run, hrun, heq⟩ := List.mem_map.mp hmem
    have ha : a ∈ rest.dropWhile (· = a) := by
      have hmem := mem_of_mem_runs hrun
      rwa [heq] at hmem
    -- what is dropped ends at an item that is not `a`, and none after it is
    cases hcut : rest.dropWhile (· = a) with
    | nil =>
      rw [hcut] at ha
      exact absurd ha List.not_mem_nil
    | cons b t =>
      have hb : b ≠ a := by
        have hhead := List.head?_dropWhile_not (· = a) rest
        rw [hcut] at hhead
        simpa using hhead
      have hab : le a b := by
        refine hfirst b ((List.dropWhile_sublist (· = a)).subset ?_)
        rw [hcut]
        exact List.mem_cons_self
      rw [hcut] at ha hdrop
      rcases List.mem_cons.mp ha with hab' | hmem
      · exact hb hab'.symm
      · exact hb (hanti b a ((List.pairwise_cons.mp hdrop).1 a hmem) hab)

end Runs
