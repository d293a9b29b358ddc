/-
Distances in a directed graph, and the turns of a breadth-first search.

`Walk R n a b` is a walk of `n` steps along `R`, and `IsDist R a b n` says that none is shorter.
A search up to a bound keeps the nodes it has expanded and its queue, each with a depth
(`Explored`).

* `Explored.initial` — the beginning;
* `Explored.skip`, `Explored.expand` — a turn;
* `Explored.mem_iff` — with the queue empty, the depths are the distances up to the bound.
-/
import Mathlib

namespace BreadthFirst

variable {V : Type} {R : V → V → Prop}

/-- A walk of `n` steps. -/
inductive Walk (R : V → V → Prop) : ℕ → V → V → Prop
  | nil (a : V) : Walk R 0 a a
  | snoc {n : ℕ} {a b c : V} : Walk R n a b → R b c → Walk R (n + 1) a c

/-- The length of a shortest walk. -/
def IsDist (R : V → V → Prop) (a b : V) (n : ℕ) : Prop :=
  Walk R n a b ∧ ∀ m, Walk R m a b → n ≤ m

/-- A node at the end of a walk has a distance. -/
theorem Walk.exists_isDist {n : ℕ} {a b : V} (h : Walk R n a b) : ∃ m ≤ n, IsDist R a b m := by
  classical
  have hex : ∃ m, Walk R m a b := ⟨n, h⟩
  exact ⟨Nat.find hex, Nat.find_min' hex h, Nat.find_spec hex, fun m hm => Nat.find_min' hex hm⟩

theorem Walk.mono {S : V → V → Prop} (hsub : ∀ a b, R a b → S a b) {n : ℕ} {a b : V}
    (h : Walk R n a b) : Walk S n a b := by
  induction h with
  | nil a => exact .nil a
  | snoc _ hstep ih => exact ih.snoc (hsub _ _ hstep)

/-- No walk leaves a node without successors. -/
theorem Walk.eq_of_forall_not {a b : V} (hnone : ∀ c, ¬R a c) {n : ℕ} (h : Walk R n a b) :
    b = a := by
  induction n generalizing b with
  | zero =>
    cases h
    rfl
  | succ n ih =>
    obtain _ | ⟨hwalk, hstep⟩ := h
    obtain rfl := ih hwalk
    exact absurd hstep (hnone b)

/-- **Fewer edges, the same nodes.**  A part of the edges leads as far within a bound as all of
them exactly if it leads within the bound to the end of each edge that is left. -/
theorem within_iff {S : V → V → Prop} (hsub : ∀ a b, R a b → S a b) (start : V) (bound : ℕ) :
    (∀ b, b ≠ start → ((∃ n ≤ bound, Walk S n start b) ↔ ∃ n ≤ bound, Walk R n start b)) ↔
      ∀ n < bound, ∀ a b, Walk S n start a → S a b → ∃ m ≤ bound, Walk R m start b := by
  constructor
  · intro h n hn a b hwalk hstep
    by_cases hb : b = start
    · exact ⟨0, Nat.zero_le bound, hb ▸ .nil b⟩
    · exact (h b hb).mp ⟨n + 1, hn, hwalk.snoc hstep⟩
  · intro h b hb
    constructor
    · rintro ⟨n, hn, hwalk⟩
      cases hwalk with
      | nil => exact absurd rfl hb
      | snoc hwalk hstep => exact h _ hn _ _ hwalk hstep
    · rintro ⟨n, hn, hwalk⟩
      exact ⟨n, hn, hwalk.mono hsub⟩

/-- What a search from `start` keeps: depths in order, those of the queue one apart at most, and
behind every expanded node its successors. -/
structure Explored (R : V → V → Prop) (start : V) (bound : ℕ) (done queue : List (V × ℕ)) :
    Prop where
  source : (start, 0) ∈ done ++ queue
  nodup : ((done ++ queue).map Prod.fst).Nodup
  sorted : (done ++ queue).Pairwise fun p q => p.2 ≤ q.2
  near : ∀ p ∈ queue.head?, ∀ q ∈ queue, q.2 ≤ p.2 + 1
  walk : ∀ p ∈ done ++ queue, Walk R p.2 start p.1 ∧ p.2 ≤ bound
  closed : ∀ p ∈ done, p.2 < bound → ∀ b, R p.1 b → ∃ d ≤ p.2 + 1, (b, d) ∈ done ++ queue

variable {start : V} {bound : ℕ} {done queue : List (V × ℕ)} {p : V × ℕ}

theorem Explored.initial (R : V → V → Prop) (start : V) (bound : ℕ) :
    Explored R start bound [] [(start, 0)] where
  source := List.mem_singleton.mpr rfl
  nodup := List.nodup_singleton start
  sorted := List.pairwise_singleton _ _
  near := by simp
  walk := by simpa using Walk.nil start
  closed := by simp

/-- Everything that has been found is at most one deeper than the node under work. -/
theorem Explored.le_succ (h : Explored R start bound done (p :: queue)) :
    ∀ q ∈ done ++ p :: queue, q.2 ≤ p.2 + 1 := by
  intro q hq
  rcases List.mem_append.mp hq with hdone | hqueue
  · have hle := (List.pairwise_append.mp h.sorted).2.2 q hdone p List.mem_cons_self
    omega
  · exact h.near p rfl q hqueue

/-- The nodes in the queue are at least as deep as the node under work. -/
theorem Explored.le_queue (h : Explored R start bound done (p :: queue)) :
    ∀ q ∈ queue, p.2 ≤ q.2 :=
  fun _ hq => List.rel_of_pairwise_cons (List.pairwise_append.mp h.sorted).2.1 hq

/-- **A turn** that takes a node off the queue and adds its new successors. -/
theorem Explored.expand (h : Explored R start bound done (p :: queue)) (hdepth : p.2 < bound)
    {new : List V} (hnodup : new.Nodup)
    (hnew : ∀ b ∈ new, R p.1 b ∧ b ∉ (done ++ p :: queue).map Prod.fst)
    (hall : ∀ b, R p.1 b → b ∈ new ∨ b ∈ (done ++ p :: queue).map Prod.fst) :
    Explored R start bound (done ++ [p]) (queue ++ new.map fun b => (b, p.2 + 1)) := by
  have hfound : done ++ [p] ++ (queue ++ new.map fun b => (b, p.2 + 1))
      = (done ++ p :: queue) ++ new.map fun b => (b, p.2 + 1) := by simp
  refine ⟨?_, ?_, ?_, ?_, ?_, ?_⟩
  · rw [hfound]
    exact List.mem_append_left _ h.source
  · have hfst : (new.map fun b => (b, p.2 + 1)).map Prod.fst = new := by
      rw [List.map_map]
      exact List.map_id new
    rw [hfound, List.map_append, hfst, List.nodup_append]
    refine ⟨h.nodup, hnodup, fun a ha b hb hab => ?_⟩
    exact (hnew b hb).2 (hab ▸ ha)
  · rw [hfound, List.pairwise_append]
    refine ⟨h.sorted, ?_, fun q hq r hr => ?_⟩
    · rw [List.pairwise_map]
      exact List.pairwise_of_forall fun _ _ => le_refl _
    · obtain ⟨b, _, rfl⟩ := List.mem_map.mp hr
      exact h.le_succ q hq
  · -- the new head is not less deep than the node that left
    intro q hq r hr
    have hle : p.2 ≤ q.2 := by
      have hmem := List.mem_of_mem_head? hq
      rcases List.mem_append.mp hmem with hold | hnew
      · exact h.le_queue q hold
      · obtain ⟨b, _, rfl⟩ := List.mem_map.mp hnew
        exact Nat.le_succ _
    rcases List.mem_append.mp hr with hold | hnew
    · have hnear := h.near p rfl r (List.mem_cons_of_mem _ hold)
      omega
    · obtain ⟨b, _, rfl⟩ := List.mem_map.mp hnew
      show p.2 + 1 ≤ q.2 + 1
      omega
  · intro q hq
    rw [hfound] at hq
    rcases List.mem_append.mp hq with hold | hq
    · exact h.walk q hold
    · obtain ⟨b, hb, rfl⟩ := List.mem_map.mp hq
      have hwalk := (h.walk p (by simp)).1
      exact ⟨hwalk.snoc (hnew b hb).1, hdepth⟩
  · intro q hq hlt b hb
    rw [hfound]
    rcases List.mem_append.mp hq with hold | hq
    · obtain ⟨d, hd, hmem⟩ := h.closed q hold hlt b hb
      exact ⟨d, hd, List.mem_append_left _ hmem⟩
    · obtain rfl := List.mem_singleton.mp hq
      rcases hall b hb with hmem | hmem
      · exact ⟨q.2 + 1, le_refl _, List.mem_append_right _ (List.mem_map_of_mem hmem)⟩
      · obtain ⟨r, hr, rfl⟩ := List.mem_map.mp hmem
        exact ⟨r.2, h.le_succ r hr, List.mem_append_left _ hr⟩

/-- **A turn** that takes a node off the queue at the bound. -/
theorem Explored.skip (h : Explored R start bound done (p :: queue)) (hdepth : bound ≤ p.2) :
    Explored R start bound (done ++ [p]) queue := by
  have hfound : done ++ [p] ++ queue = done ++ p :: queue := by simp
  refine ⟨hfound ▸ h.source, hfound ▸ h.nodup, hfound ▸ h.sorted, fun q hq r hr => ?_,
    hfound ▸ h.walk, fun q hq hlt b hb => ?_⟩
  · have hle := h.le_queue q (List.mem_of_mem_head? hq)
    have hnear := h.near p rfl r (List.mem_cons_of_mem _ hr)
    omega
  · rw [hfound]
    rcases List.mem_append.mp hq with hold | hq
    · exact h.closed q hold hlt b hb
    · rw [List.mem_singleton.mp hq] at hlt
      omega

/-- Every node at the end of a walk within the bound has been found. -/
theorem Explored.reached (h : Explored R start bound done []) {n : ℕ} {b : V}
    (hwalk : Walk R n start b) (hn : n ≤ bound) : ∃ d ≤ n, (b, d) ∈ done := by
  induction n generalizing b with
  | zero =>
    cases hwalk
    exact ⟨0, le_refl _, by simpa using h.source⟩
  | succ n ih =>
    cases hwalk with
    | snoc hwalk hstep =>
      obtain ⟨d, hd, hmem⟩ := ih hwalk (by omega)
      obtain ⟨d', hd', hmem'⟩ := h.closed _ hmem (show d < bound by omega) _ hstep
      refine ⟨d', ?_, by simpa using hmem'⟩
      have hle : d' ≤ d + 1 := hd'
      omega

/-- **At the end**, the nodes that have been found are those within the bound, at their
distances. -/
theorem Explored.mem_iff (h : Explored R start bound done []) {b : V} {d : ℕ} :
    (b, d) ∈ done ↔ IsDist R start b d ∧ d ≤ bound := by
  have hnodup : (done.map Prod.fst).Nodup := by simpa using h.nodup
  constructor
  · intro hmem
    obtain ⟨hwalk, hbound⟩ := h.walk (b, d) (List.mem_append_left _ hmem)
    refine ⟨⟨hwalk, fun m hm => ?_⟩, hbound⟩
    by_contra hlt
    obtain ⟨d', hd', hmem'⟩ := h.reached hm (show m ≤ bound by omega)
    -- a node is found at one depth only
    have hone := List.inj_on_of_nodup_map hnodup hmem hmem' rfl
    have hdepth : d = d' := congrArg Prod.snd hone
    omega
  · rintro ⟨⟨hwalk, hmin⟩, hbound⟩
    obtain ⟨d', hd', hmem⟩ := h.reached hwalk hbound
    have hle := hmin d' (h.walk (b, d') (List.mem_append_left _ hmem)).1
    rwa [show d = d' by omega]

end BreadthFirst
