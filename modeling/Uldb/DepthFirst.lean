/-
Depth-first search of the relation graph (`RelationGraph::dfs`).

A node is marked when it comes off the stack, so it can be on the stack several times.  Every
edge is followed at most once: one turn for the start and one for each edge are enough
(`Valid.dfs_isSome`).
-/
import Uldb.Graph

namespace Uldb

namespace RelationGraph

/-- What a depth-first search keeps: the nodes seen, the stack with its top first, the results. -/
structure DfsState where
  visited : Finset ℕ
  stack : List (ℕ × ℕ)
  results : List TraversalResult

/-- Push the targets that have not been seen. -/
def pushUnvisited (visited : Finset ℕ) (depth : ℕ) (edges : List Edge) (stack : List (ℕ × ℕ)) :
    List (ℕ × ℕ) :=
  edges.foldl (fun stack e => if e.dst ∈ visited then stack else (e.dst, depth + 1) :: stack) stack

/-- The stack loop. -/
def dfsLoop (keys : List Str) (csr : Csr) (maxDepth : ℕ) (relationFilter : Option Relation) :
    ℕ → DfsState → Option (List TraversalResult)
  | fuel, s =>
    match s.stack with
    | [] => some s.results
    | (node, depth) :: stack =>
      match fuel with
      | 0 => none
      | fuel + 1 =>
        -- it was pushed by several nodes, and an earlier turn has seen it
        if node ∈ s.visited then
          dfsLoop keys csr maxDepth relationFilter fuel { s with stack := stack }
        else do
          let key ← keys[node]?
          let s : DfsState :=
            ⟨insert node s.visited, stack, s.results ++ [⟨key, depth, none⟩]⟩
          if maxDepth ≤ depth then dfsLoop keys csr maxDepth relationFilter fuel s
          else do
            -- the node under work counts as seen, so that a loop is not followed
            let edges ← csr.edges node
            let stack := pushUnvisited s.visited depth (edges.filter (passes relationFilter)) stack
            dfsLoop keys csr maxDepth relationFilter fuel { s with stack := stack }

/-- Depth-first search from a start node. -/
def dfs (g : RelationGraph) (start : Str) (direction : String) (maxDepth : ℕ)
    (relationFilter : Option Relation) : Option (List TraversalResult) :=
  let g := g.ensureBuilt
  match g.keyToIdx[start.1]? with
  | none => some []
  | some idx =>
    let csr := g.arrays direction
    dfsLoop g.idxToKey csr maxDepth relationFilter (csr.dst.length + 1) ⟨∅, [(idx, 0)], []⟩

/-! ### Searches return -/

theorem pushUnvisited_eq (visited : Finset ℕ) (depth : ℕ) (edges : List Edge)
    (stack : List (ℕ × ℕ)) : pushUnvisited visited depth edges stack
      = ((edges.filter fun e => e.dst ∉ visited).map fun e => (e.dst, depth + 1)).reverse
        ++ stack := by
  induction edges generalizing stack with
  | nil => rfl
  | cons e edges ih =>
    rw [pushUnvisited, List.foldl_cons, ← pushUnvisited, ih]
    by_cases hv : e.dst ∈ visited
    · simp [hv]
    · simp [hv]

/-- The number of edges of a node. -/
def degree (adj : List (List Edge)) (i : ℕ) : ℕ := (adj[i]?.getD []).length

theorem sum_degree (adj : List (List Edge)) :
    ∑ i ∈ Finset.range adj.length, degree adj i = adj.flatten.length := by
  induction adj using List.reverseRecOn with
  | nil => rfl
  | append_singleton adj edges ih =>
    have hold : ∀ i ∈ Finset.range adj.length, degree (adj ++ [edges]) i = degree adj i := by
      intro i hi
      rw [degree, List.getElem?_append_left (Finset.mem_range.mp hi), degree]
    rw [List.length_append, List.length_singleton, Finset.sum_range_succ,
      Finset.sum_congr rfl hold, ih, degree, List.getElem?_concat_length]
    simp

/-- A search holds numbers of nodes, and has fuel for its stack and for the edges of the nodes
that it has not seen. -/
structure DfsState.Fits (adj : List (List Edge)) (s : DfsState) (fuel : ℕ) : Prop where
  stack : ∀ p ∈ s.stack, p.1 < adj.length
  left : s.stack.length + ∑ i ∈ Finset.range adj.length \ s.visited, degree adj i ≤ fuel

variable {adj : List (List Edge)} {s : DfsState} {fuel node depth : ℕ} {stack : List (ℕ × ℕ)}

/-- The top of the stack comes off. -/
theorem DfsState.Fits.pop (hs : s.Fits adj (fuel + 1)) (hstack : s.stack = (node, depth) :: stack) :
    DfsState.Fits adj { s with stack := stack } fuel := by
  refine ⟨fun p hp => hs.stack p (hstack ▸ List.mem_cons_of_mem _ hp), ?_⟩
  have hleft := hs.left
  rw [hstack, List.length_cons] at hleft
  show stack.length + ∑ i ∈ Finset.range adj.length \ s.visited, degree adj i ≤ fuel
  omega

/-- A node is seen, and some of its edges are pushed. -/
theorem DfsState.Fits.visit (hs : s.Fits adj fuel) (hnode : node < adj.length)
    (hnew : node ∉ s.visited) (pushed : List (ℕ × ℕ)) (hlt : ∀ p ∈ pushed, p.1 < adj.length)
    (hlen : pushed.length ≤ degree adj node) (results : List TraversalResult) :
    DfsState.Fits adj ⟨insert node s.visited, pushed ++ s.stack, results⟩ fuel := by
  refine ⟨fun p hp => ?_, ?_⟩
  · rcases List.mem_append.mp hp with hp | hp
    · exact hlt p hp
    · exact hs.stack p hp
  · -- its edges leave the sum
    have hmem : node ∈ Finset.range adj.length \ s.visited :=
      Finset.mem_sdiff.mpr ⟨Finset.mem_range.mpr hnode, hnew⟩
    have hsum := Finset.add_sum_erase _ (degree adj) hmem
    have hleft := hs.left
    show (pushed ++ s.stack).length + ∑ i ∈ Finset.range adj.length \ insert node s.visited,
      degree adj i ≤ fuel
    rw [Finset.sdiff_insert, List.length_append]
    omega

theorem dfsLoop_isSome {keys : List Str} {csr : Csr} {maxDepth : ℕ}
    {relationFilter : Option Relation} (hs : s.Fits adj fuel) (hkeys : keys.length = adj.length)
    (hcsr : ∀ i edges, adj[i]? = some edges → csr.edges i = some edges)
    (hdst : ∀ edges ∈ adj, ∀ e ∈ edges, e.dst < adj.length) :
    ∃ results, dfsLoop keys csr maxDepth relationFilter fuel s = some results := by
  -- every turn takes one off the stack, and what it pushes is paid for by the node's edges
  induction fuel generalizing s with
  | zero =>
    have hstack : s.stack = [] := by
      have hleft := hs.left
      exact List.length_eq_zero_iff.mp (by omega)
    rw [dfsLoop, hstack]
    exact ⟨_, rfl⟩
  | succ fuel ih =>
    rw [dfsLoop]
    cases hstack : s.stack with
    | nil => exact ⟨_, rfl⟩
    | cons p stack =>
      obtain ⟨node, depth⟩ := p
      have hpop := hs.pop hstack
      have hnode : node < adj.length := hs.stack (node, depth) (by simp [hstack])
      by_cases hv : node ∈ s.visited
      · simp only [if_pos hv]
        exact ih hpop
      · simp only [if_neg hv, List.getElem?_eq_getElem (hkeys ▸ hnode), Option.bind_eq_bind,
          Option.bind_some]
        by_cases hdepth : maxDepth ≤ depth
        · simp only [if_pos hdepth]
          exact ih (hpop.visit hnode hv [] (by simp) (Nat.zero_le _) _)
        · have hedges := List.getElem?_eq_getElem hnode
          simp only [if_neg hdepth, hcsr node _ hedges, Option.bind_some, pushUnvisited_eq]
          refine ih (hpop.visit hnode hv _ (fun p hp => ?_) ?_ _)
          · obtain ⟨e, he, rfl⟩ := List.mem_map.mp (List.mem_reverse.mp hp)
            exact hdst _ (List.getElem_mem hnode) e
              (List.mem_of_mem_filter (List.mem_of_mem_filter he))
          · rw [List.length_reverse, List.length_map, degree, hedges]
            exact (List.length_filter_le _ _).trans (List.length_filter_le _ _)

/-- **A depth-first search of a valid graph returns.** -/
theorem Valid.dfs_isSome {g : RelationGraph} (hg : g.Valid) (start : Str) (direction : String)
    (maxDepth : ℕ) (relationFilter : Option Relation) :
    ∃ results, g.dfs start direction maxDepth relationFilter = some results := by
  rw [dfs]
  simp only [ensureBuilt_keyToIdx, ensureBuilt_idxToKey, hg.arrays_ensureBuilt]
  cases hidx : g.keyToIdx[start.1]? with
  | none => exact ⟨_, rfl⟩
  | some idx =>
    have hlen := hg.adj_length direction
    have hfits : DfsState.Fits (g.adj direction) ⟨∅, [(idx, 0)], []⟩
        ((csrOf (g.adj direction)).dst.length + 1) := by
      refine ⟨?_, ?_⟩
      · simpa [hlen] using hg.lt_of_index hidx
      · rw [Finset.sdiff_empty, sum_degree, dst_csrOf, List.length_map, List.length_singleton,
          Nat.add_comm]
    refine dfsLoop_isSome hfits hlen.symm (fun i edges hedges => edges_csrOf hedges) ?_
    rw [hlen]
    exact hg.adj_lt direction

end RelationGraph

end Uldb
