/-
What `RelationGraph::deserialize` lets through (`index/graph.rs`).

A file can repeat the name of a node, which shifts the numbers of the nodes behind it, and it can
have edges between numbers that are none of its nodes.  Loading registers the names and adds the
edges between names with the calls that any user has, so the graph is valid in any case.

* `valid_rebuild` — the graph of any names and edges;
* `loaded_valid` — the loaded graph, part by part, and its queries.
-/
import Uldb.DepthFirst
import Uldb.GraphFile

namespace Uldb

open Reader

namespace RelationGraph

/-! ### Mirrored lists -/

/-- The edges into `d` that one list contributes. -/
theorem count_map_filter (edges : List Edge) (t s d : ℕ) (relation : Relation) :
    ((edges.filter fun e => e.dst = d).map fun e => (⟨t, e.relation⟩ : Edge)).count ⟨s, relation⟩
      = if t = s then edges.count ⟨d, relation⟩ else 0 := by
  induction edges with
  | nil => simp
  | cons e edges ih =>
    obtain ⟨dst, rel⟩ := e
    by_cases hd : dst = d
    · subst hd
      rw [List.filter_cons_of_pos (by simp), List.map_cons, List.count_cons, ih, List.count_cons]
      by_cases ht : t = s
      · simp [ht]
      · simp [ht]
    · rw [List.filter_cons_of_neg (by simpa using hd), ih, List.count_cons]
      simp [hd]

theorem count_sourcesOf (adj : List (List Edge)) (s d : ℕ) (relation : Relation) :
    (sourcesOf adj d).count ⟨s, relation⟩ = (adj[s]?.getD []).count ⟨d, relation⟩ := by
  induction adj using List.reverseRecOn with
  | nil => rfl
  | append_singleton adj edges ih =>
    rw [sourcesOf_concat, List.count_append, ih, count_map_filter]
    rcases lt_trichotomy s adj.length with hs | rfl | hs
    · rw [List.getElem?_append_left hs, if_neg (by omega), Nat.add_zero]
    · rw [List.getElem?_concat_length, List.getElem?_eq_none (le_refl _), if_pos rfl]
      simp
    · have hlen : (adj ++ [edges]).length ≤ s := by
        rw [List.length_append, List.length_singleton]
        omega
      rw [List.getElem?_eq_none hs.le, List.getElem?_eq_none hlen, if_neg hs.ne,
        Nat.add_zero]

/-- **The lists mirror each other**, with the number of parallel edges. -/
theorem Valid.count_eq {g : RelationGraph} (hg : g.Valid) (s d : ℕ) (relation : Relation) :
    (g.fwdAdj[s]?.getD []).count ⟨d, relation⟩ = (g.bwdAdj[d]?.getD []).count ⟨s, relation⟩ := by
  rw [← count_sourcesOf]
  cases hd : g.bwdAdj[d]? with
  | some edges => exact ((hg.mirror d edges hd).count_eq _).symm
  | none =>
    -- no edge leads to a number that is no node
    have hle : g.idxToKey.length ≤ d := by
      rw [← hg.bwd_length]
      exact List.getElem?_eq_none_iff.mp hd
    rw [sourcesOf_eq_nil fun edges hedges e he => ?_]
    · rfl
    · have hlt := hg.dst_lt edges hedges e he
      omega

/-! ### Loading any names and edges -/

theorem valid_rebuild (keys : List Str) (edges : List (ℕ × ℕ × Relation)) :
    (rebuild keys edges).Valid := by
  have hkeys : (register keys).Valid := by
    induction keys using List.reverseRecOn with
    | nil => exact valid_new
    | append_singleton keys key ih =>
      rw [register, List.foldl_append]
      exact (ih.addNode key).1
  -- the edges come after all names, and an edge with a number out of range is left out
  induction edges using List.reverseRecOn with
  | nil => exact hkeys
  | append_singleton edges edge ih =>
    obtain ⟨src, dst, relation⟩ := edge
    rw [rebuild, List.foldl_append, ← rebuild, List.foldl_cons, List.foldl_nil]
    simp only
    split
    · exact ih.addEdge _ _ _
    · exact ih

/-- An accepted file is some names and edges. -/
theorem deserialize_eq_rebuild {data : Bytes} {g : RelationGraph} (h : deserialize data = .ok g) :
    ∃ keys edges, g = rebuild keys edges := by
  obtain ⟨rest, hread⟩ := parse_eq_ok.mp h
  obtain ⟨magic, mid₀, _, h₀⟩ := bind_eq_ok.mp hread
  by_cases hne : magic ≠ graphMagic
  · rw [if_pos hne] at h₀
    exact absurd h₀ (by simp [fail])
  · rw [if_neg hne] at h₀
    obtain ⟨_, mid₁, _, h₁⟩ := bind_eq_ok.mp h₀
    obtain ⟨keys, mid₂, _, h₂⟩ := bind_eq_ok.mp h₁
    obtain ⟨_, mid₃, _, h₃⟩ := bind_eq_ok.mp h₂
    obtain ⟨edges, mid₄, _, h₄⟩ := bind_eq_ok.mp h₃
    exact ⟨keys, edges, (pure_eq_ok.mp h₄).1⟩

/-- **Every accepted file gives a graph that can be queried**: its numberings are inverse to each
other, its lists mirror each other and name nodes only, and no query leaves the arrays. -/
theorem loaded_valid {data : Bytes} {g : RelationGraph} (h : deserialize data = .ok g) :
    g.idxToKey.Nodup ∧
    (∀ key i, g.keyToIdx[key]? = some i ↔ ∃ k : Str, g.idxToKey[i]? = some k ∧ k.1 = key) ∧
    g.fwdAdj.length = g.idxToKey.length ∧ g.bwdAdj.length = g.idxToKey.length ∧
    (∀ edges ∈ g.fwdAdj ++ g.bwdAdj, ∀ e ∈ edges, e.dst < g.idxToKey.length) ∧
    (∀ (s d : ℕ) (relation : Relation), (g.fwdAdj[s]?.getD []).count ⟨d, relation⟩
      = (g.bwdAdj[d]?.getD []).count ⟨s, relation⟩) ∧
    g.edgeCount = g.fwdAdj.flatten.length ∧
    ∀ key direction maxDepth relationFilter,
      (∃ results, g.neighbours key direction relationFilter = some results) ∧
      (∃ results, g.bfs key direction maxDepth relationFilter = some results) ∧
      ∃ results, g.dfs key direction maxDepth relationFilter = some results := by
  obtain ⟨keys, edges, rfl⟩ := deserialize_eq_rebuild h
  have hg : (rebuild keys edges).Valid := valid_rebuild keys edges
  refine ⟨hg.nodup, hg.index, hg.fwd_length, hg.bwd_length, fun list hlist => ?_, hg.count_eq,
    hg.count, fun key direction maxDepth relationFilter => ⟨?_, ?_, ?_⟩⟩
  · rcases List.mem_append.mp hlist with hfwd | hbwd
    · exact hg.adj_lt "forward" list hfwd
    · exact hg.adj_lt "backward" list hbwd
  · exact hg.neighbours_isSome key direction relationFilter
  · exact hg.bfs_isSome key direction maxDepth relationFilter
  · exact hg.dfs_isSome key direction maxDepth relationFilter

/-- The names `a`, `b`, `a`, an edge to a ninth node, and two that come from `a`. -/
def repeatedNames : Bytes :=
  [71, 82, 80, 72, 0, 0, 0, 3, 0, 0, 0, 1, 97, 0, 0, 0, 1, 98, 0, 0, 0, 1, 97,
    0, 0, 0, 3, 0, 0, 0, 0, 0, 0, 0, 1, 1, 0, 0, 0, 2, 0, 0, 0, 9, 2, 0, 0, 0, 2, 0, 0, 0, 1, 4]

/-- Two nodes and two edges. -/
theorem loaded_valid_repeatedNames : ∃ g, deserialize repeatedNames = .ok g ∧
    g.idxToKey.length = 2 ∧ g.edgeCount = 2 ∧
    (∃ results, g.dfs ⟨[97], by decide⟩ "forward" 3 none = some results) ∧
    ∃ results, g.bfs ⟨[98], by decide⟩ "backward" 3 none = some results := by
  obtain ⟨g, hok, hnodes, hedges⟩ : ∃ g, deserialize repeatedNames = .ok g ∧
      g.idxToKey.length = 2 ∧ g.edgeCount = 2 := ⟨_, rfl, by decide +kernel, by decide +kernel⟩
  obtain ⟨_, _, _, _, _, _, _, hqueries⟩ := loaded_valid hok
  exact ⟨g, hok, hnodes, hedges, (hqueries _ _ _ _).2.2, (hqueries _ _ _ _).2.1⟩

end RelationGraph

end Uldb
