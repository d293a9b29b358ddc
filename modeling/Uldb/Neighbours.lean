/-
Neighbour queries between changes of the relation graph (`RelationGraph::neighbours`).

Every query builds the arrays if they are out of date, so it is a change of the graph as well.
Whatever calls come in between, a query reads the arrays of all edges that have been added.

* `Holds.neighbours_eq` — the neighbours of a node, by their names;
* `neighbours_spec` — after any calls: the answers in both directions, and the arrays they are
  read from.
-/
import Uldb.GraphEdges

namespace Uldb

/-- A call on a graph. -/
inductive GraphUse where
  | addNode (key : Str)
  | addEdge (src dst : Str) (relation : Relation)
  | build
  | neighbours (key : Str) (direction : String) (relationFilter : Option Relation)
  | bfs (start : Str) (direction : String) (maxDepth : ℕ) (relationFilter : Option Relation)
  | dfs (start : Str) (direction : String) (maxDepth : ℕ) (relationFilter : Option Relation)

/-- What a call is among the calls that change a graph. -/
def GraphUse.change : GraphUse → GraphCall
  | .addNode key => .addNode key
  | .addEdge src dst relation => .addEdge src dst relation
  | _ => .query

namespace RelationGraph

/-- The graph after a call; a query leaves the arrays that it has built. -/
def use (g : RelationGraph) : GraphUse → RelationGraph
  | .addNode key => (g.addNode key).1
  | .addEdge src dst relation => g.addEdge src dst relation
  | .build => g.build
  | .neighbours _ _ _ => g.ensureBuilt
  | .bfs _ _ _ _ => g.ensureBuilt
  | .dfs _ _ _ _ => g.ensureBuilt

/-- A new graph after some calls. -/
def ofUses (us : List GraphUse) : RelationGraph := us.foldl use new

/-- The edges that calls add, in their order. -/
def edgesOf (us : List GraphUse) : List (Str × Str × Relation) := addedEdges (us.map (·.change))

/-- Building arrays that are up to date changes nothing. -/
theorem Valid.build_eq {g : RelationGraph} (hg : g.Valid) : g.build = g.ensureBuilt := by
  rw [RelationGraph.ensureBuilt]
  by_cases hb : g.built = true
  · obtain ⟨hfwd, hbwd⟩ := hg.arrays hb
    rw [if_pos hb, RelationGraph.build, ← hfwd, ← hbwd, ← hb]
  · rw [if_neg hb]

theorem ofUses_eq (us : List GraphUse) : ofUses us = ofCalls (us.map (·.change)) := by
  induction us using List.reverseRecOn with
  | nil => rfl
  | append_singleton us u ih =>
    have hvalid := valid_ofCalls (us.map (·.change))
    have hlast : ofCalls (us.map (·.change) ++ [u.change])
        = (ofCalls (us.map (·.change))).exec u.change := by
      rw [ofCalls, List.foldl_append]
      rfl
    rw [ofUses, List.foldl_append, ← ofUses, ih, List.map_append, List.map_singleton, hlast]
    cases u with
    | build => exact hvalid.build_eq
    | addNode key => rfl
    | addEdge src dst relation => rfl
    | neighbours key direction relationFilter => rfl
    | bfs start direction maxDepth relationFilter => rfl
    | dfs start direction maxDepth relationFilter => rfl

/-- Looking up the names that some edges lead to. -/
theorem mapM_names {keys : List Str} {out : List Edge} {found : List (Str × Relation)}
    (h : named keys out = found.map fun t => (some t.1, t.2)) :
    out.mapM (fun e => do return (← keys[e.dst]?, e.relation)) = some found := by
  induction out generalizing found with
  | nil =>
    obtain rfl : found = [] := List.map_eq_nil_iff.mp h.symm
    rfl
  | cons e out ih =>
    cases found with
    | nil => exact absurd h (by simp [named])
    | cons t found =>
      obtain ⟨hhead, hrest⟩ := List.cons.inj h
      obtain ⟨hkey, hrelation⟩ := Prod.mk.inj hhead
      rw [List.mapM_cons, ih hrest, hkey, hrelation]
      rfl

/-- **The neighbours of a node** are the edges that lead from it in the direction of the query and
pass its filter. -/
theorem Holds.neighbours_eq {g : RelationGraph} {nodes : List Str}
    {edges : List (Str × Str × Relation)} (hg : g.Holds nodes edges) (key : Str)
    (direction : String) (relationFilter : Option Relation) :
    g.neighbours key direction relationFilter
      = some ((edgesAt direction edges key).filter fun t => relationFilter.all (· = t.2)) := by
  rw [neighbours]
  simp only [ensureBuilt_keyToIdx, ensureBuilt_idxToKey]
  by_cases hkey : key ∈ g.idxToKey
  · obtain ⟨i, hi⟩ := List.getElem?_of_mem hkey
    obtain ⟨out, hout, hnamed⟩ := hg.lists direction i key hi
    have hedges : (g.ensureBuilt.arrays direction).edges i = some out := by
      rw [hg.valid.arrays_ensureBuilt, edges_csrOf hout]
    have hfilter := congrArg (List.filter fun t => relationFilter.all (· = t.2)) hnamed
    rw [named, List.filter_map, List.filter_map] at hfilter
    rw [(hg.valid.index key.1 i).mpr ⟨key, hi, rfl⟩]
    simp only [hedges, Option.bind_eq_bind, Option.bind_some]
    exact mapM_names hfilter
  · rw [hg.valid.index_of_new hkey,
      hg.edgesAt_eq_nil direction fun hmem => hkey ((hg.known key).mpr hmem)]
    rfl

/-- An edge is listed at both of its ends. -/
theorem count_edgesAt (edges : List (Str × Str × Relation)) (a b : Str) (relation : Relation) :
    (edgesAt "backward" edges b).count (a, relation)
      = (edgesAt "forward" edges a).count (b, relation) := by
  induction edges with
  | nil => rfl
  | cons edge edges ih =>
    obtain ⟨src, dst, r⟩ := edge
    rw [← List.singleton_append, edgesAt_append, edgesAt_append, List.count_append,
      List.count_append, ih]
    congr 1
    by_cases hsrc : src = a <;> by_cases hdst : dst = b <;>
      simp [edgesAt, oriented, hsrc, hdst, List.count_singleton]

theorem edgesAt_forward (edges : List (Str × Str × Relation)) (a : Str) :
    edgesAt "forward" edges a = (edges.filter fun edge => edge.1 = a).map Prod.snd := by
  have horiented : edges.map (oriented "forward") = edges := by
    rw [List.map_congr_left fun edge _ => show oriented "forward" edge = id edge from rfl]
    exact List.map_id edges
  rw [edgesAt, horiented]

/-- A filter of relations keeps all edges of a relation or none. -/
theorem count_filter_passes (relationFilter : Option Relation) (out : List (Str × Relation)) (b : Str)
    (relation : Relation) :
    (out.filter fun t => relationFilter.all (· = t.2)).count (b, relation)
      = if relationFilter.all (· = relation) then out.count (b, relation) else 0 := by
  by_cases hpass : relationFilter.all (· = relation) = true
  · rw [if_pos hpass]
    exact List.count_filter hpass
  · rw [if_neg hpass]
    exact List.count_eq_zero.mpr fun hmem => hpass (List.mem_filter.mp hmem).2

/-- **Neighbour queries at any time**: forward, the edges that have been added from a node, in
their order; backward, the same edges from the other end, as often; read from arrays that hold the
lists as they are. -/
theorem neighbours_spec (us : List GraphUse) (relationFilter : Option Relation) :
    (∀ a, (ofUses us).neighbours a "forward" relationFilter
      = some (((edgesOf us).filter fun edge => edge.1 = a ∧ relationFilter.all (· = edge.2.2)).map
        Prod.snd)) ∧
    (∀ a b, ∃ ahead behind, (ofUses us).neighbours a "forward" relationFilter = some ahead ∧
      (ofUses us).neighbours b "backward" relationFilter = some behind ∧
      ∀ relation, behind.count (a, relation) = ahead.count (b, relation)) ∧
    (ofUses us).ensureBuilt.fwd = csrOf (ofUses us).fwdAdj ∧
    (ofUses us).ensureBuilt.bwd = csrOf (ofUses us).bwdAdj := by
  have hg := holds_ofCalls (us.map (·.change))
  rw [← ofUses_eq] at hg
  refine ⟨fun a => ?_, fun a b => ⟨_, _, hg.neighbours_eq a "forward" relationFilter,
    hg.neighbours_eq b "backward" relationFilter, fun relation => ?_⟩, ?_, ?_⟩
  · rw [hg.neighbours_eq, edgesAt_forward, List.filter_map, List.filter_filter]
    simp [edgesOf, and_comm]
  · rw [count_filter_passes, count_filter_passes, count_edgesAt]
  · exact hg.valid.arrays_ensureBuilt "forward"
  · exact hg.valid.arrays_ensureBuilt "backward"

end RelationGraph

end Uldb
