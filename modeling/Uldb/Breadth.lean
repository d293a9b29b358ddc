/-
What a breadth-first search of the relation graph returns (`RelationGraph::bfs`).

The nodes are compared by their numbers and reported by their names.  The results are the nodes
that have been found, in the order in which they were: those that were expanded, and behind them
the queue (`Tracks`).

* `bfsEdges_spec` — the edges of one node;
* `bfsLoop_spec` — the queue loop;
* `bfs_spec` — the nodes within the bound, each once and at its distance.
-/
import Uldb.GraphEdges
import Uldb.Lib.BreadthFirst

namespace Uldb

namespace RelationGraph

open BreadthFirst

/-- An edge leads from `a` to `b` in a direction, and passes the filter of a query. -/
def Leads (edges : List (Str × Str × Relation)) (direction : String)
    (relationFilter : Option Relation) (a b : Str) : Prop :=
  ∃ relation, (if direction = "backward" then (b, a, relation) ∈ edges
    else (a, b, relation) ∈ edges) ∧ ∀ r, relationFilter = some r → r = relation

variable {keys : List Str}

/-! ### One node -/

/-- What the edges of a node at `depth` add: the nodes that had not been seen, in the queue and in
the results. -/
structure Gathered (keys : List Str) (depth : ℕ) (edges : List Edge) (s s' : BfsState)
    (nodes : List ℕ) (found : List TraversalResult) : Prop where
  queue : s'.queue = s.queue ++ nodes.map fun i => (i, depth + 1)
  results : s'.results = s.results ++ found
  named : (nodes.map fun i => (keys[i]?, depth + 1)) = found.map fun r => (some r.key, r.depth)
  nodup : nodes.Nodup
  fresh : ∀ i ∈ nodes, i ∉ s.visited ∧ ∃ e ∈ edges, e.dst = i
  visited : ∀ i, i ∈ s'.visited ↔ i ∈ s.visited ∨ i ∈ nodes
  seen : ∀ e ∈ edges, e.dst ∈ s'.visited

theorem bfsEdges_spec {depth : ℕ} {edges : List Edge} {s s' : BfsState}
    (h : edges.foldlM (bfsEdge keys depth) s = some s') :
    ∃ nodes found, Gathered keys depth edges s s' nodes found := by
  induction edges generalizing s with
  | nil =>
    obtain rfl : s = s' := by simpa using h
    exact ⟨[], [], by simp, by simp, rfl, List.nodup_nil, by simp, by simp, by simp⟩
  | cons e edges ih =>
    obtain ⟨t, ht, hrest⟩ := Fallible.foldlM_cons_eq_some.mp h
    obtain ⟨nodes, found, hg⟩ := ih hrest
    rw [bfsEdge] at ht
    by_cases hv : e.dst ∈ s.visited
    · obtain rfl : s = t := by simpa [hv] using ht
      refine ⟨nodes, found, hg.queue, hg.results, hg.named, hg.nodup, fun i hi => ?_, hg.visited,
        fun e' he' => ?_⟩
      · obtain ⟨hnew, e', he', rfl⟩ := hg.fresh i hi
        exact ⟨hnew, e', List.mem_cons_of_mem _ he', rfl⟩
      · rcases List.mem_cons.mp he' with rfl | he'
        · exact (hg.visited _).mpr (.inl hv)
        · exact hg.seen e' he'
    · -- the first edge to its target: it is seen from here on
      rw [if_neg hv] at ht
      obtain ⟨key, hkey, ht⟩ := Option.bind_eq_some_iff.mp ht
      obtain rfl := Option.some_inj.mp ht
      have hsame : ∀ i, i ∈ s'.visited ↔ i ∈ s.visited ∨ i ∈ e.dst :: nodes := fun i => by
        rw [hg.visited, Finset.mem_insert, List.mem_cons]
        tauto
      refine ⟨e.dst :: nodes, ⟨key, depth + 1, some e.relation⟩ :: found, ?_, ?_, ?_, ?_,
        fun i hi => ?_, hsame, fun e' he' => ?_⟩
      · rw [hg.queue, List.append_assoc]
        rfl
      · rw [hg.results, List.append_assoc]
        rfl
      · rw [List.map_cons, List.map_cons, hg.named, hkey]
      · refine List.nodup_cons.mpr ⟨fun hmem => ?_, hg.nodup⟩
        exact (hg.fresh e.dst hmem).1 (Finset.mem_insert_self _ _)
      · rcases List.mem_cons.mp hi with rfl | hi
        · exact ⟨hv, e, List.mem_cons_self, rfl⟩
        · obtain ⟨hnew, e', he', rfl⟩ := hg.fresh i hi
          exact ⟨fun h => hnew (Finset.mem_insert_of_mem h), e', List.mem_cons_of_mem _ he', rfl⟩
      · rcases List.mem_cons.mp he' with rfl | he'
        · exact (hsame _).mpr (.inr List.mem_cons_self)
        · exact hg.seen e' he'

namespace Gathered

variable {depth : ℕ} {edges : List Edge} {s s' : BfsState} {nodes : List ℕ}
  {found : List TraversalResult}

/-- The names of the new nodes. -/
theorem names (h : Gathered keys depth edges s s' nodes found) :
    (found.map (·.key)).map some = nodes.map (keys[·]?) := by
  have hfst := congrArg (List.map Prod.fst) h.named
  rw [List.map_map, List.map_map] at hfst
  rw [List.map_map]
  exact hfst.symm

theorem mem_names (h : Gathered keys depth edges s s' nodes found) {key : Str} :
    key ∈ found.map (·.key) ↔ ∃ i ∈ nodes, keys[i]? = some key := by
  rw [← List.mem_map_of_injective (Option.some_injective Str), h.names, List.mem_map]

theorem exists_name (h : Gathered keys depth edges s s' nodes found) {i : ℕ} (hi : i ∈ nodes) :
    ∃ key ∈ found.map (·.key), keys[i]? = some key := by
  have hmem : keys[i]? ∈ (found.map (·.key)).map some := by
    rw [h.names]
    exact List.mem_map_of_mem hi
  obtain ⟨key, hkey, heq⟩ := List.mem_map.mp hmem
  exact ⟨key, hkey, heq.symm⟩

theorem nodup_names (h : Gathered keys depth edges s s' nodes found) (hkeys : keys.Nodup) :
    (found.map (·.key)).Nodup := by
  rw [← List.nodup_map_iff (Option.some_injective Str), h.names]
  -- two numbers with one name are the same number
  refine h.nodup.map_on fun i hi j hj hij => ?_
  obtain ⟨key, _, hkey⟩ := h.exists_name hi
  exact (List.getElem?_inj (List.getElem?_eq_some_iff.mp hkey).1 hkeys).mp hij

/-- The new results are the new names, one step deeper. -/
theorem pairs (h : Gathered keys depth edges s s' nodes found) :
    (found.map fun r => (r.key, r.depth)) = (found.map (·.key)).map fun b => (b, depth + 1) := by
  rw [List.map_map]
  refine List.map_congr_left fun r hr => ?_
  have hmem : (some r.key, r.depth) ∈ nodes.map fun i => (keys[i]?, depth + 1) := by
    rw [h.named]
    exact List.mem_map_of_mem hr
  obtain ⟨i, _, hi⟩ := List.mem_map.mp hmem
  rw [← (Prod.mk.inj hi).2]
  rfl

end Gathered

/-! ### The queue loop -/

/-- The state of a search, by the names of its nodes. -/
structure Tracks (keys : List Str) (R : Str → Str → Prop) (start : Str) (bound : ℕ) (s : BfsState)
    (done queue : List (Str × ℕ)) : Prop where
  explored : Explored R start bound done queue
  results : (s.results.map fun r => (r.key, r.depth)) = done ++ queue
  waiting : (s.queue.map fun p => (keys[p.1]?, p.2)) = queue.map fun q => (some q.1, q.2)
  visited : ∀ i, i ∈ s.visited ↔ ∃ key ∈ (done ++ queue).map Prod.fst, keys[i]? = some key

variable {R : Str → Str → Prop} {start : Str} {bound : ℕ} {s s' : BfsState}
  {done queue : List (Str × ℕ)}

/-- A node comes off the queue at the bound. -/
theorem Tracks.skip {q : Str × ℕ} {node : ℕ} {rest : List (ℕ × ℕ)}
    (h : Tracks keys R start bound s done (q :: queue)) (hqueue : s.queue = (node, q.2) :: rest)
    (hdepth : bound ≤ q.2) :
    Tracks keys R start bound { s with queue := rest } (done ++ [q]) queue := by
  have hfound : done ++ [q] ++ queue = done ++ q :: queue := by simp
  refine ⟨h.explored.skip hdepth, hfound ▸ h.results, ?_, hfound ▸ h.visited⟩
  have hmap := h.waiting
  rw [hqueue, List.map_cons, List.map_cons] at hmap
  exact (List.cons.inj hmap).2

/-- A node comes off the queue, and its edges are followed. -/
theorem Tracks.expand (hkeys : keys.Nodup) {q : Str × ℕ} {node : ℕ} {rest : List (ℕ × ℕ)}
    (h : Tracks keys R start bound s done (q :: queue)) (hqueue : s.queue = (node, q.2) :: rest)
    (hdepth : q.2 < bound) {edges : List Edge}
    (hedges : ∀ b, R q.1 b ↔ ∃ e ∈ edges, keys[e.dst]? = some b)
    (hrun : edges.foldlM (bfsEdge keys q.2) { s with queue := rest } = some s') :
    ∃ new, Tracks keys R start bound s' (done ++ [q]) (queue ++ new) := by
  obtain ⟨nodes, found, hg⟩ := bfsEdges_spec hrun
  have hmap := h.waiting
  rw [hqueue, List.map_cons, List.map_cons] at hmap
  have hrest := (List.cons.inj hmap).2
  have hfound : ∀ new, done ++ [q] ++ (queue ++ new) = (done ++ q :: queue) ++ new := by simp
  -- the new names are the successors that had not been found
  have hnew : ∀ b ∈ found.map (·.key), R q.1 b ∧ b ∉ (done ++ q :: queue).map Prod.fst := by
    intro b hb
    obtain ⟨i, hi, hkey⟩ := hg.mem_names.mp hb
    obtain ⟨hfresh, e, he, rfl⟩ := hg.fresh i hi
    refine ⟨(hedges b).mpr ⟨e, he, hkey⟩, fun hmem => hfresh ?_⟩
    exact (h.visited _).mpr ⟨b, hmem, hkey⟩
  have hall : ∀ b, R q.1 b → b ∈ found.map (·.key) ∨ b ∈ (done ++ q :: queue).map Prod.fst := by
    intro b hb
    obtain ⟨e, he, hkey⟩ := (hedges b).mp hb
    rcases (hg.visited e.dst).mp (hg.seen e he) with hold | hnodes
    · obtain ⟨key, hmem, hkey'⟩ := (h.visited e.dst).mp hold
      rw [hkey, Option.some_inj] at hkey'
      exact .inr (hkey' ▸ hmem)
    · exact .inl (hg.mem_names.mpr ⟨e.dst, hnodes, hkey⟩)
  refine ⟨(found.map (·.key)).map fun b => (b, q.2 + 1),
    h.explored.expand hdepth (hg.nodup_names hkeys) hnew hall, ?_, ?_, fun i => ?_⟩
  · rw [hg.results, List.map_append, h.results, hg.pairs, hfound]
  · rw [hg.queue, List.map_append, hrest, List.map_append, List.map_map, ← hg.pairs, List.map_map]
    exact congrArg _ hg.named
  · have hfst : ((found.map (·.key)).map fun b => (b, q.2 + 1)).map Prod.fst = found.map (·.key) := by
      rw [List.map_map]
      exact List.map_id _
    rw [hfound, List.map_append, hfst, hg.visited]
    show i ∈ s.visited ∨ i ∈ nodes ↔ _
    rw [h.visited]
    constructor
    · rintro (⟨key, hmem, hkey⟩ | hi)
      · exact ⟨key, List.mem_append_left _ hmem, hkey⟩
      · obtain ⟨key, hmem, hkey⟩ := hg.exists_name hi
        exact ⟨key, List.mem_append_right _ hmem, hkey⟩
    · rintro ⟨key, hmem, hkey⟩
      rcases List.mem_append.mp hmem with hold | hnew
      · exact .inl ⟨key, hold, hkey⟩
      · obtain ⟨j, hj, hkey'⟩ := hg.mem_names.mp hnew
        have hij := (List.getElem?_inj (List.getElem?_eq_some_iff.mp hkey).1 hkeys).mp
          (hkey.trans hkey'.symm)
        exact .inr (hij ▸ hj)

/-- With an empty queue, everything that has been found has been expanded. -/
theorem Tracks.finish (h : Tracks keys R start bound s done queue) (hqueue : s.queue = []) :
    Explored R start bound (s.results.map fun r => (r.key, r.depth)) [] := by
  have hmap := h.waiting
  rw [hqueue] at hmap
  obtain rfl : queue = [] := List.map_eq_nil_iff.mp hmap.symm
  rw [h.results, List.append_nil]
  exact h.explored

/-- **The queue loop** ends with an empty queue: everything that it reports has been expanded. -/
theorem bfsLoop_spec (hkeys : keys.Nodup) {csr : Csr} {relationFilter : Option Relation}
    (hedges : ∀ i key out, keys[i]? = some key → csr.edges i = some out → ∀ b, R key b ↔
      ∃ e ∈ out.filter (passes relationFilter), keys[e.dst]? = some b)
    (h : Tracks keys R start bound s done queue) {fuel : ℕ} {results : List TraversalResult}
    (hrun : bfsLoop keys csr bound relationFilter fuel s = some results) :
    Explored R start bound (results.map fun r => (r.key, r.depth)) [] := by
  induction fuel generalizing s done queue with
  | zero =>
    rw [bfsLoop] at hrun
    cases hq : s.queue with
    | nil =>
      simp only [hq] at hrun
      exact Option.some_inj.mp hrun ▸ h.finish hq
    | cons p rest => simp [hq] at hrun
  | succ fuel ih =>
    rw [bfsLoop] at hrun
    cases hq : s.queue with
    | nil =>
      simp only [hq] at hrun
      exact Option.some_inj.mp hrun ▸ h.finish hq
    | cons p rest =>
      obtain ⟨node, depth⟩ := p
      have hmap := h.waiting
      rw [hq] at hmap
      -- the queue has the same length under its names
      cases queue with
      | nil => exact absurd hmap (by simp)
      | cons q queue =>
        rw [List.map_cons, List.map_cons] at hmap
        obtain ⟨hkey, rfl⟩ := Prod.mk.inj (List.cons.inj hmap).1
        simp only [hq] at hrun
        by_cases hdepth : bound ≤ q.2
        · rw [if_pos hdepth] at hrun
          exact ih (h.skip hq hdepth) hrun
        · rw [if_neg hdepth] at hrun
          obtain ⟨out, hout, hrun⟩ := Option.bind_eq_some_iff.mp hrun
          obtain ⟨s', hs', hrun⟩ := Option.bind_eq_some_iff.mp hrun
          obtain ⟨new, hnext⟩ := h.expand hkeys hq (not_le.mp hdepth) (hedges node q.1 out hkey hout) hs'
          exact ih hnext hrun

/-! ### Searches -/

theorem passes_iff {relationFilter : Option Relation} {e : Edge} :
    passes relationFilter e = true ↔ ∀ r, relationFilter = some r → r = e.relation := by
  cases relationFilter with
  | none => simp [passes]
  | some r => simp [passes]

/-- The list of a node has the edges that lead from it. -/
theorem Holds.leads_iff {g : RelationGraph} {nodes : List Str} {edges : List (Str × Str × Relation)}
    (hg : g.Holds nodes edges) {direction : String} (relationFilter : Option Relation) {i : ℕ}
    {key : Str} {out : List Edge} (hkey : g.idxToKey[i]? = some key)
    (hout : (g.adj direction)[i]? = some out) (b : Str) :
    Leads edges direction relationFilter key b ↔
      ∃ e ∈ out.filter (passes relationFilter), g.idxToKey[e.dst]? = some b := by
  obtain ⟨out', hout', hnamed⟩ := hg.lists direction i key hkey
  obtain rfl : out = out' := Option.some_inj.mp (hout.symm.trans hout')
  have hmem : ∀ relation, (b, relation) ∈ edgesAt direction edges key ↔
      ∃ e ∈ out, g.idxToKey[e.dst]? = some b ∧ e.relation = relation := by
    intro relation
    have hsome : (b, relation) ∈ edgesAt direction edges key ↔
        (some b, relation) ∈ named g.idxToKey out := by
      rw [hnamed, List.mem_map]
      constructor
      · intro h
        exact ⟨_, h, rfl⟩
      · rintro ⟨⟨b', r⟩, h, heq⟩
        obtain ⟨rfl, rfl⟩ := (by simpa using heq : b' = b ∧ r = relation)
        exact h
    rw [hsome, named, List.mem_map]
    simp only [Prod.mk.injEq]
  simp only [Leads, ← mem_edgesAt, hmem, List.mem_filter, passes_iff]
  constructor
  · rintro ⟨_, ⟨e, he, hb, rfl⟩, hpass⟩
    exact ⟨e, ⟨he, hpass⟩, hb⟩
  · rintro ⟨e, ⟨he, hpass⟩, hb⟩
    exact ⟨e.relation, ⟨e, he, hb, rfl⟩, hpass⟩

/-- No edge leads from a name that is not there. -/
theorem not_leads_of_not_mem {cs : List GraphCall} {start : Str} (hstart : start ∉ addedNodes cs)
    (direction : String) (relationFilter : Option Relation) (b : Str) :
    ¬Leads (addedEdges cs) direction relationFilter start b := by
  rintro ⟨relation, hmem, _⟩
  rw [← mem_edgesAt, (holds_ofCalls cs).edgesAt_eq_nil direction hstart] at hmem
  exact absurd hmem List.not_mem_nil

/-- **Breadth-first search** returns the nodes within the bound along the edges that calls have
added, each once, at its distance and in the order of the distances. -/
theorem bfs_spec (cs : List GraphCall) (start : Str) (direction : String) (maxDepth : ℕ)
    (relationFilter : Option Relation) :
    ∃ results, (ofCalls cs).bfs start direction maxDepth relationFilter = some results ∧
      (start ∉ addedNodes cs → results = []) ∧
      (start ∈ addedNodes cs →
        (results.map (·.key)).Nodup ∧
        results.Pairwise (fun r r' => r.depth ≤ r'.depth) ∧
        ∀ key depth, (∃ r ∈ results, r.key = key ∧ r.depth = depth) ↔
          IsDist (Leads (addedEdges cs) direction relationFilter) start key depth ∧
            depth ≤ maxDepth) := by
  have hg := holds_ofCalls cs
  obtain ⟨results, hrun⟩ := hg.valid.bfs_isSome start direction maxDepth relationFilter
  refine ⟨results, hrun, fun hstart => ?_, fun hstart => ?_⟩
  · rw [bfs] at hrun
    simp only [ensureBuilt_keyToIdx] at hrun
    rw [hg.valid.index_of_new fun hmem => hstart ((hg.known start).mp hmem)] at hrun
    exact (Option.some_inj.mp hrun).symm
  · obtain ⟨idx, hidx⟩ := List.getElem?_of_mem ((hg.known start).mpr hstart)
    have hindex := (hg.valid.index start.1 idx).mpr ⟨start, hidx, rfl⟩
    rw [bfs] at hrun
    simp only [ensureBuilt_keyToIdx, ensureBuilt_idxToKey, hindex, hidx, Option.bind_eq_bind,
      Option.bind_some, hg.valid.arrays_ensureBuilt] at hrun
    -- the loop tracks the exploration of keys from its first state on
    have hbegin : Tracks (ofCalls cs).idxToKey (Leads (addedEdges cs) direction relationFilter)
        start maxDepth ⟨{idx}, [(idx, 0)], [⟨start, 0, none⟩]⟩ [] [(start, 0)] := by
      refine ⟨Explored.initial _ _ _, rfl, by simp [hidx], fun i => ?_⟩
      rw [Finset.mem_singleton]
      constructor
      · rintro rfl
        exact ⟨start, by simp, hidx⟩
      · rintro ⟨key, hkey, hi⟩
        obtain rfl : key = start := by simpa using hkey
        exact hg.valid.index_unique hi hidx
    have hend := bfsLoop_spec hg.valid.nodup (fun i key out hkey hout => by
      obtain ⟨out', hout', _⟩ := hg.lists direction i key hkey
      obtain rfl : out = out' :=
        Option.some_inj.mp (hout.symm.trans (edges_csrOf hout'))
      exact hg.leads_iff relationFilter hkey hout') hbegin hrun
    -- with an empty queue, what has been explored are the results
    refine ⟨?_, ?_, fun key depth => ?_⟩
    · have hnodup := hend.nodup
      rwa [List.append_nil, List.map_map] at hnodup
    · have hsorted := hend.sorted
      rwa [List.append_nil, List.pairwise_map] at hsorted
    · rw [← hend.mem_iff, List.mem_map]
      simp only [Prod.mk.injEq]

end RelationGraph

end Uldb
