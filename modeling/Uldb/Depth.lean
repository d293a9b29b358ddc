/-
What a depth-first search of the relation graph returns (`RelationGraph::dfs`), and when it is
what a breadth-first search returns.

The last edge of a node is followed first.  A node is marked where it is reached first, and at
`max_depth` steps its edges are not followed: what is reached later on a shorter way is not
looked at again.

* `dfs_spec` — the nodes with a first route, each once, with the length of its route;
* `dfs_eq_bfs_iff` — both searches return the same nodes exactly if every node within the bound
  has a first route.
-/
import Uldb.Breadth
import Uldb.Lib.DepthFirst

namespace Uldb

namespace RelationGraph

open BreadthFirst DepthFirst

/-- The nodes that the edges of a node lead to, in the order in which a depth-first search goes
on to them. -/
def followed (edges : List (Str × Str × Relation)) (direction : String)
    (relationFilter : Option Relation) (key : Str) : List Str :=
  (((edgesAt direction edges key).filter fun t => relationFilter.all (· = t.2)).map
    Prod.fst).reverse

/-! ### The stack loop -/

/-- The state of a search, by the names of its nodes. -/
structure Follows (keys : List Str) (next : Str → List Str) (start : Str) (bound : ℕ) (s : DfsState)
    (done stack : List (Str × List ℕ)) : Prop where
  traversed : Traversed next start bound done stack
  results : (s.results.map fun r => (r.key, r.depth)) = done.map fun q => (q.1, q.2.length)
  waiting : (s.stack.map fun p => (keys[p.1]?, p.2)) = stack.map fun q => (some q.1, q.2.length)
  visited : ∀ i, i ∈ s.visited ↔ ∃ key ∈ done.map Prod.fst, keys[i]? = some key

variable {keys : List Str} {next : Str → List Str} {start : Str} {bound : ℕ} {s : DfsState}
  {done stack : List (Str × List ℕ)}

/-- The top of the stack. -/
theorem Follows.top {node depth : ℕ} {rest : List (ℕ × ℕ)}
    (h : Follows keys next start bound s done stack) (hstack : s.stack = (node, depth) :: rest) :
    ∃ q queue, stack = q :: queue ∧ keys[node]? = some q.1 ∧ depth = q.2.length ∧
      (rest.map fun p => (keys[p.1]?, p.2)) = queue.map fun q => (some q.1, q.2.length) := by
  have hmap := h.waiting
  rw [hstack] at hmap
  cases stack with
  | nil => exact absurd hmap (by simp)
  | cons q queue =>
    rw [List.map_cons, List.map_cons] at hmap
    obtain ⟨hkey, hdepth⟩ := Prod.mk.inj (List.cons.inj hmap).1
    exact ⟨q, queue, rfl, hkey, hdepth, (List.cons.inj hmap).2⟩

/-- A number has been seen if its name has been visited. -/
theorem Follows.mem_visited (h : Follows keys next start bound s done stack)
    {i : ℕ} {key : Str} (hi : keys[i]? = some key) :
    i ∈ s.visited ↔ key ∈ done.map Prod.fst := by
  rw [h.visited]
  constructor
  · rintro ⟨key', hmem, hkey'⟩
    rw [hi, Option.some_inj] at hkey'
    exact hkey' ▸ hmem
  · exact fun hmem => ⟨key, hmem, hi⟩

/-- Edges that lead to some names, filtered as the names are. -/
theorem map_filter_of_names {out : List Edge} {names : List Str} {p : Edge → Bool} {q : Str → Bool}
    (hout : (out.map fun e => keys[e.dst]?) = names.map some)
    (hpq : ∀ e ∈ out, ∀ b, keys[e.dst]? = some b → p e = q b) (depth : ℕ) :
    ((out.filter p).map fun e => (keys[e.dst]?, depth))
      = (names.filter q).map fun b => (some b, depth) := by
  induction out generalizing names with
  | nil =>
    obtain rfl : names = [] := List.map_eq_nil_iff.mp hout.symm
    rfl
  | cons e out ih =>
    cases names with
    | nil => exact absurd hout (by simp)
    | cons b names =>
      rw [List.map_cons, List.map_cons] at hout
      obtain ⟨hb, hrest⟩ := List.cons.inj hout
      have hsame := hpq e List.mem_cons_self b hb
      have hmap := ih hrest fun e' he' => hpq e' (List.mem_cons_of_mem _ he')
      rw [List.filter_cons, List.filter_cons, ← hsame]
      by_cases hp : p e = true
      · rw [if_pos hp, if_pos hp, List.map_cons, List.map_cons, hmap, hb]
      · rw [if_neg hp, if_neg hp, hmap]

/-- A node that has been visited comes off the stack. -/
theorem Follows.skip {q : Str × List ℕ} {node : ℕ} {rest : List (ℕ × ℕ)}
    (h : Follows keys next start bound s done (q :: stack)) (hkey : keys[node]? = some q.1)
    (hrest : (rest.map fun p => (keys[p.1]?, p.2)) = stack.map fun q => (some q.1, q.2.length))
    (hseen : node ∈ s.visited) :
    Follows keys next start bound { s with stack := rest } done stack :=
  ⟨h.traversed.skip ((h.mem_visited hkey).mp hseen), h.results, hrest, h.visited⟩

/-- A node comes off the stack and is visited. -/
theorem Follows.visit (hkeys : keys.Nodup) {q : Str × List ℕ} {node : ℕ} {pushed : List (ℕ × ℕ)}
    {more : List (Str × List ℕ)} (h : Follows keys next start bound s done (q :: stack))
    (hkey : keys[node]? = some q.1)
    (htraversed : Traversed next start bound (done ++ [q]) more)
    (hpushed : (pushed.map fun p => (keys[p.1]?, p.2)) = more.map fun q => (some q.1, q.2.length)) :
    Follows keys next start bound
      ⟨insert node s.visited, pushed, s.results ++ [⟨q.1, q.2.length, none⟩]⟩ (done ++ [q]) more := by
  refine ⟨htraversed, ?_, hpushed, ?_⟩
  · rw [List.map_append, List.map_append, h.results]
    rfl
  · intro i
    rw [Finset.mem_insert, h.visited, List.map_append]
    constructor
    · rintro (rfl | ⟨key, hmem, hi⟩)
      · exact ⟨q.1, by simp, hkey⟩
      · exact ⟨key, List.mem_append_left _ hmem, hi⟩
    · rintro ⟨key, hmem, hi⟩
      rcases List.mem_append.mp hmem with hmem | hmem
      · exact .inr ⟨key, hmem, hi⟩
      · obtain rfl : key = q.1 := by simpa using hmem
        exact .inl ((List.getElem?_inj (List.getElem?_eq_some_iff.mp hi).1 hkeys).mp
          (hi.trans hkey.symm))

/-- The entries that a visit pushes. -/
theorem Follows.map_pushUnvisited (hkeys : keys.Nodup) {q : Str × List ℕ} {node : ℕ}
    {rest : List (ℕ × ℕ)} {out : List Edge}
    (h : Follows keys next start bound s done (q :: stack)) (hkey : keys[node]? = some q.1)
    (hrest : (rest.map fun p => (keys[p.1]?, p.2)) = stack.map fun q => (some q.1, q.2.length))
    (hout : (out.map fun e => keys[e.dst]?) = (next q.1).reverse.map some) {fresh : Str → Bool}
    (hfresh : ∀ b, fresh b = true ↔ b ∉ (done ++ [q]).map Prod.fst) :
    ((pushUnvisited (insert node s.visited) q.2.length out rest).map fun p => (keys[p.1]?, p.2))
      = (((((next q.1).zipIdx.filter fun c => fresh c.1).map fun c => (c.1, q.2 ++ [c.2]))
        ++ stack).map fun q => (some q.1, q.2.length)) := by
  have hseen : ∀ e ∈ out, ∀ b, keys[e.dst]? = some b →
      decide (e.dst ∉ insert node s.visited) = fresh b := by
    intro e _ b hb
    have hsame : e.dst = node ↔ b = q.1 := by
      constructor
      · rintro rfl
        exact Option.some_inj.mp (hb.symm.trans hkey)
      · rintro rfl
        exact (List.getElem?_inj (List.getElem?_eq_some_iff.mp hb).1 hkeys).mp (hb.trans hkey.symm)
    rw [Bool.eq_iff_iff, decide_eq_true_iff, hfresh, Finset.mem_insert, h.mem_visited hb, hsame,
      List.map_append, List.mem_append]
    simp [or_comm]
  have hnew := map_filter_of_names hout hseen (q.2.length + 1)
  have hplaces : ((((next q.1).zipIdx.filter fun c => fresh c.1).map
      fun c => (c.1, q.2 ++ [c.2])).map fun p => (some p.1, p.2.length))
        = ((next q.1).filter fresh).map fun b => (some b, q.2.length + 1) := by
    have hfst : (next q.1).filter fresh
        = ((next q.1).zipIdx.filter fun c => fresh c.1).map Prod.fst := by
      conv_lhs => rw [← List.zipIdx_map_fst 0 (next q.1), List.filter_map]
      rfl
    rw [hfst, List.map_map, List.map_map]
    refine List.map_congr_left fun c _ => ?_
    simp
  -- the edges are pushed in their order, so the last one is on top
  have hrev : ((out.filter fun e => e.dst ∉ insert node s.visited).map
      fun e => (keys[e.dst]?, q.2.length + 1)).reverse
        = ((next q.1).filter fresh).map fun b => (some b, q.2.length + 1) := by
    rw [hnew, ← List.map_reverse, ← List.filter_reverse, List.reverse_reverse]
  rw [pushUnvisited_eq, List.map_append, List.map_append, hrest, hplaces, List.map_reverse,
    List.map_map, ← hrev]
  rfl

/-- With an empty stack, the results are the nodes that have been visited. -/
theorem Follows.finish (h : Follows keys next start bound s done stack) (hstack : s.stack = []) :
    Traversed next start bound done [] ∧
      (s.results.map fun r => (r.key, r.depth)) = done.map fun q => (q.1, q.2.length) := by
  have hmap := h.waiting
  rw [hstack] at hmap
  obtain rfl : stack = [] := List.map_eq_nil_iff.mp hmap.symm
  exact ⟨h.traversed, h.results⟩

/-- **The stack loop** ends with an empty stack. -/
theorem dfsLoop_spec (hkeys : keys.Nodup) {csr : Csr} {relationFilter : Option Relation}
    (hedges : ∀ i key out, keys[i]? = some key → csr.edges i = some out →
      ((out.filter (passes relationFilter)).map fun e => keys[e.dst]?)
        = (next key).reverse.map some)
    (h : Follows keys next start bound s done stack) {fuel : ℕ} {results : List TraversalResult}
    (hrun : dfsLoop keys csr bound relationFilter fuel s = some results) :
    ∃ done', Traversed next start bound done' [] ∧
      (results.map fun r => (r.key, r.depth)) = done'.map fun q => (q.1, q.2.length) := by
  induction fuel generalizing s done stack with
  | zero =>
    rw [dfsLoop] at hrun
    cases hs : s.stack with
    | nil =>
      simp only [hs] at hrun
      exact ⟨done, Option.some_inj.mp hrun ▸ h.finish hs⟩
    | cons p rest => simp [hs] at hrun
  | succ fuel ih =>
    rw [dfsLoop] at hrun
    cases hs : s.stack with
    | nil =>
      simp only [hs] at hrun
      exact ⟨done, Option.some_inj.mp hrun ▸ h.finish hs⟩
    | cons p rest =>
      obtain ⟨node, depth⟩ := p
      obtain ⟨q, queue, rfl, hkey, rfl, hrest⟩ := h.top hs
      simp only [hs] at hrun
      by_cases hv : node ∈ s.visited
      · rw [if_pos hv] at hrun
        exact ih (h.skip hkey hrest hv) hrun
      -- a new node: its neighbours are pushed, unless the bound is reached
      · have hnew : q.1 ∉ done.map Prod.fst := fun hmem => hv ((h.mem_visited hkey).mpr hmem)
        rw [if_neg hv, hkey] at hrun
        simp only [Option.bind_eq_bind, Option.bind_some] at hrun
        by_cases hdepth : bound ≤ q.2.length
        · rw [if_pos hdepth] at hrun
          exact ih (h.visit hkeys hkey (h.traversed.stop hnew hdepth) hrest) hrun
        · rw [if_neg hdepth] at hrun
          obtain ⟨out, hout, hrun⟩ := Option.bind_eq_some_iff.mp hrun
          have hfresh : ∀ b, decide (b ∉ (done ++ [q]).map Prod.fst) = true ↔
              b ∉ (done ++ [q]).map Prod.fst := fun b => decide_eq_true_iff
          exact ih (h.visit hkeys hkey (h.traversed.expand hnew (not_le.mp hdepth) hfresh)
            (h.map_pushUnvisited hkeys hkey hrest (hedges node q.1 out hkey hout) hfresh)) hrun

/-! ### Searches -/

/-- The names behind the edges of a node. -/
theorem Holds.map_filter_passes {g : RelationGraph} {nodes : List Str}
    {edges : List (Str × Str × Relation)} (hg : g.Holds nodes edges) {direction : String}
    (relationFilter : Option Relation) {i : ℕ} {key : Str} {out : List Edge}
    (hkey : g.idxToKey[i]? = some key) (hout : (g.adj direction)[i]? = some out) :
    ((out.filter (passes relationFilter)).map fun e => g.idxToKey[e.dst]?)
      = (followed edges direction relationFilter key).reverse.map some := by
  obtain ⟨out', hout', hnamed⟩ := hg.lists direction i key hkey
  obtain rfl : out = out' := Option.some_inj.mp (hout.symm.trans hout')
  have hfilter := congrArg (List.filter fun t => relationFilter.all (· = t.2)) hnamed
  rw [named, List.filter_map, List.filter_map] at hfilter
  have hfst := congrArg (List.map Prod.fst) hfilter
  rw [List.map_map, List.map_map] at hfst
  rw [followed, List.reverse_reverse, List.map_map]
  exact hfst

/-- **Depth-first search** returns the nodes that have a first route, each once, with the length
of its route. -/
theorem dfs_spec (cs : List GraphCall) (start : Str) (direction : String) (maxDepth : ℕ)
    (relationFilter : Option Relation) :
    ∃ results, (ofCalls cs).dfs start direction maxDepth relationFilter = some results ∧
      (start ∉ addedNodes cs → results = []) ∧
      (start ∈ addedNodes cs →
        (results.map (·.key)).Nodup ∧
        (∃ route, Firsts (followed (addedEdges cs) direction relationFilter) start maxDepth route) ∧
        ∀ route, Firsts (followed (addedEdges cs) direction relationFilter) start maxDepth route →
          ∀ key depth, (∃ r ∈ results, r.key = key ∧ r.depth = depth) ↔
            ∃ w, route key = some w ∧ w.length = depth) := by
  have hg := holds_ofCalls cs
  obtain ⟨results, hrun⟩ := hg.valid.dfs_isSome start direction maxDepth relationFilter
  refine ⟨results, hrun, fun hstart => ?_, fun hstart => ?_⟩
  · rw [dfs] at hrun
    simp only [ensureBuilt_keyToIdx] at hrun
    rw [hg.valid.index_of_new fun hmem => hstart ((hg.known start).mp hmem)] at hrun
    exact (Option.some_inj.mp hrun).symm
  · obtain ⟨idx, hidx⟩ := List.getElem?_of_mem ((hg.known start).mpr hstart)
    have hindex := (hg.valid.index start.1 idx).mpr ⟨start, hidx, rfl⟩
    rw [dfs] at hrun
    simp only [ensureBuilt_keyToIdx, ensureBuilt_idxToKey, hindex,
      hg.valid.arrays_ensureBuilt] at hrun
    -- the loop follows the traversal of keys from its first state on
    have hbegin : Follows (ofCalls cs).idxToKey
        (followed (addedEdges cs) direction relationFilter) start maxDepth ⟨∅, [(idx, 0)], []⟩
          [] [(start, [])] :=
      ⟨Traversed.initial _ _ _, rfl, by simp [hidx], by simp⟩
    obtain ⟨done, hdone, hresults⟩ := dfsLoop_spec hg.valid.nodup (fun i key out hkey hout => by
      obtain ⟨out', hout', _⟩ := hg.lists direction i key hkey
      obtain rfl : out = out' := Option.some_inj.mp (hout.symm.trans (edges_csrOf hout'))
      exact hg.map_filter_passes relationFilter hkey hout') hbegin hrun
    have hkeys : results.map (·.key) = done.map Prod.fst := by
      have hfst := congrArg (List.map Prod.fst) hresults
      rwa [List.map_map, List.map_map] at hfst
    obtain ⟨route, hroute, _⟩ := hdone.firsts
    refine ⟨hkeys ▸ hdone.nodup, ⟨route, hroute⟩, fun route hroute key depth => ?_⟩
    have hmem : (∃ r ∈ results, r.key = key ∧ r.depth = depth) ↔
        (key, depth) ∈ results.map fun r => (r.key, r.depth) := by
      simp only [List.mem_map, Prod.mk.injEq]
    rw [hmem, hresults, List.mem_map]
    constructor
    · rintro ⟨q, hq, heq⟩
      obtain ⟨rfl, rfl⟩ := Prod.mk.inj heq
      exact ⟨q.2, (hdone.route_iff hroute q.1 q.2).mpr hq, rfl⟩
    · rintro ⟨w, hw, rfl⟩
      exact ⟨(key, w), (hdone.route_iff hroute key w).mp hw, rfl⟩

theorem mem_followed {edges : List (Str × Str × Relation)} {direction : String}
    {relationFilter : Option Relation} {a b : Str} :
    b ∈ followed edges direction relationFilter a ↔ Leads edges direction relationFilter a b := by
  simp only [followed, List.mem_reverse, List.mem_map, List.mem_filter, Leads, ← mem_edgesAt]
  constructor
  · rintro ⟨⟨b', relation⟩, ⟨hmem, hpass⟩, rfl⟩
    refine ⟨relation, hmem, fun r hr => ?_⟩
    simpa [hr] using hpass
  · rintro ⟨relation, hmem, hpass⟩
    refine ⟨(b, relation), ⟨hmem, ?_⟩, rfl⟩
    cases relationFilter with
    | none => rfl
    | some r => simpa using hpass r rfl

/-- From a name that is not there, a search goes nowhere. -/
theorem firsts_of_not_mem {cs : List GraphCall} {start : Str} (hstart : start ∉ addedNodes cs)
    (direction : String) (maxDepth : ℕ) (relationFilter : Option Relation) :
    ∃ route, Firsts (followed (addedEdges cs) direction relationFilter) start maxDepth route ∧
      ∀ key n, Walk (Leads (addedEdges cs) direction relationFilter) n start key →
        route key ≠ none := by
  have hnone := not_leads_of_not_mem hstart direction relationFilter
  have hnext : followed (addedEdges cs) direction relationFilter start = [] :=
    List.eq_nil_iff_forall_not_mem.mpr fun b hb => hnone b (mem_followed.mp hb)
  have hend : Traversed (followed (addedEdges cs) direction relationFilter) start maxDepth
      ([] ++ [(start, [])]) ([] ++ []) :=
    (Traversed.initial _ _ _).visit (by simp) [] List.Pairwise.nil (by simp) (by simp [hnext])
  obtain ⟨route, hroute, hiff⟩ := hend.firsts
  refine ⟨route, hroute, fun key n hwalk => ?_⟩
  rw [hwalk.eq_of_forall_not hnone, hroute.source]
  simp

/-- The nodes of an answer with distances are those within the bound. -/
theorem mem_keys_of_dists {found : List TraversalResult} {leads : Str → Str → Prop} {start : Str}
    {maxDepth : ℕ} (h : ∀ key depth, (∃ r ∈ found, r.key = key ∧ r.depth = depth) ↔
      IsDist leads start key depth ∧ depth ≤ maxDepth) (key : Str) :
    key ∈ found.map (·.key) ↔ ∃ n ≤ maxDepth, Walk leads n start key := by
  rw [List.mem_map]
  constructor
  · rintro ⟨r, hr, hkey⟩
    obtain ⟨hwalk, hle⟩ := (h key r.depth).mp ⟨r, hr, hkey, rfl⟩
    exact ⟨r.depth, hle, hwalk.1⟩
  · rintro ⟨n, hn, hwalk⟩
    obtain ⟨m, hm, hshort⟩ := hwalk.exists_isDist
    obtain ⟨r, hr, hkey, _⟩ := (h key m).mpr ⟨hshort, hm.trans hn⟩
    exact ⟨r, hr, hkey⟩

/-- The nodes of an answer with routes are those that have one. -/
theorem mem_keys_of_routes {found : List TraversalResult} {route : Str → Option (List ℕ)}
    (h : ∀ key depth, (∃ r ∈ found, r.key = key ∧ r.depth = depth) ↔
      ∃ w, route key = some w ∧ w.length = depth) (key : Str) :
    key ∈ found.map (·.key) ↔ route key ≠ none := by
  rw [List.mem_map, Option.ne_none_iff_exists']
  constructor
  · rintro ⟨r, hr, hkey⟩
    obtain ⟨w, hw, _⟩ := (h key r.depth).mp ⟨r, hr, hkey, rfl⟩
    exact ⟨w, hw⟩
  · rintro ⟨w, hw⟩
    obtain ⟨r, hr, hkey, _⟩ := (h key w.length).mpr ⟨w, hw, rfl⟩
    exact ⟨r, hr, hkey⟩

/-- **When a depth-first search finds what a breadth-first search finds**, each node once: every
node within the bound has a first route. -/
theorem dfs_eq_bfs_iff (cs : List GraphCall) (start : Str) (direction : String) (maxDepth : ℕ)
    (relationFilter : Option Relation) :
    (∃ found found', (ofCalls cs).dfs start direction maxDepth relationFilter = some found ∧
      (ofCalls cs).bfs start direction maxDepth relationFilter = some found' ∧
      (found.map (·.key)).Nodup ∧ ∀ key, key ∈ found.map (·.key) ↔ key ∈ found'.map (·.key)) ↔
    ∃ route, Firsts (followed (addedEdges cs) direction relationFilter) start maxDepth route ∧
      ∀ key n, Walk (Leads (addedEdges cs) direction relationFilter) n start key → n ≤ maxDepth →
        route key ≠ none := by
  have hrelation : (fun a b => b ∈ followed (addedEdges cs) direction relationFilter a)
      = Leads (addedEdges cs) direction relationFilter := by
    funext a b
    exact propext mem_followed
  obtain ⟨found, hdfs, hdfs₀, hdfs₁⟩ := dfs_spec cs start direction maxDepth relationFilter
  obtain ⟨found', hbfs, hbfs₀, hbfs₁⟩ := bfs_spec cs start direction maxDepth relationFilter
  by_cases hstart : start ∈ addedNodes cs
  · obtain ⟨hnodup, ⟨first, hfirst⟩, hroutes⟩ := hdfs₁ hstart
    obtain ⟨_, _, hdist⟩ := hbfs₁ hstart
    -- both answers, by the nodes that they hold
    have hdeep := fun route hroute => mem_keys_of_routes (hroutes route hroute)
    have hwide := mem_keys_of_dists hdist
    constructor
    · rintro ⟨f, f', hf, hf', _, hsame⟩
      obtain rfl := Option.some_inj.mp (hdfs.symm.trans hf)
      obtain rfl := Option.some_inj.mp (hbfs.symm.trans hf')
      refine ⟨first, hfirst, fun key n hwalk hn => ?_⟩
      exact (hdeep first hfirst key).mp ((hsame key).mpr ((hwide key).mpr ⟨n, hn, hwalk⟩))
    · rintro ⟨route, hroute, hall⟩
      refine ⟨found, found', hdfs, hbfs, hnodup, fun key => ?_⟩
      rw [hdeep route hroute, hwide]
      constructor
      · intro hkey
        obtain ⟨w, hw⟩ := Option.ne_none_iff_exists'.mp hkey
        have hwalk := hroute.walk hw
        rw [hrelation] at hwalk
        exact ⟨w.length, hwalk.2, hwalk.1⟩
      · rintro ⟨n, hn, hwalk⟩
        exact hall key n hwalk hn
  · obtain ⟨route, hroute, hall⟩ := firsts_of_not_mem hstart direction maxDepth relationFilter
    constructor
    · exact fun _ => ⟨route, hroute, fun key n hwalk _ => hall key n hwalk⟩
    · intro _
      refine ⟨found, found', hdfs, hbfs, ?_, fun key => ?_⟩
      · rw [hdfs₀ hstart]
        exact List.nodup_nil
      · rw [hdfs₀ hstart, hbfs₀ hstart]

/-- An edge from `s` to `x`, and a detour that was added later; behind `x` there is one more. -/
def detour : List GraphCall :=
  let key (b : UInt8) (h : validUtf8 [b] = true) : Str := ⟨[b], h⟩
  let s := key 115 rfl
  let x := key 120 rfl
  let y := key 121 rfl
  let z := key 122 rfl
  [.addEdge s x .calls, .addEdge x z .calls, .addEdge s y .calls, .addEdge y x .calls]

/-- Within two steps of `s` there are three nodes, but `x` is met on the detour and `z` is missed. -/
theorem detour_missed : ¬∀ (cs : List GraphCall) (start : Str) (direction : String) (maxDepth : ℕ)
    (relationFilter : Option Relation),
    ∃ found found', (ofCalls cs).dfs start direction maxDepth relationFilter = some found ∧
      (ofCalls cs).bfs start direction maxDepth relationFilter = some found' ∧
      (found.map (·.key)).Nodup ∧
      ∀ key, key ∈ found.map (·.key) ↔ key ∈ found'.map (·.key) := by
  intro h
  obtain ⟨found, found', hdfs, hbfs, _, hsame⟩ := h detour ⟨[115], rfl⟩ "forward" 2 none
  have hdeep : found.map (·.key.1) = [[115], [121], [120]] := by
    have hrun : ((ofCalls detour).dfs ⟨[115], rfl⟩ "forward" 2 none).map
        (fun results => results.map (·.key.1)) = some [[115], [121], [120]] := by decide +kernel
    rw [hdfs] at hrun
    exact Option.some_inj.mp hrun
  have hwide : found'.map (·.key.1) = [[115], [120], [121], [122]] := by
    have hrun : ((ofCalls detour).bfs ⟨[115], rfl⟩ "forward" 2 none).map
        (fun results => results.map (·.key.1)) = some [[115], [120], [121], [122]] := by
      decide +kernel
    rw [hbfs] at hrun
    exact Option.some_inj.mp hrun
  have hz : (⟨[122], rfl⟩ : Str) ∈ found.map (·.key) := by
    rw [hsame]
    have hmem : [122] ∈ found'.map (·.key.1) := by simp [hwide]
    obtain ⟨r, hr, hkey⟩ := List.mem_map.mp hmem
    exact List.mem_map.mpr ⟨r, hr, Subtype.ext hkey⟩
  obtain ⟨r, hr, hkey⟩ := List.mem_map.mp hz
  have hmem : [122] ∈ found.map (·.key.1) := List.mem_map.mpr ⟨r, hr, congrArg Subtype.val hkey⟩
  rw [hdeep] at hmem
  exact absurd hmem (by decide)

end RelationGraph

end Uldb
