/-
Searches of a nearest neighbour index (`HnswIndex::search` in `index/hnsw.rs`).

The beam of a search drops a node only when it is full, and the search stops early only then.  A
beam with room for all nodes is full when all of them are in it: such a search finds exactly the
nodes that the lists of neighbours lead to from its first one.

* `beamLoop_induction` — what the turns of a beam search keep;
* `Wide`, `Linked.searchLayer_wide` — a beam with room for all nodes;
* `search_spec` — what a search returns, for every index that calls of `add` have made.
-/
import Uldb.HnswLayers

namespace Uldb

namespace HnswIndex

open Fallible

/-- A list of neighbours names the other node. -/
def LinksTo (h : HnswIndex) (layer i j : ℕ) : Prop :=
  ∃ list, h.listAt i layer = some list ∧ j ∈ list

/-- There is a way along the lists of a layer. -/
def Leads (h : HnswIndex) (layer : ℕ) : ℕ → ℕ → Prop := Relation.ReflTransGen (h.LinksTo layer)

variable {h : HnswIndex} {layer i j : ℕ}

theorem LinksTo.mem {nbs : List ℕ} (hij : h.LinksTo layer i j)
    (hnbs : h.getLayerNeighbours i layer = some nbs) : j ∈ nbs := by
  obtain ⟨list, hlist, hj⟩ := hij
  obtain ⟨n, hn, hl⟩ := listAt_eq_some.mp hlist
  rw [getLayerNeighbours, hn, Option.bind_eq_bind, Option.bind_some, hl] at hnbs
  rwa [← Option.some_inj.mp hnbs]

theorem linksTo_of_mem {nbs : List ℕ} (hnbs : h.getLayerNeighbours i layer = some nbs)
    (hj : j ∈ nbs) : h.LinksTo layer i j := ⟨nbs, listAt_of_mem hnbs hj, hj⟩

theorem Linked.linksTo_lt (hl : h.Linked) (hij : h.LinksTo layer i j) : j < h.nodes.length := by
  obtain ⟨list, hlist, hj⟩ := hij
  obtain ⟨n, hn, hmem⟩ := listAt_eq_some.mp hlist
  exact hl n (List.mem_of_getElem? hn) list (List.mem_of_getElem? hmem) j hj

theorem Linked.leads_lt (hl : h.Linked) (hi : i < h.nodes.length) (hij : h.Leads layer i j) :
    j < h.nodes.length := by
  induction hij with
  | refl => exact hi
  | tail _ hlink _ => exact hl.linksTo_lt hlink

section

variable {D : Type} [Ord D] {g : Metric D} {dist : ℕ → Option D} {ef : ℕ} {s s' : Beam D}
  {out : List (D × ℕ)}

theorem sortByDist_perm (cands : List (D × ℕ)) : (sortByDist cands).Perm cands :=
  List.perm_insertionSort _ _

/-! ### The loop of a beam search -/

/-- What the turns of a beam search keep holds at its end, and there is then no candidate left,
or the beam is full. -/
theorem beamLoop_induction {I : Beam D → Prop} {fuel : ℕ} (hs : I s)
    (hturn : ∀ s c cands nbs s', I s → BinaryHeap.pop leNear s.cands = some (c, cands) →
      h.getLayerNeighbours c.2 layer = some nbs →
      nbs.foldlM (visitNeighbour g dist ef) { s with cands := cands } = some s' → I s')
    (hrun : h.beamLoop g dist ef layer fuel s = some out) :
    ∃ s', I s' ∧ out = s'.results ∧ (s'.cands = [] ∨ ef ≤ s'.results.length) := by
  induction fuel generalizing s with
  | zero =>
    unfold beamLoop at hrun
    cases hpop : BinaryHeap.pop leNear s.cands with
    | none =>
      simp only [hpop] at hrun
      exact ⟨s, hs, (Option.some_inj.mp hrun).symm, .inl (BinaryHeap.pop_eq_none.mp hpop)⟩
    | some p => simp [hpop] at hrun
  | succ fuel ih =>
    unfold beamLoop at hrun
    cases hpop : BinaryHeap.pop leNear s.cands with
    | none =>
      simp only [hpop] at hrun
      exact ⟨s, hs, (Option.some_inj.mp hrun).symm, .inl (BinaryHeap.pop_eq_none.mp hpop)⟩
    | some p =>
      obtain ⟨c, cands⟩ := p
      simp only [hpop] at hrun
      split at hrun
      · rename_i hfull
        exact ⟨s, hs, (Option.some_inj.mp hrun).symm, .inr hfull.2⟩
      · obtain ⟨nbs, hnbs, hrun⟩ := Option.bind_eq_some_iff.mp hrun
        obtain ⟨t, ht, hrun⟩ := Option.bind_eq_some_iff.mp hrun
        exact ih (hturn s c cands nbs t hs hpop hnbs ht) hrun

/-- The results hold the distances. -/
def Measured (dist : ℕ → Option D) (s : Beam D) : Prop := ∀ c ∈ s.results, dist c.2 = some c.1

theorem Measured.visitNeighbour {nb : ℕ} (hs : Measured dist s)
    (hvisit : visitNeighbour g dist ef s nb = some s') : Measured dist s' := by
  rcases visitNeighbour_eq_some hvisit with rfl | ⟨_, _, ⟨_, hresults⟩ |
    ⟨nbD, hdist, _, out, hresults⟩⟩
  · exact hs
  · rw [Measured, hresults]
    exact hs
  · intro c hc
    rcases List.mem_cons.mp (hresults.mem_iff.mpr (List.mem_append_right _ hc)) with rfl | hc
    · exact hdist
    · exact hs c hc

theorem searchLayer_measured {ep : ℕ} (hrun : h.searchLayer g dist ep ef layer = some out) :
    ∀ c ∈ out, dist c.2 = some c.1 := by
  obtain ⟨epD, hepD, hrun⟩ := Option.bind_eq_some_iff.mp hrun
  obtain ⟨results, hresults, hrun⟩ := Option.bind_eq_some_iff.mp hrun
  obtain rfl := Option.some_inj.mp hrun
  have hstart : Measured dist (⟨{ep}, [(epD, ep)], [(epD, ep)]⟩ : Beam D) := by
    intro c hc
    rw [List.mem_singleton.mp hc]
    exact hepD
  obtain ⟨s', hs', rfl, _⟩ := beamLoop_induction hstart
    (fun s c cands nbs s' hs _ _ hfold => foldlM_induction (P := Measured dist) hfold hs
      fun nb _ t t' ht hvisit => ht.visitNeighbour hvisit) hresults
  exact fun c hc => hs' c ((sortByDist_perm _).mem_iff.mp hc)

/-! ### A beam with room for all nodes -/

/-- While there is room, a new node becomes a candidate and a result. -/
theorem visitNeighbour_of_room {nb : ℕ} (hnew : nb ∉ s.visited) (hroom : s.results.length < ef)
    (hvisit : visitNeighbour g dist ef s nb = some s') :
    s'.visited = insert nb s.visited ∧ ∃ nbD, s'.cands.Perm ((nbD, nb) :: s.cands) ∧
      s'.results.Perm ((nbD, nb) :: s.results) := by
  rw [visitNeighbour, if_neg hnew] at hvisit
  obtain ⟨nbD, _, hvisit⟩ := Option.bind_eq_some_iff.mp hvisit
  have hlen : ¬ef < (BinaryHeap.push leFar s.results (nbD, nb)).length := by
    rw [(BinaryHeap.push_perm s.results (nbD, nb)).length_eq, List.length_cons]
    omega
  simp only [hroom, or_true, if_true, if_neg hlen] at hvisit
  rw [← Option.some_inj.mp hvisit]
  exact ⟨rfl, nbD, BinaryHeap.push_perm _ _, BinaryHeap.push_perm _ _⟩

/-- Every node seen is a result, and it is the one under work, or a candidate, or all its
neighbours have been seen. -/
structure Wide (h : HnswIndex) (layer start : ℕ) (busy : ℕ → Prop) (s : Beam D) : Prop where
  first : start ∈ s.visited
  reached : ∀ i ∈ s.visited, h.Leads layer start i
  results : ∀ i, i ∈ s.results.map Prod.snd ↔ i ∈ s.visited
  size : s.results.length = s.visited.card
  cands : ∀ c ∈ s.cands, c.2 ∈ s.visited
  seen : ∀ i ∈ s.visited, busy i ∨ i ∈ s.cands.map Prod.snd ∨
    ∀ j, h.LinksTo layer i j → j ∈ s.visited

variable {start : ℕ} {busy : ℕ → Prop}

omit [Ord D] in
theorem Wide.visited_subset (hl : h.Linked) (hstart : start < h.nodes.length)
    (hs : h.Wide layer start busy s) : s.visited ⊆ Finset.range h.nodes.length :=
  fun i hi => Finset.mem_range.mpr (hl.leads_lt hstart (hs.reached i hi))

theorem Wide.visitNeighbour (hl : h.Linked) (hstart : start < h.nodes.length)
    (hef : h.nodes.length ≤ ef) (hs : h.Wide layer start busy s) {nb : ℕ} (hi : i ∈ s.visited)
    (hnb : h.LinksTo layer i nb) (hvisit : visitNeighbour g dist ef s nb = some s') :
    h.Wide layer start busy s' ∧ nb ∈ s'.visited ∧ s.visited ⊆ s'.visited := by
  by_cases hmem : nb ∈ s.visited
  · rw [HnswIndex.visitNeighbour, if_pos hmem] at hvisit
    obtain rfl := Option.some_inj.mp hvisit
    exact ⟨hs, hmem, subset_refl _⟩
  · -- the new node is not counted yet, so there is room for it
    have hroom : s.results.length < ef := by
      have hlt : nb ∈ Finset.range h.nodes.length := Finset.mem_range.mpr (hl.linksTo_lt hnb)
      have hcard := Finset.card_lt_card (Finset.ssubset_iff_of_subset
        (hs.visited_subset hl hstart) |>.mpr ⟨nb, hlt, hmem⟩)
      rw [Finset.card_range] at hcard
      have := hs.size
      omega
    obtain ⟨hvisited, nbD, hcands, hresults⟩ := visitNeighbour_of_room hmem hroom hvisit
    have hsub : s.visited ⊆ s'.visited := by
      rw [hvisited]
      exact Finset.subset_insert _ _
    refine ⟨⟨hsub hs.first, fun j hj => ?_, fun j => ?_, ?_, fun c hc => ?_, fun j hj => ?_⟩, ?_,
      hsub⟩
    · rw [hvisited, Finset.mem_insert] at hj
      rcases hj with rfl | hj
      · exact (hs.reached i hi).tail hnb
      · exact hs.reached j hj
    · rw [(hresults.map Prod.snd).mem_iff, hvisited, List.map_cons, List.mem_cons,
        Finset.mem_insert, hs.results]
    · rw [hresults.length_eq, hvisited, Finset.card_insert_of_notMem hmem, List.length_cons,
        hs.size]
    · rcases List.mem_cons.mp (hcands.mem_iff.mp hc) with rfl | hc
      · rw [hvisited]
        exact Finset.mem_insert_self _ _
      · exact hsub (hs.cands c hc)
    · rw [(hcands.map Prod.snd).mem_iff, List.map_cons, List.mem_cons]
      rw [hvisited, Finset.mem_insert] at hj
      rcases hj with rfl | hj
      · exact .inr (.inl (.inl rfl))
      · rcases hs.seen j hj with hbusy | hcand | hseen
        · exact .inl hbusy
        · exact .inr (.inl (.inr hcand))
        · exact .inr (.inr fun k hk => hsub (hseen k hk))
    · rw [hvisited]
      exact Finset.mem_insert_self _ _

/-- A turn leaves the candidate that it takes with all its neighbours seen. -/
theorem Wide.turn (hl : h.Linked) (hstart : start < h.nodes.length)
    (hef : h.nodes.length ≤ ef) (hs : h.Wide layer start (fun _ => False) s) {c : D × ℕ}
    {cands : List (D × ℕ)} {nbs : List ℕ} (hpop : BinaryHeap.pop leNear s.cands = some (c, cands))
    (hnbs : h.getLayerNeighbours c.2 layer = some nbs)
    (hfold : nbs.foldlM (HnswIndex.visitNeighbour g dist ef) { s with cands := cands } = some s') :
    h.Wide layer start (fun _ => False) s' := by
  have hperm := BinaryHeap.pop_perm hpop
  have hc : c.2 ∈ s.visited := hs.cands c (hperm.mem_iff.mpr List.mem_cons_self)
  have hbusy : h.Wide layer start (· = c.2) { s with cands := cands } := by
    refine ⟨hs.first, hs.reached, hs.results, hs.size, fun c' hc' => ?_, fun i hi => ?_⟩
    · exact hs.cands c' (hperm.mem_iff.mpr (List.mem_cons_of_mem _ hc'))
    · rcases hs.seen i hi with hfalse | hcand | hseen
      · exact hfalse.elim
      · rw [(hperm.map Prod.snd).mem_iff, List.map_cons, List.mem_cons] at hcand
        rcases hcand with hcand | hcand
        · exact .inl hcand
        · exact .inr (.inl hcand)
      · exact .inr (.inr hseen)
  have hscan := foldlM_history (P := fun scanned t => (∀ nb ∈ scanned, h.LinksTo layer c.2 nb) →
      h.Wide layer start (· = c.2) t ∧ c.2 ∈ t.visited ∧ ∀ nb ∈ scanned, nb ∈ t.visited)
    (fun _ => ⟨hbusy, hc, by simp⟩) (fun scanned nb t t' _ ih hvisit hlinks => by
      obtain ⟨ht, hct, hscanned⟩ := ih fun nb' hnb' => hlinks nb' (List.mem_append_left _ hnb')
      obtain ⟨ht', hnb, hsub⟩ := ht.visitNeighbour hl hstart hef hct
        (hlinks nb (List.mem_append_right _ (List.mem_singleton_self nb))) hvisit
      refine ⟨ht', hsub hct, fun nb' hnb' => ?_⟩
      rcases List.mem_append.mp hnb' with hnb' | hnb'
      · exact hsub (hscanned nb' hnb')
      · rwa [List.mem_singleton.mp hnb']) hfold
  obtain ⟨hwide, _, hall⟩ := hscan fun nb hnb => linksTo_of_mem hnbs hnb
  refine ⟨hwide.first, hwide.reached, hwide.results, hwide.size, hwide.cands, fun i hi => ?_⟩
  rcases hwide.seen i hi with rfl | hcand | hseen
  · exact .inr (.inr fun j hj => hall j (hj.mem hnbs))
  · exact .inr (.inl hcand)
  · exact .inr (.inr hseen)

omit [Ord D] in
/-- At the end all nodes that can be reached have been seen. -/
theorem Wide.finish (hl : h.Linked) (hstart : start < h.nodes.length)
    (hs : h.Wide layer start (fun _ => False) s)
    (hend : s.cands = [] ∨ h.nodes.length ≤ s.results.length) :
    i ∈ s.visited ↔ h.Leads layer start i := by
  refine ⟨hs.reached i, fun hi => ?_⟩
  rcases hend with hend | hend
  · induction hi with
    | refl => exact hs.first
    | tail _ hlink ih =>
      rcases hs.seen _ ih with hfalse | hcand | hseen
      · exact hfalse.elim
      · rw [hend] at hcand
        exact absurd hcand (by simp)
      · exact hseen _ hlink
  · have hall : s.visited = Finset.range h.nodes.length := by
      refine Finset.eq_of_subset_of_card_le (hs.visited_subset hl hstart) ?_
      rwa [Finset.card_range, ← hs.size]
    rw [hall]
    exact Finset.mem_range.mpr (hl.leads_lt hstart hi)

/-- **A beam with room for all nodes** finds exactly the nodes that the lists lead to. -/
theorem Linked.searchLayer_wide (hl : h.Linked) (hstart : start < h.nodes.length)
    (hef : h.nodes.length ≤ ef) (hrun : h.searchLayer g dist start ef layer = some out) :
    i ∈ out.map Prod.snd ↔ h.Leads layer start i := by
  obtain ⟨startD, _, hrun⟩ := Option.bind_eq_some_iff.mp hrun
  obtain ⟨results, hresults, hrun⟩ := Option.bind_eq_some_iff.mp hrun
  obtain rfl := Option.some_inj.mp hrun
  have hfirst : h.Wide layer start (fun _ => False)
      (⟨{start}, [(startD, start)], [(startD, start)]⟩ : Beam D) := by
    refine ⟨Finset.mem_singleton_self start, fun i hi => ?_, by simp, by simp, by simp, by simp⟩
    rw [Finset.mem_singleton.mp hi]
    exact Relation.ReflTransGen.refl
  obtain ⟨s', hs', rfl, hend⟩ := beamLoop_induction hfirst
    (fun s c cands nbs s' hs hpop hnbs hfold => hs.turn hl hstart hef hpop hnbs hfold) hresults
  rw [((sortByDist_perm s'.results).map Prod.snd).mem_iff, hs'.results]
  exact hs'.finish hl hstart (hend.imp_right hef.trans)

end

/-! ### Searches -/

section

variable {D : Type} [Ord D] {g : Metric D}

omit [Ord D] in
theorem vecDist_eq_some {vec : Floats} {d : D} :
    h.vecDist g vec i = some d ↔ ∃ n, h.nodes[i]? = some n ∧ d = g.dist n.vector vec := by
  rw [vecDist, Option.bind_eq_bind, Option.bind_eq_some_iff]
  simp only [pure, Option.some_inj, eq_comm]

/-- **The steps of a search** that is not refused: the walk down, a beam search on layer 0, and
the first `k` of what it finds. -/
theorem Sound.searchBeam_steps (hh : h.Sound) (hne : h.nodes ≠ []) {query qv : Floats}
    (hdim : query.length = h.dim) (hnorm : g.normalize query = some qv) (k ef : ℕ) :
    ∃ ep start cands results, h.entryPoint = some ep ∧
      h.descend g (h.vecDist g qv) 1 h.entryLevel ep = some start ∧ start < h.nodes.length ∧
      h.searchLayer g (h.vecDist g qv) start (max ef k) 0 = some cands ∧
      ((sortByDist cands).take k).zipIdx.mapM h.searchResult = some results ∧
      h.searchBeam g query k ef = some results := by
  obtain ⟨ep, hep, hep_lt⟩ := hh.start hne
  have hdist : ∀ i < h.nodes.length, ∃ d, h.vecDist g qv i = some d := by
    intro i hi
    exact ⟨_, vecDist_eq_some.mpr ⟨_, List.getElem?_eq_getElem hi, rfl⟩⟩
  obtain ⟨start, hstart, hlt⟩ := hh.linked.descend_isSome (g := g) hdist 1 h.entryLevel hep_lt
  obtain ⟨cands, hcands⟩ := hh.linked.searchLayer_isSome g (max ef k) 0 hdist hlt
  obtain ⟨results, hresults⟩ := hh.linked.searchBeam_isSome (g := g) hh.start query k ef
  refine ⟨ep, start, cands, results, hep, hstart, hlt, hcands, ?_, hresults⟩
  rw [searchBeam] at hresults
  by_cases hk : k = 0
  · rw [if_pos (.inr (.inl hk))] at hresults
    rw [← hresults, hk, List.take_zero]
    rfl
  · have hok : ¬(h.nodes = [] ∨ k = 0 ∨ query.length ≠ h.dim) := by
      rintro (hnil | hzero | hbad)
      · exact hne hnil
      · exact hk hzero
      · exact hbad hdim
    rw [if_neg hok, hnorm] at hresults
    simpa only [hep, hstart, searchLayerVec, hcands, Option.bind_eq_bind, Option.bind_some]
      using hresults

omit [Ord D] in
/-- The results, one for each node that was found. -/
theorem results_of_zipIdx {found : List (D × ℕ)} {results : List (SearchResult D)}
    (hresults : found.zipIdx.mapM h.searchResult = some results) :
    results.map SearchResult.rank = List.range found.length ∧
      List.Forall₂ (fun (c : D × ℕ) r => r.distance = c.1 ∧
        ∃ n, h.nodes[c.2]? = some n ∧ r.key = n.key) found results := by
  have hall := forall₂_of_mapM_eq_some hresults
  have hresult : ∀ (c : (D × ℕ) × ℕ) r, h.searchResult c = some r →
      ∃ n, h.nodes[c.1.2]? = some n ∧ r = ⟨n.key, c.1.1, c.2⟩ := by
    intro c r hr
    obtain ⟨n, hn, hr⟩ := Option.bind_eq_some_iff.mp hr
    exact ⟨n, hn, (Option.some_inj.mp hr).symm⟩
  constructor
  · rw [map_eq_of_forall₂ (q := Prod.snd) (hall.imp fun c r hr => ?_), List.zipIdx_map_snd,
      List.range_eq_range']
    obtain ⟨n, _, rfl⟩ := hresult c r hr
    rfl
  · have hpairs : List.Forall₂ (fun (c : D × ℕ) r => r.distance = c.1 ∧
        ∃ n, h.nodes[c.2]? = some n ∧ r.key = n.key) (found.zipIdx.map Prod.fst) results := by
      refine List.forall₂_map_left_iff.mpr (hall.imp fun c r hr => ?_)
      obtain ⟨n, hn, rfl⟩ := hresult c r hr
      exact ⟨rfl, n, hn, rfl⟩
    rwa [List.zipIdx_map_fst] at hpairs

end

section

variable {D : Type} [LinearOrder D] {g : Metric D}

theorem pairwise_sortByDist (cands : List (D × ℕ)) :
    (sortByDist cands).Pairwise fun a b => a.1 ≤ b.1 := by
  have hle : ∀ a b : D × ℕ, (compare a.1 b.1).isLE = true ↔ a.1 ≤ b.1 := fun a b => by
    rw [← Ordering.ne_gt_iff_isLE]
    exact compare_le_iff_le
  have htotal : Std.Total fun a b : D × ℕ => (compare a.1 b.1).isLE = true := by
    refine ⟨fun a b => ?_⟩
    rw [hle, hle]
    exact le_total _ _
  have htrans : IsTrans (D × ℕ) fun a b => (compare a.1 b.1).isLE = true := by
    refine ⟨fun a b c hab hbc => ?_⟩
    rw [hle] at hab hbc ⊢
    exact hab.trans hbc
  exact (List.pairwise_insertionSort _ cands).imp fun hab => (hle _ _).mp hab

/-- The results of a search for at most `k` nodes, the nearest first. -/
structure Answers (h : HnswIndex) (g : Metric D) (qv : Floats) (k : ℕ) (found : List ℕ)
    (results : List (SearchResult D)) : Prop where
  length : results.length ≤ k
  ranks : results.map SearchResult.rank = List.range results.length
  sorted : results.Pairwise fun r r' => r.distance ≤ r'.distance
  nodup : found.Nodup
  nodes : List.Forall₂ (fun i r => ∃ n, h.nodes[i]? = some n ∧ r.key = n.key ∧
    r.distance = g.dist n.vector qv) found results

/-- These are `k` of the nearest nodes that layer 0 leads to from `start`, or all of them. -/
structure NearestFrom (h : HnswIndex) (g : Metric D) (qv : Floats) (k start : ℕ)
    (found : List ℕ) : Prop where
  reached : ∀ i ∈ found, h.Leads 0 start i
  enough : found.length = k ∨ ∀ i, h.Leads 0 start i → i ∈ found
  nearest : ∀ i ∈ found, ∀ j, h.Leads 0 start j → j ∉ found →
    ∀ d e, h.vecDist g qv i = some d → h.vecDist g qv j = some e → d ≤ e

/-- **A search that is not refused** comes back with results, and with the nearest ones if its
beam has room for all nodes. -/
theorem Layered.search_spec (hh : h.Layered) (hne : h.nodes ≠ []) {query qv : Floats}
    (hdim : query.length = h.dim) (hnorm : g.normalize query = some qv) (k : ℕ) :
    ∃ ep start results found, h.entryPoint = some ep ∧
      h.descend g (h.vecDist g qv) 1 h.entryLevel ep = some start ∧
      h.search g query k = some results ∧ h.Answers g qv k found results ∧
      (h.nodes.length ≤ max h.efSearch k → h.NearestFrom g qv k start found) := by
  obtain ⟨ep, start, cands, results, hep, hstart, hlt, hcands, hresults, hsearch⟩ :=
    hh.sound.searchBeam_steps hne hdim hnorm k h.efSearch
  obtain ⟨hranks, hnodes⟩ := results_of_zipIdx hresults
  have hperm := sortByDist_perm cands
  have hsorted := pairwise_sortByDist cands
  have hmeasured := searchLayer_measured hcands
  have hnodup := (searchLayer_spec (hh.tidy.linked.closedOn 0) hlt hcands).2
  have hsplit := List.take_append_drop k (sortByDist cands)
  set first := (sortByDist cands).take k with hfirst
  have hmem : ∀ c ∈ first, c ∈ cands := fun c hc => hperm.mem_iff.mp (List.mem_of_mem_take hc)
  have hlen : results.length = first.length := hnodes.length_eq.symm
  refine ⟨ep, start, results, first.map Prod.snd, hep, hstart, hsearch,
    ⟨?_, hlen ▸ hranks, ?_, ?_, ?_⟩, fun hef => ⟨fun i hi => ?_, ?_, fun i hi j hj hnot d e hd he => ?_⟩⟩
  · rw [hlen]
    exact List.length_take_le _ _
  · have hpairs : (first.map Prod.fst).Pairwise (· ≤ ·) :=
      List.pairwise_map.mpr (hsorted.sublist (List.take_sublist _ _))
    rw [← map_eq_of_forall₂ (hnodes.imp fun c r hr => hr.1)] at hpairs
    exact List.pairwise_map.mp hpairs
  · exact ((hperm.map Prod.snd).nodup_iff.mpr hnodup).sublist ((List.take_sublist _ _).map _)
  · -- what a result says is the distance that the beam has measured
    rw [List.forall₂_map_left_iff]
    have hboth := (List.forall₂_and_left _ _).mpr ⟨fun c hc => hmeasured c (hmem c hc), hnodes⟩
    refine hboth.imp fun c r ⟨hc, hdist, n, hn, hkey⟩ => ⟨n, hn, hkey, ?_⟩
    obtain ⟨n', hn', hc⟩ := vecDist_eq_some.mp hc
    obtain rfl := Option.some_inj.mp (hn.symm.trans hn')
    exact hdist.trans hc
  all_goals have hwide : ∀ i, i ∈ cands.map Prod.snd ↔ h.Leads 0 start i := fun i =>
    hh.tidy.linked.searchLayer_wide hlt hef hcands
  · obtain ⟨c, hc, rfl⟩ := List.mem_map.mp hi
    exact (hwide c.2).mp (List.mem_map_of_mem (hmem c hc))
  · rw [List.length_map, List.length_take]
    by_cases hk : k ≤ (sortByDist cands).length
    · exact .inl (Nat.min_eq_left hk)
    · -- all that the beam has found is returned
      refine .inr fun i hi => ?_
      rw [hfirst, List.take_of_length_le (by omega), (hperm.map Prod.snd).mem_iff]
      exact (hwide i).mpr hi
  · obtain ⟨c, hc, rfl⟩ := List.mem_map.mp hi
    obtain ⟨c', hc', rfl⟩ := List.mem_map.mp ((hwide j).mpr hj)
    have hd' : c.1 = d := Option.some_inj.mp ((hmeasured c (hmem c hc)).symm.trans hd)
    have he' : c'.1 = e := Option.some_inj.mp ((hmeasured c' hc').symm.trans he)
    -- a node that is not returned comes after all that are
    have hrest : c' ∈ (sortByDist cands).drop k := by
      have hall := hperm.mem_iff.mpr hc'
      rw [← hsplit, List.mem_append] at hall
      rcases hall with hall | hall
      · exact absurd (List.mem_map_of_mem hall) hnot
      · exact hall
    rw [← hsplit] at hsorted
    rw [← hd', ← he']
    exact (List.pairwise_append.mp hsorted).2.2 c hc c' hrest

/-- **Every search** of an index that calls of `add` have made, with nodes in it, by a query of
its dimension that has a direction. -/
theorem search_of_calls (g : Metric D) {dim m efBuild efSearch : ℕ} {h₀ : HnswIndex}
    (hnew : new dim m efBuild efSearch = some h₀) {calls : List AddCall}
    (hrun : calls.foldlM (addCall g) h₀ = some h) (hne : h.nodes ≠ []) {query qv : Floats}
    (hdim : query.length = h.dim) (hnorm : g.normalize query = some qv) (k : ℕ) :
    ∃ ep start results found, h.entryPoint = some ep ∧
      h.descend g (h.vecDist g qv) 1 h.entryLevel ep = some start ∧
      h.search g query k = some results ∧ h.Answers g qv k found results ∧
      (h.nodes.length ≤ max h.efSearch k → h.NearestFrom g qv k start found) := by
  obtain ⟨hlayered, _⟩ := layered_new hnew
  obtain ⟨t, hrun', ht, _⟩ := hlayered.addCalls g calls
  obtain rfl := Option.some_inj.mp (hrun'.symm.trans hrun)
  exact ht.search_spec hne hdim hnorm k

/-- A search for as many nodes as there are. -/
theorem search_of_calls_grid :
    ∃ h₀ h start results found, new 2 2 4 4 = some h₀ ∧
      drawnCalls.foldlM (addCall gridMetric) h₀ = some h ∧
      h.search gridMetric [1, 0] 5 = some results ∧
      h.Answers gridMetric [1, 0] 5 found results ∧
      h.NearestFrom gridMetric [1, 0] 5 start found := by
  have hsome : (new 2 2 4 4).any (fun h₀ => (drawnCalls.foldlM (addCall gridMetric) h₀).any
      fun h => h.nodes ≠ [] ∧ h.dim = 2 ∧ h.nodes.length = 5) = true := by
    decide +kernel
  obtain ⟨h₀, hnew, hsome⟩ := (Option.any_eq_true _ _).mp hsome
  obtain ⟨h, hrun, hsome⟩ := (Option.any_eq_true _ _).mp hsome
  obtain ⟨hne, hdim, hlen⟩ := of_decide_eq_true hsome
  obtain ⟨_, start, results, found, _, _, hsearch, hanswers, hnearest⟩ :=
    search_of_calls gridMetric hnew hrun hne (show ([1, 0] : Floats).length = h.dim from hdim.symm)
      rfl 5
  have hroom : h.nodes.length ≤ max h.efSearch 5 := hlen ▸ Nat.le_max_right _ _
  exact ⟨h₀, h, start, results, found, hnew, hrun, hsearch, hanswers, hnearest hroom⟩

end

end HnswIndex

end Uldb
