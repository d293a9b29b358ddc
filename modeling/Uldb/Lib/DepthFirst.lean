/-
First routes in a directed graph, and the turns of a depth-first search.

A route is the list of the places of its steps among the successors of the nodes that it leaves;
routes are compared like words.  A search up to a bound goes on from a node only along the first
route that reaches it, so a node whose first route has the length of the bound is a dead end,
even if it is nearer (`Firsts`).

* `Traversed.initial`, `Traversed.skip`, `Traversed.stop`, `Traversed.expand` — the turns of a
  search with a stack;
* `Traversed.firsts`, `Traversed.route_iff` — with the stack empty, the nodes that have been
  visited are those with a first route, and there is one way only to choose first routes.
-/
import Uldb.Lib.BreadthFirst

namespace DepthFirst

variable {V : Type}

/-- The first routes from `start` of at most `bound` steps: each prolongs the first route of
another node by a step, and no such route is earlier. -/
structure Firsts (next : V → List V) (start : V) (bound : ℕ) (route : V → Option (List ℕ)) :
    Prop where
  source : route start = some []
  taken : ∀ b r, route b = some r → b = start ∧ r = [] ∨
    ∃ a r' i, route a = some r' ∧ r'.length < bound ∧ (next a)[i]? = some b ∧ r = r' ++ [i]
  least : ∀ a r i b, route a = some r → r.length < bound → (next a)[i]? = some b →
    ∃ r', route b = some r' ∧ r' ≤ r ++ [i]

/-- What a search keeps: the nodes that it has visited and its stack, each with a route. -/
structure Traversed (next : V → List V) (start : V) (bound : ℕ) (done stack : List (V × List ℕ)) :
    Prop where
  source : (start, []) ∈ done ++ stack
  sorted : (done ++ stack).Pairwise fun p q => p.2 < q.2
  nodup : (done.map Prod.fst).Nodup
  taken : ∀ p ∈ done ++ stack, p = (start, []) ∨ ∃ q ∈ done, ∃ i,
    q.2.length < bound ∧ (next q.1)[i]? = some p.1 ∧ p.2 = q.2 ++ [i]
  closed : ∀ q ∈ done, q.2.length < bound → ∀ i b, (next q.1)[i]? = some b →
    (∃ r, (b, r) ∈ done ∧ r ≤ q.2 ++ [i]) ∨ (b, q.2 ++ [i]) ∈ stack

theorem Firsts.walk {next : V → List V} {start : V} {bound : ℕ} {route : V → Option (List ℕ)}
    (h : Firsts next start bound route) {b : V} {r : List ℕ} (hr : route b = some r) :
    BreadthFirst.Walk (fun a b => b ∈ next a) r.length start b ∧ r.length ≤ bound := by
  induction hn : r.length generalizing b r with
  | zero =>
    rcases h.taken b r hr with ⟨rfl, _⟩ | ⟨a, r', i, _, _, _, rfl⟩
    · exact ⟨.nil b, Nat.zero_le bound⟩
    · simp at hn
  | succ n ih =>
    rcases h.taken b r hr with ⟨_, rfl⟩ | ⟨a, r', i, ha, hlen, hb, rfl⟩
    · simp at hn
    · have hlen' : r'.length = n := by simpa using hn
      refine ⟨(ih ha hlen').1.snoc (List.mem_of_getElem? hb), ?_⟩
      omega

/-! ### Words -/

theorem lt_append_singleton (r : List ℕ) (i : ℕ) : r < r ++ [i] := by
  induction r with
  | nil => exact List.nil_lt_cons i []
  | cons a r ih => exact List.cons_lt_cons_iff.mpr (.inr ⟨rfl, ih⟩)

theorem append_singleton_lt {i j : ℕ} (r : List ℕ) (hij : i < j) : r ++ [i] < r ++ [j] :=
  List.append_left_lt (List.cons_lt_cons_iff.mpr (.inl hij))

/-- A word before another one that does not begin with it stays before it. -/
theorem append_lt_of_lt {r s : List ℕ} (hlt : r < s) (hbegin : ¬r <+: s) (t : List ℕ) :
    r ++ t < s := by
  induction r generalizing s with
  | nil => exact absurd (List.nil_prefix) hbegin
  | cons a r ih =>
    cases s with
    | nil => exact absurd hlt (List.not_lt_nil _)
    | cons b s =>
      rcases List.cons_lt_cons_iff.mp hlt with hab | ⟨rfl, hrs⟩
      · exact List.cons_lt_cons_iff.mpr (.inl hab)
      · refine List.cons_lt_cons_iff.mpr (.inr ⟨rfl, ih hrs fun h => hbegin ?_⟩)
        exact (List.prefix_cons_inj a).mpr h

/-! ### Turns -/

section

variable {next : V → List V} {start : V} {bound : ℕ} {done stack : List (V × List ℕ)}
  {p : V × List ℕ}

theorem Traversed.initial (next : V → List V) (start : V) (bound : ℕ) :
    Traversed next start bound [] [(start, [])] where
  source := List.mem_singleton.mpr rfl
  sorted := List.pairwise_singleton _ _
  nodup := List.nodup_nil
  taken := by simp
  closed := by simp

/-- The route of an entry of the stack does not begin with that of an earlier entry. -/
theorem Traversed.not_prefix (h : Traversed next start bound done (p :: stack)) :
    ∀ q ∈ stack, ¬p.2 <+: q.2 := by
  intro q hq hbegin
  have hsorted := List.pairwise_append.mp h.sorted
  have hlt : p.2 < q.2 := List.rel_of_pairwise_cons hsorted.2.1 hq
  rcases h.taken q (by simp [hq]) with rfl | ⟨q', hq', i, _, _, hroute⟩
  · exact absurd hlt (List.not_lt_nil _)
  · -- then it begins the route that was prolonged, which is an earlier one
    have hle : p.2 <+: q'.2 := by
      rw [hroute] at hbegin
      rcases List.prefix_concat_iff.mp hbegin with heq | hle
      · rw [← hroute] at heq
        exact absurd heq hlt.ne
      · exact hle
    have hearlier : q'.2 < p.2 := hsorted.2.2 q' hq' p List.mem_cons_self
    exact absurd hearlier (List.IsPrefix.le hle)

/-- **A turn** that finds a node visited. -/
theorem Traversed.skip (h : Traversed next start bound done (p :: stack))
    (hseen : p.1 ∈ done.map Prod.fst) : Traversed next start bound done stack := by
  have hsub : (done ++ stack).Sublist (done ++ p :: stack) :=
    (List.sublist_cons_self p stack).append_left done
  obtain ⟨⟨b, r⟩, hr, hb⟩ := List.mem_map.mp hseen
  have hb : b = p.1 := hb
  subst hb
  have hearlier : r < p.2 :=
    (List.pairwise_append.mp h.sorted).2.2 _ hr p List.mem_cons_self
  refine ⟨?_, h.sorted.sublist hsub, h.nodup, ?_, ?_⟩
  · rcases List.mem_append.mp h.source with hdone | hstack
    · exact List.mem_append_left _ hdone
    · rcases List.mem_cons.mp hstack with rfl | hstack
      · exact absurd hearlier (List.not_lt_nil _)
      · exact List.mem_append_right _ hstack
  · intro q hq
    exact h.taken q (hsub.subset hq)
  · intro q hq hlen i c hc
    rcases h.closed q hq hlen i c hc with hdone | hstack
    · exact .inl hdone
    · rcases List.mem_cons.mp hstack with heq | hstack
      · -- the entry that goes is later than the route of its node
        subst heq
        exact .inl ⟨r, hr, hearlier.le⟩
      · exact .inr hstack

/-- The routes of pushed entries stand between those of the visited nodes and the rest of the
stack. -/
theorem Traversed.sorted_visit (h : Traversed next start bound done (p :: stack))
    (pushed : List (V × List ℕ)) (hsorted : pushed.Pairwise fun p q => p.2 < q.2)
    (hroute : ∀ q ∈ pushed, ∃ i, q.2 = p.2 ++ [i]) :
    (done ++ [p] ++ (pushed ++ stack)).Pairwise fun p q => p.2 < q.2 := by
  obtain ⟨hdone, hstack, hcross⟩ := List.pairwise_append.mp h.sorted
  have hrest : ∀ q ∈ stack, p.2 < q.2 := fun q hq => List.rel_of_pairwise_cons hstack hq
  have hbefore : ∀ q ∈ done, q.2 < p.2 := fun q hq => hcross q hq p List.mem_cons_self
  have hafter : ∀ q ∈ pushed, p.2 < q.2 := by
    intro q hq
    obtain ⟨i, hi⟩ := hroute q hq
    rw [hi]
    exact lt_append_singleton _ _
  have hbetween : ∀ q ∈ pushed, ∀ q' ∈ stack, q.2 < q'.2 := by
    intro q hq q' hq'
    obtain ⟨i, hi⟩ := hroute q hq
    rw [hi]
    exact append_lt_of_lt (hrest q' hq') (h.not_prefix q' hq') [i]
  rw [List.append_assoc, List.singleton_append, List.pairwise_append]
  refine ⟨hdone, List.pairwise_cons.mpr ⟨?_, ?_⟩, ?_⟩
  · intro q hq
    rcases List.mem_append.mp hq with hq | hq
    · exact hafter q hq
    · exact hrest q hq
  · exact List.pairwise_append.mpr ⟨hsorted, (List.pairwise_cons.mp hstack).2, hbetween⟩
  · intro q hq q' hq'
    rcases List.mem_cons.mp hq' with rfl | hq'
    · exact hbefore q hq
    · rcases List.mem_append.mp hq' with hq' | hq'
      · exact (hbefore q hq).trans (hafter q' hq')
      · exact hcross q hq q' (List.mem_cons_of_mem _ hq')

/-- **A turn** that visits a node and puts entries for its successors on the stack. -/
theorem Traversed.visit (h : Traversed next start bound done (p :: stack))
    (hnew : p.1 ∉ done.map Prod.fst) (pushed : List (V × List ℕ))
    (hsorted : pushed.Pairwise fun p q => p.2 < q.2)
    (htaken : ∀ q ∈ pushed, ∃ i, p.2.length < bound ∧ (next p.1)[i]? = some q.1 ∧
      q.2 = p.2 ++ [i])
    (hclosed : p.2.length < bound → ∀ i b, (next p.1)[i]? = some b →
      b ∈ (done ++ [p]).map Prod.fst ∨ (b, p.2 ++ [i]) ∈ pushed) :
    Traversed next start bound (done ++ [p]) (pushed ++ stack) := by
  have hsorted := h.sorted_visit pushed hsorted fun q hq =>
    let ⟨i, _, _, hroute⟩ := htaken q hq
    ⟨i, hroute⟩
  have hbefore : ∀ q ∈ done, q.2 < p.2 := fun q hq =>
    (List.pairwise_append.mp h.sorted).2.2 q hq p List.mem_cons_self
  refine ⟨?_, hsorted, ?_, ?_, ?_⟩
  · rcases List.mem_append.mp h.source with hold | hold
    · simp [hold]
    · rcases List.mem_cons.mp hold with rfl | hold
      · simp
      · simp [hold]
  · rw [List.map_append, List.nodup_append]
    refine ⟨h.nodup, List.nodup_singleton _, ?_⟩
    intro a ha b hb hab
    have hb : b = p.1 := by simpa using hb
    exact hnew (hb ▸ hab ▸ ha)
  · have hold : ∀ q ∈ done ++ p :: stack, q = (start, []) ∨ ∃ q' ∈ done ++ [p], ∃ i,
        q'.2.length < bound ∧ (next q'.1)[i]? = some q.1 ∧ q.2 = q'.2 ++ [i] := by
      intro q hq
      rcases h.taken q hq with heq | ⟨q', hq', i, hrest⟩
      · exact .inl heq
      · exact .inr ⟨q', List.mem_append_left _ hq', i, hrest⟩
    intro q hq
    rcases List.mem_append.mp hq with hq | hq
    · refine hold q ?_
      rcases List.mem_append.mp hq with hq | hq
      · simp [hq]
      · simp [List.mem_singleton.mp hq]
    · rcases List.mem_append.mp hq with hq | hq
      · obtain ⟨i, hrest⟩ := htaken q hq
        exact .inr ⟨p, by simp, i, hrest⟩
      · exact hold q (by simp [hq])
  · intro q hq hlen i b hb
    rcases List.mem_append.mp hq with hq | hq
    · rcases h.closed q hq hlen i b hb with ⟨r, hr, hle⟩ | hmem
      · exact .inl ⟨r, List.mem_append_left _ hr, hle⟩
      · rcases List.mem_cons.mp hmem with heq | hmem
        · exact .inl ⟨q.2 ++ [i], by simp [heq], le_refl _⟩
        · exact .inr (List.mem_append_right _ hmem)
    · obtain rfl := List.mem_singleton.mp hq
      rcases hclosed hlen i b hb with hmem | hmem
      · -- a node that has been visited has an earlier route
        obtain ⟨⟨b', r⟩, hr, hb'⟩ := List.mem_map.mp hmem
        have hb' : b' = b := hb'
        subst hb'
        refine .inl ⟨r, hr, ?_⟩
        rcases List.mem_append.mp hr with hr | hr
        · exact ((hbefore _ hr).trans (lt_append_singleton _ _)).le
        · rw [← List.mem_singleton.mp hr]
          exact (lt_append_singleton _ _).le
      · exact .inr (List.mem_append_left _ hmem)

/-- **A turn** that visits a node at the bound. -/
theorem Traversed.stop (h : Traversed next start bound done (p :: stack))
    (hnew : p.1 ∉ done.map Prod.fst) (hlen : bound ≤ p.2.length) :
    Traversed next start bound (done ++ [p]) stack :=
  h.visit hnew [] List.Pairwise.nil (by simp) fun hlt => absurd hlt (not_lt.mpr hlen)

/-- **A turn** that visits a node and goes on to its successors that have not been visited. -/
theorem Traversed.expand (h : Traversed next start bound done (p :: stack))
    (hnew : p.1 ∉ done.map Prod.fst) (hlen : p.2.length < bound) {fresh : V → Bool}
    (hfresh : ∀ b, fresh b = true ↔ b ∉ (done ++ [p]).map Prod.fst) :
    Traversed next start bound (done ++ [p])
      ((((next p.1).zipIdx.filter fun c => fresh c.1).map fun c => (c.1, p.2 ++ [c.2])) ++ stack) := by
  refine h.visit hnew _ ?_ ?_ fun _ i b hb => ?_
  · have hplaces : (next p.1).zipIdx.Pairwise fun c d => c.2 < d.2 := by
      have hrange : ((next p.1).zipIdx.map Prod.snd).Pairwise (· < ·) := by
        rw [List.zipIdx_map_snd]
        exact List.pairwise_lt_range' _
      exact List.pairwise_map.mp hrange
    rw [List.pairwise_map]
    exact (hplaces.filter _).imp fun hlt => append_singleton_lt p.2 hlt
  · intro q hq
    obtain ⟨⟨b, i⟩, hc, rfl⟩ := List.mem_map.mp hq
    exact ⟨i, hlen, List.mk_mem_zipIdx_iff_getElem?.mp (List.mem_of_mem_filter hc), rfl⟩
  · by_cases hmem : b ∈ (done ++ [p]).map Prod.fst
    · exact .inl hmem
    · refine .inr (List.mem_map.mpr ⟨(b, i), List.mem_filter.mpr ⟨?_, (hfresh b).mpr hmem⟩, rfl⟩)
      exact List.mk_mem_zipIdx_iff_getElem?.mpr hb

/-! ### The end of a search -/

variable {route : V → Option (List ℕ)}

/-- A node is visited along one route. -/
theorem Traversed.route_unique (h : Traversed next start bound done []) {b : V} {r r' : List ℕ}
    (hr : (b, r) ∈ done) (hr' : (b, r') ∈ done) : r = r' :=
  congrArg Prod.snd (List.inj_on_of_nodup_map h.nodup hr hr' rfl)

/-- **At the end**, the routes of the visited nodes are first routes. -/
theorem Traversed.firsts (h : Traversed next start bound done []) :
    ∃ route, Firsts next start bound route ∧ ∀ b r, route b = some r ↔ (b, r) ∈ done := by
  classical
  let route : V → Option (List ℕ) := fun b => if hb : ∃ r, (b, r) ∈ done then some hb.choose else none
  have hroute : ∀ b r, route b = some r ↔ (b, r) ∈ done := by
    intro b r
    by_cases hb : ∃ r, (b, r) ∈ done
    · rw [show route b = some hb.choose from dif_pos hb, Option.some_inj]
      constructor
      · rintro rfl
        exact hb.choose_spec
      · exact fun hr => h.route_unique hb.choose_spec hr
    · rw [show route b = none from dif_neg hb]
      constructor
      · exact fun hr => absurd hr (by simp)
      · exact fun hr => absurd ⟨r, hr⟩ hb
  refine ⟨route, ⟨?_, ?_, ?_⟩, hroute⟩
  · rw [hroute]
    simpa using h.source
  · intro b r hr
    rw [hroute] at hr
    rcases h.taken (b, r) (by simpa using hr) with heq | ⟨q, hq, i, hlen, hnext, heq⟩
    · exact .inl (Prod.mk.inj heq)
    · exact .inr ⟨q.1, q.2, i, (hroute _ _).mpr hq, hlen, hnext, heq⟩
  · intro a r i b hr hlen hb
    rw [hroute] at hr
    rcases h.closed (a, r) hr hlen i b hb with ⟨r', hr', hle⟩ | hmem
    · exact ⟨r', (hroute _ _).mpr hr', hle⟩
    · exact absurd hmem List.not_mem_nil

/-- A first route is the route of a visited node, if all earlier routes of visited nodes are
first routes. -/
theorem Traversed.mem_of_lt (h : Traversed next start bound done [])
    (hroute : Firsts next start bound route) {limit : List ℕ}
    (hknown : ∀ q ∈ done, q.2 < limit → route q.1 = some q.2) {b : V} {r : List ℕ}
    (hr : route b = some r) (hlt : r < limit) : (b, r) ∈ done := by
  induction hn : r.length generalizing b r with
  | zero =>
    rcases hroute.taken b r hr with ⟨rfl, rfl⟩ | ⟨a, r', i, _, _, _, rfl⟩
    · simpa using h.source
    · simp at hn
  | succ n ih =>
    rcases hroute.taken b r hr with ⟨rfl, rfl⟩ | ⟨a, r', i, ha, hlen, hb, rfl⟩
    · simp at hn
    · have hmem : (a, r') ∈ done :=
        ih ha ((lt_append_singleton r' i).trans hlt) (by simpa using hn)
      rcases h.closed (a, r') hmem hlen i b hb with ⟨r'', hr'', hle⟩ | hmem
      · have hlabel := hknown (b, r'') hr'' (hle.trans_lt hlt)
        rw [hr, Option.some_inj] at hlabel
        exact hlabel ▸ hr''
      · exact absurd hmem List.not_mem_nil

/-- **First routes** can be chosen in one way only: those of the visited nodes. -/
theorem Traversed.route_iff (h : Traversed next start bound done [])
    (hroute : Firsts next start bound route) (b : V) (r : List ℕ) :
    route b = some r ↔ (b, r) ∈ done := by
  classical
  have hsorted : done.Pairwise fun p q => p.2 < q.2 := by simpa using h.sorted
  have hall : done.filter (fun q => route q.1 ≠ some q.2) = [] := by
    -- otherwise there is an earliest visited node with another label
    by_contra hne
    obtain ⟨q, rest, hbad⟩ := List.exists_cons_of_ne_nil hne
    have hq : q ∈ done ∧ route q.1 ≠ some q.2 := by
      have hmem : q ∈ done.filter fun q => route q.1 ≠ some q.2 := hbad ▸ List.mem_cons_self
      simpa using hmem
    have hfirst : ∀ q' ∈ done, q'.2 < q.2 → route q'.1 = some q'.2 := by
      intro q' hq' hlt
      by_contra hother
      have hmem : q' ∈ q :: rest := by
        rw [← hbad]
        exact List.mem_filter.mpr ⟨hq', by simpa using hother⟩
      rcases List.mem_cons.mp hmem with rfl | hmem
      · exact absurd hlt (lt_irrefl _)
      · have hpair := hsorted.filter fun q => decide (route q.1 ≠ some q.2)
        rw [hbad] at hpair
        exact absurd hlt (List.rel_of_pairwise_cons hpair hmem).asymm
    refine hq.2 ?_
    rcases h.taken q (by simp [hq.1]) with heq | ⟨q', hq', i, hlen, hnext, heq⟩
    · rw [heq]
      exact hroute.source
    · have hlabel := hfirst q' hq' (heq ▸ lt_append_singleton _ _)
      obtain ⟨r', hr', hle⟩ := hroute.least q'.1 q'.2 i q.1 hlabel hlen hnext
      rw [← heq] at hle
      rcases hle.lt_or_eq with hlt | rfl
      · exact absurd (h.route_unique (h.mem_of_lt hroute hfirst hr' hlt) hq.1) hlt.ne
      · exact hr'
  have hknown : ∀ q ∈ done, route q.1 = some q.2 := by
    intro q hq
    simpa using List.filter_eq_nil_iff.mp hall q hq
  constructor
  · intro hr
    exact h.mem_of_lt hroute (fun q hq _ => hknown q hq) hr (lt_append_singleton r 0)
  · exact fun hr => hknown (b, r) hr

end

end DepthFirst
