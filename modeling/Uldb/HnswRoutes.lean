/-
Whether every node of a nearest neighbour index can be found (`index/hnsw.rs`).

A new node is found only through the nodes that link back to it.  A list that has become too long
is pruned, and pruning looks at nothing but distances: it may drop the only link to a node.  Six
equal vectors are enough if `m` is 2.  Five fill all the lists of layer 0, each list is pruned
when the sixth is linked, and no list keeps it.

* `unlinked_node` — the sixth vector is missing from every search;
* `Layered.joined_insertNode_iff` — one insertion keeps the nodes of layer 0 joined exactly if no
  dropped link was the only way to its node;
* `Layered.safe_of_roomy` — while no list of layer 0 is full, nothing is dropped;
* `search_returns_all` — after a run in which no list was full before a call, a search for all
  nodes finds them all.
-/
import Uldb.HnswSearch

namespace Uldb

namespace HnswIndex

open Fallible

section

variable {D : Type} [Ord D] (g : Metric D)

/-- An insertion before it comes to layer 0: the index, linked on the layers above, and the node
to search from.  There is none if the new node is the first. -/
def atBottom (h : HnswIndex) (key : Bytes) (vector : Floats) (level : ℕ) :
    Option (HnswIndex × ℕ) := do
  let newIdx := h.nodes.length
  let h := h.pushNode key vector level
  let ep ← h.entryPoint
  let ep ← h.descend g (h.nodeDist g newIdx) (level + 1) h.entryLevel ep
  (List.range' 1 (min level h.entryLevel)).reverse.foldlM (connectLayer g newIdx) (h, ep)

/-- The nodes that the new one is linked with on layer 0. -/
def chosen (h : HnswIndex) (newIdx ep : ℕ) : Option (List ℕ) := do
  let cands ← h.searchLayerNode g newIdx ep h.efBuild 0
  h.selectNeighboursHeuristic g newIdx cands (h.mMax 0)

/-- The list of a node on layer 0 once the new node is linked with the selected ones. -/
def keptList (h : HnswIndex) (newIdx : ℕ) (selected : List ℕ) (i : ℕ) : Option (List ℕ) :=
  if i = newIdx then some selected
  else if i ∈ selected then linkedList g h newIdx 0 (h.mMax 0) i
  else h.listAt i 0

/-- A link on layer 0 that pruning keeps. -/
def KeptLink (h : HnswIndex) (newIdx : ℕ) (selected : List ℕ) (i j : ℕ) : Prop :=
  ∃ list, h.keptList g newIdx selected i = some list ∧ j ∈ list

/-- Whatever pruning drops from the list of a selected node, a way of kept links leads from that
node to what was dropped. -/
def CutsNothingOff (h : HnswIndex) (key : Bytes) (vector : Floats) (level : ℕ) : Prop :=
  ∀ t ep selected, h.atBottom g key vector level = some (t, ep) →
    t.chosen g h.nodes.length ep = some selected →
    ∀ nb ∈ selected, ∀ old, t.listAt nb 0 = some old → ∀ j ∈ withLink h.nodes.length old,
      Relation.ReflTransGen (t.KeptLink g h.nodes.length selected) nb j

/-- A call is refused, or it cuts nothing off. -/
def SafeCall (h : HnswIndex) (c : AddCall) : Prop :=
  ∀ v, c.vector.length = h.dim → g.normalize c.vector = some v →
    CutsNothingOff g { h with rng := c.rng } c.key v c.level

end

/-- No list of layer 0 is full. -/
def Roomy (h : HnswIndex) : Prop := ∀ i list, h.listAt i 0 = some list → list.length < h.m0

/-- Layer 0 leads from every node to every other. -/
def Joined (h : HnswIndex) : Prop :=
  ∀ i j, i < h.nodes.length → j < h.nodes.length → h.Leads 0 i j

variable {h h' t : HnswIndex} {layer i j newIdx : ℕ}

/-- If no list on a layer names a node, a search finds it from no other one. -/
theorem closedOn_ne (hlists : ∀ i list, h.listAt i layer = some list → newIdx ∉ list) :
    h.ClosedOn layer (· ≠ newIdx) := by
  intro i nbs _ hnbs nb hnb
  rintro rfl
  exact hlists i nbs (listAt_of_mem hnbs hnb) hnb

/-- The new node is in no list yet. -/
theorem Linked.not_mem_pushNode (hl : h.Linked) {key : Bytes} {vector : Floats} {level : ℕ}
    {list : List ℕ} (hlist : (h.pushNode key vector level).listAt i layer = some list) :
    h.nodes.length ∉ list := by
  rcases listAt_pushNode_eq_some hlist with hold | ⟨_, rfl⟩
  · intro hmem
    have hlt := hl.linksTo_lt ⟨list, hold, hmem⟩
    omega
  · exact List.not_mem_nil

theorem linksTo_pushNode {key : Bytes} {vector : Floats} {level : ℕ} (hij : h.LinksTo layer i j) :
    (h.pushNode key vector level).LinksTo layer i j := by
  obtain ⟨list, hlist, hj⟩ := hij
  obtain ⟨n, hn, hl⟩ := listAt_eq_some.mp hlist
  refine ⟨list, listAt_eq_some.mpr ⟨n, ?_, hl⟩, hj⟩
  rw [pushNode, List.getElem?_append_left (List.getElem?_eq_some_iff.mp hn).1, hn]

section

variable {D : Type} [Ord D] {g : Metric D}

/-! ### What is chosen -/

/-- A beam gets no smaller. -/
theorem length_le_visitNeighbour {dist : ℕ → Option D} {ef nb : ℕ} {s s' : Beam D}
    (hvisit : visitNeighbour g dist ef s nb = some s') : s.results.length ≤ s'.results.length := by
  rw [visitNeighbour] at hvisit
  split at hvisit
  · rw [Option.some_inj.mp hvisit]
  · obtain ⟨nbD, _, hvisit⟩ := Option.bind_eq_some_iff.mp hvisit
    have hpush : (BinaryHeap.push leFar s.results (nbD, nb)).length = s.results.length + 1 :=
      (BinaryHeap.push_perm s.results (nbD, nb)).length_eq
    simp only at hvisit
    split at hvisit
    · rw [← Option.some_inj.mp hvisit]
      simp only
      split
      · cases hpop : BinaryHeap.pop leFar (BinaryHeap.push leFar s.results (nbD, nb)) with
        | none =>
          rw [Option.map_none, Option.getD_none]
          omega
        | some p =>
          have hlen := (BinaryHeap.pop_perm hpop).length_eq
          rw [List.length_cons] at hlen
          rw [Option.map_some, Option.getD_some]
          omega
      · omega
    · rw [← Option.some_inj.mp hvisit]

theorem searchLayer_ne_nil {dist : ℕ → Option D} {ep ef : ℕ} {out : List (D × ℕ)}
    (hrun : h.searchLayer g dist ep ef layer = some out) : out ≠ [] := by
  obtain ⟨epD, _, hrun⟩ := Option.bind_eq_some_iff.mp hrun
  obtain ⟨results, hresults, hrun⟩ := Option.bind_eq_some_iff.mp hrun
  obtain rfl := Option.some_inj.mp hrun
  obtain ⟨s', hs', rfl, _⟩ := beamLoop_induction (I := fun s : Beam D => 0 < s.results.length)
    (by simp) (fun s c cands nbs s' hs _ _ hfold => foldlM_induction
      (P := fun s : Beam D => 0 < s.results.length) hfold hs fun nb _ t t' ht hvisit =>
        ht.trans_le (length_le_visitNeighbour hvisit)) hresults
  intro hnil
  rw [← List.length_eq_zero_iff, (sortByDist_perm s'.results).length_eq] at hnil
  omega

/-- The nearest candidate is always selected. -/
theorem select_ne_nil {query m : ℕ} {cands : List (D × ℕ)} {out : List ℕ} (hm : 0 < m)
    (hne : cands ≠ []) (hquery : ∀ c ∈ cands, c.2 ≠ query)
    (hrun : h.selectNeighboursHeuristic g query cands m = some out) : out ≠ [] := by
  cases cands with
  | nil => exact absurd rfl hne
  | cons c cands =>
    obtain ⟨d, idx⟩ := c
    have hidx : idx ≠ query := hquery (d, idx) List.mem_cons_self
    rw [selectNeighboursHeuristic, selectLoop, if_neg hidx, List.length_nil,
      if_neg (by omega)] at hrun
    obtain ⟨n, _, hrun⟩ := Option.bind_eq_some_iff.mp hrun
    simp only [List.all_nil, if_true, List.nil_append] at hrun
    obtain ⟨picked, rfl, _⟩ := selectLoop_spec hrun
    simp

/-! ### Layer 0 after an insertion -/

theorem insertNode_bottom {key : Bytes} {vector : Floats} {level ep : ℕ}
    (hep : h.entryPoint = some ep) (hrun : h.insertNode g key vector level = some h') :
    ∃ t ep' u ep'', h.atBottom g key vector level = some (t, ep') ∧
      connectLayer g h.nodes.length (t, ep') 0 = some (u, ep'') ∧ h'.dim = u.dim ∧
      h'.nodes = u.nodes := by
  obtain ⟨ep₀, u, ep'', hdescend, hlinks, rfl⟩ := insertNode_eq_some hep hrun
  rw [List.range_eq_range', List.range'_succ, List.reverse_cons] at hlinks
  obtain ⟨⟨t, ep'⟩, habove, hlast⟩ := foldlM_append_eq_some.mp hlinks
  obtain ⟨s, hbottom, hs⟩ := foldlM_cons_eq_some.mp hlast
  obtain rfl : s = (u, ep'') := by simpa using hs
  have hpoint : (h.pushNode key vector level).entryPoint = some ep := hep
  have hlevel : (h.pushNode key vector level).entryLevel = h.entryLevel := rfl
  refine ⟨t, ep', u, ep'', ?_, hbottom, ?_, ?_⟩
  · rw [atBottom]
    simp only [hpoint, hlevel, hdescend, Option.bind_eq_bind, Option.bind_some]
    exact habove
  all_goals split <;> rfl

/-- Above layer 0, nothing changes on layer 0, and the walk does not meet the new node. -/
theorem Layered.atBottom (hh : h.Layered) {key : Bytes} {vector : Floats} {level ep' : ℕ}
    (hrun : h.atBottom g key vector level = some (t, ep')) :
    t.Tidy ∧ (h.pushNode key vector level).Rewired t ∧
      (∀ i, t.listAt i 0 = (h.pushNode key vector level).listAt i 0) ∧
      ep' ≠ h.nodes.length ∧ t.HasLayer 0 ep' := by
  rw [HnswIndex.atBottom] at hrun
  have hpush := hh.tidy.pushNode key vector level
  have hnames : ∀ layer i list, (h.pushNode key vector level).listAt i layer = some list →
      h.nodes.length ∉ list := fun layer i list hlist => hh.tidy.linked.not_mem_pushNode hlist
  obtain ⟨ep, hep, hrun⟩ := Option.bind_eq_some_iff.mp hrun
  obtain ⟨ep₀, hdescend, hrun⟩ := Option.bind_eq_some_iff.mp hrun
  have hlevel : (h.pushNode key vector level).entryLevel = h.entryLevel := rfl
  have hep_lt : ep < h.nodes.length := (hh.hasLayer hep).lt
  have hne : ep₀ ≠ h.nodes.length := descend_spec (P := (· ≠ h.nodes.length))
    (fun layer _ => closedOn_ne (hnames layer)) hep_lt.ne hdescend
  have hstart := hpush.descend (hasLayer_pushNode (hh.hasLayer hep)) hdescend
  obtain ⟨htidy, hr, hsame, hne', hlast⟩ := foldlM_range'_reverse
    (Q := fun l s => s.1.Tidy ∧ (h.pushNode key vector level).Rewired s.1 ∧
      (∀ l' i, l' < l → s.1.listAt i l' = (h.pushNode key vector level).listAt i l') ∧
      s.2 ≠ h.nodes.length ∧ (h.pushNode key vector level).HasLayer (l - 1) s.2) hrun
    ⟨hpush, Rewired.refl _, fun _ _ _ => rfl, hne, hstart.mono (by omega)⟩
    fun layer _ hlt s s' hs hstep => by
      obtain ⟨t, ep⟩ := s
      obtain ⟨t', ep'⟩ := s'
      obtain ⟨ht, hr, hsame, hne, hep⟩ := hs
      have hlayer : t.HasLayer layer ep := hr.hasLayer.mpr (hep.mono (by omega))
      have hnew : t.HasLayer layer h.nodes.length :=
        hr.hasLayer.mpr (hasLayer_pushNode_self (by omega))
      obtain ⟨ht', hr', hsame', hep'⟩ := ht.connectLayer hlayer hnew hstep
      obtain ⟨cands, selected, hcands, _, _, rfl⟩ := connectLayer_eq_some hstep
      -- the new node is on no list of this layer while the search goes on
      have hclosed : t.ClosedOn layer (· ≠ h.nodes.length) := closedOn_ne fun i list hlist =>
        hnames layer i list (hsame layer i (Nat.lt_succ_self _) ▸ hlist)
      refine ⟨ht', hr.trans hr', fun l' i hl' => ?_, ?_, ?_⟩
      · rw [hsame' i l' (by omega), hsame l' i (by omega)]
      · exact nearest_spec (P := (· ≠ h.nodes.length)) hne (searchLayer_spec hclosed hne hcands).1
      · exact (hr.hasLayer.mp hep').mono (Nat.sub_le _ _)
  exact ⟨htidy, hr, fun i => hsame 0 i (by omega), hne', hr.hasLayer.mpr hlast⟩

/-- **Layer 0 after an insertion**: the new node has the list of the chosen nodes, these have
their lists with a link back, and all other lists are as before. -/
theorem Layered.insertNode_lists (hh : h.Layered) (hm : 0 < h.m0) {key : Bytes} {vector : Floats}
    {level ep : ℕ} (hep : h.entryPoint = some ep)
    (hrun : h.insertNode g key vector level = some h') :
    ∃ t ep' selected, h.atBottom g key vector level = some (t, ep') ∧
      t.chosen g h.nodes.length ep' = some selected ∧ selected ≠ [] ∧
      t.TidyList h.nodes.length 0 selected ∧
      ∀ i, h'.listAt i 0 = t.keptList g h.nodes.length selected i := by
  obtain ⟨t, ep', u, ep'', hbottom, hconnect, _, hnodes⟩ := insertNode_bottom hep hrun
  obtain ⟨htidy, hr, hsame, hne, hlayer⟩ := hh.atBottom hbottom
  obtain ⟨cands, selected, hcands, hselected, hlinks, _⟩ := connectLayer_eq_some hconnect
  have hlist := htidy.selected hlayer hcands hselected
  have hclosed : t.ClosedOn 0 (· ≠ h.nodes.length) := closedOn_ne fun i list hlist =>
    hh.tidy.linked.not_mem_pushNode (hsame i ▸ hlist)
  have hmax : 0 < t.mMax 0 := by
    rw [hr.mMax 0]
    exact hm
  have hnil : selected ≠ [] := select_ne_nil hmax (searchLayer_ne_nil hcands)
    (searchLayer_spec hclosed hne hcands).1 hselected
  refine ⟨t, ep', selected, hbottom, ?_, hnil, hlist, fun i => ?_⟩
  · rw [chosen, hcands]
    exact hselected
  · -- the lists of the chosen nodes do not depend on the list of the new one
    have hset := rewired_setNeighbours t h.nodes.length 0 selected
    have hnew : t.HasLayer 0 h.nodes.length :=
      hr.hasLayer.mpr (hasLayer_pushNode_self (Nat.zero_le _))
    rw [← hset.mMax 0] at hlinks
    obtain ⟨_, _, hothers, hchosen⟩ := (htidy.setNeighbours hlist).linkBacks
      (hset.hasLayer.mpr hnew) (hlist.rewired hset) hlinks
    have hsame' : h'.listAt i 0 = u.listAt i 0 := by rw [listAt, listAt, hnodes]
    rw [hsame', keptList]
    by_cases hi : i = h.nodes.length
    · subst hi
      rw [if_pos rfl, hothers _ 0 fun hmem => hlist.self hmem.1, listAt_setNeighbours_self hnew]
    · rw [if_neg hi]
      have hold : (t.setNeighbours h.nodes.length 0 selected).listAt i 0 = t.listAt i 0 :=
        listAt_setNeighbours_of_ne (.inl hi) selected
      by_cases hmem : i ∈ selected
      · rw [if_pos hmem, hchosen i hmem, hset.mMax 0]
        exact hset.toRelinked.linkedList hold
      · rw [if_neg hmem, hothers i 0 fun hmem' => hmem hmem'.1]
        exact hold

/-! ### Joined nodes -/

/-- An insertion adds one node with the key of the call. -/
theorem Layered.insertNode_keys (hh : h.Layered) {key : Bytes} {vector : Floats} {level : ℕ}
    (hrun : h.insertNode g key vector level = some h') :
    h'.dim = h.dim ∧ h'.nodes.map HnswNode.key = h.nodes.map HnswNode.key ++ [key] := by
  have hpush : (h.pushNode key vector level).nodes.map HnswNode.key
      = h.nodes.map HnswNode.key ++ [key] := by
    rw [pushNode, List.map_append]
    rfl
  cases hpoint : h.entryPoint with
  | none =>
    have hsame : (h.pushNode key vector level).entryPoint = none := hpoint
    rw [HnswIndex.insertNode] at hrun
    simp only [hsame] at hrun
    obtain rfl := Option.some_inj.mp hrun
    exact ⟨rfl, hpush⟩
  | some ep =>
    obtain ⟨t, ep', u, ep'', hbottom, hconnect, hdim, hnodes⟩ := insertNode_bottom hpoint hrun
    obtain ⟨htidy, hr, _, _, hlayer⟩ := hh.atBottom hbottom
    have hnew : t.HasLayer 0 h.nodes.length :=
      hr.hasLayer.mpr (hasLayer_pushNode_self (Nat.zero_le _))
    have hr' := hr.trans (htidy.connectLayer hlayer hnew hconnect).2.1
    refine ⟨hdim.trans hr'.dim, ?_⟩
    have hkeys := congrArg (List.map Prod.fst) hr'.nodes
    simp only [List.map_map] at hkeys
    rw [hnodes, ← hpush]
    exact hkeys

/-- A new node that leads to one of the joined nodes, and from it, joins them. -/
theorem joined_of_hub {n nb : ℕ} (hlen : h.nodes.length = n + 1)
    (hold : ∀ i j, i < n → j < n → h.Leads 0 i j) (hnb : nb < n) (hto : h.Leads 0 n nb)
    (hfrom : h.Leads 0 nb n) : h.Joined := by
  intro i j hi hj
  have hin : i < n ∨ i = n := by omega
  have hjn : j < n ∨ j = n := by omega
  have hi' : h.Leads 0 i nb := by
    rcases hin with hi | rfl
    · exact hold i nb hi hnb
    · exact hto
  have hj' : h.Leads 0 nb j := by
    rcases hjn with hj | rfl
    · exact hold nb j hnb hj
    · exact hfrom
  exact hi'.trans hj'

/-- **One insertion** into joined nodes leaves them joined, with the new one, exactly if it cuts
nothing off. -/
theorem Layered.joined_insertNode_iff (hh : h.Layered) (hm : 0 < h.m0) (hj : h.Joined)
    {key : Bytes} {vector : Floats} {level ep : ℕ} (hep : h.entryPoint = some ep)
    (hrun : h.insertNode g key vector level = some h') :
    h'.Joined ↔ h.CutsNothingOff g key vector level := by
  obtain ⟨t, ep', selected, hbottom, hchosen, hnil, hlist, hlists⟩ :=
    hh.insertNode_lists hm hep hrun
  obtain ⟨htidy, hr, hsame, _, _⟩ := hh.atBottom hbottom
  have hlen : h'.nodes.length = h.nodes.length + 1 := by
    have hkeys := congrArg List.length (hh.insertNode_keys hrun).2
    simpa using hkeys
  have hlt : t.nodes.length = h.nodes.length + 1 := by
    rw [hr.length, pushNode, List.length_append, List.length_singleton]
  have hlinks : h'.LinksTo 0 = t.KeptLink g h.nodes.length selected := by
    funext i j
    rw [LinksTo, KeptLink, hlists i]
  constructor
  · intro hjoined t' ep₀ selected' hbottom' hchosen' nb hnb old hold j hj
    obtain ⟨rfl, rfl⟩ := Prod.mk.inj (Option.some_inj.mp (hbottom.symm.trans hbottom'))
    obtain rfl := Option.some_inj.mp (hchosen.symm.trans hchosen')
    have hnb_lt := (hlist.named nb hnb).lt
    have hj_lt : j < h.nodes.length + 1 := by
      rcases mem_withLink.mp hj with hj | rfl
      · exact hlt ▸ htidy.linked.linksTo_lt ⟨old, hold, hj⟩
      · exact Nat.lt_succ_self _
    rw [← hlinks]
    exact hjoined nb j (by omega) (by omega)
  · intro hcuts
    have hways := hcuts t ep' selected hbottom hchosen
    -- what a node was linked with before, it still leads to
    have hold : ∀ i j, h.LinksTo 0 i j → h'.Leads 0 i j := by
      intro i j hij
      have hi : i ≠ h.nodes.length := by
        obtain ⟨list, hlist, _⟩ := hij
        obtain ⟨n, hn, _⟩ := listAt_eq_some.mp hlist
        have := (List.getElem?_eq_some_iff.mp hn).1
        omega
      obtain ⟨list, hlist, hmem⟩ := @linksTo_pushNode h 0 i j key vector level hij
      rw [← hsame i] at hlist
      by_cases hsel : i ∈ selected
      · rw [Leads, hlinks]
        exact hways i hsel list hlist j (mem_withLink.mpr (.inl hmem))
      · refine Relation.ReflTransGen.single ⟨list, ?_, hmem⟩
        rw [hlists i, keptList, if_neg hi, if_neg hsel, hlist]
    have hleads : ∀ i j, i < h.nodes.length → j < h.nodes.length → h'.Leads 0 i j :=
      fun i j hi hj' => Relation.reflTransGen_closed hold _ _ (hj i j hi hj')
    -- the new node and a chosen one lead to each other
    obtain ⟨nb, hnb⟩ := List.exists_mem_of_ne_nil selected hnil
    have hnb_lt : nb < h.nodes.length := by
      have h₁ := (hlist.named nb hnb).lt
      have h₂ : nb ≠ h.nodes.length := by
        rintro rfl
        exact hlist.self hnb
      omega
    have hto : h'.Leads 0 h.nodes.length nb := by
      refine Relation.ReflTransGen.single ⟨selected, ?_, hnb⟩
      rw [hlists, keptList, if_pos rfl]
    have hfrom : h'.Leads 0 nb h.nodes.length := by
      obtain ⟨old, hold⟩ := hlist.named nb hnb
      rw [Leads, hlinks]
      exact hways nb hnb old hold _ (mem_withLink.mpr (.inr rfl))
    exact joined_of_hub hlen hleads hnb_lt hto hfrom

/-- The first node is joined with itself. -/
theorem joined_of_length_le (hlen : h.nodes.length ≤ 1) : h.Joined := by
  intro i j hi hj
  obtain rfl : i = j := by omega
  exact Relation.ReflTransGen.refl

/-- While no list is full, none is pruned. -/
theorem Layered.cutsNothingOff_of_roomy (hh : h.Layered) (hroom : h.Roomy) (key : Bytes)
    (vector : Floats) (level : ℕ) : h.CutsNothingOff g key vector level := by
  intro t ep selected hbottom hchosen nb hnb old hold j hj
  obtain ⟨htidy, hr, hsame, hne, hlayer⟩ := hh.atBottom hbottom
  obtain ⟨cands, hcands, hselected⟩ := Option.bind_eq_some_iff.mp hchosen
  have hlist := htidy.selected hlayer hcands hselected
  have hnb_ne : nb ≠ h.nodes.length := by
    rintro rfl
    exact hlist.self hnb
  have hshort : old.length < h.m0 := by
    rw [hsame nb] at hold
    rcases listAt_pushNode_eq_some hold with hold | ⟨rfl, _⟩
    · exact hroom nb old hold
    · exact absurd rfl hnb_ne
  have hfits : (withLink h.nodes.length old).length ≤ t.mMax 0 := by
    have hmax : t.mMax 0 = h.m0 := hr.mMax 0
    have hlink : (withLink h.nodes.length old).length ≤ old.length + 1 := by
      rw [withLink]
      split
      · omega
      · rw [List.length_append, List.length_singleton]
    omega
  -- with room for one more link, the new list of `nb` still has `j`
  refine Relation.ReflTransGen.single ⟨withLink h.nodes.length old, ?_, hj⟩
  rw [keptList, if_neg hnb_ne, if_pos hnb, linkedList, hold, Option.bind_some,
    if_neg (not_lt.mpr hfits)]

/-- The generator is no part of the layers. -/
theorem Layered.reseed (hh : h.Layered) (rng : Rng) : Layered { h with rng := rng } :=
  ⟨hh.tidy.congr rfl rfl rfl, hh.entry, hh.counts, hh.present⟩

theorem Layered.safe_of_roomy (hh : h.Layered) (hroom : h.Roomy) (c : AddCall) :
    h.SafeCall g c := by
  intro v _ _
  exact (hh.reseed c.rng).cutsNothingOff_of_roomy hroom c.key v c.level

/-- A list names each of the other nodes once at most, and so it is not full if there are few. -/
theorem Layered.roomy_of_length_le (hh : h.Layered) (hlen : h.nodes.length ≤ h.m0) : h.Roomy := by
  intro i list hlist
  have htidy := hh.tidy i 0 list hlist
  have hnodup : (i :: list).Nodup := List.nodup_cons.mpr ⟨htidy.self, htidy.nodup⟩
  have hsub : i :: list ⊆ List.range h.nodes.length := by
    intro j hj
    rw [List.mem_range]
    rcases List.mem_cons.mp hj with rfl | hj
    · obtain ⟨n, hn, _⟩ := listAt_eq_some.mp hlist
      exact (List.getElem?_eq_some_iff.mp hn).1
    · exact (htidy.named j hj).lt
  have hcount := (List.subperm_of_subset hnodup hsub).length_le
  rw [List.length_cons, List.length_range] at hcount
  omega

/-! ### Runs -/

/-- A call that is not refused, and is safe. -/
theorem Layered.safeCall (hh : h.Layered) (hm : 0 < h.m0) (hj : h.Joined) {c : AddCall}
    (hdim : c.vector.length = h.dim) (hnorm : g.normalize c.vector ≠ none)
    (hsafe : h.SafeCall g c) (hrun : h.addCall g c = some h') :
    h'.Joined ∧ h'.dim = h.dim ∧
      h'.nodes.map HnswNode.key = h.nodes.map HnswNode.key ++ [c.key] := by
  obtain ⟨v, hv⟩ := Option.ne_none_iff_exists'.mp hnorm
  have hrng := hh.reseed c.rng
  have hjrng : Joined { h with rng := c.rng } := hj
  rw [HnswIndex.addCall, addDrawn, if_neg (not_not.mpr hdim), hv] at hrun
  obtain ⟨result, hresult, rfl⟩ := Option.map_eq_some_iff.mp hrun
  obtain ⟨t, hinsert, rfl⟩ := Option.map_eq_some_iff.mp hresult
  obtain ⟨hdim', hkeys⟩ := hrng.insertNode_keys hinsert
  refine ⟨?_, hdim', hkeys⟩
  cases hpoint : h.entryPoint with
  | none =>
    refine joined_of_length_le ?_
    have hnil : h.nodes = [] := by
      by_contra hne
      exact hh.present hne hpoint
    have hlen := congrArg List.length hkeys
    simp only [hnil, List.map_nil, List.nil_append, List.length_map, List.length_singleton] at hlen
    exact hlen.le
  | some ep => exact (hrng.joined_insertNode_iff hm hjrng hpoint hinsert).mpr (hsafe v hdim hv)

/-- A run of successful calls, before each of which no list was full. -/
theorem joined_of_roomy {dim m efBuild efSearch : ℕ} {h₀ : HnswIndex}
    (hnew : new dim m efBuild efSearch = some h₀) {calls : List AddCall}
    (hok : ∀ c ∈ calls, c.vector.length = dim ∧ g.normalize c.vector ≠ none)
    (hroom : ∀ before c rest t, calls = before ++ c :: rest →
      before.foldlM (addCall g) h₀ = some t → t.Roomy)
    (hrun : calls.foldlM (addCall g) h₀ = some h) :
    h.Layered ∧ h.Joined ∧ h.dim = dim ∧ h.nodes.map HnswNode.key = calls.map AddCall.key := by
  obtain ⟨hlayered, _, hm0, hnil⟩ := layered_new hnew
  have hdim : h₀.dim = dim ∧ 0 < h₀.m0 := by
    rw [new] at hnew
    split at hnew
    · rename_i hpos
      obtain rfl := Option.some_inj.mp hnew
      refine ⟨rfl, ?_⟩
      show 0 < m * 2
      omega
    · exact absurd hnew (by simp)
  -- by induction on the calls before; that they begin `calls` says that there was room
  obtain ⟨hh, hj, _, hdim', hkeys⟩ := foldlM_history
    (P := fun before t => before <+: calls → t.Layered ∧ t.Joined ∧ t.m0 = h₀.m0 ∧ t.dim = dim ∧
      t.nodes.map HnswNode.key = before.map AddCall.key)
    (fun _ => ⟨hlayered, joined_of_length_le (by simp [hnil]), rfl, hdim.1, by simp [hnil]⟩)
    (fun before c t t' hbefore ih hcall hprefix => by
      obtain ⟨rest, hrest⟩ := hprefix
      rw [List.append_assoc, List.singleton_append] at hrest
      obtain ⟨ht, hj, hm0, htdim, hkeys⟩ := ih ⟨c :: rest, hrest⟩
      obtain ⟨hcdim, hcnorm⟩ := hok c (by simp [← hrest])
      obtain ⟨u, hu, hlayered', _, hm0', _⟩ := ht.addCall g c
      obtain rfl : u = t' := Option.some_inj.mp (hu.symm.trans hcall)
      obtain ⟨hj', hdim', hkeys'⟩ := ht.safeCall (by omega) hj (hcdim.trans htdim.symm) hcnorm
        (ht.safe_of_roomy (hroom before c rest t hrest.symm hbefore) c) hcall
      exact ⟨hlayered', hj', hm0'.trans hm0, hdim'.trans htdim, by rw [hkeys', hkeys]; simp⟩)
    hrun List.prefix_rfl
  exact ⟨hh, hj, hdim', hkeys⟩

/-- A call adds one node at most. -/
theorem Layered.length_addCall_le (hh : h.Layered) {c : AddCall}
    (hrun : h.addCall g c = some h') : h'.nodes.length ≤ h.nodes.length + 1 := by
  rw [HnswIndex.addCall, addDrawn] at hrun
  obtain ⟨result, hresult, rfl⟩ := Option.map_eq_some_iff.mp hrun
  split at hresult
  · obtain rfl := Option.some_inj.mp hresult
    exact Nat.le_succ _
  · split at hresult
    · obtain rfl := Option.some_inj.mp hresult
      exact Nat.le_succ _
    · obtain ⟨t, hinsert, rfl⟩ := Option.map_eq_some_iff.mp hresult
      have hkeys := congrArg List.length ((hh.reseed c.rng).insertNode_keys hinsert).2
      rw [List.length_map, List.length_append, List.length_map, List.length_singleton] at hkeys
      exact hkeys.le

/-- No list is full in a run of at most `2 * m + 1` calls. -/
theorem roomy_of_few {dim m efBuild efSearch : ℕ} {h₀ : HnswIndex}
    (hnew : new dim m efBuild efSearch = some h₀) {calls : List AddCall}
    (hfew : calls.length ≤ 2 * m + 1) {before : List AddCall} {c : AddCall} {rest : List AddCall}
    (hsplit : calls = before ++ c :: rest) (hrun : before.foldlM (addCall g) h₀ = some t) :
    t.Roomy := by
  obtain ⟨hlayered, _, hm0, hnil⟩ := layered_new hnew
  obtain ⟨ht, hm0', hlen⟩ := foldlM_history
    (P := fun before t => t.Layered ∧ t.m0 = h₀.m0 ∧ t.nodes.length ≤ before.length)
    ⟨hlayered, rfl, by simp [hnil]⟩
    (fun before c t t' _ ih hcall => by
      obtain ⟨u, hu, hlayered', _, hm0', _⟩ := ih.1.addCall g c
      obtain rfl : u = t' := Option.some_inj.mp (hu.symm.trans hcall)
      refine ⟨hlayered', hm0'.trans ih.2.1, ?_⟩
      rw [List.length_append, List.length_singleton]
      exact (ih.1.length_addCall_le hcall).trans (Nat.succ_le_succ ih.2.2)) hrun
  -- the last call is still to come, and `m0` is `2 * m`
  refine ht.roomy_of_length_le ?_
  rw [hsplit, List.length_append, List.length_cons] at hfew
  omega

end

section

variable {D : Type} [LinearOrder D] {g : Metric D}

/-- A search for all of some joined nodes finds them. -/
theorem Layered.search_joined (hh : h.Layered) (hj : h.Joined) {query qv : Floats}
    (hdim : query.length = h.dim) (hnorm : g.normalize query = some qv) {k : ℕ}
    (hk : h.nodes.length ≤ k) :
    ∃ results, h.search g query k = some results ∧
      (results.map SearchResult.key).Perm (h.nodes.map HnswNode.key) := by
  by_cases hne : h.nodes = []
  · refine ⟨[], ?_, by simp [hne]⟩
    rw [search, searchBeam, if_pos (.inl hne)]
  · obtain ⟨ep, start, results, found, hep, hstart, hsearch, hanswers, hnearest⟩ :=
      hh.search_spec hne hdim hnorm k
    have hnear := hnearest (hk.trans (Nat.le_max_right _ _))
    have hstart_lt : start < h.nodes.length :=
      descend_spec (P := (· < h.nodes.length)) (fun layer _ => hh.tidy.linked.closedOn layer)
        (hh.hasLayer hep).lt hstart
    -- what is found are all nodes, once each
    have hsub : found ⊆ List.range h.nodes.length := fun i hi =>
      List.mem_range.mpr (hh.tidy.linked.leads_lt hstart_lt (hnear.reached i hi))
    have hlen : h.nodes.length ≤ found.length := by
      rcases hnear.enough with hlen | hall
      · omega
      · have hrange : List.range h.nodes.length ⊆ found := fun i hi =>
          hall i (hj start i hstart_lt (List.mem_range.mp hi))
        simpa using (List.subperm_of_subset List.nodup_range hrange).length_le
    have hperm : found.Perm (List.range h.nodes.length) :=
      (List.subperm_of_subset hanswers.nodup hsub).perm_of_length_le (by simpa using hlen)
    refine ⟨results, hsearch, ?_⟩
    have hkeys : results.map (fun r => some r.key)
        = found.map fun i => (h.nodes[i]?).map HnswNode.key := by
      refine map_eq_of_forall₂ (hanswers.nodes.imp fun i r hr => ?_)
      obtain ⟨n, hn, hkey, _⟩ := hr
      rw [hn, Option.map_some, hkey]
    have hall : (List.range h.nodes.length).map (fun i => (h.nodes[i]?).map HnswNode.key)
        = h.nodes.map fun n => some n.key := by
      refine List.ext_getElem (by simp) fun i hi hi' => ?_
      have hlt : i < h.nodes.length := by simpa using hi
      simp [List.getElem?_eq_getElem hlt]
    have hsome := hperm.map fun i => (h.nodes[i]?).map HnswNode.key
    rw [← hkeys, hall] at hsome
    rw [← List.map_perm_map_iff (Option.some_injective _), List.map_map, List.map_map]
    exact hsome

/-- **After successful calls, before each of which no list of layer 0 was full**, a search for as
many nodes as there are, or more, returns every one that was added. -/
theorem search_returns_all (g : Metric D) {dim m efBuild efSearch : ℕ} {h₀ : HnswIndex}
    (hnew : new dim m efBuild efSearch = some h₀) {calls : List AddCall}
    (hok : ∀ c ∈ calls, c.vector.length = dim ∧ g.normalize c.vector ≠ none)
    (hroom : ∀ before c rest t, calls = before ++ c :: rest →
      before.foldlM (addCall g) h₀ = some t → t.Roomy)
    (hrun : calls.foldlM (addCall g) h₀ = some h) {query qv : Floats}
    (hdim : query.length = dim) (hnorm : g.normalize query = some qv) {k : ℕ}
    (hk : h.nodes.length ≤ k) :
    ∃ results, h.search g query k = some results ∧
      (results.map SearchResult.key).Perm (calls.map AddCall.key) := by
  obtain ⟨hh, hj, hdim', hkeys⟩ := joined_of_roomy hnew hok hroom hrun
  rw [← hkeys]
  exact hh.search_joined hj (hdim.trans hdim'.symm) hnorm hk

end

/-! ### Equal vectors -/

/-- Where all vectors have one direction. -/
def flatMetric : Metric ℕ where
  dist _ _ := 0
  maxDist := 1
  normalize v := some v
  deeper _ _ := false
  normalize_length v v' hv := by rw [Option.some_inj.mp hv]

/-- One vector under different keys. -/
def equalCalls (n : ℕ) : List AddCall :=
  (List.range n).map fun i => ⟨[UInt8.ofNat i], [1], 0, .new 42⟩

/-- The first five of them are found. -/
theorem search_returns_all_five :
    ∃ h₀ h results, new 1 2 10 10 = some h₀ ∧
      (equalCalls 5).foldlM (addCall flatMetric) h₀ = some h ∧
      h.search flatMetric [1] 5 = some results ∧
      (results.map SearchResult.key).Perm ((equalCalls 5).map AddCall.key) := by
  obtain ⟨h₀, hnew⟩ : ∃ h₀, new 1 2 10 10 = some h₀ := ⟨_, rfl⟩
  have hsome : (new 1 2 10 10).any (fun h₀ => ((equalCalls 5).foldlM (addCall flatMetric) h₀).any
      fun h => h.nodes.length ≤ 5) = true := by
    decide +kernel
  rw [hnew, Option.any_some] at hsome
  obtain ⟨h, hrun, hlen⟩ := (Option.any_eq_true _ _).mp hsome
  have hok : ∀ c ∈ equalCalls 5, c.vector.length = 1 ∧ flatMetric.normalize c.vector ≠ none := by
    intro c hc
    obtain ⟨i, _, rfl⟩ := List.mem_map.mp hc
    exact ⟨rfl, by simp [flatMetric]⟩
  obtain ⟨results, hsearch, hperm⟩ := search_returns_all flatMetric hnew hok
    (fun _ _ _ _ hsplit hbefore => roomy_of_few hnew (by simp [equalCalls]) hsplit hbefore) hrun
    (show ([1] : Floats).length = 1 from rfl) rfl (of_decide_eq_true hlen)
  exact ⟨h₀, h, results, hnew, hrun, hsearch, hperm⟩

/-- **The sixth is not**: all six calls succeed, and a search for six nodes returns five. -/
theorem unlinked_node :
    ∃ h₀ h results, new 1 2 10 10 = some h₀ ∧
      (equalCalls 6).foldlM (addCall flatMetric) h₀ = some h ∧ h.nodes.length = 6 ∧
      h.search flatMetric [1] 6 = some results ∧ results.length = 5 ∧
      ∀ r ∈ results, r.key ≠ [5] := by
  have hsome : (new 1 2 10 10).any (fun h₀ => ((equalCalls 6).foldlM (addCall flatMetric) h₀).any
      fun h => (h.search flatMetric [1] 6).any fun results =>
        h.nodes.length = 6 ∧ results.length = 5 ∧ ∀ r ∈ results, r.key ≠ [5]) = true := by
    decide +kernel
  obtain ⟨h₀, hnew, hsome⟩ := (Option.any_eq_true _ _).mp hsome
  obtain ⟨h, hrun, hsome⟩ := (Option.any_eq_true _ _).mp hsome
  obtain ⟨results, hsearch, hsome⟩ := (Option.any_eq_true _ _).mp hsome
  obtain ⟨hnodes, hlen, hmissing⟩ := of_decide_eq_true hsome
  exact ⟨h₀, h, results, hnew, hrun, hnodes, hsearch, hlen, hmissing⟩

end HnswIndex

end Uldb
