/-
The layers of a nearest neighbour index (`HnswIndex::add` in `index/hnsw.rs`).

An insertion changes the lists of many nodes: it links the new node on each of its layers, links
the chosen nodes back to it, and prunes the lists that become too long.  The walk hands the node
where it ended on one layer to the layer below, so that a search on a layer starts from a node
that has this layer; no list names a node that lacks the layer, and so no node ever gets another
layer than those it was inserted with.

* `Tidy`, `Tidy.connectLayer` — what the work on one layer keeps;
* `Layered`, `Layered.insertNode` — what an insertion keeps, at any level;
* `layers_of_calls` — what holds after any calls, whatever levels are drawn.
-/
import Uldb.HnswCalls
import Uldb.HnswFile

namespace Uldb

/-- A call of `add`, and what the generator gives it. -/
structure AddCall where
  key : Bytes
  vector : Floats
  level : ℕ
  /-- The generator after the draw. -/
  rng : Rng

namespace HnswIndex

open Fallible

section

variable {D : Type} [Ord D] (g : Metric D)

/-- `add` with the draw of its level given. -/
def addDrawn (h : HnswIndex) (key : Bytes) (vector : Floats) (drawn : ℕ × Rng) :
    Option (Except String HnswIndex) :=
  if vector.length ≠ h.dim then
    some (.error ("dimension mismatch: index has dim=" ++ toString h.dim ++ ", got dim="
      ++ toString vector.length))
  else
    match g.normalize vector with
    | none => some (.error "vector has zero norm and cannot be normalized")
    | some v => (insertNode g { h with rng := drawn.2 } key v drawn.1).map .ok

theorem add_eq_addDrawn (h : HnswIndex) (key : Bytes) (vector : Floats) :
    h.add g key vector = h.addDrawn g key vector (h.randomLevel g) := rfl

/-- The index after a call; one that is refused changes nothing. -/
def addCall (h : HnswIndex) (c : AddCall) : Option HnswIndex :=
  (h.addDrawn g c.key c.vector (c.level, c.rng)).map fun result => result.toOption.getD h

end

/-! ### Lists and layers -/

/-- The number of layers of each node. -/
def layerCounts (h : HnswIndex) : List ℕ := h.nodes.map fun n => n.neighbours.length

/-- The list of a node on one of its layers. -/
def listAt (h : HnswIndex) (i layer : ℕ) : Option (List ℕ) :=
  (h.nodes[i]?).bind fun n => n.neighbours[layer]?

def HasLayer (h : HnswIndex) (layer i : ℕ) : Prop := ∃ list, h.listAt i layer = some list

variable {h h' : HnswIndex} {i layer node : ℕ} {list : List ℕ}

theorem listAt_eq_some :
    h.listAt i layer = some list ↔
      ∃ n, h.nodes[i]? = some n ∧ n.neighbours[layer]? = some list := by
  rw [listAt, Option.bind_eq_some_iff]

theorem hasLayer_iff :
    h.HasLayer layer i ↔ ∃ c, h.layerCounts[i]? = some c ∧ layer < c := by
  rw [HasLayer, layerCounts, List.getElem?_map]
  constructor
  · rintro ⟨list, hlist⟩
    obtain ⟨n, hn, hl⟩ := listAt_eq_some.mp hlist
    exact ⟨n.neighbours.length, by rw [hn]; rfl, (List.getElem?_eq_some_iff.mp hl).1⟩
  · rintro ⟨c, hc, hlt⟩
    obtain ⟨n, hn, rfl⟩ := Option.map_eq_some_iff.mp hc
    exact ⟨_, listAt_eq_some.mpr ⟨n, hn, List.getElem?_eq_getElem hlt⟩⟩

theorem HasLayer.mono {layer' : ℕ} (hi : h.HasLayer layer i) (hle : layer' ≤ layer) :
    h.HasLayer layer' i := by
  obtain ⟨c, hc, hlt⟩ := hasLayer_iff.mp hi
  exact hasLayer_iff.mpr ⟨c, hc, by omega⟩

theorem HasLayer.lt (hi : h.HasLayer layer i) : i < h.nodes.length := by
  obtain ⟨_, hlist⟩ := hi
  obtain ⟨n, hn, _⟩ := listAt_eq_some.mp hlist
  exact (List.getElem?_eq_some_iff.mp hn).1

/-- A neighbour is named by a list. -/
theorem listAt_of_mem {nbs : List ℕ} {nb : ℕ} (hnbs : h.getLayerNeighbours i layer = some nbs)
    (hnb : nb ∈ nbs) : h.listAt i layer = some nbs := by
  obtain ⟨n, hn, hnbs⟩ := Option.bind_eq_some_iff.mp hnbs
  obtain rfl := Option.some_inj.mp hnbs
  refine listAt_eq_some.mpr ⟨n, hn, ?_⟩
  cases hlist : n.neighbours[layer]? with
  | none =>
    rw [hlist] at hnb
    exact absurd hnb (by simp)
  | some list => rfl

/-- The same nodes and layers, with other lists. -/
structure Rewired (h h' : HnswIndex) : Prop extends Relinked h h' where
  m : h'.m = h.m
  m0 : h'.m0 = h.m0
  counts : h'.layerCounts = h.layerCounts

theorem Rewired.refl (h : HnswIndex) : h.Rewired h := ⟨Relinked.refl h, rfl, rfl, rfl⟩

theorem Rewired.trans {h'' : HnswIndex} (h₁ : h.Rewired h') (h₂ : h'.Rewired h'') :
    h.Rewired h'' :=
  ⟨h₁.toRelinked.trans h₂.toRelinked, h₂.m.trans h₁.m, h₂.m0.trans h₁.m0,
    h₂.counts.trans h₁.counts⟩

theorem Rewired.mMax (hr : h.Rewired h') (layer : ℕ) : h'.mMax layer = h.mMax layer := by
  rw [HnswIndex.mMax, HnswIndex.mMax, hr.m, hr.m0]

theorem Rewired.hasLayer (hr : h.Rewired h') : h'.HasLayer layer i ↔ h.HasLayer layer i := by
  rw [hasLayer_iff, hasLayer_iff, hr.counts]

theorem rewired_setNeighbours (h : HnswIndex) (node layer : ℕ) (list : List ℕ) :
    h.Rewired (h.setNeighbours node layer list) := by
  refine ⟨relinked_modifyLists _ _, rfl, rfl, List.ext_getElem? fun j => ?_⟩
  rw [layerCounts, layerCounts, setNeighbours, modifyLists, List.getElem?_map, List.getElem?_map,
    List.getElem?_modify]
  cases h.nodes[j]? with
  | none => rfl
  | some n => by_cases hj : node = j <;> simp [hj]

theorem listAt_setNeighbours_self (hnode : h.HasLayer layer node) (list : List ℕ) :
    (h.setNeighbours node layer list).listAt node layer = some list := by
  obtain ⟨old, hold⟩ := hnode
  obtain ⟨n, hn, hl⟩ := listAt_eq_some.mp hold
  exact listAt_eq_some.mpr (exists_layer_setNeighbours hn hl list)

theorem listAt_setNeighbours_of_ne {l : ℕ} (hne : i ≠ node ∨ l ≠ layer) (list : List ℕ) :
    (h.setNeighbours node layer list).listAt i l = h.listAt i l := by
  rw [listAt, listAt, setNeighbours, modifyLists, List.getElem?_modify]
  cases h.nodes[i]? with
  | none => rfl
  | some n =>
    by_cases hi : node = i
    · have hl : layer ≠ l := by
        intro heq
        rcases hne with hne | hne
        · exact hne hi.symm
        · exact hne heq.symm
      simp [hi, List.getElem?_set_ne hl]
    · simp [hi]

/-- A list after a change is the new one or an old one. -/
theorem listAt_setNeighbours_eq_some {l : ℕ} {out : List ℕ}
    (hout : (h.setNeighbours node layer list).listAt i l = some out) :
    i = node ∧ l = layer ∧ out = list ∨ (i ≠ node ∨ l ≠ layer) ∧ h.listAt i l = some out := by
  by_cases heq : i = node ∧ l = layer
  · obtain ⟨rfl, rfl⟩ := heq
    have hnode : h.HasLayer l i := (rewired_setNeighbours h i l list).hasLayer.mp ⟨out, hout⟩
    rw [listAt_setNeighbours_self hnode] at hout
    exact .inl ⟨rfl, rfl, (Option.some_inj.mp hout).symm⟩
  · have hne : i ≠ node ∨ l ≠ layer := by
      rw [← not_and_or]
      exact heq
    rw [listAt_setNeighbours_of_ne hne] at hout
    exact .inr ⟨hne, hout⟩

theorem setNeighbours_setNeighbours (h : HnswIndex) (node layer : ℕ) (list list' : List ℕ) :
    (h.setNeighbours node layer list).setNeighbours node layer list'
      = h.setNeighbours node layer list' := by
  rw [setNeighbours, setNeighbours, setNeighbours, modifyLists, modifyLists, modifyLists,
    List.modify_modify_eq]
  congr 2
  funext n
  simp

/-- A node that has the layer needs no padding. -/
theorem padLayers_eq_self (hnode : h.HasLayer layer node) : h.padLayers node layer = h := by
  obtain ⟨list, hlist⟩ := hnode
  obtain ⟨n, hn, hl⟩ := listAt_eq_some.mp hlist
  have hlt : layer < n.neighbours.length := (List.getElem?_eq_some_iff.mp hl).1
  have hzero : layer + 1 - n.neighbours.length = 0 := by omega
  rw [padLayers, modifyLists]
  have hnodes : (h.nodes.modify node fun n =>
      { n with neighbours := n.neighbours ++ List.replicate (layer + 1 - n.neighbours.length) [] })
      = h.nodes := by
    refine List.ext_getElem? fun j => ?_
    rw [List.getElem?_modify]
    by_cases hj : node = j
    · subst hj
      simp [hn, hzero]
    · simp [hj]
  rw [hnodes]

/-! ### One layer -/

/-- A list as it should be. -/
structure TidyList (h : HnswIndex) (i layer : ℕ) (list : List ℕ) : Prop where
  nodup : list.Nodup
  self : i ∉ list
  length : list.length ≤ h.mMax layer
  named : ∀ nb ∈ list, h.HasLayer layer nb

def Tidy (h : HnswIndex) : Prop :=
  ∀ i layer list, h.listAt i layer = some list → h.TidyList i layer list

theorem TidyList.rewired (hlist : h.TidyList i layer list) (hr : h.Rewired h') :
    h'.TidyList i layer list :=
  ⟨hlist.nodup, hlist.self, (hr.mMax layer).symm ▸ hlist.length,
    fun nb hnb => hr.hasLayer.mpr (hlist.named nb hnb)⟩

/-- The lists do not depend on the entry point or the generator. -/
theorem Tidy.congr (hh : h.Tidy) (hnodes : h'.nodes = h.nodes) (hm : h'.m = h.m)
    (hm0 : h'.m0 = h.m0) : h'.Tidy := by
  have hlists : ∀ i layer, h'.listAt i layer = h.listAt i layer := fun i layer => by
    rw [listAt, listAt, hnodes]
  intro i layer list hlist
  rw [hlists] at hlist
  have ht := hh i layer list hlist
  refine ⟨ht.nodup, ht.self, ?_, fun nb hnb => ?_⟩
  · rw [mMax, hm, hm0]
    exact ht.length
  · obtain ⟨list', hlist'⟩ := ht.named nb hnb
    exact ⟨list', (hlists nb layer).trans hlist'⟩

theorem Tidy.setNeighbours (hh : h.Tidy) (hlist : h.TidyList node layer list) :
    (h.setNeighbours node layer list).Tidy := by
  intro i l out hout
  have hr := rewired_setNeighbours h node layer list
  rcases listAt_setNeighbours_eq_some hout with ⟨rfl, rfl, rfl⟩ | ⟨_, hold⟩
  · exact hlist.rewired hr
  · exact (hh i l out hold).rewired hr

/-- The nodes that have a layer are closed under its links. -/
theorem Tidy.closedOn (hh : h.Tidy) (layer : ℕ) : h.ClosedOn layer (h.HasLayer layer) :=
  fun i nbs _ hnbs nb hnb => (hh i layer nbs (listAt_of_mem hnbs hnb)).named nb hnb

theorem Tidy.linked (hh : h.Tidy) : h.Linked := by
  intro n hn list hlist nb hnb
  obtain ⟨i, hi⟩ := List.getElem?_of_mem hn
  obtain ⟨layer, hlayer⟩ := List.getElem?_of_mem hlist
  exact ((hh i layer list (listAt_eq_some.mpr ⟨n, hi, hlayer⟩)).named nb hnb).lt

/-- A list with the link to the new node. -/
def withLink (newIdx : ℕ) (list : List ℕ) : List ℕ :=
  if newIdx ∈ list then list else list ++ [newIdx]

theorem mem_withLink {newIdx nb : ℕ} : nb ∈ withLink newIdx list ↔ nb ∈ list ∨ nb = newIdx := by
  rw [withLink]
  split
  · rename_i hmem
    constructor
    · exact .inl
    · rintro (hnb | rfl)
      · exact hnb
      · exact hmem
  · rw [List.mem_append, List.mem_singleton]

theorem nodup_withLink (newIdx : ℕ) (hlist : list.Nodup) : (withLink newIdx list).Nodup := by
  rw [withLink]
  split
  · exact hlist
  · rename_i hnot
    simpa using hlist.concat hnot

section

variable {D : Type} [Ord D] (g : Metric D)

/-- The list of a node with the link to the new one, or what pruning keeps of it. -/
def linkedList (h : HnswIndex) (newIdx layer mMax nb : ℕ) : Option (List ℕ) :=
  (h.listAt nb layer).bind fun old =>
    if mMax < (withLink newIdx old).length then
      (h.setNeighbours nb layer (withLink newIdx old)).prune g nb layer mMax
    else some (withLink newIdx old)

end

section

variable {D : Type} {g : Metric D} {newIdx nb mMax : ℕ}

theorem Relinked.vector_eq (hr : h.Relinked h') (i : ℕ) :
    (h'.nodes[i]?).map HnswNode.vector = (h.nodes[i]?).map HnswNode.vector := by
  have hi := congrArg (fun nodes => (nodes[i]?).map Prod.snd) hr.nodes
  simp only [List.getElem?_map, Option.map_map] at hi
  exact hi

theorem nodeDist_eq (h : HnswIndex) (g : Metric D) (a b : ℕ) :
    h.nodeDist g a b = ((h.nodes[a]?).map HnswNode.vector).bind fun v =>
      ((h.nodes[b]?).map HnswNode.vector).map (g.dist v) := by
  rw [nodeDist]
  cases h.nodes[a]? with
  | none => rfl
  | some n => cases h.nodes[b]? <;> rfl

theorem Relinked.nodeDist (hr : h.Relinked h') (a b : ℕ) :
    h'.nodeDist g a b = h.nodeDist g a b := by
  rw [nodeDist_eq, nodeDist_eq, hr.vector_eq, hr.vector_eq]

variable [Ord D]

/-- A selection reads the vectors only. -/
theorem Relinked.selectLoop (hr : h.Relinked h') {query m : ℕ} (candidates : List (D × ℕ))
    (selected : List (ℕ × Floats)) :
    h'.selectLoop g query m candidates selected = h.selectLoop g query m candidates selected := by
  induction candidates generalizing selected with
  | nil => rfl
  | cons c candidates ih =>
    obtain ⟨d, idx⟩ := c
    have hidx := hr.vector_eq idx
    rw [HnswIndex.selectLoop, HnswIndex.selectLoop]
    simp only [ih]
    cases hn : h.nodes[idx]? with
    | none =>
      rw [hn, Option.map_none, Option.map_eq_none_iff] at hidx
      rw [hidx]
    | some n =>
      rw [hn, Option.map_some] at hidx
      obtain ⟨n', hn', hvector⟩ := Option.map_eq_some_iff.mp hidx
      simp only [hn', hvector, Option.bind_eq_bind, Option.bind_some]

theorem prune_eq (h : HnswIndex) (g : Metric D) (node layer mMax : ℕ) :
    h.prune g node layer mMax = (h.listAt node layer).bind fun current =>
      (current.mapM fun nb => do return (← h.nodeDist g node nb, nb)).bind fun cands =>
        h.selectNeighboursHeuristic g node (sortByDist cands) mMax := by
  rw [prune, listAt]
  cases h.nodes[node]? <;> rfl

/-- A link back reads the list of its node, and vectors. -/
theorem Relinked.linkedList (hr : h.Relinked h') (hlist : h'.listAt nb layer = h.listAt nb layer) :
    linkedList g h' newIdx layer mMax nb = linkedList g h newIdx layer mMax nb := by
  rw [HnswIndex.linkedList, HnswIndex.linkedList, hlist]
  cases hold : h.listAt nb layer with
  | none => rfl
  | some old =>
    have hset := listAt_setNeighbours_self ⟨old, hold⟩ (withLink newIdx old)
    have hset' := listAt_setNeighbours_self ⟨old, hlist.trans hold⟩ (withLink newIdx old)
    have hr' : (h.setNeighbours nb layer (withLink newIdx old)).Relinked
        (h'.setNeighbours nb layer (withLink newIdx old)) :=
      ⟨hr.dim, hr.entryPoint, hr.entryLevel,
        (relinked_modifyLists _ _).nodes.trans (hr.nodes.trans (relinked_modifyLists _ _).nodes.symm)⟩
    simp only [Option.bind_some, prune_eq, hset, hset', hr'.nodeDist, selectNeighboursHeuristic,
      hr'.selectLoop]

/-- A link back sets the list of its node. -/
theorem linkBack_eq_some (hnb : h.HasLayer layer nb)
    (hrun : linkBack g newIdx layer mMax h nb = some h') :
    ∃ out, linkedList g h newIdx layer mMax nb = some out ∧ h' = h.setNeighbours nb layer out := by
  obtain ⟨old, hold⟩ := hnb
  obtain ⟨n, hn, hl⟩ := listAt_eq_some.mp hold
  have hlink : (if newIdx ∈ old then old else old ++ [newIdx]) = withLink newIdx old := rfl
  rw [linkBack] at hrun
  simp only [padLayers_eq_self ⟨old, hold⟩, hn, hl, Option.bind_eq_bind, Option.bind_some,
    hlink] at hrun
  rw [linkedList, hold, Option.bind_some]
  split at hrun
  · rename_i hlong
    obtain ⟨out, hout, hrun⟩ := Option.bind_eq_some_iff.mp hrun
    rw [← Option.some_inj.mp hrun, if_pos hlong]
    exact ⟨out, hout, setNeighbours_setNeighbours h nb layer _ _⟩
  · rename_i hfits
    rw [if_neg hfits]
    exact ⟨_, rfl, (Option.some_inj.mp hrun).symm⟩

/-- Linked back, a node has a tidy list again, of nodes that its list had and the new one. -/
theorem Tidy.linkedList (hh : h.Tidy) (hnew : h.HasLayer layer newIdx) (hne : newIdx ≠ nb)
    (hout : HnswIndex.linkedList g h newIdx layer (h.mMax layer) nb = some list) :
    h.TidyList nb layer list := by
  obtain ⟨old, hold, hout⟩ := Option.bind_eq_some_iff.mp hout
  have hlist := hh nb layer old hold
  have hnodup : (withLink newIdx old).Nodup := nodup_withLink newIdx hlist.nodup
  have hself : nb ∉ withLink newIdx old := by
    rw [mem_withLink, not_or]
    exact ⟨hlist.self, hne.symm⟩
  have hnamed : ∀ i ∈ withLink newIdx old, h.HasLayer layer i := by
    intro i hi
    rcases mem_withLink.mp hi with hi | rfl
    · exact hlist.named i hi
    · exact hnew
  split at hout
  · obtain ⟨n, l, hn, hl, hsub, hself', hlen⟩ := prune_spec hout
    have hl' := listAt_eq_some.mpr ⟨n, hn, hl⟩
    rw [listAt_setNeighbours_self ⟨old, hold⟩, Option.some_inj] at hl'
    subst hl'
    -- pruning keeps a part of the list
    obtain ⟨l', hperm, hsub'⟩ := hsub
    exact ⟨hperm.nodup_iff.mp (hnodup.sublist hsub'), hself', hlen, fun i hi =>
      hnamed i (hsub'.subset (hperm.mem_iff.mpr hi))⟩
  · rename_i hfits
    obtain rfl := Option.some_inj.mp hout
    exact ⟨hnodup, hself, not_lt.mp hfits, hnamed⟩

/-- The links back from all selected nodes: each gets its list, and no other list changes. -/
theorem Tidy.linkBacks (hh : h.Tidy) (hnew : h.HasLayer layer newIdx) {selected : List ℕ}
    (hselected : h.TidyList newIdx layer selected)
    (hrun : selected.foldlM (linkBack g newIdx layer (h.mMax layer)) h = some h') :
    h'.Tidy ∧ h.Rewired h' ∧
      (∀ i l, ¬(i ∈ selected ∧ l = layer) → h'.listAt i l = h.listAt i l) ∧
      ∀ nb ∈ selected,
        h'.listAt nb layer = HnswIndex.linkedList g h newIdx layer (h.mMax layer) nb := by
  refine foldlM_history (P := fun done t => done <+: selected → t.Tidy ∧ h.Rewired t ∧
    (∀ i l, ¬(i ∈ done ∧ l = layer) → t.listAt i l = h.listAt i l) ∧
    ∀ nb ∈ done, t.listAt nb layer = HnswIndex.linkedList g h newIdx layer (h.mMax layer) nb)
    (fun _ => ⟨hh, Rewired.refl h, fun _ _ _ => rfl, by simp⟩)
    (fun done nb t t' _ ih hstep hprefix => ?_) hrun List.prefix_rfl
  obtain ⟨ht, hr, hsame, hdone⟩ := ih ((List.prefix_append _ _).trans hprefix)
  have hnb : nb ∈ selected := hprefix.subset (by simp)
  have hnot : nb ∉ done := by
    have hnodup := hselected.nodup.sublist hprefix.sublist
    rw [List.nodup_append] at hnodup
    intro hmem
    exact hnodup.2.2 nb hmem nb (by simp) rfl
  have hne : newIdx ≠ nb := by
    rintro rfl
    exact hselected.self hnb
  have hlayer : t.HasLayer layer nb := hr.hasLayer.mpr (hselected.named nb hnb)
  obtain ⟨out, hout, rfl⟩ := linkBack_eq_some hlayer hstep
  have htidy : t.TidyList nb layer out := by
    rw [← hr.mMax layer] at hout
    exact ht.linkedList (hr.hasLayer.mpr hnew) hne hout
  refine ⟨ht.setNeighbours htidy, hr.trans (rewired_setNeighbours t nb layer out),
    fun i l hil => ?_, fun i hi => ?_⟩
  · have hne' : i ≠ nb ∨ l ≠ layer := by
      by_contra hboth
      rw [not_or, not_not, not_not] at hboth
      exact hil ⟨by simp [hboth.1], hboth.2⟩
    rw [listAt_setNeighbours_of_ne hne' out]
    exact hsame i l fun hmem => hil ⟨List.mem_append_left _ hmem.1, hmem.2⟩
  · rcases List.mem_append.mp hi with hold | hlast
    · have hne' : i ≠ nb := by
        rintro rfl
        exact hnot hold
      rw [listAt_setNeighbours_of_ne (.inl hne') out]
      exact hdone i hold
    · -- the list of this node was not changed before
      obtain rfl := List.mem_singleton.mp hlast
      rw [listAt_setNeighbours_self hlayer out, ← hout]
      exact hr.toRelinked.linkedList (hsame i layer fun hmem => hnot hmem.1)

/-- The steps on one layer: a search, a selection, and a link back from each selected node. -/
theorem connectLayer_eq_some {ep ep' : ℕ}
    (hrun : connectLayer g newIdx (h, ep) layer = some (h', ep')) :
    ∃ cands selected, h.searchLayerNode g newIdx ep h.efBuild layer = some cands ∧
      h.selectNeighboursHeuristic g newIdx cands (h.mMax layer) = some selected ∧
      selected.foldlM (HnswIndex.linkBack g newIdx layer (h.mMax layer))
        (h.setNeighbours newIdx layer selected) = some h' ∧
      ep' = nearest cands ep := by
  obtain ⟨cands, hcands, hrun⟩ := Option.bind_eq_some_iff.mp hrun
  obtain ⟨selected, hselected, hrun⟩ := Option.bind_eq_some_iff.mp hrun
  obtain ⟨node, _, hrun⟩ := Option.bind_eq_some_iff.mp hrun
  split at hrun
  · exact absurd hrun (by simp)
  · obtain ⟨t, hlinks, hrun⟩ := Option.bind_eq_some_iff.mp hrun
    obtain ⟨rfl, rfl⟩ := Prod.mk.inj (Option.some_inj.mp hrun)
    exact ⟨cands, selected, hcands, hselected, hlinks, rfl⟩

/-- The nodes that are selected for the new one make a tidy list. -/
theorem Tidy.selected (hh : h.Tidy) {ep : ℕ} (hep : h.HasLayer layer ep)
    {cands : List (D × ℕ)} {selected : List ℕ}
    (hcands : h.searchLayerNode g newIdx ep h.efBuild layer = some cands)
    (hselected : h.selectNeighboursHeuristic g newIdx cands (h.mMax layer) = some selected) :
    h.TidyList newIdx layer selected := by
  obtain ⟨hall, hnodup⟩ := searchLayer_spec (hh.closedOn layer) hep hcands
  obtain ⟨hsub, hself, hlen⟩ := select_spec hselected
  refine ⟨hnodup.sublist hsub, hself, hlen, fun nb hnb => ?_⟩
  obtain ⟨c, hc, rfl⟩ := List.mem_map.mp (hsub.subset hnb)
  exact hall c hc

/-- **The work on one layer** starts and ends at nodes that have the layer, and changes no list
on another one. -/
theorem Tidy.connectLayer (hh : h.Tidy) {ep ep' : ℕ} (hep : h.HasLayer layer ep)
    (hnew : h.HasLayer layer newIdx)
    (hrun : connectLayer g newIdx (h, ep) layer = some (h', ep')) :
    h'.Tidy ∧ h.Rewired h' ∧ (∀ i l, l ≠ layer → h'.listAt i l = h.listAt i l) ∧
      h.HasLayer layer ep' := by
  obtain ⟨cands, selected, hcands, hselected, hlinks, rfl⟩ := connectLayer_eq_some hrun
  have hlist := hh.selected hep hcands hselected
  have hset := rewired_setNeighbours h newIdx layer selected
  rw [← hset.mMax layer] at hlinks
  obtain ⟨htidy, hr, hsame, _⟩ := (hh.setNeighbours hlist).linkBacks (hset.hasLayer.mpr hnew)
    (hlist.rewired hset) hlinks
  refine ⟨htidy, hset.trans hr, fun i l hl => ?_, nearest_spec (P := h.HasLayer layer) hep ?_⟩
  · rw [hsame i l fun hmem => hl hmem.2, listAt_setNeighbours_of_ne (.inr hl)]
  · exact (searchLayer_spec (hh.closedOn layer) hep hcands).1

/-- **The walk down** to the layer `lo`, from a node with the layers up to `hi`. -/
theorem Tidy.descend (hh : h.Tidy) {dist : ℕ → Option D} {lo hi ep ep' : ℕ}
    (hep : h.HasLayer hi ep) (hrun : h.descend g dist lo hi ep = some ep') :
    h.HasLayer (min lo hi) ep' := by
  refine foldlM_range'_reverse (Q := fun l ep => h.HasLayer (min l hi) ep) hrun
    (hep.mono (Nat.min_le_right _ _)) fun layer hlo hlt ep ep' hep hstep => ?_
  have hle : layer ≤ hi := by omega
  rw [Nat.min_eq_left hle]
  obtain ⟨cands, hcands, hstep⟩ := Option.bind_eq_some_iff.mp hstep
  obtain rfl := Option.some_inj.mp hstep
  have hlayer : h.HasLayer layer ep := hep.mono (by omega)
  exact nearest_spec hlayer (searchLayer_spec (hh.closedOn layer) hlayer hcands).1

end

/-! ### Insertions -/

theorem layerCounts_pushNode (h : HnswIndex) (key : Bytes) (vector : Floats) (level : ℕ) :
    (h.pushNode key vector level).layerCounts = h.layerCounts ++ [level + 1] := by
  simp [layerCounts, pushNode]

/-- The lists after a push: the old ones, and empty ones for the new node. -/
theorem listAt_pushNode_eq_some {key : Bytes} {vector : Floats} {level : ℕ}
    (hlist : (h.pushNode key vector level).listAt i layer = some list) :
    h.listAt i layer = some list ∨ i = h.nodes.length ∧ list = [] := by
  obtain ⟨n, hn, hl⟩ := listAt_eq_some.mp hlist
  rw [pushNode, List.getElem?_append] at hn
  split at hn
  · exact .inl (listAt_eq_some.mpr ⟨n, hn, hl⟩)
  · rename_i hge
    obtain ⟨hlt, rfl⟩ := List.getElem?_eq_some_iff.mp hn
    rw [List.length_singleton] at hlt
    rw [List.getElem_singleton] at hl
    exact .inr ⟨by omega, List.eq_of_mem_replicate (List.mem_of_getElem? hl)⟩

theorem hasLayer_pushNode {key : Bytes} {vector : Floats} {level : ℕ} (hi : h.HasLayer layer i) :
    (h.pushNode key vector level).HasLayer layer i := by
  obtain ⟨c, hc, hlt⟩ := hasLayer_iff.mp hi
  refine hasLayer_iff.mpr ⟨c, ?_, hlt⟩
  rw [layerCounts_pushNode, List.getElem?_append_left (List.getElem?_eq_some_iff.mp hc).1, hc]

/-- The new node has the layers up to its level. -/
theorem hasLayer_pushNode_self {key : Bytes} {vector : Floats} {level : ℕ} (hle : layer ≤ level) :
    (h.pushNode key vector level).HasLayer layer h.nodes.length := by
  refine hasLayer_iff.mpr ⟨level + 1, ?_, by omega⟩
  have hlen : h.layerCounts.length = h.nodes.length := List.length_map _
  rw [layerCounts_pushNode, ← hlen, List.getElem?_concat_length]

theorem Tidy.pushNode (hh : h.Tidy) (key : Bytes) (vector : Floats) (level : ℕ) :
    (h.pushNode key vector level).Tidy := by
  intro i layer list hlist
  rcases listAt_pushNode_eq_some hlist with hold | ⟨_, rfl⟩
  · have ht := hh i layer list hold
    exact ⟨ht.nodup, ht.self, ht.length, fun nb hnb => hasLayer_pushNode (ht.named nb hnb)⟩
  · exact ⟨List.nodup_nil, List.not_mem_nil, Nat.zero_le _, by simp⟩

/-- What all insertions keep: the lists are tidy, and the entry point has as many layers as any
node, `entryLevel + 1`. -/
structure Layered (h : HnswIndex) : Prop where
  tidy : h.Tidy
  entry : ∀ ep, h.entryPoint = some ep → h.layerCounts[ep]? = some (h.entryLevel + 1)
  counts : ∀ c ∈ h.layerCounts, c ≤ h.entryLevel + 1
  present : h.nodes ≠ [] → h.entryPoint ≠ none

theorem Layered.hasLayer (hh : h.Layered) {ep : ℕ} (hep : h.entryPoint = some ep) :
    h.HasLayer h.entryLevel ep :=
  hasLayer_iff.mpr ⟨_, hh.entry ep hep, Nat.lt_succ_self _⟩

theorem Layered.sound (hh : h.Layered) : h.Sound :=
  ⟨hh.tidy.linked, fun _ hep => (hh.hasLayer hep).lt, hh.present⟩

theorem layered_new {dim m efBuild efSearch : ℕ} (hnew : new dim m efBuild efSearch = some h) :
    h.Layered ∧ h.m = m ∧ h.m0 = m * 2 ∧ h.nodes = [] := by
  rw [new] at hnew
  split at hnew
  · obtain rfl := Option.some_inj.mp hnew
    refine ⟨⟨fun i layer list hlist => ?_, by simp, by simp [layerCounts], by simp⟩, rfl, rfl, rfl⟩
    obtain ⟨n, hn, _⟩ := listAt_eq_some.mp hlist
    exact absurd hn (by simp)
  · exact absurd hnew (by simp)

section

variable {D : Type} [Ord D] {g : Metric D}

/-- The steps of an insertion into an index that has nodes. -/
theorem insertNode_eq_some {key : Bytes} {vector : Floats} {level ep : ℕ}
    (hep : h.entryPoint = some ep) (hrun : h.insertNode g key vector level = some h') :
    ∃ ep' t ep'',
      (h.pushNode key vector level).descend g
        ((h.pushNode key vector level).nodeDist g h.nodes.length) (level + 1) h.entryLevel ep
        = some ep' ∧
      (List.range (min level h.entryLevel + 1)).reverse.foldlM (connectLayer g h.nodes.length)
        (h.pushNode key vector level, ep') = some (t, ep'') ∧
      h' = if h.entryLevel < level then
          { t with entryPoint := some h.nodes.length, entryLevel := level }
        else t := by
  have hpoint : (h.pushNode key vector level).entryPoint = some ep := hep
  have hlevel : (h.pushNode key vector level).entryLevel = h.entryLevel := rfl
  rw [insertNode] at hrun
  simp only [hpoint, hlevel] at hrun
  obtain ⟨ep', hdescend, hrun⟩ := Option.bind_eq_some_iff.mp hrun
  obtain ⟨⟨t, ep''⟩, hlinks, hrun⟩ := Option.bind_eq_some_iff.mp hrun
  refine ⟨ep', t, ep'', hdescend, hlinks, ?_⟩
  simp only at hrun
  split at hrun
  · rw [if_pos ‹_›]
    exact (Option.some_inj.mp hrun).symm
  · rw [if_neg ‹_›]
    exact (Option.some_inj.mp hrun).symm

/-- The first node becomes the entry point. -/
theorem Layered.insertNode_first (hh : h.Layered) {key : Bytes} {vector : Floats} {level : ℕ}
    (hpoint : h.entryPoint = none) (hrun : h.insertNode g key vector level = some h') :
    h'.Layered ∧ h'.layerCounts = h.layerCounts ++ [level + 1] ∧ h'.m = h.m ∧ h'.m0 = h.m0 := by
  have hpush := hh.tidy.pushNode key vector level
  have hcounts := layerCounts_pushNode h key vector level
  have hnil : h.nodes = [] := by
    by_contra hne
    exact hh.present hne hpoint
  have hcounts₀ : h.layerCounts = [] := by rw [layerCounts, hnil, List.map_nil]
  have hsame : (h.pushNode key vector level).entryPoint = none := hpoint
  rw [HnswIndex.insertNode] at hrun
  simp only [hsame] at hrun
  obtain rfl := Option.some_inj.mp hrun
  refine ⟨⟨hpush.congr rfl rfl rfl, fun ep hep => ?_, fun c hc => ?_, by simp⟩, hcounts, rfl, rfl⟩
  · obtain rfl := Option.some_inj.mp hep
    show (h.pushNode key vector level).layerCounts[h.nodes.length]? = some (level + 1)
    rw [hcounts, hcounts₀, hnil]
    rfl
  · have hc' : c ∈ (h.pushNode key vector level).layerCounts := hc
    rw [hcounts, hcounts₀, List.nil_append, List.mem_singleton] at hc'
    exact hc'.le

/-- **An insertion** keeps the index layered, at any level, and adds one node with the layers up
to its level. -/
theorem Layered.insertNode (hh : h.Layered) {key : Bytes} {vector : Floats} {level : ℕ}
    (hrun : h.insertNode g key vector level = some h') :
    h'.Layered ∧ h'.layerCounts = h.layerCounts ++ [level + 1] ∧ h'.m = h.m ∧ h'.m0 = h.m0 := by
  have hpush := hh.tidy.pushNode key vector level
  have hcounts := layerCounts_pushNode h key vector level
  cases hpoint : h.entryPoint with
  | none => exact hh.insertNode_first hpoint hrun
  | some ep =>
    obtain ⟨ep', t, ep'', hdescend, hlinks, rfl⟩ := insertNode_eq_some hpoint hrun
    have hstart := hpush.descend (hasLayer_pushNode (hh.hasLayer hpoint)) hdescend
    -- on its way down the loop is at a node that has the next layer
    rw [List.range_eq_range'] at hlinks
    obtain ⟨htidy, hr, _⟩ := foldlM_range'_reverse
      (Q := fun l s => s.1.Tidy ∧ (h.pushNode key vector level).Rewired s.1 ∧
        (h.pushNode key vector level).HasLayer (l - 1) s.2) hlinks
      ⟨hpush, Rewired.refl _, hstart.mono (by omega)⟩ fun layer _ hlt s s' hs hstep => by
        obtain ⟨t, ep⟩ := s
        obtain ⟨t', ep'⟩ := s'
        have hnew : t.HasLayer layer h.nodes.length :=
          hs.2.1.hasLayer.mpr (hasLayer_pushNode_self (by omega))
        have hep : t.HasLayer layer ep := hs.2.1.hasLayer.mpr (hs.2.2.mono (by omega))
        obtain ⟨htidy, hr, _, hep'⟩ := hs.1.connectLayer hep hnew hstep
        exact ⟨htidy, hs.2.1.trans hr, (hs.2.1.hasLayer.mp hep').mono (Nat.sub_le _ _)⟩
    have hcounts' : t.layerCounts = h.layerCounts ++ [level + 1] := hr.counts.trans hcounts
    have hlen : h.layerCounts.length = h.nodes.length := List.length_map _
    have hlevel : t.entryLevel = h.entryLevel := hr.entryLevel
    split
    · refine ⟨⟨htidy.congr rfl rfl rfl, fun ep hep => ?_, fun c hc => ?_, by simp⟩, hcounts', hr.m,
        hr.m0⟩
      · obtain rfl := Option.some_inj.mp hep
        show t.layerCounts[h.nodes.length]? = some (level + 1)
        rw [hcounts', ← hlen, List.getElem?_concat_length]
      · have hc' : c ∈ t.layerCounts := hc
        rw [hcounts', List.mem_append, List.mem_singleton] at hc'
        show c ≤ level + 1
        rcases hc' with hc' | rfl
        · have := hh.counts c hc'
          omega
        · exact le_refl _
    · have hpoint' : t.entryPoint = some ep := hr.entryPoint.trans hpoint
      refine ⟨⟨htidy, fun ep₀ hep₀ => ?_, fun c hc => ?_, fun _ => by simp [hpoint']⟩, hcounts',
        hr.m, hr.m0⟩
      · rw [hpoint', Option.some_inj] at hep₀
        subst hep₀
        have hentry := hh.entry ep hpoint
        rw [hcounts', hlevel, List.getElem?_append_left (List.getElem?_eq_some_iff.mp hentry).1,
          hentry]
      · rw [hcounts', List.mem_append, List.mem_singleton] at hc
        rw [hlevel]
        rcases hc with hc | rfl
        · exact hh.counts c hc
        · omega

/-! ### Calls -/

/-- A call comes back, and leaves the index as it is or adds one node. -/
theorem Layered.addCall (hh : h.Layered) (g : Metric D) (c : AddCall) :
    ∃ h', h.addCall g c = some h' ∧ h'.Layered ∧ h'.m = h.m ∧ h'.m0 = h.m0 ∧
      h.layerCounts <+: h'.layerCounts := by
  have hsame : h.Layered ∧ h.m = h.m ∧ h.m0 = h.m0 ∧ h.layerCounts <+: h.layerCounts :=
    ⟨hh, rfl, rfl, List.prefix_rfl⟩
  rw [HnswIndex.addCall, addDrawn]
  split
  · exact ⟨h, rfl, hsame⟩
  · split
    · exact ⟨h, rfl, hsame⟩
    · rename_i v _
      have hrng : Layered { h with rng := c.rng } :=
        ⟨hh.tidy.congr rfl rfl rfl, hh.entry, hh.counts, hh.present⟩
      obtain ⟨h', hinsert, _⟩ := hrng.sound.linked.insertNode_returns (g := g) hrng.sound.entry
        c.key v c.level
      obtain ⟨hlayered, hcounts, hm, hm0⟩ := hrng.insertNode hinsert
      exact ⟨h', by rw [hinsert]; rfl, hlayered, hm, hm0, hcounts ▸ List.prefix_append _ _⟩

theorem Layered.addCalls (hh : h.Layered) (g : Metric D) (calls : List AddCall) :
    ∃ h', calls.foldlM (HnswIndex.addCall g) h = some h' ∧ h'.Layered ∧ h'.m = h.m ∧
      h'.m0 = h.m0 ∧ h.layerCounts <+: h'.layerCounts := by
  refine exists_foldlM_eq_some (P := fun t : HnswIndex => t.Layered ∧ t.m = h.m ∧ t.m0 = h.m0 ∧
    h.layerCounts <+: t.layerCounts) ⟨hh, rfl, rfl, List.prefix_rfl⟩ fun c _ t ht => ?_
  obtain ⟨t', hcall, hlayered, hm, hm0, hcounts⟩ := ht.1.addCall g c
  exact ⟨t', hcall, hlayered, hm.trans ht.2.1, hm0.trans ht.2.2.1, ht.2.2.2.trans hcounts⟩

/-- **After any calls** of `add`, whatever levels they draw, the index is there.  Each list of a
node on a layer names other nodes, each once and at most `2 * m` or `m` of them, and all of them
have the layer.  No further call changes how many layers a node has.  If there is a node, there
is an entry point, which has the `entryLevel + 1` layers that no node exceeds. -/
theorem layers_of_calls (g : Metric D) {dim m efBuild efSearch : ℕ} {h₀ : HnswIndex}
    (hnew : new dim m efBuild efSearch = some h₀) (calls : List AddCall) :
    ∃ h, calls.foldlM (HnswIndex.addCall g) h₀ = some h ∧
      (∀ i layer list, h.listAt i layer = some list →
        list.Nodup ∧ i ∉ list ∧ list.length ≤ (if layer = 0 then 2 * m else m) ∧
        ∀ nb ∈ list, ∃ list', h.listAt nb layer = some list') ∧
      (∀ (more : List AddCall) (h' : HnswIndex), more.foldlM (HnswIndex.addCall g) h = some h' →
        ∀ (i c : ℕ), h.layerCounts[i]? = some c → h'.layerCounts[i]? = some c) ∧
      (h.nodes ≠ [] → ∃ ep, h.entryPoint = some ep ∧
        h.layerCounts[ep]? = some (h.entryLevel + 1) ∧
        ∀ c ∈ h.layerCounts, c ≤ h.entryLevel + 1) := by
  obtain ⟨hlayered, hm, hm0, _⟩ := layered_new hnew
  obtain ⟨h, hrun, hh, hm', hm0', _⟩ := hlayered.addCalls g calls
  refine ⟨h, hrun, fun i layer list hlist => ?_, fun more h' hmore i c hc => ?_, fun hne => ?_⟩
  · have ht := hh.tidy i layer list hlist
    have hmax : h.mMax layer = if layer = 0 then 2 * m else m := by
      rw [mMax, hm', hm, hm0', hm0, Nat.mul_comm]
    exact ⟨ht.nodup, ht.self, hmax ▸ ht.length, ht.named⟩
  · obtain ⟨t, hrun', _, _, _, hcounts⟩ := hh.addCalls g more
    obtain rfl : t = h' := Option.some_inj.mp (hrun'.symm.trans hmore)
    obtain ⟨hlt, rfl⟩ := List.getElem?_eq_some_iff.mp hc
    exact List.prefix_iff_getElem?.mp hcounts i hlt
  · obtain ⟨ep, hep⟩ := Option.ne_none_iff_exists'.mp (hh.present hne)
    exact ⟨ep, hep, hh.entry ep hep, hh.counts⟩

end

/-- Calls of which one is refused; the levels go up and down. -/
def drawnCalls : List AddCall :=
  [⟨[97], [1, 0], 1, .new 1⟩, ⟨[98], [0, 1], 3, .new 2⟩, ⟨[98], [0, 0], 2, .new 3⟩,
    ⟨[99], [1, 0], 0, .new 4⟩, ⟨[97], [3, 3], 2, .new 5⟩, ⟨[], [7, 1], 3, .new 6⟩]

/-- The second node that was added keeps its four layers, and is the entry point. -/
theorem layers_of_calls_grid :
    ∃ h₀ h, new 2 2 4 4 = some h₀ ∧
      drawnCalls.foldlM (addCall gridMetric) h₀ = some h ∧
      (∀ i layer list, h.listAt i layer = some list → list.length ≤ 4) ∧
      ∃ ep, h.entryPoint = some ep ∧ h.layerCounts[ep]? = some (h.entryLevel + 1) := by
  obtain ⟨h₀, hnew⟩ : ∃ h₀, new 2 2 4 4 = some h₀ := ⟨_, rfl⟩
  obtain ⟨h, hrun, hlists, _, hentry⟩ := layers_of_calls gridMetric hnew drawnCalls
  have hsome : (new 2 2 4 4).any (fun h₀ =>
      (drawnCalls.foldlM (addCall gridMetric) h₀).any fun h => h.nodes ≠ []) = true := by
    decide +kernel
  rw [hnew, Option.any_some, hrun, Option.any_some, decide_eq_true_eq] at hsome
  obtain ⟨ep, hep, hcount, _⟩ := hentry hsome
  refine ⟨h₀, h, hnew, hrun, fun i layer list hlist => ?_, ep, hep, hcount⟩
  have hlen := (hlists i layer list hlist).2.2.1
  split at hlen <;> omega

end HnswIndex

end Uldb
