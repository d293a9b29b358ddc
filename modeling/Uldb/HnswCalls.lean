/-
Calls on a nearest neighbour index whose numbers are all in range (`index/hnsw.rs`).

An index that insertions have built keeps much more (`Valid`).  To come back from a call, it is
enough that the lists of neighbours and the entry point name nodes, and that there is an entry
point if there are nodes.

* `Sound.add_returns` — an insertion comes back, with such an index;
* `Sound.run_returns` — so does every run of searches and insertions.
-/
import Uldb.Hnsw

namespace Uldb

/-- A call on an index. -/
inductive HnswCall where
  | search (query : Floats) (k : ℕ)
  | searchWithEf (query : Floats) (k efOverride : ℕ)
  | add (key : Bytes) (vector : Floats)

namespace HnswIndex

open Fallible

section

variable {D : Type} [Ord D]

/-- The index after a call; an insertion that is refused changes nothing. -/
def call (g : Metric D) (h : HnswIndex) : HnswCall → Option HnswIndex
  | .search query k => (h.search g query k).map fun _ => h
  | .searchWithEf query k efOverride => (h.searchWithEf g query k efOverride).map fun _ => h
  | .add key vector => (h.add g key vector).map fun result => result.toOption.getD h

end

/-- There is an entry point if there are nodes, and all numbers are numbers of nodes. -/
structure Sound (h : HnswIndex) : Prop where
  linked : h.Linked
  entry : ∀ ep, h.entryPoint = some ep → ep < h.nodes.length
  present : h.nodes ≠ [] → h.entryPoint ≠ none

theorem Sound.start {h : HnswIndex} (hh : h.Sound) (hne : h.nodes ≠ []) :
    ∃ ep, h.entryPoint = some ep ∧ ep < h.nodes.length := by
  obtain ⟨ep, hep⟩ := Option.ne_none_iff_exists'.mp (hh.present hne)
  exact ⟨ep, hep, hh.entry ep hep⟩

/-- The same nodes with other lists of neighbours, on at least as many layers. -/
structure Relaid (h h' : HnswIndex) : Prop where
  linked : h'.Linked
  relinked : h.Relinked h'
  layers : ∀ (i : ℕ) (n : HnswNode), h.nodes[i]? = some n →
    ∃ n' : HnswNode, h'.nodes[i]? = some n' ∧ n.neighbours.length ≤ n'.neighbours.length

variable {h h' : HnswIndex}

theorem Linked.relaid (hl : h.Linked) : h.Relaid h :=
  ⟨hl, Relinked.refl h, fun _ n hn => ⟨n, hn, le_refl _⟩⟩

theorem Relaid.trans {h'' : HnswIndex} (h₁ : h.Relaid h') (h₂ : h'.Relaid h'') : h.Relaid h'' := by
  refine ⟨h₂.linked, h₁.relinked.trans h₂.relinked, fun i n hn => ?_⟩
  obtain ⟨n', hn', hle⟩ := h₁.layers i n hn
  obtain ⟨n'', hn'', hle'⟩ := h₂.layers i n' hn'
  exact ⟨n'', hn'', hle.trans hle'⟩

/-! ### Lists of neighbours -/

/-- A change to the lists of a node that adds lists of nodes only. -/
theorem Linked.modifyLists (hl : h.Linked) (i : ℕ) {f : List (List ℕ) → List (List ℕ)}
    (hlen : ∀ lists : List (List ℕ), lists.length ≤ (f lists).length)
    (hf : ∀ lists, ∀ list ∈ f lists, list ∈ lists ∨ ∀ nb ∈ list, nb < h.nodes.length) :
    h.Relaid (h.modifyLists i f) := by
  refine ⟨fun node hnode list hlist nb hnb => ?_, relinked_modifyLists i f, fun j n hn => ?_⟩
  · rw [length_modifyLists]
    rcases mem_modifyLists hnode with hnode | ⟨n, hn, rfl⟩
    · exact hl node hnode list hlist nb hnb
    · rcases hf _ list hlist with hold | hnew
      · exact hl n (List.mem_of_getElem? hn) list hold nb hnb
      · exact hnew nb hnb
  · rw [HnswIndex.modifyLists, List.getElem?_modify, hn]
    by_cases hij : i = j
    · exact ⟨_, rfl, by simpa [hij] using hlen n.neighbours⟩
    · exact ⟨n, by simp [hij], le_refl _⟩

theorem Linked.setNeighbours (hl : h.Linked) (node layer : ℕ) {list : List ℕ}
    (hlt : ∀ nb ∈ list, nb < h.nodes.length) : h.Relaid (h.setNeighbours node layer list) := by
  refine hl.modifyLists node (fun lists => by simp) fun lists l hmem => ?_
  rcases List.mem_or_eq_of_mem_set hmem with hold | rfl
  · exact .inl hold
  · exact .inr hlt

theorem Linked.padLayers (hl : h.Linked) (node layer : ℕ) : h.Relaid (h.padLayers node layer) := by
  refine hl.modifyLists node (fun lists => by simp) fun lists l hmem => ?_
  rcases List.mem_append.mp hmem with hold | hnew
  · exact .inl hold
  · rw [List.eq_of_mem_replicate hnew]
    exact .inr (by simp)

/-- A padded node has the layer. -/
theorem exists_layer_padLayers {nb : ℕ} (hnb : nb < h.nodes.length) (layer : ℕ) :
    ∃ n list, (h.padLayers nb layer).nodes[nb]? = some n ∧ n.neighbours[layer]? = some list := by
  rw [HnswIndex.padLayers, HnswIndex.modifyLists, List.getElem?_modify_eq,
    List.getElem?_eq_getElem hnb]
  refine ⟨_, _, rfl, List.getElem?_eq_getElem ?_⟩
  rw [List.length_append, List.length_replicate]
  omega

/-- A list that is set can be read. -/
theorem exists_layer_setNeighbours {nb layer : ℕ} {n : HnswNode} {old : List ℕ}
    (hn : h.nodes[nb]? = some n) (hlayer : n.neighbours[layer]? = some old) (list : List ℕ) :
    ∃ n', (h.setNeighbours nb layer list).nodes[nb]? = some n' ∧
      n'.neighbours[layer]? = some list := by
  rw [HnswIndex.setNeighbours, HnswIndex.modifyLists, List.getElem?_modify_eq, hn]
  refine ⟨_, rfl, ?_⟩
  exact List.getElem?_set_self (List.getElem?_eq_some_iff.mp hlayer).1

theorem Linked.pushNode (hl : h.Linked) (key : Bytes) (vector : Floats) (level : ℕ) :
    (h.pushNode key vector level).Linked := by
  intro node hnode list hlist nb hnb
  rw [HnswIndex.pushNode, List.length_append]
  rcases List.mem_append.mp hnode with hnode | hnode
  · exact Nat.lt_add_right _ (hl node hnode list hlist nb hnb)
  · rw [List.mem_singleton.mp hnode] at hlist
    rw [List.eq_of_mem_replicate hlist] at hnb
    exact absurd hnb List.not_mem_nil

/-! ### Insertions return -/

section

variable {D : Type} {g : Metric D}

theorem nodeDist_returns {a b : ℕ} (ha : a < h.nodes.length) (hb : b < h.nodes.length) :
    ∃ d, h.nodeDist g a b = some d := by
  rw [nodeDist, List.getElem?_eq_getElem ha, List.getElem?_eq_getElem hb]
  exact ⟨_, rfl⟩

variable [Ord D]

theorem selectLoop_returns {query m : ℕ} {candidates : List (D × ℕ)}
    {selected : List (ℕ × Floats)} (hall : ∀ c ∈ candidates, c.2 < h.nodes.length) :
    ∃ out, h.selectLoop g query m candidates selected = some out := by
  induction candidates generalizing selected with
  | nil => exact ⟨_, rfl⟩
  | cons c candidates ih =>
    obtain ⟨d, idx⟩ := c
    have hidx : idx < h.nodes.length := hall (d, idx) List.mem_cons_self
    have hrest : ∀ c ∈ candidates, c.2 < h.nodes.length := fun c hc =>
      hall c (List.mem_cons_of_mem _ hc)
    rw [selectLoop, List.getElem?_eq_getElem hidx]
    split
    · exact ih hrest
    · split
      · exact ⟨_, rfl⟩
      · exact ih hrest

theorem select_returns (query m : ℕ) {candidates : List (D × ℕ)}
    (hall : ∀ c ∈ candidates, c.2 < h.nodes.length) :
    ∃ out, h.selectNeighboursHeuristic g query candidates m = some out ∧
      ∀ nb ∈ out, nb < h.nodes.length := by
  obtain ⟨out, hout⟩ : ∃ out, h.selectNeighboursHeuristic g query candidates m = some out :=
    selectLoop_returns hall
  refine ⟨out, hout, fun nb hnb => ?_⟩
  obtain ⟨c, hc, rfl⟩ := List.mem_map.mp ((select_spec hout).1.subset hnb)
  exact hall c hc

/-- Pruning reads the list of a node, and keeps a part of it. -/
theorem Linked.prune_returns (hl : h.Linked) {node layer : ℕ} {n : HnswNode} {list : List ℕ}
    (hn : h.nodes[node]? = some n) (hlist : n.neighbours[layer]? = some list) (mMax : ℕ) :
    ∃ out, h.prune g node layer mMax = some out ∧ ∀ nb ∈ out, nb < h.nodes.length := by
  have hlt : ∀ nb ∈ list, nb < h.nodes.length :=
    hl n (List.mem_of_getElem? hn) list (List.mem_of_getElem? hlist)
  have hnode : node < h.nodes.length := (List.getElem?_eq_some_iff.mp hn).1
  obtain ⟨cands, hcands⟩ := exists_mapM_eq_some
    (f := fun nb => do return (← h.nodeDist g node nb, nb)) fun nb hnb => by
      obtain ⟨d, hd⟩ := nodeDist_returns (g := g) hnode (hlt nb hnb)
      exact ⟨(d, nb), by rw [hd]; rfl⟩
  have hsnd := map_snd_of_mapM hcands
  -- the candidates are the list, in another order
  rw [prune, hn, Option.bind_eq_bind, Option.bind_some, hlist, Option.bind_eq_bind,
    Option.bind_some, hcands]
  refine select_returns node mMax fun c hc => hlt c.2 ?_
  rw [← hsnd]
  exact List.mem_map_of_mem ((List.perm_insertionSort _ cands).mem_iff.mp hc)

/-- A link back from a node to the new one. -/
theorem Linked.linkBack_returns (hl : h.Linked) {newIdx nb : ℕ} (hnew : newIdx < h.nodes.length)
    (hnb : nb < h.nodes.length) (layer mMax : ℕ) :
    ∃ h', linkBack g newIdx layer mMax h nb = some h' ∧ h.Relaid h' := by
  have hpad := hl.padLayers nb layer
  obtain ⟨n, list, hn, hlist⟩ := exists_layer_padLayers hnb layer
  set list' := if newIdx ∈ list then list else list ++ [newIdx] with hlist'
  have hlt : ∀ i ∈ list', i < (h.padLayers nb layer).nodes.length := by
    have hold := hpad.linked n (List.mem_of_getElem? hn) list (List.mem_of_getElem? hlist)
    intro i hi
    rw [hlist'] at hi
    split at hi
    · exact hold i hi
    · rcases List.mem_append.mp hi with hi | hi
      · exact hold i hi
      · rw [List.mem_singleton.mp hi, length_padLayers]
        exact hnew
  have hset := hpad.linked.setNeighbours nb layer hlt
  -- both indices into the lists are in range: the layer has been padded
  rw [linkBack]
  simp only [hn, hlist, Option.bind_eq_bind, Option.bind_some, ← hlist']
  split
  · -- the list is too long now
    obtain ⟨n', hn', hlayer⟩ := exists_layer_setNeighbours hn hlist list'
    obtain ⟨pruned, hpruned, hall⟩ := hset.linked.prune_returns (g := g) hn' hlayer mMax
    rw [hpruned]
    exact ⟨_, rfl, hpad.trans (hset.trans (hset.linked.setNeighbours nb layer hall))⟩
  · exact ⟨_, rfl, hpad.trans hset⟩

/-- The links of the new node on one of its layers. -/
theorem Linked.connectLayer_returns (hl : h.Linked) {newIdx ep layer : ℕ} {n : HnswNode}
    (hn : h.nodes[newIdx]? = some n) (hlayer : layer < n.neighbours.length)
    (hep : ep < h.nodes.length) :
    ∃ h' ep', connectLayer g newIdx (h, ep) layer = some (h', ep') ∧ h.Relaid h' ∧
      ep' < h.nodes.length := by
  have hnew : newIdx < h.nodes.length := (List.getElem?_eq_some_iff.mp hn).1
  obtain ⟨cands, hcands⟩ := hl.searchLayer_isSome g h.efBuild layer
    (fun i hi => nodeDist_returns (g := g) hnew hi) hep
  have hall := (searchLayer_spec (hl.closedOn layer) hep hcands).1
  obtain ⟨selected, hselected, hlt⟩ := select_returns (g := g) newIdx (h.mMax layer) hall
  have hset := hl.setNeighbours newIdx layer hlt
  obtain ⟨h', hlinks, hrelaid⟩ : ∃ h', selected.foldlM (linkBack g newIdx layer (h.mMax layer))
      (h.setNeighbours newIdx layer selected) = some h' ∧ h.Relaid h' :=
    exists_foldlM_eq_some hset fun nb hnb t ht => by
      obtain ⟨t', ht', hstep⟩ := ht.linked.linkBack_returns (g := g)
        (ht.relinked.length ▸ hnew) (ht.relinked.length ▸ hlt nb hnb) layer (h.mMax layer)
      exact ⟨t', ht', ht.trans hstep⟩
  refine ⟨h', nearest cands ep, ?_, hrelaid, nearest_spec (P := (· < h.nodes.length)) hep hall⟩
  rw [connectLayer]
  simp only [searchLayerNode, hcands, hselected, hn, Option.bind_eq_bind, Option.bind_some,
    if_neg (not_le.mpr hlayer), hlinks]
  rfl

/-- **An insertion comes back**, from an index whose entry point is a node. -/
theorem Linked.insertNode_returns (hl : h.Linked)
    (hentry : ∀ ep, h.entryPoint = some ep → ep < h.nodes.length) (key : Bytes) (vector : Floats)
    (level : ℕ) : ∃ h', h.insertNode g key vector level = some h' ∧ h'.Sound := by
  have hpush := hl.pushNode key vector level
  have hlen : (h.pushNode key vector level).nodes.length = h.nodes.length + 1 := by
    rw [HnswIndex.pushNode, List.length_append, List.length_singleton]
  have hn : (h.pushNode key vector level).nodes[h.nodes.length]?
      = some ⟨vector, key, List.replicate (level + 1) []⟩ := List.getElem?_concat_length
  have hsame : (h.pushNode key vector level).entryPoint = h.entryPoint := rfl
  rw [insertNode]
  simp only
  generalize h.pushNode key vector level = t at hpush hlen hn hsame
  cases hpoint : t.entryPoint with
  | none =>
    -- the first node becomes the entry point
    refine ⟨_, rfl, hpush, fun ep hep => ?_, by simp⟩
    obtain rfl := Option.some_inj.mp hep
    show h.nodes.length < t.nodes.length
    omega
  | some ep =>
    have hep : ep < t.nodes.length := by
      have hlt := hentry ep (hsame ▸ hpoint)
      omega
    have hnew : h.nodes.length < t.nodes.length := by omega
    obtain ⟨ep', hdescend, hep'⟩ := hpush.descend_isSome (g := g)
      (fun i hi => nodeDist_returns (g := g) hnew hi) (level + 1) t.entryLevel hep
    -- every layer of the loop is one of the new node, and no step takes a layer away
    obtain ⟨⟨t', ep''⟩, hlinks, hrelaid, _⟩ : ∃ s : HnswIndex × ℕ,
        (List.range (min level t.entryLevel + 1)).reverse.foldlM (connectLayer g h.nodes.length)
          (t, ep') = some s ∧ t.Relaid s.1 ∧ s.2 < t.nodes.length :=
      exists_foldlM_eq_some (P := fun s : HnswIndex × ℕ => t.Relaid s.1 ∧ s.2 < t.nodes.length)
        ⟨hpush.relaid, hep'⟩ fun layer hlayer s hs => by
        obtain ⟨n', hn', hle⟩ := hs.1.layers _ _ hn
        have hlt := List.mem_range.mp (List.mem_reverse.mp hlayer)
        rw [List.length_replicate] at hle
        obtain ⟨u, ep, hu, hrelaid, hep⟩ := hs.1.linked.connectLayer_returns (g := g) hn'
          (show layer < n'.neighbours.length by omega) (hs.1.relinked.length ▸ hs.2)
        exact ⟨(u, ep), hu, hs.1.trans hrelaid, hs.1.relinked.length ▸ hep⟩
    simp only [hdescend, Option.bind_eq_bind, Option.bind_some, hlinks]
    have hlen' : t'.nodes.length = t.nodes.length := hrelaid.relinked.length
    split
    · refine ⟨_, rfl, hrelaid.linked, fun ep hep => ?_, by simp⟩
      obtain rfl := Option.some_inj.mp hep
      show h.nodes.length < t'.nodes.length
      omega
    · refine ⟨_, rfl, hrelaid.linked, fun ep₀ hep₀ => ?_, fun _ => ?_⟩
      · rw [hrelaid.relinked.entryPoint, hpoint, Option.some_inj] at hep₀
        rw [hlen', ← hep₀]
        exact hep
      · rw [hrelaid.relinked.entryPoint, hpoint]
        simp

/-- **An insertion comes back** with a sound index. -/
theorem Sound.add_returns (hh : h.Sound) (key : Bytes) (vector : Floats) :
    ∃ result, h.add g key vector = some result ∧ ∀ h', result = .ok h' → h'.Sound := by
  rw [add]
  split
  · exact ⟨_, rfl, fun _ hok => absurd hok (by simp)⟩
  · split
    · exact ⟨_, rfl, fun _ hok => absurd hok (by simp)⟩
    · rename_i v _
      have hrng : Linked { h with rng := (h.randomLevel g).2 } := hh.linked
      obtain ⟨h', hinsert, hsound⟩ := hrng.insertNode_returns (g := g) hh.entry key v
        (h.randomLevel g).1
      simp only [hinsert, Option.map_some]
      exact ⟨_, rfl, fun _ hok => Except.ok.inj hok ▸ hsound⟩

/-! ### Runs -/

/-- A call on a sound index comes back and leaves it sound. -/
theorem Sound.call_returns (hh : h.Sound) (c : HnswCall) :
    ∃ h', h.call g c = some h' ∧ h'.Sound := by
  cases c with
  | search query k =>
    obtain ⟨results, hresults⟩ := hh.linked.searchBeam_isSome (g := g) hh.start query k h.efSearch
    exact ⟨h, by rw [call, search, hresults]; rfl, hh⟩
  | searchWithEf query k efOverride =>
    obtain ⟨results, hresults⟩ := hh.linked.searchBeam_isSome (g := g) hh.start query k efOverride
    exact ⟨h, by rw [call, searchWithEf, hresults]; rfl, hh⟩
  | add key vector =>
    obtain ⟨result, hresult, hsound⟩ := hh.add_returns (g := g) key vector
    refine ⟨_, by rw [call, hresult]; rfl, ?_⟩
    cases result with
    | error err => exact hh
    | ok h' => exact hsound h' rfl

/-- **Every run of calls on a sound index comes back.** -/
theorem Sound.run_returns (hh : h.Sound) (calls : List HnswCall) :
    ∃ h', calls.foldlM (call g) h = some h' ∧ h'.Sound :=
  exists_foldlM_eq_some hh fun c _ _ ht => ht.call_returns c

end

end HnswIndex

end Uldb
