/-
The file of the relation graph (`RelationGraph::serialize` and `RelationGraph::deserialize`).

The file lists the keys of the nodes, then the edges by source.  Loading registers the keys
and adds the edges again: the forward lists come out as they were, and the backward lists in
the order of the sources (`rebuild_spec`).

* `deserialize_serialize` — what is saved is read;
* `graph_survives` — the loaded graph, its file and its forward queries.
-/
import Uldb.Graph
import Uldb.Lib.Reader

namespace Uldb

open BigEndian Reader

/-- `b"GRPH"` -/
def graphMagic : Bytes := [71, 82, 80, 72]

/-- `{:#x}` -/
def lowerHex (n : ℕ) : String := "0x" ++ String.ofList (Nat.toDigits 16 n)

def Relation.tag : Relation → ℕ
  | imports => 1
  | calls => 2
  | inherits => 3
  | tests => 4
  | defines => 5

def readTag : ℕ → Reader String Relation
  | 1 => return .imports
  | 2 => return .calls
  | 3 => return .inherits
  | 4 => return .tests
  | 5 => return .defines
  | other => fail ("unknown relation tag: " ++ lowerHex other)

namespace RelationGraph

/-- The file entry of a node. -/
def keyBytes (key : Str) : Bytes := be 4 key.1.length ++ key.1

/-- The file entry of an edge. -/
def edgeBytes (edge : ℕ × ℕ × Relation) : Bytes :=
  be 4 edge.1 ++ (be 4 edge.2.1 ++ be 1 edge.2.2.tag)

/-- The edges in the order of the file: source, target, relation. -/
def edgeList (adj : List (List Edge)) : List (ℕ × ℕ × Relation) :=
  adj.zipIdx.flatMap fun (edges, s) => edges.map fun e => (s, e.dst, e.relation)

def serialize (g : RelationGraph) : Bytes :=
  graphMagic ++ (be 4 g.idxToKey.length ++ (g.idxToKey.flatMap keyBytes ++
    (be 4 g.edgeCount ++ (edgeList g.fwdAdj).flatMap edgeBytes)))

def readU32 : Reader String ℕ := number 4 "unexpected EOF reading u32"

def readKey : Reader String Str := do
  let keyLen ← readU32
  let text ← take keyLen "unexpected EOF reading node key"
  if h : validUtf8 text = true then return ⟨text, h⟩
  else fail "invalid UTF-8 in node key"

def readEdge : Reader String (ℕ × ℕ × Relation) := do
  let src ← readU32
  let dst ← readU32
  let tag ← number 1 "unexpected EOF reading relation tag"
  let relation ← readTag tag
  return (src, dst, relation)

/-- Register the keys, and add the edges between them. -/
def rebuild (keys : List Str) (edges : List (ℕ × ℕ × Relation)) : RelationGraph :=
  edges.foldl (fun g (src, dst, relation) =>
    match keys[src]?, keys[dst]? with
    | some s, some d => g.addEdge s d relation
    | _, _ => g) (keys.foldl (fun g key => (g.addNode key).1) new)

def readGraph : Reader String RelationGraph := do
  let magic ← take 4 "bad GRPH magic"
  if magic ≠ graphMagic then fail "bad GRPH magic"
  else do
    let nodeCount ← readU32
    let keys ← times nodeCount readKey
    let edgeCount ← readU32
    let edges ← times edgeCount readEdge
    return rebuild keys edges

/-- Bytes after the last edge are not read. -/
def deserialize (data : Bytes) : Except String RelationGraph := readGraph.parse data

/-! ### The file is read back -/

theorem reads_key {key : Str} (hkey : key.1.length < 2 ^ 32) : Reads readKey (keyBytes key) key := by
  refine (reads_number (by simpa using hkey)).bind ((reads_take key.1).last ?_)
  rw [dif_pos key.2]
  exact Reads.pure key

theorem reads_tag (relation : Relation) : Reads (readTag relation.tag) [] relation := by
  cases relation <;> exact Reads.pure _

theorem reads_edge {edge : ℕ × ℕ × Relation} (hsrc : edge.1 < 2 ^ 32) (hdst : edge.2.1 < 2 ^ 32) :
    Reads readEdge (edgeBytes edge) edge := by
  have htag : edge.2.2.tag < 256 ^ 1 := by cases edge.2.2 <;> decide
  exact (reads_number (by simpa using hsrc)).bind ((reads_number (by simpa using hdst)).bind
    ((reads_number htag).last ((reads_tag _).last (Reads.pure _))))

theorem mem_edgeList {adj : List (List Edge)} {edge : ℕ × ℕ × Relation} :
    edge ∈ edgeList adj ↔
      ∃ edges, adj[edge.1]? = some edges ∧ (⟨edge.2.1, edge.2.2⟩ : Edge) ∈ edges := by
  obtain ⟨src, dst, relation⟩ := edge
  rw [edgeList, List.mem_flatMap]
  constructor
  · rintro ⟨⟨edges, s⟩, hmem, hedge⟩
    obtain ⟨e, he, heq⟩ := List.mem_map.mp hedge
    obtain ⟨rfl, rfl, rfl⟩ := (by simpa using heq : s = src ∧ e.dst = dst ∧ e.relation = relation)
    exact ⟨edges, List.mk_mem_zipIdx_iff_getElem?.mp hmem, he⟩
  · rintro ⟨edges, hmem, hedge⟩
    exact ⟨(edges, src), List.mk_mem_zipIdx_iff_getElem?.mpr hmem, List.mem_map.mpr ⟨_, hedge, rfl⟩⟩

theorem length_edgeList (adj : List (List Edge)) :
    (edgeList adj).length = adj.flatten.length := by
  rw [edgeList, List.length_flatMap, List.length_flatten]
  conv_rhs => rw [← List.zipIdx_map_fst 0 adj, List.map_map]
  simp only [List.length_map]
  rfl

/-- The numbers in the file are numbers of nodes. -/
theorem Valid.edgeList_lt {g : RelationGraph} (hg : g.Valid) {edge : ℕ × ℕ × Relation}
    (h : edge ∈ edgeList g.fwdAdj) :
    edge.1 < g.idxToKey.length ∧ edge.2.1 < g.idxToKey.length := by
  obtain ⟨edges, hedges, he⟩ := mem_edgeList.mp h
  refine ⟨?_, hg.dst_lt edges (List.mem_of_getElem? hedges) _ he⟩
  rw [← hg.fwd_length]
  exact (List.getElem?_eq_some_iff.mp hedges).1

/-- **What is saved is read**: the keys and the edges of the file. -/
theorem deserialize_serialize {g : RelationGraph} (hg : g.Valid)
    (hnodes : g.idxToKey.length < 2 ^ 32) (hedges : g.edgeCount < 2 ^ 32)
    (hkeys : ∀ key ∈ g.idxToKey, key.1.length < 2 ^ 32) :
    deserialize g.serialize = .ok (rebuild g.idxToKey (edgeList g.fwdAdj)) := by
  have hcount : g.edgeCount = (edgeList g.fwdAdj).length := by rw [length_edgeList, hg.count]
  have hreadKeys := reads_times fun key hkey => reads_key (hkeys key hkey)
  have hreadEdges := reads_times fun edge (hedge : edge ∈ edgeList g.fwdAdj) =>
    reads_edge ((hg.edgeList_lt hedge).1.trans hnodes) ((hg.edgeList_lt hedge).2.trans hnodes)
  rw [← hcount] at hreadEdges
  refine parse_eq ((reads_take graphMagic).bind ?_)
  rw [if_neg (by simp)]
  exact (reads_number (by simpa using hnodes)).bind (hreadKeys.bind
    ((reads_number (by simpa using hedges)).bind (hreadEdges.last (Reads.pure _))))

/-! ### Loading -/

/-- The first loop of a load. -/
def register (keys : List Str) : RelationGraph := keys.foldl (fun g key => (g.addNode key).1) new

/-- Registering different keys numbers them in order. -/
theorem register_spec {keys : List Str} (hkeys : keys.Nodup) :
    (register keys).Valid ∧ (register keys).idxToKey = keys ∧
      (register keys).fwdAdj = keys.map fun _ => [] := by
  induction keys using List.reverseRecOn with
  | nil => exact ⟨valid_new, rfl, rfl⟩
  | append_singleton keys key ih =>
    obtain ⟨hnodup, _, hdisjoint⟩ := List.nodup_append.mp hkeys
    have hkey : key ∉ keys := fun h => hdisjoint key h key (List.mem_singleton.mpr rfl) rfl
    obtain ⟨hvalid, hidx, hfwd⟩ := ih hnodup
    have hnew : key ∉ (register keys).idxToKey := by rwa [hidx]
    have hstep : register (keys ++ [key]) = ((register keys).addNode key).1 := by
      rw [register, List.foldl_append]
      rfl
    rw [hstep]
    refine ⟨(hvalid.addNode key).1, ?_, ?_⟩
    · rw [hvalid.addNode_of_new hnew]
      simp [hidx]
    · rw [hvalid.addNode_of_new hnew]
      simp [hfwd]

/-- The edges of a list from a source. -/
def edgesFrom (edges : List (ℕ × ℕ × Relation)) (s : ℕ) : List Edge :=
  (edges.filter fun edge => edge.1 = s).map fun edge => ⟨edge.2.1, edge.2.2⟩

/-- **Adding the edges** of a list between known nodes: by source, in the order of the list. -/
theorem rebuild_spec {keys : List Str} (hkeys : keys.Nodup) {edges : List (ℕ × ℕ × Relation)}
    (hedges : ∀ edge ∈ edges, edge.1 < keys.length ∧ edge.2.1 < keys.length) :
    (rebuild keys edges).Valid ∧ (rebuild keys edges).idxToKey = keys ∧
      ∀ i, i < keys.length → (rebuild keys edges).fwdAdj[i]? = some (edgesFrom edges i) := by
  induction edges using List.reverseRecOn with
  | nil =>
    obtain ⟨hvalid, hidx, hfwd⟩ := register_spec hkeys
    refine ⟨hvalid, hidx, fun i hi => ?_⟩
    show (register keys).fwdAdj[i]? = some []
    rw [hfwd, List.getElem?_map, List.getElem?_eq_getElem hi]
    rfl
  | append_singleton edges edge ih =>
    obtain ⟨src, dst, relation⟩ := edge
    obtain ⟨hsrc, hdst⟩ := hedges (src, dst, relation) (by simp)
    obtain ⟨hvalid, hidx, hfwd⟩ := ih fun edge hedge => hedges edge (List.mem_append_left _ hedge)
    have hstep : rebuild keys (edges ++ [(src, dst, relation)])
        = (rebuild keys edges).pushEdge src dst relation := by
      rw [rebuild, List.foldl_append, ← rebuild, List.foldl_cons, List.foldl_nil]
      simp only [List.getElem?_eq_getElem hsrc, List.getElem?_eq_getElem hdst, addEdge]
      rw [hvalid.addNode_of_known (i := src) (by rw [hidx, List.getElem?_eq_getElem hsrc])]
      simp only
      rw [hvalid.addNode_of_known (i := dst) (by rw [hidx, List.getElem?_eq_getElem hdst])]
    rw [hstep]
    rw [← hidx] at hsrc hdst
    refine ⟨hvalid.pushEdge hsrc hdst relation, hidx, fun i hi => ?_⟩
    rw [pushEdge, List.getElem?_modify, hfwd i hi, edgesFrom, edgesFrom, List.filter_append,
      List.map_append]
    by_cases hi : src = i
    · simp [hi]
    · simp [hi]

theorem edgesFrom_eq_nil {edges : List (ℕ × ℕ × Relation)} {s : ℕ}
    (h : ∀ edge ∈ edges, edge.1 ≠ s) : edgesFrom edges s = [] := by
  rw [edgesFrom, List.map_eq_nil_iff, List.filter_eq_nil_iff]
  intro edge hedge
  simpa using h edge hedge

/-- The edges of the file from a node are its forward list. -/
theorem edgesFrom_edgeList {adj : List (List Edge)} {i : ℕ} {edges : List Edge}
    (h : adj[i]? = some edges) : edgesFrom (edgeList adj) i = edges := by
  obtain ⟨hi, rfl⟩ := List.getElem?_eq_some_iff.mp h
  have hsplit : edgeList adj = edgeList (adj.take i) ++
      (adj[i].map (fun e => (i, e.dst, e.relation)) ++
        ((adj.drop (i + 1)).zipIdx (i + 1)).flatMap
          fun (edges, s) => edges.map fun e => (s, e.dst, e.relation)) := by
    conv_lhs => rw [← List.take_append_drop i adj, List.drop_eq_getElem_cons hi]
    rw [edgeList, List.zipIdx_append, List.flatMap_append, List.zipIdx_cons, List.flatMap_cons,
      List.length_take, min_eq_left hi.le, Nat.zero_add]
    rfl
  have hbefore : edgesFrom (edgeList (adj.take i)) i = [] := by
    refine edgesFrom_eq_nil fun edge hedge => ?_
    obtain ⟨_, hmem, _⟩ := mem_edgeList.mp hedge
    have hlt := (List.getElem?_eq_some_iff.mp hmem).1
    rw [List.length_take] at hlt
    omega
  have hafter : edgesFrom (((adj.drop (i + 1)).zipIdx (i + 1)).flatMap
      fun (edges, s) => edges.map fun e => (s, e.dst, e.relation)) i = [] := by
    refine edgesFrom_eq_nil fun edge hedge => ?_
    obtain ⟨⟨edges, s⟩, hmem, hedge⟩ := List.mem_flatMap.mp hedge
    obtain ⟨_, _, rfl⟩ := List.mem_map.mp hedge
    exact (Nat.lt_of_succ_le (List.le_snd_of_mem_zipIdx hmem)).ne'
  rw [edgesFrom] at hbefore hafter
  rw [hsplit, edgesFrom, List.filter_append, List.filter_append, List.map_append, List.map_append,
    hbefore, hafter]
  simp [List.filter_map, Function.comp_def]

/-! ### The loaded graph -/

section

variable {g g' : RelationGraph}

/-- Forward queries read the numbering and the forward lists. -/
theorem bfs_congr (hg : g.Valid) (hg' : g'.Valid) (hidx : g'.idxToKey = g.idxToKey)
    (hkey : ∀ key : Bytes, g'.keyToIdx[key]? = g.keyToIdx[key]?) (hfwd : g'.fwdAdj = g.fwdAdj)
    {direction : String} (hdir : direction ≠ "backward") (start : Str) (maxDepth : ℕ)
    (relationFilter : Option Relation) :
    g'.bfs start direction maxDepth relationFilter
      = g.bfs start direction maxDepth relationFilter := by
  simp only [bfs, ensureBuilt_keyToIdx, ensureBuilt_idxToKey, hg.arrays_ensureBuilt,
    hg'.arrays_ensureBuilt, adj, if_neg hdir, hidx, hkey, hfwd]

theorem neighbours_congr (hg : g.Valid) (hg' : g'.Valid) (hidx : g'.idxToKey = g.idxToKey)
    (hkey : ∀ key : Bytes, g'.keyToIdx[key]? = g.keyToIdx[key]?) (hfwd : g'.fwdAdj = g.fwdAdj)
    {direction : String} (hdir : direction ≠ "backward") (key : Str)
    (relationFilter : Option Relation) :
    g'.neighbours key direction relationFilter = g.neighbours key direction relationFilter := by
  simp only [neighbours, ensureBuilt_keyToIdx, ensureBuilt_idxToKey, hg.arrays_ensureBuilt,
    hg'.arrays_ensureBuilt, adj, if_neg hdir, hidx, hkey, hfwd]

/-- The numbering of the keys is the one of their list. -/
theorem keyToIdx_congr (hg : g.Valid) (hg' : g'.Valid) (hidx : g'.idxToKey = g.idxToKey)
    (key : Bytes) : g'.keyToIdx[key]? = g.keyToIdx[key]? := by
  refine Option.ext fun i => ?_
  rw [hg.index, hg'.index, hidx]

end

/-- **A graph survives a restart.**  The file of every graph that calls build is read back:
to the same numbering, the same forward lists, backward lists with the same edges, the same
file, and the same answers of forward queries. -/
theorem graph_survives (cs : List GraphCall) (hnodes : (ofCalls cs).idxToKey.length < 2 ^ 32)
    (hedges : (ofCalls cs).edgeCount < 2 ^ 32)
    (hkeys : ∀ key ∈ (ofCalls cs).idxToKey, key.1.length < 2 ^ 32) :
    ∃ g', deserialize (ofCalls cs).serialize = .ok g' ∧
      g'.idxToKey = (ofCalls cs).idxToKey ∧
      (∀ key : Bytes, g'.keyToIdx[key]? = (ofCalls cs).keyToIdx[key]?) ∧
      g'.edgeCount = (ofCalls cs).edgeCount ∧
      g'.fwdAdj = (ofCalls cs).fwdAdj ∧
      List.Forall₂ List.Perm g'.bwdAdj (ofCalls cs).bwdAdj ∧
      g'.serialize = (ofCalls cs).serialize ∧
      (∀ start direction maxDepth relationFilter, direction ≠ "backward" →
        ∃ results, (ofCalls cs).bfs start direction maxDepth relationFilter = some results ∧
          g'.bfs start direction maxDepth relationFilter = some results) ∧
      ∀ key direction relationFilter, direction ≠ "backward" →
        ∃ results, (ofCalls cs).neighbours key direction relationFilter = some results ∧
          g'.neighbours key direction relationFilter = some results := by
  set g := ofCalls cs with hg_def
  have hg : g.Valid := valid_ofCalls cs
  obtain ⟨hg', hidx, hfrom⟩ := rebuild_spec hg.nodup fun edge hedge => hg.edgeList_lt hedge
  set g' := rebuild g.idxToKey (edgeList g.fwdAdj)
  have hfwd : g'.fwdAdj = g.fwdAdj := by
    refine List.ext_getElem (by rw [hg.fwd_length, hg'.fwd_length, hidx]) fun i hi hi' => ?_
    have hlist := List.getElem?_eq_getElem hi'
    have h := hfrom i (hg.fwd_length ▸ hi')
    rw [edgesFrom_edgeList hlist, List.getElem?_eq_getElem hi] at h
    exact Option.some_inj.mp h
  have hkey := keyToIdx_congr hg hg' hidx
  have hcount : g'.edgeCount = g.edgeCount := by rw [hg.count, hg'.count, hfwd]
  refine ⟨g', deserialize_serialize hg hnodes hedges hkeys, hidx, hkey, hcount, hfwd, ?_, ?_, ?_, ?_⟩
  · -- both mirror the same forward lists
    refine List.forall₂_iff_get.mpr ⟨by rw [hg.bwd_length, hg'.bwd_length, hidx], fun i hi hi' => ?_⟩
    have hmirror := hg'.mirror i _ (List.getElem?_eq_getElem hi)
    rw [hfwd] at hmirror
    exact hmirror.trans (hg.mirror i _ (List.getElem?_eq_getElem hi')).symm
  · rw [serialize, serialize, hidx, hcount, hfwd]
  · intro start direction maxDepth relationFilter hdir
    obtain ⟨results, hresults⟩ := hg.bfs_isSome start direction maxDepth relationFilter
    exact ⟨results, hresults, (bfs_congr hg hg' hidx hkey hfwd hdir _ _ _).trans hresults⟩
  · intro key direction relationFilter hdir
    obtain ⟨results, hresults⟩ := hg.neighbours_isSome key direction relationFilter
    exact ⟨results, hresults, (neighbours_congr hg hg' hidx hkey hfwd hdir _ _).trans hresults⟩

/-- An isolated node, a self loop and edges in both directions. -/
def smallGraph : List GraphCall :=
  [.addNode ⟨[122], by decide⟩, .addNode ⟨[98], by decide⟩,
    .addEdge ⟨[97], by decide⟩ ⟨[97], by decide⟩ .calls, .query,
    .addEdge ⟨[98], by decide⟩ ⟨[97], by decide⟩ .calls,
    .addEdge ⟨[97], by decide⟩ ⟨[98], by decide⟩ .tests]

/-- The edges into `a` come back in the order of their sources, `b` first. -/
theorem graph_survives_small :
    ∃ g', deserialize (ofCalls smallGraph).serialize = .ok g' ∧
      List.Forall₂ List.Perm g'.bwdAdj (ofCalls smallGraph).bwdAdj := by
  obtain ⟨g', hok, _, _, _, _, hbwd, _⟩ := graph_survives smallGraph (by decide +kernel)
    (by decide +kernel) (by decide +kernel)
  exact ⟨g', hok, hbwd⟩

end RelationGraph

end Uldb
