/-
The server with its searches.

A search ranks keys of the indices, and looks their records up.  No request brings a vector or an
edge, so that on a server only the indices of texts have something to answer: the keyword index,
which has the records as they are, and the symbol index, which keeps the keys of deleted records.

* `SearchHandler.handle` — the handlers of searches, beside those of the other requests;
* `Store.Answers` — what a search may answer, and what it must;
* `searched_like_map` — so answers a server on an empty directory, until the fourth flush.
-/
import Uldb.Queries
import Uldb.QueryNamespace
import Uldb.TxServer

namespace Uldb

open BigEndian BreadthFirst Fallible UmpHandler
open FuzzyMatcher (putKeys)

/-- A request, with the order in which a search iterates its score map. -/
inductive SearchRequest where
  | tx (request : TxRequest)
  | query (nameSpace : Str) (q : QueryPlanner.QuerySpec) (order : Iteration)
  | keyword (nameSpace text : Str) (topK : ℕ) (order : Iteration)
  | fuzzy (text : Str) (topK : ℕ) (order : Iteration)
  | vector (vector : Floats) (topK : ℕ) (order : Iteration)
  | graph (startKey : Str) (relations : List String) (maxDepth topK : ℕ) (order : Iteration)

theorem validUtf8_nil : validUtf8 [] = true := rfl

/-- `QuerySpec::default()` -/
def defaultSpec : QueryPlanner.QuerySpec := ⟨⟨⟨[], validUtf8_nil⟩, 3, []⟩, [], 10⟩

/-! ### Handlers -/

/-- The handler, with the indices that are not of texts. -/
structure SearchHandler extends UmpHandler where
  hnsw : Option HnswIndex
  graph : RelationGraph
  hnswDim : ℕ

/-- The hits in the namespace of a query. -/
def inNamespace (ns : Option UInt64) (hits : List RankedHit) : List RankedHit :=
  match ns with
  | some ns => hits.filter (hitInNs ns)
  | none => hits

namespace SearchHandler

def new (e : Engine) : SearchHandler := ⟨⟨e, TxManager.new⟩, none, .new, 0⟩

def indices (h : SearchHandler) : Indices := ⟨h.engine.indices, h.hnsw, h.graph, h.hnswDim⟩

section

variable {D : Type} [Ord D] (s : Scoring D) (f64Bits : ℚ → ℕ) (h : SearchHandler)

/-- Query the indices, and look the hits up; none where this panics. -/
def search (ns : Option UInt64) (q : QueryPlanner.QuerySpec) (order : Iteration) :
    Option (Response × SearchHandler) :=
  match h.indices.query s q order with
  | none => none
  | some allHits =>
    match hitsResponse f64Bits ns (inNamespace ns allHits) h.engine with
    | .ok response e =>
      some (response, { h with engine := e, graph := (h.indices.afterQuery q).graph })
    | .error _ _ => none

def handleQuery (nameSpace : Str) (q : QueryPlanner.QuerySpec) (order : Iteration) :
    Option (Response × SearchHandler) :=
  h.search s f64Bits (queryNs nameSpace) q order

def handleQueryKeyword (nameSpace query : Str) (topK : ℕ) (order : Iteration) :
    Option (Response × SearchHandler) :=
  h.handleQuery s f64Bits nameSpace ⟨⟨query, 0, []⟩, [], topK⟩ order

def handleQueryFuzzy (query : Str) (topK : ℕ) (order : Iteration) :
    Option (Response × SearchHandler) :=
  h.search s f64Bits none { defaultSpec with text := query, topK := topK } order

def handleQueryVector (vector : Floats) (topK : ℕ) (order : Iteration) :
    Option (Response × SearchHandler) :=
  h.search s f64Bits none { defaultSpec with vector := vector, topK := topK } order

def handleQueryGraph (startKey : Str) (relations : List String) (maxDepth topK : ℕ)
    (order : Iteration) : Option (Response × SearchHandler) :=
  h.search s f64Bits none
    { defaultSpec with
      text := startKey, relations := relations, topK := topK, maxDepth := maxDepth } order

/-- The reply to a request; none where a handler panics. -/
def handle [Codec] (request : SearchRequest) : Option (TxReply × SearchHandler) :=
  let found (r : Response × SearchHandler) := (TxReply.response r.1, r.2)
  match request with
  | .tx request => (h.handleTx request).map fun r => (r.1, { h with toUmpHandler := r.2 })
  | .query nameSpace q order => (h.handleQuery s f64Bits nameSpace q order).map found
  | .keyword nameSpace query topK order =>
    (h.handleQueryKeyword s f64Bits nameSpace query topK order).map found
  | .fuzzy query topK order => (h.handleQueryFuzzy s f64Bits query topK order).map found
  | .vector vector topK order => (h.handleQueryVector s f64Bits vector topK order).map found
  | .graph startKey relations maxDepth topK order =>
    (h.handleQueryGraph s f64Bits startKey relations maxDepth topK order).map found

/-- A request, after which the worker processes what was submitted. -/
def serveOne [Codec] (add : CompactionManager → Page → CompactionManager)
    (request : SearchRequest) : Option (TxReply × SearchHandler) :=
  (h.handle s f64Bits request).map fun r =>
    (r.1, { r.2 with engine := r.2.engine.settle add })

/-- Requests one after the other, with their replies. -/
def serveAll [Codec] (add : CompactionManager → Page → CompactionManager) :
    SearchHandler → List SearchRequest → Option (List TxReply × SearchHandler) :=
  Refinement.serve fun h => h.serveOne s f64Bits add

variable {s f64Bits h} {h' : SearchHandler}

theorem serveOne_eq_some [Codec] {add : CompactionManager → Page → CompactionManager}
    {request : SearchRequest} {reply : TxReply} :
    h.serveOne s f64Bits add request = some (reply, h') ↔
      ∃ h₁, h.handle s f64Bits request = some (reply, h₁) ∧
        h' = { h₁ with engine := h₁.engine.settle add } := by
  rw [serveOne, Option.map_eq_some_iff]
  constructor
  · rintro ⟨⟨reply₁, h₁⟩, hrun, heq⟩
    obtain ⟨rfl, rfl⟩ := Prod.mk.inj heq
    exact ⟨h₁, hrun, rfl⟩
  · rintro ⟨h₁, hrun, rfl⟩
    exact ⟨(reply, h₁), hrun, rfl⟩

end

end SearchHandler

namespace SearchHandler

/-- A search changes no edges. -/
theorem graph_afterQuery {h : SearchHandler} {q : QueryPlanner.QuerySpec}
    (hgraph : ∃ cs, h.graph = RelationGraph.ofCalls cs ∧ RelationGraph.addedEdges cs = []) :
    ∃ cs, (h.indices.afterQuery q).graph = RelationGraph.ofCalls cs ∧
      RelationGraph.addedEdges cs = [] := by
  obtain ⟨cs, hgraph, hedges⟩ := hgraph
  rw [Indices.afterQuery]
  split
  · refine ⟨cs ++ [.query], ?_, ?_⟩
    · show h.graph.ensureBuilt = _
      rw [hgraph, RelationGraph.ofCalls, RelationGraph.ofCalls, List.foldl_append]
      rfl
    · rw [RelationGraph.addedEdges, List.flatMap_append, ← RelationGraph.addedEdges, hedges]
      rfl
  · exact ⟨cs, hgraph, hedges⟩

end SearchHandler

/-! ### The store with its searches -/

/-- The record has a word of the text, in its key or its value. -/
def Kv.Mentions (kv : Kv) (text key : Bytes) : Prop :=
  ∃ v, kv[key]? = some v ∧ ∃ word ∈ tokenize text, word ∈ tokenize key ∨ word ∈ tokenize v

namespace Store

/-- Why a search may find a key: its record has a word of the text, or it was put, be it deleted or
not, and is near to a text that looks like a symbol. -/
inductive Finds (s : Store) (q : QueryPlanner.QuerySpec) (key : Bytes) : Prop
  | word (hasked : QueryPlanner.Asked q .bm25) (hword : s.live.Mentions q.text.1 key) :
    Finds s q key
  | near (hasked : QueryPlanner.Asked q .fuzzy) (hput : key ∈ putKeys s.written)
    (hnear : Near q.text.1 key) : Finds s q key

/-- The hits of a search. -/
structure Answers (s : Store) (q : QueryPlanner.QuerySpec) (hits : List RankedHit) : Prop where
  length : hits.length ≤ q.topK
  ranks : hits.map (·.rank) = List.range hits.length
  nodup : (hits.map (·.key)).Nodup
  sorted : hits.Pairwise fun a b => b.score ≤ a.score
  sound : ∀ hit ∈ hits, s.Finds q hit.key
  /-- With room for all keys that were put, and a number of hits that can be doubled. -/
  complete : (putKeys s.written).length ≤ q.topK → q.topK < 2 ^ 61 → ∀ key, s.Finds q key →
    ∃ hit ∈ hits, hit.key = key

end Store

/-- The hits with the values that the records have now, empty for a record that was deleted. -/
def foundResponse (f64Bits : ℚ → ℕ) (ns : Option UInt64) (kv : Kv) (hits : List RankedHit) :
    Response :=
  .stream ([(.resultStart, enc [u32Field hits.length])]
    ++ hits.map (fun hit => hitRow f64Bits ns hit (kv[hit.key]?.getD []))
    ++ [(.resultEnd, enc [u32Field hits.length, u32Field 0])])

/-- What a search asks for. -/
def SearchRequest.asks : SearchRequest → Option (Option UInt64 × QueryPlanner.QuerySpec × Iteration)
  | .tx _ => none
  | .query nameSpace q order => some (queryNs nameSpace, q, order)
  | .keyword nameSpace text topK order => some (queryNs nameSpace, ⟨⟨text, 0, []⟩, [], topK⟩, order)
  | .fuzzy text topK order => some (none, { defaultSpec with text := text, topK := topK }, order)
  | .vector floats topK order =>
    some (none, { defaultSpec with vector := floats, topK := topK }, order)
  | .graph startKey relations maxDepth topK order =>
    some (none, { defaultSpec with
      text := startKey, relations := relations, topK := topK, maxDepth := maxDepth }, order)

namespace TxMap

/-- How the map answers a request, and the map afterwards. -/
inductive ServesSearch (f64Bits : ℚ → ℕ) (m : TxMap) : SearchRequest → TxReply → TxMap → Prop
  | tx {request : TxRequest} {reply : TxReply} {m' : TxMap} (h : m.Serves request reply m') :
    ServesSearch f64Bits m (.tx request) reply m'
  | search {request : SearchRequest} {ns : Option UInt64} {q : QueryPlanner.QuerySpec}
    {order : Iteration} (hasks : request.asks = some (ns, q, order)) {hits : List RankedHit}
    (hhits : m.store.Answers q hits) :
    ServesSearch f64Bits m request
      (.response (foundResponse f64Bits ns m.store.live (inNamespace ns hits))) m

end TxMap

/-! ### Keys are texts -/

/-- The keys that were written are texts, and so are those that transactions are going to write. -/
structure TxMap.TextKeys (m : TxMap) : Prop where
  written : ∀ w ∈ m.store.written, IsText w.1
  live : ∀ k v, m.store.live[k]? = some v → IsText k
  buffered : ∀ txId t, m.sessions txId = some t → ∀ op ∈ t.writes, IsText op.key

theorem isText_scopeKey (key : Str) : IsText (scopeKey 0 key.1) := by
  have hzeros : be 8 0 = [0, 0, 0, 0, 0, 0, 0, 0] := by decide
  refine ⟨?_, ?_⟩
  · rw [scopeKey, hzeros]
    exact List.cons_ne_nil _ _
  · rw [scopeKey, hzeros, validUtf8_append (by decide)]
    exact key.2

theorem isText_nsKey (repoUrl : Str) : IsText (nsKey repoUrl) := by
  refine ⟨List.append_ne_nil_of_left_ne_nil (by decide) _, ?_⟩
  rw [nsKey, validUtf8_append (by decide)]
  exact repoUrl.2

/-- A request for records writes texts. -/
theorem Serves.isText {kv : Kv} {faults faults' : List WriteFault} {request : Request}
    {response : Response} {ws : List (Bytes × Option Bytes)}
    (h : Serves kv faults request response ws faults')
    (hkv : ∀ k v, kv[k]? = some v → IsText k) : ∀ w ∈ ws, IsText w.1 := by
  have hkeys : ∀ {start stop k : Bytes}, k ∈ kv.keysIn start stop → IsText k := by
    intro start stop k hk
    obtain ⟨⟨k, v⟩, hmem, rfl⟩ := List.mem_map.mp hk
    exact hkv k v (Kv.mem_scan.mp hmem).2
  have hdeletes : ∀ {keys : List Bytes}, (∀ k ∈ keys, IsText k) →
      ∀ w ∈ deletes keys, IsText w.1 := by
    intro keys htexts w hw
    obtain ⟨k, hk, rfl⟩ := List.mem_map.mp hw
    exact htexts k hk
  cases h with
  | view | failed => exact fun w hw => absurd hw List.not_mem_nil
  | done h =>
    cases request with
    | put key value =>
      obtain ⟨rfl, -⟩ := Prod.mk.inj (Option.some_inj.mp h)
      rw [List.forall_mem_singleton]
      exact isText_scopeKey key
    | delete key =>
      obtain ⟨rfl, -⟩ := Prod.mk.inj (Option.some_inj.mp h)
      rw [List.forall_mem_singleton]
      exact isText_scopeKey key
    | putBatch records =>
      obtain ⟨rfl, -⟩ := Prod.mk.inj (Option.some_inj.mp h)
      rw [scopedRecords, List.map_map]
      intro w hw
      obtain ⟨record, -, rfl⟩ := List.mem_map.mp hw
      exact isText_scopeKey record.1
    | compact =>
      obtain ⟨rfl, -⟩ := Prod.mk.inj (Option.some_inj.mp h)
      exact fun w hw => absurd hw List.not_mem_nil
    | nsCreate repoUrl commitSha description =>
      obtain ⟨rfl, -⟩ := Prod.mk.inj (Option.some_inj.mp h)
      rw [List.forall_mem_singleton]
      exact isText_nsKey repoUrl
    | _ => exact absurd h (by simp [Request.update])
  | rangeDelete hkeys' =>
    refine hdeletes fun k hk => hkeys (hkeys' ▸ hk)
  | rangeDeleteFailed hkeys' =>
    exact hdeletes fun k hk => hkeys (hkeys'.symm ▸ List.mem_append_left _ hk)
  | nsDelete hkeys' hdeleted => exact hdeletes fun k hk => hkeys (hkeys' ▸ hdeleted.subset hk)

namespace TxMap.TextKeys

variable {m m' : TxMap} {request : TxRequest} {reply : TxReply}

theorem empty (faults : List WriteFault) : TextKeys (TxMap.empty faults) := by
  refine ⟨fun w hw => absurd hw List.not_mem_nil, fun k v hv => ?_, fun txId t ht => ?_⟩
  · rw [show (TxMap.empty faults).store.live = (∅ : Std.TreeMap Bytes Bytes) from rfl,
      Std.TreeMap.getElem?_emptyc] at hv
    exact absurd hv (by simp)
  · exact absurd ht (by simp [TxMap.empty])

/-- Texts are written. -/
theorem writeAll (h : TextKeys m) {ws : List (Bytes × Option Bytes)}
    (hws : ∀ w ∈ ws, IsText w.1) : TextKeys { m with store := m.store.writeAll ws } := by
  refine ⟨List.forall_mem_append.mpr ⟨h.written, hws⟩, fun k v hv => ?_, h.buffered⟩
  have hv' : (m.store.live.writeAll ws)[k]? = some v := hv
  rw [Kv.getElem?_writeAll] at hv'
  cases hlast : lastWrite ws k with
  | none =>
    rw [hlast, Option.getD_none] at hv'
    exact h.live k v hv'
  | some value =>
    have hne : lastWrite ws k ≠ none := by simp [hlast]
    rw [Ne, lastWrite_eq_none] at hne
    push Not at hne
    obtain ⟨w, hw, rfl⟩ := hne
    exact hws w hw

/-- A transaction begins, goes on or ends. -/
theorem set (h : TextKeys m) (txId : ℕ) {t : Option OpenTx}
    (ht : ∀ t', t = some t' → ∀ op ∈ t'.writes, IsText op.key) : TextKeys (m.set txId t) := by
  refine ⟨h.written, h.live, fun txId' t' ht' => ?_⟩
  have ht'' : Function.update m.sessions txId t txId' = some t' := ht'
  by_cases hid : txId' = txId
  · subst hid
    rw [Function.update_self] at ht''
    exact ht t' ht''
  · rw [Function.update_of_ne hid] at ht''
    exact h.buffered txId' t' ht''

/-- **One request** keeps the keys texts. -/
theorem serves (h : TextKeys m) (hserves : m.Serves request reply m') : TextKeys m' := by
  have hnone : ∀ t' : OpenTx, none = some t' → ∀ op ∈ t'.writes, IsText op.key :=
    fun t' ht' => absurd ht' (by simp)
  have hops : ∀ {ops : List TxOp}, (∀ op ∈ ops, IsText op.key) →
      ∀ w ∈ ops.map TxOp.write, IsText w.1 := by
    intro ops htexts w hw
    obtain ⟨op, hop, rfl⟩ := List.mem_map.mp hw
    cases op <;> exact htexts _ hop
  -- by the answer: the log and the records gain texts alone, and so does the buffer
  cases hserves with
  | record hrecord =>
    have hwritten := h.writeAll (hrecord.isText h.live)
    exact ⟨hwritten.written, hwritten.live, hwritten.buffered⟩
  | version hversion =>
    cases hversion with
    | _ => exact ⟨h.written, h.live, h.buffered⟩
  | begin isolation =>
    have hset := h.set m.nextId (t := some ⟨.fromByte isolation, m.store.trie, [], []⟩)
      fun t' ht' op hop => by
        obtain rfl := Option.some_inj.mp ht'
        exact absurd hop List.not_mem_nil
    exact ⟨hset.written, hset.live, hset.buffered⟩
  | get ht key =>
    refine h.set _ fun t' ht' op hop => h.buffered _ _ ht op ?_
    obtain rfl := Option.some_inj.mp ht'
    rw [OpenTx.noted] at hop
    split at hop
    · exact hop
    · exact hop
  | write hop ht =>
    refine h.set _ fun t' ht' op' hop' => ?_
    obtain rfl := Option.some_inj.mp ht'
    rcases List.mem_append.mp hop' with hold | hnew
    · exact h.buffered _ _ ht op' hold
    · rw [List.mem_singleton.mp hnew]
      cases request with
      | put txId key value =>
        obtain ⟨-, rfl⟩ := Prod.mk.inj (Option.some_inj.mp hop)
        exact isText_scopeKey key
      | delete txId key =>
        obtain ⟨-, rfl⟩ := Prod.mk.inj (Option.some_inj.mp hop)
        exact isText_scopeKey key
      | _ => exact absurd hop (by simp [TxRequest.op])
  | rollback ht => exact h.set _ hnone
  | conflict ht hstale => exact h.set _ hnone
  | commit ht hvalid => exact (h.set _ hnone).writeAll (hops (h.buffered _ _ ht))
  | @commitFailed txId t ht hvalid done later op hdone fault rest hfault =>
    have hwritten := (h.set txId hnone).writeAll (hops fun op hop =>
      h.buffered txId t ht op (hdone.symm ▸ List.mem_append_left _ hop))
    exact ⟨hwritten.written, hwritten.live, hwritten.buffered⟩
  | getLive ht key => exact h
  | writeMissing hop ht => exact h
  | rollbackMissing ht => exact h
  | status txId => exact h
  | commitMissing ht => exact h

end TxMap.TextKeys

/-! ### The server holds the map -/

/-- The server holds the map; it has no vectors and no edges. -/
structure Searches [Codec] (add : CompactionManager → Page → CompactionManager) (m : TxMap)
    (h : SearchHandler) : Prop where
  represents : Represents add m h.toUmpHandler
  texts : m.TextKeys
  hnsw : h.hnsw = none
  graph : ∃ cs, h.graph = RelationGraph.ofCalls cs ∧ RelationGraph.addedEdges cs = []

section

variable [Codec] {add : CompactionManager → Page → CompactionManager}

namespace Engine

variable {e e' : Engine} {f64Bits : ℚ → ℕ} {ns : Option UInt64} {hits : List RankedHit}

omit [Codec] in
/-- Reads flush nothing. -/
theorem flushCount_hitRows {rows : List (Opcode × Bytes)}
    (hrun : hitRows f64Bits ns hits e = .ok rows e') : e'.flushCount = e.flushCount := by
  induction hits generalizing e rows with
  | nil =>
    obtain ⟨-, rfl⟩ := pure_eq_ok.mp hrun
    rfl
  | cons hit hits ih =>
    obtain ⟨value, e₁, hget, hrun⟩ := bind_eq_ok.mp hrun
    obtain ⟨rest, e₂, hrest, hrun⟩ := bind_eq_ok.mp hrun
    obtain ⟨-, rfl⟩ := pure_eq_ok.mp hrun
    rw [EStateM.Result.ok.injEq] at hget
    obtain ⟨-, rfl⟩ := hget
    obtain ⟨cache, heq⟩ := get_frame e hit.key
    rw [ih hrest, heq]

omit [Codec] in
theorem flushCount_hitsResponse {response : Response}
    (hrun : hitsResponse f64Bits ns hits e = .ok response e') :
    e'.flushCount = e.flushCount := by
  obtain ⟨rows, e₁, hrows, hrun⟩ := bind_eq_ok.mp hrun
  obtain ⟨-, rfl⟩ := pure_eq_ok.mp hrun
  exact flushCount_hitRows hrows

end Engine

namespace Holds

open Engine

variable {store : Store} {e e' : Engine} {f64Bits : ℚ → ℕ} {ns : Option UInt64}

/-- Hits are looked up. -/
theorem hitRows (h : Holds add store e) (hadd : Newest add) (hqueue : e.compactor.queue = [])
    {hits : List RankedHit} {rows : List (Opcode × Bytes)}
    (hrun : UmpHandler.hitRows f64Bits ns hits e = .ok rows e') :
    rows = hits.map (fun hit => hitRow f64Bits ns hit (store.live[hit.key]?.getD [])) ∧
      Holds add store e' := by
  induction hits generalizing e rows with
  | nil =>
    obtain ⟨rfl, rfl⟩ := pure_eq_ok.mp hrun
    exact ⟨rfl, h⟩
  | cons hit hits ih =>
    obtain ⟨value, e₁, hget, hrun⟩ := bind_eq_ok.mp hrun
    obtain ⟨rest, e₂, hrest, hrun⟩ := bind_eq_ok.mp hrun
    obtain ⟨rfl, rfl⟩ := pure_eq_ok.mp hrun
    rw [EStateM.Result.ok.injEq] at hget
    obtain ⟨rfl, rfl⟩ := hget
    obtain ⟨hvalue, h₁, hqueue₁⟩ := h.get hadd hqueue hit.key
    obtain ⟨rfl, h₂⟩ := ih h₁ hqueue₁ hrest
    rw [List.map_cons, hvalue]
    exact ⟨rfl, h₂⟩

theorem hitsResponse (h : Holds add store e) (hadd : Newest add)
    (hqueue : e.compactor.queue = []) {hits : List RankedHit} {response : Response}
    (hrun : UmpHandler.hitsResponse f64Bits ns hits e = .ok response e') :
    response = foundResponse f64Bits ns store.live hits ∧ Holds add store e' := by
  obtain ⟨rows, e₁, hrows, hrun⟩ := bind_eq_ok.mp hrun
  obtain ⟨rfl, rfl⟩ := pure_eq_ok.mp hrun
  obtain ⟨rfl, h'⟩ := h.hitRows hadd hqueue hrows
  exact ⟨rfl, h'⟩

/-- What the log of writes says about the words of a record, the map does. -/
theorem answers_iff (h : Holds add store e) {text key : Bytes} :
    Uldb.Answers store.written text key ↔ store.live.Mentions text key := by
  have hlive : ∀ v, store.live[key]? = some v ↔ lastWrite store.written key = some (some v) := by
    intro v
    rw [h.live key, reference, Option.join_eq_some_iff]
  simp only [Uldb.Answers, Kv.Mentions, hlive]

end Holds

namespace Searches

variable {D : Type} [Ord D] {s : Scoring D} {f64Bits : ℚ → ℕ} {m : TxMap} {h h' : SearchHandler}
  {q : QueryPlanner.QuerySpec} {key : Bytes}

/-- The indices of texts have seen the writes. -/
theorem indices_eq (hm : Searches add m h) :
    h.indices.toIndexManager = m.store.written.foldl IndexManager.onWrite .new :=
  hm.represents.store.copies.indices

/-- What a step of a plan contributes. -/
def Contributes (m : TxMap) (q : QueryPlanner.QuerySpec) (key : Bytes) : QueryStep → Prop
  | .bm25 => m.store.live.Mentions q.text.1 key
  | .fuzzy => key ∈ putKeys m.store.written ∧ Near q.text.1 key
  | _ => False

theorem contributes_of_runStep (hm : Searches add m h) {step : QueryStep}
    {lists : List (List RankedHit)} (hstep : h.indices.runStep s q step = some lists)
    (hkey : key ∈ lists.flatten.map (·.key)) : Contributes m q key step := by
  have hkeys : ∀ w ∈ m.store.written, w.1 ≠ [] := fun w hw => (hm.texts.written w hw).1
  cases step with
  | bm25 =>
    obtain rfl := Option.some_inj.mp hstep
    rw [Indices.flatten_someHits] at hkey
    exact hm.represents.store.answers_iff.mp ((Indices.bm25Hits_spec hm.indices_eq hkeys).1 hkey)
  | fuzzy =>
    obtain rfl := Option.some_inj.mp hstep
    rw [Indices.flatten_someHits] at hkey
    exact (Indices.fuzzyHits_spec hm.indices_eq).1 hkey
  | hnsw =>
    have hnone : h.indices.hnsw = none := hm.hnsw
    rw [Indices.runStep, Indices.hnswHits, hnone] at hstep
    obtain rfl := Option.some_inj.mp hstep
    exact absurd hkey (by simp [Indices.someHits])
  | graph =>
    obtain ⟨cs, hgraph, hedges⟩ := hm.graph
    have hgraph' : h.indices.graph = RelationGraph.ofCalls cs := hgraph
    rw [Indices.runStep, hgraph'] at hstep
    by_cases htext : q.text.1 = []
    · rw [graphStep, if_pos htext] at hstep
      obtain rfl := Option.some_inj.mp hstep
      exact absurd hkey (by simp)
    · obtain ⟨lists', hrun, -, hnodes⟩ := graphStep_keys cs q.toQuerySpec htext
      obtain rfl := Option.some_inj.mp (hrun.symm.trans hstep)
      obtain ⟨node, -, hne, n, -, hwalk⟩ := (hnodes key).mp hkey
      -- without edges a walk stays where it is
      rw [hedges] at hwalk
      exact absurd (Indices.mem_targets hwalk hne) List.not_mem_nil

/-- **The hits of a search.** -/
theorem answers (hm : Searches add m h) {order : Iteration} {hits : List RankedHit}
    (hquery : h.indices.query s q order = some hits) : m.store.Answers q hits := by
  have hkeys : ∀ w ∈ m.store.written, w.1 ≠ [] := fun w hw => (hm.texts.written w hw).1
  have hput : ∀ step key, Contributes m q key step → key ∈ putKeys m.store.written := by
    intro step key hcontributes
    cases step with
    | bm25 =>
      obtain ⟨v, hlast, -⟩ := hm.represents.store.answers_iff.mpr hcontributes
      exact mem_putKeys_of_lastWrite hlast
    | fuzzy => exact hcontributes.1
    | hnsw => exact hcontributes.elim
    | graph => exact hcontributes.elim
  obtain ⟨hlength, hranks, hnodup, hsorted, hsound⟩ := Indices.sound_of_steps
    (fun step lists hstep key hkey => hm.contributes_of_runStep hstep hkey) hquery
  refine ⟨hlength, hranks, hnodup, hsorted, fun hit hhit => ?_, fun hroom hsmall key hfinds => ?_⟩
  -- a hit comes from a step that the query asks for
  · obtain ⟨step, hasked, hcontributes⟩ := hsound hit hhit
    cases step with
    | bm25 => exact .word hasked hcontributes
    | fuzzy => exact .near hasked hcontributes.1 hcontributes.2
    | hnsw => exact hcontributes.elim
    | graph => exact hcontributes.elim
  -- with room for all keys, what a step contributes is among the hits
  · have hcomplete : ∀ {step ls}, QueryPlanner.Asked q step → h.indices.runStep s q step = some ls →
        key ∈ ls.flatten.map (·.key) → ∃ hit ∈ hits, hit.key = key := fun hasked hls hmem =>
      Indices.complete_of_steps (fun step lists hstep key hkey =>
        hput step key (hm.contributes_of_runStep hstep hkey)) hquery hroom hasked hls hmem
    have hroom' : (putKeys m.store.written).length ≤ hitLimit q.topK := by
      rw [hitLimit_eq (by omega)]
      omega
    cases hfinds with
    | word hasked hword =>
      refine hcomplete hasked rfl ?_
      rw [Indices.flatten_someHits]
      exact (Indices.bm25Hits_spec hm.indices_eq hkeys).2 hroom'
        (hm.represents.store.answers_iff.mpr hword)
    | near hasked hput hnear =>
      refine hcomplete hasked rfl ?_
      rw [Indices.flatten_someHits]
      refine (Indices.fuzzyHits_spec hm.indices_eq).2 hroom' ?_ hput hnear
      rw [hitLimit_eq (by omega)]
      omega

/-- **A search.** -/
theorem search (hm : Searches add m h) (hadd : Newest add)
    (hqueue : h.engine.compactor.queue = []) {ns : Option UInt64} {order : Iteration}
    {response : Response} (hrun : h.search s f64Bits ns q order = some (response, h')) :
    (∃ hits, m.store.Answers q hits ∧
        response = foundResponse f64Bits ns m.store.live (inNamespace ns hits)) ∧
      Searches add m h' := by
  rw [SearchHandler.search] at hrun
  cases hquery : h.indices.query s q order with
  | none =>
    rw [hquery] at hrun
    exact absurd hrun (by simp)
  | some hits =>
    simp only [hquery] at hrun
    cases hresponse : UmpHandler.hitsResponse f64Bits ns (inNamespace ns hits) h.engine with
    | error failure e =>
      rw [hresponse] at hrun
      exact absurd hrun (by simp)
    | ok response' e =>
      rw [hresponse] at hrun
      obtain ⟨rfl, rfl⟩ := Prod.mk.inj (Option.some_inj.mp hrun)
      obtain ⟨rfl, hstore⟩ := hm.represents.store.hitsResponse hadd hqueue hresponse
      exact ⟨⟨hits, hm.answers hquery, rfl⟩, ⟨hstore, hm.represents.nextId, hm.represents.sessions⟩,
        hm.texts, hm.hnsw, SearchHandler.graph_afterQuery hm.graph⟩

/-- What the handlers of searches do, is to search for what the request asks for. -/
theorem handle_of_asks {request : SearchRequest} {ns : Option UInt64} {order : Iteration}
    (hasks : request.asks = some (ns, q, order)) : h.handle s f64Bits request
      = (h.search s f64Bits ns q order).map fun r => (.response r.1, r.2) := by
  cases request with
  | tx request => exact absurd hasks (by simp [SearchRequest.asks])
  | _ =>
    obtain ⟨rfl, heq⟩ := Prod.mk.inj (Option.some_inj.mp hasks)
    obtain ⟨rfl, rfl⟩ := Prod.mk.inj heq
    rfl

/-- **One request.** -/
theorem handle (hm : Searches add m h) (hadd : Newest add)
    (hqueue : h.engine.compactor.queue = []) {request : SearchRequest} {reply : TxReply}
    (hrun : h.handle s f64Bits request = some (reply, h')) :
    ∃ m', m.ServesSearch f64Bits request reply m' ∧ Searches add m' h' := by
  cases hasks : request.asks with
  | none =>
    cases request with
    | tx request =>
      obtain ⟨⟨reply', h₁⟩, hhandle, heq⟩ := Option.map_eq_some_iff.mp hrun
      obtain ⟨rfl, rfl⟩ := Prod.mk.inj heq
      obtain ⟨m', hserves, hm'⟩ := hm.represents.handleTx hadd hqueue hhandle
      exact ⟨m', .tx hserves, hm', hm.texts.serves hserves, hm.hnsw, hm.graph⟩
    | _ => exact absurd hasks (by simp [SearchRequest.asks])
  | some asked =>
    obtain ⟨ns, q, order⟩ := asked
    rw [handle_of_asks hasks] at hrun
    obtain ⟨⟨response, h₁⟩, hsearch, heq⟩ := Option.map_eq_some_iff.mp hrun
    obtain ⟨rfl, rfl⟩ := Prod.mk.inj heq
    obtain ⟨⟨hits, hhits, rfl⟩, hm'⟩ := hm.search hadd hqueue hsearch
    exact ⟨m, .search hasks hhits, hm'⟩

/-! ### The real levels -/

/-- Flushes are counted up; a search flushes nothing. -/
theorem flushCount_handle {request : SearchRequest} {reply : TxReply}
    (hrun : h.handle s f64Bits request = some (reply, h')) :
    h.engine.flushCount ≤ h'.engine.flushCount := by
  cases hasks : request.asks with
  | none =>
    cases request with
    | tx request =>
      obtain ⟨⟨reply', h₁⟩, hhandle, heq⟩ := Option.map_eq_some_iff.mp hrun
      obtain ⟨-, rfl⟩ := Prod.mk.inj heq
      exact Represents.flushCount_handleTx hhandle
    | _ => exact absurd hasks (by simp [SearchRequest.asks])
  | some asked =>
    obtain ⟨ns, q, order⟩ := asked
    rw [handle_of_asks hasks] at hrun
    obtain ⟨⟨response, h₁⟩, hsearch, heq⟩ := Option.map_eq_some_iff.mp hrun
    obtain ⟨-, rfl⟩ := Prod.mk.inj heq
    rw [SearchHandler.search] at hsearch
    cases hquery : h.indices.query s q order with
    | none =>
      rw [hquery] at hsearch
      exact absurd hsearch (by simp)
    | some hits =>
      simp only [hquery] at hsearch
      cases hresponse : UmpHandler.hitsResponse f64Bits ns (inNamespace ns hits) h.engine with
      | error failure e =>
        rw [hresponse] at hsearch
        exact absurd hsearch (by simp)
      | ok response' e =>
        rw [hresponse] at hsearch
        obtain ⟨-, rfl⟩ := Prod.mk.inj (Option.some_inj.mp hsearch)
        exact (Engine.flushCount_hitsResponse hresponse).ge

/-- The server refines the map with its searches, below four flushes. -/
theorem serveOne_refines : Refinement.Refines
    (fun h => SearchHandler.serveOne s f64Bits h CompactionManager.addL0Page)
    (TxMap.ServesSearch f64Bits)
    (fun m h => Searches Engine.keepAll m h ∧ h.engine.compactor.queue = [])
    (fun h => h.engine.flushCount) l0Limit where
  mono h request reply h' hrun := by
    obtain ⟨h₁, hhandle, rfl⟩ := SearchHandler.serveOne_eq_some.mp hrun
    have hstep : h.engine.flushCount ≤ h₁.engine.flushCount := flushCount_handle hhandle
    exact hstep
  one m h request reply h' hrel hrun hfew := by
    obtain ⟨hm, hqueue⟩ := hrel
    obtain ⟨h₁, hhandle, rfl⟩ := SearchHandler.serveOne_eq_some.mp hrun
    obtain ⟨m', hserves, hm'⟩ := hm.handle Engine.keepAll_newest hqueue hhandle
    have hfew₁ : h₁.engine.flushCount < l0Limit := hfew
    have hstore := hm'.represents.store
    simp only [hstore.settle_addL0Page hfew₁]
    exact ⟨m', hserves, ⟨⟨hstore.settle, hm'.represents.nextId, hm'.represents.sessions⟩,
      hm'.texts, hm'.hnsw, hm'.graph⟩, Engine.queue_settle h₁.engine⟩

end Searches

end

/-! ### Requests that are answered -/

namespace SearchRequest

/-- The bounds of the client are in order. -/
def InOrder : SearchRequest → Prop
  | tx request => request.InOrder
  | _ => True

/-- The keys that a request puts, or lets a transaction put. -/
def putKeys : SearchRequest → List Bytes
  | tx request => request.putKeys
  | _ => []

end SearchRequest

namespace SearchHandler

open Engine

variable {K : Set Bytes} {h : SearchHandler}

/-- The keys of the tries and of transactions, and indices without vectors. -/
structure Quiet (K : Set Bytes) (h : SearchHandler) : Prop where
  keys : KeysIn K h.toUmpHandler
  hnsw : h.hnsw = none
  graph : ∃ cs, h.graph = RelationGraph.ofCalls cs ∧ RelationGraph.addedEdges cs = []

/-- Hits are looked up, without a panic. -/
theorem hitRows_answers [Codec] (hK : Set.InjOn fnv1a K) (f64Bits : ℚ → ℕ) (ns : Option UInt64)
    (hits : List RankedHit) : AnswersIn K (UmpHandler.hitRows f64Bits ns hits) := by
  induction hits with
  | nil => exact Stays.pure _
  | cons hit hits ih =>
    refine Stays.bind (fun e he => ?_) fun _ => Stays.bind ih fun _ => Stays.pure _
    exact ⟨(getLocked_answers hK hit.key).keeps e he, fun err e' h => absurd h (by simp)⟩

variable {D : Type} [Ord D] {s : Scoring D} {f64Bits : ℚ → ℕ}

/-- The indices come back. -/
theorem Quiet.query_returns (hq : Quiet K h) (q : QueryPlanner.QuerySpec) (order : Iteration) :
    ∃ hits, h.indices.query s q order = some hits := by
  have hnone : h.indices.hnsw = none := hq.hnsw
  obtain ⟨cs, hgraph, -⟩ := hq.graph
  have hgraph' : h.indices.graph = RelationGraph.ofCalls cs := hgraph
  obtain ⟨lists, hlists⟩ : ∃ lists,
      (QueryPlanner.plan q).mapM (h.indices.runStep s q) = some lists := by
    refine exists_mapM_eq_some fun step _ => ?_
    cases step with
    | bm25 => exact ⟨_, rfl⟩
    | fuzzy => exact ⟨_, rfl⟩
    | hnsw =>
      rw [Indices.runStep, Indices.hnswHits, hnone]
      exact ⟨_, rfl⟩
    | graph =>
      rw [Indices.runStep, hgraph']
      exact graphStep_returns cs q.toQuerySpec
  exact ⟨_, by rw [Indices.query, Indices.allLists, hlists]; rfl⟩

/-- A search is answered. -/
theorem Quiet.search [Codec] (hK : Set.InjOn fnv1a K) (hq : Quiet K h) (ns : Option UInt64)
    (q : QueryPlanner.QuerySpec) (order : Iteration) :
    ∃ response h', h.search s f64Bits ns q order = some (response, h') ∧ Quiet K h' := by
  obtain ⟨hits, hhits⟩ := hq.query_returns (s := s) q order
  have hanswers : AnswersIn K (hitsResponse f64Bits ns (inNamespace ns hits)) :=
    Stays.bind (hitRows_answers hK f64Bits ns (inNamespace ns hits)) fun _ => Stays.pure _
  obtain ⟨response, e, hrun, he⟩ := hanswers.returns hq.keys.1
  refine ⟨response, { h with engine := e, graph := (h.indices.afterQuery q).graph }, ?_,
    ⟨he, hq.keys.2⟩, hq.hnsw, graph_afterQuery hq.graph⟩
  simp only [SearchHandler.search, hhits, hrun]

/-- **One request** is answered. -/
theorem Quiet.handle [Codec] (hK : Set.InjOn fnv1a K) (hq : Quiet K h) {request : SearchRequest}
    (horder : request.InOrder) (hkeys : ∀ k ∈ request.putKeys, k ∈ K) :
    ∃ reply h', h.handle s f64Bits request = some (reply, h') ∧ Quiet K h' := by
  cases hasks : request.asks with
  | none =>
    cases request with
    | tx request =>
      obtain ⟨reply, h₁, hrun, hk₁⟩ := handleTx_answers hK hq.keys horder hkeys
      refine ⟨reply, { h with toUmpHandler := h₁ }, ?_, hk₁, hq.hnsw, hq.graph⟩
      simp only [SearchHandler.handle, hrun, Option.map_some]
    | _ => exact absurd hasks (by simp [SearchRequest.asks])
  | some asked =>
    obtain ⟨ns, q, order⟩ := asked
    obtain ⟨response, h', hrun, hq'⟩ :
        ∃ response h', h.search s f64Bits ns q order = some (response, h') ∧ Quiet K h' :=
      hq.search hK ns q order
    refine ⟨.response response, h', ?_, hq'⟩
    rw [Searches.handle_of_asks hasks, hrun]
    rfl

end SearchHandler

end Uldb
