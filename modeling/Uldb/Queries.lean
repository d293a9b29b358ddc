/-
What a query answers (`IndexManager::query`, `index/manager.rs`).

The plan of a query names indices.  Each of them contributes a list of hits, cut at twice the
number of hits that the query wants, and the merge of the lists is cut at that number.

* `query_sound` — every hit is there for a reason: a live record with a word of the text, a key put
  that is near to the text, a vector that was accepted, or a node that edges lead to;
* `query_complete` — with room for all keys, every reason but the third is enough;
* `drop_queries` — a query changes no later answer.
-/
import Uldb.Indices

namespace Uldb

open BreadthFirst EditDistance Fallible FuzzyMatcher RelationGraph

/-! ### The lists of the indices -/

namespace Bm25Index

variable {F : Type} [Field F] [LinearOrder F]

/-- A smaller bound cuts the answer. -/
theorem search_keys_take (ln : F → F) (index : Bm25Index) (query : Bytes) {n N : ℕ} (hn : n ≤ N) :
    (index.search ln query n).map Bm25Result.key
      = ((index.search ln query N).map Bm25Result.key).take n := by
  rw [search, search]
  by_cases hdocs : index.docs = []
  · rw [if_pos (.inl hdocs), if_pos (.inl hdocs), List.map_nil, List.take_nil]
  by_cases hzero : n = 0
  · rw [if_pos (.inr hzero), hzero, List.take_zero, List.map_nil]
  have hsome : ∀ k : ℕ, k ≠ 0 → ¬(index.docs = [] ∨ k = 0) := fun k hk => not_or.mpr ⟨hdocs, hk⟩
  rw [if_neg (hsome n hzero), if_neg (hsome N (by omega))]
  by_cases hquery : tokenize query = []
  · rw [if_pos hquery, if_pos hquery, List.map_nil, List.take_nil]
  · rw [if_neg hquery, if_neg hquery]
    simp only [map_key_zipIdx, ← List.map_take, List.take_take, min_eq_left hn]

end Bm25Index

namespace HnswIndex

variable {D : Type} [Ord D] {g : Metric D} {h : HnswIndex}

/-- The results of a search are nodes, and the query has the dimension of the index. -/
theorem search_sound {query : Floats} {k : ℕ} {results : List (SearchResult D)}
    (hsearch : h.search g query k = some results) :
    ∀ r ∈ results, query.length = h.dim ∧ r.key ∈ h.nodes.map (·.key) := by
  rw [search, searchBeam] at hsearch
  split at hsearch
  · obtain rfl := Option.some_inj.mp hsearch
    simp
  · rename_i hok
    cases hnorm : g.normalize query with
    | none =>
      rw [hnorm] at hsearch
      obtain rfl := Option.some_inj.mp hsearch
      simp
    | some qv =>
      rw [hnorm] at hsearch
      obtain ⟨ep, _, hsearch⟩ := Option.bind_eq_some_iff.mp hsearch
      obtain ⟨ep', _, hsearch⟩ := Option.bind_eq_some_iff.mp hsearch
      obtain ⟨cands, _, hresults⟩ := Option.bind_eq_some_iff.mp hsearch
      intro r hr
      refine ⟨?_, ?_⟩
      · by_contra hdim
        exact hok (.inr (.inr hdim))
      · obtain ⟨c, _, hc⟩ := exists_of_mem_mapM hresults hr
        obtain ⟨n, hn, hc⟩ := Option.bind_eq_some_iff.mp hc
        rw [← Option.some_inj.mp hc]
        exact List.mem_map.mpr ⟨n, List.mem_of_getElem? hn, rfl⟩

end HnswIndex

/-- **The keyword index answers the live documents**, with room for all documents. -/
theorem mem_search_keys_iff {F : Type} [Field F] [LinearOrder F] [IsStrictOrderedRing F]
    {ln : F → F} (hln : ∀ x, 1 < x → 0 < ln x) {ws : List (Bytes × Option Bytes)}
    (hws : ∀ w ∈ ws, w.1 ≠ []) (query : Bytes) {topK : ℕ} (htop : (putKeys ws).length ≤ topK)
    {k : Bytes} :
    k ∈ ((ws.foldl IndexManager.onWrite .new).bm25.search ln query topK).map Bm25Result.key ↔
      Answers ws query k := by
  have htracks := Tracks.new.onWrites (m := IndexManager.new) ws
  rw [List.append_nil] at htracks
  have hkeys : ∀ d ∈ ws.foldl Document.add [], d.key ≠ [] := by
    intro d hd
    rcases Document.key_of_mem hd with hd | ⟨w, hw, hkey⟩
    · exact absurd hd (by simp)
    · rw [← hkey]
      exact hws w hw
  have hlen : (ws.foldl Document.add []).length = (putKeys ws).length := by
    rw [← (IndexManager.sizes_onWrites ws).1, htracks.keys, List.length_map]
  have hsearch := htracks.search_keys hln hkeys query (hlen.trans_le htop)
  rw [hsearch.mem_iff, answers_iff, List.mem_map]
  simp only [List.mem_filter, decide_eq_true_eq, Document.Live, and_assoc]

/-- A key that has a value was put. -/
theorem mem_putKeys_of_lastWrite {ws : List (Bytes × Option Bytes)} {k v : Bytes}
    (h : lastWrite ws k = some (some v)) : k ∈ putKeys ws := by
  induction ws using List.reverseRecOn with
  | nil => exact absurd h (by simp [lastWrite])
  | append_singleton ws w ih =>
    rw [putKeys, List.filterMap_append, List.mem_append, ← putKeys]
    rw [Document.lastWrite_concat] at h
    by_cases hkey : w.1 = k
    · rw [if_pos hkey, Option.some_inj] at h
      right
      simp [h, hkey]
    · rw [if_neg hkey] at h
      exact .inl (ih h)

/-- A symbol is near to a text: they share a trigram, at most four edits lead from one to the other,
and their lengths in bytes are at most four apart. -/
structure Near (text symbol : Bytes) : Prop where
  trigram : (trigramSet text ∩ trigramSet symbol).Nonempty
  edits : symbolDistance text symbol ≤ 4
  bytes : ¬FarApart (FuzzyMatcher.normalize text).length (FuzzyMatcher.normalize symbol).length 4

theorem near_iff {text symbol : Bytes} : Near text symbol ↔
    (trigramSet text ∩ trigramSet symbol).Nonempty ∧ boundedDist text symbol 4 ≤ 4 := by
  constructor
  · rintro ⟨htri, hedits, hbytes⟩
    rw [FarApart, not_or, not_lt, not_lt] at hbytes
    rw [boundedDist, levenshtein_eq hedits hbytes.2 hbytes.1]
    exact ⟨htri, hedits⟩
  · rintro ⟨htri, hdist⟩
    rw [boundedDist] at hdist
    refine ⟨htri, ?_, fun hfar => ?_⟩
    · rw [symbolDistance, ← levenshtein_eq_of_le hdist]
      exact hdist
    · rw [levenshtein_of_farApart hfar] at hdist
      omega

/-- A symbol that is found is near. -/
theorem near_of_mem_fuzzySearch {syms : List Bytes} {text symbol : Bytes} {topK : ℕ}
    (h : symbol ∈ (fuzzySearch syms text topK 4).map (·.1)) : symbol ∈ syms ∧ Near text symbol := by
  obtain ⟨⟨_, i⟩, hp, rfl⟩ := List.mem_map.mp h
  have hnearby := Ranking.sort_perm.mem_iff.mp (List.mem_of_mem_take hp)
  obtain ⟨hi, htri⟩ := mem_related.mp (mem_related_of_mem_nearby hnearby)
  have hdist := of_decide_eq_true (List.mem_filter.mp hnearby).2
  exact ⟨List.mem_of_getElem? hi, near_iff.mpr ⟨htri, hdist⟩⟩

/-- With room for all symbols, every near one is found. -/
theorem mem_fuzzySearch_of_near {syms : List Bytes} {text symbol : Bytes} {topK : ℕ}
    (htop : syms.length ≤ topK) (hsmall : topK < 2 ^ 62) (hmem : symbol ∈ syms)
    (h : Near text symbol) :
    symbol ∈ (fuzzySearch syms text topK 4).map (·.1) := by
  have hrelated := length_related_le syms text
  have hperm := @fuzzySearch_perm syms text topK 4
    ((hrelated.trans htop).trans (le_candidateLimit hsmall))
    ((length_nearby_le.trans hrelated).trans htop)
  obtain ⟨htri, hdist⟩ := near_iff.mp h
  obtain ⟨i, hi⟩ := List.getElem?_of_mem hmem
  refine List.mem_map.mpr ⟨(symbol, i), hperm.mem_iff.mpr ?_, rfl⟩
  exact List.mem_filter.mpr ⟨mem_related.mpr ⟨hi, htri⟩, decide_eq_true hdist⟩

/-! ### The hits of a query -/

namespace Indices

/-- Why an index may have a key among its hits. -/
def Supports {D : Type} (g : Metric D) (calls : List IndexCall) (q : QueryPlanner.QuerySpec)
    (key : Bytes) : QueryStep → Prop
  | .bm25 => Answers (writes calls) q.text.1 key
  | .fuzzy => key ∈ putKeys (writes calls) ∧ Near q.text.1 key
  | .hnsw => key ∈ vectorKeys g calls ∧ q.vector.length = dimension calls
  | .graph => q.text.1 ≠ [] ∧ ∃ node : Str, node.1 = key ∧ node ≠ q.text ∧
    ∃ n ≤ q.maxDepth, Walk (Along (edges calls) q.Searched) n q.text node

section

variable {D : Type} [Ord D] {s : Scoring D} {calls : List IndexCall} {m : Indices}
  {q : QueryPlanner.QuerySpec} {key : Bytes}

theorem flatten_someHits (hits : List RankedHit) : (someHits hits).flatten = hits := by
  rw [someHits]
  split
  · rename_i hnil
    rw [hnil]
    rfl
  · simp

/-- The keys of results, as hits. -/
theorem map_key_mapIdx {α : Type} (results : List α) (f : ℕ → α → RankedHit) (g : α → Bytes)
    (hf : ∀ i a, (f i a).key = g a) : (results.mapIdx f).map (·.key) = results.map g := by
  refine List.ext_getElem? fun i => ?_
  simp only [List.getElem?_map, List.getElem?_mapIdx, Option.map_map]
  cases results[i]? with
  | none => rfl
  | some a => exact congrArg some (hf i a)

omit [Ord D] in
/-- The keyword hits are the first keyword results. -/
theorem map_key_bm25Hits (s : Scoring D) (m : Indices) (q : QueryPlanner.QuerySpec) {N : ℕ}
    (hN : hitLimit q.topK ≤ N) : (m.bm25Hits s q).map (·.key)
      = ((m.bm25.search s.ln q.text.1 N).map Bm25Result.key).take (hitLimit q.topK) := by
  rw [bm25Hits, map_key_mapIdx _ _ Bm25Result.key fun _ _ => rfl]
  exact Bm25Index.search_keys_take s.ln m.bm25 q.text.1 hN

section

variable {ws : List (Bytes × Option Bytes)}

omit [Ord D] in
/-- **The keyword hits are live documents**, and, with room for all documents, all of them. -/
theorem bm25Hits_spec (hm : m.toIndexManager = ws.foldl IndexManager.onWrite .new)
    (hws : ∀ w ∈ ws, w.1 ≠ []) :
    (key ∈ (m.bm25Hits s q).map (·.key) → Answers ws q.text.1 key) ∧
      ((putKeys ws).length ≤ hitLimit q.topK → Answers ws q.text.1 key →
        key ∈ (m.bm25Hits s q).map (·.key)) := by
  refine ⟨fun hkey => ?_, fun hroom hkey => ?_⟩
  · rw [map_key_bm25Hits s m q (Nat.le_add_right (hitLimit q.topK) (putKeys ws).length), hm] at hkey
    exact (mem_search_keys_iff s.ln_pos hws q.text.1 (Nat.le_add_left _ _)).mp
      (List.mem_of_mem_take hkey)
  · rw [bm25Hits, map_key_mapIdx _ _ Bm25Result.key fun _ _ => rfl, hm]
    exact (mem_search_keys_iff s.ln_pos hws q.text.1 hroom).mpr hkey

/-- **The symbol hits are near keys that were put**, and, with room for all of these, all of
them. -/
theorem fuzzyHits_spec (hm : m.toIndexManager = ws.foldl IndexManager.onWrite .new) :
    (key ∈ (m.fuzzy.fuzzyHits q.text.1 q.topK).map (·.key) →
        key ∈ putKeys ws ∧ Near q.text.1 key) ∧
      ((putKeys ws).length ≤ hitLimit q.topK → hitLimit q.topK < 2 ^ 62 → key ∈ putKeys ws →
        Near q.text.1 key → key ∈ (m.fuzzy.fuzzyHits q.text.1 q.topK).map (·.key)) := by
  have hkeys : (m.fuzzy.fuzzyHits q.text.1 q.topK).map (·.key)
      = (fuzzySearch (putKeys ws) q.text.1 (hitLimit q.topK) 4).map (·.1) := by
    rw [fuzzyHits, map_key_mapIdx _ _ (·.symbol) fun _ _ => rfl, hm]
    exact map_symbol_query ws q.text.1 (hitLimit q.topK)
  rw [hkeys]
  exact ⟨near_of_mem_fuzzySearch, mem_fuzzySearch_of_near⟩

end

theorem keys_of_writes (calls : List IndexCall) : ∀ w ∈ writes calls, w.1 ≠ [] :=
  fun w hw => (texts_of_writes calls w hw).1.1

/-- **A step of a plan contributes keys that it has a reason for.** -/
theorem Reflects.supports (h : Reflects s.metric calls m) {step : QueryStep}
    {lists : List (List RankedHit)} (hstep : m.runStep s q step = some lists)
    (hkey : key ∈ lists.flatten.map (·.key)) : Supports s.metric calls q key step := by
  cases step with
  | bm25 =>
    obtain rfl := Option.some_inj.mp hstep
    rw [flatten_someHits] at hkey
    exact (bm25Hits_spec h.texts (keys_of_writes calls)).1 hkey
  | fuzzy =>
    obtain rfl := Option.some_inj.mp hstep
    rw [flatten_someHits] at hkey
    exact (fuzzyHits_spec h.texts).1 hkey
  | hnsw =>
    obtain ⟨hits, hhits, rfl⟩ := Option.map_eq_some_iff.mp hstep
    rw [flatten_someHits] at hkey
    rw [hnswHits] at hhits
    cases hhnsw : m.hnsw with
    | none =>
      rw [hhnsw] at hhits
      obtain rfl := Option.some_inj.mp hhits
      exact absurd hkey (by simp)
    | some t =>
      -- a query without a vector has no hits; any other one finds stored nodes only
      obtain ⟨_, hdim, hkeys⟩ := h.hnsw t hhnsw
      simp only [hhnsw] at hhits
      split at hhits
      · obtain rfl := Option.some_inj.mp hhits
        exact absurd hkey (by simp)
      · obtain ⟨results, hsearch, rfl⟩ := Option.map_eq_some_iff.mp hhits
        rw [map_key_mapIdx _ _ SearchResult.key fun _ _ => rfl] at hkey
        obtain ⟨r, hr, rfl⟩ := List.mem_map.mp hkey
        obtain ⟨hlen, hmem⟩ := HnswIndex.search_sound hsearch r hr
        exact ⟨hkeys ▸ hmem, hlen.trans hdim⟩
  | graph =>
    obtain ⟨cs, hgraph, hedges, _⟩ := h.graph
    rw [runStep, hgraph] at hstep
    by_cases htext : q.text.1 = []
    · rw [graphStep, if_pos htext] at hstep
      obtain rfl := Option.some_inj.mp hstep
      exact absurd hkey (by simp)
    · obtain ⟨lists', hrun, _, hkeys⟩ := graphStep_keys cs q.toQuerySpec htext
      obtain rfl := Option.some_inj.mp (hrun.symm.trans hstep)
      refine ⟨htext, ?_⟩
      rw [← hedges]
      exact (hkeys key).mp hkey

/-- **With room for all keys**, a step that is exact contributes every key that it has a reason
for. -/
theorem Reflects.contributes (h : Reflects s.metric calls m)
    (hroom : (putKeys (writes calls)).length ≤ q.topK) (hsmall : q.topK < 2 ^ 61)
    {step : QueryStep} (hne : step ≠ .hnsw)
    {lists : List (List RankedHit)} (hstep : m.runStep s q step = some lists)
    (hkey : Supports s.metric calls q key step) : key ∈ lists.flatten.map (·.key) := by
  have hlimit : hitLimit q.topK = q.topK * 2 := hitLimit_eq (by omega)
  have hfits : (putKeys (writes calls)).length ≤ hitLimit q.topK := by omega
  cases step with
  | bm25 =>
    obtain rfl := Option.some_inj.mp hstep
    rw [flatten_someHits]
    exact (bm25Hits_spec h.texts (keys_of_writes calls)).2 hfits hkey
  | fuzzy =>
    obtain rfl := Option.some_inj.mp hstep
    rw [flatten_someHits]
    exact (fuzzyHits_spec h.texts).2 hfits (by omega) hkey.1 hkey.2
  | hnsw => exact absurd rfl hne
  | graph =>
    obtain ⟨cs, hgraph, hedges, _⟩ := h.graph
    rw [runStep, hgraph] at hstep
    obtain ⟨htext, hnode⟩ := hkey
    obtain ⟨lists', hrun, _, hkeys⟩ := graphStep_keys cs q.toQuerySpec htext
    obtain rfl := Option.some_inj.mp (hrun.symm.trans hstep)
    rw [← hedges] at hnode
    exact (hkeys key).mpr hnode

/-- The keys of all lists, by the steps of the plan. -/
theorem mem_hitKeys_iff {lists : List (List RankedHit)} (hlists : m.allLists s q = some lists) :
    key ∈ hitKeys lists ↔ ∃ step ∈ QueryPlanner.plan q, ∃ ls, m.runStep s q step = some ls ∧
      key ∈ ls.flatten.map (·.key) := by
  obtain ⟨all, hall, rfl⟩ := Option.map_eq_some_iff.mp hlists
  rw [hitKeys, List.mem_dedup]
  simp only [List.mem_map, List.mem_flatten]
  constructor
  · rintro ⟨hit, ⟨list, ⟨ls, hls, hlist⟩, hhit⟩, rfl⟩
    obtain ⟨step, hstep, hrun⟩ := exists_of_mem_mapM hall hls
    exact ⟨step, hstep, ls, hrun, hit, ⟨list, hlist, hhit⟩, rfl⟩
  · rintro ⟨step, hstep, ls, hrun, hit, ⟨list, hlist, hhit⟩, rfl⟩
    obtain ⟨ls', hls', hrun'⟩ := exists_of_mem_of_mapM hall hstep
    obtain rfl := Option.some_inj.mp (hrun.symm.trans hrun')
    exact ⟨hit, ⟨list, ⟨ls, hls', hlist⟩, hhit⟩, rfl⟩

/-- The hits of a query are a merge of the lists of its plan. -/
theorem query_merged {order : Iteration} {hits : List RankedHit}
    (hquery : m.query s q order = some hits) :
    ∃ lists, m.allLists s q = some lists ∧ Merged lists q.topK hits := by
  obtain ⟨lists, hlists, rfl⟩ := Option.map_eq_some_iff.mp hquery
  refine ⟨lists, hlists, ?_⟩
  by_cases hnil : lists = []
  · subst hnil
    have hmerged := queryHits_merged q.topK (iterates_iff.mpr (List.Perm.refl _) : Iterates [] [])
    have hnone : queryHits q.topK [] = [] := by simp [queryHits, mergeRrf, Ranking.sort]
    rw [if_pos rfl, ← hnone]
    exact hmerged
  · rw [if_neg hnil]
    exact queryHits_merged q.topK (order.perm _)

/-- A query comes back. -/
theorem Reflects.query_returns (h : Reflects s.metric calls m) (q : QueryPlanner.QuerySpec)
    (order : Iteration) : ∃ hits, m.query s q order = some hits := by
  obtain ⟨lists, hlists⟩ := h.allLists_returns q
  exact ⟨_, by rw [Indices.query, hlists]; rfl⟩

/-- If the steps contribute keys that they have a reason for, so does the query. -/
theorem sound_of_steps {Reason : QueryStep → Bytes → Prop}
    (hsteps : ∀ step lists, m.runStep s q step = some lists →
      ∀ key ∈ lists.flatten.map (·.key), Reason step key) {order : Iteration}
    {hits : List RankedHit} (hquery : m.query s q order = some hits) :
    hits.length ≤ q.topK ∧ hits.map (·.rank) = List.range hits.length ∧
      (hits.map (·.key)).Nodup ∧ (hits.Pairwise fun a b => b.score ≤ a.score) ∧
      ∀ hit ∈ hits, ∃ step, QueryPlanner.Asked q step ∧ Reason step hit.key := by
  obtain ⟨lists, hlists, hmerged⟩ := query_merged hquery
  refine ⟨hmerged.length ▸ min_le_left _ _, hmerged.ranks, hmerged.nodup, hmerged.sorted,
    fun hit hhit => ?_⟩
  obtain ⟨step, hstep, ls, hls, hkey⟩ := (mem_hitKeys_iff hlists).mp (hmerged.score hit hhit).1
  exact ⟨step, QueryPlanner.mem_plan_iff.mp hstep, hsteps step ls hls _ hkey⟩

/-- With room for all keys that there can be a reason for, the query answers every key that a step
of its plan contributes. -/
theorem complete_of_steps {known : List Bytes}
    (hsteps : ∀ step lists, m.runStep s q step = some lists →
      ∀ key ∈ lists.flatten.map (·.key), key ∈ known) {order : Iteration}
    {hits : List RankedHit} (hquery : m.query s q order = some hits)
    (hroom : known.length ≤ q.topK) {step : QueryStep} (hasked : QueryPlanner.Asked q step)
    {ls : List (List RankedHit)} (hls : m.runStep s q step = some ls)
    (hkey : key ∈ ls.flatten.map (·.key)) : ∃ hit ∈ hits, hit.key = key := by
  obtain ⟨lists, hlists, hmerged⟩ := query_merged hquery
  have hsub : hitKeys lists ⊆ known := by
    intro key hkey
    obtain ⟨step, _, ls, hls, hkey⟩ := (mem_hitKeys_iff hlists).mp hkey
    exact hsteps step ls hls key hkey
  have hle : (hitKeys lists).length ≤ known.length :=
    ((List.nodup_dedup _).subperm hsub).length_le
  exact hmerged.exists_hit (hle.trans hroom)
    ((mem_hitKeys_iff hlists).mpr ⟨step, QueryPlanner.mem_plan_iff.mpr hasked, ls, hls, hkey⟩)

/-- **What a query may answer.**  After any calls, the hits of a query are no more than it wants,
have their places as ranks, descend, and name each key once.  Each key is there for a reason that
an index of the plan has. -/
theorem query_sound (hrun : calls.foldlM (call s) new = some m) {order : Iteration}
    {hits : List RankedHit} (hquery : m.query s q order = some hits) :
    hits.length ≤ q.topK ∧ hits.map (·.rank) = List.range hits.length ∧
      (hits.map (·.key)).Nodup ∧ (hits.Pairwise fun a b => b.score ≤ a.score) ∧
      ∀ hit ∈ hits, ∃ step, QueryPlanner.Asked q step ∧
        Supports s.metric calls q hit.key step :=
  sound_of_steps (fun _ _ hstep _ hkey => (reflects_run hrun).1.supports hstep hkey) hquery

/-- A node at the end of a walk is the target of an edge. -/
theorem mem_targets {spec : Uldb.QuerySpec} {es : List (Str × Str × Relation)} {n : ℕ} {a b : Str}
    (hwalk : Walk (Along es spec.Searched) n a b) (hne : b ≠ a) : b ∈ es.map (·.2.1) := by
  cases hwalk with
  | nil => exact absurd rfl hne
  | snoc _ hstep =>
    obtain ⟨relation, hedge, _⟩ := hstep
    exact List.mem_map.mpr ⟨_, hedge, rfl⟩

omit [Ord D] in
/-- A key that there is a reason for was put, came with a vector, or is the target of an edge. -/
theorem mem_of_supports {step : QueryStep} (h : Supports s.metric calls q key step) :
    key ∈ putKeys (writes calls) ++ (vectors calls).map Prod.fst
      ++ (edges calls).map fun e => e.2.1.1 := by
  rw [List.mem_append, List.mem_append]
  cases step with
  | bm25 =>
    obtain ⟨v, hlast, _⟩ := h
    exact .inl (.inl (mem_putKeys_of_lastWrite hlast))
  | fuzzy => exact .inl (.inl h.1)
  | hnsw => exact .inl (.inr ((List.filter_sublist.map _).mem h.1))
  | graph =>
    obtain ⟨_, node, rfl, hne, n, _, hwalk⟩ := h
    have hmem := List.mem_map_of_mem (f := Subtype.val) (mem_targets hwalk hne)
    rw [List.map_map] at hmem
    exact .inr hmem

/-- **What a query must answer** with room for all keys, and with a limit that does not wrap:
every key that an index of its plan, other than that of the vectors, has a reason for. -/
theorem query_complete (hrun : calls.foldlM (call s) new = some m) {order : Iteration}
    {hits : List RankedHit} (hquery : m.query s q order = some hits)
    (hroom : (putKeys (writes calls)).length + (vectors calls).length + (edges calls).length
      ≤ q.topK) (hsmall : q.topK < 2 ^ 61) {step : QueryStep}
    (hasked : QueryPlanner.Asked q step) (hne : step ≠ .hnsw)
    (hkey : Supports s.metric calls q key step) : ∃ hit ∈ hits, hit.key = key := by
  have h := (reflects_run hrun).1
  obtain ⟨ls, hls⟩ := h.runStep_returns q step
  refine complete_of_steps (fun _ _ hstep _ hkey => mem_of_supports (h.supports hstep hkey)) hquery
    ?_ hasked hls (h.contributes (by omega) hsmall hne hls hkey)
  simpa only [List.length_append, List.length_map] using hroom

end

/-- The order of the keys. -/
def ascending : Iteration := ⟨fun scores => scores.toList, fun _ => List.Perm.refl _⟩

/-- The text `aB`. -/
def textAB : Str := ⟨[97, 66], rfl⟩

/-- The key `aC`. -/
def keyAC : TextKey := ⟨[97, 67], List.cons_ne_nil _ _, rfl⟩

/-- Something for each index: two records, a vector, and an edge from `aB` to `n`. -/
def fourIndices : List IndexCall :=
  [.put keyAC (.ascii 118), .put keyK textAB, .putVector [107] [1],
    .addEdge textAB (.ascii 110) "calls"]

/-- A query for `aB` that asks all indices. -/
def fullQuery : QueryPlanner.QuerySpec := ⟨⟨textAB, 1, ["calls"]⟩, [1], 9⟩

theorem exists_hits_fourIndices : QueryPlanner.plan fullQuery = [.graph, .fuzzy, .bm25, .hnsw] ∧
    ∃ m hits, fourIndices.foldlM (call flatScoring) new = some m ∧
      m.query flatScoring fullQuery ascending = some hits := by
  have hsome : (fourIndices.foldlM (call flatScoring) new).isSome = true := by decide +kernel
  obtain ⟨m, hrun⟩ := Option.isSome_iff_exists.mp hsome
  obtain ⟨hits, hquery⟩ := (reflects_run hrun).1.query_returns fullQuery ascending
  exact ⟨by decide +kernel, m, hits, hrun, hquery⟩

theorem query_sound_fourIndices :
    QueryPlanner.plan fullQuery = [.graph, .fuzzy, .bm25, .hnsw] ∧
    ∃ m hits, fourIndices.foldlM (call flatScoring) new = some m ∧
      m.query flatScoring fullQuery ascending = some hits ∧
      ∀ hit ∈ hits, ∃ step, QueryPlanner.Asked fullQuery step ∧
        Supports flatScoring.metric fourIndices fullQuery hit.key step := by
  obtain ⟨hplan, m, hits, hrun, hquery⟩ := exists_hits_fourIndices
  exact ⟨hplan, m, hits, hrun, hquery, (query_sound hrun hquery).2.2.2.2⟩

/-- The record `k` is found by its word, the key `aC` by its letters, and the node `n` by the
edge. -/
theorem query_complete_fourIndices :
    ∃ m hits, fourIndices.foldlM (call flatScoring) new = some m ∧
      m.query flatScoring fullQuery ascending = some hits ∧ (∃ hit ∈ hits, hit.key = [107]) ∧
      (∃ hit ∈ hits, hit.key = [97, 67]) ∧ ∃ hit ∈ hits, hit.key = [110] := by
  obtain ⟨hplan, m, hits, hrun, hquery⟩ := exists_hits_fourIndices
  have hasked : ∀ step, QueryPlanner.Asked fullQuery step := by
    intro step
    rw [← QueryPlanner.mem_plan_iff, hplan]
    cases step <;> decide
  have hcomplete := fun step key hne hkey =>
    @query_complete _ _ _ _ _ _ key hrun _ _ hquery (by decide) (by decide) step (hasked step)
      hne hkey
  refine ⟨m, hits, hrun, hquery, hcomplete .bm25 _ (by decide) ?_,
    hcomplete .fuzzy _ (by decide) ?_, hcomplete .graph _ (by decide) ?_⟩
  · exact ⟨[97, 66], by decide, [98], by decide +kernel, .inr (by decide +kernel)⟩
  · exact ⟨by decide, near_iff.mpr ⟨by decide +kernel, by decide +kernel⟩⟩
  · refine ⟨by decide, .ascii 110, rfl, by decide, 1, le_refl 1, .snoc (.nil _) ⟨.calls, ?_, ?_⟩⟩
    · decide
    · intro r hr
      exact (Option.some_inj.mp hr).symm

end Indices

/-! ### Queries between other calls -/

namespace RelationGraph

/-- The graphs differ in their arrays at most. -/
structure SameLists (g g' : RelationGraph) : Prop where
  valid : g.Valid
  valid' : g'.Valid
  build : g.build = g'.build

/-- Arrays that count as built are those of the lists. -/
theorem Valid.ensureBuilt_eq {g : RelationGraph} (hg : g.Valid) : g.ensureBuilt = g.build := by
  rw [RelationGraph.ensureBuilt]
  by_cases hb : g.built = true
  · obtain ⟨hfwd, hbwd⟩ := hg.arrays hb
    rw [if_pos hb, RelationGraph.build, ← hfwd, ← hbwd, ← hb]
  · rw [if_neg hb]

variable {g g' : RelationGraph}

theorem SameLists.ensureBuilt (h : SameLists g g') : SameLists g.ensureBuilt g' := by
  refine ⟨h.valid.ensureBuilt, h.valid', ?_⟩
  rw [h.valid.ensureBuilt_eq, ← h.build]
  rfl

/-- An edge is added to the lists. -/
theorem build_addEdge (g : RelationGraph) (src dst : Str) (relation : Relation) :
    (g.addEdge src dst relation).build = (g.build.addEdge src dst relation).build := by
  have hnode : ∀ (g : RelationGraph) (key : Str), (g.addNode key).2 = (g.build.addNode key).2 ∧
      (g.addNode key).1.build = (g.build.addNode key).1.build := by
    intro g key
    rw [RelationGraph.addNode, RelationGraph.addNode]
    have hsame : g.build.keyToIdx = g.keyToIdx := rfl
    rw [hsame]
    cases g.keyToIdx[key.1]? with
    | none => exact ⟨rfl, rfl⟩
    | some idx => exact ⟨rfl, rfl⟩
  have hpush : ∀ (g g' : RelationGraph) (s d : ℕ), g.build = g'.build →
      (g.pushEdge s d relation).build = (g'.pushEdge s d relation).build := by
    intro g g' s d heq
    show (g.build.pushEdge s d relation).build = (g'.build.pushEdge s d relation).build
    rw [heq]
  obtain ⟨hs, hsrc⟩ := hnode g src
  obtain ⟨hd, hdst⟩ := hnode (g.addNode src).1 dst
  obtain ⟨hd', hdst'⟩ := hnode (g.build.addNode src).1 dst
  rw [RelationGraph.addEdge, RelationGraph.addEdge]
  show ((((g.addNode src).1.addNode dst).1).pushEdge (g.addNode src).2
      ((g.addNode src).1.addNode dst).2 relation).build
    = ((((g.build.addNode src).1.addNode dst).1).pushEdge (g.build.addNode src).2
      ((g.build.addNode src).1.addNode dst).2 relation).build
  rw [hs, hd, hd', hsrc]
  exact hpush _ _ _ _ (hdst.trans (hsrc ▸ hdst'.symm))

theorem SameLists.addEdge (h : SameLists g g') (src dst : Str) (relation : Relation) :
    SameLists (g.addEdge src dst relation) (g'.addEdge src dst relation) := by
  refine ⟨h.valid.addEdge src dst relation, h.valid'.addEdge src dst relation, ?_⟩
  rw [build_addEdge g, build_addEdge g', h.build]

/-- A search builds the arrays first. -/
theorem SameLists.bfs (h : SameLists g g') (start : Str) (direction : String) (maxDepth : ℕ)
    (relationFilter : Option Relation) :
    g.bfs start direction maxDepth relationFilter
      = g'.bfs start direction maxDepth relationFilter := by
  rw [RelationGraph.bfs, RelationGraph.bfs, h.valid.ensureBuilt_eq, h.valid'.ensureBuilt_eq, h.build]

end RelationGraph

namespace Indices

/-- The call is no query. -/
def isUpdate : IndexCall → Bool
  | .query _ _ => false
  | _ => true

/-- The indices differ in the arrays of the graph at most. -/
structure Alike (m m' : Indices) : Prop where
  texts : m.toIndexManager = m'.toIndexManager
  hnsw : m.hnsw = m'.hnsw
  hnswDim : m.hnswDim = m'.hnswDim
  graph : SameLists m.graph m'.graph

section

variable {D : Type} [Ord D] {s : Scoring D} {calls : List IndexCall} {m m' t : Indices}

omit [Ord D] in
/-- A query changes the arrays at most. -/
theorem Alike.afterQuery (h : Alike m m') (q : QueryPlanner.QuerySpec) :
    Alike (m.afterQuery q) m' := by
  rw [Indices.afterQuery]
  split
  · exact ⟨h.texts, h.hnsw, h.hnswDim, h.graph.ensureBuilt⟩
  · exact h

/-- The same answers. -/
theorem Alike.query (h : Alike m m') (q : QueryPlanner.QuerySpec) (order : Iteration) :
    m.query s q order = m'.query s q order := by
  have hstep : ∀ step, m.runStep s q step = m'.runStep s q step := by
    intro step
    cases step with
    | bm25 => rw [runStep, runStep, bm25Hits, bm25Hits, h.texts]
    | fuzzy => rw [runStep, runStep, h.texts]
    | hnsw => rw [runStep, runStep, hnswHits, hnswHits, h.hnsw]
    | graph => rw [runStep, runStep, graphStep, graphStep, h.graph.bfs]
  have hall : m.runStep s q = m'.runStep s q := funext hstep
  rw [Indices.query, Indices.query, allLists, allLists, hall]

/-- The same update of both. -/
theorem Alike.update (h : Alike m m') {c : IndexCall} (hc : isUpdate c = true)
    (hcall : m.call s c = some t) : ∃ t', m'.call s c = some t' ∧ Alike t t' := by
  cases c with
  | put key value =>
    obtain rfl := Option.some_inj.mp hcall
    refine ⟨_, rfl, ?_, h.hnsw, h.hnswDim, h.graph⟩
    show m.toIndexManager.onPut key.1 value.1 = m'.toIndexManager.onPut key.1 value.1
    rw [h.texts]
  | delete key =>
    obtain rfl := Option.some_inj.mp hcall
    refine ⟨_, rfl, ?_, h.hnsw, h.hnswDim, h.graph⟩
    show m.toIndexManager.onDelete key.1 = m'.toIndexManager.onDelete key.1
    rw [h.texts]
  | putVector key vector =>
    have hensure : m'.ensureHnsw vector.length = m.ensureHnsw vector.length := by
      rw [ensureHnsw, ensureHnsw, h.hnsw, h.hnswDim]
    rw [call, onPutVector] at hcall
    obtain ⟨⟨u, dim⟩, hu, hcall⟩ := Option.bind_eq_some_iff.mp hcall
    obtain ⟨result, hresult, hcall⟩ := Option.bind_eq_some_iff.mp hcall
    obtain rfl := Option.some_inj.mp hcall
    refine ⟨{ m' with hnsw := some (result.toOption.getD u), hnswDim := dim }, ?_, h.texts, rfl, rfl,
      h.graph⟩
    rw [call, onPutVector, hensure, hu]
    simp only [Option.bind_eq_bind, Option.bind_some, hresult]
    rfl
  | addEdge src dst relation =>
    obtain rfl := Option.some_inj.mp hcall
    refine ⟨_, rfl, ?_⟩
    rw [onAddEdge, onAddEdge]
    cases Relation.fromStr relation with
    | none => exact h
    | some rel => exact ⟨h.texts, h.hnsw, h.hnswDim, h.graph.addEdge src dst rel⟩
  | query q order => exact absurd hc (by simp [isUpdate])

/-- **Queries change no later answer.**  A run without its queries comes back too, and then every
query has the same answer. -/
theorem drop_queries (hrun : calls.foldlM (call s) new = some m) :
    ∃ m', (calls.filter isUpdate).foldlM (call s) new = some m' ∧
      ∀ q order, m.query s q order = m'.query s q order := by
  obtain ⟨m', hrun', halike⟩ := foldlM_history
    (P := fun cs t => ∃ t', (cs.filter isUpdate).foldlM (call s) new = some t' ∧ Alike t t')
    ⟨new, rfl, rfl, rfl, rfl, valid_new, valid_new, rfl⟩
    (fun cs c t t₁ _ ⟨t', hrun', halike⟩ hcall => by
      rw [List.filter_append]
      by_cases hc : isUpdate c = true
      · obtain ⟨t₁', hcall', halike'⟩ := halike.update hc hcall
        refine ⟨t₁', ?_, halike'⟩
        rw [List.filter_cons_of_pos hc]
        exact foldlM_append_eq_some.mpr ⟨t', hrun', foldlM_cons_eq_some.mpr ⟨t₁', hcall', rfl⟩⟩
      · rw [List.filter_cons_of_neg hc, List.filter_nil, List.append_nil]
        cases c with
        | query q order =>
          obtain ⟨_, _, rfl⟩ := Option.map_eq_some_iff.mp hcall
          exact ⟨t', hrun', halike.afterQuery q⟩
        | put key value => exact absurd rfl hc
        | delete key => exact absurd rfl hc
        | putVector key vector => exact absurd rfl hc
        | addEdge src dst relation => exact absurd rfl hc) hrun
  exact ⟨m', hrun', fun q order => halike.query q order⟩

end

/-- An edge, a query that follows it, and another edge. -/
def queryBetweenEdges : List IndexCall :=
  [.addEdge textAB (.ascii 110) "calls", .query fullQuery ascending,
    .addEdge (.ascii 110) (.ascii 109) "calls"]

/-- The query has laid out the arrays of the first edge, and the run without it has not. -/
theorem drop_queries_queryBetweenEdges :
    ∃ m m', queryBetweenEdges.foldlM (call flatScoring) new = some m ∧
      (queryBetweenEdges.filter isUpdate).foldlM (call flatScoring) new = some m' ∧
      m.graph.fwd.ptr.length = 3 ∧ m'.graph.fwd.ptr.length = 0 ∧
      ∀ q order, m.query flatScoring q order = m'.query flatScoring q order := by
  let edge : Indices := new.onAddEdge textAB (.ascii 110) "calls"
  have hedge : [IndexCall.addEdge textAB (.ascii 110) "calls"].foldlM (call flatScoring) new
      = some edge := rfl
  obtain ⟨hits, hquery⟩ := (reflects_run hedge).1.query_returns fullQuery ascending
  have hrun : queryBetweenEdges.foldlM (call flatScoring) new
      = some ((edge.afterQuery fullQuery).onAddEdge (.ascii 110) (.ascii 109) "calls") := by
    have hcall : call flatScoring edge (.query fullQuery ascending)
        = some (edge.afterQuery fullQuery) := by
      rw [call, hquery]
      rfl
    exact foldlM_cons_eq_some.mpr ⟨edge, rfl, foldlM_cons_eq_some.mpr ⟨_, hcall, rfl⟩⟩
  obtain ⟨m', hrun', hsame⟩ := drop_queries hrun
  refine ⟨_, m', hrun, hrun', by decide +kernel, ?_, hsame⟩
  obtain rfl := Option.some_inj.mp hrun'
  decide +kernel

end Indices

end Uldb
