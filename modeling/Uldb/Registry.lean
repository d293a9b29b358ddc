/-
The list of namespaces (`server.rs`).

NS_CREATE stores a record under `__ns__::` and the url of the namespace, which NS_LIST scans.
The records of clients are stored behind the eight zero bytes of namespace 0, so that they do
not mix.  But `__ns__::` has eight bytes as well, which are those of a number.

* `Serves.registered` — what a request does to the records behind `__ns__::`;
* `nsList_created` — NS_LIST tells the namespaces that were created, as long as nobody deletes
  the namespace of that number;
* `scan_eraseAll_registry` — whose deletion leaves at most the namespace without an url.
-/
import Uldb.MapServer

namespace Uldb

open Fallible UmpHandler BigEndian

/-- The number with the bytes of `__ns__::`. -/
def registryId : UInt64 := 0x5F5F6E735F5F3A3A

theorem be_registryId : be 8 registryId.toNat = nsPrefix := by decide +kernel

/-- A key of the list of namespaces. -/
theorem scopeKey_registryId (rest : Bytes) : scopeKey registryId.toNat rest = nsPrefix ++ rest := by
  rw [scopeKey, be_registryId]

/-- Keys of different namespaces are different. -/
theorem scopeKey_ne {m n : UInt64} (hne : m ≠ n) (k k' : Bytes) :
    scopeKey m.toNat k ≠ scopeKey n.toNat k' := by
  intro heq
  obtain ⟨hparts, -⟩ := List.append_inj heq (by rw [be_length, be_length])
  have hm : m.toNat < 256 ^ 8 := m.toNat_lt
  have hn : n.toNat < 256 ^ 8 := n.toNat_lt
  refine hne (UInt64.toNat_inj.mp ?_)
  rw [← toNat_be hm, ← toNat_be hn, hparts]

/-- A record of a client is not in the list. -/
theorem scopeKey_zero_ne (k rest : Bytes) : scopeKey 0 k ≠ nsPrefix ++ rest := by
  have hne : (0 : UInt64) ≠ registryId := by decide
  rw [← scopeKey_registryId]
  exact scopeKey_ne hne k rest

/-- What a request and its response tell about the namespaces. -/
def registered (kv : Kv) : Request × Response → Kv
  | (.nsCreate repoUrl commitSha description, response) =>
    if response = resultEndResponse 1 0 then
      kv.insert (nsKey repoUrl) (nsValue commitSha description)
    else kv
  | _ => kv

/-- The namespaces that were created, by key. -/
def registry (served : List (Request × Response)) : Kv :=
  served.foldl registered (∅ : Std.TreeMap Bytes Bytes)

theorem errorResponse_ne (code : UInt8) (msg : String) (total elapsedMs : ℕ) :
    errorResponse code msg ≠ resultEndResponse total elapsedMs := by
  intro heq
  rw [errorResponse, resultEndResponse, Response.single.injEq] at heq
  exact absurd heq.1 (by simp)

theorem registered_of_ne {kv : Kv} {request : Request} {response : Response}
    (h : response ≠ resultEndResponse 1 0) : registered kv (request, response) = kv := by
  rw [registered.eq_def]
  split
  · rename_i heq
    rw [Prod.mk.injEq] at heq
    rw [if_neg]
    rw [← heq.2]
    exact h
  · rfl

/-! ### One request -/

/-- A key that is not written keeps its value. -/
theorem Kv.getElem?_writeAll_of_ne {kv : Kv} {ws : List (Bytes × Option Bytes)} {k : Bytes}
    (h : ∀ w ∈ ws, w.1 ≠ k) : (kv.writeAll ws)[k]? = kv[k]? := by
  rw [Kv.getElem?_writeAll, lastWrite_eq_none.mpr h]
  rfl

theorem Kv.getElem?_eraseAll_of_notMem {kv : Kv} {keys : List Bytes} {k : Bytes} (h : k ∉ keys) :
    (kv.eraseAll keys)[k]? = kv[k]? := by
  rw [Kv.getElem?_eraseAll, if_neg h]

theorem Kv.inRange_of_mem_keysIn {kv : Kv} {start stop k : Bytes} (h : k ∈ kv.keysIn start stop) :
    InRange start stop k := by
  obtain ⟨⟨k', v⟩, hmem, rfl⟩ := List.mem_map.mp h
  exact (Kv.mem_scan.mp hmem).1

/-- The keys of a range of namespace 0 are not in the list. -/
theorem notMem_keysIn {kv : Kv} {start stop rest : Bytes} :
    nsPrefix ++ rest ∉ kv.keysIn (scopeKey 0 start) (scopeKey 0 stop) := by
  intro hmem
  obtain ⟨k, hk, -⟩ := exists_scopeKey (Kv.inRange_of_mem_keysIn hmem)
  exact scopeKey_zero_ne k rest hk.symm

/-- **One request**: the records behind `__ns__::` are changed by NS_CREATE alone, unless the
namespace of their bytes is deleted. -/
theorem Serves.registered {kv : Kv} {faults faults' : List WriteFault}
    {ws : List (Bytes × Option Bytes)} {request : Request} {response : Response}
    (h : Serves kv faults request response ws faults')
    (hkept : request ≠ .nsDelete registryId) (rest : Bytes) :
    (kv.writeAll ws)[nsPrefix ++ rest]?
      = (registered kv (request, response))[nsPrefix ++ rest]? := by
  cases h with
  | view h =>
    cases request with
    | nsCreate repoUrl commitSha description => exact absurd h (by simp [Request.view])
    | _ => rfl
  | done h =>
    cases request with
    | put key value =>
      obtain ⟨rfl, -⟩ := Prod.mk.inj (Option.some_inj.mp h)
      refine Kv.getElem?_writeAll_of_ne fun w hw => ?_
      rw [List.mem_singleton.mp hw]
      exact scopeKey_zero_ne _ _
    | delete key =>
      obtain ⟨rfl, -⟩ := Prod.mk.inj (Option.some_inj.mp h)
      refine Kv.getElem?_writeAll_of_ne fun w hw => ?_
      rw [List.mem_singleton.mp hw]
      exact scopeKey_zero_ne _ _
    | putBatch records =>
      obtain ⟨rfl, -⟩ := Prod.mk.inj (Option.some_inj.mp h)
      refine Kv.getElem?_writeAll_of_ne fun w hw => ?_
      rw [scopedRecords, List.map_map] at hw
      obtain ⟨record, -, rfl⟩ := List.mem_map.mp hw
      exact scopeKey_zero_ne _ _
    | compact =>
      obtain ⟨rfl, -⟩ := Prod.mk.inj (Option.some_inj.mp h)
      rfl
    | nsCreate repoUrl commitSha description =>
      obtain ⟨rfl, hresponse⟩ := Prod.mk.inj (Option.some_inj.mp h)
      obtain ⟨rfl, -⟩ := Prod.mk.inj hresponse
      rw [Uldb.registered, if_pos rfl]
      rfl
    | _ => exact absurd h (by simp [Request.update])
  | failed h fault rest' =>
    -- nothing is written, and the answer is not the one that NS_CREATE gives
    rw [registered_of_ne (errorResponse_ne _ _ _ _)]
    rfl
  | rangeDelete hkeys =>
    rw [hkeys]
    exact Kv.getElem?_eraseAll_of_notMem notMem_keysIn
  | @rangeDeleteFailed start stop deleted later key hkeys fault rest' =>
    refine Kv.getElem?_eraseAll_of_notMem fun hmem => ?_
    have hin := List.mem_append_left (key :: later) hmem
    rw [← hkeys] at hin
    exact notMem_keysIn hin
  | @nsDelete namespaceId keys deleted hkeys hdeleted met hmet rest' =>
    refine Kv.getElem?_eraseAll_of_notMem fun hmem => ?_
    have hin := hdeleted.subset hmem
    rw [hkeys] at hin
    obtain ⟨k, hk, -⟩ := inRange_nsScanRange.mp (Kv.inRange_of_mem_keysIn hin)
    rw [← scopeKey_registryId] at hk
    -- the key is one of the namespace that is deleted, and this is not the registry's
    have hid : registryId ≠ namespaceId := by
      rintro rfl
      exact hkept rfl
    exact scopeKey_ne hid rest k hk

/-! ### Runs -/

/-- What a request tells is about the keys of its own url. -/
theorem registered_congr {kv kv' : Kv} {rest : Bytes}
    (h : kv[nsPrefix ++ rest]? = kv'[nsPrefix ++ rest]?) (served : Request × Response) :
    (registered kv served)[nsPrefix ++ rest]? = (registered kv' served)[nsPrefix ++ rest]? := by
  rw [registered.eq_def, registered.eq_def]
  split
  · rename_i response
    by_cases hdone : response = resultEndResponse 1 0
    · rw [if_pos hdone, if_pos hdone, Std.TreeMap.getElem?_insert, Std.TreeMap.getElem?_insert, h]
    · rw [if_neg hdone, if_neg hdone]
      exact h
  · exact h

theorem foldl_registered_congr {kv kv' : Kv} {rest : Bytes}
    (h : kv[nsPrefix ++ rest]? = kv'[nsPrefix ++ rest]?) (served : List (Request × Response)) :
    (served.foldl registered kv)[nsPrefix ++ rest]?
      = (served.foldl registered kv')[nsPrefix ++ rest]? := by
  induction served generalizing kv kv' with
  | nil => exact h
  | cons one served ih => exact ih (registered_congr h one)

/-- **Requests one after the other.** -/
theorem ServesAll.registered {m m' : Kv × List WriteFault} {requests : List Request}
    {responses : List Response} (h : ServesAll m requests responses m')
    (hkept : ∀ request ∈ requests, request ≠ .nsDelete registryId) (rest : Bytes) :
    m'.1[nsPrefix ++ rest]?
      = ((requests.zip responses).foldl registered m.1)[nsPrefix ++ rest]? := by
  induction h with
  | nil m => rfl
  | cons hone hrest ih =>
    obtain ⟨ws, hone, hwritten⟩ := hone
    have hfirst := hone.registered (hkept _ List.mem_cons_self) rest
    rw [← hwritten] at hfirst
    rw [ih fun request hrequest => hkept request (List.mem_cons_of_mem _ hrequest)]
    exact foldl_registered_congr hfirst _

/-- The keys of the list are urls. -/
theorem exists_nsKey_of_registry {served : List (Request × Response)} {k v : Bytes}
    (h : (registry served)[k]? = some v) : ∃ repoUrl : Str, k = nsKey repoUrl := by
  induction served using List.reverseRecOn generalizing v with
  | nil => exact absurd h (by simp [registry])
  | append_singleton served one ih =>
    rw [registry, List.foldl_append, List.foldl_cons, List.foldl_nil, registered.eq_def] at h
    split at h
    · rename_i repoUrl commitSha description response
      by_cases hdone : response = resultEndResponse 1 0
      · rw [if_pos hdone, Std.TreeMap.getElem?_insert] at h
        by_cases hk : compare (nsKey repoUrl) k = .eq
        · exact ⟨repoUrl, (Std.LawfulEqCmp.eq_of_compare hk).symm⟩
        · rw [if_neg hk] at h
          exact ih h
      · rw [if_neg hdone] at h
        exact ih h
    · exact ih h

/-- The scan of NS_LIST reaches every url. -/
theorem inRange_nsKey (repoUrl : Str) : InRange nsPrefix (nsPrefix ++ [0xFF]) (nsKey repoUrl) := by
  have hcovers : AgentStore.Covers nsPrefix (nsPrefix ++ repoUrl.1) := by
    refine AgentStore.covers_append.mpr fun hhead => ?_
    obtain ⟨url, hvalid⟩ := repoUrl
    cases url with
    | nil => exact absurd hhead (by simp)
    | cons b rest =>
      obtain rfl : b = 0xFF := by simpa using hhead
      rw [AgentStore.validUtf8_max] at hvalid
      exact absurd hvalid (by simp)
  exact hcovers

theorem scan_eq_registry {kv : Kv} {served : List (Request × Response)}
    (h : ∀ rest, kv[nsPrefix ++ rest]? = (registry served)[nsPrefix ++ rest]?) :
    kv.scan nsPrefix (nsPrefix ++ [0xFF]) = (registry served).toList := by
  refine AgentStore.eq_of_ascending (Kv.ascending_scan _ _ _) Std.TreeMap.ordered_keys_toList
    fun pair => ?_
  obtain ⟨k, v⟩ := pair
  rw [Kv.mem_scan, Std.TreeMap.mem_toList_iff_getElem?_eq_some]
  constructor
  · rintro ⟨hin, hk⟩
    obtain ⟨⟨rest, rfl⟩, -⟩ := AgentStore.covers_iff.mp hin
    rw [← h rest]
    exact hk
  · intro hk
    obtain ⟨repoUrl, rfl⟩ := exists_nsKey_of_registry hk
    exact ⟨inRange_nsKey repoUrl, (h repoUrl.1).trans hk⟩

/-- **NS_LIST tells the namespaces that were created**, each with what was stored last, in the
order of their urls, after any requests that are all answered and that do not delete the namespace
with the bytes of `__ns__::`. -/
theorem nsList_created [Codec] {t : ℕ} {outcomes : List (Option WriteFault)} {e₀ e : Engine}
    (hopen : Engine.open t ∅ none outcomes = .ok e₀) {requests : List Request}
    {responses : List Response}
    (hrun : serveAll CompactionManager.addL0Page e₀ requests = some (responses, e))
    (hfew : e.flushCount < l0Limit)
    (hkept : ∀ request ∈ requests, request ≠ .nsDelete registryId) :
    handle .nsList e = .ok (nsListResponse (registry (requests.zip responses)).toList) e := by
  obtain ⟨h₀, hqueue₀⟩ := Holds.opened hopen
  obtain ⟨s, hserves, h, hqueue⟩ := h₀.serveAll hqueue₀ hrun hfew
  have hscan : e.scan nsPrefix (nsPrefix ++ [0xFF])
      = .ok (registry (requests.zip responses)).toList := by
    rw [h.scan Engine.keepAll_newest hqueue (.inl (by decide)),
      scan_eq_registry (hserves.registered hkept)]
  show handleNsList e = _
  refine bind_eq_ok.mpr ⟨_, e, ?_, rfl⟩
  rw [scanLocked, hscan]

/-- **The namespace with the bytes of `__ns__::`** has the records of the list: its deletion
leaves at most the namespace without an url. -/
theorem scan_eraseAll_registry (kv : Kv) :
    ∀ pair ∈ (kv.eraseAll
        (kv.keysIn (nsScanRange registryId).1 (nsScanRange registryId).2)).scan nsPrefix
          (nsPrefix ++ [0xFF]), pair.1 = nsPrefix := by
  rintro ⟨k, v⟩ hmem
  obtain ⟨hin, hk⟩ := Kv.mem_scan.mp hmem
  obtain ⟨⟨rest, rfl⟩, hmax⟩ := AgentStore.covers_iff.mp hin
  by_contra hne
  have hinner : Inner rest := by
    refine ⟨?_, fun hhead => hmax ?_⟩
    · rintro rfl
      exact hne (List.append_nil nsPrefix)
    · obtain ⟨tail, rfl⟩ := List.head?_eq_some_iff.mp hhead
      exact ⟨tail, by rw [List.append_assoc, List.singleton_append]⟩
  have hrange : InRange (nsScanRange registryId).1 (nsScanRange registryId).2 (nsPrefix ++ rest) :=
    inRange_nsScanRange.mpr ⟨rest, (scopeKey_registryId rest).symm, hinner⟩
  rw [Kv.getElem?_eraseAll] at hk
  by_cases herased : nsPrefix ++ rest ∈
      kv.keysIn (nsScanRange registryId).1 (nsScanRange registryId).2
  · rw [if_pos herased] at hk
    exact absurd hk (by simp)
  · rw [if_neg herased] at hk
    exact herased (List.mem_map.mpr ⟨(nsPrefix ++ rest, v), Kv.mem_scan.mpr ⟨hrange, hk⟩, rfl⟩)

theorem nsList_created_putListDelete : ∃ e₀ responses e,
    @Engine.open storedCodec 1 ∅ none diskFull = .ok e₀ ∧
      @serveAll storedCodec (@CompactionManager.addL0Page storedCodec) e₀ putListDelete
        = some (responses, e) ∧
      @handle storedCodec .nsList e
        = .ok (nsListResponse (registry (putListDelete.zip responses)).toList) e := by
  obtain ⟨⟨responses, e⟩, hserved, heq⟩ := Option.map_eq_some_iff.mp servedRun_putListDelete
  obtain ⟨e₀, hopen, hrun⟩ := Option.bind_eq_some_iff.mp hserved
  have hfew : e.flushCount < l0Limit := by
    rw [show e.flushCount = 2 from (Prod.mk.inj heq).1, l0Limit]
    omega
  have hopen' := Engine.eq_ok_of_toOption hopen
  refine ⟨e₀, responses, e, hopen', hrun,
    @nsList_created storedCodec _ _ _ _ hopen' _ _ hrun hfew ?_⟩
  intro request hrequest
  simp only [putListDelete, List.mem_cons, List.not_mem_nil, or_false] at hrequest
  rcases hrequest with rfl | rfl | rfl | rfl | rfl | rfl <;> simp

end Uldb
