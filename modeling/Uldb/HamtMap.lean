/-
The trie as a finite map.

`Hamt` is the type of the tries the source can build: the fields of `Hamt.Raw`
together with the trie invariant, so an invalid trie cannot be built and later
files never carry the invariant around.  The specification of the operations is

* `get_put`, `get_delete` — lookup after an update;
* `mem_iter_iff`, `iter_keys_nodup` — `iter` lists each stored pair once;
* `put_isSome` — a `put` returns unless another stored key has the same hash;
* `get_mergeFrom` — merging is overriding.

`hamt_refines_map` puts them together over whole runs: under an injective hash,
every sequence of updates leads to the finite map of the same updates.
-/
import Uldb.HamtValid

namespace Uldb

namespace Hamt

namespace Raw

/-- The invariant of a trie: the root is a valid node of level 0, and the
stored length is the number of pairs. -/
structure Valid (h : Raw) : Prop where
  root_valid : ∀ n, h.root = some n → n.Valid 0
  len_eq : h.len = h.iter.length

theorem valid_new : new.Valid := ⟨fun _ h => absurd h (by simp [new]), rfl⟩

theorem get_eq_some_iff {h : Raw} (hv : h.Valid) {key value : Bytes} :
    h.get key = some value ↔ (key, value) ∈ h.iter := by
  rw [get, iter]
  cases hr : h.root with
  | none => simp
  | some n =>
    rw [Option.bind_some]
    exact Node.get_eq_some_iff (hv.root_valid n hr)

theorem keys_nodup {h : Raw} (hv : h.Valid) : (h.iter.map Prod.fst).Nodup := by
  rw [iter]
  cases hr : h.root with
  | none => simp
  | some n => exact Node.keys_nodup (hv.root_valid n hr)

theorem iter_nodup {h : Raw} (hv : h.Valid) : h.iter.Nodup := (keys_nodup hv).of_map _

/-- Pairs with different keys, counted: removing the pair of one key. -/
theorem length_filter_ne {l : List (Bytes × Bytes)} (hl : (l.map Prod.fst).Nodup) (key : Bytes) :
    (l.filter fun kv => kv.1 ≠ key).length
      = if key ∈ l.map Prod.fst then l.length - 1 else l.length := by
  induction l with
  | nil => simp
  | cons kv l ih =>
    rw [List.map_cons, List.nodup_cons] at hl
    by_cases hk : kv.1 = key
    · have hnot : key ∉ l.map Prod.fst := hk ▸ hl.1
      rw [List.filter_cons_of_neg (by simpa using hk), ih hl.2, if_neg hnot,
        if_pos (by simp [hk])]
      simp
    · have hmem : key ∈ (kv :: l).map Prod.fst ↔ key ∈ l.map Prod.fst := by
        simp [Ne.symm hk]
      rw [List.filter_cons_of_pos (by simpa using hk), List.length_cons, ih hl.2]
      by_cases hin : key ∈ l.map Prod.fst
      · have hpos : 0 < l.length := List.length_pos_of_mem (List.mem_map.mp hin).choose_spec.1
        rw [if_pos hin, if_pos (hmem.mpr hin), List.length_cons]
        omega
      · rw [if_neg hin, if_neg (fun hc => hin (hmem.mp hc)), List.length_cons]

theorem get_isSome_iff {h : Raw} (hv : h.Valid) (key : Bytes) :
    (h.get key).isSome ↔ key ∈ h.iter.map Prod.fst := by
  rw [Option.isSome_iff_exists, List.mem_map]
  constructor
  · rintro ⟨v, hg⟩
    exact ⟨(key, v), (get_eq_some_iff hv).mp hg, rfl⟩
  · rintro ⟨⟨k, v⟩, hkv, rfl⟩
    exact ⟨v, (get_eq_some_iff hv).mpr hkv⟩

/-- A write: the pairs of the result, and its validity. -/
theorem put_spec {h h' : Raw} (hv : h.Valid) {key value : Bytes}
    (hput : h.put key value = some h') :
    h'.Valid ∧ Node.Wrote h.iter h'.iter key value := by
  rw [put, Option.bind_eq_bind, Option.bind_eq_some_iff] at hput
  obtain ⟨root, hroot, hh'⟩ := hput
  rw [Option.some_inj] at hh'
  have hiter' : h'.iter = root.collectLeaves := by rw [← hh', iter]
  have hspec : root.Valid 0 ∧ Node.Wrote h.iter root.collectLeaves key value := by
    cases hr : h.root with
    | none =>
      rw [hr, insertRoot, Option.some_inj] at hroot
      subst hroot
      refine ⟨.leaf rfl, fun kv => ?_⟩
      rw [Node.collectLeaves, List.mem_singleton, iter, hr]
      simp
    | some n =>
      rw [hr] at hroot
      have := Node.insertNode_spec (hv.root_valid n hr) hroot
      rwa [iter, hr]
  have hwrote : Node.Wrote h.iter h'.iter key value := by
    rw [hiter']
    exact hspec.2
  have hroot' : ∀ n, h'.root = some n → n.Valid 0 := by
    intro n hn
    rw [← hh', Option.some_inj] at hn
    rw [← hn]
    exact hspec.1
  -- The pairs are the new pair and the old pairs of the other keys.
  have hperm : h'.iter.Perm ((key, value) :: h.iter.filter fun kv => kv.1 ≠ key) := by
    rw [List.perm_ext_iff_of_nodup]
    · intro kv
      rw [hwrote kv, List.mem_cons, List.mem_filter]
      simp
    · rw [hiter']
      exact (Node.keys_nodup hspec.1).of_map _
    · rw [List.nodup_cons]
      exact ⟨fun hc => by simpa using (List.mem_filter.mp hc).2, (iter_nodup hv).filter _⟩
  refine ⟨⟨hroot', ?_⟩, hwrote⟩
  rw [hperm.length_eq, List.length_cons, length_filter_ne (keys_nodup hv), ← hh']
  by_cases hin : key ∈ h.iter.map Prod.fst
  · have hpos : 0 < h.iter.length := List.length_pos_of_mem (List.mem_map.mp hin).choose_spec.1
    rw [if_pos hin, if_pos ((get_isSome_iff hv key).mpr hin), hv.len_eq]
    omega
  · rw [if_neg hin, if_neg (fun hc => hin ((get_isSome_iff hv key).mp hc)), hv.len_eq]

theorem put_isSome {h : Raw} (hv : h.Valid) {key value : Bytes}
    (hhash : ∀ kv ∈ h.iter, kv.1 ≠ key → fnv1a kv.1 ≠ fnv1a key) :
    (h.put key value).isSome := by
  rw [put]
  cases hr : h.root with
  | none => simp [insertRoot]
  | some n =>
    rw [iter, hr] at hhash
    have hins : (n.insertNode (fnv1a key) key value 0).isSome :=
      Node.insertNode_isSome (hv.root_valid n hr)
        (fun _ _ l hl => absurd hl (Nat.not_lt_zero l)) hhash
    obtain ⟨n', hn'⟩ := Option.isSome_iff_exists.mp hins
    simp [insertRoot, hn']

/-- A removal: the pairs of the result, and its validity. -/
theorem delete_spec {h : Raw} (hv : h.Valid) (key : Bytes) :
    (h.delete key).Valid ∧
      ∀ kv, kv ∈ (h.delete key).iter ↔ kv ∈ h.iter ∧ kv.1 ≠ key := by
  rw [delete]
  by_cases hnone : (h.get key).isNone
  · rw [if_pos hnone]
    refine ⟨hv, fun kv => ⟨fun hkv => ⟨hkv, ?_⟩, fun hkv => hkv.1⟩⟩
    rintro rfl
    rw [(get_eq_some_iff hv).mpr hkv] at hnone
    simp at hnone
  · rw [if_neg hnone]
    have hin : key ∈ h.iter.map Prod.fst := by
      rw [← get_isSome_iff hv]
      simpa [Option.isSome_iff_ne_none] using hnone
    cases hr : h.root with
    | none => simp [iter, hr] at hin
    | some n =>
      have hspec := Node.removeNode_spec key (hv.root_valid n hr)
      have hiter : h.iter = n.collectLeaves := by rw [iter, hr]
      rw [← hiter] at hspec
      -- The pairs are the old pairs of the other keys, whatever node is left.
      have hpairs : ∀ kv, kv ∈ iter ⟨n.removeNode (fnv1a key) key 0, h.len - 1⟩ ↔
          kv ∈ h.iter ∧ kv.1 ≠ key := by
        intro kv
        cases hrem : n.removeNode (fnv1a key) key 0 with
        | none =>
          rw [hrem] at hspec
          simpa [iter] using hspec kv
        | some n' =>
          rw [hrem] at hspec
          exact hspec.2 kv
      have hvalid : ∀ n', n.removeNode (fnv1a key) key 0 = some n' → n'.Valid 0 := by
        intro n' hn'
        rw [hn'] at hspec
        exact hspec.1
      have hnodup : (iter ⟨n.removeNode (fnv1a key) key 0, h.len - 1⟩).Nodup := by
        cases hrem : n.removeNode (fnv1a key) key 0 with
        | none => simp [iter]
        | some n' => exact (Node.keys_nodup (hvalid n' hrem)).of_map _
      have hperm : (iter ⟨n.removeNode (fnv1a key) key 0, h.len - 1⟩).Perm
          (h.iter.filter fun kv => kv.1 ≠ key) := by
        rw [List.perm_ext_iff_of_nodup hnodup ((iter_nodup hv).filter _)]
        intro kv
        rw [hpairs kv, List.mem_filter]
        simp
      refine ⟨⟨hvalid, ?_⟩, hpairs⟩
      rw [Option.bind_some, hperm.length_eq, length_filter_ne (keys_nodup hv), if_pos hin,
        hv.len_eq]

end Raw

end Hamt

/-! ### The valid tries -/

/-- A trie with its invariant. -/
structure Hamt where
  raw : Hamt.Raw
  valid : raw.Valid

namespace Hamt

def new : Hamt := ⟨.new, Raw.valid_new⟩

def len (h : Hamt) : ℕ := h.raw.len

def get (h : Hamt) (key : Bytes) : Option Bytes := h.raw.get key

def put (h : Hamt) (key value : Bytes) : Option Hamt :=
  match hput : h.raw.put key value with
  | none => none
  | some raw => some ⟨raw, (Raw.put_spec h.valid hput).1⟩

def delete (h : Hamt) (key : Bytes) : Hamt :=
  ⟨h.raw.delete key, (Raw.delete_spec h.valid key).1⟩

/-- A snapshot shares the trie. -/
def snapshot (h : Hamt) : Hamt := h

def iter (h : Hamt) : List (Bytes × Bytes) := h.raw.iter

/-- Apply all entries of `other` onto `h`. -/
def mergeFrom (h other : Hamt) : Option Hamt :=
  other.iter.foldlM (fun result kv => result.put kv.1 kv.2) h

@[simp] theorem get_new (key : Bytes) : new.get key = none := rfl

theorem mem_iter_iff (h : Hamt) {key value : Bytes} :
    (key, value) ∈ h.iter ↔ h.get key = some value :=
  (Raw.get_eq_some_iff h.valid).symm

theorem iter_keys_nodup (h : Hamt) : (h.iter.map Prod.fst).Nodup := Raw.keys_nodup h.valid

theorem len_eq (h : Hamt) : h.len = h.iter.length := h.valid.len_eq

theorem put_eq_some_raw {h h' : Hamt} {key value : Bytes} (hput : h.put key value = some h') :
    h.raw.put key value = some h'.raw := by
  rw [put] at hput
  split at hput
  · exact absurd hput (by simp)
  · rename_i raw hraw
    rw [Option.some_inj] at hput
    rw [hraw, ← hput]

theorem get_put {h h' : Hamt} {key value : Bytes} (hput : h.put key value = some h')
    (k : Bytes) : h'.get k = if k = key then some value else h.get k := by
  have hwrote := (Raw.put_spec h.valid (put_eq_some_raw hput)).2
  apply Option.ext
  intro v
  have hiff := (hwrote (k, v))
  rw [show (k, v) ∈ h'.raw.iter ↔ h'.get k = some v from h'.mem_iter_iff,
    show (k, v) ∈ h.raw.iter ↔ h.get k = some v from h.mem_iter_iff] at hiff
  rw [hiff]
  by_cases hk : k = key
  · simp [hk, eq_comm]
  · simp [hk]

theorem get_delete (h : Hamt) (key k : Bytes) :
    (h.delete key).get k = if k = key then none else h.get k := by
  have hspec := (Raw.delete_spec h.valid key).2
  apply Option.ext
  intro v
  have hiff := (hspec (k, v))
  rw [show (k, v) ∈ (h.raw.delete key).iter ↔ (h.delete key).get k = some v from
      (h.delete key).mem_iter_iff,
    show (k, v) ∈ h.raw.iter ↔ h.get k = some v from h.mem_iter_iff] at hiff
  rw [hiff]
  by_cases hk : k = key <;> simp [hk]

/-- A `put` returns unless another stored key has the same hash. -/
theorem put_isSome {h : Hamt} {key value : Bytes}
    (hhash : ∀ k, (h.get k).isSome → k ≠ key → fnv1a k ≠ fnv1a key) :
    ∃ h', h.put key value = some h' := by
  have hraw : (h.raw.put key value).isSome := Raw.put_isSome h.valid fun kv hkv =>
    hhash kv.1 (Option.isSome_iff_exists.mpr ⟨kv.2, h.mem_iter_iff.mp hkv⟩)
  rw [put]
  split
  · rename_i hnone
    rw [hnone] at hraw
    exact absurd hraw (by simp)
  · exact ⟨_, rfl⟩

/-! ### Merging -/

theorem get_foldlM_put {pairs : List (Bytes × Bytes)} {h h' : Hamt}
    (hnodup : (pairs.map Prod.fst).Nodup)
    (hfold : pairs.foldlM (fun result kv => result.put kv.1 kv.2) h = some h') (k : Bytes) :
    (∀ v, (k, v) ∈ pairs → h'.get k = some v) ∧
      (k ∉ pairs.map Prod.fst → h'.get k = h.get k) := by
  induction pairs generalizing h with
  | nil =>
    rw [List.foldlM_nil, Option.pure_def, Option.some_inj] at hfold
    subst hfold
    exact ⟨fun v hv => absurd hv (by simp), fun _ => rfl⟩
  | cons kv pairs ih =>
    rw [List.foldlM_cons, Option.bind_eq_bind, Option.bind_eq_some_iff] at hfold
    obtain ⟨h₁, hput, hfold⟩ := hfold
    rw [List.map_cons, List.nodup_cons] at hnodup
    obtain ⟨hin, hout⟩ := ih hnodup.2 hfold
    constructor
    · intro v hv
      rcases List.mem_cons.mp hv with rfl | hv
      · rw [hout hnodup.1, get_put hput, if_pos rfl]
      · exact hin v hv
    · intro hk
      rw [List.map_cons, List.mem_cons, not_or] at hk
      rw [hout hk.2, get_put hput, if_neg hk.1]

/-- Merging overrides: the other trie's value wins where it has one. -/
theorem get_mergeFrom {h other m : Hamt} (hm : h.mergeFrom other = some m) (k : Bytes) :
    m.get k = (other.get k).or (h.get k) := by
  obtain ⟨hin, hout⟩ := get_foldlM_put other.iter_keys_nodup hm k
  cases hk : other.get k with
  | some v => rw [hin v (other.mem_iter_iff.mpr hk), Option.some_or]
  | none =>
    rw [Option.none_or]
    apply hout
    intro hc
    obtain ⟨⟨k', v⟩, hkv, rfl⟩ := List.mem_map.mp hc
    rw [other.mem_iter_iff.mp hkv] at hk
    exact absurd hk (by simp)

theorem foldlM_put_isSome {K : Set Bytes} (hK : Set.InjOn fnv1a K) :
    ∀ {pairs : List (Bytes × Bytes)} {h : Hamt}, (∀ kv ∈ pairs, kv.1 ∈ K) →
      (∀ k, (h.get k).isSome → k ∈ K) →
      ∃ h', pairs.foldlM (fun result kv => result.put kv.1 kv.2) h = some h' := by
  intro pairs
  induction pairs with
  | nil => exact fun {h} _ _ => ⟨h, rfl⟩
  | cons kv pairs ih =>
    intro h hpairs hh
    have hkv : kv.1 ∈ K := hpairs kv List.mem_cons_self
    obtain ⟨h₁, hput⟩ : ∃ h₁, h.put kv.1 kv.2 = some h₁ :=
      put_isSome fun k hk hne heq => hne (hK (hh k hk) hkv heq)
    obtain ⟨h', hfold⟩ := ih (fun kv' hkv' => hpairs kv' (List.mem_cons_of_mem _ hkv'))
      (fun k hk => by
        rw [get_put hput] at hk
        by_cases hkey : k = kv.1
        · rw [hkey]
          exact hkv
        · rw [if_neg hkey] at hk
          exact hh k hk)
    exact ⟨h', by rw [List.foldlM_cons, hput]; exact hfold⟩

end Hamt

/-! ### Runs of updates, against the finite map -/

/-- One update of a trie. -/
inductive HamtOp where
  | put (key value : Bytes)
  | delete (key : Bytes)

namespace HamtOp

def key : HamtOp → Bytes
  | put key _ => key
  | delete key => key

/-- The update of the trie. -/
def apply (h : Hamt) : HamtOp → Option Hamt
  | put key value => h.put key value
  | delete key => some (h.delete key)

/-- The same update of a finite map. -/
def applyMap (m : AList fun _ : Bytes => Bytes) : HamtOp → AList fun _ : Bytes => Bytes
  | put key value => m.insert key value
  | delete key => m.erase key

end HamtOp

/-- A run of updates; `none` when one of them does not return. -/
def Hamt.run (h : Hamt) (ops : List HamtOp) : Option Hamt := ops.foldlM HamtOp.apply h

/-- The finite map obtained by the same updates. -/
def hamtModel (ops : List HamtOp) : AList fun _ : Bytes => Bytes :=
  ops.foldl HamtOp.applyMap ∅

namespace Hamt

/-- The trie answers every lookup as the map does, and stores keys of `K` only. -/
structure Refines (K : Set Bytes) (h : Hamt) (m : AList fun _ : Bytes => Bytes) : Prop where
  get_eq : ∀ k, h.get k = m.lookup k
  keys_mem : ∀ k, (h.get k).isSome → k ∈ K

theorem refines_new (K : Set Bytes) : Refines K new ∅ :=
  ⟨fun k => by rw [get_new, AList.lookup_empty], fun k hk => absurd hk (by simp)⟩

/-- One update keeps the refinement, and returns. -/
theorem Refines.step {K : Set Bytes} (hK : Set.InjOn fnv1a K) {h : Hamt}
    {m : AList fun _ : Bytes => Bytes} (hr : Refines K h m) (op : HamtOp) (hop : op.key ∈ K) :
    ∃ h', op.apply h = some h' ∧ Refines K h' (op.applyMap m) := by
  cases op with
  | put key value =>
    obtain ⟨h', hput⟩ : ∃ h', h.put key value = some h' :=
      put_isSome fun k hk hne heq => hne (hK (hr.keys_mem k hk) hop heq)
    refine ⟨h', hput, fun k => ?_, fun k hk => ?_⟩
    · rw [get_put hput, HamtOp.applyMap]
      by_cases hkey : k = key
      · rw [if_pos hkey, hkey, AList.lookup_insert]
      · rw [if_neg hkey, AList.lookup_insert_ne hkey, hr.get_eq]
    · rw [get_put hput] at hk
      by_cases hkey : k = key
      · rw [hkey]
        exact hop
      · rw [if_neg hkey] at hk
        exact hr.keys_mem k hk
  | delete key =>
    refine ⟨h.delete key, rfl, fun k => ?_, fun k hk => ?_⟩
    · rw [get_delete, HamtOp.applyMap]
      by_cases hkey : k = key
      · rw [if_pos hkey, hkey, AList.lookup_erase]
      · rw [if_neg hkey, AList.lookup_erase_ne hkey, hr.get_eq]
    · rw [get_delete] at hk
      by_cases hkey : k = key
      · rw [if_pos hkey] at hk
        exact absurd hk (by simp)
      · rw [if_neg hkey] at hk
        exact hr.keys_mem k hk

theorem Refines.run {K : Set Bytes} (hK : Set.InjOn fnv1a K) {ops : List HamtOp}
    (hops : ∀ op ∈ ops, op.key ∈ K) {h : Hamt} {m : AList fun _ : Bytes => Bytes}
    (hr : Refines K h m) :
    ∃ h', h.run ops = some h' ∧ Refines K h' (ops.foldl HamtOp.applyMap m) := by
  induction ops generalizing h m with
  | nil => exact ⟨h, rfl, hr⟩
  | cons op ops ih =>
    obtain ⟨h₁, hop, hr₁⟩ := hr.step hK op (hops op List.mem_cons_self)
    obtain ⟨h', hrun, hr'⟩ := ih (fun o ho => hops o (List.mem_cons_of_mem _ ho)) hr₁
    refine ⟨h', ?_, hr'⟩
    rw [Hamt.run, List.foldlM_cons, hop]
    exact hrun

/-- `iter` lists the pairs of the map, each once. -/
theorem Refines.iter_perm {K : Set Bytes} {h : Hamt} {m : AList fun _ : Bytes => Bytes}
    (hr : Refines K h m) : h.iter.Perm (m.entries.map fun e => (e.1, e.2)) := by
  have hinj : Function.Injective fun e : (_ : Bytes) × Bytes => (e.1, e.2) := by
    rintro ⟨k, v⟩ ⟨k', v'⟩ he
    cases he
    rfl
  rw [List.perm_ext_iff_of_nodup (h.iter_keys_nodup.of_map _)
    ((List.Nodup.of_map _ m.nodupKeys).map hinj)]
  rintro ⟨k, v⟩
  rw [mem_iter_iff, hr.get_eq]
  constructor
  · intro hv
    exact List.mem_map.mpr ⟨⟨k, v⟩, AList.mem_lookup_iff.mp hv, rfl⟩
  · intro hv
    obtain ⟨⟨k', v'⟩, he, heq⟩ := List.mem_map.mp hv
    cases heq
    exact AList.mem_lookup_iff.mpr he

end Hamt

/-- **The trie refines the finite map.**  On keys with pairwise different
hashes every run of updates returns a trie with the lookups, the length and the
pairs of the map of the same updates, and merging two such tries overrides the
first by the second. -/
theorem hamt_refines_map (K : Set Bytes) (hK : Set.InjOn fnv1a K) (ops : List HamtOp)
    (hops : ∀ op ∈ ops, op.key ∈ K) :
    ∃ a, Hamt.new.run ops = some a ∧
      (∀ k ∈ K, a.get k = (hamtModel ops).lookup k) ∧
      a.len = (hamtModel ops).keys.length ∧
      a.iter.Perm ((hamtModel ops).entries.map fun e => (e.1, e.2)) ∧
      ∀ ops', (∀ op ∈ ops', op.key ∈ K) → ∀ b, Hamt.new.run ops' = some b →
        ∃ m, a.mergeFrom b = some m ∧
          ∀ k ∈ K, m.get k = if (b.get k).isSome then b.get k else a.get k := by
  obtain ⟨a, ha, hra⟩ := (Hamt.refines_new K).run hK hops
  have hperm := hra.iter_perm
  refine ⟨a, ha, fun k _ => hra.get_eq k, ?_, hperm, fun ops' hops' b hb => ?_⟩
  · rw [a.len_eq, hperm.length_eq]
    simp [AList.keys, hamtModel, List.keys]
  · obtain ⟨b', hb', hrb⟩ := (Hamt.refines_new K).run hK hops'
    have hbb : b' = b := Option.some.inj (hb'.symm.trans hb)
    subst hbb
    obtain ⟨m, hm⟩ := Hamt.foldlM_put_isSome hK
      (fun kv hkv => hrb.keys_mem kv.1
        (Option.isSome_iff_exists.mpr ⟨kv.2, b'.mem_iter_iff.mp hkv⟩)) hra.keys_mem
    refine ⟨m, hm, fun k _ => ?_⟩
    rw [Hamt.get_mergeFrom hm]
    cases b'.get k <;> rfl

/-- Two keys of different hashes: the second put, then the first deleted. -/
theorem hamt_refines_map_two :
    ∃ a, Hamt.new.run [.put [97] [1], .put [98] [2], .delete [97]] = some a ∧
      a.get [98] = some [2] ∧ a.get [97] = none ∧ a.len = 1 := by
  have hK : Set.InjOn fnv1a {[97], [98]} := by
    have hne : fnv1a [97] ≠ fnv1a [98] := by decide
    intro k₁ h₁ k₂ h₂ heq
    rcases h₁ with rfl | rfl <;> rcases h₂ with rfl | rfl
    · rfl
    · exact absurd heq hne
    · exact absurd heq.symm hne
    · rfl
  obtain ⟨a, ha, hget, hlen, -⟩ := hamt_refines_map {[97], [98]} hK
    [.put [97] [1], .put [98] [2], .delete [97]] (by simp [HamtOp.key])
  refine ⟨a, ha, ?_, ?_, ?_⟩
  · rw [hget _ (by simp)]
    rfl
  · rw [hget _ (by simp)]
    rfl
  · rw [hlen]
    rfl

end Uldb
