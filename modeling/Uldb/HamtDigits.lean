/-
What the digits of the hashes decide in a trie.

The leaves of a trie come in the order of the digits of their hashes, lowest level first,
whatever its shape.  An insertion follows the digits of its key, one level a call, and
goes on as long as they agree with those of the leaf that it meets.

* `iter_eq_of_get` — tries with the same lookups list their pairs in the same order;
* `iter_history_free` — so the order does not depend on the history;
* `levelsBounded_iff` — an insertion stays on the levels of the hash, and ends, exactly if
  no other stored key has the same hash;
* `collision_endless` — two keys with one hash.
-/
import Uldb.HamtMap

namespace Uldb

open SparseArray

/-! ### The order of the leaves -/

/-- From a level on, the first digit in which two hashes differ is smaller in the first. -/
def DigitLt (level : ℕ) (h₁ h₂ : UInt64) : Prop :=
  ∃ l, level ≤ l ∧ (∀ m, level ≤ m → m < l → bitIndex h₁ m = bitIndex h₂ m) ∧
    bitIndex h₁ l < bitIndex h₂ l

theorem DigitLt.asymm {level : ℕ} {h₁ h₂ : UInt64} (h : DigitLt level h₁ h₂) :
    ¬DigitLt level h₂ h₁ := by
  obtain ⟨l, hle, hagree, hlt⟩ := h
  rintro ⟨l', hle', hagree', hlt'⟩
  rcases lt_trichotomy l l' with hl | rfl | hl
  · have := hagree' l hle hl
    omega
  · omega
  · have := hagree l' hle' hl
    omega

/-- Hashes with the same digit at a level are ordered by the levels above it. -/
theorem DigitLt.of_succ {level : ℕ} {h₁ h₂ : UInt64} (h : DigitLt (level + 1) h₁ h₂)
    (heq : bitIndex h₁ level = bitIndex h₂ level) : DigitLt level h₁ h₂ := by
  obtain ⟨l, hle, hagree, hlt⟩ := h
  refine ⟨l, by omega, fun m hm hml => ?_, hlt⟩
  rcases Nat.eq_or_lt_of_le hm with rfl | hm
  · exact heq
  · exact hagree m hm hml

theorem slots_pairwise {α : Type*} {m : UInt32} {xs : List α} (hlen : xs.length = (bits m).length) :
    (slots m xs).Pairwise fun p q => p.1 < q.1 := by
  have hbits : ((slots m xs).map Prod.fst).Pairwise (· < ·) := by
    rw [slots, List.map_fst_zip (le_of_eq hlen.symm)]
    exact List.pairwise_lt_range.filter _
  exact List.pairwise_map.mp hbits

namespace Node

/-- **The leaves** come in the order of their digits. -/
theorem collectLeaves_pairwise {level : ℕ} {n : Node} (hn : n.Valid level) :
    n.collectLeaves.Pairwise fun p q => DigitLt level (fnv1a p.1) (fnv1a q.1) := by
  induction hn with
  | leaf => exact List.pairwise_singleton _ _
  | @branch level bitmap children _ _ hlen _ hdigit ih =>
    rw [collectLeaves_branch hlen, List.pairwise_flatMap]
    constructor
    · -- in one child the digits of this level agree
      rintro ⟨b, c⟩ hc
      refine (ih b c hc).imp_of_mem fun {p q} hp hq hlt => ?_
      exact hlt.of_succ ((hdigit b c hc p hp).trans (hdigit b c hc q hq).symm)
    · refine (slots_pairwise hlen).imp_of_mem fun {s t} hs ht hlt p hp q hq => ?_
      refine ⟨level, le_refl level, fun m hm hml => absurd hml (not_lt.mpr hm), ?_⟩
      rw [hdigit s.1 s.2 hs p hp, hdigit t.1 t.2 ht q hq]
      exact hlt

end Node

namespace Hamt

theorem iter_pairwise (h : Hamt) :
    h.iter.Pairwise fun p q => DigitLt 0 (fnv1a p.1) (fnv1a q.1) := by
  rw [iter, Raw.iter]
  cases hr : h.raw.root with
  | none => exact List.Pairwise.nil
  | some n => exact Node.collectLeaves_pairwise (h.valid.root_valid n hr)

/-- **Tries with the same lookups** list the same pairs in the same order. -/
theorem iter_eq_of_get {a b : Hamt} (hget : ∀ k, a.get k = b.get k) : a.iter = b.iter := by
  have hperm : a.iter.Perm b.iter := by
    rw [List.perm_ext_iff_of_nodup (a.iter_keys_nodup.of_map _) (b.iter_keys_nodup.of_map _)]
    rintro ⟨k, v⟩
    rw [a.mem_iter_iff, b.mem_iter_iff, hget]
  exact List.Perm.eq_of_pairwise (fun p q _ _ hlt hgt => absurd hgt hlt.asymm) a.iter_pairwise
    b.iter_pairwise hperm

/-- **The order of iteration is free of history.**  On keys with pairwise different hashes,
two runs of updates that end with the same map return tries with the same list of pairs. -/
theorem iter_history_free (K : Set Bytes) (hK : Set.InjOn fnv1a K) (ops ops' : List HamtOp)
    (hops : ∀ op ∈ ops, op.key ∈ K) (hops' : ∀ op ∈ ops', op.key ∈ K)
    (hsame : ∀ k, (hamtModel ops).lookup k = (hamtModel ops').lookup k) :
    ∃ a b, new.run ops = some a ∧ new.run ops' = some b ∧ a.iter = b.iter := by
  obtain ⟨a, ha, hra⟩ := (refines_new K).run hK hops
  obtain ⟨b, hb, hrb⟩ := (refines_new K).run hK hops'
  refine ⟨a, b, ha, hb, iter_eq_of_get fun k => ?_⟩
  rw [hra.get_eq, hrb.get_eq]
  exact hsame k

/-- With and without a key that comes and goes. -/
theorem iter_history_free_two :
    ∃ a b, new.run [.put [97] [1], .put [98] [2], .delete [97]] = some a ∧
      new.run [.put [98] [2]] = some b ∧ a.iter = b.iter := by
  have hK : Set.InjOn fnv1a {[97], [98]} := by
    have hne : fnv1a [97] ≠ fnv1a [98] := by decide
    rw [Set.injOn_pair]
    exact fun heq => absurd heq hne
  refine iter_history_free {[97], [98]} hK _ _ (by simp [HamtOp.key]) (by simp [HamtOp.key])
    fun k => ?_
  simp only [hamtModel, List.foldl, HamtOp.applyMap]
  by_cases ha : k = [97]
  · rw [ha, AList.lookup_erase, AList.lookup_insert_ne (by decide), AList.lookup_empty]
  · rw [AList.lookup_erase_ne ha]
    by_cases hb : k = [98]
    · rw [hb, AList.lookup_insert, AList.lookup_insert]
    · rw [AList.lookup_insert_ne hb, AList.lookup_insert_ne ha, AList.lookup_insert_ne hb]

end Hamt

/-! ### The calls of an insertion -/

/-- A call of `insert_node`, on a node at a level, and the call that it makes. -/
inductive InsertCall (hash : UInt64) (key : Bytes) : Node × ℕ → Node × ℕ → Prop
  | leaf {h : UInt64} {k v : Bytes} {level : ℕ} (hne : k ≠ key)
      (hdigit : bitIndex h level = bitIndex hash level) :
      InsertCall hash key (.leaf h k v, level) (.leaf h k v, level + 1)
  | branch {bitmap : UInt32} {children : List Node} {level : ℕ} {child : Node}
      (hset : ¬bitmap &&& flag (bitIndex hash level) = 0)
      (hchild : children[sparseIndex bitmap (bitIndex hash level)]? = some child) :
      InsertCall hash key (.branch bitmap children, level) (child, level + 1)

/-- The leaf of a key below a node at a level, with its own level. -/
inductive LeafAt (key : Bytes) : Node → ℕ → ℕ → Prop
  | leaf {h : UInt64} {v : Bytes} {level : ℕ} : LeafAt key (.leaf h key v) level level
  | branch {bitmap : UInt32} {children : List Node} {level l : ℕ} {child : Node}
      (hchild : child ∈ children) (hleaf : LeafAt key child (level + 1) l) :
      LeafAt key (.branch bitmap children) level l

/-- A call takes a digit of the hash at its level, unless it meets the leaf of its key. -/
def TakesDigit (key : Bytes) : Node → Prop
  | .leaf _ k _ => k ≠ key
  | .branch _ _ => True

section

variable {hash : UInt64} {key k : Bytes} {level l : ℕ} {n n' : Node}

theorem mem_of_leafAt (hn : n.Valid level) (h : LeafAt k n level l) :
    ∃ v, (k, v) ∈ n.collectLeaves := by
  induction hn with
  | leaf =>
    cases h with
    | leaf => exact ⟨_, List.mem_singleton.mpr rfl⟩
  | @branch level bitmap children _ _ hlen _ _ ih =>
    cases h with
    | branch hchild hleaf =>
      rw [← Node.slots_map_snd hlen] at hchild
      obtain ⟨⟨b, c⟩, hslot, rfl⟩ := List.mem_map.mp hchild
      obtain ⟨v, hv⟩ := ih b c hslot hleaf
      exact ⟨v, (Node.mem_collectLeaves_branch hlen).mpr ⟨b, c, hslot, hv⟩⟩

theorem leafAt_of_mem (hn : n.Valid level) {v : Bytes} (h : (k, v) ∈ n.collectLeaves) :
    ∃ l, LeafAt k n level l := by
  induction hn with
  | leaf =>
    rw [Node.collectLeaves, List.mem_singleton, Prod.mk.injEq] at h
    obtain ⟨rfl, rfl⟩ := h
    exact ⟨_, .leaf⟩
  | @branch level bitmap children _ _ hlen _ _ ih =>
    obtain ⟨b, c, hslot, hmem⟩ := (Node.mem_collectLeaves_branch hlen).mp h
    obtain ⟨l, hleaf⟩ := ih b c hslot hmem
    have hchild : c ∈ children := by
      rw [← Node.slots_map_snd hlen]
      exact List.mem_map_of_mem hslot
    exact ⟨l, .branch hchild hleaf⟩

/-- An insertion finds its way to a leaf with its hash. -/
theorem calls_to_leaf (key : Bytes) (hn : n.Valid level) (h : LeafAt k n level l)
    (hhash : fnv1a k = hash) :
    ∃ v, Relation.ReflTransGen (InsertCall hash key) (n, level) (.leaf hash k v, l) := by
  induction hn with
  | leaf hash_eq =>
    cases h with
    | leaf =>
      rw [hash_eq, hhash]
      exact ⟨_, .refl⟩
  | @branch level bitmap children _ _ hlen hvalid hdigit ih =>
    cases h with
    | branch hchild hleaf =>
      rw [← Node.slots_map_snd hlen] at hchild
      obtain ⟨⟨b, c⟩, hslot, rfl⟩ := List.mem_map.mp hchild
      obtain ⟨v, hcalls⟩ := ih b c hslot hleaf
      obtain ⟨v', hmem⟩ := mem_of_leafAt (hvalid b c hslot) hleaf
      obtain rfl : bitIndex hash level = b := hhash ▸ hdigit b c hslot (k, v') hmem
      have hset : ¬bitmap &&& flag (bitIndex hash level) = 0 := by
        rw [Node.slot_test, Bool.not_eq_false]
        exact (mem_bits.mp (List.of_mem_zip hslot).1).2
      obtain ⟨_, c', hc', hiff⟩ := Node.Valid.exists_child hlen hset
      rw [← (hiff c).mp hslot] at hc'
      exact ⟨v, .head (.branch hset hc') hcalls⟩

/-- An insertion goes on forever at the leaf of another key with its hash. -/
theorem calls_endless (hne : k ≠ key) {v : Bytes} {m : ℕ} (hle : l ≤ m) :
    Relation.ReflTransGen (InsertCall hash key) (.leaf hash k v, l) (.leaf hash k v, m) := by
  induction m, hle using Nat.le_induction with
  | base => exact .refl
  | succ m _ ih => exact ih.tail (.leaf hne rfl)

/-- **The calls of an insertion** that meets no other key with its hash: each is on a node
whose leaves have the digits of the hash up to its level, and the last level is only
reached at the leaf of the key. -/
theorem calls_spec (hn : n.Valid 0)
    (hhash : ∀ kv ∈ n.collectLeaves, kv.1 ≠ key → fnv1a kv.1 ≠ fnv1a key)
    (h : Relation.ReflTransGen (InsertCall (fnv1a key) key) (n, 0) (n', l)) :
    n'.Valid l ∧ (∀ kv ∈ n'.collectLeaves, kv ∈ n.collectLeaves ∧
      ∀ m < l, bitIndex (fnv1a kv.1) m = bitIndex (fnv1a key) m) ∧ l ≤ maxLevels ∧
      (l = maxLevels → ∃ h v, n' = .leaf h key v) ∧
      ∀ l', LeafAt key n' l l' → LeafAt key n 0 l' := by
  generalize hc : (n', l) = c at h
  induction h generalizing n' l with
  | refl =>
    obtain ⟨rfl, rfl⟩ := Prod.mk.injEq _ _ _ _ ▸ hc
    exact ⟨hn, fun kv hkv => ⟨hkv, fun m hm => absurd hm (Nat.not_lt_zero m)⟩, Nat.zero_le _,
      fun h0 => absurd h0 (by simp [maxLevels]), fun _ h => h⟩
  | @tail c c' _ hcall ih =>
    subst hc
    -- a leaf that agrees with the key on all levels is the leaf of the key
    have hkey : ∀ {k v : Bytes}, (k, v) ∈ n.collectLeaves →
        (∀ m < maxLevels, bitIndex (fnv1a k) m = bitIndex (fnv1a key) m) → k = key := by
      intro k v hmem hagree
      by_contra hne
      exact hhash (k, v) hmem hne (eq_of_bitIndex_eq hagree)
    cases hcall with
    | @leaf h k v level hne hdigit =>
      obtain ⟨hvalid, hleaves, hle, _, hat⟩ := ih rfl
      have hmem : (k, v) ∈ (Node.leaf h k v).collectLeaves := by simp [Node.collectLeaves]
      obtain ⟨hstored, hagree⟩ := hleaves (k, v) hmem
      have hh : h = fnv1a k := by
        cases hvalid with
        | leaf hash_eq => exact hash_eq
      have hagree' : ∀ m < level + 1, bitIndex (fnv1a k) m = bitIndex (fnv1a key) m := by
        intro m hm
        rcases Nat.lt_succ_iff_lt_or_eq.mp hm with hm | rfl
        · exact hagree m hm
        · exact hh ▸ hdigit
      have hlt : level + 1 < maxLevels := by
        by_contra hge
        exact hne (hkey hstored fun m hm => hagree' m (by omega))
      refine ⟨hh ▸ .leaf rfl, fun kv hkv => ?_, hlt.le, fun heq => absurd heq hlt.ne, ?_⟩
      · rw [Node.collectLeaves, List.mem_singleton] at hkv
        subst hkv
        exact ⟨hstored, hagree'⟩
      · intro l' hleaf
        cases hleaf with
        | leaf => exact absurd rfl hne
    | @branch bitmap children level child hset hchild =>
      obtain ⟨hvalid, hleaves, _, _, hat⟩ := ih rfl
      cases hvalid with
      | branch hlt _ hlen hchildren hdigit =>
        obtain ⟨_, found, hfound, hslot⟩ := Node.Valid.exists_child hlen hset
        rw [hchild, Option.some_inj] at hfound
        subst hfound
        have hmem := (hslot n').mpr rfl
        have hbelow : ∀ kv ∈ n'.collectLeaves, kv ∈ n.collectLeaves ∧
            ∀ m < level + 1, bitIndex (fnv1a kv.1) m = bitIndex (fnv1a key) m := by
          intro kv hkv
          obtain ⟨hstored, hagree⟩ := hleaves kv
            ((Node.mem_collectLeaves_branch hlen).mpr ⟨_, n', hmem, hkv⟩)
          refine ⟨hstored, fun m hm => ?_⟩
          rcases Nat.lt_succ_iff_lt_or_eq.mp hm with hm | rfl
          · exact hagree m hm
          · exact hdigit _ n' hmem kv hkv
        have hvalid' := hchildren _ n' hmem
        refine ⟨hvalid', hbelow, hlt, fun heq => ?_, fun l' hleaf => ?_⟩
        · -- there is no branch below the last level
          cases hvalid' with
          | branch hlt' => exact absurd hlt' (by omega)
          | @leaf _ h k v hash_eq =>
            obtain ⟨hstored, hagree⟩ := hbelow (k, v) (by simp [Node.collectLeaves])
            rw [hkey hstored fun m hm => hagree m (by omega)]
            exact ⟨h, v, rfl⟩
        · exact hat l' (.branch (List.mem_of_getElem? hchild) hleaf)

/-- Calls on bounded levels come to an end. -/
theorem acc_of_bounded {c : Node × ℕ} (bound : ℕ)
    (h : ∀ c', Relation.ReflTransGen (InsertCall hash key) c c' → c'.2 ≤ bound) :
    Acc (fun c' c => InsertCall hash key c c') c := by
  obtain ⟨left, hleft⟩ : ∃ left, left + c.2 = bound + 1 :=
    ⟨bound + 1 - c.2, Nat.sub_add_cancel (Nat.le_succ_of_le (h c .refl))⟩
  induction left generalizing c with
  | zero =>
    have := h c .refl
    omega
  | succ left ih =>
    refine ⟨c, fun c' hcall => ih (fun c'' hcalls => h c'' (.head hcall hcalls)) ?_⟩
    have hnext : c'.2 = c.2 + 1 := by
      cases hcall with
      | leaf => rfl
      | branch => rfl
    omega

/-- Calls that come to the leaf of another key with the same hash do not come to an end. -/
theorem not_acc_of_calls {c : Node × ℕ} {v : Bytes} (hne : k ≠ key)
    (h : Relation.ReflTransGen (InsertCall hash key) c (.leaf hash k v, l)) :
    ¬Acc (fun c' c => InsertCall hash key c c') c := by
  intro hacc
  have hend : ∀ c', Relation.ReflTransGen (InsertCall hash key) c c' →
      Acc (fun c' c => InsertCall hash key c c') c' := by
    intro c' hcalls
    induction hcalls with
    | refl => exact hacc
    | tail _ hcall ih => exact ih.inv hcall
  have hleaf := hend _ h
  generalize hc : (Node.leaf hash k v, l) = c' at hleaf
  clear h
  induction hleaf generalizing l with
  | intro c' _ ih =>
    subst hc
    exact ih _ (.leaf hne rfl) rfl

end

namespace Hamt

/-- The calls of `insert_node` for a key in a trie. -/
def Calls (h : Hamt) (key : Bytes) (c : Node × ℕ) : Prop :=
  ∃ n, h.raw.root = some n ∧ Relation.ReflTransGen (InsertCall (fnv1a key) key) (n, 0) c

/-- The recursion of `insert_node` for a key comes to an end. -/
def Ends (h : Hamt) (key : Bytes) : Prop :=
  ∀ n, h.raw.root = some n → Acc (fun c' c => InsertCall (fnv1a key) key c c') (n, 0)

/-- No other stored key has the hash of a key. -/
def HashFree (h : Hamt) (key : Bytes) : Prop :=
  ∀ k, (h.get k).isSome → k ≠ key → fnv1a k ≠ fnv1a key

/-- The leaf of a key is at a level. -/
def LeafOf (h : Hamt) (key : Bytes) (l : ℕ) : Prop :=
  ∃ n, h.raw.root = some n ∧ LeafAt key n 0 l

section

variable {h : Hamt} {key k : Bytes}

theorem eq_of_fnv1a_eq {k₁ k₂ : Bytes} (h₁ : (h.get k₁).isSome) (h₂ : (h.get k₂).isSome)
    (heq : fnv1a k₁ = fnv1a k₂) : k₁ = k₂ := by
  obtain ⟨v₁, hv₁⟩ := Option.isSome_iff_exists.mp h₁
  obtain ⟨v₂, hv₂⟩ := Option.isSome_iff_exists.mp h₂
  have hnodup : (h.iter.map fun kv => fnv1a kv.1).Nodup := by
    refine List.pairwise_map.mpr (h.iter_pairwise.imp ?_)
    intro p q hlt hpq
    rw [hpq] at hlt
    exact hlt.asymm hlt
  have hpair := List.inj_on_of_nodup_map hnodup (h.mem_iter_iff.mpr hv₁) (h.mem_iter_iff.mpr hv₂)
    heq
  exact (Prod.mk.inj hpair).1

/-- **An insertion returns** exactly if no other stored key has the hash of its key. -/
theorem put_isSome_iff {value : Bytes} :
    (∃ h', h.put key value = some h') ↔ h.HashFree key := by
  refine ⟨?_, put_isSome⟩
  rintro ⟨h', hput⟩ k hk hne heq
  refine hne (eq_of_fnv1a_eq (h := h') ?_ ?_ heq)
  · rwa [get_put hput, if_neg hne]
  · rw [get_put hput, if_pos rfl]
    rfl

/-- The calls for a stored key come to its leaf. -/
theorem exists_calls_leaf (hk : (h.get k).isSome) (heq : fnv1a k = fnv1a key) :
    ∃ l v, h.LeafOf k l ∧ h.Calls key (.leaf (fnv1a key) k v, l) := by
  obtain ⟨v, hv⟩ := Option.isSome_iff_exists.mp hk
  have hmem := h.mem_iter_iff.mpr hv
  cases hr : h.raw.root with
  | none => simp [iter, Raw.iter, hr] at hmem
  | some n =>
    rw [iter, Raw.iter, hr] at hmem
    have hn := h.valid.root_valid n hr
    obtain ⟨l, hleaf⟩ := leafAt_of_mem hn hmem
    obtain ⟨v', hcalls⟩ := calls_to_leaf key hn hleaf heq
    exact ⟨l, v', ⟨n, hr, hleaf⟩, n, hr, hcalls⟩

/-- A stored key with the hash of another one keeps its insertion from ending. -/
theorem hashFree_of_ends (hends : h.Ends key) : h.HashFree key := by
  intro k hk hne heq
  obtain ⟨l, v, _, n, hr, hcalls⟩ := exists_calls_leaf hk heq
  exact not_acc_of_calls hne hcalls (hends n hr)

/-- Without such a key the levels are those of the hash, and one more at the leaf of the
key itself. -/
theorem HashFree.calls (hfree : h.HashFree key) {n : Node} {l : ℕ} (hcalls : h.Calls key (n, l)) :
    l ≤ maxLevels ∧ (l = maxLevels → ¬TakesDigit key n ∧ h.LeafOf key maxLevels) := by
  obtain ⟨root, hr, hcalls⟩ := hcalls
  have hhash : ∀ kv ∈ root.collectLeaves, kv.1 ≠ key → fnv1a kv.1 ≠ fnv1a key := by
    intro kv hkv
    have hiter : kv ∈ h.iter := by
      rw [iter, Raw.iter, hr]
      exact hkv
    exact hfree kv.1 (Option.isSome_iff_exists.mpr ⟨kv.2, h.mem_iter_iff.mp hiter⟩)
  obtain ⟨_, _, hle, hlast, hat⟩ := calls_spec (h.valid.root_valid root hr) hhash hcalls
  refine ⟨hle, ?_⟩
  rintro rfl
  obtain ⟨hash, v, rfl⟩ := hlast rfl
  exact ⟨fun hne => hne rfl, root, hr, hat _ .leaf⟩

theorem HashFree.ends (hfree : h.HashFree key) : h.Ends key := by
  intro n hr
  refine acc_of_bounded maxLevels ?_
  rintro ⟨n', l⟩ hcalls
  exact (hfree.calls ⟨n, hr, hcalls⟩).1

end

/-- **The levels of an insertion.**  For every trie and key: `insert_node` stays on the
levels up to 12 and ends exactly if no other stored key has the hash of the key and the
leaf of the key itself is not below level 12; it takes digits on those levels only and ends
exactly if no other stored key has that hash, which is when the insertion returns. -/
theorem levelsBounded_iff (h : Hamt) (key value : Bytes) :
    (((∀ n l, h.Calls key (n, l) → l ≤ 12) ∧ h.Ends key) ↔
      h.HashFree key ∧ ¬h.LeafOf key 13) ∧
    (((∀ n l, h.Calls key (n, l) → TakesDigit key n → l ≤ 12) ∧ h.Ends key) ↔
      h.HashFree key) ∧
    ((∃ h', h.put key value = some h') ↔ h.HashFree key) := by
  refine ⟨⟨?_, ?_⟩, ⟨?_, ?_⟩, put_isSome_iff⟩
  · rintro ⟨hlevels, hends⟩
    refine ⟨hashFree_of_ends hends, ?_⟩
    rintro ⟨n, hr, hleaf⟩
    obtain ⟨v, hcalls⟩ := calls_to_leaf key (h.valid.root_valid n hr) hleaf rfl
    exact absurd (hlevels _ _ ⟨n, hr, hcalls⟩) (by decide)
  · rintro ⟨hfree, hleaf⟩
    refine ⟨fun n l hcalls => ?_, hfree.ends⟩
    obtain ⟨hle, hlast⟩ := hfree.calls hcalls
    exact Nat.lt_succ_iff.mp (lt_of_le_of_ne hle fun heq => hleaf (hlast heq).2)
  · rintro ⟨_, hends⟩
    exact hashFree_of_ends hends
  · intro hfree
    refine ⟨fun n l hcalls hdigit => ?_, hfree.ends⟩
    obtain ⟨hle, hlast⟩ := hfree.calls hcalls
    exact Nat.lt_succ_iff.mp (lt_of_le_of_ne hle fun heq => (hlast heq).1 hdigit)

/-- Two keys with one hash. -/
def twin₁ : Bytes :=
  [56, 121, 110, 48, 105, 89, 67, 75, 89, 72, 108, 73, 106, 52, 45, 66, 119, 80, 113, 107]

def twin₂ : Bytes :=
  [71, 82, 101, 76, 85, 114, 77, 52, 119, 77, 113, 102, 103, 57, 121, 122, 86, 51, 75, 81]

theorem fnv1a_twin : fnv1a twin₁ = fnv1a twin₂ := by decide +kernel

/-- After one `put` the insertion of the other key reaches every level, and never ends. -/
theorem collision_endless :
    ∃ h, new.run [.put twin₁ [1]] = some h ∧
      (∀ l, ∃ n, h.Calls twin₂ (n, l) ∧ TakesDigit twin₂ n) ∧ ¬h.Ends twin₂ ∧
      h.put twin₂ [2] = none := by
  have hne : twin₁ ≠ twin₂ := by decide
  obtain ⟨h, hput⟩ : ∃ h, new.put twin₁ [1] = some h := put_isSome fun k hk => by simp at hk
  have hroot : h.raw.root = some (.leaf (fnv1a twin₂) twin₁ [1]) := by
    have hraw := put_eq_some_raw hput
    rw [Raw.put, ← fnv1a_twin] at *
    simp only [new, Raw.new, insertRoot] at hraw
    rw [← Option.some_inj.mp hraw]
  have hget : (h.get twin₁).isSome := by
    rw [get_put hput, if_pos rfl]
    rfl
  have hhash : ¬h.HashFree twin₂ := fun hfree => hfree twin₁ hget hne fnv1a_twin
  refine ⟨h, ?_, fun l => ?_, fun hends => hhash (hashFree_of_ends hends), ?_⟩
  · simp [run, HamtOp.apply, hput]
  · exact ⟨_, ⟨_, hroot, calls_endless hne (Nat.zero_le l)⟩, hne⟩
  · cases hput₂ : h.put twin₂ [2] with
    | none => rfl
    | some h' => exact absurd (put_isSome_iff.mp ⟨h', hput₂⟩) hhash

end Hamt

end Uldb
