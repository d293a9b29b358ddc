/-
The trie invariant, and what the trie operations do to the stored pairs.

`Node.Valid level n` says that `n` may stand at a trie level: every leaf
carries the hash of its key, every branch has one child per set bit, and every
leaf below slot `b` has `b` as the digit of its hash at that level.  Under the
invariant

* `get_eq_some_iff` — a lookup finds exactly the stored pairs;
* `insertNode_spec`, `removeNode_spec` — the updates keep the invariant and
  change the stored pairs as a map update does;
* `insertNode_isSome` — an insertion returns as long as no other stored key
  has the same hash;
* `keys_nodup` — no key is stored twice.
-/
import Uldb.Hamt

namespace Uldb

open SparseArray

/-! ### Digits of a hash -/

theorem bitIndex_lt (hash : UInt64) (level : ℕ) : bitIndex hash level < 32 := by
  have h : (hash >>> (level * bitsPerLevel).toUInt64).toNat &&& 31 ≤ 31 := Nat.and_le_right
  rw [bitIndex, UInt64.toNat_and]
  exact Nat.lt_succ_of_le h

theorem bitIndex_eq {level : ℕ} (hl : level < maxLevels) (hash : UInt64) :
    bitIndex hash level = hash.toNat / 2 ^ (level * 5) % 2 ^ 5 := by
  have hl13 : level < 13 := hl
  have hshift : (level * bitsPerLevel).toUInt64.toNat % 64 = level * 5 := by
    have h64 : level * bitsPerLevel < 64 := by
      rw [bitsPerLevel]
      omega
    rw [Nat.toUInt64_eq, UInt64.toNat_ofNat_of_lt' (by rw [UInt64.size]; omega),
      Nat.mod_eq_of_lt h64]
    rfl
  rw [bitIndex, UInt64.toNat_and, UInt64.toNat_shiftRight, hshift,
    Nat.shiftRight_eq_div_pow]
  exact Nat.and_two_pow_sub_one_eq_mod _ 5

/-- A hash is determined by its digits on the thirteen levels. -/
theorem eq_of_bitIndex_eq {h₁ h₂ : UInt64}
    (h : ∀ level < maxLevels, bitIndex h₁ level = bitIndex h₂ level) : h₁ = h₂ := by
  apply UInt64.toNat_inj.mp
  apply Nat.eq_of_testBit_eq
  intro i
  by_cases hi : i < 64
  · have hdigit := h (i / 5) (by rw [maxLevels]; omega)
    rw [bitIndex_eq (by rw [maxLevels]; omega), bitIndex_eq (by rw [maxLevels]; omega)] at hdigit
    have hbit := congrArg (fun d => d.testBit (i % 5)) hdigit
    simp only [Nat.testBit_mod_two_pow, Nat.testBit_div_two_pow] at hbit
    rw [show i % 5 + i / 5 * 5 = i by omega] at hbit
    simpa [Nat.mod_lt i (show 0 < 5 by norm_num)] using hbit
  · have hlt : ∀ g : UInt64, g.toNat.testBit i = false := fun g =>
      Nat.testBit_lt_two_pow (lt_of_lt_of_le g.toNat_lt
        (Nat.pow_le_pow_right (by norm_num) (by omega)))
    rw [hlt, hlt]

namespace Node

/-! ### The invariant -/

/-- `n` may stand at a trie level. -/
inductive Valid : ℕ → Node → Prop where
  | leaf {level : ℕ} {hash : UInt64} {key value : Bytes} (hash_eq : hash = fnv1a key) :
      Valid level (.leaf hash key value)
  | branch {level : ℕ} {bitmap : UInt32} {children : List Node}
      (level_lt : level < maxLevels)
      (nonempty : children ≠ [])
      (length_eq : children.length = (bits bitmap).length)
      (child_valid : ∀ b c, (b, c) ∈ slots bitmap children → Valid (level + 1) c)
      (digit_eq : ∀ b c, (b, c) ∈ slots bitmap children →
        ∀ kv ∈ c.collectLeaves, bitIndex (fnv1a kv.1) level = b) :
      Valid level (.branch bitmap children)

theorem collectAll_eq_flatMap (children : List Node) :
    collectAll children = children.flatMap collectLeaves := by
  induction children with
  | nil => rfl
  | cons c cs ih => rw [collectAll, ih, List.flatMap_cons]

theorem slots_map_snd {bitmap : UInt32} {children : List Node}
    (hlen : children.length = (bits bitmap).length) :
    (slots bitmap children).map Prod.snd = children :=
  List.map_snd_zip (le_of_eq hlen)

theorem collectLeaves_branch {bitmap : UInt32} {children : List Node}
    (hlen : children.length = (bits bitmap).length) :
    (branch bitmap children).collectLeaves
      = (slots bitmap children).flatMap fun p => p.2.collectLeaves := by
  rw [collectLeaves, collectAll_eq_flatMap]
  conv_lhs => rw [← slots_map_snd hlen, List.flatMap_map]

theorem mem_collectLeaves_branch {bitmap : UInt32} {children : List Node}
    (hlen : children.length = (bits bitmap).length) {kv : Bytes × Bytes} :
    kv ∈ (branch bitmap children).collectLeaves ↔
      ∃ b c, (b, c) ∈ slots bitmap children ∧ kv ∈ c.collectLeaves := by
  rw [collectLeaves_branch hlen]
  simp

theorem getAt_eq (key : Bytes) (hash : UInt64) (children : List Node) (i level : ℕ) :
    getAt key hash children i level = children[i]?.bind fun c => c.get key hash level := by
  induction children generalizing i with
  | nil => simp [getAt]
  | cons c cs ih => cases i <;> simp [getAt, ih]

theorem insertAt_eq (hash : UInt64) (key value : Bytes) (children : List Node) (i level : ℕ) :
    insertAt hash key value children i level
      = children[i]?.bind fun c => c.insertNode hash key value level := by
  induction children generalizing i with
  | nil => simp [insertAt]
  | cons c cs ih => cases i <;> simp [insertAt, ih]

theorem removeAt_eq (hash : UInt64) (key : Bytes) (children : List Node) (i level : ℕ) :
    removeAt hash key children i level
      = children[i]?.bind fun c => c.removeNode hash key level := by
  induction children generalizing i with
  | nil => simp [removeAt]
  | cons c cs ih => cases i <;> simp [removeAt, ih]

/-- The slot test of a branch, as a test of one bit. -/
theorem slot_test (bitmap : UInt32) (hash : UInt64) (level : ℕ) :
    bitmap &&& flag (bitIndex hash level) = 0 ↔
      bitmap.toNat.testBit (bitIndex hash level) = false :=
  and_flag_eq_zero (bitIndex_lt hash level)

/-- Following the slot of a hash: the child that every stored pair with this
digit lies in. -/
theorem Valid.exists_child {level : ℕ} {bitmap : UInt32} {children : List Node} {hash : UInt64}
    (hlen : children.length = (bits bitmap).length)
    (hm : ¬bitmap &&& flag (bitIndex hash level) = 0) :
    bitmap.toNat.testBit (bitIndex hash level) = true ∧
      ∃ c, children[sparseIndex bitmap (bitIndex hash level)]? = some c ∧
        ∀ c', (bitIndex hash level, c') ∈ slots bitmap children ↔ c' = c := by
  rw [slot_test, Bool.not_eq_false] at hm
  exact ⟨hm, getElem?_rank (bitIndex_lt hash level) hm hlen⟩

/-! ### Lookup -/

/-- A lookup finds exactly the stored pairs. -/
theorem get_eq_some_iff {level : ℕ} {n : Node} (hn : n.Valid level) {key value : Bytes} :
    n.get key (fnv1a key) level = some value ↔ (key, value) ∈ n.collectLeaves := by
  generalize hhash : fnv1a key = hash
  induction hn with
  | @leaf _ _ k v _ =>
    rw [get, collectLeaves, List.mem_singleton, Prod.mk.injEq]
    by_cases hk : k = key
    · rw [if_pos hk, Option.some_inj]
      exact ⟨fun h => ⟨hk.symm, h.symm⟩, fun h => h.2.symm⟩
    · rw [if_neg hk]
      exact ⟨fun h => absurd h (by simp), fun h => absurd h.1.symm hk⟩
  | @branch level bitmap children _ _ hlen hvalid hdigit ih =>
    -- A stored pair lies in the slot that is the digit of its key.
    have hslot_of : ∀ b c, (b, c) ∈ slots bitmap children → (key, value) ∈ c.collectLeaves →
        bitIndex hash level = b := by
      intro b c hc hmem
      rw [← hhash]
      exact hdigit b c hc (key, value) hmem
    rw [get, mem_collectLeaves_branch hlen]
    by_cases hm : bitmap &&& flag (bitIndex hash level) = 0
    · simp only [hm, if_true]
      constructor
      · intro h
        exact absurd h (by simp)
      · rintro ⟨b, c, hc, hmem⟩
        have hbit := hslot_of b c hc hmem
        subst hbit
        have hset := (mem_bits.mp (List.of_mem_zip hc).1).2
        rw [(slot_test _ _ _).mp hm] at hset
        exact absurd hset (by simp)
    · obtain ⟨_, c, hget, hslot⟩ := Valid.exists_child hlen hm
      simp only [hm, if_false]
      rw [getAt_eq, hget, Option.bind_some, ih _ c ((hslot c).mpr rfl)]
      constructor
      · intro h
        exact ⟨_, c, (hslot c).mpr rfl, h⟩
      · rintro ⟨b, c', hc', hmem⟩
        have hbit := hslot_of b c' hc' hmem
        subst hbit
        rwa [(hslot c').mp hc'] at hmem

/-- No key is stored twice. -/
theorem keys_nodup {level : ℕ} {n : Node} (hn : n.Valid level) :
    (n.collectLeaves.map Prod.fst).Nodup := by
  induction hn with
  | leaf => simp [collectLeaves]
  | @branch level bitmap children _ _ hlen hvalid hdigit ih =>
    have hfst : ((slots bitmap children).map Prod.fst).Nodup := by
      rw [slots, List.map_fst_zip (le_of_eq hlen.symm)]
      exact bits_nodup bitmap
    rw [collectLeaves_branch hlen, List.map_flatMap, List.nodup_flatMap]
    refine ⟨fun p hp => ih p.1 p.2 hp, ?_⟩
    refine (List.pairwise_map.mp hfst).imp_of_mem fun {p q} hp hq hne => ?_
    -- A key of both children would have both slots as its digit.
    intro k hkp hkq
    obtain ⟨kv, hkv, rfl⟩ := List.mem_map.mp hkp
    obtain ⟨kv', hkv', heq⟩ := List.mem_map.mp hkq
    apply hne
    rw [← hdigit p.1 p.2 hp kv hkv, ← hdigit q.1 q.2 hq kv' hkv', heq]

/-! ### Insertion -/

/-- The stored pairs after writing `value` under `key`. -/
def Wrote (old new : List (Bytes × Bytes)) (key value : Bytes) : Prop :=
  ∀ kv, kv ∈ new ↔ kv = (key, value) ∨ (kv ∈ old ∧ kv.1 ≠ key)

theorem wrote_leaf (level : ℕ) (key value existingValue : Bytes) :
    Valid level (.leaf (fnv1a key) key value) ∧
      Wrote [(key, existingValue)] (leaf (fnv1a key) key value).collectLeaves key value := by
  refine ⟨.leaf rfl, fun kv => ?_⟩
  simp only [collectLeaves, List.mem_singleton]
  constructor
  · exact .inl
  · rintro (h | ⟨rfl, hne⟩)
    · exact h
    · exact absurd rfl hne

/-- A single-child branch above a valid node whose pairs share a digit. -/
theorem valid_single {level b : ℕ} {n : Node} (hlevel : level < maxLevels) (hb : b < 32)
    (hn : n.Valid (level + 1))
    (hdigit : ∀ kv ∈ n.collectLeaves, bitIndex (fnv1a kv.1) level = b) :
    Valid level (.branch (flag b) [n]) ∧
      (branch (flag b) [n]).collectLeaves = n.collectLeaves := by
  have hslots : ∀ b' c, (b', c) ∈ slots (flag b) [n] → b' = b ∧ c = n := by
    intro b' c hc
    rw [slots, bits_flag hb] at hc
    simpa using hc
  constructor
  · refine .branch hlevel (by simp) (by rw [bits_flag hb]; rfl) ?_ ?_
    · intro b' c hc
      rw [(hslots b' c hc).2]
      exact hn
    · intro b' c hc kv hkv
      rw [(hslots b' c hc).2] at hkv
      rw [(hslots b' c hc).1]
      exact hdigit kv hkv
  · simp [collectLeaves, collectAll]

/-- A branch of two leaves with different digits. -/
theorem valid_pair {level : ℕ} {k₁ k₂ : Bytes} (v₁ v₂ : Bytes) (hlevel : level < maxLevels)
    (hne : bitIndex (fnv1a k₁) level ≠ bitIndex (fnv1a k₂) level) :
    ∃ children, (if bitIndex (fnv1a k₁) level < bitIndex (fnv1a k₂) level then
        [leaf (fnv1a k₁) k₁ v₁, leaf (fnv1a k₂) k₂ v₂]
      else [leaf (fnv1a k₂) k₂ v₂, leaf (fnv1a k₁) k₁ v₁]) = children ∧
      Valid level (.branch
        (flag (bitIndex (fnv1a k₁) level) ||| flag (bitIndex (fnv1a k₂) level)) children) ∧
      ∀ kv, kv ∈ (branch (flag (bitIndex (fnv1a k₁) level) |||
          flag (bitIndex (fnv1a k₂) level)) children).collectLeaves ↔
        kv = (k₁, v₁) ∨ kv = (k₂, v₂) := by
  obtain ⟨hlen, hmem⟩ := mem_slots_two (bitIndex_lt (fnv1a k₁) level)
    (bitIndex_lt (fnv1a k₂) level) hne (leaf (fnv1a k₁) k₁ v₁) (leaf (fnv1a k₂) k₂ v₂)
  refine ⟨_, rfl, .branch hlevel (by split <;> simp) hlen ?_ ?_, fun kv => ?_⟩
  · intro b c hc
    rcases (hmem _).mp hc with h | h <;> cases h <;> exact .leaf rfl
  · intro b c hc kv hkv
    rcases (hmem _).mp hc with h | h <;> cases h <;>
      · rw [collectLeaves, List.mem_singleton] at hkv
        rw [hkv]
  · rw [mem_collectLeaves_branch hlen]
    constructor
    · rintro ⟨b, c, hc, hkv⟩
      rcases (hmem _).mp hc with h | h <;> cases h
      · exact .inl (by simpa [collectLeaves] using hkv)
      · exact .inr (by simpa [collectLeaves] using hkv)
    · rintro (rfl | rfl)
      · exact ⟨_, _, (hmem _).mpr (.inl rfl), by simp [collectLeaves]⟩
      · exact ⟨_, _, (hmem _).mpr (.inr rfl), by simp [collectLeaves]⟩

theorem insertLeaf_spec {existingKey existingValue key value : Bytes} :
    ∀ {fuel level : ℕ} {n : Node}, fuel = maxLevels - level →
      insertLeaf (fnv1a existingKey) existingKey existingValue (fnv1a key) key value fuel level
        = some n →
      n.Valid level ∧ Wrote [(existingKey, existingValue)] n.collectLeaves key value := by
  intro fuel
  induction fuel with
  | zero =>
    intro level n _ h
    rw [insertLeaf] at h
    by_cases hk : existingKey = key
    · rw [if_pos hk, Option.some_inj] at h
      subst h hk
      exact wrote_leaf level _ _ _
    · rw [if_neg hk] at h
      exact absurd h (by simp)
  | succ fuel ih =>
    intro level n hfuel h
    have hlevel : level < maxLevels := by omega
    rw [insertLeaf] at h
    by_cases hk : existingKey = key
    · rw [if_pos hk, Option.some_inj] at h
      subst h hk
      exact wrote_leaf level _ _ _
    · rw [if_neg hk] at h
      have hold : (existingKey, existingValue).1 ≠ key := hk
      by_cases hbit : bitIndex (fnv1a existingKey) level = bitIndex (fnv1a key) level
      · -- The digits agree: a single-child branch above the deeper insertion.
        simp only [hbit, if_true, Option.bind_eq_bind, Option.bind_eq_some_iff,
          Option.some_inj] at h
        obtain ⟨deeper, hdeeper, rfl⟩ := h
        obtain ⟨hvalid, hwrote⟩ := ih (by omega) hdeeper
        have hdigit : ∀ kv ∈ deeper.collectLeaves,
            bitIndex (fnv1a kv.1) level = bitIndex (fnv1a key) level := by
          intro kv hkv
          rcases (hwrote kv).mp hkv with rfl | ⟨hkv, _⟩
          · rfl
          · rw [List.mem_singleton.mp hkv]
            exact hbit
        obtain ⟨hv, hleaves⟩ := valid_single hlevel (bitIndex_lt _ level) hvalid hdigit
        rw [hleaves]
        exact ⟨hv, hwrote⟩
      · -- The digits differ: a branch of the two leaves.
        obtain ⟨children, hchildren, hv, hleaves⟩ :=
          valid_pair existingValue value hlevel hbit
        have hn : n = .branch (flag (bitIndex (fnv1a existingKey) level) |||
            flag (bitIndex (fnv1a key) level)) children := by
          rw [← hchildren]
          simp only [hbit, if_false] at h
          by_cases hlt : bitIndex (fnv1a existingKey) level < bitIndex (fnv1a key) level
          · rw [if_pos hlt, Option.some_inj] at h
            rw [if_pos hlt, h]
          · rw [if_neg hlt, Option.some_inj] at h
            rw [if_neg hlt, h]
        subst hn
        refine ⟨hv, fun kv => (hleaves kv).trans ?_⟩
        rw [List.mem_singleton]
        constructor
        · rintro (rfl | h)
          · exact .inr ⟨rfl, hold⟩
          · exact .inl h
        · rintro (h | ⟨h, _⟩)
          · exact .inr h
          · exact .inl h

/-- The pairs of the child in slot `b` are the pairs with digit `b`. -/
theorem mem_child_iff {level b : ℕ} {bitmap : UInt32} {children : List Node} {c : Node}
    (hlen : children.length = (bits bitmap).length)
    (hdigit : ∀ b c, (b, c) ∈ slots bitmap children →
      ∀ kv ∈ c.collectLeaves, bitIndex (fnv1a kv.1) level = b)
    (hslot : ∀ c', (b, c') ∈ slots bitmap children ↔ c' = c) (kv : Bytes × Bytes) :
    kv ∈ c.collectLeaves ↔
      kv ∈ (branch bitmap children).collectLeaves ∧ bitIndex (fnv1a kv.1) level = b := by
  rw [mem_collectLeaves_branch hlen]
  constructor
  · intro hkv
    exact ⟨⟨b, c, (hslot c).mpr rfl, hkv⟩, hdigit b c ((hslot c).mpr rfl) kv hkv⟩
  · rintro ⟨⟨b', c', hc', hkv⟩, hbit⟩
    have hb : b' = b := (hdigit b' c' hc' kv hkv).symm.trans hbit
    subst hb
    rwa [(hslot c').mp hc'] at hkv

/-- Replacing the child in a set slot by a valid node with the slot's digit. -/
theorem valid_set {level b : ℕ} {bitmap : UInt32} {children : List Node} {c' : Node}
    (hn : Valid level (.branch bitmap children)) (hb : b < 32)
    (hset : bitmap.toNat.testBit b = true) (hc' : c'.Valid (level + 1))
    (hdigit' : ∀ kv ∈ c'.collectLeaves, bitIndex (fnv1a kv.1) level = b) :
    Valid level (.branch bitmap (children.set (sparseIndex bitmap b) c')) ∧
      ∀ kv, kv ∈ (branch bitmap (children.set (sparseIndex bitmap b) c')).collectLeaves ↔
        kv ∈ c'.collectLeaves ∨
          (kv ∈ (branch bitmap children).collectLeaves ∧ bitIndex (fnv1a kv.1) level ≠ b) := by
  cases hn with
  | branch hlevel hne hlen hvalid hdigit =>
    have hmem := mem_slots_set hb hset hlen c'
    have hlen' : (children.set (sparseIndex bitmap b) c').length = (bits bitmap).length := by
      rw [List.length_set, hlen]
    refine ⟨.branch hlevel (by simpa using hne) hlen' ?_ ?_, fun kv => ?_⟩
    · intro b' d hd
      rcases (hmem _).mp hd with h | ⟨h, _⟩
      · cases h
        exact hc'
      · exact hvalid b' d h
    · intro b' d hd kv hkv
      rcases (hmem _).mp hd with h | ⟨h, _⟩
      · cases h
        exact hdigit' kv hkv
      · exact hdigit b' d h kv hkv
    · rw [mem_collectLeaves_branch hlen', mem_collectLeaves_branch hlen]
      constructor
      · rintro ⟨b', d, hd, hkv⟩
        rcases (hmem _).mp hd with h | ⟨h, hbne⟩
        · cases h
          exact .inl hkv
        · refine .inr ⟨⟨b', d, h, hkv⟩, ?_⟩
          rwa [hdigit b' d h kv hkv]
      · rintro (hkv | ⟨⟨b', d, hd, hkv⟩, hbne⟩)
        · exact ⟨b, c', (hmem _).mpr (.inl rfl), hkv⟩
        · rw [hdigit b' d hd kv hkv] at hbne
          exact ⟨b', d, (hmem _).mpr (.inr ⟨hd, hbne⟩), hkv⟩

theorem not_mem_of_slot_clear {level : ℕ} {bitmap : UInt32} {children : List Node}
    {kv : Bytes × Bytes} {key : Bytes} (hn : Valid level (.branch bitmap children))
    (hclear : bitmap.toNat.testBit (bitIndex (fnv1a key) level) = false)
    (hkv : kv ∈ (branch bitmap children).collectLeaves) : kv.1 ≠ key := by
  cases hn with
  | branch hlevel hne hlen hvalid hdigit =>
    rintro rfl
    obtain ⟨b, c, hc, hmem⟩ := (mem_collectLeaves_branch hlen).mp hkv
    have hset := (mem_bits.mp (List.of_mem_zip hc).1).2
    rw [← hdigit b c hc kv hmem, hclear] at hset
    exact absurd hset (by simp)

/-- A new leaf in a clear slot. -/
theorem valid_insert {level : ℕ} {bitmap : UInt32} {children : List Node} (key value : Bytes)
    (hn : Valid level (.branch bitmap children))
    (hclear : bitmap.toNat.testBit (bitIndex (fnv1a key) level) = false) :
    Valid level (.branch (bitmap ||| flag (bitIndex (fnv1a key) level))
        (children.insertIdx (sparseIndex bitmap (bitIndex (fnv1a key) level))
          (.leaf (fnv1a key) key value))) ∧
      ∀ kv, kv ∈ (branch (bitmap ||| flag (bitIndex (fnv1a key) level))
          (children.insertIdx (sparseIndex bitmap (bitIndex (fnv1a key) level))
            (.leaf (fnv1a key) key value))).collectLeaves ↔
        kv = (key, value) ∨ kv ∈ (branch bitmap children).collectLeaves := by
  have hb := bitIndex_lt (fnv1a key) level
  cases hn with
  | branch hlevel hne hlen hvalid hdigit =>
    -- the slots afterwards are the old ones and the new leaf's
    obtain ⟨hlen', hmem⟩ := mem_slots_insert hb hclear hlen (leaf (fnv1a key) key value)
    rw [sparseIndex]
    refine ⟨.branch hlevel ?_ hlen' ?_ ?_, fun kv => ?_⟩
    · intro hnil
      have hzero := congrArg List.length hnil
      rw [hlen', (bits_or_flag hb hclear).2] at hzero
      simp at hzero
    · intro b c hc
      rcases (hmem _).mp hc with h | h
      · cases h
        exact .leaf rfl
      · exact hvalid b c h
    · intro b c hc kv hkv
      rcases (hmem _).mp hc with h | h
      · cases h
        rw [collectLeaves, List.mem_singleton] at hkv
        rw [hkv]
      · exact hdigit b c h kv hkv
    · rw [mem_collectLeaves_branch hlen', mem_collectLeaves_branch hlen]
      constructor
      · rintro ⟨b, c, hc, hkv⟩
        rcases (hmem _).mp hc with h | h
        · cases h
          exact .inl (List.mem_singleton.mp hkv)
        · exact .inr ⟨b, c, h, hkv⟩
      · rintro (rfl | ⟨b, c, hc, hkv⟩)
        · exact ⟨_, _, (hmem _).mpr (.inl rfl), by simp [collectLeaves]⟩
        · exact ⟨b, c, (hmem _).mpr (.inr hc), hkv⟩

theorem insertNode_spec {level : ℕ} {n n' : Node} {key value : Bytes} (hn : n.Valid level)
    (h : n.insertNode (fnv1a key) key value level = some n') :
    n'.Valid level ∧ Wrote n.collectLeaves n'.collectLeaves key value := by
  induction hn generalizing n' with
  | @leaf level hash k v hash_eq =>
    subst hash_eq
    rw [insertNode] at h
    exact insertLeaf_spec rfl h
  | @branch level bitmap children hlevel hne hlen hvalid hdigit ih =>
    have hn : Valid level (.branch bitmap children) := .branch hlevel hne hlen hvalid hdigit
    have hb := bitIndex_lt (fnv1a key) level
    rw [insertNode] at h
    by_cases hm : bitmap &&& flag (bitIndex (fnv1a key) level) = 0
    · -- A new slot: no stored pair has the key.
      simp only [hm, if_true, Option.some_inj] at h
      subst h
      have hclear := (slot_test _ _ _).mp hm
      obtain ⟨hv, hleaves⟩ := valid_insert key value hn hclear
      refine ⟨hv, fun kv => (hleaves kv).trans (or_congr_right ?_)⟩
      exact ⟨fun hkv => ⟨hkv, not_mem_of_slot_clear hn hclear hkv⟩, fun hkv => hkv.1⟩
    · -- An existing slot: the insertion recurses into its child.
      obtain ⟨hset, c, hget, hslot⟩ := Valid.exists_child hlen hm
      simp only [hm, if_false, insertAt_eq, hget, Option.bind_some, Option.bind_eq_bind,
        Option.bind_eq_some_iff, Option.some_inj] at h
      obtain ⟨c', hc', rfl⟩ := h
      obtain ⟨hv', hwrote⟩ := ih _ c ((hslot c).mpr rfl) hc'
      have hchild := mem_child_iff hlen hdigit hslot
      have hdigit' : ∀ kv ∈ c'.collectLeaves,
          bitIndex (fnv1a kv.1) level = bitIndex (fnv1a key) level := by
        intro kv hkv
        rcases (hwrote kv).mp hkv with rfl | ⟨hold, _⟩
        · rfl
        · exact ((hchild kv).mp hold).2
      obtain ⟨hv, hleaves⟩ := valid_set hn hb hset hv' hdigit'
      refine ⟨hv, fun kv => (hleaves kv).trans ?_⟩
      rw [hwrote kv, hchild kv]
      constructor
      · rintro ((h | ⟨⟨hold, _⟩, hkey⟩) | ⟨hold, hbne⟩)
        · exact .inl h
        · exact .inr ⟨hold, hkey⟩
        · exact .inr ⟨hold, fun hkey => hbne (by rw [hkey])⟩
      · rintro (h | ⟨hold, hkey⟩)
        · exact .inl (.inl h)
        · by_cases hbit : bitIndex (fnv1a kv.1) level = bitIndex (fnv1a key) level
          · exact .inl (.inr ⟨⟨hold, hbit⟩, hkey⟩)
          · exact .inr ⟨hold, hbit⟩

/-! ### Insertion returns -/

theorem insertLeaf_isSome {existingKey existingValue key value : Bytes}
    (hhash : existingKey ≠ key → fnv1a existingKey ≠ fnv1a key) :
    ∀ {fuel level : ℕ}, fuel = maxLevels - level →
      (∀ l < level, bitIndex (fnv1a existingKey) l = bitIndex (fnv1a key) l) →
      (insertLeaf (fnv1a existingKey) existingKey existingValue (fnv1a key) key value
        fuel level).isSome := by
  intro fuel
  induction fuel with
  | zero =>
    intro level hfuel hagree
    rw [insertLeaf]
    by_cases hk : existingKey = key
    · rw [if_pos hk]
      rfl
    · -- Agreement on all thirteen levels means equal hashes.
      exact absurd (eq_of_bitIndex_eq fun l hl => hagree l (by omega)) (hhash hk)
  | succ fuel ih =>
    intro level hfuel hagree
    rw [insertLeaf]
    by_cases hk : existingKey = key
    · rw [if_pos hk]
      rfl
    · rw [if_neg hk]
      by_cases hbit : bitIndex (fnv1a existingKey) level = bitIndex (fnv1a key) level
      · have hdeeper := @ih (level + 1) (by omega) fun l hl => by
          rcases Nat.lt_succ_iff_lt_or_eq.mp hl with h | rfl
          · exact hagree l h
          · exact hbit
        obtain ⟨deeper, hd⟩ := Option.isSome_iff_exists.mp hdeeper
        simp [hbit, hd]
      · simp only [hbit, if_false]
        split <;> rfl

/-- An insertion returns if no other stored key has the hash of the key. -/
theorem insertNode_isSome {level : ℕ} {n : Node} {key value : Bytes} (hn : n.Valid level)
    (hagree : ∀ kv ∈ n.collectLeaves, ∀ l < level,
      bitIndex (fnv1a kv.1) l = bitIndex (fnv1a key) l)
    (hhash : ∀ kv ∈ n.collectLeaves, kv.1 ≠ key → fnv1a kv.1 ≠ fnv1a key) :
    (n.insertNode (fnv1a key) key value level).isSome := by
  induction hn with
  | @leaf level hash k v hash_eq =>
    subst hash_eq
    rw [insertNode]
    exact insertLeaf_isSome (hhash (k, v) (by simp [collectLeaves])) rfl
      (hagree (k, v) (by simp [collectLeaves]))
  | @branch level bitmap children hlevel hne hlen hvalid hdigit ih =>
    rw [insertNode]
    by_cases hm : bitmap &&& flag (bitIndex (fnv1a key) level) = 0
    · simp [hm]
    · obtain ⟨_, c, hget, hslot⟩ := Valid.exists_child hlen hm
      have hchild := mem_child_iff hlen hdigit hslot
      have hc := ih _ c ((hslot c).mpr rfl)
        (fun kv hkv l hl => by
          rcases Nat.lt_succ_iff_lt_or_eq.mp hl with h | rfl
          · exact hagree kv ((hchild kv).mp hkv).1 l h
          · exact ((hchild kv).mp hkv).2)
        (fun kv hkv => hhash kv ((hchild kv).mp hkv).1)
      obtain ⟨c', hc'⟩ := Option.isSome_iff_exists.mp hc
      simp [hm, insertAt_eq, hget, hc']

/-! ### Removal -/

/-- Erasing the child in a set slot of a branch with another child. -/
theorem valid_erase {level b : ℕ} {bitmap : UInt32} {children : List Node}
    (hn : Valid level (.branch bitmap children)) (hb : b < 32)
    (hset : bitmap.toNat.testBit b = true) (hlen1 : children.length ≠ 1) :
    Valid level (.branch (bitmap &&& ~~~flag b) (children.eraseIdx (sparseIndex bitmap b))) ∧
      ∀ kv, kv ∈ (branch (bitmap &&& ~~~flag b)
          (children.eraseIdx (sparseIndex bitmap b))).collectLeaves ↔
        kv ∈ (branch bitmap children).collectLeaves ∧ bitIndex (fnv1a kv.1) level ≠ b := by
  cases hn with
  | branch hlevel hne hlen hvalid hdigit =>
    obtain ⟨hlen', hmem⟩ := mem_slots_erase hb hset hlen
    rw [sparseIndex]
    refine ⟨.branch hlevel ?_ hlen' ?_ ?_, fun kv => ?_⟩
    · intro hnil
      have hzero := congrArg List.length hnil
      obtain ⟨h1, h2⟩ := bits_and_not_flag hb hset
      rw [hlen', h2] at hzero
      rw [hlen, h1] at hlen1
      simp only [List.length_append, List.length_cons, List.length_nil] at hzero hlen1
      omega
    · intro b' c hc
      exact hvalid b' c ((hmem _).mp hc).1
    · intro b' c hc
      exact hdigit b' c ((hmem _).mp hc).1
    · rw [mem_collectLeaves_branch hlen', mem_collectLeaves_branch hlen]
      constructor
      · rintro ⟨b', c, hc, hkv⟩
        obtain ⟨hc, hbne⟩ := (hmem _).mp hc
        refine ⟨⟨b', c, hc, hkv⟩, ?_⟩
        rwa [hdigit b' c hc kv hkv]
      · rintro ⟨⟨b', c, hc, hkv⟩, hbne⟩
        rw [hdigit b' c hc kv hkv] at hbne
        exact ⟨b', c, (hmem _).mpr ⟨hc, hbne⟩, hkv⟩

/-- What a removal leaves: nothing, or a valid node without the key. -/
def Removed (level : ℕ) (old : List (Bytes × Bytes)) (key : Bytes) : Option Node → Prop
  | none => ∀ kv ∈ old, kv.1 = key
  | some n => n.Valid level ∧ ∀ kv, kv ∈ n.collectLeaves ↔ kv ∈ old ∧ kv.1 ≠ key

theorem removeNode_spec {level : ℕ} {n : Node} (key : Bytes) (hn : n.Valid level) :
    Removed level n.collectLeaves key (n.removeNode (fnv1a key) key level) := by
  induction hn with
  | @leaf level hash k v hash_eq =>
    rw [removeNode]
    by_cases hk : k = key
    · rw [if_pos hk]
      intro kv hkv
      rw [collectLeaves, List.mem_singleton] at hkv
      rw [hkv]
      exact hk
    · rw [if_neg hk]
      refine ⟨.leaf hash_eq, fun kv => ?_⟩
      rw [collectLeaves, List.mem_singleton]
      exact ⟨fun h => ⟨h, by rw [h]; exact hk⟩, fun h => h.1⟩
  | @branch level bitmap children hlevel hne hlen hvalid hdigit ih =>
    have hn : Valid level (.branch bitmap children) := .branch hlevel hne hlen hvalid hdigit
    have hb := bitIndex_lt (fnv1a key) level
    rw [removeNode]
    by_cases hm : bitmap &&& flag (bitIndex (fnv1a key) level) = 0
    · simp only [hm, if_true]
      have hclear := (slot_test _ _ _).mp hm
      exact ⟨hn, fun kv => ⟨fun hkv => ⟨hkv, not_mem_of_slot_clear hn hclear hkv⟩,
        fun hkv => hkv.1⟩⟩
    · obtain ⟨hset, c, hget, hslot⟩ := Valid.exists_child hlen hm
      have hchild := mem_child_iff hlen hdigit hslot
      have hdigit_ne : ∀ kv : Bytes × Bytes,
          bitIndex (fnv1a kv.1) level ≠ bitIndex (fnv1a key) level → kv.1 ≠ key :=
        fun kv hbne hkey => hbne (by rw [hkey])
      have hrem := ih _ c ((hslot c).mpr rfl)
      simp only [hm, if_false, removeAt_eq, hget, Option.bind_some]
      cases hc' : c.removeNode (fnv1a key) key (level + 1) with
      | none =>
        rw [hc'] at hrem
        by_cases hlen1 : children.length = 1
        · -- The only child was removed, so every pair had the key.
          simp only [hlen1, if_true]
          intro kv hkv
          have hone : children = [c] := by
            obtain ⟨d, hd⟩ := List.length_eq_one_iff.mp hlen1
            have hcd : c ∈ children := List.mem_of_getElem? hget
            rw [hd, List.mem_singleton] at hcd
            rw [hd, hcd]
          apply hrem kv
          rw [hone] at hkv
          simpa [collectLeaves, collectAll] using hkv
        · simp only [hlen1, if_false]
          obtain ⟨hv, hleaves⟩ := valid_erase hn hb hset hlen1
          refine ⟨hv, fun kv => (hleaves kv).trans ?_⟩
          constructor
          · rintro ⟨hkv, hbne⟩
            exact ⟨hkv, hdigit_ne kv hbne⟩
          · rintro ⟨hkv, hkey⟩
            exact ⟨hkv, fun hbit => hkey (hrem kv ((hchild kv).mpr ⟨hkv, hbit⟩))⟩
      | some c' =>
        rw [hc'] at hrem
        obtain ⟨hv', hleaves'⟩ := hrem
        have hdigit' : ∀ kv ∈ c'.collectLeaves,
            bitIndex (fnv1a kv.1) level = bitIndex (fnv1a key) level :=
          fun kv hkv => ((hchild kv).mp ((hleaves' kv).mp hkv).1).2
        obtain ⟨hv, hleaves⟩ := valid_set hn hb hset hv' hdigit'
        refine ⟨hv, fun kv => (hleaves kv).trans ?_⟩
        rw [hleaves' kv, hchild kv]
        constructor
        · rintro (⟨⟨hkv, _⟩, hkey⟩ | ⟨hkv, hbne⟩)
          · exact ⟨hkv, hkey⟩
          · exact ⟨hkv, hdigit_ne kv hbne⟩
        · rintro ⟨hkv, hkey⟩
          by_cases hbit : bitIndex (fnv1a kv.1) level = bitIndex (fnv1a key) level
          · exact .inl ⟨⟨hkv, hbit⟩, hkey⟩
          · exact .inr ⟨hkv, hbit⟩

end Node

end Uldb
