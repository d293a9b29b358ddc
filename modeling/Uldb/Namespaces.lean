/-
Namespaces (`namespace.rs`), and the request that deletes one (`server.rs`).

A stored key is the big-endian id of its namespace, followed by the key itself.  So the keys
are ordered by namespace first (`compare_scopeKey`), and what lies between two keys of a
namespace belongs to it (`exists_scopeKey`).

* `scan_namespace_iff` — the scans between two keys of a namespace;
* `nsDelete_iff` — what `NS_DELETE` deletes.  Its range starts behind the bare prefix and ends
  before the keys that go on with the byte `0xFF`.
-/
import Uldb.Reopen
import Uldb.TxFailure

namespace Uldb

open Fallible BigEndian

/-! ### Keys -/

/-- The namespace of a stored key. -/
def namespaceIdOf (scopedKey : Bytes) : Option UInt64 :=
  if scopedKey.length < 8 then none else some (UInt64.ofNat (toNat (scopedKey.take 8)))

/-- A stored key belongs to the namespace. -/
def keyInNamespace (scopedKey : Bytes) (namespaceId : UInt64) : Bool :=
  namespaceIdOf scopedKey = some namespaceId

/-- A key and its namespace are what was put together. -/
theorem eq_scopeKey_iff {key k : Bytes} {n : UInt64} :
    key = scopeKey n.toNat k ↔ namespaceIdOf key = some n ∧ unscopeKey key = some k := by
  constructor
  · rintro rfl
    have hlen : ¬(scopeKey n.toNat k).length < 8 := by simp [scopeKey]
    have htake : (scopeKey n.toNat k).take 8 = be 8 n.toNat := List.take_left' (be_length 8 _)
    have hdrop : (scopeKey n.toNat k).drop 8 = k := List.drop_left' (be_length 8 _)
    rw [namespaceIdOf, unscopeKey, if_neg hlen, if_neg hlen, htake, hdrop,
      toNat_be n.toNat_lt, UInt64.ofNat_toNat]
    exact ⟨rfl, rfl⟩
  · rintro ⟨hn, hk⟩
    by_cases hlen : key.length < 8
    · rw [unscopeKey, if_pos hlen] at hk
      exact absurd hk (by simp)
    · rw [namespaceIdOf, if_neg hlen, Option.some_inj] at hn
      rw [unscopeKey, if_neg hlen, Option.some_inj] at hk
      have htake : (key.take 8).length = 8 := by
        rw [List.length_take]
        omega
      have hwhole := be_toNat (key.take 8)
      have hlt := toNat_lt (key.take 8)
      rw [htake] at hwhole hlt
      rw [scopeKey, ← hn, ← hk, UInt64.toNat_ofNat_of_lt' hlt, hwhole, List.take_append_drop]

theorem keyInNamespace_iff {key : Bytes} {n : UInt64} :
    keyInNamespace key n = true ↔ ∃ k, key = scopeKey n.toNat k := by
  rw [keyInNamespace, decide_eq_true_eq]
  constructor
  · intro hn
    have hlen : ¬key.length < 8 := fun hlen => by
      rw [namespaceIdOf, if_pos hlen] at hn
      exact absurd hn (by simp)
    exact ⟨key.drop 8, eq_scopeKey_iff.mpr ⟨hn, by rw [unscopeKey, if_neg hlen]⟩⟩
  · rintro ⟨k, hk⟩
    exact (eq_scopeKey_iff.mp hk).1

/-- **The order of stored keys**: the namespace decides first. -/
theorem compare_scopeKey (n₁ n₂ : UInt64) (k₁ k₂ : Bytes) :
    compare (scopeKey n₁.toNat k₁) (scopeKey n₂.toNat k₂)
      = (compare n₁.toNat n₂.toNat).then (compare k₁ k₂) := by
  rw [scopeKey, scopeKey, compare_append (by simp), compare_be n₁.toNat_lt n₂.toNat_lt]

theorem scopeKey_lt_iff (n₁ n₂ : UInt64) (k₁ k₂ : Bytes) :
    compare (scopeKey n₁.toNat k₁) (scopeKey n₂.toNat k₂) = .lt ↔
      n₁ < n₂ ∨ n₁ = n₂ ∧ compare k₁ k₂ = .lt := by
  rw [compare_scopeKey, Ordering.then_eq_lt, compare_lt_iff_lt, compare_eq_iff_eq,
    UInt64.toNat_inj, UInt64.lt_iff_toNat_lt]

theorem scopeKey_inj {n : ℕ} {k k' : Bytes} : scopeKey n k = scopeKey n k' ↔ k = k' := by
  rw [scopeKey, scopeKey, List.append_right_inj]

/-! ### Ranges -/

/-- What lies between two keys with a common prefix has the prefix. -/
theorem InRange.startsWith {p start stop key : Bytes} (h : InRange (p ++ start) (p ++ stop) key) :
    p <+: key := by
  induction p generalizing key with
  | nil => exact List.nil_prefix
  | cons c p ih =>
    obtain ⟨hstart, hstop⟩ := h
    cases key with
    | nil => exact absurd rfl hstart
    | cons d key =>
      rw [List.cons_append, List.compare_cons_cons] at hstart hstop
      cases hcmp : compare d c with
      | lt =>
        rw [hcmp] at hstart
        exact absurd rfl hstart
      | gt =>
        rw [hcmp] at hstop
        exact absurd hstop (by simp [Ordering.then])
      | eq =>
        rw [hcmp] at hstart hstop
        rw [Std.LawfulEqCmp.eq_of_compare hcmp, List.cons_prefix_cons]
        exact ⟨rfl, ih ⟨hstart, hstop⟩⟩

theorem inRange_scopeKey {n : ℕ} {start stop k : Bytes} :
    InRange (scopeKey n start) (scopeKey n stop) (scopeKey n k) ↔ InRange start stop k := by
  rw [InRange, InRange, scopeKey, scopeKey, scopeKey, compare_append_left, compare_append_left]

theorem exists_scopeKey {n : ℕ} {start stop key : Bytes}
    (h : InRange (scopeKey n start) (scopeKey n stop) key) :
    ∃ k, key = scopeKey n k ∧ InRange start stop k := by
  obtain ⟨k, rfl⟩ := InRange.startsWith h
  exact ⟨k, rfl, inRange_scopeKey.mp h⟩

/-- The key is not empty and does not start with the byte `0xFF`. -/
def Inner (k : Bytes) : Prop := k ≠ [] ∧ k.head? ≠ some 0xFF

instance (k : Bytes) : Decidable (Inner k) := inferInstanceAs (Decidable (_ ∧ _))

theorem compare_nil_ne_lt (k : Bytes) : compare k [] ≠ .lt := by
  cases k with
  | nil => decide
  | cons b k => simp [List.compare_cons_nil]

theorem inRange_inner (k : Bytes) : InRange [0x00] [0xFF] k ↔ Inner k := by
  cases k with
  | nil => decide
  | cons b k =>
    have hlow : compare (b :: k) [0x00] ≠ .lt := by
      rw [List.compare_cons_cons, ← compare_uint8_toNat, Ne, Ordering.then_eq_lt, compare_lt_iff_lt]
      rintro (hlt | ⟨_, hlt⟩)
      · exact absurd hlt (Nat.not_lt_zero _)
      · exact compare_nil_ne_lt k hlt
    have hhigh : compare (b :: k) [0xFF] = .lt ↔ b ≠ 0xFF := by
      have hb : b.toNat < 256 := b.toNat_lt
      have hff : (0xFF : UInt8).toNat = 255 := rfl
      rw [List.compare_cons_cons, ← compare_uint8_toNat, Ordering.then_eq_lt, compare_lt_iff_lt,
        or_iff_left fun hlt => compare_nil_ne_lt k hlt.2, Ne, ← UInt8.toNat_inj]
      omega
    rw [InRange, and_iff_right hlow, hhigh, Inner]
    simp

/-- **The range of a namespace**: its keys, apart from the bare prefix and those that go on
with `0xFF`. -/
theorem inRange_nsScanRange {n : UInt64} {key : Bytes} :
    InRange (nsScanRange n).1 (nsScanRange n).2 key ↔
      ∃ k, key = scopeKey n.toNat k ∧ Inner k := by
  constructor
  · intro h
    have hscoped : InRange (scopeKey n.toNat [0x00]) (scopeKey n.toNat [0xFF]) key := h
    obtain ⟨k, hkey, hk⟩ := exists_scopeKey hscoped
    exact ⟨k, hkey, (inRange_inner k).mp hk⟩
  · rintro ⟨k, rfl, hk⟩
    have hin : InRange (scopeKey n.toNat [0x00]) (scopeKey n.toNat [0xFF]) (scopeKey n.toNat k) :=
      inRange_scopeKey.mpr ((inRange_inner k).mpr hk)
    exact hin

/-- **The keys of the range are those of the namespace** exactly for the sets of stored keys
that have no key of the namespace at its ends. -/
theorem nsScanRange_exact_iff (n : UInt64) (stored : Set Bytes) :
    (∀ key ∈ stored, InRange (nsScanRange n).1 (nsScanRange n).2 key ↔
      ∃ k, key = scopeKey n.toNat k) ↔ ∀ k, scopeKey n.toNat k ∈ stored → Inner k := by
  constructor
  · intro h k hk
    obtain ⟨k', hk', hinner⟩ := inRange_nsScanRange.mp ((h _ hk).mpr ⟨k, rfl⟩)
    exact scopeKey_inj.mp hk' ▸ hinner
  · intro h key hkey
    rw [inRange_nsScanRange]
    constructor
    · rintro ⟨k, hk, _⟩
      exact ⟨k, hk⟩
    · rintro ⟨k, rfl⟩
      exact ⟨k, rfl, h k hkey⟩

namespace Engine

/-! ### Scans of a namespace -/

variable {e e' : Engine}

/-- A scan between two keys of a namespace returns the live pairs of the namespace between
them, in the order of the unscoped keys. -/
def ScansNamespace (e : Engine) (n : UInt64) (start stop : Bytes) : Prop :=
  ∃ rows : List (Bytes × Bytes),
    e.scan (scopeKey n.toNat start) (scopeKey n.toNat stop)
        = .ok (rows.map fun row => (scopeKey n.toNat row.1, row.2)) ∧
      Ascending rows ∧
      ∀ k v, (k, v) ∈ rows ↔ InRange start stop k ∧ (e.get (scopeKey n.toNat k)).1 = some v

theorem ascending_scoped {n : ℕ} {rows : List (Bytes × Bytes)} :
    Ascending (rows.map fun row => (scopeKey n row.1, row.2)) ↔ Ascending rows := by
  rw [Ascending, Ascending, List.pairwise_map]
  simp only [scopeKey, compare_append_left]

theorem mem_scoped {n : ℕ} {rows : List (Bytes × Bytes)} {k v : Bytes} :
    (scopeKey n k, v) ∈ rows.map (fun row => (scopeKey n row.1, row.2)) ↔ (k, v) ∈ rows := by
  rw [List.mem_map]
  constructor
  · rintro ⟨⟨k', v'⟩, hmem, heq⟩
    obtain ⟨hk, rfl⟩ := Prod.mk.inj heq
    rw [scopeKey_inj] at hk
    exact hk ▸ hmem
  · intro hmem
    exact ⟨(k, v), hmem, rfl⟩

/-- It is a scan that returns what the reads return. -/
theorem scansNamespace_iff (n : UInt64) (start stop : Bytes) :
    e.ScansNamespace n start stop ↔
      e.ScansRange (fun k => (e.get k).1) (scopeKey n.toNat start) (scopeKey n.toNat stop) := by
  constructor
  · rintro ⟨rows, hrows, hasc, hpairs⟩
    refine ⟨_, hrows, ascending_scoped.mpr hasc, fun key v => ?_⟩
    rw [List.mem_map]
    constructor
    · rintro ⟨⟨k, v'⟩, hmem, heq⟩
      obtain ⟨rfl, rfl⟩ := Prod.mk.inj heq
      obtain ⟨hin, hv⟩ := (hpairs k v').mp hmem
      exact ⟨inRange_scopeKey.mpr hin, hv⟩
    · rintro ⟨hin, hv⟩
      obtain ⟨k, rfl, hk⟩ := exists_scopeKey hin
      exact ⟨(k, v), (hpairs k v).mpr ⟨hk, hv⟩, rfl⟩
  · rintro ⟨out, hout, hasc, hpairs⟩
    -- every key of the result has the namespace in front
    have hscoped : (out.map fun kv => (kv.1.drop 8, kv.2)).map
        (fun row => (scopeKey n.toNat row.1, row.2)) = out := by
      rw [List.map_map]
      refine (List.map_congr_left fun kv hkv => ?_).trans (List.map_id out)
      obtain ⟨k, hk, _⟩ := exists_scopeKey ((hpairs kv.1 kv.2).mp hkv).1
      have hdrop : kv.1.drop 8 = k := hk ▸ List.drop_left' (be_length 8 _)
      show (scopeKey n.toNat (kv.1.drop 8), kv.2) = kv
      rw [hdrop, ← hk]
    refine ⟨_, hscoped ▸ hout, ascending_scoped.mp (hscoped.symm ▸ hasc), fun k v => ?_⟩
    rw [← inRange_scopeKey, ← mem_scoped, hscoped]
    exact hpairs (scopeKey n.toNat k) v

/-- What a scan of a range needs in order to find what the reads find for the keys without an
entry in the memtable: before the first flush there is nothing, and after it the scan of the
levels returns it. -/
def ScanCovers (e : Engine) (start stop : Bytes) : Prop :=
  (e.Unflushed → ∀ k, InRange start stop k → e.memtable.getEntry k = none →
    (e.cache.lookup k).or (e.compactor.compaction.get k) = none) ∧
  (¬e.Unflushed → ∀ k, ¬(InRange start stop k ∧ (e.memtable.getEntry k).isSome = true) →
    (e.compactor.compaction.scan start stop)[k]? = if InRange start stop k
      then (e.cache.lookup k).or (e.compactor.compaction.get k) else none)

theorem scanCovers_iff (he : e.Drained) {start stop : Bytes} (hle : compare start stop ≠ .gt) :
    e.ScansRange (fun k => (e.get k).1) start stop ↔ e.ScanCovers start stop := by
  have hget : ∀ k, e.memtable.getEntry k = none →
      (e.get k).1 = (e.cache.lookup k).or (e.compactor.compaction.get k) := by
    intro k hnone
    rw [get_fst, hnone, he.below_eq]
    rfl
  rw [scansRange_iff he hle fun k entry hentry => by rw [get_fst, hentry]; rfl]
  refine and_congr (forall_congr' fun _ => forall_congr' fun k => forall_congr' fun _ =>
    forall_congr' fun hnone => ?_) (forall_congr' fun _ => forall_congr' fun k =>
      forall_congr' fun hfree => ?_)
  · rw [hget k hnone]
  · by_cases hin : InRange start stop k
    · rw [if_pos hin, if_pos hin, hget k (Memtable.getEntry_eq_none hin hfree)]
    · rw [if_neg hin, if_neg hin]

/-- On sorted pages: before the first flush nothing is live below the memtable, and after it
no cached value differs from the one of the levels. -/
theorem scanCovers_iff_of_sorted (hsorted : e.compactor.compaction.Sorted) {start stop : Bytes} :
    e.ScanCovers start stop ↔ ∀ k, InRange start stop k → e.memtable.getEntry k = none →
      (e.cache.lookup k).or (e.compactor.compaction.get k)
        = if e.Unflushed then none else e.compactor.compaction.get k := by
  rw [ScanCovers]
  by_cases hfast : e.Unflushed
  · simp only [hfast, not_true_eq_false, false_implies, and_true, true_implies, if_true]
  · simp only [hfast, false_implies, true_and, not_false_eq_true, true_implies, if_false,
      CompactionManager.getElem?_scan hsorted]
    constructor
    · intro h k hin hnone
      have hk := h k (by rw [hnone]; simp)
      rw [if_pos hin, if_pos hin] at hk
      exact hk.symm
    · intro h k hfree
      by_cases hin : InRange start stop k
      · rw [if_pos hin, if_pos hin, h k hin (Memtable.getEntry_eq_none hin hfree)]
      · rw [if_neg hin, if_neg hin]

theorem after_uncached [Codec] {t : ℕ} {dir : Dir} {log : Option Bytes}
    {outcomes : List (Option WriteFault)} {e₀ : Engine}
    (hopen : Engine.open t dir log outcomes = .ok e₀) {cs : List Call}
    (hcs : ∀ c ∈ cs, c.isPutOrDelete = true) : (e₀.after cs).Uncached :=
  (opened_of_open hopen).uncached.after hcs

/-- For the keys of a namespace that the memtable does not have: before the first flush nothing is
live, and after it no cached value differs from the one of the levels. -/
def BelowAgrees (e : Engine) (n : UInt64) (start stop : Bytes) : Prop :=
  ∀ k, InRange start stop k → e.memtable.getEntry (scopeKey n.toNat k) = none →
    (e.cache.lookup (scopeKey n.toNat k)).or (e.compactor.compaction.get (scopeKey n.toNat k))
      = if e.Unflushed then none else e.compactor.compaction.get (scopeKey n.toNat k)

theorem belowAgrees_iff (hsorted : e.compactor.compaction.Sorted) (n : UInt64)
    (start stop : Bytes) : e.ScanCovers (scopeKey n.toNat start) (scopeKey n.toNat stop) ↔
      e.BelowAgrees n start stop := by
  rw [scanCovers_iff_of_sorted hsorted]
  constructor
  · intro h k hin
    exact h (scopeKey n.toNat k) (inRange_scopeKey.mpr hin)
  · intro h key hin
    obtain ⟨k, rfl, hk⟩ := exists_scopeKey hin
    exact h k hk

/-- **Scoped keys and scans of a namespace.**  The stored keys are ordered by namespace, and
then as the keys; a stored key has one namespace and one key.  After any calls, a scan between
two keys of a namespace returns its live pairs between them exactly if it covers the keys that
the memtable does not have, which on sorted pages is a matter of the reads below it. -/
theorem scan_namespace_iff [Codec] :
    (∀ (n₁ n₂ : UInt64) (k₁ k₂ : Bytes),
      compare (scopeKey n₁.toNat k₁) (scopeKey n₂.toNat k₂) = .lt ↔
        n₁ < n₂ ∨ n₁ = n₂ ∧ compare k₁ k₂ = .lt) ∧
    (∀ (key k : Bytes) (n : UInt64),
      key = scopeKey n.toNat k ↔ namespaceIdOf key = some n ∧ unscopeKey key = some k) ∧
    ∀ (t : ℕ) (dir : Dir) (log : Option Bytes) (outcomes : List (Option WriteFault)) (e₀ : Engine),
      Engine.open t dir log outcomes = .ok e₀ →
        ∀ (cs : List Call) (n : UInt64) (start stop : Bytes), compare start stop ≠ .gt →
          ((e₀.after cs).ScansNamespace n start stop ↔
            (e₀.after cs).ScanCovers (scopeKey n.toNat start) (scopeKey n.toNat stop)) ∧
          (e₀.compactor.compaction.Sorted →
            ((e₀.after cs).ScansNamespace n start stop ↔
              (e₀.after cs).BelowAgrees n start stop)) := by
  refine ⟨scopeKey_lt_iff, fun key k n => eq_scopeKey_iff, ?_⟩
  intro t dir log outcomes e₀ hopen cs n start stop hle
  have hscoped : compare (scopeKey n.toNat start) (scopeKey n.toNat stop) ≠ .gt := by
    rw [scopeKey, scopeKey, compare_append_left]
    exact hle
  have hcovers : (e₀.after cs).ScansNamespace n start stop ↔
      (e₀.after cs).ScanCovers (scopeKey n.toNat start) (scopeKey n.toNat stop) := by
    rw [scansNamespace_iff]
    exact scanCovers_iff ((opened_of_open hopen).drained.after cs) hscoped
  refine ⟨hcovers, fun hsorted => ?_⟩
  rw [hcovers]
  exact belowAgrees_iff (after_sorted hopen hsorted cs) n start stop

/-- One record in each of two namespaces. -/
def twoNamespaces : List Call := [.put (scopeKey 5 [97]) [1], .put (scopeKey 6 []) [2]]

theorem twoNamespaces_puts : ∀ c ∈ twoNamespaces, c.isPutOrDelete = true := by
  simp [twoNamespaces, Call.isPutOrDelete]

/-- A scan of one of two namespaces. -/
theorem scan_namespace_two : ∃ e₀, @Engine.open storedCodec 1000 ∅ none [] = .ok e₀ ∧
    (@after storedCodec e₀ twoNamespaces).ScansNamespace 5 [97] [98] := by
  obtain ⟨e₀, hopen, hstate⟩ := exists_of_onOpened (a := (true, true)) (f := fun e =>
    let e' := @after storedCodec e twoNamespaces
    (decide e'.Unflushed, e'.compactor.compaction.allPages.isEmpty)) (by decide +kernel)
  obtain ⟨hfast, hempty⟩ := Prod.mk.inj hstate
  have huncached : (@after storedCodec e₀ twoNamespaces).Uncached :=
    @after_uncached storedCodec _ _ _ _ _ hopen _ twoNamespaces_puts
  refine ⟨e₀, hopen, ((@scan_namespace_iff storedCodec).2.2 _ _ _ _ _ hopen _ 5 [97] [98]
    (by decide)).1.mpr ⟨fun _ k _ _ => ?_, fun hfull => absurd (of_decide_eq_true hfast) hfull⟩⟩
  rw [huncached.cache, CompactionManager.get_of_isEmpty hempty]
  rfl

/-- A record of namespace 5 that was flushed before the database was opened again: a read
finds it, a scan of the namespace does not. -/
theorem scan_misses_namespace : (reopen 1 [.put (scopeKey 5 [107]) [118], .work]).map (fun s =>
    (((@work storedCodec s.2).get (scopeKey 5 [107])).1,
      ((@work storedCodec s.2).scan (scopeKey 5 [107]) (scopeKey 5 [108])).toOption))
      = some (some [118], some []) := by
  decide +kernel

/-! ### Deletes -/

/-- The last write of a key after deletes. -/
theorem lastWrite_deletes (keys : List Bytes) (k : Bytes) :
    lastWrite ((keys.map TxOp.delete).map TxOp.write) k
      = if k ∈ keys then some none else none := by
  induction keys with
  | nil => rfl
  | cons key keys ih =>
    rw [List.map_cons, TxOp.lastWrite_cons, ih]
    by_cases hk : k ∈ keys
    · rw [if_pos hk, if_pos (List.mem_cons_of_mem _ hk)]
      rfl
    · simp [TxOp.key, TxOp.value, hk, eq_comm]

theorem afterWrites_of_run [Codec] {ops : List TxOp} (h : e.run (ops.map TxOp.call) = some e') :
    AfterWrites e ops e' := by
  induction ops generalizing e with
  | nil =>
    obtain rfl : e = e' := Option.some_inj.mp h
    exact afterWrites_nil (w := e.wal) rfl
  | cons op ops ih =>
    rw [List.map_cons, run_cons, Option.bind_eq_some_iff] at h
    obtain ⟨e₁, hexec, hrun⟩ := h
    obtain ⟨_, hexec⟩ := success_eq_some hexec
    obtain ⟨hone, _⟩ : OneWrite e op e₁ ∧ e.applied (op :: ops) = op :: e₁.applied ops :=
      oneWrite_of_ok hexec
    exact .cons hone (ih hrun)

/-- Deletes that succeed and do not fill the memtable: their keys are gone, and nothing else. -/
theorem get_of_deletes [Codec] (he : e.Drained) {keys : List Bytes}
    (hrun : e.run (keys.map Call.delete) = some e') (hfill : ¬e.Fills (keys.map TxOp.delete))
    (k : Bytes) : (e'.get k).1 = if k ∈ keys then none else (e.get k).1 := by
  have hops : keys.map Call.delete = (keys.map TxOp.delete).map TxOp.call := by
    rw [List.map_map]
    rfl
  have h := afterWrites_of_run (hops ▸ hrun)
  have hfull : sinceFull e.flushThreshold e.memtable (keys.map TxOp.delete) = none := by
    rw [Fills, Option.not_isSome_iff_eq_none] at hfill
    exact hfill
  rw [get_fst, get_fst, he.below_eq, (h.drained he).below_eq, h.memtable, h.cache, h.levels,
    inMemtable, hfull]
  simp only [lastWrite_deletes]
  by_cases hk : k ∈ keys
  · rw [if_pos hk, if_pos hk]
    rfl
  · rw [if_neg hk, if_neg hk, if_pos rfl, Option.none_or]

/-- A scan finds what is live at a key of its range: the memtable has an entry, or something was
flushed and the levels have a value. -/
def Listed (e : Engine) (key : Bytes) : Prop :=
  (e.memtable.getEntry key).isSome = true ∨
    ¬e.Unflushed ∧ e.compactor.compaction.get key ≠ none

instance (e : Engine) (key : Bytes) : Decidable (e.Listed key) :=
  inferInstanceAs (Decidable (_ ∨ _))

/-- The keys that a scan of sorted pages returns. -/
theorem mem_scan_iff (he : e.Drained) (hsorted : e.compactor.compaction.Sorted)
    {start stop : Bytes} (hle : compare start stop ≠ .gt) {out : List (Bytes × Bytes)}
    (hout : e.scan start stop = .ok out) {key : Bytes} (hlive : (e.get key).1 ≠ none) :
    key ∈ out.map Prod.fst ↔ InRange start stop key ∧ e.Listed key := by
  obtain ⟨out', hout', _, hpairs⟩ := scan_spec he hle
  obtain rfl : out = out' := Except.ok.inj (hout.symm.trans hout')
  have hmem : key ∈ out.map Prod.fst ↔ e.scanned start stop key ≠ none := by
    rw [List.mem_map, Option.ne_none_iff_exists']
    constructor
    · rintro ⟨⟨k, v⟩, hkv, rfl⟩
      exact ⟨v, (hpairs k v).mp hkv⟩
    · rintro ⟨v, hv⟩
      exact ⟨(key, v), (hpairs key v).mpr hv, rfl⟩
  rw [hmem, scanned, scannedBelow, CompactionManager.getElem?_scan hsorted, Listed]
  by_cases hin : InRange start stop key
  · rw [if_pos hin, if_pos hin, and_iff_right hin]
    cases hentry : e.memtable.getEntry key with
    | some entry =>
      -- the entry is what the read finds
      rw [get_fst, hentry] at hlive
      exact iff_of_true hlive (.inl rfl)
    | none =>
      by_cases hfast : e.Unflushed
      · simp [hfast]
      · simp [hfast]
  · rw [if_neg hin, if_neg hin]
    simp [hin]

end Engine

namespace UmpHandler

open Engine

/-! ### The request -/

variable {e e' : Engine} {n : UInt64} {keys : List Bytes}

/-- Of the live records, those of the namespace are deleted and no others. -/
def DeletesNamespace (e : Engine) (n : UInt64) (keys : List Bytes) : Prop :=
  ∀ key, (e.get key).1 ≠ none → (key ∈ keys ↔ keyInNamespace key n = true)

/-- No record of the namespace is left, and all others read as before. -/
def NamespaceGone (e e' : Engine) (n : UInt64) : Prop :=
  ∀ key, (e'.get key).1 = if keyInNamespace key n then none else (e.get key).1

/-- No live record of the namespace is at the ends of its range, and the scan finds them. -/
def Deletable (e : Engine) (n : UInt64) : Prop :=
  ∀ k, (e.get (scopeKey n.toNat k)).1 ≠ none → Inner k ∧ e.Listed (scopeKey n.toNat k)

theorem deletesNamespace_iff (hkeys : ∀ key, (e.get key).1 ≠ none → (key ∈ keys ↔
    InRange (nsScanRange n).1 (nsScanRange n).2 key ∧ e.Listed key)) :
    DeletesNamespace e n keys ↔ Deletable e n := by
  constructor
  · intro h k hlive
    obtain ⟨hin, hlisted⟩ := (hkeys _ hlive).mp
      ((h _ hlive).mpr (keyInNamespace_iff.mpr ⟨k, rfl⟩))
    obtain ⟨k', hk', hinner⟩ := inRange_nsScanRange.mp hin
    exact ⟨scopeKey_inj.mp hk' ▸ hinner, hlisted⟩
  · intro h key hlive
    rw [hkeys key hlive, keyInNamespace_iff, inRange_nsScanRange]
    constructor
    · rintro ⟨⟨k, hk, _⟩, _⟩
      exact ⟨k, hk⟩
    · rintro ⟨k, rfl⟩
      obtain ⟨hinner, hlisted⟩ := h k hlive
      exact ⟨⟨k, rfl, hinner⟩, hlisted⟩

theorem namespaceGone_iff
    (hget : ∀ key, (e'.get key).1 = if key ∈ keys then none else (e.get key).1) :
    NamespaceGone e e' n ↔ DeletesNamespace e n keys := by
  constructor
  · intro h key hlive
    have hkey := h key
    rw [hget] at hkey
    by_cases hns : keyInNamespace key n = true
    · rw [if_pos hns] at hkey
      refine iff_of_true (by_contra fun hmem => ?_) hns
      rw [if_neg hmem] at hkey
      exact hlive hkey
    · rw [if_neg hns] at hkey
      refine iff_of_false (fun hmem => ?_) hns
      rw [if_pos hmem] at hkey
      exact hlive hkey.symm
  · intro h key
    rw [hget]
    by_cases hlive : (e.get key).1 = none
    · rw [hlive, ite_self, ite_self]
    · simp only [h key hlive]

variable [Codec]

/-- **`NS_DELETE`.**  Among any stored keys, those of the range are those of the namespace
exactly if none of the namespace is at the ends of the range.  So the request, in any state
after `open`, deletes the records of the namespace exactly if none of them is there and the
scan finds them; and this is what the reads show afterwards, if the deletes succeed and do not
fill the memtable. -/
theorem nsDelete_iff {t : ℕ} {dir : Dir} {log : Option Bytes} {outcomes : List (Option WriteFault)}
    {e₀ : Engine} (hopen : Engine.open t dir log outcomes = .ok e₀)
    (hsorted : e₀.compactor.compaction.Sorted) {cs : List Call} (hafter : e₀.after cs = e)
    (n : UInt64) :
    (∀ stored : Set Bytes, (∀ key ∈ stored, InRange (nsScanRange n).1 (nsScanRange n).2 key ↔
      ∃ k, key = scopeKey n.toNat k) ↔ ∀ k, scopeKey n.toNat k ∈ stored → Inner k) ∧
    ∃ keys e', handleNsDelete n e = .ok (resultEndResponse keys.length 0) e' ∧
      e' = e.after (keys.map Call.delete) ∧
      (DeletesNamespace e n keys ↔ Deletable e n) ∧
      ((e.run (keys.map Call.delete)).isSome = true → ¬e.Fills (keys.map TxOp.delete) →
        (NamespaceGone e e' n ↔ Deletable e n)) := by
  refine ⟨nsScanRange_exact_iff n, ?_⟩
  subst hafter
  have hdrained := (opened_of_open hopen).drained.after cs
  have hle : compare (nsScanRange n).1 (nsScanRange n).2 ≠ .gt := by
    rw [nsScanRange, compare_append_left]
    decide
  obtain ⟨out, hout⟩ := (e₀.after cs).scan_returns (.inl hle)
  have hdeletes := deletesNamespace_iff (n := n) fun key hlive =>
    mem_scan_iff hdrained (after_sorted hopen hsorted cs) hle hout hlive
  refine ⟨out.map Prod.fst, _, ?_, rfl, hdeletes, fun hrun hfill => ?_⟩
  · refine bind_eq_ok.mpr ⟨out, _, ?_, bind_eq_ok.mpr ⟨(), _, forM_deleteIgnored _ _, rfl⟩⟩
    rw [scanLocked, hout]
  · obtain ⟨e', he'⟩ := Option.isSome_iff_exists.mp hrun
    rw [after_of_run he', ← hdeletes]
    exact namespaceGone_iff (get_of_deletes hdrained he' hfill)

omit [Codec] in
/-- A record in each of two namespaces, one of which is deleted. -/
theorem nsDelete_two : ∃ e₀, @Engine.open storedCodec 1000 ∅ none [] = .ok e₀ ∧
    ∃ keys e', @handleNsDelete storedCodec 5 (@after storedCodec e₀ twoNamespaces)
        = .ok (resultEndResponse keys.length 0) e' ∧
      DeletesNamespace (@after storedCodec e₀ twoNamespaces) 5 keys := by
  obtain ⟨e₀, hopen, hstate⟩ := exists_of_onOpened (a := (true, true, true)) (f := fun e =>
    let e' := @after storedCodec e twoNamespaces
    (e.compactor.compaction.allPages.isEmpty, e'.compactor.compaction.allPages.isEmpty,
      decide (∀ key ∈ e'.memtable.entries.keys, key.take 8 = be 8 5 → Inner (key.drop 8))))
    (by decide +kernel)
  rw [Prod.mk.injEq, Prod.mk.injEq] at hstate
  obtain ⟨hempty₀, hempty, hinner⟩ := hstate
  have huncached : (@after storedCodec e₀ twoNamespaces).Uncached :=
    @after_uncached storedCodec _ _ _ _ _ hopen _ twoNamespaces_puts
  obtain ⟨_, keys, e', hdelete, _, hkeys, _⟩ := @nsDelete_iff _ storedCodec _ _ _ _ _ hopen
    (fun p hp => by rw [List.isEmpty_iff.mp hempty₀] at hp; exact absurd hp (by simp)) _ rfl 5
  refine ⟨e₀, hopen, keys, e', hdelete, hkeys.mpr fun k hlive => ?_⟩
  -- nothing is live but what the memtable has
  have hfive : (5 : UInt64).toNat = 5 := rfl
  rw [hfive] at hlive ⊢
  rw [huncached.get_fst] at hlive
  cases hentry : (@after storedCodec e₀ twoNamespaces).memtable.getEntry (scopeKey 5 k) with
  | none =>
    rw [hentry, CompactionManager.get_of_isEmpty hempty] at hlive
    exact absurd rfl hlive
  | some entry =>
    refine ⟨?_, .inl (by rw [hentry]; rfl)⟩
    have hkey : scopeKey 5 k ∈ (@after storedCodec e₀ twoNamespaces).memtable.entries.keys := by
      rw [Std.TreeMap.mem_keys, Std.TreeMap.mem_iff_isSome_getElem?]
      exact Option.isSome_of_eq_some hentry
    exact of_decide_eq_true hinner (scopeKey 5 k) hkey rfl

omit [Codec] in
/-- The record with the empty key, below the range of namespace 5, outlives its deletion. -/
theorem nsDelete_leaves : onOpened (fun e =>
    match @handleNsDelete storedCodec 5 (@after storedCodec e [.put (scopeKey 5 []) [1],
      .put (scopeKey 5 [97]) [3]]) with
    | .ok _ e' => some ((e'.get (scopeKey 5 [])).1, (e'.get (scopeKey 5 [97])).1)
    | .error _ _ => none) = some (some (some [1], none)) := by
  decide +kernel

end UmpHandler

end Uldb
