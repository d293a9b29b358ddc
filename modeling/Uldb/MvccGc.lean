/-
Collecting old versions (`MvccStore::gc`).

The loop over a chain cuts it behind the second committed version it meets that is older
than the oldest active snapshot.  Nothing is asked of the versions behind the cut; that
none of them is needed rests on the order of a chain:

* `Descending.reachable` — the timestamps of the committed versions of a chain decrease
  from its head, whatever intents lie between them, since a version is stamped at the head
  only and by then its transaction has drawn a later timestamp than all those below it;
* `gcChain_spec` — what is cut off lies behind a committed version below the snapshot;
* `gc_invisible` — so no read at the snapshot or after it can tell the difference.
-/
import Uldb.Mvcc

namespace Uldb

namespace Mvcc

open Fallible

namespace MvccStore

/-- The loop of `gc` over one chain: what is left of it, and how many versions were
removed. -/
def gcChain (oldestActiveTs : ℕ) : Bool → List Version → List Version × ℕ
  | _, [] => ([], 0)
  | seenCommitted, ver :: prev =>
    match ver.commitTs with
    | some commitTs =>
      if seenCommitted ∧ commitTs < oldestActiveTs then ([ver], prev.length)
      else
        let (rest, removed) := gcChain oldestActiveTs true prev
        (ver :: rest, removed)
    | none =>
      let (rest, removed) := gcChain oldestActiveTs seenCommitted prev
      (ver :: rest, removed)

/-- Cut all chains; returns the number of versions removed. -/
def gc (store : MvccStore) (oldestActiveTs : ℕ) : ℕ × MvccStore :=
  ((store.chains.toList.map fun kv => (gcChain oldestActiveTs false kv.2).2).sum,
    { store with chains := store.chains.map fun _ head => (gcChain oldestActiveTs false head).1 })

/-- The number of versions in all chains. -/
def versionCount (store : MvccStore) : ℕ := (store.chains.toList.map fun kv => kv.2.length).sum

theorem chain_gc (store : MvccStore) (t : ℕ) (key : String) :
    (store.gc t).2.chain key = (gcChain t false (store.chain key)).1 := by
  rw [chain, chain, gc, Std.TreeMap.getElem?_map]
  cases store.chains[key]? <;> rfl

/-- **The loop over a chain** cuts off a tail.  If there is one, a committed version below
the snapshot is kept in front of it. -/
theorem gcChain_spec (t : ℕ) (seen : Bool) (vs : List Version) :
    ∃ removed, vs = (gcChain t seen vs).1 ++ removed ∧
      removed.length = (gcChain t seen vs).2 ∧
      (removed = [] ∨ ∃ ver ∈ (gcChain t seen vs).1, ∃ ts, ver.commitTs = some ts ∧ ts < t) := by
  induction vs generalizing seen with
  | nil => exact ⟨[], rfl, rfl, .inl rfl⟩
  | cons ver prev ih =>
    have hkeep : ∀ seen', gcChain t seen (ver :: prev)
        = (ver :: (gcChain t seen' prev).1, (gcChain t seen' prev).2) →
        ∃ removed, ver :: prev = (gcChain t seen (ver :: prev)).1 ++ removed ∧
          removed.length = (gcChain t seen (ver :: prev)).2 ∧
          (removed = [] ∨ ∃ v ∈ (gcChain t seen (ver :: prev)).1,
            ∃ ts, v.commitTs = some ts ∧ ts < t) := by
      intro seen' heq
      obtain ⟨removed, hsplit, hlen, hfloor⟩ := ih seen'
      rw [heq]
      refine ⟨removed, by rw [List.cons_append, ← hsplit], hlen, hfloor.imp_right ?_⟩
      rintro ⟨v, hv, ts, hts⟩
      exact ⟨v, List.mem_cons_of_mem _ hv, ts, hts⟩
    cases hts : ver.commitTs with
    | none => exact hkeep seen (by rw [gcChain, hts])
    | some ts =>
      by_cases hcut : seen = true ∧ ts < t
      · have heq : gcChain t seen (ver :: prev) = ([ver], prev.length) := by
          rw [gcChain, hts]
          simp only [if_pos hcut]
        rw [heq]
        exact ⟨prev, rfl, rfl, .inr ⟨ver, List.mem_singleton.mpr rfl, ts, hts, hcut.2⟩⟩
      · refine hkeep true ?_
        rw [gcChain, hts]
        simp only [if_neg hcut]

/-- What is removed is what is missing. -/
theorem gc_versionCount (store : MvccStore) (t : ℕ) :
    (store.gc t).1 + (store.gc t).2.versionCount = store.versionCount := by
  rw [gc, versionCount, versionCount, Std.TreeMap.toList_map, List.map_map, ← List.sum_map_add]
  congr 1
  refine List.map_congr_left fun kv _ => ?_
  obtain ⟨removed, hsplit, hlen, _⟩ := gcChain_spec t false kv.2
  show (gcChain t false kv.2).2 + (gcChain t false kv.2).1.length = kv.2.length
  rw [← hlen, Nat.add_comm, ← List.length_append, ← hsplit]

end MvccStore

/-! ### The order of a chain -/

/-- The committed versions of a chain have decreasing timestamps, from the newest to the
oldest. -/
def DescendingChain (vs : List Version) : Prop :=
  vs.Pairwise fun newer older => ∀ ts ts', newer.commitTs = some ts → older.commitTs = some ts' →
    ts' < ts

/-- The committed versions below a version have timestamps below the one its transaction
has drawn. -/
def Descending (s : System) : Prop :=
  ∀ key, (s.store.chain key).Pairwise fun newer older => ∀ ts ts',
    drawn (s.txns newer.txnId) = some ts → older.commitTs = some ts' → ts' < ts

variable {s s' : System} {a : Act}

theorem descending_init : Descending System.init := fun key => by
  simp [System.init, MvccStore.new, MvccStore.chain]

/-- A stamp changes the head only. -/
theorem pairwise_stampHead {R : Version → Version → Prop} {id ts : ℕ} {vs : List Version}
    (hR : ∀ newer older : Version, R newer older → R { newer with commitTs := some ts } older)
    (h : vs.Pairwise R) : (MvccStore.stampHead id ts vs).Pairwise R := by
  cases vs with
  | nil => exact h
  | cons ver prev =>
    rw [MvccStore.stampHead]
    by_cases hver : ver.txnId = id ∧ ver.commitTs = none
    · rw [if_pos hver]
      rw [List.pairwise_cons] at h ⊢
      exact ⟨fun older holder => hR ver older (h.1 older holder), h.2⟩
    · rw [if_neg hver]
      exact h

theorem Descending.step (hd : Descending s) (hs : Stamps s) (h : Effect s a s') :
    Descending s' := by
  -- a timestamp drawn by the act is above all stamps so far
  have hdrawn : ∀ key, ∀ older ∈ s.store.chain key, ∀ id ts ts',
      (∀ ts ts', drawn (s.txns id) = some ts → older.commitTs = some ts' → ts' < ts) →
      drawn (s'.txns id) = some ts → older.commitTs = some ts' → ts' < ts := by
    intro key older holder id ts ts' hold hts hts'
    rcases h.drawn_eq id with heq | ⟨_, hnew, _⟩
    · rw [heq] at hts
      exact hold ts ts' hts hts'
    · rw [hnew, Option.some_inj] at hts
      have := hs.bound _ _ (hs.stamped key older holder ts' hts')
      omega
  intro key
  have hsame : (s.store.chain key).Pairwise fun newer older => ∀ ts ts',
      drawn (s'.txns newer.txnId) = some ts → older.commitTs = some ts' → ts' < ts := by
    refine (hd key).imp_of_mem fun {newer older} _ holder hold ts ts' => ?_
    exact hdrawn key older holder newer.txnId ts ts' hold
  rcases h.chain_eq key with ⟨_, hchain⟩ | ⟨id, value, hact, hchain, _, _, hnone⟩ |
    ⟨id, value, ts, _, hchain, _⟩
  · rw [hchain]
    exact hsame
  · -- the transaction of a new intent has not drawn a timestamp yet
    rw [hchain, List.pairwise_cons]
    refine ⟨fun older holder ts ts' hts hts' => ?_, hsame⟩
    refine hdrawn key older holder id ts ts' (fun _ _ hold _ => ?_) hts hts'
    rw [hnone] at hold
    exact absurd hold (by simp)
  · rw [hchain]
    exact pairwise_stampHead (fun _ _ hold => hold) hsame

theorem Descending.reachable {acts : List Act} (h : System.init.run acts = some s) :
    Descending s := by
  refine (foldlM_induction (P := fun s => Stamps s ∧ Descending s) h
    ⟨stamps_init, descending_init⟩ fun _ _ _ _ ht hstep => ?_).2
  exact ⟨ht.1.step (effect_of_step hstep), ht.2.step ht.1 (effect_of_step hstep)⟩

/-- **Every chain of a reachable store** has decreasing timestamps. -/
theorem descendingChain_of_run {acts : List Act} (h : System.init.run acts = some s)
    (key : String) : DescendingChain (s.store.chain key) := by
  have hs := Stamps.reachable h
  refine (Descending.reachable h key).imp_of_mem fun {newer older} hnewer _ hold ts ts' hts hts' =>
    hold ts ts' (hs.stamped key newer hnewer ts hts) hts'

/-! ### What a collection leaves -/

/-- The newest committed version of a key. -/
def NewestCommitted (store : MvccStore) (key : String) (ver : Version) : Prop :=
  ver ∈ store.chain key ∧ ∃ ts, ver.commitTs = some ts ∧
    ∀ ver' ∈ store.chain key, ∀ ts', ver'.commitTs = some ts' → ts' ≤ ts

/-- The versions that are cut off a descending chain are older than the snapshot, and one
in front of them is both newer than they are and older than the snapshot. -/
theorem removed_below {t : ℕ} {kept removed : List Version}
    (hd : DescendingChain (kept ++ removed))
    (hfloor : removed = [] ∨ ∃ ver ∈ kept, ∃ ts, ver.commitTs = some ts ∧ ts < t) :
    ∀ ver ∈ removed, ∀ ts, ver.commitTs = some ts →
      ∃ floor ∈ kept, ∃ ts', floor.commitTs = some ts' ∧ ts < ts' ∧ ts' < t := by
  intro ver hver ts hts
  rcases hfloor with hnil | ⟨floor, hkept, ts', hts', hlt⟩
  · rw [hnil] at hver
    exact absurd hver (by simp)
  · have hbelow := (List.pairwise_append.mp hd).2.2 floor hkept ver hver ts' ts hts' hts
    exact ⟨floor, hkept, ts', hts', hbelow, hlt⟩

/-- **Collection is invisible** in every store that commits of any number of transactions
can lead to, call by call: at the snapshot and after it the reads and the validations of
all keys answer as before, the newest committed version of a key stays, and the result is
the number of versions that are gone. -/
theorem gc_invisible {acts : List Act} (h : System.init.run acts = some s) (t : ℕ) :
    (∀ key ts, t ≤ ts → (s.store.gc t).2.read key ts = s.store.read key ts ∧
      (s.store.gc t).2.hasCommittedSince key ts = s.store.hasCommittedSince key ts) ∧
    (∀ key ver, NewestCommitted s.store key ver → ver ∈ (s.store.gc t).2.chain key) ∧
    (s.store.gc t).1 + (s.store.gc t).2.versionCount = s.store.versionCount := by
  refine ⟨fun key ts hle => ?_, fun key ver hnewest => ?_, s.store.gc_versionCount t⟩
  · obtain ⟨removed, hsplit, _, hfloor⟩ := MvccStore.gcChain_spec t false (s.store.chain key)
    have hd := descendingChain_of_run h key
    rw [MvccStore.read, MvccStore.read, MvccStore.hasCommittedSince, MvccStore.hasCommittedSince,
      MvccStore.chain_gc]
    set kept := (MvccStore.gcChain t false (s.store.chain key)).1
    rw [hsplit] at hd ⊢
    constructor
    · -- a read stops in front of the cut
      rcases hfloor with rfl | ⟨floor, hkept, ts', hts', hlt⟩
      · rw [List.append_nil]
      · have hvisible : (kept.find? fun v => v.visible ts).isSome = true := by
          rw [List.find?_isSome]
          exact ⟨floor, hkept, by simp [Version.visible, hts']; omega⟩
        rw [List.find?_append, Option.or_of_isSome hvisible]
    · have hnone : (removed.any fun v => v.commitTs.any fun x => decide (ts < x)) = false := by
        rw [List.any_eq_false]
        intro ver hver
        cases hc : ver.commitTs with
        | none => simp
        | some ts' =>
          obtain ⟨_, _, ts₁, _, hlt, hlt₁⟩ := removed_below hd hfloor ver hver ts' hc
          rw [Option.any_some, decide_eq_true_eq]
          omega
      rw [List.any_append, hnone, Bool.or_false]
  · obtain ⟨removed, hsplit, _, hfloor⟩ := MvccStore.gcChain_spec t false (s.store.chain key)
    have hd := descendingChain_of_run h key
    obtain ⟨hmem, ts, hts, hmax⟩ := hnewest
    rw [MvccStore.chain_gc]
    rw [hsplit] at hmem hd hmax
    rcases List.mem_append.mp hmem with hkept | hremoved
    · exact hkept
    · obtain ⟨floor, hfloor, ts', hts', hlt, _⟩ := removed_below hd hfloor ver hremoved ts hts
      have := hmax floor (List.mem_append_left _ hfloor) ts' hts'
      omega

/-- Three commits of one key, one after the other. -/
def threeCommits : List Act := [1, 2, 3].flatMap fun id =>
  [.begin id .snapshot, .put id "k" [UInt8.ofNat id], .commit id, .writeIntent id "k", .nextTs id,
    .commitKey id "k"]

/-- The oldest of three versions is removed, and a read at the snapshot stays the same. -/
theorem gc_invisible_three : ∃ s, System.init.run threeCommits = some s ∧
    (s.store.gc 3).1 = 1 ∧ (s.store.gc 3).2.read "k" 3 = s.store.read "k" 3 := by
  have hcount : (System.init.run threeCommits).map (fun s => (s.store.gc 3).1) = some 1 := by
    decide +kernel
  obtain ⟨s, hs, hremoved⟩ := Option.map_eq_some_iff.mp hcount
  exact ⟨s, hs, hremoved, ((gc_invisible hs 3).1 "k" 3 (le_refl 3)).1⟩

end Mvcc

end Uldb
