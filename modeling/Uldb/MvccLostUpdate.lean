/-
Lost updates at level snapshot.

Every commit is one step here, and the other calls interleave.  A commit at level
snapshot checks nothing: it returns a timestamp also where another transaction has
committed, since the begin, a key that this one has read and now overwrites.

* `committedSinceBegin_iff` — the check that the commit leaves out would find exactly
  those commits;
* `total_of_commit` — where there are none, a transfer keeps the total;
* `snapshot_updates` — both, over all histories;
* `update_lost` — two transfers from one account overlap.
-/
import Uldb.MvccAtomic

namespace Uldb

namespace Mvcc

open Fallible

/-! ### Commits since the begin -/

/-- A commit of the key came in after the transaction had begun, in the history of the
events; `h` is where they lead. -/
def CommittedSinceBegin (es : List Event) (h : History) (id : ℕ) (key : String) : Prop :=
  ∃ before isolation rest g new, es = before ++ .begin isolation :: rest ∧
    History.init.run before = some g ∧ id = g.nextTxnId + 1 ∧ h.log = new ++ g.log ∧
      ∃ c ∈ new, (c.writes[key]?).isSome = true

/-- If the commit of the transaction returns a timestamp, then no key that it has read and
that it writes has been committed since its begin. -/
def NoLostUpdate (es : List Event) (h : History) (id : ℕ) (p : Pending) : Prop :=
  ∀ order ts, order.Perm p.txn.writes.keys → (p.txn.commit h.store id order).1 = .ok ts →
    ∀ key, .get id key ∈ es → key ∈ p.txn.writes → ¬CommittedSinceBegin es h id key

/-- The check of a serializable commit, on the keys that the transaction has read and that
it writes, finds nothing. -/
def Unchanged (es : List Event) (h : History) (id : ℕ) (p : Pending) : Prop :=
  ∀ key, .get id key ∈ es → key ∈ p.txn.writes →
    h.store.hasCommittedSince key p.txn.snapshotTs = false

theorem History.run_append {h h' : History} {es es' : List Event} :
    h.run (es ++ es') = some h' ↔ ∃ g, h.run es = some g ∧ g.run es' = some h' :=
  foldlM_append_eq_some

/-- A transaction that has not ended has begun. -/
theorem exists_begin {es : List Event} {h : History} (hrun : History.init.run es = some h)
    {id : ℕ} {p : Pending} (hp : h.txns id = some p) :
    ∃ before isolation rest g, es = before ++ .begin isolation :: rest ∧
      History.init.run before = some g ∧ id = g.nextTxnId + 1 := by
  refine foldlM_history (P := fun es h => ∀ p, h.txns id = some p →
    ∃ before isolation rest g, es = before ++ .begin isolation :: rest ∧
      History.init.run before = some g ∧ id = g.nextTxnId + 1)
    (fun p hp => absurd hp (by simp [History.init])) ?_ hrun p hp
  intro es e h h' hrun ih hstep p hp
  have hbefore : ∀ p, h.txns id = some p → ∃ before isolation rest g,
      es ++ [e] = before ++ .begin isolation :: rest ∧
        History.init.run before = some g ∧ id = g.nextTxnId + 1 := by
    intro p hp
    obtain ⟨before, isolation, rest, g, rfl, hg⟩ := ih p hp
    exact ⟨before, isolation, rest ++ [e], g, by simp, hg⟩
  cases effect_of_event hstep with
  | @begins isolation =>
    rcases History.txns_of_set hp with ⟨hid, _⟩ | hp
    · exact ⟨es, isolation, [], h, rfl, hrun, hid⟩
    · exact hbefore p hp
  | goes hp₀ =>
    rcases History.txns_of_set hp with ⟨hid, _⟩ | hp
    · exact hbefore _ (hid ▸ hp₀)
    · exact hbefore p hp
  | ends => exact hbefore p (History.txns_of_ended hp)
  | commits => exact hbefore p (History.txns_of_ended hp)

/-- What has happened since the begin of a transaction. -/
theorem of_begin {before rest : List Event} {isolation : Isolation} {g h : History}
    (hg : History.init.run before = some g)
    (hrun : History.init.run (before ++ .begin isolation :: rest) = some h) {p : Pending}
    (hp : h.txns (g.nextTxnId + 1) = some p) :
    p.txn.snapshotTs = g.store.ts ∧
      ∃ new, h.log = new ++ g.log ∧ ∀ c ∈ new, g.store.ts < c.ts := by
  obtain ⟨g', hg', hrun⟩ := History.run_append.mp hrun
  obtain rfl : g = g' := Option.some_inj.mp (hg.symm.trans hg')
  obtain ⟨g₁, hstep, hrun⟩ := History.run_cons hrun
  obtain rfl := Option.some_inj.mp hstep
  have hlater : Later (g.nextTxnId + 1) _ h := Later.run hrun (le_refl _)
  obtain ⟨p₁, hp₁, hsame, _⟩ := hlater.txn p hp
  rw [History.set_txns, if_pos rfl, Option.some_inj] at hp₁
  refine ⟨?_, hlater.log⟩
  rw [hsame.snapshotTs, ← hp₁]
  rfl

/-- **The check finds the commits since the begin.** -/
theorem committedSinceBegin_iff {es : List Event} {h : History}
    (hrun : History.init.run es = some h) {id : ℕ} {p : Pending} (hp : h.txns id = some p)
    (key : String) :
    CommittedSinceBegin es h id key ↔ h.store.hasCommittedSince key p.txn.snapshotTs = true := by
  rw [(ordered_init.run hrun).hasCommittedSince_iff]
  constructor
  · rintro ⟨before, isolation, rest, g, new, rfl, hg, rfl, hlog, c, hc, hsome⟩
    obtain ⟨hsnapshot, new', hlog', hnew⟩ := of_begin hg hrun hp
    obtain rfl : new = new' := List.append_cancel_right (hlog.symm.trans hlog')
    refine ⟨c, by rw [hlog]; exact List.mem_append_left _ hc, hsome, ?_⟩
    rw [hsnapshot]
    exact hnew c hc
  · rintro ⟨c, hc, hsome, hts⟩
    obtain ⟨before, isolation, rest, g, rfl, hg, rfl⟩ := exists_begin hrun hp
    obtain ⟨hsnapshot, new, hlog, _⟩ := of_begin hg hrun hp
    refine ⟨before, isolation, rest, g, new, rfl, hg, rfl, hlog, c, ?_, hsome⟩
    rw [hlog] at hc
    rcases List.mem_append.mp hc with hc | hc
    · exact hc
    · -- the commits before the begin are not above the snapshot
      have hle := (ordered_init.run hg).bound c hc
      omega

/-- A commit at level snapshot always returns a timestamp. -/
theorem commit_snapshot {t : Transaction} (hiso : t.isolation = .snapshot) (store : MvccStore)
    (txnId : ℕ) (order : List String) : ∃ ts, (t.commit store txnId order).1 = .ok ts := by
  have hnone : t.conflict store = none := by
    rw [Transaction.conflict, if_neg (by rw [hiso]; simp)]
  rw [Transaction.commit, hnone]
  exact ⟨_, rfl⟩

theorem noLostUpdate_iff {es : List Event} {h : History} (hrun : History.init.run es = some h)
    {id : ℕ} {p : Pending} (hp : h.txns id = some p) (hiso : p.txn.isolation = .snapshot) :
    NoLostUpdate es h id p ↔ Unchanged es h id p := by
  constructor
  · intro hno key hread hwrite
    obtain ⟨ts, hok⟩ := commit_snapshot hiso h.store id p.txn.writes.keys
    have hnot := hno p.txn.writes.keys ts (.refl _) hok key hread hwrite
    rw [committedSinceBegin_iff hrun hp, Bool.not_eq_true] at hnot
    exact hnot
  · intro hsame order ts _ _ key hread hwrite
    rw [committedSinceBegin_iff hrun hp, hsame key hread hwrite]
    simp

/-! ### Transfers -/

/-- The transaction has read the key from the store, and got the value. -/
def HasRead (es : List Event) (id : ℕ) (key : String) (v : Option Bytes) : Prop :=
  ∃ before rest g q, es = before ++ .get id key :: rest ∧ History.init.run before = some g ∧
    g.txns id = some q ∧ q.txn.writes[key]? = none ∧ q.get g.store key = v

section Totals

variable {M : Type} [AddCommMonoid M] (A : Finset String) (w : Option Bytes → M)

/-- The sum of what the accounts hold. -/
def total (log : List Committed) : M := ∑ key ∈ A, w (committed log key)

/-- Read-modify-write: the transaction has read every account that it writes, and its
writes have the sum of what it has read there. -/
def IsTransfer (es : List Event) (id : ℕ) (p : Pending) : Prop :=
  ∃ seen : String → Option Bytes,
    (∀ key ∈ A, key ∈ p.txn.writes → HasRead es id key (seen key)) ∧
      ∑ key ∈ A with key ∈ p.txn.writes, w (p.txn.writes[key]?)
        = ∑ key ∈ A with key ∈ p.txn.writes, w (seen key)

/-- Every commit of the events that follow is the commit of a transfer at level snapshot,
for which the check finds nothing. -/
def TransfersOnly (es₀ : List Event) (h₀ : History) (es : List Event) : Prop :=
  ∀ before id order rest g p, es = before ++ .commit id order :: rest →
    h₀.run before = some g → g.txns id = some p → p.txn.isolation = .snapshot ∧
      IsTransfer A w (es₀ ++ before) id p ∧ Unchanged (es₀ ++ before) g id p

variable {A w}

theorem committed_cons (c : Committed) (log : List Committed) (key : String) :
    committed (c :: log) key = (c.writes[key]?).or (committed log key) := by
  rw [committed, List.findSome?_cons]
  cases c.writes[key]? <;> rfl

/-- What a transaction has read is the latest value, where the check finds nothing. -/
theorem HasRead.eq_committed {es : List Event} {h : History}
    (hrun : History.init.run es = some h) {id : ℕ} {p : Pending} (hp : h.txns id = some p)
    (hiso : p.txn.isolation = .snapshot) {key : String} {v : Option Bytes}
    (hread : HasRead es id key v)
    (hsame : h.store.hasCommittedSince key p.txn.snapshotTs = false) : v = committed h.log key := by
  obtain ⟨before, rest, g, q, rfl, hg, hq, hunwritten, rfl⟩ := hread
  obtain ⟨g', hg', hrun'⟩ := History.run_append.mp hrun
  obtain rfl : g = g' := Option.some_inj.mp (hg.symm.trans hg')
  have ho := ordered_init.run hg
  obtain ⟨q', hq', hcont, _⟩ := (Later.run hrun' (ho.ids id q hq)).txn p hp
  obtain rfl : q = q' := Option.some_inj.mp (hq.symm.trans hq')
  have hlevel : q.txn.isolation ≠ .readCommitted := by
    rw [← hcont.isolation, hiso]
    simp
  rw [ho.get_stable hrun' hq hlevel hunwritten hp]
  exact valueAt_eq_committed ((ordered_init.run hrun).le_of_validated hsame)

theorem HasRead.mem {es : List Event} {id : ℕ} {key : String} {v : Option Bytes}
    (hread : HasRead es id key v) : .get id key ∈ es := by
  obtain ⟨before, rest, _, _, rfl, _⟩ := hread
  simp

/-- **The commit of a transfer** for which the check finds nothing keeps the total. -/
theorem total_of_commit {es : List Event} {h : History} (hrun : History.init.run es = some h)
    {id : ℕ} {p : Pending} (hp : h.txns id = some p) (hiso : p.txn.isolation = .snapshot)
    (htransfer : IsTransfer A w es id p) (hsame : Unchanged es h id p) (ts : ℕ) :
    total A w (⟨id, ts, p.txn.writes⟩ :: h.log) = total A w h.log := by
  obtain ⟨seen, hread, hsum⟩ := htransfer
  have hwritten : ∀ key ∈ A.filter (· ∈ p.txn.writes),
      w (committed (⟨id, ts, p.txn.writes⟩ :: h.log) key) = w (p.txn.writes[key]?) := by
    intro key hkey
    obtain ⟨value, hvalue⟩ := Option.isSome_iff_exists.mp
      (Std.TreeMap.mem_iff_isSome_getElem?.mp (Finset.mem_filter.mp hkey).2)
    rw [committed_cons, hvalue]
    rfl
  have hkept : ∀ key ∈ A.filter (· ∉ p.txn.writes),
      w (committed (⟨id, ts, p.txn.writes⟩ :: h.log) key) = w (committed h.log key) := by
    intro key hkey
    have hnone : p.txn.writes[key]? = none :=
      Std.TreeMap.getElem?_eq_none (Finset.mem_filter.mp hkey).2
    rw [committed_cons, hnone, Option.none_or]
  have hseen : ∀ key ∈ A.filter (· ∈ p.txn.writes), w (seen key) = w (committed h.log key) := by
    intro key hkey
    obtain ⟨haccount, hwrite⟩ := Finset.mem_filter.mp hkey
    have hgot := hread key haccount hwrite
    rw [hgot.eq_committed hrun hp hiso (hsame key hgot.mem hwrite)]
  calc total A w (⟨id, ts, p.txn.writes⟩ :: h.log)
      = ∑ key ∈ A with key ∈ p.txn.writes, w (p.txn.writes[key]?)
          + ∑ key ∈ A with key ∉ p.txn.writes, w (committed h.log key) := by
        rw [total, ← Finset.sum_filter_add_sum_filter_not A (· ∈ p.txn.writes),
          Finset.sum_congr rfl hwritten, Finset.sum_congr rfl hkept]
    _ = ∑ key ∈ A with key ∈ p.txn.writes, w (committed h.log key)
          + ∑ key ∈ A with key ∉ p.txn.writes, w (committed h.log key) := by
        rw [hsum, Finset.sum_congr rfl hseen]
    _ = total A w h.log := Finset.sum_filter_add_sum_filter_not A _ _

/-- **A history of such transfers** keeps the total. -/
theorem total_of_run {es₀ es : List Event} {h₀ h : History}
    (hrun₀ : History.init.run es₀ = some h₀) (hrun : h₀.run es = some h) :
    TransfersOnly A w es₀ h₀ es → total A w h.log = total A w h₀.log := by
  refine foldlM_history (P := fun es h => TransfersOnly A w es₀ h₀ es →
    total A w h.log = total A w h₀.log) (fun _ => rfl) ?_ hrun
  intro es e h h' hrun ih hstep htransfers
  have hrest := ih fun before id order rest g p heq hg hp =>
    htransfers before id order (rest ++ [e]) g p (by rw [heq]; simp) hg hp
  cases effect_of_event hstep with
  | begins => exact hrest
  | goes => exact hrest
  | ends => exact hrest
  | @commits id ts order p store hp =>
    obtain ⟨hiso, htransfer, hsame⟩ := htransfers es id order [] h p rfl hrun hp
    exact (total_of_commit (History.run_append.mpr ⟨h₀, hrun₀, hrun⟩) hp hiso htransfer hsame ts).trans
      hrest

end Totals

/-- **Updates at level snapshot**, in every history with atomic commits.  The commit of a
transaction loses no update exactly if the check that it leaves out would find nothing on
the keys that the transaction has read and that it writes.  Read-modify-write transfers for
which the check finds nothing keep the total. -/
theorem snapshot_updates {M : Type} [AddCommMonoid M] (A : Finset String)
    (w : Option Bytes → M) :
    (∀ es h id p, History.init.run es = some h → h.txns id = some p →
      p.txn.isolation = .snapshot → (NoLostUpdate es h id p ↔ Unchanged es h id p)) ∧
    ∀ es₀ h₀ es h, History.init.run es₀ = some h₀ → h₀.run es = some h →
      TransfersOnly A w es₀ h₀ es → total A w h.log = total A w h₀.log :=
  ⟨fun _ _ _ _ hrun hp hiso => noLostUpdate_iff hrun hp hiso,
    fun _ _ _ _ hrun₀ hrun htransfers => total_of_run hrun₀ hrun htransfers⟩

/-! ### A transfer, and a lost update -/

/-- Two accounts are opened. -/
def openAccounts : List Event :=
  [.begin .snapshot, .put 1 "a" [10], .put 1 "b" [0], .commit 1 ["a", "b"]]

/-- A transfer from the first to the second, while another transaction reads. -/
def transferThree : List Event :=
  [.begin .snapshot, .get 2 "a", .begin .snapshot, .get 2 "b", .get 3 "a", .put 2 "a" [7],
    .put 2 "b" [3], .commit 2 ["a", "b"]]

/-- The balance of an account. -/
def balance (v : Option Bytes) : ℕ := ((v.getD []).headD 0).toNat

theorem hasRead_of (before : List Event) {rest : List Event} {id : ℕ} {key : String} {v : Option Bytes}
    (h : ((History.init.run before).bind fun g => (g.txns id).map fun q =>
      (q.txn.writes[key]?, q.get g.store key)) = some (none, v)) :
    HasRead (before ++ .get id key :: rest) id key v := by
  obtain ⟨g, hg, h⟩ := Option.bind_eq_some_iff.mp h
  obtain ⟨q, hq, h⟩ := Option.map_eq_some_iff.mp h
  rw [Prod.mk.injEq] at h
  exact ⟨before, rest, g, q, rfl, hg, hq, h.1, h.2⟩

theorem transfersOnly_three {h₀ : History} (hrun₀ : History.init.run openAccounts = some h₀) :
    TransfersOnly {"a", "b"} balance openAccounts h₀ transferThree := by
  intro before id order rest g p heq hg hp
  obtain ⟨hat, htake⟩ := position_of_split heq
  obtain ⟨hn, rfl⟩ : before.length = 7 ∧ id = 2 := by
    have hlen : before.length < 8 := (List.getElem?_eq_some_iff.mp hat).1
    generalize before.length = n at hat hlen ⊢
    interval_cases n <;> simp [transferThree] at hat
    exact ⟨rfl, hat.1.symm⟩
  rw [hn] at htake
  rw [htake] at hg ⊢
  have hrun := History.run_append.mpr ⟨h₀, hrun₀, hg⟩
  -- what the one commit of the run finds
  have hstate : (History.init.run (openAccounts ++ transferThree.take 7)).bind (fun g =>
      (g.txns 2).map fun p => (p.txn.isolation, p.txn.writes["a"]?, p.txn.writes["b"]?,
        g.store.hasCommittedSince "a" p.txn.snapshotTs,
        g.store.hasCommittedSince "b" p.txn.snapshotTs))
      = some (.snapshot, some [7], some [3], false, false) := by
    decide +kernel
  rw [hrun, Option.bind_some, hp, Option.map_some, Option.some_inj] at hstate
  simp only [Prod.mk.injEq] at hstate
  obtain ⟨hiso, ha, hb, hsinceA, hsinceB⟩ := hstate
  have hwrites : ∀ key ∈ ({"a", "b"} : Finset String), key ∈ p.txn.writes := by
    intro key hkey
    rw [Std.TreeMap.mem_iff_isSome_getElem?]
    rcases Finset.mem_insert.mp hkey with rfl | hkey
    · rw [ha]
      rfl
    · rw [Finset.mem_singleton.mp hkey, hb]
      rfl
  refine ⟨hiso, ⟨fun key => if key = "a" then some [10] else some [0], ?_, ?_⟩, ?_⟩
  · intro key hkey _
    rcases Finset.mem_insert.mp hkey with rfl | hkey
    · exact hasRead_of (openAccounts ++ transferThree.take 1) (by decide +kernel)
    · rw [Finset.mem_singleton.mp hkey]
      exact hasRead_of (openAccounts ++ transferThree.take 3) (by decide +kernel)
  · rw [Finset.filter_true_of_mem hwrites, Finset.sum_pair (by decide),
      Finset.sum_pair (by decide), ha, hb]
    decide
  · intro key hread _
    have hkey : key = "a" ∨ key = "b" := by
      simpa [openAccounts, transferThree] using hread
    rcases hkey with rfl | rfl
    · exact hsinceA
    · exact hsinceB

theorem snapshot_updates_three : ∃ h₀ h, History.init.run openAccounts = some h₀ ∧
    h₀.run transferThree = some h ∧
      total {"a", "b"} balance h.log = total {"a", "b"} balance h₀.log ∧
        committed h.log "a" = some [7] := by
  have hafter : (History.init.run (openAccounts ++ transferThree)).map
      (fun h => committed h.log "a") = some (some [7]) := by
    decide +kernel
  obtain ⟨h, hrun, ha⟩ := Option.map_eq_some_iff.mp hafter
  obtain ⟨h₀, hrun₀, hrun⟩ := History.run_append.mp hrun
  exact ⟨h₀, h, hrun₀, hrun, (snapshot_updates {"a", "b"} balance).2 openAccounts h₀ transferThree h
    hrun₀ hrun (transfersOnly_three hrun₀), ha⟩

/-- Two transfers from the same account overlap, and the first of them commits. -/
def twoTransfers : List Event :=
  [.begin .snapshot, .begin .snapshot, .get 2 "a", .get 2 "b", .get 3 "a", .get 3 "c",
    .put 2 "a" [7], .put 2 "b" [3], .put 3 "a" [5], .put 3 "c" [5], .commit 2 ["a", "b"]]

/-- The commit of the second returns a timestamp.  The update of the first is lost, and the
total is not kept. -/
theorem update_lost : ∃ h₀ h h' p, History.init.run openAccounts = some h₀ ∧
    h₀.run twoTransfers = some h ∧ h.txns 3 = some p ∧ p.txn.isolation = .snapshot ∧
      ¬NoLostUpdate (openAccounts ++ twoTransfers) h 3 p ∧
        h.run [.commit 3 ["a", "c"]] = some h' ∧
          total {"a", "b", "c"} balance h₀.log = 10 ∧
            total {"a", "b", "c"} balance h'.log = 13 := by
  have hbefore : (History.init.run openAccounts).map
      (fun h => total {"a", "b", "c"} balance h.log) = some 10 := by
    decide +kernel
  have hstate : (History.init.run (openAccounts ++ twoTransfers)).bind (fun h =>
      (h.txns 3).map fun p => (p.txn.isolation, (p.txn.writes["a"]?).isSome,
        h.store.hasCommittedSince "a" p.txn.snapshotTs)) = some (.snapshot, true, true) := by
    decide +kernel
  have hafter : (History.init.run ((openAccounts ++ twoTransfers) ++ [.commit 3 ["a", "c"]])).map
      (fun h => total {"a", "b", "c"} balance h.log) = some 13 := by
    decide +kernel
  obtain ⟨h', hrun', hafter⟩ := Option.map_eq_some_iff.mp hafter
  obtain ⟨h, hrun, hcommit⟩ := History.run_append.mp hrun'
  obtain ⟨h₀, hrun₀, hrun₁⟩ := History.run_append.mp hrun
  rw [hrun₀, Option.map_some, Option.some_inj] at hbefore
  rw [hrun, Option.bind_some, Option.map_eq_some_iff] at hstate
  obtain ⟨p, hp, hstate⟩ := hstate
  simp only [Prod.mk.injEq] at hstate
  obtain ⟨hiso, hwrite, hsince⟩ := hstate
  refine ⟨h₀, h, h', p, hrun₀, hrun₁, hp, hiso, ?_, hcommit, hbefore, hafter⟩
  rw [noLostUpdate_iff hrun hp hiso]
  intro hsame
  have hnone := hsame "a" (by simp [twoTransfers]) (Std.TreeMap.mem_iff_isSome_getElem?.mpr hwrite)
  rw [hsince] at hnone
  simp at hnone

end Mvcc

end Uldb
