/-
Stale values in the cache.

A write must drop the cached value of its key.  `put` and `delete` invalidate the
key, `put_batch` and `bulk_ingest` clear the cache, but `put_profiled` and
`branch_merge` do neither.

`watch` follows a run together with the keys whose cached value is older than a
write.  `outdated_of_guarded` — there are none as long as these two calls do not meet
a cached key; `outdated_put_profiled` — a run in which one does.
-/
import Uldb.Writes
import Uldb.Replay
import Uldb.StoredCodec

namespace Uldb

open Fallible

/-- The keys a call writes or deletes; for a merge, those of the branch. -/
def Call.keysWritten (c : Call) (e : Engine) : List Bytes :=
  match c with
  | branchMerge branch =>
    ((e.snapshots[branch]?).map fun base => base.iter.map (·.1)).getD []
  | c => c.entries.map (·.1)

namespace Engine

/-- The keys that are in the cache. -/
def held (e : Engine) (ks : List Bytes) : List Bytes :=
  ks.filter fun k => (e.cache.lookup k).isSome

/-- A call does not meet a cached key that it would write and leave in the cache. -/
def Guarded (c : Call) (e : Engine) : Prop :=
  match c with
  | .putProfiled key _ => e.cache.lookup key = none
  | .branchMerge branch => ∀ k ∈ (Call.branchMerge branch).keysWritten e, e.cache.lookup k = none
  | _ => True

section

variable [Codec]

/-- One call, together with the keys that were written since their value was put into the
cache.  A key leaves them when its value leaves the cache.  A write that fails with an
error has written nothing (`exec_failed`), a merge may have written keys of the branch; a
panic ends the run. -/
def watch (s : Engine × List Bytes) (c : Call) : Option (Engine × List Bytes) :=
  match exec c s.1 with
  | .ok _ e => some (e, e.held (s.2 ++ c.keysWritten s.1))
  | .error (.error _) e =>
    some (e, e.held (s.2 ++ if c.isMerge then c.keysWritten s.1 else []))
  | .error .panic _ => none

/-- A run and the keys with an outdated value at its end. -/
def watchRun (e : Engine) (cs : List Call) : Option (Engine × List Bytes) :=
  cs.foldlM watch (e, [])

end

/-! ### What calls do to the cache -/

/-- A step that leaves the cache alone. -/
abbrev KeepsCache {α : Type} (x : EngineM α) : Prop := ∀ c, Keeps (fun e : Engine => e.cache = c) x

variable [Codec]

theorem mergeEntry_keepsCache (kv : Bytes × Bytes) : KeepsCache (mergeEntry kv) := by
  intro c
  have hstate : Keeps (fun e : Engine => e.cache = c) (statePut kv.1 kv.2) := by
    intro e he
    rw [statePut]
    cases e.state.put kv.1 kv.2 with
    | none => exact he
    | some state => exact he
  refine Keeps.bind hstate fun _ => ?_
  refine Keeps.bind (Keeps.mapError (Keeps.onPart fun e w he => he)) fun _ => ?_
  exact Keeps.bind (fun e he => he) fun _ => Keeps.modify fun e he => he

theorem branchMerge_keepsCache (branch : String) : KeepsCache (branchMerge branch) := by
  intro c
  refine Keeps.bind (fun e he => he) fun e => ?_
  cases e.snapshots[branch]? with
  | none => exact Keeps.throw _
  | some base =>
    refine Keeps.bind (Keeps.forM fun kv _ => mergeEntry_keepsCache kv c) fun _ => ?_
    exact Keeps.bind (Keeps.modify fun _ he => he) fun _ => Keeps.pure _

theorem exec_branchMerge_keepsCache (branch : String) : KeepsCache (exec (.branchMerge branch)) :=
  fun c => Keeps.bind (branchMerge_keepsCache branch c) fun _ => Keeps.pure _

omit [Codec] in
theorem cache_of_flushes {e e₁ e' : Engine} {ws : List (Bytes × Option Bytes)}
    {f : LruCache → LruCache} (hwrote : Wrote ws f e e₁) (hflush : Flushes e₁ e') :
    e'.cache = f e.cache := by
  rcases hflush with rfl | ⟨_, rfl⟩
  · exact hwrote.cache
  · exact hwrote.cache

variable {e e' : Engine} {c : Call}

/-- **A guarded call** leaves no key in the cache that it has written. -/
theorem lookup_of_guarded (hguard : Guarded c e) {u : Unit} (h : exec c e = .ok u e') {k : Bytes}
    (hk : k ∈ c.keysWritten e) : e'.cache.lookup k = none := by
  by_cases hmerge : c.isMerge = true
  · cases c with
    | branchMerge branch =>
      have hcache : e'.cache = e.cache :=
        (exec_branchMerge_keepsCache branch e.cache).of_ok h rfl
      rw [hcache]
      exact hguard k hk
    | _ => exact absurd hmerge (by simp [Call.isMerge])
  by_cases hwrite : c.isWrite = true
  · obtain ⟨e₁, hwrote, hflush⟩ := exec_wrote hwrite h
    rw [cache_of_flushes hwrote hflush]
    cases hv : (c.onCache e.cache).lookup k with
    | none => rfl
    | some v =>
      -- a value that is left in the cache is not of a written key
      have hprofiled : ∀ key value, c = .putProfiled key value → e.cache.lookup key = none := by
        rintro key value rfl
        exact hguard
      obtain ⟨hnone, _⟩ := Call.lookup_onCache hprofiled hv
      have hmem : k ∈ c.entries.map (·.1) := by
        cases c <;> first | exact hk | exact absurd rfl hmerge
      obtain ⟨w, hw, hkey⟩ := List.mem_map.mp hmem
      exact absurd hkey (lastWrite_eq_none.mp hnone w hw)
  · have hnone : c.keysWritten e = [] := by
      cases c <;> first | rfl | exact absurd rfl hwrite | exact absurd rfl hmerge
    rw [hnone] at hk
    exact absurd hk (by simp)

omit [Codec] in
theorem held_eq_nil {ks : List Bytes} (h : ∀ k ∈ ks, e.cache.lookup k = none) : e.held ks = [] := by
  rw [held, List.filter_eq_nil_iff]
  intro k hk
  rw [h k hk]
  simp

theorem watch_guarded (hguard : Guarded c e) {outdated : List Bytes}
    (h : watch (e, []) c = some (e', outdated)) : outdated = [] := by
  rw [watch] at h
  cases hexec : exec c e with
  | ok u e₁ =>
    simp only [hexec, Option.some_inj, Prod.mk.injEq] at h
    obtain ⟨rfl, rfl⟩ := h
    exact held_eq_nil fun k hk => lookup_of_guarded hguard hexec (by simpa using hk)
  | error failure e₁ =>
    cases failure with
    | panic =>
      simp only [hexec] at h
      exact absurd h (by simp)
    | error msg =>
      simp only [hexec, Option.some_inj, Prod.mk.injEq] at h
      obtain ⟨rfl, rfl⟩ := h
      refine held_eq_nil fun k hk => ?_
      cases c with
      | branchMerge branch =>
        have hcache := exec_branchMerge_keepsCache branch e.cache e rfl
        rw [hexec] at hcache
        rw [show e₁.cache = e.cache from hcache]
        exact hguard k (by simpa [Call.isMerge] using hk)
      | _ => exact absurd hk (by simp [Call.isMerge])

/-- A call that is not guarded, and succeeds, leaves a written key in the cache. -/
theorem held_of_not_guarded (hguard : ¬Guarded c e) {u : Unit} (h : exec c e = .ok u e') :
    ∃ k ∈ c.keysWritten e, (e'.cache.lookup k).isSome = true := by
  cases c with
  | putProfiled key value =>
    obtain ⟨e₁, hwrote, hflush⟩ := exec_wrote rfl h
    refine ⟨key, List.mem_singleton.mpr rfl, ?_⟩
    rw [cache_of_flushes hwrote hflush]
    exact Option.isSome_iff_ne_none.mpr hguard
  | branchMerge branch =>
    have hcache : e'.cache = e.cache :=
      (exec_branchMerge_keepsCache branch e.cache).of_ok h rfl
    rw [Guarded] at hguard
    push Not at hguard
    obtain ⟨k, hk, hcached⟩ := hguard
    refine ⟨k, hk, ?_⟩
    rw [hcache]
    exact Option.isSome_iff_ne_none.mpr hcached
  | _ => exact absurd trivial hguard

/-! ### Runs -/

/-- Every call of the run is guarded. -/
def GuardedRun (e : Engine) (cs : List Call) : Prop :=
  ∀ before c rest e₁ outdated, cs = before ++ c :: rest →
    watchRun e before = some (e₁, outdated) → Guarded c e₁

/-- **Cache coherence.**  In every run, with the worker taking its steps at any time, in
which `put_profiled` and `branch_merge` do not meet a cached key of theirs, no value in the
cache is older than a write of its key.  And where one of them does, and succeeds, there is
such a value. -/
theorem outdated_of_guarded {cs : List Call} {outdated : List Bytes}
    (hrun : watchRun e cs = some (e', outdated)) :
    (GuardedRun e cs → outdated = []) ∧
      ∀ c e'' outdated', exec c e' = .ok () e'' → watchRun e (cs ++ [c]) = some (e'', outdated') →
        ¬Guarded c e' → outdated' ≠ [] := by
  constructor
  · refine foldlM_history (P := fun cs s => GuardedRun e cs → s.2 = []) (fun _ => rfl) ?_ hrun
    rintro cs c ⟨e₁, outdated₁⟩ ⟨e₂, outdated₂⟩ hcs ih hstep hguarded
    have hbefore : GuardedRun e cs := by
      intro before c' rest e₃ outdated₃ hsplit hrun₃
      exact hguarded before c' (rest ++ [c]) e₃ outdated₃ (by rw [hsplit]; simp) hrun₃
    obtain rfl : outdated₁ = [] := ih hbefore
    exact watch_guarded (hguarded cs c [] e₁ [] rfl hcs) hstep
  · intro c e'' outdated' hexec hnext hguard hnil
    rw [watchRun, List.foldlM_append, ← watchRun, hrun] at hnext
    have hstep : watch (e', outdated) c = some (e'', outdated') := by simpa using hnext
    obtain ⟨k, hk, hcached⟩ := held_of_not_guarded hguard hexec
    simp only [watch, hexec, Option.some_inj, Prod.mk.injEq, hnil, true_and, held,
      List.filter_eq_nil_iff] at hstep
    exact hstep k (by simp [hk]) hcached

omit [Codec] in
/-- A run on an empty directory with threshold 1, so that every write flushes. -/
def watchOpen (cs : List Call) : Option (Engine × List Bytes) :=
  (@Engine.open storedCodec 1 ∅ none []).toOption.bind fun e => @watchRun storedCodec e cs

omit [Codec] in
/-- A guarded run: a key is cached, and `put_profiled` writes another one. -/
theorem outdated_of_guarded_three : ∃ e₀ e,
    @Engine.open storedCodec 1 ∅ none [] = .ok e₀ ∧
      @watchRun storedCodec e₀ [.put [107] [1], .work, .get [107], .putProfiled [108] [2]]
        = some (e, []) ∧ e.cache.lookup [107] = some [1] := by
  have hcached : (watchOpen [.put [107] [1], .work, .get [107], .putProfiled [108] [2]]).map
      (fun s => s.1.cache.lookup [107]) = some (some [1]) := by decide +kernel
  have hmiss : (watchOpen [.put [107] [1], .work, .get [107]]).map
      (fun s => s.1.cache.lookup [108]) = some none := by decide +kernel
  obtain ⟨⟨e, outdated⟩, hrun, hlookup⟩ := Option.map_eq_some_iff.mp hcached
  rw [watchOpen, Option.bind_eq_some_iff] at hrun
  obtain ⟨e₀, hopen, hrun⟩ := hrun
  have hguarded : @GuardedRun storedCodec e₀
      [.put [107] [1], .work, .get [107], .putProfiled [108] [2]] := by
    intro before c rest e₁ outdated₁ hsplit hbefore
    by_cases hprofiled : c = .putProfiled [108] [2]
    · -- it is the last call
      have hthree : before = [.put [107] [1], .work, .get [107]] := by
        rcases before with - | ⟨a, - | ⟨b, - | ⟨d, - | ⟨f, before⟩⟩⟩⟩ <;> simp_all
      rw [watchOpen, hopen, Option.bind_some, ← hthree, hbefore] at hmiss
      rw [hprofiled]
      exact Option.some_inj.mp hmiss
    · have hmem : c ∈ [Call.put [107] [1], .work, .get [107], .putProfiled [108] [2]] := by
        rw [hsplit]
        simp
      rcases (by simpa [hprofiled] using hmem : c = .put [107] [1] ∨ c = .work ∨ c = .get [107])
        with rfl | rfl | rfl
      · trivial
      · trivial
      · trivial
  have hnil := (@outdated_of_guarded storedCodec _ _ _ _ hrun).1 hguarded
  rw [hnil] at hrun
  exact ⟨e₀, e, eq_ok_of_toOption hopen, hrun, hlookup⟩

omit [Codec] in
/-- A key is flushed and read, and then written by `put_profiled`: the cache keeps the old
value, and once the new one is flushed, reads return the old one. -/
theorem outdated_put_profiled :
    (watchOpen [.put [107] [1], .work, .get [107], .work, .putProfiled [107] [2], .work]).map
      (fun s => (s.2, s.1.cache.lookup [107], (s.1.get [107]).1))
      = some ([[107]], some [1], some [1]) := by decide +kernel

end Engine

end Uldb
