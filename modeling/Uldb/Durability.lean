/-
What is in the log file when a call returns.

A write flushes the log before it changes the memory, so its records are in the
file when it returns.  A merge appends the pairs of its branch and does not flush:
they wait in the buffer until a later write, unless the last of them is so large
that it goes past the buffer.

* `exec_keepsLog` — a property of the log that appends and flushes keep, is kept by
  every call;
* `flushesLog_iff` — the merges that leave nothing in the buffer;
* `durable_of_flushes` — if all merges of a run do, the file holds the records of
  the calls that returned, after every call;
* `merge_not_durable` — a merge that returns, and whose record is lost in a crash.
-/
import Uldb.Branches

namespace Uldb

open Fallible

namespace Wal

variable [Codec]

/-- The bytes contain the encodings of the records, complete and in this order. -/
def Holds : List WalRecord → Bytes → Prop
  | [], _ => True
  | r :: rs, bytes => ∃ before after, bytes = before ++ (serialize r ++ after) ∧ Holds rs after

theorem Holds.mono {rs : List WalRecord} {bytes bytes' : Bytes} (h : Holds rs bytes)
    (hpre : bytes <+: bytes') : Holds rs bytes' := by
  obtain ⟨more, rfl⟩ := hpre
  induction rs generalizing bytes with
  | nil => exact trivial
  | cons r rs ih =>
    obtain ⟨before, after, rfl, hrs⟩ := h
    exact ⟨before, after ++ more, by simp, ih hrs⟩

theorem holds_encode (rs : List WalRecord) : Holds rs (encode rs) := by
  induction rs with
  | nil => exact trivial
  | cons r rs ih => exact ⟨[], encode rs, by rw [encode_cons, List.nil_append], ih⟩

theorem Holds.append {rs rs' : List WalRecord} {bytes bytes' : Bytes} (h : Holds rs bytes)
    (h' : Holds rs' bytes') : Holds (rs ++ rs') (bytes ++ bytes') := by
  induction rs generalizing bytes with
  | nil =>
    cases rs' with
    | nil => exact trivial
    | cons r rs' =>
      obtain ⟨before, after, rfl, hrs⟩ := h'
      exact ⟨bytes ++ before, after, by simp, hrs⟩
  | cons r rs ih =>
    obtain ⟨before, after, rfl, hrs⟩ := h
    exact ⟨before, after ++ bytes', by simp, ih hrs⟩

end Wal

namespace WalWriter

/-! ### The file only grows -/

theorem flush_keeps (f : Bytes) : Keeps (fun w : WalWriter => f <+: w.file) flush := by
  intro w hw
  rw [flush]
  by_cases hb : w.buffer = []
  · rw [if_pos hb]
    exact hw
  · rw [if_neg hb]
    split
    · exact hw.trans (List.prefix_append _ _)
    · exact hw.trans (List.prefix_append _ _)

theorem writeFile_keeps (f data : Bytes) :
    Keeps (fun w : WalWriter => f <+: w.file) (writeFile data) := by
  intro w hw
  rw [writeFile]
  split
  · exact hw.trans (List.prefix_append _ _)
  · exact hw.trans (List.prefix_append _ _)

theorem append_keeps [Codec] (f : Bytes) (r : WalRecord) :
    Keeps (fun w : WalWriter => f <+: w.file) (append r) := by
  refine Keeps.bind ?_ fun _ => Keeps.modify fun _ hw => hw
  refine Keeps.bind (fun _ hw => hw) fun w => Keeps.bind (Keeps.ifThen (flush_keeps f)) fun _ => ?_
  by_cases hbig : capacity ≤ (Wal.serialize r).length
  · rw [if_pos hbig]
    exact writeFile_keeps f _
  · rw [if_neg hbig]
    exact Keeps.modify fun _ hw => hw

/-! ### What an append leaves in the buffer -/

variable [Codec] {w w' : WalWriter} {u : Unit}

/-- The buffer is empty after an append exactly if the record went past it. -/
theorem append_buffer {r : WalRecord} (h : append r w = .ok u w') :
    w'.buffer = [] ↔ capacity ≤ (Wal.serialize r).length := by
  rw [append, bind_eq_ok] at h
  obtain ⟨_, w₃, hwrite, h⟩ := h
  obtain rfl := modify_eq_ok.mp h
  show w₃.buffer = [] ↔ _
  rw [writeAll, bind_eq_ok] at hwrite
  obtain ⟨w₀, w₁, hget, hwrite⟩ := hwrite
  obtain ⟨rfl, rfl⟩ := get_eq_ok.mp hget
  rw [bind_eq_ok] at hwrite
  obtain ⟨_, w₂, hroom, hwrite⟩ := hwrite
  by_cases hbig : capacity ≤ (Wal.serialize r).length
  · rw [if_pos hbig] at hwrite
    refine ⟨fun _ => hbig, fun _ => ?_⟩
    rw [(writeFile_eq_ok hwrite).2]
    rcases ifThen_eq_ok.mp hroom with ⟨_, hflush⟩ | ⟨hfit, rfl⟩
    · exact (flush_eq_ok hflush).2
    · -- a record of this size fits only into an empty buffer
      apply List.eq_nil_of_length_eq_zero
      rw [capacity] at hfit hbig
      omega
  · rw [if_neg hbig] at hwrite
    obtain rfl := modify_eq_ok.mp hwrite
    refine ⟨fun hnil => ?_, fun h => absurd h hbig⟩
    have hlen := congrArg List.length hnil
    simp [Wal.serialize_length] at hlen

theorem forM_append_buffer {rs : List WalRecord} {r : WalRecord}
    (h : (forM (rs ++ [r]) append : EStateM Failure WalWriter Unit) w = .ok u w') :
    w'.buffer = [] ↔ capacity ≤ (Wal.serialize r).length := by
  induction rs generalizing w with
  | nil =>
    obtain ⟨w₁, hr, hnil⟩ := forM_cons_eq_ok.mp h
    obtain rfl := forM_nil_eq_ok.mp hnil
    exact append_buffer hr
  | cons r' rs ih =>
    obtain ⟨w₁, _, hrs⟩ := forM_cons_eq_ok.mp h
    exact ih hrs

end WalWriter

namespace Call

variable [Codec]

/-- The log records of a call; those of a merge are the pairs of its branch. -/
def logs (e : Engine) : Call → List WalRecord
  | branchMerge branch =>
    match e.snapshots[branch]? with
    | none => []
    | some base => Engine.batchRecords base.iter
  | c => c.records

omit [Codec] in
theorem logs_of_not_merge {c : Call} (hc : c.isMerge = false) (e : Engine) :
    c.logs e = c.records := by
  cases c <;> first | rfl | exact absurd hc (by simp [isMerge])

/-- The call leaves none of its records in the buffer: a merge does not flush, and so
its branch is empty or its last record goes past the buffer. -/
def FlushesLog (e : Engine) : Call → Prop
  | branchMerge branch =>
    match (logs e (branchMerge branch)).getLast? with
    | none => True
    | some r => WalWriter.capacity ≤ (Wal.serialize r).length
  | _ => True

instance (e : Engine) (c : Call) : Decidable (c.FlushesLog e) := by
  cases c <;> simp only [FlushesLog] <;> try infer_instance
  split <;> infer_instance

end Call

namespace Engine

variable [Codec] {e e' : Engine} {b : String}

/-! ### The log under every call -/

/-- **What appends and flushes of the log keep, every call keeps**, also one that fails. -/
theorem exec_keepsLog {J : WalWriter → Prop} (happend : ∀ r, Keeps J (WalWriter.append r))
    (hflush : Keeps J WalWriter.flush) (c : Call) : Keeps (fun e : Engine => J e.wal) (exec c) := by
  have hmem : MemInv (fun _ _ => True) fun e : Engine => J e.wal := {
    write := fun he _ => he
    put := fun he _ _ => he
    delete := fun he _ => he
    flushed := fun he => he
    dropped := fun he _ => he
    other := fun _ _ _ _ _ he => he }
  have honWal : ∀ x : EStateM Failure WalWriter Unit, Keeps J x →
      Keeps (fun e : Engine => J e.wal) (onWal x) :=
    fun x hx => Keeps.onPart_of_keeps hx (fun _ he => he) fun _ _ _ hw => hw
  -- the log changes by appends and flushes alone
  have hone : ∀ r, Keeps (fun e : Engine => J e.wal) (onWal (WalWriter.append r)) :=
    fun r => honWal _ (happend r)
  have hall : ∀ rs, Keeps (fun e : Engine => J e.wal) (appendAll rs) := fun rs =>
    Keeps.bind (honWal _ (Keeps.forM fun r _ => happend r)) fun _ => honWal _ hflush
  by_cases hs : c.onSnapshots = true
  · intro e he
    obtain ⟨state, snapshots, n, heq⟩ := exec_onSnapshots hs e
    rw [heq]
    exact he
  cases c with
  | put key value =>
    exact Keeps.bind (hone _) fun _ => Keeps.bind (honWal _ hflush) fun _ => hmem.afterLog trivial
  | putProfiled key value =>
    exact Keeps.bind (hone _) fun _ => Keeps.bind (honWal _ hflush) fun _ =>
      hmem.afterLogProfiled trivial
  | delete key =>
    exact Keeps.bind (hone _) fun _ => Keeps.bind (honWal _ hflush) fun _ =>
      hmem.afterLogDelete trivial
  | putBatch entries =>
    exact Keeps.bind (hall _) fun _ => hmem.afterLogBatch fun _ _ => trivial
  | bulkIngest entries =>
    refine Keeps.bind ?_ fun _ => Keeps.pure _
    rw [bulkIngest]
    by_cases hnil : entries = []
    · rw [if_pos hnil]
      exact Keeps.pure _
    · rw [if_neg hnil]
      exact Keeps.bind (hall _) fun _ => hmem.afterLogIngest fun _ _ => trivial
  | flush => exact hmem.flush
  | sync => exact honWal _ hflush
  | get key =>
    refine Keeps.modify fun e he => ?_
    obtain ⟨cache, heq⟩ := get_frame e key
    rw [heq]
    exact he
  | scan start stop =>
    intro e he
    rw [exec_scan]
    exact he
  | work => exact Keeps.modify fun e he => he
  | branchMerge branch =>
    refine Keeps.bind (Keeps.bind (fun e he => he) fun e => ?_) fun _ => Keeps.pure _
    cases e.snapshots[branch]? with
    | none => exact Keeps.throw _
    | some base =>
      refine Keeps.bind (Keeps.forM fun kv _ => ?_) fun _ =>
        Keeps.bind (Keeps.modify fun _ he => he) fun _ => Keeps.pure _
      refine Keeps.bind (hmem.statePut trivial) fun _ => ?_
      refine Keeps.bind (Keeps.mapError (hone _)) fun _ => ?_
      exact Keeps.bind (hmem.memtablePut trivial) fun _ => hmem.indexPut _ _
  | _ => exact absurd rfl hs

/-! ### Calls that return -/

theorem forM_mergeEntry_wal {pairs : List (Bytes × Bytes)} {u : Unit}
    (h : (forM pairs mergeEntry : EngineM Unit) e = .ok u e') :
    (forM (batchRecords pairs) WalWriter.append : EStateM Failure WalWriter Unit) e.wal
      = .ok () e'.wal := by
  induction pairs generalizing e with
  | nil =>
    obtain rfl := forM_nil_eq_ok.mp h
    rfl
  | cons kv pairs ih =>
    obtain ⟨e₁, hentry, h⟩ := forM_cons_eq_ok.mp h
    obtain ⟨state, w, _, hw, rfl⟩ := mergeEntry_eq_ok hentry
    exact forM_cons_eq_ok.mpr ⟨w, hw, ih h⟩

/-- A merge that returns has appended the records of its branch. -/
theorem branchMerge_wal {n : ℕ} (h : branchMerge b e = .ok n e') :
    (forM ((Call.branchMerge b).logs e) WalWriter.append : EStateM Failure WalWriter Unit) e.wal
      = .ok () e'.wal := by
  obtain ⟨branch, e₁, hbranch, hentries, rfl⟩ := branchMerge_eq_ok h
  simp only [Call.logs, hbranch]
  exact forM_mergeEntry_wal hentries

/-- **The merges that leave nothing in the buffer**, if nothing was in it before. -/
theorem flushesLog_iff {n : ℕ} (h : branchMerge b e = .ok n e') (hbuf : e.wal.buffer = []) :
    e'.wal.buffer = [] ↔ (Call.branchMerge b).FlushesLog e := by
  have hlog := branchMerge_wal h
  rw [Call.FlushesLog]
  rcases List.eq_nil_or_concat ((Call.branchMerge b).logs e) with hnil | ⟨rs, r, hlast⟩
  · rw [hnil] at hlog ⊢
    rw [forM_nil_eq_ok.mp hlog]
    simp [hbuf]
  · rw [List.concat_eq_append] at hlast
    rw [hlast] at hlog ⊢
    rw [List.getLast?_append_cons, List.getLast?_singleton]
    exact WalWriter.forM_append_buffer hlog

theorem branchMerge_synced {n : ℕ} (hc : (Call.branchMerge b).FlushesLog e)
    (hne : (Call.branchMerge b).logs e ≠ []) (h : branchMerge b e = .ok n e') :
    Synced ((Call.branchMerge b).logs e) e e' := by
  have hlog := branchMerge_wal h
  have hcontent := WalWriter.forM_append_eq_ok hlog
  obtain ⟨rs, r, hlast⟩ := (List.eq_nil_or_concat _).resolve_left hne
  rw [List.concat_eq_append] at hlast
  have hbuf : e'.wal.buffer = [] := by
    rw [Call.FlushesLog, hlast, List.getLast?_append_cons, List.getLast?_singleton] at hc
    rw [hlast] at hlog
    exact (WalWriter.forM_append_buffer hlog).mpr hc
  rw [WalWriter.content, hbuf, List.append_nil] at hcontent
  exact ⟨hcontent, hbuf⟩

theorem exec_synced_logs {c : Call} (hc : c.FlushesLog e) (hne : c.logs e ≠ []) {u : Unit}
    (h : exec c e = .ok u e') : Synced (c.logs e) e e' := by
  cases hm : c.isMerge with
  | false =>
    rw [Call.logs_of_not_merge hm] at hne ⊢
    exact exec_synced hne h
  | true =>
    obtain ⟨branch, rfl⟩ : ∃ branch, c = .branchMerge branch := by
      cases c <;> first | exact ⟨_, rfl⟩ | exact absurd hm (by simp [Call.isMerge])
    obtain ⟨n, e₁, hmerge, h⟩ := bind_eq_ok.mp h
    obtain ⟨_, rfl⟩ := pure_eq_ok.mp h
    exact branchMerge_synced hc hne hmerge

/-! ### Runs -/

/-- The records of the call, if it returns. -/
def acknowledged (c : Call) (e : Engine) : List WalRecord :=
  match exec c e with
  | .ok _ _ => c.logs e
  | .error _ _ => []

/-- The records of all calls that have returned, of calls that succeed or fail. -/
def acked (e : Engine) : List Call → List WalRecord
  | [] => []
  | c :: cs => acknowledged c e ++ acked (finalState (exec c e)) cs

/-- After every call, the file holds the records of all calls that have returned: what
a crash leaves, where the buffer is lost. -/
def Durable (e : Engine) (cs : List Call) : Prop :=
  ∀ done, done <+: cs → Wal.Holds (acked e done) (e.after done).wal.file

/-- Every merge of the run that returns leaves nothing of its own in the buffer. -/
def FlushesRun (e : Engine) : List Call → Prop
  | [] => True
  | c :: cs => ((success (exec c e)).isSome = true → c.FlushesLog e) ∧
      FlushesRun (finalState (exec c e)) cs

theorem file_grows (c : Call) (e : Engine) :
    e.wal.file <+: (finalState (exec c e)).wal.file :=
  exec_keepsLog (WalWriter.append_keeps e.wal.file) (WalWriter.flush_keeps e.wal.file) c e
    (List.prefix_refl _)

/-- One call: what it has acknowledged is in the file, with all that was there. -/
theorem acknowledged_holds {c : Call} (hc : (success (exec c e)).isSome = true → c.FlushesLog e)
    {rs : List WalRecord} (hrs : Wal.Holds rs e.wal.file) :
    Wal.Holds (rs ++ acknowledged c e) (finalState (exec c e)).wal.file := by
  by_cases hnil : acknowledged c e = []
  · rw [hnil, List.append_nil]
    exact hrs.mono (file_grows c e)
  · cases h : exec c e with
    | error failure e₁ =>
      rw [acknowledged, h] at hnil
      exact absurd rfl hnil
    | ok u e₁ =>
      simp only [acknowledged, h] at hnil ⊢
      have hreturns : (success (exec c e)).isSome = true := by
        rw [h]
        rfl
      obtain ⟨hfile, _⟩ := exec_synced_logs (hc hreturns) hnil h
      show Wal.Holds (rs ++ c.logs e) e₁.wal.file
      rw [hfile]
      exact (hrs.mono (List.prefix_append _ _)).append (Wal.holds_encode _)

theorem FlushesRun.initial {done cs : List Call} (h : FlushesRun e cs) (hdone : done <+: cs) :
    FlushesRun e done := by
  obtain ⟨rest, rfl⟩ := hdone
  induction done generalizing e with
  | nil => exact trivial
  | cons c done ih => exact ⟨h.1, ih h.2⟩

theorem holds_acked {done : List Call} (h : FlushesRun e done) {rs : List WalRecord}
    (hrs : Wal.Holds rs e.wal.file) : Wal.Holds (rs ++ acked e done) (e.after done).wal.file := by
  induction done generalizing e rs with
  | nil =>
    rw [acked, List.append_nil]
    exact hrs
  | cons c done ih =>
    rw [acked, ← List.append_assoc]
    exact ih h.2 (acknowledged_holds h.1 hrs)

/-- **Durable writes.**  In a run from any engine, with calls that succeed or fail and any
faults of the file, whose merges leave nothing in the buffer when they return, the file
holds after every call the complete records of all calls that have returned. -/
theorem durable_of_flushes {cs : List Call} (h : FlushesRun e cs) : Durable e cs :=
  fun _ hdone => holds_acked (h.initial hdone) (show Wal.Holds [] e.wal.file from trivial)

instance FlushesRun.decidable : ∀ (cs : List Call) (e : Engine), Decidable (FlushesRun e cs)
  | [], _ => isTrue trivial
  | c :: cs, e =>
    have := FlushesRun.decidable cs (finalState (exec c e))
    inferInstanceAs (Decidable (_ ∧ _))

end Engine

/-! ### A merge that is lost -/

namespace Engine

/-- Open an empty database and look at the engine. -/
def onOpened {α : Type} (f : Engine → α) : Option α :=
  (@Engine.open storedCodec 1000 ∅ none []).toOption.map f

theorem exists_of_onOpened {α : Type} {f : Engine → α} {a : α} (h : onOpened f = some a) :
    ∃ e, @Engine.open storedCodec 1000 ∅ none [] = .ok e ∧ f e = a := by
  obtain ⟨e, hopen, ha⟩ := Option.map_eq_some_iff.mp h
  exact ⟨e, eq_ok_of_toOption hopen, ha⟩

/-- Writes and the merge of a branch whose only key was deleted. -/
theorem durable_of_flushes_five : ∃ e, @Engine.open storedCodec 1000 ∅ none [] = .ok e ∧
    @Durable storedCodec e [.put [107] [118], .branchCreate "b" "", .agentDelete "b" [107],
      .branchMerge "b", .putBatch [([108], [119]), ([109], [])]] := by
  obtain ⟨e, hopen, hflush⟩ := exists_of_onOpened (a := true)
    (f := fun e => decide (@FlushesRun storedCodec e [.put [107] [118], .branchCreate "b" "",
      .agentDelete "b" [107], .branchMerge "b", .putBatch [([108], [119]), ([109], [])]]))
    (by decide +kernel)
  exact ⟨e, hopen, @durable_of_flushes storedCodec e _ (of_decide_eq_true hflush)⟩

/-- An agent puts a key and finishes. -/
def putAndMerge : List Call :=
  [.branchCreate "b" "", .agentPut "b" [107] [118], .branchMerge "b"]

/-- The merge of the agent returns, and the file is still empty. -/
theorem merge_not_durable :
    ¬∀ (t : ℕ) (dir : Dir) (log : Option Bytes) (outcomes : List (Option WriteFault)) (e : Engine)
      (cs : List Call), @Engine.open storedCodec t dir log outcomes = .ok e →
      @Durable storedCodec e cs := by
  intro h
  obtain ⟨e, hopen, hrun⟩ := exists_of_onOpened (a := ([⟨[107], [118]⟩], []))
    (f := fun e => (@acked storedCodec e putAndMerge, (@after storedCodec e putAndMerge).wal.file))
    (by decide +kernel)
  rw [Prod.mk.injEq] at hrun
  have hholds := h 1000 ∅ none [] e putAndMerge hopen putAndMerge (List.prefix_refl _)
  rw [hrun.1, hrun.2] at hholds
  obtain ⟨before, after, heq, _⟩ := hholds
  have hlen := congrArg List.length heq
  rw [List.length_append, List.length_append, @Wal.serialize_length storedCodec,
    List.length_nil] at hlen
  omega

end Engine

end Uldb
