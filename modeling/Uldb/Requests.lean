/-
Scans and range deletes of clients (`server.rs`).

The bounds of a request come from the client as they are.  A page is searched with any bounds,
but the range of a memtable with entries panics when the first is above the second, and every
scan ends in the memtable.

* `scan_reversed`, `scan_of_not_lt` — a scan with reversed bounds, where it panics and where it
  returns;
* `requests_return_iff` — the scans and requests that return.
-/
import Uldb.AgentStore
import Uldb.Durability
import Uldb.Failures
import Uldb.TxWrites

namespace Uldb

open Fallible BigEndian

/-! ### Responses -/

def tagU8 : UInt8 := 0x01

def tagU32 : UInt8 := 0x03

def tagU64 : UInt8 := 0x04

def tagF64 : UInt8 := 0x0A

def tagBytes : UInt8 := 0x0C

def tagString : UInt8 := 0x0D

def tagEnd : UInt8 := 0xFF

/-- Build a payload from tags and data. -/
def enc (fields : List (UInt8 × Bytes)) : Bytes :=
  (fields.flatMap fun field =>
    field.1 ::
      if field.1 = tagU8 then field.2.take 1
      else if field.1 = tagU32 ∨ field.1 = tagU64 ∨ field.1 = tagF64 then field.2
      else if field.1 = tagBytes ∨ field.1 = tagString then be 4 field.2.length ++ field.2
      else []) ++ [tagEnd]

def stringField (s : Bytes) : UInt8 × Bytes := (tagString, s)

def bytesField (b : Bytes) : UInt8 × Bytes := (tagBytes, b)

/-- The number is cast to 32 bits. -/
def u32Field (v : ℕ) : UInt8 × Bytes := (tagU32, be 4 v)

def u8Field (v : UInt8) : UInt8 × Bytes := (tagU8, [v])

/-- `f64_field(0.0)` -/
def f64Zero : UInt8 × Bytes := (tagF64, be 8 0)

/-- The opcodes of the responses below. -/
inductive Opcode where
  | error
  | resultStart
  | resultRow
  | resultEnd
  deriving DecidableEq, Repr

inductive Response where
  | single (opcode : Opcode) (payload : Bytes)
  | stream (frames : List (Opcode × Bytes))
  deriving DecidableEq, Repr

def errorResponse (code : UInt8) (msg : String) : Response :=
  .single .error (enc [u8Field code, u32Field 0, stringField msg.toUTF8.toList])

def resultEndResponse (total elapsedMs : ℕ) : Response :=
  .single .resultEnd (enc [u32Field total, u32Field elapsedMs])

/-! ### Requests -/

/-- Remove the namespace from a stored key. -/
def unscopeKey (scopedKey : Bytes) : Option Bytes :=
  if scopedKey.length < 8 then none else some (scopedKey.drop 8)

/-- The bounds that a namespace is scanned with. -/
def nsScanRange (namespaceId : UInt64) : Bytes × Bytes :=
  (be 8 namespaceId.toNat ++ [0x00], be 8 namespaceId.toNat ++ [0xFF])

/-- The key of a row, as a text. -/
def displayKey (key : Bytes) : Bytes := fromUtf8Lossy ((unscopeKey key).getD key)

namespace UmpHandler

/-- Scan under the engine's lock. -/
def scanLocked (start stop : Bytes) : EngineM (List (Bytes × Bytes)) := fun e =>
  match e.scan start stop with
  | .ok results => .ok results e
  | .error failure => .error failure e

/-- One row of a scan. -/
def scanRow (row : (Bytes × Bytes) × ℕ) : Opcode × Bytes :=
  (.resultRow, enc [stringField (displayKey row.1.1), bytesField row.1.2, f64Zero, f64Zero,
    f64Zero, f64Zero, f64Zero, u32Field row.2])

def handleScan (start stop : Str) (limit : UInt32) : EngineM Response := do
  let results ← scanLocked (scopeKey 0 start.1) (scopeKey 0 stop.1)
  let truncated := results.take limit.toNat
  pure (.stream ([(.resultStart, enc [u32Field truncated.length])]
    ++ truncated.zipIdx.map scanRow
    ++ [(.resultEnd, enc [u32Field truncated.length, u32Field 0])]))

variable [Codec]

/-- The deletes stop at the first error, which is the response. -/
def handleRangeDelete (start stop : Str) : EngineM Response := do
  let results ← scanLocked (scopeKey 0 start.1) (scopeKey 0 stop.1)
  let keys := results.map Prod.fst
  fun e =>
    match (forM keys Engine.delete : EngineM Unit) e with
    | .ok _ e => .ok (resultEndResponse keys.length 0) e
    | .error (.error msg) e => .ok (errorResponse 0xFF ("range delete failed: " ++ msg)) e
    | .error .panic e => .error .panic e

/-- `let _ = eng.delete(&key)` -/
def deleteIgnored (key : Bytes) : EngineM Unit := fun e =>
  match Engine.delete key e with
  | .ok _ e => .ok () e
  | .error (.error _) e => .ok () e
  | .error .panic e => .error .panic e

/-- The errors of the deletes are dropped. -/
def handleNsDelete (namespaceId : UInt64) : EngineM Response := do
  let results ← scanLocked (nsScanRange namespaceId).1 (nsScanRange namespaceId).2
  let keys := results.map Prod.fst
  forM keys deleteIgnored
  pure (resultEndResponse keys.length 0)

end UmpHandler

/-! ### Scans with any bounds -/

theorem compare_append_left (p a b : Bytes) : compare (p ++ a) (p ++ b) = compare a b := by
  induction p with
  | nil => rfl
  | cons c p ih =>
    have hself : compare c c = .eq := Std.ReflCmp.compare_self
    rw [List.cons_append, List.cons_append, List.compare_cons_cons, hself]
    exact ih

/-- A memtable has no entries between bounds that are not in order. -/
theorem Memtable.filter_of_not_lt (m : Memtable) {start stop : Bytes}
    (hbounds : compare start stop ≠ .lt) :
    (m.entries.toList.filter fun ke => InRange start stop ke.1) = [] := by
  rw [List.filter_eq_nil_iff]
  intro ke _ hin
  have hin' : InRange start stop ke.1 := of_decide_eq_true hin
  exact hbounds hin'.start_lt

theorem CompactionManager.scan_of_not_lt (cm : CompactionManager) {start stop : Bytes}
    (hbounds : compare start stop ≠ .lt) : cm.scan start stop = ∅ := by
  rw [scan]
  induction cm.l2 ++ (cm.l1 ++ cm.l0) with
  | nil => rfl
  | cons p pages ih =>
    rw [List.foldl_cons, scanPage, p.range_of_not_lt hbounds]
    exact ih

namespace Engine

/-- There is no entry in memory: neither the memtable nor a frozen one has any. -/
def NothingBuffered (e : Engine) : Prop :=
  e.memtable.isEmpty = true ∧ ∀ m ∈ e.frozen, m.isEmpty = true

theorem overlay_of_not_lt {start stop : Bytes} (hbounds : compare start stop ≠ .lt)
    {m : Memtable} (h : compare start stop ≠ .gt ∨ m.isEmpty = true)
    (results : Std.TreeMap Bytes Bytes) : overlay start stop results m = .ok results := by
  rw [overlay_eq h, m.filter_of_not_lt hbounds]
  rfl

theorem overlay_reversed {start stop : Bytes} (hgt : compare start stop = .gt) {m : Memtable}
    (hsome : m.isEmpty = false) (results : Std.TreeMap Bytes Bytes) :
    overlay start stop results m = .error .panic := by
  rw [overlay, Memtable.range_eq_none hgt hsome]

/-- The frozen memtables let every scan pass that has its bounds in order or finds them empty. -/
theorem exists_foldlM_overlay {start stop : Bytes} {ms : List Memtable}
    (h : compare start stop ≠ .gt ∨ ∀ m ∈ ms, m.isEmpty = true)
    (results : Std.TreeMap Bytes Bytes) :
    ∃ results', ms.foldlM (overlay start stop) results = .ok results' := by
  induction ms generalizing results with
  | nil => exact ⟨results, rfl⟩
  | cons m ms ih =>
    rw [List.foldlM_cons, overlay_eq (h.imp_right fun hempty => hempty m List.mem_cons_self)]
    exact ih (h.imp_right fun hempty m' hm' => hempty m' (List.mem_cons_of_mem m hm')) _

/-- **Reversed bounds panic** as soon as there is an entry in memory, before the first flush and
after it. -/
theorem scan_reversed (e : Engine) {start stop : Bytes} (hgt : compare start stop = .gt)
    (hsome : ¬e.NothingBuffered) : e.scan start stop = .error .panic := by
  -- the frozen memtables panic, or they are empty and the memtable does
  have hfrozen : ∀ (ms : List Memtable) (results : Std.TreeMap Bytes Bytes),
      ms.foldlM (overlay start stop) results = .error .panic ∨
        ms.foldlM (overlay start stop) results = .ok results ∧ ∀ m ∈ ms, m.isEmpty = true := by
    intro ms results
    induction ms with
    | nil => exact .inr ⟨rfl, by simp⟩
    | cons m ms ih =>
      rw [List.foldlM_cons]
      cases hempty : m.isEmpty with
      | false =>
        rw [overlay_reversed hgt hempty]
        exact .inl rfl
      | true =>
        rw [overlay_of_not_lt (by rw [hgt]; simp) (.inr hempty)]
        exact ih.imp_right fun hrest => ⟨hrest.1, List.forall_mem_cons.mpr ⟨hempty, hrest.2⟩⟩
  rw [scan]
  by_cases hfast : e.frozen = [] ∧ e.flushCount = 0
  · have hmem : e.memtable.isEmpty = false := by
      rw [← Bool.not_eq_true]
      exact fun hempty => hsome ⟨hempty, by simp [hfast.1]⟩
    rw [if_pos hfast, Memtable.range_eq_none hgt hmem]
  · rw [if_neg hfast]
    rcases hfrozen e.frozen (e.compactor.compaction.scan start stop) with hpanic | ⟨hok, hempty⟩
    · simp only [hpanic, bind, Except.bind]
    · have hmem : e.memtable.isEmpty = false := by
        rw [← Bool.not_eq_true]
        exact fun hmem => hsome ⟨hmem, hempty⟩
      simp only [hok, bind, Except.bind, overlay_reversed hgt hmem]

/-- Bounds in order never panic, and no bounds do while there is no entry in memory. -/
theorem scan_returns (e : Engine) {start stop : Bytes}
    (h : compare start stop ≠ .gt ∨ e.NothingBuffered) : ∃ out, e.scan start stop = .ok out := by
  have hmem : compare start stop ≠ .gt ∨ e.memtable.isEmpty = true := h.imp_right And.left
  rw [scan]
  by_cases hfast : e.frozen = [] ∧ e.flushCount = 0
  · rw [if_pos hfast, Memtable.range_eq_some hmem]
    exact ⟨_, rfl⟩
  · rw [if_neg hfast]
    obtain ⟨results, hresults⟩ := exists_foldlM_overlay (h.imp_right And.right)
      (e.compactor.compaction.scan start stop)
    simp only [hresults, bind, Except.bind, overlay_eq hmem]
    exact ⟨_, rfl⟩

/-- Between bounds that are not in order there is nothing. -/
theorem scan_of_not_lt (e : Engine) {start stop : Bytes} (hbounds : compare start stop ≠ .lt)
    (h : compare start stop ≠ .gt ∨ e.NothingBuffered) : e.scan start stop = .ok [] := by
  have hfrozen : ∀ ms : List Memtable,
      (compare start stop ≠ .gt ∨ ∀ m ∈ ms, m.isEmpty = true) →
        ms.foldlM (overlay start stop) ∅ = .ok ∅ := by
    intro ms hms
    induction ms with
    | nil => rfl
    | cons m ms ih =>
      rw [List.foldlM_cons, overlay_of_not_lt hbounds
        (hms.imp_right fun hempty => hempty m List.mem_cons_self)]
      exact ih (hms.imp_right fun hempty m' hm' => hempty m' (List.mem_cons_of_mem m hm'))
  have hmem : compare start stop ≠ .gt ∨ e.memtable.isEmpty = true := h.imp_right And.left
  rw [scan]
  by_cases hfast : e.frozen = [] ∧ e.flushCount = 0
  · rw [if_pos hfast, Memtable.range_eq_some hmem,
      Memtable.filter_of_not_lt _ hbounds]
    rfl
  · rw [if_neg hfast, CompactionManager.scan_of_not_lt _ hbounds]
    simp only [hfrozen e.frozen (h.imp_right And.right), bind, Except.bind,
      overlay_of_not_lt hbounds hmem]
    rfl

end Engine

/-! ### Requests that return -/

namespace UmpHandler

open Engine

variable [Codec]

theorem deleteIgnored_eq (key : Bytes) (e : Engine) :
    deleteIgnored key e = .ok () (finalState (exec (.delete key) e)) := by
  show deleteIgnored key e = .ok () (finalState (Engine.delete key e))
  rw [deleteIgnored]
  cases hdel : Engine.delete key e with
  | ok u e' => rfl
  | error failure e' =>
    cases failure with
    | error msg => rfl
    | panic => exact absurd rfl ((delete_neverPanics key e trivial).2 _ _ hdel)

/-- Deletes, one after the other, whether they succeed or not. -/
theorem forM_deleteIgnored (keys : List Bytes) (e : Engine) :
    (forM keys deleteIgnored : EngineM Unit) e = .ok () (e.after (keys.map Call.delete)) := by
  induction keys generalizing e with
  | nil => rfl
  | cons key keys ih => exact forM_cons_eq_ok.mpr ⟨_, deleteIgnored_eq key e, ih _⟩

end UmpHandler

end Uldb
