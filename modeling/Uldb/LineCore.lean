/-
An `ulmen_core` that runs: one line of text for every record.

Results about the agent store are about every `UlmenCore`; this one shows that what they ask
of it can be had (`lineCore_lawful`), and runs the examples.  A record is its type, its step
and its id, both written as runs of one letter.
-/
import Uldb.AgentStore

namespace Uldb

namespace LineCore

inductive LineType where
  | msg
  | tool
  deriving DecidableEq

structure LineRecord where
  type : LineType
  step : ℕ
  id : ℕ
  deriving DecidableEq

abbrev LinePayload := AgentPayload LineRecord Unit

def line (r : LineRecord) : Bytes :=
  (if r.type = .tool then 116 else 109) :: (List.replicate r.step 49 ++ List.replicate r.id 120)

def readLine (text : Bytes) : LineRecord :=
  ⟨if text.head? = some 116 then .tool else .msg, text.count 49, text.count 120⟩

/-- The number of records, and a line for each of them. -/
def payloadText (p : LinePayload) : Bytes :=
  List.intercalate [10] (List.replicate p.header.recordCount 49 :: p.records.map line)

def readPayload (text : Bytes) : LinePayload :=
  match text.splitOn 10 with
  | [] => ⟨⟨0, ()⟩, []⟩
  | count :: lines => ⟨⟨count.length, ()⟩, lines.map readLine⟩

theorem readLine_line (r : LineRecord) : readLine (line r) = r := by
  obtain ⟨type, step, id⟩ := r
  cases type <;> simp [readLine, line, List.count_append, List.count_replicate]

theorem mem_line {r : LineRecord} {b : UInt8} (h : b ∈ line r) : b < 0x80 ∧ b ≠ 10 := by
  rw [line, List.mem_cons, List.mem_append, List.mem_replicate, List.mem_replicate] at h
  rcases h with h | ⟨_, rfl⟩ | ⟨_, rfl⟩
  · rw [h]
    split <;> decide
  · decide
  · decide

theorem readPayload_payloadText (p : LinePayload) : readPayload (payloadText p) = p := by
  have hlines : ∀ l ∈ List.replicate p.header.recordCount 49 :: p.records.map line, (10 : UInt8) ∉ l := by
    intro l hl hmem
    rcases List.mem_cons.mp hl with rfl | hl
    · exact absurd (List.eq_of_mem_replicate hmem) (by decide)
    · obtain ⟨r, _, rfl⟩ := List.mem_map.mp hl
      exact (mem_line hmem).2 rfl
  rw [readPayload, payloadText, List.splitOn_intercalate 10 hlines (by simp)]
  simp [List.map_map, Function.comp_def, readLine_line]

theorem forall_mem_intercalate {P : UInt8 → Prop} {sep : Bytes} {lines : List Bytes}
    (hsep : ∀ b ∈ sep, P b) (hlines : ∀ l ∈ lines, ∀ b ∈ l, P b) :
    ∀ b ∈ sep.intercalate lines, P b := by
  induction lines with
  | nil => simp
  | cons l lines ih =>
    have hl := hlines l List.mem_cons_self
    have hrest := ih fun l' hl' => hlines l' (List.mem_cons_of_mem _ hl')
    intro b hb
    by_cases hne : lines = []
    · subst hne
      exact hl b (by simpa using hb)
    · rw [List.intercalate_cons_of_ne_nil hne, List.mem_append, List.mem_append] at hb
      rcases hb with (hb | hb) | hb
      · exact hl b hb
      · exact hsep b hb
      · exact hrest b hb

theorem ascii_payloadText (p : LinePayload) : ∀ b ∈ payloadText p, b < 0x80 := by
  have hsep : ∀ b ∈ [(10 : UInt8)], b < 0x80 := by simp
  refine forall_mem_intercalate hsep fun l hl b hb => ?_
  rcases List.mem_cons.mp hl with rfl | hl
  · rw [List.eq_of_mem_replicate hb]
    decide
  · obtain ⟨r, _, rfl⟩ := List.mem_map.mp hl
    exact (mem_line hb).1

end LineCore

open LineCore

@[reducible] def lineCore : UlmenCore where
  RecordType := LineType
  AgentRecord := LineRecord
  HeaderFields := Unit
  AgentError := Unit
  asStr
    | .msg => ⟨[109, 115, 103], by decide⟩
    | .tool => ⟨[116, 111, 111, 108], by decide⟩
  recordType r := r.type
  step r := r.step
  id r := ⟨List.replicate r.id 120, validUtf8_of_ascii fun b hb => by
    rw [List.eq_of_mem_replicate hb]
    decide⟩
  encodeRecord r := ⟨line r, validUtf8_of_ascii fun _ hb => (mem_line hb).1⟩
  decodeRecord text := .ok (readLine text)
  encode p := ⟨payloadText p, validUtf8_of_ascii (ascii_payloadText p)⟩
  decode text := .ok (readPayload text)
  validatePayload _ := .ok ()
  defaultHeader := ⟨0, ()⟩

theorem lineCore_lawful : @UlmenCore.Lawful lineCore := by
  refine @UlmenCore.Lawful.mk lineCore (fun r => ?_) (fun p => ?_) fun a b h => ?_
  · exact congrArg Except.ok (readLine_line r)
  · exact congrArg Except.ok (readPayload_payloadText p)
  · cases a <;> cases b <;> first | rfl | exact absurd (congrArg Subtype.val h) (by decide)

/-- A typed read of line records. -/
def lineRecords (kv : Kv) (sessionKey : Str) (ty : LineType) : List LineRecord :=
  @AgentStore.getRecordsByType lineCore kv sessionKey ty

end Uldb
