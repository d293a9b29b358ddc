/-
Agent payloads (`agent_store.rs`).

A payload is stored as one text under the key of its session.  Its records are stored a
second time, each under a key of its own: the session, the step, the type and the id, with
colons between them.  The engine is the map that it implements, and `ulmen_core` is a
parameter.

* `getElem?_storePayload_of_ne`, `getElem?_deletePayload` — what the calls write and leave.
-/
import Uldb.Graph
import Uldb.PageFiles
import Uldb.Scan

namespace Uldb

/-! ### Texts -/

/-- The continuation bytes that a lead byte needs, and the bounds of the first. -/
def continuation (lead : UInt8) : Option (ℕ × UInt8 × UInt8) :=
  if 0xC2 ≤ lead ∧ lead ≤ 0xDF then some (1, 0x80, 0xBF)
  else if lead = 0xE0 then some (2, 0xA0, 0xBF)
  else if lead = 0xED then some (2, 0x80, 0x9F)
  else if 0xE1 ≤ lead ∧ lead ≤ 0xEF then some (2, 0x80, 0xBF)
  else if lead = 0xF0 then some (3, 0x90, 0xBF)
  else if 0xF1 ≤ lead ∧ lead ≤ 0xF3 then some (3, 0x80, 0xBF)
  else if lead = 0xF4 then some (3, 0x80, 0x8F)
  else none

/-- The number of continuation bytes that follow, up to `n`. -/
def continues : ℕ → UInt8 → UInt8 → Bytes → ℕ
  | 0, _, _, _ => 0
  | _, _, _, [] => 0
  | n + 1, lo, hi, b :: rest => if contByte lo hi b then continues n 0x80 0xBF rest + 1 else 0

/-- Put U+FFFD in the place of every maximal part that is not UTF-8; every turn takes a byte. -/
def replaceInvalid : ℕ → Bytes → Bytes
  | 0, _ => []
  | _, [] => []
  | fuel + 1, a :: rest =>
    if a < 0x80 then a :: replaceInvalid fuel rest
    else
      match continuation a with
      | none => [0xEF, 0xBF, 0xBD] ++ replaceInvalid fuel rest
      | some (n, lo, hi) =>
        let found := continues n lo hi rest
        (if found = n then a :: rest.take n else [0xEF, 0xBF, 0xBD])
          ++ replaceInvalid fuel (rest.drop found)

/-- `String::from_utf8_lossy` -/
def fromUtf8Lossy (text : Bytes) : Bytes :=
  if validUtf8 text then text else replaceInvalid text.length text

theorem fromUtf8Lossy_of_valid {text : Bytes} (h : validUtf8 text = true) :
    fromUtf8Lossy text = text := if_pos h

/-- `splitn(n, sep)` of a text. -/
def splitn (sep : UInt8) : ℕ → Bytes → List Bytes
  | 0, _ => []
  | 1, text => [text]
  | n + 2, text =>
    match text.dropWhile (· ≠ sep) with
    | [] => [text]
    | _ :: rest => text.takeWhile (· ≠ sep) :: splitn sep (n + 1) rest

/-- An `i64` in decimal. -/
def decimalInt : ℤ → Bytes
  | .ofNat n => PageStore.decimal n
  | .negSucc n => 45 :: PageStore.decimal (n + 1)

/-! ### `ulmen_core` -/

structure AgentHeader (HeaderFields : Type) where
  recordCount : ℕ
  fields : HeaderFields

structure AgentPayload (AgentRecord HeaderFields : Type) where
  header : AgentHeader HeaderFields
  records : List AgentRecord

/-- What the store uses of `ulmen_core`. -/
class UlmenCore where
  RecordType : Type
  AgentRecord : Type
  HeaderFields : Type
  AgentError : Type
  [decEq : DecidableEq RecordType]
  asStr : RecordType → Str
  recordType : AgentRecord → RecordType
  step : AgentRecord → ℤ
  id : AgentRecord → Str
  /-- `rec.encode(&[])` -/
  encodeRecord : AgentRecord → Str
  /-- `decode_record_public(line, &[])` -/
  decodeRecord : Bytes → Except AgentError AgentRecord
  encode : AgentPayload AgentRecord HeaderFields → Str
  decode : Bytes → Except AgentError (AgentPayload AgentRecord HeaderFields)
  validatePayload : AgentPayload AgentRecord HeaderFields → Except AgentError Unit
  defaultHeader : AgentHeader HeaderFields

attribute [reducible, instance] UlmenCore.decEq

/-- What the store relies on: texts are decoded to what was encoded, and no two types of
records have the same name. -/
structure UlmenCore.Lawful [UlmenCore] : Prop where
  decodeRecord : ∀ rec, decodeRecord (encodeRecord rec).1 = .ok rec
  decode : ∀ payload, decode (encode payload).1 = .ok payload
  asStr : Function.Injective asStr

/-- The map that the engine implements. -/
abbrev Kv := Std.TreeMap Bytes Bytes

def Kv.scan (kv : Kv) (start stop : Bytes) : List (Bytes × Bytes) :=
  kv.toList.filter fun e => InRange start stop e.1

namespace AgentStore

open UlmenCore

/-- `"agent:"` -/
def agentPrefix : Bytes := [97, 103, 101, 110, 116, 58]

/-- `"arec:"` -/
def recordPrefix : Bytes := [97, 114, 101, 99, 58]

/-- The entries from a text up to the text with `0xFF` behind it. -/
def scanPrefix (kv : Kv) (start : Bytes) : List (Bytes × Bytes) := kv.scan start (start ++ [0xFF])

def agentKey (sessionKey : Str) : Bytes := agentPrefix ++ sessionKey.1

/-- Why a payload is not loaded: `"no payload for key {:?}"`, `"invalid UTF-8: {}"`, or the
error of the decoder. -/
inductive LoadError (AgentError : Type) where
  | noPayload (sessionKey : Str)
  | invalidUtf8
  | decode (err : AgentError)

section

variable [UlmenCore]

/-- `"arec:{session_key}:{step}:{type}:{id}"` -/
def recordKey (sessionKey : Str) (rec : AgentRecord) : Bytes :=
  recordPrefix ++ (sessionKey.1 ++ (58 :: (decimalInt (step rec) ++ (58 ::
    ((asStr (recordType rec)).1 ++ (58 :: (UlmenCore.id rec).1))))))

/-- `Err` stands for `"validation failed: {}"`; nothing is written then. -/
def storePayload (kv : Kv) (sessionKey : Str) (payload : AgentPayload AgentRecord HeaderFields) :
    Except AgentError Kv :=
  match validatePayload payload with
  | .error err => .error err
  | .ok _ => .ok (payload.records.foldl
      (fun kv rec => kv.insert (recordKey sessionKey rec) (encodeRecord rec).1)
      (kv.insert (agentKey sessionKey) (encode payload).1))

def loadPayload (kv : Kv) (sessionKey : Str) :
    Except (LoadError AgentError) (AgentPayload AgentRecord HeaderFields) :=
  match kv[agentKey sessionKey]? with
  | none => .error (.noPayload sessionKey)
  | some bytes =>
    if validUtf8 bytes then (decode bytes).mapError .decode else .error .invalidUtf8

def deletePayload (kv : Kv) (sessionKey : Str) : Kv :=
  let kv := kv.erase (agentKey sessionKey)
  -- no colon behind the session key
  (scanPrefix kv (recordPrefix ++ sessionKey.1)).foldl (fun kv e => kv.erase e.1) kv

/-- The stored session keys. -/
def listSessions (kv : Kv) : List Bytes :=
  (scanPrefix kv agentPrefix).map fun e =>
    let full := fromUtf8Lossy e.1
    if agentPrefix <+: full then full.drop agentPrefix.length else full

/-- The fourth part of a record key. -/
def typeSegment (key : Bytes) : Option Bytes := (splitn 58 5 (fromUtf8Lossy key))[3]?

def readRecord (ty : RecordType) (e : Bytes × Bytes) : Option AgentRecord :=
  if typeSegment e.1 = some (asStr ty).1 then (decodeRecord (fromUtf8Lossy e.2)).toOption
  else none

/-- The record entries of a session. -/
def recordEntries (kv : Kv) (sessionKey : Bytes) : List (Bytes × Bytes) :=
  scanPrefix kv (recordPrefix ++ (sessionKey ++ [58]))

/-- All records for a session, filtered by type. -/
def getRecordsByType (kv : Kv) (sessionKey : Str) (ty : RecordType) : List AgentRecord :=
  (recordEntries kv sessionKey.1).filterMap (readRecord ty)

/-- The payload that `append_records` stores; a session that cannot be loaded starts anew. -/
def appended (kv : Kv) (sessionKey : Str) (newRecords : List AgentRecord) :
    AgentPayload AgentRecord HeaderFields :=
  let payload := match loadPayload kv sessionKey with
    | .ok payload => payload
    | .error _ => ⟨defaultHeader, []⟩
  let records := payload.records ++ newRecords
  ⟨{ payload.header with recordCount := records.length }, records⟩

def appendRecords (kv : Kv) (sessionKey : Str) (newRecords : List AgentRecord) :
    Except AgentError Kv := storePayload kv sessionKey (appended kv sessionKey newRecords)

end

/-! ### Ranges -/

theorem compare_max (b : UInt8) : compare b 0xFF ≠ .gt := by
  have hb : b.toNat < 256 := b.toNat_lt
  rw [show compare b 0xFF = compareOfLessAndEq b 0xFF from rfl, compareOfLessAndEq]
  split_ifs with hlt heq
  · simp
  · simp
  · rw [UInt8.lt_iff_toNat_lt, show (0xFF : UInt8).toNat = 255 from rfl] at hlt
    rw [← UInt8.toNat_inj, show (0xFF : UInt8).toNat = 255 from rfl] at heq
    omega

/-- The scan of a text covers the key. -/
def Covers (start k : Bytes) : Prop := InRange start (start ++ [0xFF]) k

instance (start k : Bytes) : Decidable (Covers start k) :=
  inferInstanceAs (Decidable (InRange _ _ _))

/-- A scan covers what starts with its text, and does not go on with `0xFF`. -/
theorem covers_iff {p k : Bytes} : Covers p k ↔ p <+: k ∧ ¬p ++ [0xFF] <+: k := by
  rw [Covers]
  induction p generalizing k with
  | nil =>
    cases k with
    | nil => decide
    | cons b k =>
      have hk : compare k ([] : Bytes) ≠ .lt := by cases k <;> simp
      rw [InRange, List.nil_append, List.compare_cons_cons]
      cases hcmp : compare b 0xFF with
      | lt =>
        have hb : b ≠ 0xFF := by
          rintro rfl
          exact absurd hcmp (by decide)
        simp [hb.symm]
      | eq =>
        obtain rfl := Std.LawfulEqCmp.compare_eq_iff_eq.mp hcmp
        simpa using hk
      | gt => exact absurd hcmp (compare_max b)
  | cons a p ih =>
    -- the first bytes decide, unless they are the same
    cases k with
    | nil => simp [InRange]
    | cons b k =>
      rw [InRange, List.cons_append, List.compare_cons_cons, List.compare_cons_cons,
        List.cons_prefix_cons, List.cons_prefix_cons]
      by_cases hab : a = b
      · subst hab
        have hself : compare a a = .eq := Std.ReflCmp.compare_self
        simpa [hself, InRange] using ih (k := k)
      · have hne : compare b a ≠ .eq := fun h => hab (Std.LawfulEqCmp.compare_eq_iff_eq.mp h).symm
        cases hcmp : compare b a with
        | lt => simp [hab]
        | eq => exact absurd hcmp hne
        | gt => simp [hab]

theorem covers_append {p rest : Bytes} : Covers p (p ++ rest) ↔ rest.head? ≠ some 0xFF := by
  rw [covers_iff, List.prefix_append_right_inj]
  cases rest with
  | nil => simp
  | cons b rest => simp [eq_comm]

theorem mem_scanPrefix {kv : Kv} {start : Bytes} {e : Bytes × Bytes} :
    e ∈ scanPrefix kv start ↔ Covers start e.1 ∧ kv[e.1]? = some e.2 := by
  rw [Covers, scanPrefix, Kv.scan, List.mem_filter, decide_eq_true_eq,
    ← Std.TreeMap.mem_toList_iff_getElem?_eq_some]
  exact and_comm

theorem ascending_scanPrefix (kv : Kv) (start : Bytes) : Ascending (scanPrefix kv start) :=
  List.Pairwise.filter _ Std.TreeMap.ordered_keys_toList

section

variable {kv kv' : Kv} {s t : Str}

theorem getElem?_foldl_erase (es : List (Bytes × Bytes)) (k : Bytes) :
    (es.foldl (fun kv e => kv.erase e.1) kv)[k]? = if k ∈ es.map Prod.fst then none else kv[k]? := by
  induction es generalizing kv with
  | nil => rfl
  | cons e es ih =>
    rw [List.foldl_cons, ih, Std.TreeMap.getElem?_erase]
    simp only [Std.LawfulEqCmp.compare_eq_iff_eq, List.map_cons, List.mem_cons]
    by_cases hk : k ∈ es.map Prod.fst
    · simp [hk]
    · simp [hk, eq_comm]

/-- **What a deletion leaves.** -/
theorem getElem?_deletePayload (k : Bytes) :
    (deletePayload kv s)[k]?
      = if k = agentKey s ∨ Covers (recordPrefix ++ s.1) k then none else kv[k]? := by
  have hmem : k ∈ (scanPrefix (kv.erase (agentKey s)) (recordPrefix ++ s.1)).map Prod.fst ↔
      Covers (recordPrefix ++ s.1) k ∧ ∃ v, (kv.erase (agentKey s))[k]? = some v := by
    rw [List.mem_map]
    constructor
    · rintro ⟨e, he, rfl⟩
      exact ⟨(mem_scanPrefix.mp he).1, e.2, (mem_scanPrefix.mp he).2⟩
    · rintro ⟨hin, v, hv⟩
      exact ⟨(k, v), mem_scanPrefix.mpr ⟨hin, hv⟩, rfl⟩
  rw [deletePayload, getElem?_foldl_erase, Std.TreeMap.getElem?_erase]
  simp only [Std.TreeMap.getElem?_erase, Std.LawfulEqCmp.compare_eq_iff_eq] at hmem ⊢
  by_cases hkey : k = agentKey s
  · simp [hkey]
  · rw [if_neg (Ne.symm hkey)] at hmem ⊢
    by_cases hin : Covers (recordPrefix ++ s.1) k
    · have hdeleted : k = agentKey s ∨ Covers (recordPrefix ++ s.1) k := .inr hin
      rw [if_pos hdeleted]
      split
      · rfl
      · rename_i hnot
        exact Option.eq_none_iff_forall_ne_some.mpr fun v hv => hnot (hmem.mpr ⟨hin, v, hv⟩)
    · rw [if_neg (fun h => hin (hmem.mp h).1), if_neg (fun h => h.elim hkey hin)]

/-- Payload keys and record keys differ in their second letter. -/
theorem not_covers_agentKey (text : Bytes) :
    ¬Covers (recordPrefix ++ text) (agentKey t) := by
  rw [covers_iff, recordPrefix, agentKey, agentPrefix]
  simp

theorem validUtf8_max (rest : Bytes) : validUtf8 (0xFF :: rest) = false := by
  rcases rest with _ | ⟨b, _ | ⟨c, _ | ⟨d, rest⟩⟩⟩ <;> simp [validUtf8]

/-- A stored session is listed. -/
theorem mem_listSessions {v : Bytes} (h : kv[agentKey t]? = some v) : t.1 ∈ listSessions kv := by
  have hhead : t.1.head? ≠ some 0xFF := by
    intro hmax
    have hvalid := t.2
    rw [(List.eq_cons_of_mem_head? hmax : t.1 = 0xFF :: t.1.tail), validUtf8_max] at hvalid
    exact absurd hvalid (by simp)
  have hvalid : validUtf8 (agentKey t) = true := by
    rw [agentKey, validUtf8_append (by decide), t.2]
  refine List.mem_map.mpr ⟨(agentKey t, v), mem_scanPrefix.mpr ⟨covers_append.mpr hhead, h⟩, ?_⟩
  simp only
  rw [fromUtf8Lossy_of_valid hvalid, agentKey, if_pos (List.prefix_append _ _), List.drop_left]

theorem agentKey_injective : Function.Injective agentKey :=
  fun _ _ h => Subtype.ext (List.append_cancel_left h)

theorem nodup_of_ascending {es : List (Bytes × Bytes)} (hes : Ascending es) : es.Nodup := by
  refine hes.imp fun {a b} hlt heq => ?_
  rw [heq, Page.compare_self] at hlt
  exact absurd hlt (by simp)

/-- Two lists in ascending order with the same entries. -/
theorem eq_of_ascending {l l' : List (Bytes × Bytes)} (hl : Ascending l) (hl' : Ascending l')
    (h : ∀ e, e ∈ l ↔ e ∈ l') : l = l' := by
  have hasymm : ∀ a ∈ l, ∀ b ∈ l', compare a.1 b.1 = .lt → compare b.1 a.1 = .lt → a = b := by
    intro a _ b _ hab hba
    rw [Std.OrientedCmp.gt_of_lt hab] at hba
    exact absurd hba (by simp)
  exact List.Perm.eq_of_pairwise (fun a b ha hb => hasymm a ha b hb) hl hl'
    ((List.perm_ext_iff_of_nodup (nodup_of_ascending hl) (nodup_of_ascending hl')).mpr h)

/-- The record entries that a deletion leaves. -/
theorem recordEntries_deletePayload (sessionKey : Bytes) :
    recordEntries (deletePayload kv s) sessionKey
      = (recordEntries kv sessionKey).filter fun e => ¬Covers (recordPrefix ++ s.1) e.1 := by
  refine eq_of_ascending (ascending_scanPrefix _ _) (List.Pairwise.filter _ (ascending_scanPrefix _ _))
    fun e => ?_
  rw [List.mem_filter, recordEntries, recordEntries, mem_scanPrefix, mem_scanPrefix,
    getElem?_deletePayload, decide_eq_true_eq]
  by_cases hdel : Covers (recordPrefix ++ s.1) e.1
  · simp [hdel]
  · by_cases hin : Covers (recordPrefix ++ (sessionKey ++ [58])) e.1
    · have hkey : e.1 ≠ agentKey s := fun h => not_covers_agentKey _ (h ▸ hin)
      simp [hin, hdel, hkey]
    · simp [hin]

theorem filterMap_filter_eq_iff {α β : Type} {f : α → Option β} {p : α → Bool} {l : List α} :
    (l.filter p).filterMap f = l.filterMap f ↔ ∀ a ∈ l, (f a).isSome → p a = true := by
  induction l with
  | nil => simp
  | cons a l ih =>
    have hle : ((l.filter p).filterMap f).length ≤ (l.filterMap f).length :=
      (List.filter_sublist.filterMap f).length_le
    rw [List.forall_mem_cons, ← ih]
    cases hp : p a with
    | true => cases hf : f a <;> simp [hp, hf]
    | false =>
      cases hf : f a with
      | none => simp [hp, hf]
      | some b =>
        -- the item of `a` is missing on the left
        refine iff_of_false (fun h => ?_) (by simp)
        have hlen := congrArg List.length h
        simp only [List.filter_cons, hp, List.filterMap_cons, hf, List.length_cons] at hlen
        simp at hlen
        omega

/-- The bytes of a number are digits, and a sign in front. -/
theorem mem_decimalInt {z : ℤ} {b : UInt8} (h : b ∈ decimalInt z) :
    b = 45 ∨ PageStore.IsDigit b := by
  cases z with
  | ofNat n => exact .inr (PageStore.isDigit_of_mem_decimal h)
  | negSucc n =>
    rcases List.mem_cons.mp h with h | h
    · exact .inl h
    · exact .inr (PageStore.isDigit_of_mem_decimal h)

theorem head?_decimalInt (z : ℤ) : (decimalInt z).head? ≠ some 0xFF := by
  intro h
  rcases mem_decimalInt (List.mem_of_mem_head? h) with h | h
  · exact absurd h (by decide)
  · exact absurd h.2 (by decide)

theorem colon_notMem_decimalInt (z : ℤ) : 58 ∉ decimalInt z := by
  intro h
  rcases mem_decimalInt h with h | h
  · exact absurd h (by decide)
  · exact absurd h.2 (by decide)

theorem validUtf8_decimalInt (z : ℤ) : validUtf8 (decimalInt z) = true := by
  refine validUtf8_of_ascii fun b hb => ?_
  rcases mem_decimalInt hb with rfl | h
  · decide
  · exact UInt8.lt_of_le_of_lt h.2 (by decide)

/-- The parts of a text before its first separators. -/
theorem splitn_append {sep : UInt8} {a : Bytes} (ha : sep ∉ a) (n : ℕ) (rest : Bytes) :
    splitn sep (n + 2) (a ++ sep :: rest) = a :: splitn sep (n + 1) rest := by
  have hall : ∀ b ∈ a, decide (b ≠ sep) = true := fun b hb =>
    decide_eq_true fun h => ha (h ▸ hb)
  rw [splitn, List.dropWhile_append_of_pos hall, List.takeWhile_append_of_pos hall]
  simp

end

section

variable [UlmenCore] {kv kv' : Kv} {s t : Str} {payload : AgentPayload AgentRecord HeaderFields}

/-- A deletion of the session covers its record keys. -/
theorem covers_recordKey (rec : AgentRecord) : Covers (recordPrefix ++ s.1) (recordKey s rec) := by
  rw [recordKey, ← List.append_assoc, covers_append]
  simp

/-- A typed read of the session covers its record keys. -/
theorem covers_recordKey_colon (rec : AgentRecord) :
    Covers (recordPrefix ++ (s.1 ++ [58])) (recordKey s rec) := by
  have hsplit : recordKey s rec = recordPrefix ++ (s.1 ++ [58]) ++ (decimalInt (step rec) ++ (58 ::
      ((asStr (recordType rec)).1 ++ (58 :: (UlmenCore.id rec).1)))) := by
    simp [recordKey]
  rw [hsplit, covers_append, List.head?_append]
  cases hhead : (decimalInt (step rec)).head? with
  | none => simp
  | some b => simpa [hhead] using head?_decimalInt (step rec)

/-- The record keys of a payload. -/
def recordKeys (sessionKey : Str) (records : List AgentRecord) : List Bytes :=
  records.map (recordKey sessionKey)

theorem getElem?_foldl_insert (records : List AgentRecord) {k : Bytes}
    (h : k ∉ recordKeys s records) :
    (records.foldl (fun kv rec => kv.insert (recordKey s rec) (encodeRecord rec).1) kv)[k]?
      = kv[k]? := by
  induction records generalizing kv with
  | nil => rfl
  | cons rec records ih =>
    rw [recordKeys, List.map_cons, List.mem_cons, not_or] at h
    rw [List.foldl_cons, ih h.2, Std.TreeMap.getElem?_insert]
    simp [Std.LawfulEqCmp.compare_eq_iff_eq, Ne.symm h.1]

/-- A successful store has written the payload, and then its records. -/
theorem storePayload_eq_ok : storePayload kv s payload = .ok kv' ↔
    (∃ u, validatePayload payload = .ok u) ∧ payload.records.foldl
      (fun kv rec => kv.insert (recordKey s rec) (encodeRecord rec).1)
      (kv.insert (agentKey s) (encode payload).1) = kv' := by
  rw [storePayload]
  cases validatePayload payload <;> simp

/-- Keys of records are no keys of payloads. -/
theorem agentKey_notMem_recordKeys (records : List AgentRecord) :
    agentKey t ∉ recordKeys s records := by
  intro h
  obtain ⟨rec, _, hkey⟩ := List.mem_map.mp h
  exact not_covers_agentKey _ (hkey ▸ covers_recordKey rec)

theorem validUtf8_recordKey (rec : AgentRecord) : validUtf8 (recordKey s rec) = true := by
  have hcolon : ∀ text, validUtf8 (58 :: text) = validUtf8 text :=
    fun text => validUtf8_append (a := [58]) (by decide) text
  rw [recordKey, validUtf8_append (by decide), validUtf8_append s.2, hcolon,
    validUtf8_append (validUtf8_decimalInt _), hcolon, validUtf8_append (asStr _).2, hcolon,
    (UlmenCore.id rec).2]

/-- **The type of a record** is the fourth part of its key if its session has no colon. -/
theorem typeSegment_recordKey {rec : AgentRecord} (hs : 58 ∉ s.1)
    (htype : 58 ∉ (asStr (recordType rec)).1) :
    typeSegment (recordKey s rec) = some (asStr (recordType rec)).1 := by
  have harec : (58 : UInt8) ∉ [97, 114, 101, 99] := by decide
  have hkey : recordKey s rec = [97, 114, 101, 99] ++ 58 :: (s.1 ++ 58 :: (decimalInt (step rec)
      ++ 58 :: ((asStr (recordType rec)).1 ++ 58 :: (UlmenCore.id rec).1))) := rfl
  rw [typeSegment, fromUtf8Lossy_of_valid (validUtf8_recordKey rec), hkey, splitn_append harec,
    splitn_append hs, splitn_append (colon_notMem_decimalInt _), splitn_append htype]
  rfl

/-- A store writes the key of the payload and the keys of its records. -/
theorem getElem?_storePayload_of_ne (h : storePayload kv s payload = .ok kv') {k : Bytes}
    (hkey : k ≠ agentKey s) (hrecords : k ∉ recordKeys s payload.records) : kv'[k]? = kv[k]? := by
  obtain ⟨_, rfl⟩ := storePayload_eq_ok.mp h
  rw [getElem?_foldl_insert _ hrecords, Std.TreeMap.getElem?_insert]
  simp [Std.LawfulEqCmp.compare_eq_iff_eq, Ne.symm hkey]

theorem getElem?_storePayload_agentKey (h : storePayload kv s payload = .ok kv') :
    kv'[agentKey s]? = some (encode payload).1 := by
  obtain ⟨_, rfl⟩ := storePayload_eq_ok.mp h
  rw [getElem?_foldl_insert _ (agentKey_notMem_recordKeys _), Std.TreeMap.getElem?_insert]
  simp

/-- A record that shares its key with no other is stored under it. -/
theorem getElem?_storePayload_recordKey (h : storePayload kv s payload = .ok kv')
    (hnodup : (recordKeys s payload.records).Nodup) {rec : AgentRecord} (hrec : rec ∈ payload.records) :
    kv'[recordKey s rec]? = some (encodeRecord rec).1 := by
  obtain ⟨_, rfl⟩ := storePayload_eq_ok.mp h
  obtain ⟨before, after, hsplit⟩ := List.append_of_mem hrec
  rw [hsplit, recordKeys, List.map_append, List.map_cons, List.nodup_append, List.nodup_cons] at hnodup
  rw [hsplit, List.foldl_append, List.foldl_cons, getElem?_foldl_insert _ hnodup.2.1.1,
    Std.TreeMap.getElem?_insert]
  simp

end

end AgentStore

end Uldb
