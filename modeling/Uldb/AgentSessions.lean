/-
The two copies of the records of a session (`agent_store.rs`).

A typed read looks at the records of a session one by one, under their own keys, and takes
the type of a record from the fourth part of its key.  The keys of one session can start
with the key of another, so a deletion can remove records of other sessions
(`delete_isolated_iff`), and the parts of the keys move if a session has a colon.

* `delete_isolated_iff` — when a deletion leaves another session as it was;
* `records_match` — runs after which typed reads return the records of the payload.
-/
import Uldb.LineCore

namespace Uldb

namespace AgentStore

open UlmenCore LineCore

/-- **When a deletion is isolated.**  Deleting the payload of a session always leaves the
payload of another session, and removes all that stores of the session have written.  It
leaves the typed reads of the other session exactly if it covers none of the entries that
they return. -/
theorem delete_isolated_iff [UlmenCore] (kv : Kv) {s t : Str} (hst : s ≠ t) :
    (loadPayload (deletePayload kv s) t = loadPayload kv t ∧
      (∀ ty, getRecordsByType (deletePayload kv s) t ty = getRecordsByType kv t ty) ∧
      ∀ kv₀ payload kv₁ (k : Bytes), storePayload kv₀ s payload = .ok kv₁ → kv₁[k]? ≠ kv₀[k]? →
        (deletePayload kv s)[k]? = none) ↔
    ∀ e ∈ recordEntries kv t.1, (∃ ty, (readRecord ty e).isSome) →
      ¬Covers (recordPrefix ++ s.1) e.1 := by
  have hload : loadPayload (deletePayload kv s) t = loadPayload kv t := by
    have hne : ¬(agentKey t = agentKey s ∨ Covers (recordPrefix ++ s.1) (agentKey t)) :=
      fun h => h.elim (fun h => hst (agentKey_injective h).symm) (not_covers_agentKey _)
    rw [loadPayload, loadPayload, getElem?_deletePayload, if_neg hne]
  have hremoved : ∀ kv₀ payload kv₁ (k : Bytes), storePayload kv₀ s payload = .ok kv₁ →
      kv₁[k]? ≠ kv₀[k]? → (deletePayload kv s)[k]? = none := by
    intro kv₀ payload kv₁ k hstore hwritten
    rw [getElem?_deletePayload, if_pos]
    by_contra hcovered
    rw [not_or] at hcovered
    refine hwritten (getElem?_storePayload_of_ne hstore hcovered.1 fun h => hcovered.2 ?_)
    obtain ⟨rec, _, rfl⟩ := List.mem_map.mp h
    exact covers_recordKey rec
  have hread : (∀ ty, getRecordsByType (deletePayload kv s) t ty = getRecordsByType kv t ty) ↔
      ∀ e ∈ recordEntries kv t.1, (∃ ty, (readRecord ty e).isSome) →
        ¬Covers (recordPrefix ++ s.1) e.1 := by
    simp only [getRecordsByType, recordEntries_deletePayload, filterMap_filter_eq_iff,
      decide_eq_true_eq]
    exact ⟨fun h e he ⟨ty, hty⟩ => h ty e he hty, fun h ty e he hty => h e he ⟨ty, hty⟩⟩
  rw [hread]
  exact ⟨fun h => h.2.1, fun h => ⟨hload, h, hremoved⟩⟩

/-- A payload with one message. -/
def oneMessage : LinePayload := ⟨⟨1, ()⟩, [⟨.msg, 1, 1⟩]⟩

/-- `"sess_1"` -/
def sess1 : Str := ⟨[115, 101, 115, 115, 95, 49], by decide⟩

/-- `"sess_10"` -/
def sess10 : Str := ⟨[115, 101, 115, 115, 95, 49, 48], by decide⟩

/-- `"sess_2"` -/
def sess2 : Str := ⟨[115, 101, 115, 115, 95, 50], by decide⟩

/-- The store with the payload in `sess_10`. -/
def sess10Only : Kv := (@storePayload lineCore ∅ sess10 oneMessage).toOption.getD ∅

/-- Deleting one session removes the record of the other. -/
theorem sess1_deletes_sess10 :
    @storePayload lineCore ∅ sess10 oneMessage = .ok sess10Only ∧ sess1 ≠ sess10 ∧
      lineRecords sess10Only sess10 .msg = [⟨.msg, 1, 1⟩] ∧
      lineRecords (deletePayload sess10Only sess1) sess10 .msg = [] :=
  ⟨rfl, by decide, by decide +kernel, by decide +kernel⟩

/-- Deleting `sess_2` covers no key of `sess_10`. -/
theorem delete_isolated_sess2 :
    lineRecords (deletePayload sess10Only sess2) sess10 .msg
      = lineRecords sess10Only sess10 .msg := by
  refine ((@delete_isolated_iff lineCore sess10Only sess2 sess10 (by decide)).mpr ?_).2.1 .msg
  have hnone : ∀ e ∈ recordEntries sess10Only sess10.1, ¬Covers (recordPrefix ++ sess2.1) e.1 := by
    decide +kernel
  exact fun e he _ => hnone e he

/-! ### Typed reads of a whole payload -/

section

variable [UlmenCore]

inductive AgentCall where
  | store (sessionKey : Str) (payload : AgentPayload AgentRecord HeaderFields)
  | append (sessionKey : Str) (newRecords : List AgentRecord)
  | delete (sessionKey : Str)

/-- A call that fails writes nothing. -/
def exec (kv : Kv) : AgentCall → Kv
  | .store sessionKey payload => (storePayload kv sessionKey payload).toOption.getD kv
  | .append sessionKey newRecords => (appendRecords kv sessionKey newRecords).toOption.getD kv
  | .delete sessionKey => deletePayload kv sessionKey

/-- A payload keeps the two copies of its records, and those of other sessions, the same:
its records have different keys with their types in the fourth place, it writes every record
key that its session already has, and no key of another stored session. -/
structure CleanStore (kv : Kv) (s : Str) (records : List AgentRecord) : Prop where
  nodup : (recordKeys s records).Nodup
  segment : ∀ rec ∈ records, typeSegment (recordKey s rec) = some (asStr (recordType rec)).1
  covers : ∀ e ∈ recordEntries kv s.1, e.1 ∈ recordKeys s records
  foreign : ∀ t ∈ listSessions kv, t ≠ s.1 → ∀ k ∈ recordKeys s records,
    ¬Covers (recordPrefix ++ (t ++ [58])) k

instance (kv : Kv) (s : Str) (records : List AgentRecord) : Decidable (CleanStore kv s records) :=
  decidable_of_iff
    ((recordKeys s records).Nodup ∧
      (∀ rec ∈ records, typeSegment (recordKey s rec) = some (asStr (recordType rec)).1) ∧
      (∀ e ∈ recordEntries kv s.1, e.1 ∈ recordKeys s records) ∧
      ∀ t ∈ listSessions kv, t ≠ s.1 → ∀ k ∈ recordKeys s records,
        ¬Covers (recordPrefix ++ (t ++ [58])) k)
    ⟨fun h => ⟨h.1, h.2.1, h.2.2.1, h.2.2.2⟩, fun h => ⟨h.1, h.2, h.3, h.4⟩⟩

/-- A deletion covers no record entry of another stored session. -/
def CleanDelete (kv : Kv) (s : Str) : Prop :=
  ∀ t ∈ listSessions kv, t ≠ s.1 → ∀ e ∈ recordEntries kv t, ¬Covers (recordPrefix ++ s.1) e.1

instance (kv : Kv) (s : Str) : Decidable (CleanDelete kv s) :=
  inferInstanceAs (Decidable (∀ t ∈ listSessions kv, _))

/-- The call keeps the two copies the same; a call that fails does. -/
def Clean (kv : Kv) : AgentCall → Prop
  | .store s payload => (∃ kv', storePayload kv s payload = .ok kv') → CleanStore kv s payload.records
  | .append s newRecords => (∃ kv', appendRecords kv s newRecords = .ok kv') →
      CleanStore kv s (appended kv s newRecords).records
  | .delete s => CleanDelete kv s

/-- A run of calls that are all clean. -/
def CleanRun : Kv → List AgentCall → Prop
  | _, [] => True
  | kv, c :: cs => Clean kv c ∧ CleanRun (exec kv c) cs

/-- The record entries of a session are those of its payload. -/
structure Mirrors (kv : Kv) (s : Str) (records : List AgentRecord) : Prop where
  nodup : (recordKeys s records).Nodup
  segment : ∀ rec ∈ records, typeSegment (recordKey s rec) = some (asStr (recordType rec)).1
  stored : ∀ rec ∈ records, kv[recordKey s rec]? = some (encodeRecord rec).1
  only : ∀ e ∈ recordEntries kv s.1, e.1 ∈ recordKeys s records

/-- Every stored session is mirrored by its record entries. -/
def AllMirror (kv : Kv) : Prop :=
  ∀ s v, kv[agentKey s]? = some v →
    ∃ payload, v = (encode payload).1 ∧ Mirrors kv s payload.records

variable {kv kv' : Kv} {s t : Str} {records : List AgentRecord}

/-- Without colons in sessions, a payload is clean if its records have different keys and
cover those that its session already has. -/
theorem CleanStore.of_noColon (htype : ∀ ty, 58 ∉ (asStr ty).1) (hs : 58 ∉ s.1)
    (hlisted : ∀ t ∈ listSessions kv, 58 ∉ t) (hnodup : (recordKeys s records).Nodup)
    (hcovers : ∀ e ∈ recordEntries kv s.1, e.1 ∈ recordKeys s records) :
    CleanStore kv s records := by
  refine ⟨hnodup, fun rec _ => typeSegment_recordKey hs (htype _), hcovers, fun t ht hts k hk => ?_⟩
  obtain ⟨rec, _, rfl⟩ := List.mem_map.mp hk
  intro hforeign
  obtain ⟨rest, hrest⟩ := (covers_iff.mp hforeign).1
  rw [recordKey, List.append_assoc, List.append_cancel_left_eq, List.append_assoc,
    List.singleton_append] at hrest
  -- both texts end at their first colon
  have hbefore : ∀ {a : Bytes}, 58 ∉ a → ∀ rest, (a ++ 58 :: rest).takeWhile (· ≠ 58) = a := by
    intro a ha rest
    have hall : ∀ b ∈ a, decide (b ≠ 58) = true := fun b hb => decide_eq_true fun h => ha (h ▸ hb)
    rw [List.takeWhile_append_of_pos hall]
    simp
  refine hts ?_
  rw [← hbefore (hlisted t ht) rest, hrest, hbefore hs]

theorem Mirrors.congr (h : Mirrors kv s records)
    (hsame : ∀ k, Covers (recordPrefix ++ (s.1 ++ [58])) k → kv'[k]? = kv[k]?) :
    Mirrors kv' s records := by
  refine ⟨h.nodup, h.segment, fun rec hrec => ?_, fun e he => ?_⟩
  · rw [hsame _ (covers_recordKey_colon rec)]
    exact h.stored rec hrec
  · obtain ⟨hcovers, hv⟩ := mem_scanPrefix.mp he
    exact h.only e (mem_scanPrefix.mpr ⟨hcovers, (hsame e.1 hcovers).symm.trans hv⟩)

/-- The entry of a record. -/
def recordEntry (sessionKey : Str) (rec : AgentRecord) : Bytes × Bytes :=
  (recordKey sessionKey rec, (encodeRecord rec).1)

/-- The entries of a mirrored session, in the order of their keys. -/
theorem Mirrors.recordEntries_perm (h : Mirrors kv s records) :
    (recordEntries kv s.1).Perm (records.map (recordEntry s)) := by
  have hkeys : (records.map (recordEntry s)).map Prod.fst = recordKeys s records := by
    rw [List.map_map]
    rfl
  refine (List.perm_ext_iff_of_nodup (nodup_of_ascending (ascending_scanPrefix _ _))
    (List.Nodup.of_map Prod.fst (hkeys ▸ h.nodup))).mpr fun e => ?_
  rw [List.mem_map]
  constructor
  · intro he
    obtain ⟨rec, hrec, hkey⟩ := List.mem_map.mp (h.only e he)
    have hv := (mem_scanPrefix.mp he).2
    rw [← hkey, h.stored rec hrec, Option.some_inj] at hv
    exact ⟨rec, hrec, Prod.ext hkey hv⟩
  · rintro ⟨rec, hrec, rfl⟩
    exact mem_scanPrefix.mpr ⟨covers_recordKey_colon rec, h.stored rec hrec⟩

theorem readRecord_recordEntry (hcore : Lawful) {rec : AgentRecord}
    (hsegment : typeSegment (recordKey s rec) = some (asStr (recordType rec)).1) (ty : RecordType) :
    readRecord ty (recordEntry s rec) = if recordType rec = ty then some rec else none := by
  have htype : (some (asStr (recordType rec)).1 = some (asStr ty).1) ↔ recordType rec = ty := by
    rw [Option.some_inj, ← Subtype.ext_iff]
    exact hcore.asStr.eq_iff
  rw [readRecord, recordEntry]
  simp only
  rw [hsegment, fromUtf8Lossy_of_valid (encodeRecord rec).2, hcore.decodeRecord]
  by_cases hty : recordType rec = ty
  · rw [if_pos (htype.mpr hty), if_pos hty]
    rfl
  · rw [if_neg fun h => hty (htype.mp h), if_neg hty]

/-- **Typed reads** of a mirrored session return the records of the type. -/
theorem Mirrors.getRecordsByType_perm (hcore : Lawful) (h : Mirrors kv s records)
    (ty : RecordType) :
    (getRecordsByType kv s ty).Perm (records.filter fun rec => recordType rec = ty) := by
  have hread : records.filterMap (readRecord ty ∘ recordEntry s)
      = records.filterMap (Option.guard fun rec => recordType rec = ty) := by
    refine List.filterMap_congr fun rec hrec => ?_
    rw [Function.comp_apply, readRecord_recordEntry hcore (h.segment rec hrec), Option.guard]
    simp only [decide_eq_true_eq]
  have hperm := h.recordEntries_perm.filterMap (readRecord ty)
  rwa [List.filterMap_map, hread, List.filterMap_eq_filter] at hperm

theorem AllMirror.store {payload : AgentPayload AgentRecord HeaderFields} (h : AllMirror kv)
    (hclean : CleanStore kv s payload.records) (hstore : storePayload kv s payload = .ok kv') :
    AllMirror kv' := by
  intro t v hv
  by_cases hts : t = s
  · subst hts
    rw [getElem?_storePayload_agentKey hstore, Option.some_inj] at hv
    refine ⟨payload, hv.symm, hclean.nodup, hclean.segment,
      fun rec hrec => getElem?_storePayload_recordKey hstore hclean.nodup hrec, fun e he => ?_⟩
    -- an entry that the payload does not write was there before
    by_contra hnot
    obtain ⟨hcovers, hold⟩ := mem_scanPrefix.mp he
    have hkey : e.1 ≠ agentKey t := fun h => not_covers_agentKey _ (h ▸ hcovers)
    rw [getElem?_storePayload_of_ne hstore hkey hnot] at hold
    exact hnot (hclean.covers e (mem_scanPrefix.mpr ⟨hcovers, hold⟩))
  · have hkey : agentKey t ≠ agentKey s := fun h => hts (agentKey_injective h)
    rw [getElem?_storePayload_of_ne hstore hkey (agentKey_notMem_recordKeys _)] at hv
    obtain ⟨payload', rfl, hmirror⟩ := h t v hv
    refine ⟨payload', rfl, hmirror.congr fun k hk =>
    getElem?_storePayload_of_ne hstore ?_ fun hmem => ?_⟩
    · exact fun h => not_covers_agentKey _ (h ▸ hk)
    · exact hclean.foreign t.1 (mem_listSessions hv) (fun h => hts (Subtype.ext h)) k hmem hk

theorem AllMirror.delete (h : AllMirror kv) (hclean : CleanDelete kv s) :
    AllMirror (deletePayload kv s) := by
  intro t v hv
  rw [getElem?_deletePayload] at hv
  split at hv
  · exact absurd hv (by simp)
  · rename_i hnot
    rw [not_or] at hnot
    obtain ⟨payload, rfl, hmirror⟩ := h t v hv
    refine ⟨payload, rfl, hmirror.congr fun k hk => ?_⟩
    have hts : t.1 ≠ s.1 := fun h => hnot.1 (by rw [Subtype.ext h])
    rw [getElem?_deletePayload]
    split
    · rename_i hdeleted
      refine (Option.eq_none_iff_forall_ne_some.mpr fun value hvalue => ?_).symm
      rcases hdeleted with rfl | hdeleted
      · exact not_covers_agentKey _ hk
      · exact hclean t.1 (mem_listSessions hv) hts (k, value)
            (mem_scanPrefix.mpr ⟨hk, hvalue⟩) hdeleted
    · rfl

theorem AllMirror.exec (h : AllMirror kv) {c : AgentCall} (hclean : Clean kv c) :
    AllMirror (exec kv c) := by
  cases c with
  | store s payload =>
    rw [AgentStore.exec]
    cases hstore : storePayload kv s payload with
    | error err => exact h
    | ok kv' => exact h.store (hclean ⟨kv', hstore⟩) hstore
  | append s newRecords =>
    rw [AgentStore.exec]
    cases hstore : appendRecords kv s newRecords with
    | error err => exact h
    | ok kv' => exact h.store (hclean ⟨kv', hstore⟩) hstore
  | delete s => exact h.delete hclean

theorem allMirror_run {cs : List AgentCall} (h : AllMirror kv) (hclean : CleanRun kv cs) :
    AllMirror (cs.foldl AgentStore.exec kv) := by
  induction cs generalizing kv with
  | nil => exact h
  | cons c cs ih => exact ih (h.exec hclean.1) hclean.2

end

/-- **The two copies of the records agree** after every run of clean calls: a typed read of a
stored session returns the records of its payload that have the type. -/
theorem records_match [UlmenCore] (hcore : Lawful) {cs : List AgentCall} (hclean : CleanRun ∅ cs)
    {s : Str} {payload : AgentPayload AgentRecord HeaderFields}
    (hload : loadPayload (cs.foldl exec ∅) s = .ok payload) (ty : RecordType) :
    (getRecordsByType (cs.foldl exec ∅) s ty).Perm
      (payload.records.filter fun rec => recordType rec = ty) := by
  have hempty : AllMirror ∅ := fun s v h => absurd h (by simp)
  have hall := allMirror_run hempty hclean
  rw [loadPayload] at hload
  split at hload
  · exact absurd hload (by simp)
  · rename_i v hv
    obtain ⟨payload', rfl, hmirror⟩ := hall s v hv
    rw [if_pos (encode payload').2, hcore.decode] at hload
    obtain rfl : payload' = payload := by simpa [Except.mapError] using hload
    exact hmirror.getRecordsByType_perm hcore ty

/-- `"session:001"` -/
def session001 : Str := ⟨[115, 101, 115, 115, 105, 111, 110, 58, 48, 48, 49], by decide⟩

/-- With a colon in the session, the fourth part of the key is the step. -/
theorem session001_not_read :
    @Lawful lineCore ∧
      @loadPayload lineCore (@exec lineCore ∅ (@AgentCall.store lineCore session001 oneMessage))
        session001 = .ok oneMessage ∧
      lineRecords (@exec lineCore ∅ (@AgentCall.store lineCore session001 oneMessage)) session001 .msg
        = [] ∧
      oneMessage.records = [⟨.msg, 1, 1⟩] := by
  refine ⟨lineCore_lawful, ?_, by decide +kernel, rfl⟩
  rfl

/-- Two sessions: one grows and is stored anew, the other is deleted. -/
def twoSessions : List (@AgentCall lineCore) :=
  [@AgentCall.store lineCore sess1 oneMessage,
    @AgentCall.append lineCore sess1 [⟨.tool, 1, 1⟩, ⟨.msg, 2, 2⟩],
    @AgentCall.store lineCore sess2 oneMessage,
    @AgentCall.append lineCore sess10 [⟨.msg, 1, 1⟩],
    @AgentCall.delete lineCore sess2]

theorem records_match_twoSessions :
    ∃ payload : LinePayload, @loadPayload lineCore (twoSessions.foldl (@exec lineCore) ∅) sess1
        = .ok payload ∧
      (lineRecords (twoSessions.foldl (@exec lineCore) ∅) sess1 .msg).Perm
        (payload.records.filter fun r => r.type = .msg) := by
  have hclean : @CleanRun lineCore ∅ twoSessions := by
    refine ⟨fun _ => ?_, fun _ => ?_, fun _ => ?_, fun _ => ?_, ?_, trivial⟩
    · decide +kernel
    · decide +kernel
    · decide +kernel
    · decide +kernel
    · show CleanDelete _ _
      decide +kernel
  have hload : @loadPayload lineCore (twoSessions.foldl (@exec lineCore) ∅) sess1
      = .ok ⟨⟨3, ()⟩, [⟨.msg, 1, 1⟩, ⟨.tool, 1, 1⟩, ⟨.msg, 2, 2⟩]⟩ := rfl
  exact ⟨_, hload, @records_match lineCore lineCore_lawful _ hclean _ _ hload .msg⟩

end AgentStore

end Uldb
