/-
Queries in a namespace (`UmpHandler::handle_query` in `server.rs`).

The indices are shared by all namespaces.  A query cuts the merged ranking to `top_k` hits
first, and only then drops the hits of other namespaces, so these take places away from it.

* `handleQuery_iff` — the queries that return the first hits of their namespace.
-/
import Uldb.Fusion
import Uldb.Requests

namespace Uldb

open BigEndian Fallible

/-! ### Numbers -/

/-- `str::parse::<u64>`: decimal digits, with a plus sign in front or not. -/
def parseU64 (s : Bytes) : Option UInt64 :=
  let digits := if s.head? = some 0x2B then s.tail else s
  let value := digits.foldl (fun n b => n * 10 + (b.toNat - 0x30)) 0
  if digits ≠ [] ∧ (∀ b ∈ digits, 0x30 ≤ b ∧ b ≤ 0x39) ∧ value < 2 ^ 64 then
    some (UInt64.ofNat value)
  else none

/-- A number as decimal digits, nothing for zero. -/
def decimal (n : ℕ) : Bytes := (Nat.digits 10 n).reverse.map fun d => UInt8.ofNat (d + 0x30)

theorem mem_decimal {n : ℕ} {b : UInt8} (hb : b ∈ decimal n) : 0x30 ≤ b ∧ b ≤ 0x39 := by
  rw [decimal, List.mem_map] at hb
  obtain ⟨d, hd, rfl⟩ := hb
  have hlt : d < 10 := Nat.digits_lt_base (by omega) (List.mem_reverse.mp hd)
  have hnat : (UInt8.ofNat (d + 0x30)).toNat = d + 0x30 := by
    rw [UInt8.toNat_ofNat']
    omega
  rw [UInt8.le_iff_toNat_le, UInt8.le_iff_toNat_le, hnat]
  constructor
  · show 48 ≤ d + 48
    omega
  · show d + 48 ≤ 57
    omega

theorem foldl_decimal (n : ℕ) :
    (decimal n).foldl (fun n b => n * 10 + (b.toNat - 0x30)) 0 = n := by
  have hdigits : ∀ ds : List ℕ, (∀ d ∈ ds, d < 10) →
      ds.foldr (fun d n => n * 10 + ((UInt8.ofNat (d + 0x30)).toNat - 0x30)) 0
        = Nat.ofDigits 10 ds := by
    intro ds hds
    induction ds with
    | nil => rfl
    | cons d ds ih =>
      have hd : d < 10 := hds d (by simp)
      rw [List.foldr_cons, ih fun d hd => hds d (by simp [hd]), Nat.ofDigits_cons,
        UInt8.toNat_ofNat']
      omega
  rw [decimal, List.foldl_map, List.foldl_reverse,
    hdigits _ fun d hd => Nat.digits_lt_base (by omega) hd, Nat.ofDigits_digits]

/-- Every number but zero is read from its digits. -/
theorem parseU64_decimal {n : UInt64} (hn : n ≠ 0) : parseU64 (decimal n.toNat) = some n := by
  have hne : decimal n.toNat ≠ [] := by
    have hzero : n.toNat ≠ 0 := fun h => hn (UInt64.toNat_inj.mp h)
    rw [decimal, Ne, List.map_eq_nil_iff, List.reverse_eq_nil_iff]
    exact Nat.digits_ne_nil_iff_ne_zero.mpr hzero
  have hsign : (decimal n.toNat).head? ≠ some 0x2B := fun h =>
    absurd (mem_decimal (List.mem_of_head? h)).1 (by decide)
  rw [parseU64, if_neg hsign]
  simp only [foldl_decimal]
  rw [if_pos ⟨hne, fun b hb => mem_decimal hb, n.toNat_lt⟩, UInt64.ofNat_toNat]

namespace UmpHandler

open Engine

/-! ### The handler -/

/-- The namespace of a query, if it is numeric and not zero. -/
def queryNs (nameSpace : Str) : Option UInt64 := (parseU64 nameSpace.1).filter (· ≠ 0)

/-- Every namespace but zero can be asked for. -/
theorem exists_queryNs {n : UInt64} (hn : n ≠ 0) : ∃ nameSpace, queryNs nameSpace = some n := by
  have hvalid : validUtf8 (decimal n.toNat) = true :=
    validUtf8_of_ascii fun b hb => UInt8.lt_of_le_of_lt (mem_decimal hb).2 (by decide)
  refine ⟨⟨decimal n.toNat, hvalid⟩, ?_⟩
  rw [queryNs, parseU64_decimal hn, Option.filter_some, if_pos (by simpa using hn)]

/-- `hit.key.len() >= 16 && hit.key[8..16] == ns_prefix` -/
def hitInNs (ns : UInt64) (hit : RankedHit) : Bool :=
  16 ≤ hit.key.length ∧ (hit.key.drop 8).take 8 = be 8 ns.toNat

/-- The key of a row, without the namespaces in front. -/
def hitDisplayKey (ns : Option UInt64) (key : Bytes) : Bytes :=
  if ns.isSome ∧ 16 ≤ key.length then fromUtf8Lossy (key.drop 16) else displayKey key

section

-- the bits of a score as a floating-point number
variable (f64Bits : ℚ → ℕ)

def f64Field (v : ℚ) : UInt8 × Bytes := (tagF64, be 8 (f64Bits v))

def hitRow (ns : Option UInt64) (hit : RankedHit) (value : Bytes) : Opcode × Bytes :=
  (.resultRow, enc [stringField (hitDisplayKey ns hit.key), bytesField value, f64Zero, f64Zero,
    f64Zero, f64Zero, f64Field f64Bits hit.score, u32Field hit.rank])

/-- Each hit is looked up; a value that is missing is empty. -/
def hitRows (ns : Option UInt64) : List RankedHit → EngineM (List (Opcode × Bytes))
  | [] => pure []
  | hit :: hits => do
    let value ← fun e => .ok ((e.get hit.key).1.getD []) (e.get hit.key).2
    let rows ← hitRows ns hits
    pure (hitRow f64Bits ns hit value :: rows)

/-- The frames of some hits. -/
def hitsResponse (ns : Option UInt64) (hits : List RankedHit) : EngineM Response := do
  let rows ← hitRows f64Bits ns hits
  pure (.stream ([(.resultStart, enc [u32Field hits.length])] ++ rows
    ++ [(.resultEnd, enc [u32Field hits.length, u32Field 0])]))

/-- The query, given the score map of the indices as it is iterated. -/
def handleQuery (nameSpace : Str) (topK : ℕ) (entries : List (Bytes × ℚ)) : EngineM Response :=
  let allHits := queryHits topK entries
  let ns := queryNs nameSpace
  hitsResponse f64Bits ns (match ns with
    | some ns => allHits.filter (hitInNs ns)
    | none => allHits)

/-! ### Responses -/

/-- A response has a row for each hit. -/
theorem hitRows_ok (ns : Option UInt64) (hits : List RankedHit) (e : Engine) :
    ∃ rows e', hitRows f64Bits ns hits e = .ok rows e' ∧ rows.length = hits.length := by
  induction hits generalizing e with
  | nil => exact ⟨[], e, rfl, rfl⟩
  | cons hit hits ih =>
    obtain ⟨rows, e', hrows, hlen⟩ := ih (e.get hit.key).2
    refine ⟨_, e', bind_eq_ok.mpr ⟨_, _, rfl, bind_eq_ok.mpr ⟨rows, e', hrows, rfl⟩⟩, ?_⟩
    rw [List.length_cons, List.length_cons, hlen]

theorem hitsResponse_ok (ns : Option UInt64) (hits : List RankedHit) (e : Engine) :
    ∃ frames e', hitsResponse f64Bits ns hits e = .ok (.stream frames) e' ∧
      frames.length = hits.length + 2 := by
  obtain ⟨rows, e', hrows, hlen⟩ := hitRows_ok f64Bits ns hits e
  refine ⟨_, e', bind_eq_ok.mpr ⟨rows, e', hrows, rfl⟩, ?_⟩
  rw [List.length_append, List.length_append, hlen, List.length_singleton, List.length_singleton]
  omega

theorem length_of_hitsResponse {ns : Option UInt64} {hits hits' : List RankedHit} {e : Engine}
    (h : hitsResponse f64Bits ns hits e = hitsResponse f64Bits ns hits' e) :
    hits.length = hits'.length := by
  obtain ⟨frames, e₁, hframes, hlen⟩ := hitsResponse_ok f64Bits ns hits e
  obtain ⟨frames', e₂, hframes', hlen'⟩ := hitsResponse_ok f64Bits ns hits' e
  rw [hframes, hframes', EStateM.Result.ok.injEq, Response.stream.injEq] at h
  rw [h.1] at hlen
  omega

/-- **Queries in a namespace**: a query answers with the first `top_k` hits of its namespace in
the merged ranking exactly if it has no hit at a later place, or has all of the first `top_k`
places. -/
theorem handleQuery_iff {nameSpace : Str} {n : UInt64} (hns : queryNs nameSpace = some n)
    (topK : ℕ) (entries : List (Bytes × ℚ)) (e : Engine) :
    handleQuery f64Bits nameSpace topK entries e
        = hitsResponse f64Bits (some n) (((mergeRrf entries).filter (hitInNs n)).take topK) e ↔
      (∀ hit ∈ (mergeRrf entries).drop topK, hitInNs n hit = false) ∨
        ∀ hit ∈ (mergeRrf entries).take topK, hitInNs n hit = true := by
  have hquery : handleQuery f64Bits nameSpace topK entries
      = hitsResponse f64Bits (some n) (((mergeRrf entries).take topK).filter (hitInNs n)) := by
    rw [handleQuery, hns]
    rfl
  rw [hquery, ← Ranking.filter_take_eq_iff]
  constructor
  · intro h
    exact Ranking.filter_take_initial.eq_of_length (length_of_hitsResponse f64Bits h)
  · intro h
    rw [h]

end

/-- `5` -/
def fiveText : Str := ⟨[0x35], by decide⟩

theorem queryNs_fiveText : queryNs fiveText = some 5 := by decide +kernel

/-- The key of a record that a client has put under a namespace of its own. -/
def doubleKey (n : ℕ) (k : Bytes) : Bytes := scopeKey 0 (scopeKey n k)

/-- The hits of one index: the first belongs to namespace 7, the second to namespace 5. -/
def sevenFirst : List (List RankedHit) := [[⟨doubleKey 7 [97], 9, 0⟩, ⟨doubleKey 5 [97], 5, 1⟩]]

/-- Their scores in the merge. -/
def sevenScores : List (Bytes × ℚ) := [(doubleKey 7 [97], 1 / 61), (doubleKey 5 [97], 1 / 62)]

theorem iterates_seven : Iterates sevenFirst sevenScores := by
  have hkeys : hitKeys sevenFirst = [doubleKey 7 [97], doubleKey 5 [97]] := by decide
  have hne : doubleKey 7 [97] ≠ doubleKey 5 [97] := by decide
  rw [iterates_iff, hkeys]
  refine List.Perm.of_eq ?_
  simp [sevenScores, entryOf, rrf, contributions, sevenFirst, rrfK, hne, hne.symm]
  norm_num

theorem mergeRrf_seven :
    mergeRrf sevenScores = [⟨doubleKey 7 [97], 1 / 61, 0⟩, ⟨doubleKey 5 [97], 1 / 62, 1⟩] := by
  rw [mergeRrf, Ranking.sort, List.mergeSort_of_pairwise]
  · rfl
  · simp [sevenScores, freshHit]
    norm_num

/-- A query that asks for more hits than there are. -/
theorem handleQuery_all : ∃ e, @Engine.open storedCodec 1000 ∅ none [] = .ok e ∧
    handleQuery (fun _ => 0) fiveText 10 sevenScores e
      = hitsResponse (fun _ => 0) (some 5)
          (((mergeRrf sevenScores).filter (hitInNs 5)).take 10) e := by
  obtain ⟨e, hopen, _⟩ := exists_of_onOpened (a := ()) (f := fun _ => ()) (by decide +kernel)
  refine ⟨e, hopen, (handleQuery_iff (fun _ => 0) queryNs_fiveText 10 sevenScores e).mpr
    (.inl fun hit hhit => ?_)⟩
  rw [mergeRrf_seven] at hhit
  exact absurd hhit (by simp)

/-- A query in namespace 5 for one hit: the hit of namespace 7 takes the only place. -/
theorem handleQuery_starved : ¬∀ lists entries, Iterates lists entries → ∀ topK e,
    handleQuery (fun _ => 0) fiveText topK entries e
      = hitsResponse (fun _ => 0) (some 5)
          (((mergeRrf entries).filter (hitInNs 5)).take topK) e := by
  intro h
  obtain ⟨e, _, _⟩ := exists_of_onOpened (a := ()) (f := fun _ => ()) (by decide +kernel)
  have hquery := h sevenFirst sevenScores iterates_seven 1 e
  have hempty : handleQuery (fun _ => 0) fiveText 1 sevenScores
      = hitsResponse (fun _ => 0) (some 5) [] := by
    rw [handleQuery, queryNs_fiveText, queryHits, mergeRrf_seven]
    rfl
  rw [hempty, mergeRrf_seven] at hquery
  exact absurd (length_of_hitsResponse _ hquery) (by decide)

end UmpHandler

end Uldb
