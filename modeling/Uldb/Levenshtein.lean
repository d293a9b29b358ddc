/-
The bounded edit distance of `index/fuzzy.rs`.

`levenshtein` fills the table of the edit distance row by row and gives up once a whole row lies
above the bound.  It works on characters, but compares the lengths in bytes first.

* `levenshtein_eq_of_le` — an answer within the bound is the edit distance;
* `levenshtein_eq` — a distance within the bound is the answer, unless the byte lengths are too
  far apart.
-/
import Uldb.Index
import Uldb.Lib.EditDistance

namespace Uldb

open EditDistance

/-- Put a byte before some characters: before a continuation byte it belongs to the character. -/
def consByte (b : UInt8) : List Bytes → List Bytes
  | (c :: char) :: rest =>
    if contByte 0x80 0xBF c then (b :: c :: char) :: rest else [b] :: (c :: char) :: rest
  | rest => [b] :: rest

/-- `s.chars()`, each character as its bytes. -/
def chars (text : Bytes) : List Bytes := text.foldr consByte []

/-- The inner loop: the cells of a row after the first one, which is `curr`. -/
def nextCells (a : Bytes) (curr : ℕ) : List ℕ → List Bytes → List ℕ
  | diag :: up :: prev, b :: bs =>
    let cell := min (min (up + 1) (curr + 1)) (diag + if a = b then 0 else 1)
    cell :: nextCells a cell (up :: prev) bs
  | _, _ => []

/-- The outer loop: `i` rows are done, and `prev` is the last of them. -/
def tableRows (bs : List Bytes) (maxDist : ℕ) : ℕ → List ℕ → List Bytes → ℕ
  | _, prev, [] => prev.getD bs.length 0
  | i, prev, a :: rest =>
    let cells := nextCells a (i + 1) prev bs
    let rowMin := cells.foldl min (i + 1)
    if maxDist < rowMin then maxDist + 1
    else tableRows bs maxDist (i + 1) ((i + 1) :: cells) rest

/-- Bounded Levenshtein edit distance. -/
def levenshtein (a b : Bytes) (maxDist : ℕ) : ℕ :=
  let (a, b) := if b.length < a.length then (b, a) else (a, b)
  if maxDist < b.length - a.length then maxDist + 1
  else tableRows (chars b) maxDist 0 (List.range ((chars b).length + 1)) (chars a)

/-! ### The rows -/

/-- The distances of `done` to `seen` and its extensions by the characters of a text.  Both are
kept in reverse, so that a new character comes first. -/
def distances (done : List Bytes) : List Bytes → List Bytes → List ℕ
  | seen, [] => [distance done seen]
  | seen, b :: bs => distance done seen :: distances done (b :: seen) bs

variable {maxDist : ℕ}

theorem distances_eq_cons (done seen bs : List Bytes) :
    ∃ cells, distances done seen bs = distance done seen :: cells := by
  cases bs with
  | nil => exact ⟨[], rfl⟩
  | cons b bs => exact ⟨_, rfl⟩

theorem range'_eq_distances (seen bs : List Bytes) :
    List.range' seen.length (bs.length + 1) = distances [] seen bs := by
  induction bs generalizing seen with
  | nil => simp [distances, distance]
  | cons b bs ih =>
    rw [List.length_cons, List.range'_succ, distances, ← ih (b :: seen), List.length_cons]
    simp [distance]

/-- **One turn of the outer loop** adds a character to `done`. -/
theorem nextCells_distances (a : Bytes) (done seen bs : List Bytes) :
    distance (a :: done) seen :: nextCells a (distance (a :: done) seen) (distances done seen bs) bs
      = distances (a :: done) seen bs := by
  induction bs generalizing seen with
  | nil => rfl
  | cons b bs ih =>
    obtain ⟨cells, hcells⟩ := distances_eq_cons done (b :: seen) bs
    have hcell : min (min (distance done (b :: seen) + 1) (distance (a :: done) seen + 1))
        (distance done seen + if a = b then 0 else 1) = distance (a :: done) (b :: seen) := by
      rw [distance]
    rw [distances, distances, ← ih (b :: seen), hcells, nextCells, hcell]

theorem getD_distances (done seen bs : List Bytes) :
    (distances done seen bs).getD bs.length 0 = distance done (bs.reverse ++ seen) := by
  induction bs generalizing seen with
  | nil => rfl
  | cons b bs ih =>
    rw [distances, List.length_cons, List.getD_cons_succ, ih, List.reverse_cons,
      List.append_assoc]
    rfl

theorem mem_distances (done seen bs₁ bs₂ : List Bytes) :
    distance done (bs₁.reverse ++ seen) ∈ distances done seen (bs₁ ++ bs₂) := by
  induction bs₁ generalizing seen with
  | nil =>
    obtain ⟨cells, hcells⟩ := distances_eq_cons done seen bs₂
    rw [List.nil_append, hcells]
    exact List.mem_cons_self
  | cons b bs₁ ih =>
    rw [List.reverse_cons, List.append_assoc]
    exact List.mem_cons_of_mem _ (ih (b :: seen))

theorem foldl_min_le {cells : List ℕ} {x c : ℕ} (h : c ∈ x :: cells) : cells.foldl min x ≤ c := by
  induction cells generalizing x c with
  | nil => exact (List.mem_singleton.mp h).ge
  | cons y cells ih =>
    rw [List.foldl_cons]
    rcases List.mem_cons.mp h with rfl | h
    · exact (ih List.mem_cons_self).trans (min_le_left _ _)
    rcases List.mem_cons.mp h with rfl | h
    · exact (ih List.mem_cons_self).trans (min_le_right _ _)
    · exact ih (List.mem_cons_of_mem _ h)

/-- The least cell of a row is not above the distance. -/
theorem foldl_min_le_distance {done rest bs : List Bytes} {x : ℕ} {cells : List ℕ}
    (h : x :: cells = distances done [] bs) :
    cells.foldl min x ≤ distance (rest.reverse ++ done) bs.reverse := by
  obtain ⟨bs₁, bs₂, hbs, hle⟩ := exists_distance_le bs.reverse rest.reverse done
  refine (foldl_min_le ?_).trans hle
  have hsplit : bs = bs₂.reverse ++ bs₁.reverse := by
    rw [← List.reverse_append, ← hbs, List.reverse_reverse]
  have hmem := mem_distances done [] bs₂.reverse bs₁.reverse
  rwa [List.reverse_reverse, List.append_nil, ← hsplit, ← h] at hmem

/-- The outer loop returns the distance, unless both are above the bound. -/
theorem tableRows_spec (bs rest done : List Bytes) :
    tableRows bs maxDist done.length (distances done [] bs) rest
        = distance (rest.reverse ++ done) bs.reverse ∨
      maxDist < tableRows bs maxDist done.length (distances done [] bs) rest ∧
        maxDist < distance (rest.reverse ++ done) bs.reverse := by
  induction rest generalizing done with
  | nil =>
    left
    rw [tableRows, getD_distances, List.append_nil]
    rfl
  | cons a rest ih =>
    have hrow := nextCells_distances a done [] bs
    rw [distance_nil_right, List.length_cons] at hrow
    rw [tableRows, List.reverse_cons, List.append_assoc]
    split
    · rename_i hmin
      exact .inr ⟨Nat.lt_succ_self _, hmin.trans_le (foldl_min_le_distance hrow)⟩
    · rw [hrow]
      exact ih (a :: done)

/-- **The table** holds the distance, unless the loop gives up. -/
theorem tableRows_range (bs rest : List Bytes) :
    tableRows bs maxDist 0 (List.range (bs.length + 1)) rest = distance rest bs ∨
      maxDist < tableRows bs maxDist 0 (List.range (bs.length + 1)) rest ∧
        maxDist < distance rest bs := by
  have h := @tableRows_spec maxDist bs rest []
  rw [List.append_nil, distance_reverse, ← range'_eq_distances, List.length_nil,
    ← List.range_eq_range'] at h
  exact h

/-! ### The answer -/

variable {a b : Bytes}

theorem levenshtein_spec (a b : Bytes) (maxDist : ℕ) :
    levenshtein a b maxDist = distance (chars a) (chars b) ∨
      maxDist < levenshtein a b maxDist ∧ (maxDist < distance (chars a) (chars b) ∨
        a.length + maxDist < b.length ∨ b.length + maxDist < a.length) := by
  rw [levenshtein]
  by_cases hlen : b.length < a.length
  · simp only [if_pos hlen]
    split
    · exact .inr ⟨Nat.lt_succ_self _, .inr (.inr (by omega))⟩
    · rw [distance_comm (chars a)]
      exact (tableRows_range (chars a) (chars b)).imp_right fun h => ⟨h.1, .inl h.2⟩
  · simp only [if_neg hlen]
    split
    · exact .inr ⟨Nat.lt_succ_self _, .inr (.inl (by omega))⟩
    · exact (tableRows_range (chars b) (chars a)).imp_right fun h => ⟨h.1, .inl h.2⟩

/-- **An answer within the bound** is the edit distance. -/
theorem levenshtein_eq_of_le (h : levenshtein a b maxDist ≤ maxDist) :
    levenshtein a b maxDist = distance (chars a) (chars b) :=
  (levenshtein_spec a b maxDist).resolve_right fun habove => absurd habove.1 (not_lt.mpr h)

/-- **A distance within the bound** is the answer, if the byte lengths allow it. -/
theorem levenshtein_eq (h : distance (chars a) (chars b) ≤ maxDist)
    (hab : a.length ≤ b.length + maxDist) (hba : b.length ≤ a.length + maxDist) :
    levenshtein a b maxDist = distance (chars a) (chars b) := by
  refine (levenshtein_spec a b maxDist).resolve_right fun habove => ?_
  omega

theorem levenshtein_self (a : Bytes) (maxDist : ℕ) : levenshtein a a maxDist = 0 := by
  rw [levenshtein_eq (by rw [distance_self]; exact Nat.zero_le _) (Nat.le_add_right _ _)
    (Nat.le_add_right _ _), distance_self]

end Uldb
