/-
Reading a byte string from the left, with an error at the first part that does not fit.

A reader takes bytes off the front of its input.  `Reads r bytes a`: the reader takes
exactly `bytes`, whatever comes after them, and returns `a`.  Each way to put readers
together has its rule:

* `Reads.pure`, `Reads.bind`, `Reads.last` — one after the other;
* `reads_take`, `reads_number` — a number of bytes, a big-endian number;
* `reads_times` — a counted loop over encoded items;
* `bind_eq_ok`, `take_eq_ok`, `number_eq_ok`, `times_eq_ok` — what was read, from a success.
-/
import Uldb.Lib.BigEndian

open BigEndian

/-- Readers of byte strings that fail with an `ε`. -/
abbrev Reader (ε α : Type) := StateT (List UInt8) (Except ε) α

namespace Reader

variable {ε α β : Type}

/-- Give up. -/
def fail (err : ε) : Reader ε α := fun _ => .error err

/-- The next `n` bytes. -/
def take (n : ℕ) (err : ε) : Reader ε (List UInt8) := fun data =>
  if data.length < n then .error err else .ok (data.take n, data.drop n)

/-- A big-endian number of `w` bytes. -/
def number (w : ℕ) (err : ε) : Reader ε ℕ := do
  let bytes ← take w err
  return toNat bytes

/-- A counted loop. -/
def times (n : ℕ) (r : Reader ε α) : Reader ε (List α) :=
  match n with
  | 0 => return []
  | n + 1 => do
    let a ← r
    let as ← times n r
    return a :: as

/-- What a reader returns for a whole byte string. -/
def parse (r : Reader ε α) (data : List UInt8) : Except ε α := (r data).map Prod.fst

/-- The reader takes these bytes, and returns this value. -/
def Reads (r : Reader ε α) (bytes : List UInt8) (a : α) : Prop :=
  ∀ rest, r (bytes ++ rest) = .ok (a, rest)

variable {r : Reader ε α} {f : α → Reader ε β} {bytes bytes' : List UInt8} {a : α} {b : β} {err : ε}

theorem Reads.pure (a : α) : Reads (pure a : Reader ε α) [] a := fun _ => rfl

theorem Reads.bind (hr : Reads r bytes a) (hf : Reads (f a) bytes' b) :
    Reads (r >>= f) (bytes ++ bytes') b := by
  intro rest
  show (r (bytes ++ bytes' ++ rest)).bind (fun p => f p.1 p.2) = _
  rw [List.append_assoc, hr]
  exact hf rest

/-- A last step that reads nothing. -/
theorem Reads.last (hr : Reads r bytes a) (hf : Reads (f a) [] b) : Reads (r >>= f) bytes b := by
  have h := hr.bind hf
  rwa [List.append_nil] at h

theorem reads_take (bytes : List UInt8) : Reads (take bytes.length err) bytes bytes := by
  intro rest
  rw [take, if_neg (by simp), List.take_left, List.drop_left]

theorem reads_number {w n : ℕ} (hn : n < 256 ^ w) : Reads (number w err) (be w n) n := by
  have htake : Reads (take w err) (be w n) (be w n) := by
    have h : Reads (take (be w n).length err) (be w n) (be w n) := reads_take _
    rwa [be_length] at h
  refine htake.last ?_
  rw [toNat_be hn]
  exact Reads.pure n

theorem reads_times {encode : α → List UInt8} {items : List α}
    (h : ∀ a ∈ items, Reads r (encode a) a) :
    Reads (times items.length r) (items.flatMap encode) items := by
  induction items with
  | nil => exact Reads.pure []
  | cons a items ih =>
    have hrest := ih fun b hb => h b (List.mem_cons_of_mem _ hb)
    exact (h a List.mem_cons_self).bind (hrest.last (Reads.pure _))

theorem parse_eq (h : Reads r bytes a) : parse r bytes = .ok a := by
  rw [parse, show r bytes = .ok (a, []) by simpa using h []]
  rfl

/-! ### Successful reads -/

variable {data rest : List UInt8}

theorem pure_eq_ok {a' : α} :
    (Pure.pure a : Reader ε α) data = .ok (a', rest) ↔ a' = a ∧ rest = data := by
  show Except.ok (a, data) = _ ↔ _
  rw [Except.ok.injEq, Prod.mk.injEq]
  exact and_congr eq_comm eq_comm

theorem bind_eq_ok : (r >>= f) data = .ok (b, rest) ↔
    ∃ a mid, r data = .ok (a, mid) ∧ f a mid = .ok (b, rest) := by
  show (r data).bind (fun p => f p.1 p.2) = _ ↔ _
  cases hr : r data with
  | error e =>
    constructor
    · intro h
      exact absurd h (by simp [Except.bind])
    · rintro ⟨_, _, h, _⟩
      exact absurd h (by simp)
  | ok p =>
    constructor
    · intro h
      exact ⟨p.1, p.2, rfl, h⟩
    · rintro ⟨a, mid, h, hf⟩
      rw [Except.ok.inj h]
      exact hf

theorem take_eq_ok {n : ℕ} : take n err data = .ok (bytes, rest) ↔
    bytes.length = n ∧ data = bytes ++ rest := by
  constructor
  · intro h
    rw [take] at h
    by_cases hlen : data.length < n
    · rw [if_pos hlen] at h
      exact absurd h (by simp)
    · rw [if_neg hlen, Except.ok.injEq, Prod.mk.injEq] at h
      obtain ⟨rfl, rfl⟩ := h
      exact ⟨List.length_take_of_le (by omega), (List.take_append_drop n data).symm⟩
  · rintro ⟨rfl, rfl⟩
    exact reads_take bytes rest

theorem number_eq_ok {w n : ℕ} : number w err data = .ok (n, rest) ↔
    n < 256 ^ w ∧ data = be w n ++ rest := by
  constructor
  · intro h
    obtain ⟨bytes, mid, hbytes, hlast⟩ := bind_eq_ok.mp h
    obtain ⟨rfl, rfl⟩ := take_eq_ok.mp hbytes
    obtain ⟨rfl, rfl⟩ := pure_eq_ok.mp hlast
    exact ⟨toNat_lt bytes, by rw [be_toNat]⟩
  · rintro ⟨hn, rfl⟩
    exact reads_number hn rest

/-- A counted loop, for a reader whose successes are known. -/
theorem times_eq_ok {encode : α → List UInt8} {P : α → Prop} {n : ℕ} {items : List α}
    (hr : ∀ data a rest, r data = .ok (a, rest) ↔ P a ∧ data = encode a ++ rest) :
    times n r data = .ok (items, rest) ↔
      items.length = n ∧ (∀ a ∈ items, P a) ∧ data = items.flatMap encode ++ rest := by
  constructor
  · intro h
    induction n generalizing data items with
    | zero =>
      obtain ⟨rfl, rfl⟩ := pure_eq_ok.mp h
      exact ⟨rfl, by simp, rfl⟩
    | succ n ih =>
      obtain ⟨a, mid, ha, hmid⟩ := bind_eq_ok.mp h
      obtain ⟨as, mid', has, hlast⟩ := bind_eq_ok.mp hmid
      obtain ⟨rfl, rfl⟩ := pure_eq_ok.mp hlast
      obtain ⟨hPa, rfl⟩ := (hr _ _ _).mp ha
      obtain ⟨hlen, hP, rfl⟩ := ih has
      refine ⟨by rw [List.length_cons, hlen], ?_, ?_⟩
      · exact List.forall_mem_cons.mpr ⟨hPa, hP⟩
      · rw [List.flatMap_cons, List.append_assoc]
  · rintro ⟨rfl, hP, rfl⟩
    exact reads_times (fun a ha rest => (hr _ _ _).mpr ⟨hP a ha, rfl⟩) rest

theorem parse_eq_ok : parse r data = .ok a ↔ ∃ rest, r data = .ok (a, rest) := by
  rw [parse]
  cases hr : r data with
  | error e =>
    constructor
    · intro h
      exact absurd h (by simp [Except.map])
    · rintro ⟨_, h⟩
      exact absurd h (by simp)
  | ok p =>
    obtain ⟨a', rest⟩ := p
    simp [Except.map]

end Reader
