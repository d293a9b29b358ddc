/-
The buffered writer of the log (`WalWriter` over `BufWriter<File>`).

Appended bytes wait in a buffer of 64 KB until a flush, or until they no longer
fit, and then go to the file.  A write to the file can fail after some of its
bytes; the schedule `outcomes` decides, so that every failure pattern is a run.

A successful append or flush only moves bytes: `content`, what is in the file
and the buffer together, grows by exactly what was appended (`append_eq_ok`),
and after a flush all of it is in the file (`flush_eq_ok`).
-/
import Uldb.Wal
import Uldb.Lib.Fallible

namespace Uldb

open Fallible

/-- A failed write: the number of bytes that still reached the file, the error text. -/
structure WriteFault where
  written : ℕ
  msg : String
  deriving DecidableEq, Repr

structure WalWriter where
  /-- The bytes handed to the operating system. -/
  file : Bytes
  /-- The buffer of the `BufWriter`. -/
  buffer : Bytes
  bytesWritten : ℕ
  recordsWritten : ℕ
  /-- The outcomes of the coming writes to the file; past the end they succeed. -/
  outcomes : List (Option WriteFault)

namespace WalWriter

/-- The capacity of the buffer. -/
def capacity : ℕ := 64 * 1024

/-- Open the log for appending; what is there stays. -/
def «open» (file : Bytes) (outcomes : List (Option WriteFault)) : WalWriter :=
  ⟨file, [], file.length, 0, outcomes⟩

/-- Write past the buffer. -/
def writeFile (data : Bytes) : EStateM Failure WalWriter Unit := fun w =>
  match w.outcomes with
  | some fault :: rest =>
    .error (.error fault.msg) { w with file := w.file ++ data.take fault.written, outcomes := rest }
  | _ => .ok () { w with file := w.file ++ data, outcomes := w.outcomes.tail }

/-- Write the buffer; what did not reach the file stays in the buffer. -/
def flush : EStateM Failure WalWriter Unit := fun w =>
  if w.buffer = [] then .ok () w
  else match w.outcomes with
    | some fault :: rest =>
      .error (.error fault.msg)
        { w with
          file := w.file ++ w.buffer.take fault.written
          buffer := w.buffer.drop fault.written
          outcomes := rest }
    | _ => .ok () { w with file := w.file ++ w.buffer, buffer := [], outcomes := w.outcomes.tail }

/-- Buffer the bytes; the buffer is written first if they do not fit, and bytes
that would fill it on their own go to the file directly. -/
def writeAll (data : Bytes) : EStateM Failure WalWriter Unit := do
  let w ← EStateM.get
  ifThen (capacity - w.buffer.length < data.length) flush
  if capacity ≤ data.length then writeFile data
  else modify fun w => { w with buffer := w.buffer ++ data }

/-- Serialize and append one record. -/
def append [Codec] (r : WalRecord) : EStateM Failure WalWriter Unit := do
  let data := Wal.serialize r
  writeAll data
  modify fun w => { w with
    bytesWritten := w.bytesWritten + data.length
    recordsWritten := w.recordsWritten + 1 }

/-! ### Successful writes -/

/-- All bytes written so far, in the file or still in the buffer. -/
def content (w : WalWriter) : Bytes := w.file ++ w.buffer

variable {w w' : WalWriter} {u : Unit}

theorem flush_eq_ok (h : flush w = .ok u w') : w'.file = w.content ∧ w'.buffer = [] := by
  rw [flush] at h
  by_cases hb : w.buffer = []
  · rw [if_pos hb, EStateM.Result.ok.injEq] at h
    rw [← h.2, content, hb]
    simp
  · rw [if_neg hb] at h
    split at h
    · exact absurd h (by simp)
    · rw [EStateM.Result.ok.injEq] at h
      rw [← h.2]
      exact ⟨rfl, rfl⟩

theorem writeFile_eq_ok {data : Bytes} (h : writeFile data w = .ok u w') :
    w'.file = w.file ++ data ∧ w'.buffer = w.buffer := by
  rw [writeFile] at h
  split at h
  · exact absurd h (by simp)
  · rw [EStateM.Result.ok.injEq] at h
    rw [← h.2]
    exact ⟨rfl, rfl⟩

theorem writeAll_eq_ok {data : Bytes} (h : writeAll data w = .ok u w') :
    w'.content = w.content ++ data := by
  rw [writeAll, bind_eq_ok] at h
  obtain ⟨w, s, hget, h⟩ := h
  obtain ⟨rfl, rfl⟩ := get_eq_ok.mp hget
  rw [bind_eq_ok] at h
  obtain ⟨_, w₁, hflush, h⟩ := h
  rcases ifThen_eq_ok.mp hflush with ⟨_, hflush⟩ | ⟨hfit, rfl⟩
  · -- the buffer is empty now, so the order of the bytes is kept either way
    obtain ⟨hfile, hbuf⟩ := flush_eq_ok hflush
    by_cases hbig : capacity ≤ data.length
    · rw [if_pos hbig] at h
      obtain ⟨hf, hb⟩ := writeFile_eq_ok h
      rw [content, hf, hb, hfile, hbuf, List.append_nil]
    · rw [if_neg hbig, modify_eq_ok] at h
      rw [h, content, content]
      simp [hfile, hbuf, content]
  · by_cases hbig : capacity ≤ data.length
    · -- bytes that fill the whole buffer fit only into an empty one
      have hempty : w₁.buffer = [] := by
        apply List.eq_nil_of_length_eq_zero
        rw [capacity] at hfit hbig
        omega
      rw [if_pos hbig] at h
      obtain ⟨hf, hb⟩ := writeFile_eq_ok h
      rw [content, content, hf, hb, hempty, List.append_nil, List.append_nil]
    · rw [if_neg hbig, modify_eq_ok] at h
      rw [h, content, content]
      simp

/-- A successful append adds the bytes of the record. -/
theorem append_eq_ok [Codec] {r : WalRecord} (h : append r w = .ok u w') :
    w'.content = w.content ++ Wal.serialize r := by
  rw [append, bind_eq_ok] at h
  obtain ⟨_, w₁, hwrite, h⟩ := h
  rw [modify_eq_ok] at h
  rw [← writeAll_eq_ok hwrite, h]
  rfl

/-- A successful run of appends adds the bytes of the records. -/
theorem forM_append_eq_ok [Codec] {rs : List WalRecord} (h : forM rs append w = .ok u w') :
    w'.content = w.content ++ Wal.encode rs := by
  induction rs generalizing w with
  | nil =>
    rw [forM_nil_eq_ok] at h
    rw [h, Wal.encode_nil, List.append_nil]
  | cons r rs ih =>
    rw [forM_cons_eq_ok] at h
    obtain ⟨w₁, hr, hrs⟩ := h
    rw [ih hrs, append_eq_ok hr, Wal.encode_cons, List.append_assoc]

/-! ### Reliable files -/

/-- The coming writes to the file all succeed. -/
def Reliable (w : WalWriter) : Prop := w.outcomes = []

theorem flush_of_reliable (h : w.Reliable) : ∃ w', flush w = .ok () w' ∧ w'.Reliable := by
  rw [flush]
  by_cases hb : w.buffer = []
  · rw [if_pos hb]
    exact ⟨w, rfl, h⟩
  · rw [if_neg hb, show w.outcomes = [] from h]
    exact ⟨_, rfl, rfl⟩

theorem writeAll_of_reliable (data : Bytes) (h : w.Reliable) :
    ∃ w', writeAll data w = .ok () w' ∧ w'.Reliable := by
  obtain ⟨w₁, hroom, h₁⟩ : ∃ w₁,
      ifThen (capacity - w.buffer.length < data.length) flush w = .ok () w₁ ∧ w₁.Reliable := by
    by_cases hfull : capacity - w.buffer.length < data.length
    · obtain ⟨w₁, hflush, h₁⟩ := flush_of_reliable h
      exact ⟨w₁, ifThen_eq_ok.mpr (.inl ⟨hfull, hflush⟩), h₁⟩
    · exact ⟨w, ifThen_eq_ok.mpr (.inr ⟨hfull, rfl⟩), h⟩
  obtain ⟨w₂, hwrite, h₂⟩ : ∃ w₂, (if capacity ≤ data.length then writeFile data
      else modify fun w => { w with buffer := w.buffer ++ data } : EStateM Failure WalWriter Unit) w₁
        = .ok () w₂ ∧ w₂.Reliable := by
    by_cases hbig : capacity ≤ data.length
    · rw [if_pos hbig, writeFile, show w₁.outcomes = [] from h₁]
      exact ⟨_, rfl, rfl⟩
    · rw [if_neg hbig]
      exact ⟨_, rfl, h₁⟩
  refine ⟨w₂, ?_, h₂⟩
  rw [writeAll, bind_eq_ok]
  exact ⟨w, w, rfl, bind_eq_ok.mpr ⟨_, w₁, hroom, hwrite⟩⟩

theorem append_of_reliable [Codec] (r : WalRecord) (h : w.Reliable) :
    ∃ w', append r w = .ok () w' ∧ w'.Reliable := by
  obtain ⟨w₁, hwrite, h₁⟩ := writeAll_of_reliable (Wal.serialize r) h
  exact ⟨_, bind_eq_ok.mpr ⟨_, w₁, hwrite, rfl⟩, h₁⟩

theorem forM_append_of_reliable [Codec] (rs : List WalRecord) (h : w.Reliable) :
    ∃ w', forM rs append w = .ok () w' ∧ w'.Reliable := by
  induction rs generalizing w with
  | nil => exact ⟨w, rfl, h⟩
  | cons r rs ih =>
    obtain ⟨w₁, hr, h₁⟩ := append_of_reliable r h
    obtain ⟨w₂, hrs, h₂⟩ := ih h₁
    exact ⟨w₂, forM_cons_eq_ok.mpr ⟨w₁, hr, hrs⟩, h₂⟩

end WalWriter

end Uldb
