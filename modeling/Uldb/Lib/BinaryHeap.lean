/-
Binary heaps in a list, as the standard library of Rust keeps them.

The children of place `i` are at `2 * i + 1` and `2 * i + 2`, and the largest item is at the
front.  `pop` takes the last item to the front, sinks it along the larger children to the
bottom and lets it rise from there, so the places of equal items are not those of a sink that
stops early.

`push_perm`, `pop_perm` and `pop_eq_none`: no item is lost or made, whatever the order is.
-/
import Mathlib

namespace BinaryHeap

variable {α : Type*} (le : α → α → Bool)

/-- Exchange the items at two places. -/
def exchange (heap : List α) (i j : ℕ) : List α :=
  match heap[i]?, heap[j]? with
  | some a, some b => (heap.set i b).set j a
  | _, _ => heap

/-- Let the item at `pos` rise while its parent is smaller; `pos` turns are enough. -/
def siftUp : ℕ → List α → ℕ → List α
  | 0, heap, _ => heap
  | fuel + 1, heap, pos =>
    let parent := (pos - 1) / 2
    match heap[pos]?, heap[parent]? with
    | some item, some above =>
      if pos = 0 ∨ le item above then heap
      else siftUp fuel (exchange heap pos parent) parent
    | _, _ => heap

/-- Sink the item at `pos` to the bottom; its last place. -/
def siftDown : ℕ → List α → ℕ → List α × ℕ
  | 0, heap, pos => (heap, pos)
  | fuel + 1, heap, pos =>
    let child := 2 * pos + 1
    match heap[child]?, heap[child + 1]? with
    | some left, some right =>
      -- the right child if both are equal
      let larger := if le left right then child + 1 else child
      siftDown fuel (exchange heap pos larger) larger
    | some _, none => (exchange heap pos child, child)
    | none, _ => (heap, pos)

def siftDownToBottom (heap : List α) : List α :=
  let (heap, pos) := siftDown le heap.length heap 0
  siftUp le pos heap pos

def push (heap : List α) (item : α) : List α :=
  siftUp le heap.length (heap ++ [item]) heap.length

/-- The largest item, and the others. -/
def pop (heap : List α) : Option (α × List α) :=
  match heap.getLast? with
  | none => none
  | some last =>
    match heap.dropLast with
    | [] => some (last, [])
    -- the last item takes the place of the top
    | top :: rest => some (top, siftDownToBottom le (last :: rest))

variable {le} {heap heap' : List α} {item : α}

theorem exchange_perm (heap : List α) (i j : ℕ) : (exchange heap i j).Perm heap := by
  rw [exchange]
  split
  · rename_i a b ha hb
    obtain ⟨hi, rfl⟩ := List.getElem?_eq_some_iff.mp ha
    obtain ⟨hj, rfl⟩ := List.getElem?_eq_some_iff.mp hb
    exact List.set_set_perm hi hj
  · exact List.Perm.refl heap

theorem siftUp_perm (fuel : ℕ) (heap : List α) (pos : ℕ) : (siftUp le fuel heap pos).Perm heap := by
  induction fuel generalizing heap pos with
  | zero => exact List.Perm.refl heap
  | succ fuel ih =>
    rw [siftUp]
    split
    · split
      · exact List.Perm.refl heap
      · exact (ih _ _).trans (exchange_perm _ _ _)
    · exact List.Perm.refl heap

theorem siftDown_perm (fuel : ℕ) (heap : List α) (pos : ℕ) :
    (siftDown le fuel heap pos).1.Perm heap := by
  induction fuel generalizing heap pos with
  | zero => exact List.Perm.refl heap
  | succ fuel ih =>
    rw [siftDown]
    split
    · exact (ih _ _).trans (exchange_perm _ _ _)
    · exact exchange_perm _ _ _
    · exact List.Perm.refl heap

theorem siftDownToBottom_perm (heap : List α) : (siftDownToBottom le heap).Perm heap := by
  rw [siftDownToBottom]
  exact (siftUp_perm _ _ _).trans (siftDown_perm _ _ _)

/-- **A push adds its item.** -/
theorem push_perm (heap : List α) (item : α) : (push le heap item).Perm (item :: heap) :=
  (siftUp_perm _ _ _).trans (List.perm_append_singleton item heap)

/-- **A pop removes the item that it returns.** -/
theorem pop_perm (h : pop le heap = some (item, heap')) : heap.Perm (item :: heap') := by
  rw [pop] at h
  rcases List.eq_nil_or_concat heap with rfl | ⟨init, last, rfl⟩
  · exact absurd h (by simp)
  · rw [List.concat_eq_append] at h ⊢
    rw [List.getLast?_concat, List.dropLast_concat] at h
    cases init with
    | nil =>
      obtain ⟨rfl, rfl⟩ := (by simpa using h : last = item ∧ [] = heap')
      exact List.Perm.refl _
    | cons top rest =>
      obtain ⟨rfl, rfl⟩ := (by simpa using h :
        top = item ∧ siftDownToBottom le (last :: rest) = heap')
      exact ((List.perm_append_singleton last rest).trans (siftDownToBottom_perm _).symm).cons top

theorem pop_eq_none : pop le heap = none ↔ heap = [] := by
  rw [pop]
  rcases List.eq_nil_or_concat heap with rfl | ⟨init, last, rfl⟩
  · simp
  · rw [List.concat_eq_append, List.getLast?_concat, List.dropLast_concat]
    cases init <;> simp

example : pop (fun a b : ℕ => a ≤ b) ([3, 1, 4, 1, 5].foldl (push fun a b => a ≤ b) [])
    = some (5, [4, 1, 3, 1]) := by decide

end BinaryHeap
