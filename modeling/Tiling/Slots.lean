/-!
# Slot store

A growing row of cells named by their index. A released cell is taken again before the row grows,
the most recently released one first, so an index names different values at different times;
look-ups of an index whose cell is empty find nothing.
-/

namespace Tiling

/-- Cells by index and the indexes of released cells, most recently released first. -/
structure Slots (α : Type) where
  cells : Array (Option α)
  free : List Nat
  deriving DecidableEq, Repr

namespace Slots

variable {α : Type}

def empty : Slots α := ⟨#[], []⟩

def get? (s : Slots α) (i : Nat) : Option α := s.cells[i]?.join

/-- Number of cells, empty ones included. -/
def size (s : Slots α) : Nat := s.cells.size

/-- Puts a value into a cell, the last released one or a new one, and names the cell. -/
def alloc (s : Slots α) (a : α) : Slots α × Nat :=
  match s.free with
  | i :: rest => (⟨s.cells.setIfInBounds i (some a), rest⟩, i)
  | [] => (⟨s.cells.push (some a), []⟩, s.cells.size)

/-- Empties a cell; an empty cell is left alone. -/
def release (s : Slots α) (i : Nat) : Slots α :=
  match s.get? i with
  | some _ => ⟨s.cells.setIfInBounds i none, i :: s.free⟩
  | none => s

/-- Changes the value in a cell; an empty cell is left alone. -/
def modify (s : Slots α) (i : Nat) (f : α → α) : Slots α :=
  match s.get? i with
  | some a => ⟨s.cells.setIfInBounds i (some (f a)), s.free⟩
  | none => s

/-- The lowest index whose value satisfies `p`. -/
def findIdx? (s : Slots α) (p : α → Bool) : Option Nat :=
  s.cells.findIdx? (Option.any p)

theorem get?_empty (i : Nat) : (empty : Slots α).get? i = none := by
  simp [empty, get?]

private theorem lt_size_of_get? {s : Slots α} {i : Nat} {a : α} (h : s.get? i = some a) :
    i < s.cells.size := by
  apply Nat.lt_of_not_le
  intro hle
  simp [get?, Array.getElem?_eq_none hle] at h

theorem get?_modify_same {s : Slots α} {i : Nat} {a : α} (f : α → α) (h : s.get? i = some a) :
    (s.modify i f).get? i = some (f a) := by
  have hlt := lt_size_of_get? h
  simp only [modify, h]
  simp [get?, hlt]

theorem get?_modify_other (s : Slots α) {i j : Nat} (f : α → α) (h : i ≠ j) :
    (s.modify i f).get? j = s.get? j := by
  unfold modify
  split
  · simp [get?, h]
  · rfl

theorem get?_release_same (s : Slots α) (i : Nat) : (s.release i).get? i = none := by
  unfold release
  split
  · rename_i h
    simp [get?, lt_size_of_get? h]
  · assumption

theorem get?_release_other (s : Slots α) {i j : Nat} (h : i ≠ j) :
    (s.release i).get? j = s.get? j := by
  unfold release
  split
  · simp [get?, h]
  · rfl

/-- A cell that is taken from an empty one, or from a new one, holds the value put into it. -/
theorem get?_alloc_same (s : Slots α) (a : α) (h : ∀ i ∈ s.free, i < s.cells.size) :
    (s.alloc a).1.get? (s.alloc a).2 = some a := by
  cases hf : s.free with
  | nil => simp [alloc, hf, get?]
  | cons i rest =>
    have hi : i < s.cells.size := h i (by simp [hf])
    simp [alloc, hf, get?, hi]

theorem get?_alloc_other (s : Slots α) (a : α) {j : Nat} (h : (s.alloc a).2 ≠ j) :
    (s.alloc a).1.get? j = s.get? j := by
  cases hf : s.free with
  | nil =>
    simp only [alloc, hf] at h ⊢
    simp only [get?, Array.getElem?_push]
    rw [if_neg (Ne.symm h)]
  | cons i rest =>
    simp only [alloc, hf] at h ⊢
    simp [get?, h]

end Slots

end Tiling
