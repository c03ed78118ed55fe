import Tiling.Geometry
/-!
# Dividing rectangles

A rectangle that ends within the range of coordinates is divided exactly: the origin of the
second half is computed without overflow, and every point of the rectangle is in one of the
halves.
-/

namespace Tiling

namespace Direction

def opposite : Direction → Direction
  | .north => .south
  | .west => .east
  | .south => .north
  | .east => .west

/-- The half on this side is the first of the two. -/
def leads (dir : Direction) : Bool := dir == .west || dir == .north

/-- The halves on this side and on the opposite one lie beside each other. -/
def isHorizontal (dir : Direction) : Bool := dir == .west || dir == .east

end Direction

namespace Rect

/-- The edges past the last column and the last row are coordinates. -/
def Fits (r : Rect) : Prop :=
  r.right ≤ Int32.maxValue.toInt ∧ r.bottom ≤ Int32.maxValue.toInt

instance (r : Rect) : Decidable r.Fits := inferInstanceAs (Decidable (_ ∧ _))

/-- No point is in both. -/
def Disjoint (a b : Rect) : Prop := ∀ p, a.covers p = true → b.covers p = false

/-- The addition that splitting a rectangle takes leaves the range of coordinates. -/
def splitOverflows (r : Rect) : Bool :=
  if r.height ≤ r.width then r.x.toBitVec.saddOverflow (r.width / 2).toInt32.toBitVec
  else r.y.toBitVec.saddOverflow (r.height / 2).toInt32.toBitVec

/-- A straight line cuts `r` into `a`, which is on the left or above, and `b`. -/
inductive Divides (r a b : Rect) : Prop where
  | columns (left : a.x.toInt = r.x.toInt) (cut : a.right = b.x.toInt) (right : b.right = r.right)
      (top : a.y.toInt = r.y.toInt ∧ b.y.toInt = r.y.toInt)
      (bottom : a.bottom = r.bottom ∧ b.bottom = r.bottom)
  | rows (top : a.y.toInt = r.y.toInt) (cut : a.bottom = b.y.toInt) (bottom : b.bottom = r.bottom)
      (left : a.x.toInt = r.x.toInt ∧ b.x.toInt = r.x.toInt)
      (right : a.right = r.right ∧ b.right = r.right)

theorem covers_iff {r : Rect} {p : Point} : r.covers p = true ↔
    (r.x.toInt ≤ p.x.toInt ∧ p.x.toInt < r.right) ∧
      r.y.toInt ≤ p.y.toInt ∧ p.y.toInt < r.bottom := by
  simp only [covers, Bool.and_eq_true, decide_eq_true_eq, and_assoc]

theorem contains_iff {a b : Rect} : a.contains b = true ↔
    (a.x.toInt ≤ b.x.toInt ∧ b.right ≤ a.right) ∧
      a.y.toInt ≤ b.y.toInt ∧ b.bottom ≤ a.bottom := by
  simp only [contains, Bool.and_eq_true, decide_eq_true_eq, and_assoc]

theorem contains_refl (r : Rect) : r.contains r = true := by
  rw [contains_iff]
  omega

theorem contains_trans {a b c : Rect} (hab : a.contains b = true) (hbc : b.contains c = true) :
    a.contains c = true := by
  rw [contains_iff] at *
  omega

theorem covers_of_contains {a b : Rect} {p : Point} (h : a.contains b = true)
    (hp : b.covers p = true) : a.covers p = true := by
  rw [contains_iff] at h
  rw [covers_iff] at *
  omega

theorem x_le_right (r : Rect) : r.x.toInt ≤ r.right := by
  rw [right]
  omega

theorem y_le_bottom (r : Rect) : r.y.toInt ≤ r.bottom := by
  rw [bottom]
  omega

theorem Fits.of_contains {a b : Rect} (h : a.Fits) (hab : a.contains b = true) : b.Fits := by
  rw [contains_iff] at hab
  exact ⟨Int.le_trans hab.1.2 h.1, Int.le_trans hab.2.2 h.2⟩

namespace Divides

variable {r a b : Rect} {p : Point}

theorem contains (h : r.Divides a b) : r.contains a = true ∧ r.contains b = true := by
  have hax := a.x_le_right
  have hay := a.y_le_bottom
  have hbx := b.x_le_right
  have hby := b.y_le_bottom
  rw [contains_iff, contains_iff]
  cases h with
  | columns left cut right top bottom => omega
  | rows top cut bottom left right => omega

/-- Every point of the rectangle is in one of the halves. -/
theorem covers_iff (h : r.Divides a b) :
    r.covers p = true ↔ a.covers p = true ∨ b.covers p = true := by
  have hax := a.x_le_right
  have hay := a.y_le_bottom
  have hbx := b.x_le_right
  have hby := b.y_le_bottom
  simp only [Rect.covers_iff]
  cases h with
  | columns left cut right top bottom => omega
  | rows top cut bottom left right => omega

theorem disjoint (h : r.Divides a b) : a.Disjoint b := by
  intro p ha
  rw [← Bool.not_eq_true, Rect.covers_iff]
  rw [Rect.covers_iff] at ha
  cases h with
  | columns _ cut _ _ _ => omega
  | rows _ cut _ _ _ => omega

end Divides

/-! ## Halves -/

theorem toNat_half (w : UInt32) : (w / 2).toNat = w.toNat / 2 := UInt32.toNat_div w 2

theorem toInt_half (w : UInt32) : (w / 2).toInt32.toInt = (w.toNat / 2 : Nat) := by
  have hlt := w.toNat_lt
  have hsmall : 2 * (w / 2).toInt32.toBitVec.toNat < 2 ^ 32 := by
    show 2 * (w / 2).toNat < 2 ^ 32
    rw [toNat_half]
    omega
  rw [← Int32.toInt_toBitVec, BitVec.toInt_eq_toNat_of_lt hsmall]
  exact congrArg Nat.cast (toNat_half w)

/-- Halving an extent that ends within the range of coordinates does not overflow. -/
theorem saddOverflow_half {x : Int32} {w : UInt32} (h : x.toInt + w.toNat ≤ Int32.maxValue.toInt) :
    x.toBitVec.saddOverflow (w / 2).toInt32.toBitVec = false := by
  have hhalf := toInt_half w
  have hlow := x.le_toInt
  rw [Int32.toInt_maxValue] at h
  rw [← Bool.not_eq_true]
  simp only [BitVec.saddOverflow, Int32.toInt_toBitVec, hhalf, Bool.or_eq_true, decide_eq_true_eq]
  omega

theorem toInt_add_half {x : Int32} {w : UInt32} (h : x.toInt + w.toNat ≤ Int32.maxValue.toInt) :
    (x + (w / 2).toInt32).toInt = x.toInt + (w.toNat / 2 : Nat) := by
  have hsum := BitVec.toInt_add_of_not_saddOverflow (Bool.not_eq_true _ ▸ saddOverflow_half h)
  rw [Int32.toInt_toBitVec, Int32.toInt_toBitVec, toInt_half] at hsum
  exact hsum

theorem toNat_sub_half (w : UInt32) : (w - w / 2).toNat = w.toNat - w.toNat / 2 := by
  have hle : w / 2 ≤ w := by
    rw [UInt32.le_iff_toNat_le, toNat_half]
    exact Nat.div_le_self _ _
  rw [UInt32.toNat_sub_of_le _ _ hle, toNat_half]

theorem divides_splitColumns {r : Rect} (h : r.Fits) :
    r.Divides r.splitColumns.1 r.splitColumns.2 := by
  have hcut := toInt_add_half h.1
  have hfirst := toNat_half r.width
  have hsecond := toNat_sub_half r.width
  refine .columns rfl ?_ ?_ ⟨rfl, rfl⟩ ⟨rfl, rfl⟩
  · show r.x.toInt + (r.width / 2).toNat = (r.x + (r.width / 2).toInt32).toInt
    rw [hcut, hfirst]
  · show (r.x + (r.width / 2).toInt32).toInt + (r.width - r.width / 2).toNat = r.x.toInt + _
    omega

theorem divides_splitRows {r : Rect} (h : r.Fits) : r.Divides r.splitRows.1 r.splitRows.2 := by
  have hcut := toInt_add_half h.2
  have hfirst := toNat_half r.height
  have hsecond := toNat_sub_half r.height
  refine .rows rfl ?_ ?_ ⟨rfl, rfl⟩ ⟨rfl, rfl⟩
  · show r.y.toInt + (r.height / 2).toNat = (r.y + (r.height / 2).toInt32).toInt
    rw [hcut, hfirst]
  · show (r.y + (r.height / 2).toInt32).toInt + (r.height - r.height / 2).toNat = r.y.toInt + _
    omega

theorem divides_split {r : Rect} (h : r.Fits) : r.Divides r.split.1 r.split.2 := by
  rw [split]
  split
  · exact divides_splitColumns h
  · exact divides_splitRows h

theorem splitOverflows_of_fits {r : Rect} (h : r.Fits) : r.splitOverflows = false := by
  rw [splitOverflows]
  split
  · exact saddOverflow_half h.1
  · exact saddOverflow_half h.2

/-! ## Sides -/

/-- The half that comes first along the longer side, for the directions that lead, or the other
one. -/
def splitSide (r : Rect) (dir : Direction) : Rect := if dir.leads then r.split.1 else r.split.2

theorem splitSide_opposite (r : Rect) (dir : Direction) :
    r.splitSide dir.opposite = if dir.leads then r.split.2 else r.split.1 := by
  cases dir <;> rfl

theorem half_eq_self_iff {w : UInt32} : w / 2 = w ↔ w = 0 := by
  rw [← UInt32.toNat_inj, toNat_half, ← UInt32.toNat_inj, UInt32.toNat_zero]
  omega

/-- Columns are rows only if there is nothing to divide. -/
theorem splitColumns_eq_splitRows_iff {r : Rect} :
    r.splitColumns = r.splitRows ↔ r.width = 0 ∧ r.height = 0 := by
  obtain ⟨x, y, w, h⟩ := r
  constructor
  · intro heq
    simp only [splitColumns, splitRows, Prod.mk.injEq, Rect.mk.injEq] at heq
    exact ⟨half_eq_self_iff.1 heq.1.2.2.1, half_eq_self_iff.1 heq.1.2.2.2.symm⟩
  · rintro ⟨hw, hh⟩
    obtain rfl : w = 0 := hw
    obtain rfl : h = 0 := hh
    simp [splitColumns, splitRows]

/-- Splitting gives the halves on two sides exactly if they lie along the longer side, or the
rectangle is empty both ways. -/
theorem splitSide_eq_half_iff {r : Rect} {dir : Direction} :
    r.splitSide dir = r.half dir ∧ r.splitSide dir.opposite = r.half dir.opposite ↔
      (dir.isHorizontal = true ↔ r.height ≤ r.width) ∨ (r.width = 0 ∧ r.height = 0) := by
  rw [← splitColumns_eq_splitRows_iff]
  by_cases hle : r.height ≤ r.width
  · have hsplit : r.split = r.splitColumns := if_pos hle
    rw [Prod.ext_iff]
    cases dir <;>
      simp [splitSide, half, Direction.leads, Direction.opposite, Direction.isHorizontal, hsplit,
        hle, and_comm]
  · have hsplit : r.split = r.splitRows := if_neg hle
    rw [eq_comm (a := r.splitColumns), Prod.ext_iff]
    cases dir <;>
      simp [splitSide, half, Direction.leads, Direction.opposite, Direction.isHorizontal, hsplit,
        hle, and_comm]

end Rect

end Tiling
