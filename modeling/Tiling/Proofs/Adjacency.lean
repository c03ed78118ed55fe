import Tiling.Proofs.Geometry
/-!
# Rectangles side by side

Of two rectangles that have no point in common, one is past an edge of the other.  So both
degrees of tightness find the same ones on a side, and what covers the far side of an edge lies
against it.
-/

namespace Tiling

namespace Rect

/-- Where the edge on a side is. -/
def edge (r : Rect) : Direction → Int
  | .north => r.y.toInt
  | .west => r.x.toInt
  | .south => r.bottom
  | .east => r.right

def Solid (r : Rect) : Prop := 0 < r.width ∧ 0 < r.height

instance (r : Rect) : Decidable r.Solid := inferInstanceAs (Decidable (_ ∧ _))

/-- `b` does not reach over the edge of `a` on a side. -/
def Past (a b : Rect) : Direction → Prop
  | .north => b.bottom ≤ a.y.toInt
  | .west => b.right ≤ a.x.toInt
  | .south => a.bottom ≤ b.y.toInt
  | .east => a.right ≤ b.x.toInt

/-- A column along the edges to the north and south, or a row along those to the west and east. -/
def spans (r : Rect) (dir : Direction) (c : Int) : Prop :=
  match dir with
  | .north | .south => r.x.toInt ≤ c ∧ c < r.right
  | .west | .east => r.y.toInt ≤ c ∧ c < r.bottom

/-- `b` lies against the edge of `a` on a side. -/
structure Adjoins (a b : Rect) (dir : Direction) : Prop where
  distance : a.edgeDistance b dir = 1
  edge : b.edge dir.opposite = a.edge dir
  /-- Both have a part of the edge. -/
  shared : ∃ c, a.spans dir c ∧ b.spans dir c

variable {area a b c : Rect} {dir : Direction} {p : Point}

theorem Solid.lt (h : a.Solid) : a.x.toInt < a.right ∧ a.y.toInt < a.bottom := by
  obtain ⟨hw, hh⟩ := h
  rw [UInt32.lt_iff_toNat_lt] at hw hh
  rw [right, bottom]
  exact ⟨by omega, by omega⟩

theorem exists_later (x x' : Int32) :
    ∃ z : Int32, x.toInt ≤ z.toInt ∧ x'.toInt ≤ z.toInt ∧ (z = x ∨ z = x') := by
  rcases Int.le_total x.toInt x'.toInt with hle | hle
  · exact ⟨x', hle, Int.le_refl _, .inr rfl⟩
  · exact ⟨x, Int.le_refl _, hle, .inl rfl⟩

/-- One of two rectangles that have no point in common is past the other: neither has the point
of the later column and row that they begin with, or only one of them. -/
theorem Disjoint.exists_past (h : a.Disjoint b) (ha : a.Solid) (hb : b.Solid) :
    ∃ dir, a.Past b dir := by
  have hsolid := ha.lt
  have hsolid' := hb.lt
  obtain ⟨x, hax, hbx, hx⟩ := exists_later a.x b.x
  obtain ⟨y, hay, hby, hy⟩ := exists_later a.y b.y
  by_cases hin : a.covers ⟨x, y⟩ = true
  · have hout := h _ hin
    simp only [← Bool.not_eq_true, covers_iff] at hout
    by_cases hright : b.right ≤ x.toInt
    · refine ⟨.west, ?_⟩
      rcases hx with rfl | rfl
      · exact hright
      · omega
    · refine ⟨.north, ?_⟩
      rcases hy with rfl | rfl
      · show b.bottom ≤ a.y.toInt
        omega
      · omega
  · simp only [covers_iff] at hin
    by_cases hright : a.right ≤ x.toInt
    · refine ⟨.east, ?_⟩
      rcases hx with rfl | rfl
      · omega
      · exact hright
    · refine ⟨.south, ?_⟩
      rcases hy with rfl | rfl
      · omega
      · show a.bottom ≤ b.y.toInt
        omega

theorem faces_iff (ha : a.Solid) (hb : b.Solid) :
    a.faces b dir = true ↔ ∃ c, a.spans dir c ∧ b.spans dir c := by
  have hsolid := ha.lt
  have hsolid' := hb.lt
  constructor
  · intro h
    cases dir with
    | north | south =>
      simp only [faces, Bool.and_eq_true, decide_eq_true_eq] at h
      simp only [lastColumn] at h
      obtain ⟨x, hax, hbx, hx⟩ := exists_later a.x b.x
      refine ⟨x.toInt, ⟨hax, ?_⟩, hbx, ?_⟩ <;> rcases hx with rfl | rfl <;> omega
    | west | east =>
      simp only [faces, Bool.and_eq_true, decide_eq_true_eq] at h
      simp only [lastRow] at h
      obtain ⟨y, hay, hby, hy⟩ := exists_later a.y b.y
      refine ⟨y.toInt, ⟨hay, ?_⟩, hby, ?_⟩ <;> rcases hy with rfl | rfl <;> omega
  · rintro ⟨c, hc, hc'⟩
    cases dir <;> simp only [spans] at hc hc' <;>
      simp only [faces, Bool.and_eq_true, decide_eq_true_eq] <;>
      simp only [lastColumn, lastRow] <;> omega

/-- On a side are the rectangles past the edge that have a part of it, however tight. -/
theorem onSide_iff (h : a.Disjoint b) (ha : a.Solid) (hb : b.Solid) (tightness : Tightness) :
    a.onSide b dir tightness = true ↔ a.Past b dir ∧ ∃ c, a.spans dir c ∧ b.spans dir c := by
  rw [onSide, Bool.and_eq_true, faces_iff ha hb, Bool.not_eq_true']
  refine and_congr_left fun ⟨c, hc, hc'⟩ => ?_
  obtain ⟨dir', hpast⟩ := h.exists_past ha hb
  have hsolid := ha.lt
  have hsolid' := hb.lt
  -- what has a part of the edge can only be past this edge or the opposite one
  cases dir <;> cases dir' <;> simp only [spans, Past] at hc hc' hpast <;> cases tightness <;>
    simp only [beyond, decide_eq_false_iff_not] <;> simp only [Past, lastColumn, lastRow] <;> omega

theorem Past.le_edgeDistance (h : a.Past b dir) : 1 ≤ a.edgeDistance b dir := by
  cases dir <;> simp only [Past] at h <;>
    simp only [edgeDistance, lastColumn, lastRow, UInt32.size] <;> omega

theorem Past.edge_eq (h : a.Past b dir) (hle : a.edgeDistance b dir ≤ 1) :
    b.edge dir.opposite = a.edge dir := by
  cases dir <;> simp only [Past] at h <;>
    simp only [edgeDistance, lastColumn, lastRow, UInt32.size] at hle <;>
    simp only [edge, Direction.opposite] <;> omega

/-- Within an area the distance of what is past an edge tells where it begins. -/
theorem Past.edge_eq_of_distance (hpast : a.Past b dir) (hpast' : a.Past c dir)
    (hfits : area.Fits) (ha : a.Solid ∧ area.contains a = true)
    (hb : b.Solid ∧ area.contains b = true) (hc : c.Solid ∧ area.contains c = true)
    (heq : a.edgeDistance b dir = a.edgeDistance c dir) :
    b.edge dir.opposite = c.edge dir.opposite := by
  obtain ⟨hright, hbottom⟩ := hfits
  have hmax : Int32.maxValue.toInt = 2 ^ 31 - 1 := rfl
  have hx := area.x.le_toInt
  have hy := area.y.le_toInt
  have hsolid := ha.1.lt
  have hsolid' := hb.1.lt
  have hsolid'' := hc.1.lt
  simp only [contains_iff] at ha hb hc
  cases dir <;> simp only [Past] at hpast hpast' <;>
    simp only [edgeDistance, lastRow, lastColumn, UInt32.size] at heq <;>
    simp only [edge, Direction.opposite] <;> omega

/-- Past the edge of the area there is nothing. -/
theorem Past.edge_ne (h : a.Past b dir) (hb : b.Solid) (hcontains : area.contains b = true) :
    a.edge dir ≠ area.edge dir := by
  have hsolid := hb.lt
  rw [contains_iff] at hcontains
  cases dir <;> simp only [Past] at h <;> simp only [edge] <;> omega

/-! ## The far side of an edge -/

/-- The point is on the far side of the edge, next to it. -/
def Across (a : Rect) (dir : Direction) (p : Point) : Prop :=
  match dir with
  | .north => a.spans .north p.x.toInt ∧ p.y.toInt = a.y.toInt - 1
  | .west => a.spans .west p.y.toInt ∧ p.x.toInt = a.x.toInt - 1
  | .south => a.spans .south p.x.toInt ∧ p.y.toInt = a.bottom
  | .east => a.spans .east p.y.toInt ∧ p.x.toInt = a.right

/-- An edge within the area has a far side. -/
theorem exists_across (hfits : area.Fits) (hcontains : area.contains a = true) (ha : a.Solid)
    (hne : a.edge dir ≠ area.edge dir) : ∃ p, area.covers p = true ∧ a.Across dir p := by
  obtain ⟨hleft, htop⟩ := ha.lt
  obtain ⟨hright, hbottom⟩ := hfits
  rw [contains_iff] at hcontains
  have hx := area.x.le_toInt
  have hy := area.y.le_toInt
  have hcoordinate {c : Int} (hlow : -2 ^ 31 ≤ c) (hhigh : c ≤ Int32.maxValue.toInt) :
      ∃ z : Int32, z.toInt = c := ⟨.ofIntLE c hlow hhigh, Int32.toInt_ofIntLE⟩
  cases dir with
  | north =>
    simp only [edge] at hne
    obtain ⟨y, hy⟩ := hcoordinate (c := a.y.toInt - 1) (by omega) (by omega)
    exact ⟨⟨a.x, y⟩, covers_iff.2 (by simp only [hy]; omega), ⟨Int.le_refl _, hleft⟩, hy⟩
  | west =>
    simp only [edge] at hne
    obtain ⟨x, hx⟩ := hcoordinate (c := a.x.toInt - 1) (by omega) (by omega)
    exact ⟨⟨x, a.y⟩, covers_iff.2 (by simp only [hx]; omega), ⟨Int.le_refl _, htop⟩, hx⟩
  | south =>
    simp only [edge] at hne
    obtain ⟨y, hy⟩ := hcoordinate (c := a.bottom) (by omega) (by omega)
    exact ⟨⟨a.x, y⟩, covers_iff.2 (by simp only [hy]; omega), ⟨Int.le_refl _, hleft⟩, hy⟩
  | east =>
    simp only [edge] at hne
    obtain ⟨x, hx⟩ := hcoordinate (c := a.right) (by omega) (by omega)
    exact ⟨⟨x, a.y⟩, covers_iff.2 (by simp only [hx]; omega), ⟨Int.le_refl _, htop⟩, hx⟩

namespace Across

theorem covers (h : a.Across dir p) : a.covers p = false := by
  rw [← Bool.not_eq_true, covers_iff]
  cases dir <;> simp only [Across] at h <;> omega

/-- What covers a point across the edge is past the edge, against it, and has a part of it. -/
theorem reaches (h : a.Across dir p) (hdisjoint : a.Disjoint b) (ha : a.Solid) (hb : b.Solid)
    (hp : b.covers p = true) :
    a.Past b dir ∧ a.edgeDistance b dir ≤ 1 ∧ ∃ c, a.spans dir c ∧ b.spans dir c := by
  have hsolid := ha.lt
  rw [covers_iff] at hp
  obtain ⟨dir', hpast⟩ := hdisjoint.exists_past ha hb
  -- past any other edge, it would not reach the point
  obtain rfl : dir' = dir := by
    cases dir <;> cases dir' <;> first | rfl | (simp only [Across, spans, Past] at h hpast; omega)
  refine ⟨hpast, ?_, ?_⟩
  · cases dir' <;> simp only [Across, Past] at h hpast <;>
      simp only [edgeDistance, lastColumn, lastRow] <;> omega
  · cases dir' with
    | north | south => exact ⟨p.x.toInt, h.1, hp.1⟩
    | west | east => exact ⟨p.y.toInt, h.1, hp.2⟩

end Across

end Rect

end Tiling
