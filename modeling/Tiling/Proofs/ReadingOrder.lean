import Mathlib.Data.Set.Defs
import Tiling.Proofs.Adjacency
/-!
# Reading order

Seen from the other side, a comparison of two rectangles is reversed.  Three rectangles need not
be in order, though: a rectangle that is beside two others, of which one is above or to the left
of the other, may come before the first and after the last.  Where none does, the reading order
is an order.
-/

namespace Tiling.Rect

/-- The comparison is an order on a set of rectangles. -/
structure Ordered (S : Set Rect) : Prop where
  swap : ∀ a ∈ S, ∀ b ∈ S, b.readingOrder a = (a.readingOrder b).swap
  lt_trans : ∀ a ∈ S, ∀ b ∈ S, ∀ c ∈ S,
    a.readingOrder b = .lt → b.readingOrder c = .lt → a.readingOrder c = .lt
  eq_trans : ∀ a ∈ S, ∀ b ∈ S, ∀ c ∈ S,
    a.readingOrder b = .eq → b.readingOrder c = .eq → a.readingOrder c = .eq

/-- `a` is above `c` and `b` has rows of both; or all three share rows, `a` is to the left of
`c`, and `b` has columns of both. -/
def Straddles (a b c : Rect) : Prop :=
  (a.Past c .south ∧ a.faces b .east = true ∧ b.faces c .east = true) ∨
    (a.faces b .east = true ∧ b.faces c .east = true ∧ a.faces c .east = true ∧ a.Past c .east ∧
      a.faces b .north = true ∧ b.faces c .north = true)

variable {a b c : Rect} {S : Set Rect}

theorem faces_east_iff : a.faces b .east = true ↔ b.y.toInt < a.bottom ∧ a.y.toInt < b.bottom := by
  simp only [faces, Bool.and_eq_true, decide_eq_true_eq]
  simp only [lastRow]
  omega

theorem faces_north_iff : a.faces b .north = true ↔ b.x.toInt < a.right ∧ a.x.toInt < b.right := by
  simp only [faces, Bool.and_eq_true, decide_eq_true_eq]
  simp only [lastColumn]
  omega

/-- The first of two rectangles is above the other; or beside it and to its left; or it overlaps
the other one and is larger. -/
theorem readingOrder_eq_lt_iff (ha : a.Solid) (hb : b.Solid) : a.readingOrder b = .lt ↔
    a.bottom ≤ b.y.toInt ∨ (b.y.toInt < a.bottom ∧ a.y.toInt < b.bottom) ∧
      (a.right ≤ b.x.toInt ∨ (b.x.toInt < a.right ∧ a.x.toInt < b.right) ∧ b.area < a.area) := by
  have hsolid := ha.lt
  have hsolid' := hb.lt
  unfold readingOrder
  split
  · simp only [reduceCtorEq, false_iff]
    omega
  split
  · simp only [true_iff]
    omega
  split
  · simp only [reduceCtorEq, false_iff]
    omega
  split
  · simp only [true_iff]
    omega
  · rw [Nat.compare_eq_lt]
    omega

theorem readingOrder_eq_eq_iff (ha : a.Solid) (hb : b.Solid) : a.readingOrder b = .eq ↔
    (b.y.toInt < a.bottom ∧ a.y.toInt < b.bottom) ∧ (b.x.toInt < a.right ∧ a.x.toInt < b.right) ∧
      a.area = b.area := by
  have hsolid := ha.lt
  have hsolid' := hb.lt
  unfold readingOrder
  split
  · simp only [reduceCtorEq, false_iff]
    omega
  split
  · simp only [reduceCtorEq, false_iff]
    omega
  split
  · simp only [reduceCtorEq, false_iff]
    omega
  split
  · simp only [reduceCtorEq, false_iff]
    omega
  · rw [Nat.compare_eq_eq]
    omega

theorem readingOrder_swap (ha : a.Solid) (hb : b.Solid) :
    b.readingOrder a = (a.readingOrder b).swap := by
  have hsolid := ha.lt
  have hsolid' := hb.lt
  have hlt := readingOrder_eq_lt_iff ha hb
  have heq := readingOrder_eq_eq_iff ha hb
  have hlt' := readingOrder_eq_lt_iff hb ha
  have heq' := readingOrder_eq_eq_iff hb ha
  cases hab : a.readingOrder b <;> cases hba : b.readingOrder a <;>
    simp only [hab, hba, reduceCtorEq, eq_self, true_iff, false_iff] at hlt heq hlt' heq' <;>
    first | rfl | omega

/-! ## Three rectangles -/

theorem straddles_iff : Straddles a b c ↔
    (a.bottom ≤ c.y.toInt ∧ (b.y.toInt < a.bottom ∧ a.y.toInt < b.bottom) ∧
        c.y.toInt < b.bottom ∧ b.y.toInt < c.bottom) ∨
      ((b.y.toInt < a.bottom ∧ a.y.toInt < b.bottom) ∧
        (c.y.toInt < b.bottom ∧ b.y.toInt < c.bottom) ∧
        (c.y.toInt < a.bottom ∧ a.y.toInt < c.bottom) ∧ a.right ≤ c.x.toInt ∧
        (b.x.toInt < a.right ∧ a.x.toInt < b.right) ∧
        c.x.toInt < b.right ∧ b.x.toInt < c.right) := by
  simp only [Straddles, Past, faces_east_iff, faces_north_iff]

instance (a b c : Rect) : Decidable (Straddles a b c) := decidable_of_iff _ straddles_iff.symm

theorem Straddles.lt (h : Straddles a b c) (ha : a.Solid) (hc : c.Solid) :
    a.readingOrder c = .lt := by
  rw [straddles_iff] at h
  rw [readingOrder_eq_lt_iff ha hc]
  omega

/-- Where the comparison goes round in a circle, one of the three straddles the others. -/
theorem exists_straddles (ha : a.Solid) (hb : b.Solid) (hc : c.Solid)
    (hab : a.readingOrder b = .lt) (hbc : b.readingOrder c = .lt)
    (hac : a.readingOrder c ≠ .lt) :
    Straddles a c b ∨ Straddles b a c ∨ Straddles c b a := by
  have hsolid := ha.lt
  have hsolid' := hb.lt
  have hsolid'' := hc.lt
  rw [readingOrder_eq_lt_iff ha hb] at hab
  rw [readingOrder_eq_lt_iff hb hc] at hbc
  rw [ne_eq, readingOrder_eq_lt_iff ha hc] at hac
  simp only [straddles_iff]
  rcases hab with habove | ⟨hrows, hab⟩
  · rcases hbc with habove' | ⟨hrows', -⟩
    · omega
    · exact .inl (.inl (by omega))
  rcases hbc with habove | ⟨hrows', hbc⟩
  · exact .inr (.inl (.inl (by omega)))
  by_cases hup : c.bottom ≤ a.y.toInt
  · exact .inr (.inr (.inl (by omega)))
  -- all three share rows: the same once more with columns
  rcases hab with hleft | ⟨hcolumns, harea⟩
  · rcases hbc with hleft' | ⟨hcolumns', -⟩
    · omega
    · exact .inl (.inr (by omega))
  rcases hbc with hleft | ⟨hcolumns', harea'⟩
  · exact .inr (.inl (.inr (by omega)))
  · exact .inr (.inr (.inr (by omega)))

/-- Of two rectangles that overlap a third one and are as large as it, neither comes first
unless it is straddled. -/
theorem straddles_of_eq (ha : a.Solid) (hb : b.Solid) (hc : c.Solid)
    (hab : a.readingOrder b = .eq) (hbc : b.readingOrder c = .eq)
    (hac : a.readingOrder c = .lt) : Straddles a b c := by
  rw [readingOrder_eq_eq_iff ha hb] at hab
  rw [readingOrder_eq_eq_iff hb hc] at hbc
  rw [readingOrder_eq_lt_iff ha hc] at hac
  rw [straddles_iff]
  rcases hac with habove | ⟨hrows, hleft | ⟨hcolumns, harea⟩⟩
  · exact .inl (by omega)
  · exact .inr (by omega)
  · omega

theorem Ordered.lt_of_straddles (h : Ordered S) (hS : ∀ r ∈ S, r.Solid) (ha : a ∈ S) (hb : b ∈ S)
    (hc : c ∈ S) (hstraddles : Straddles a b c) :
    a.readingOrder b = .lt ∨ b.readingOrder c = .lt := by
  have hac := hstraddles.lt (hS a ha) (hS c hc)
  have hba := h.swap a ha b hb
  have hcb := h.swap b hb c hc
  cases hab : a.readingOrder b with
  | lt => exact .inl rfl
  | eq =>
    cases hbc : b.readingOrder c with
    | lt => exact .inr rfl
    | eq =>
      rw [h.eq_trans a ha b hb c hc hab hbc] at hac
      cases hac
    | gt =>
      rw [hbc] at hcb
      have hab' := h.lt_trans a ha c hc b hb hac hcb
      rw [hab] at hab'
      cases hab'
  | gt =>
    rw [hab] at hba
    exact .inr (h.lt_trans b hb a ha c hc hba hac)

/-- On rectangles with an extent the comparison is an order if and only if none that straddles
two others comes neither after the first nor before the last. -/
theorem ordered_iff (hS : ∀ r ∈ S, r.Solid) : Ordered S ↔
    ∀ a ∈ S, ∀ b ∈ S, ∀ c ∈ S, Straddles a b c →
      a.readingOrder b = .lt ∨ b.readingOrder c = .lt := by
  refine ⟨fun h a ha b hb c hc => h.lt_of_straddles hS ha hb hc, fun h => ?_⟩
  have hswap (a : Rect) (ha : a ∈ S) (b : Rect) (hb : b ∈ S) :
      b.readingOrder a = (a.readingOrder b).swap := readingOrder_swap (hS a ha) (hS b hb)
  refine ⟨hswap, fun a ha b hb c hc hab hbc => ?_, fun a ha b hb c hc hab hbc => ?_⟩
  · refine Decidable.byContradiction fun hac => ?_
    have hba : b.readingOrder a = .gt := by rw [hswap a ha b hb, hab, Ordering.swap]
    have hcb : c.readingOrder b = .gt := by rw [hswap b hb c hc, hbc, Ordering.swap]
    rcases exists_straddles (hS a ha) (hS b hb) (hS c hc) hab hbc hac with hs | hs | hs
    · have hor := h a ha c hc b hb hs
      simp [hac, hcb] at hor
    · have hor := h b hb a ha c hc hs
      simp [hac, hba] at hor
    · have hor := h c hc b hb a ha hs
      simp [hba, hcb] at hor
  · have hba : b.readingOrder a = .eq := by rw [hswap a ha b hb, hab, Ordering.swap]
    have hcb : c.readingOrder b = .eq := by rw [hswap b hb c hc, hbc, Ordering.swap]
    cases hac : a.readingOrder c with
    | eq => rfl
    | lt =>
      have hor := h a ha b hb c hc
        (straddles_of_eq (hS a ha) (hS b hb) (hS c hc) hab hbc hac)
      simp [hab, hbc] at hor
    | gt =>
      have hca : c.readingOrder a = .lt := by rw [hswap a ha c hc, hac, Ordering.swap]
      have hor := h c hc b hb a ha
        (straddles_of_eq (hS c hc) (hS b hb) (hS a ha) hcb hba hca)
      simp [hcb, hba] at hor

/-- Rectangles apart from each other with an edge on one line are beside each other along it. -/
theorem ordered_of_edge (dir : Direction) (hS : ∀ r ∈ S, r.Solid)
    (hdisjoint : ∀ a ∈ S, ∀ b ∈ S, a ≠ b → a.Disjoint b)
    (hedge : ∀ a ∈ S, ∀ b ∈ S, a.edge dir = b.edge dir) : Ordered S := by
  refine (ordered_iff hS).2 fun a ha b hb c hc hstraddles => ?_
  by_cases heq : a = b
  · subst heq
    exact .inr (hstraddles.lt (hS a ha) (hS c hc))
  -- what is past the other one cannot straddle it
  exfalso
  obtain ⟨dir', hpast⟩ := (hdisjoint a ha b hb heq).exists_past (hS a ha) (hS b hb)
  have hab := hedge a ha b hb
  have hac := hedge a ha c hc
  have hsolid := (hS a ha).lt
  have hsolid' := (hS b hb).lt
  have hsolid'' := (hS c hc).lt
  rw [straddles_iff] at hstraddles
  cases dir <;> cases dir' <;> simp only [edge, Past] at hab hac hpast <;> omega

theorem Disjoint.readingOrder_ne_eq (h : a.Disjoint b) (ha : a.Solid) (hb : b.Solid) :
    a.readingOrder b ≠ .eq := by
  obtain ⟨dir, hpast⟩ := h.exists_past ha hb
  rw [ne_eq, readingOrder_eq_eq_iff ha hb]
  cases dir <;> simp only [Past] at hpast <;> omega

namespace Ordered

theorem ne_gt_refl (h : Ordered S) (ha : a ∈ S) : a.readingOrder a ≠ .gt := by
  have hswap := h.swap a ha a ha
  intro hgt
  rw [hgt] at hswap
  cases hswap

theorem ne_gt_of_ne_lt (h : Ordered S) (ha : a ∈ S) (hb : b ∈ S) (hab : a.readingOrder b ≠ .lt) :
    b.readingOrder a ≠ .gt := by
  rw [h.swap a ha b hb]
  cases horder : a.readingOrder b with
  | lt => exact absurd horder hab
  | eq | gt => simp [Ordering.swap]

/-- What comes first or is equal is transitive too. -/
theorem ne_gt_trans (h : Ordered S) (ha : a ∈ S) (hb : b ∈ S) (hc : c ∈ S)
    (hab : a.readingOrder b ≠ .gt) (hbc : b.readingOrder c ≠ .gt) : a.readingOrder c ≠ .gt := by
  intro hac
  have hca : c.readingOrder a = .lt := by rw [h.swap a ha c hc, hac, Ordering.swap]
  cases hab' : a.readingOrder b with
  | lt =>
    have hcb := h.swap c hc b hb
    rw [h.lt_trans c hc a ha b hb hca hab'] at hcb
    exact hbc hcb
  | eq =>
    cases hbc' : b.readingOrder c with
    | lt =>
      have hba := h.swap a ha b hb
      rw [h.lt_trans b hb c hc a ha hbc' hca, hab'] at hba
      cases hba
    | eq =>
      rw [h.eq_trans a ha b hb c hc hab' hbc'] at hac
      cases hac
    | gt => exact hbc hbc'
  | gt => exact hab hab'

end Ordered

end Tiling.Rect
