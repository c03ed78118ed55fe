import Tiling.Proofs.Model.Adjacent
import Tiling.Proofs.ReadingOrder
/-!
# The nearest window

The neighbour of a window is one of the windows of its desktop on the wanted side, and none of
them is nearer, in whatever order they are looked at and however equally near ones are told
apart.  Which of these it is depends on the reading order, and on the order in which they are
looked at where the reading order is none.
-/

namespace Tiling

open Tiling.Tree (Shape)

namespace Model

variable {m : Model} {n n' : NodeId} {r : DesktopRef} {d : Desktop} {rect : Rect} {dir : Direction}
  {tightness : Tightness} {place : NodeId × Rect}

/-- The leaves of a desktop are the windows that are found on it. -/
theorem mem_leaves_iff (hm : m.Sound) (hd : m.desktop? r = some d) :
    n ∈ m.tree.leaves d.root ↔ (m.tree.client? n).isSome ∧ m.locate? n = some r := by
  obtain ⟨shapes, h⟩ := hm
  constructor
  · intro hn
    obtain ⟨o, ho, howns⟩ := h.owns_of_desktop? hd
    rw [h.leaves_of_owns ho howns] at hn
    cases o with
    | none => cases hn
    | some s =>
      have hleaf : n ∈ s.leaves := by simpa using hn
      have hmem := Shaped.mem_reduceOption.2 ho
      exact ⟨h.forest.isSome_client?_iff.2 ⟨s, hmem, hleaf⟩,
        h.locate?_of_root hd howns.1 (h.forest.hasShape hmem)
          (Shape.mem_preorder_of_mem_leaves hleaf)⟩
  · rintro ⟨hn, hlocate⟩
    obtain ⟨s, r', d', hmem, hleaf, hlocate', hd', howns⟩ := h.locate_client hn
    obtain rfl : r' = r := Option.some.inj (hlocate'.symm.trans hlocate)
    obtain rfl : d' = d := Option.some.inj (hd'.symm.trans hd)
    rw [h.leaves_of_owns hmem howns]
    simpa using hleaf

/-- Another window of the same desktop, seen on the wanted side of a rectangle. -/
structure Eligible (m : Model) (n : NodeId) (rect : Rect) (dir : Direction) (tightness : Tightness)
    (place : NodeId × Rect) : Prop where
  other : place.1 ≠ n
  located : m.locate? place.1 = m.locate? n
  seen : m.visibleRect? place.1 = some place.2
  side : rect.onSide place.2 dir tightness = true

theorem mem_candidates_iff (hm : m.Sound) (hlocate : m.locate? n = some r)
    (hd : m.desktop? r = some d) : place ∈ m.candidates n d.root rect dir tightness ↔
      m.Eligible n rect dir tightness place := by
  rw [mem_candidates, mem_leaves_iff hm hd, ← hlocate]
  constructor
  · rintro ⟨⟨⟨-, hlocated⟩, hother⟩, hseen, hside⟩
    exact ⟨hother, hlocated, hseen, hside⟩
  · rintro ⟨hother, hlocated, hseen, hside⟩
    exact ⟨⟨⟨isSome_client?_of_visible hseen, hlocated⟩, hother⟩, hseen, hside⟩

theorem nodup_candidates (hm : m.Sound) (hd : m.desktop? r = some d) (n : NodeId) (rect : Rect)
    (dir : Direction) (tightness : Tightness) :
    (m.candidates n d.root rect dir tightness).Nodup := by
  obtain ⟨shapes, h⟩ := hm
  obtain ⟨o, ho, howns⟩ := h.owns_of_desktop? hd
  have hleaves : (m.tree.leaves d.root).Nodup := by
    rw [h.leaves_of_owns ho howns]
    cases o with
    | none => exact List.nodup_nil
    | some s =>
      have hnodup := h.forest.nodup_of_mem (Shaped.mem_reduceOption.2 ho)
      simpa using s.leaves_sublist_preorder.nodup hnodup
  refine (hleaves.filter _).filterMap fun a b place ha hb => ?_
  simp only [Option.mem_def, Option.map_eq_some_iff] at ha hb
  obtain ⟨_, -, heq⟩ := ha
  obtain ⟨_, -, heq'⟩ := hb
  exact congrArg Prod.fst (heq.trans heq'.symm)

/-- Nothing if there is nothing eligible, else something eligible that nothing eligible is nearer
than. -/
structure Nearest (m : Model) (n : NodeId) (rect : Rect) (dir : Direction) (tightness : Tightness)
    (result : Option (NodeId × Rect)) : Prop where
  none_iff : result = none ↔ ∀ place, ¬ m.Eligible n rect dir tightness place
  eligible : ∀ place, result = some place → m.Eligible n rect dir tightness place
  least : ∀ place, result = some place → ∀ other, m.Eligible n rect dir tightness other →
    rect.edgeDistance place.2 dir ≤ rect.edgeDistance other.2 dir

theorem nearest_closestBy (hm : m.Sound) (hlocate : m.locate? n = some r)
    (hd : m.desktop? r = some d) {places : List (NodeId × Rect)}
    (hperm : places.Perm (m.candidates n d.root rect dir tightness))
    (tie : Rect → Rect → Ordering) :
    m.Nearest n rect dir tightness (closestBy tie rect dir places) := by
  have hmem (place : NodeId × Rect) : place ∈ places ↔ m.Eligible n rect dir tightness place := by
    rw [hperm.mem_iff, mem_candidates_iff hm hlocate hd]
  refine ⟨?_, fun place hplace => ?_, fun place hplace other hother => ?_⟩
  · rw [closestBy, least?_eq_none, List.eq_nil_iff_forall_not_mem]
    exact forall_congr' fun place => not_congr (hmem place)
  · exact (hmem place).1 (closestBy_spec hplace).1
  · exact (closestBy_spec hplace).2 other ((hmem other).2 hother)

/-! ## Equally near windows -/

section Ties

variable {S : Set Rect} {places : List (NodeId × Rect)} {a b : Rect}

theorem closeness_swap (rect : Rect) (dir : Direction) (ha : a.Solid) (hb : b.Solid) :
    closeness rect dir b a = (closeness rect dir a b).swap := by
  rw [closeness, closeness, Ordering.swap_then, Nat.compare_swap, Rect.readingOrder_swap ha hb]

/-- Where the reading order is an order on equally close rectangles, the closest place is the
first of those that are equally close. -/
theorem closest?_first (hS : ∀ k, Rect.Ordered { a ∈ S | rect.edgeDistance a dir = k })
    (hplaces : ∀ p ∈ places, p.2 ∈ S) (h : closest? rect dir places = some place) :
    place ∈ places ∧ ∀ other ∈ places,
      rect.edgeDistance place.2 dir < rect.edgeDistance other.2 dir ∨
        rect.edgeDistance place.2 dir = rect.edgeDistance other.2 dir ∧
          place.2.readingOrder other.2 ≠ .gt := by
  rw [closest?_eq] at h
  -- nearer, or as near and not later: transitive, since equal distances share an order
  refine least?_spec (S := fun p : NodeId × Rect => p.2 ∈ S)
    (R := fun a b : NodeId × Rect => rect.edgeDistance a.2 dir < rect.edgeDistance b.2 dir ∨
      rect.edgeDistance a.2 dir = rect.edgeDistance b.2 dir ∧ a.2.readingOrder b.2 ≠ .gt)
    hplaces (fun a ha => .inr ⟨rfl, (hS _).ne_gt_refl ⟨ha, rfl⟩⟩) ?_ ?_ ?_ h
  · rintro a b c ha hb hc (hab | ⟨hab, hle⟩) (hbc | ⟨hbc, hle'⟩)
    · exact .inl (Nat.lt_trans hab hbc)
    · exact .inl (hbc ▸ hab)
    · exact .inl (hab ▸ hbc)
    · exact .inr ⟨hab.trans hbc,
        (hS _).ne_gt_trans ⟨ha, hab.trans hbc⟩ ⟨hb, hbc⟩ ⟨hc, rfl⟩ hle hle'⟩
  · intro a b ha hb hbefore
    refine (closeness_eq_lt_iff.1 (beq_iff_eq.1 hbefore)).imp_right fun ⟨heq, hlt⟩ => ⟨heq, ?_⟩
    rw [hlt]
    exact Ordering.noConfusion
  · intro a b ha hb hbefore
    have hnot := closeness_eq_lt_iff.not.1 (beq_eq_false_iff_ne.1 hbefore)
    rw [not_or, not_and] at hnot
    rcases Nat.lt_or_eq_of_le (Nat.le_of_not_lt hnot.1) with hlt | heq
    · exact .inl hlt
    · exact .inr ⟨heq, (hS _).ne_gt_of_ne_lt ⟨ha, rfl⟩ ⟨hb, heq⟩ (hnot.2 heq.symm)⟩

/-- One place is the closest in whatever order they are looked at exactly if it is before each
other one. -/
theorem closest?_perm_iff (hplaces : ∀ p ∈ places, p.2.Solid) (hnodup : places.Nodup) :
    (∀ l, l.Perm places → closest? rect dir l = some place) ↔
      place ∈ places ∧
        ∀ other ∈ places, other ≠ place → closeness rect dir place.2 other.2 = .lt := by
  constructor
  · intro h
    simp only [closest?_eq] at h
    refine ⟨least?_mem (h _ (List.Perm.refl _)), fun other hother hne => ?_⟩
    have hbefore := before_of_perm hnodup h hother hne
    exact beq_iff_eq.1 hbefore
  · rintro ⟨hmem, hfirst⟩ l hperm
    rw [closest?_eq]
    refine least?_of_first (hperm.mem_iff.2 hmem) fun other hother hne => ?_
    have hother := hperm.mem_iff.1 hother
    have hlt := hfirst other hother hne
    refine ⟨beq_iff_eq.2 hlt, beq_eq_false_iff_ne.2 ?_⟩
    have hgt := closeness_swap rect dir (hplaces _ hmem) (hplaces _ hother)
    rw [hlt] at hgt
    exact fun hlt' => Ordering.noConfusion (hgt.symm.trans hlt')

end Ties

/-! ## Tiled desktops -/

section Tiled

variable {area : Rect}

/-- The candidates at one distance lie along one line. -/
theorem Pieces.ordered_candidates (h : m.Pieces d area) (hn : n ∈ m.tree.leaves d.root)
    (hrect : m.visibleRect? n = some rect) (k : Nat) :
    Rect.Ordered { a ∈ { a | ∃ p ∈ m.candidates n d.root rect dir tightness, p.2 = a } |
      rect.edgeDistance a dir = k } := by
  have hwithin (p : NodeId × Rect) (hp : p ∈ m.candidates n d.root rect dir tightness) :
      p.1 ∈ m.tree.leaves d.root ∧ m.visibleRect? p.1 = some p.2 ∧ rect.Past p.2 dir ∧
        p.2.Solid ∧ area.contains p.2 = true := by
    obtain ⟨⟨hmem, -⟩, hseen, hpast, -⟩ := (h.mem_candidates hn hrect).1 hp
    exact ⟨hmem, hseen, hpast, h.within _ hmem _ hseen⟩
  refine Rect.ordered_of_edge dir.opposite ?_ ?_ ?_
  · rintro _ ⟨⟨p, hp, rfl⟩, -⟩
    exact (hwithin p hp).2.2.2.1
  · rintro _ ⟨⟨p, hp, rfl⟩, -⟩ _ ⟨⟨q, hq, rfl⟩, -⟩ hne
    obtain ⟨hp, hseen, -⟩ := hwithin p hp
    obtain ⟨hq, hseen', -⟩ := hwithin q hq
    refine h.disjoint _ hp _ hq (fun heq => hne ?_) _ _ hseen hseen'
    rw [heq] at hseen'
    exact Option.some.inj (hseen.symm.trans hseen')
  · rintro _ ⟨⟨p, hp, rfl⟩, hpk⟩ _ ⟨⟨q, hq, rfl⟩, hqk⟩
    obtain ⟨-, -, hpast, hp⟩ := hwithin p hp
    obtain ⟨-, -, hpast', hq⟩ := hwithin q hq
    exact hpast.edge_eq_of_distance hpast' h.fits (h.within n hn rect hrect) hp hq
      (hpk.trans hqk.symm)

/-- The closest candidate is before each other one. -/
theorem Pieces.closest_before (h : m.Pieces d area) (hn : n ∈ m.tree.leaves d.root)
    (hrect : m.visibleRect? n = some rect)
    (hclosest : closest? rect dir (m.candidates n d.root rect dir tightness) = some place)
    {other : NodeId × Rect} (hother : other ∈ m.candidates n d.root rect dir tightness)
    (hne : other ≠ place) : closeness rect dir place.2 other.2 = .lt := by
  obtain ⟨hplace, hfirst⟩ := closest?_first (h.ordered_candidates hn hrect)
    (fun p hp => ⟨p, hp, rfl⟩) hclosest
  obtain ⟨⟨hmem, -⟩, hseen, -⟩ := (h.mem_candidates hn hrect).1 hplace
  obtain ⟨⟨hmem', -⟩, hseen', -⟩ := (h.mem_candidates hn hrect).1 hother
  refine closeness_eq_lt_iff.2 ((hfirst other hother).imp_right fun ⟨heq, hle⟩ => ⟨heq, ?_⟩)
  have hdisjoint : place.2.Disjoint other.2 := by
    refine h.disjoint _ hmem _ hmem' (fun hsame => hne (Prod.ext hsame ?_)) _ _ hseen hseen'
    rw [hsame] at hseen'
    exact Option.some.inj (hseen'.symm.trans hseen)
  have hneq := hdisjoint.readingOrder_ne_eq (h.within _ hmem _ hseen).1
    (h.within _ hmem' _ hseen').1
  cases horder : place.2.readingOrder other.2 with
  | lt => rfl
  | eq => exact absurd horder hneq
  | gt => exact absurd horder hle

end Tiled

end Model

namespace Stage

variable {s : Stage} {n : NodeId}

/-- The neighbour of a window is the nearest window of its desktop on the wanted side; so is
what comes out for any other order of the windows and any other way to tell equally near ones
apart. -/
theorem neighbour?_nearest (h : s.Reachable) (hn : (s.model.tree.client? n).isSome)
    (dir : Direction) (tightness : Tightness) :
    ∃ r d rect, s.model.locate? n = some r ∧ s.model.desktop? r = some d ∧
      s.model.visibleRect? n = some rect ∧
      (s.model.neighbour? n dir tightness = none ↔
        ∀ place, ¬ s.model.Eligible n rect dir tightness place) ∧
      (∀ n', s.model.neighbour? n dir tightness = some n' →
        ∃ rect', s.model.Eligible n rect dir tightness (n', rect') ∧
          ∀ other, s.model.Eligible n rect dir tightness other →
            rect.edgeDistance rect' dir ≤ rect.edgeDistance other.2 dir) ∧
      ∀ tie places, places.Perm (s.model.candidates n d.root rect dir tightness) →
        s.model.Nearest n rect dir tightness (Model.closestBy tie rect dir places) := by
  obtain ⟨r, d, hlocate, hd⟩ := locate_client h.sound hn
  obtain ⟨rect, hrect⟩ := Model.exists_visible hn
  have hall (tie : Rect → Rect → Ordering) (places : List (NodeId × Rect))
      (hperm : places.Perm (s.model.candidates n d.root rect dir tightness)) :=
    Model.nearest_closestBy h.sound hlocate hd hperm tie
  have hnearest := hall Rect.readingOrder _ (List.Perm.refl _)
  have heq := Model.neighbour?_eq hlocate hd hrect dir tightness
  rw [Model.closest?_eq] at heq
  refine ⟨r, d, rect, hlocate, hd, hrect, ?_, fun n' hn' => ?_, hall⟩
  · rw [heq, Option.map_eq_none_iff, hnearest.none_iff]
  · rw [heq] at hn'
    obtain ⟨place, hplace, rfl⟩ := Option.map_eq_some_iff.1 hn'
    exact ⟨place.2, hnearest.eligible place hplace, hnearest.least place hplace⟩

/-- Windows that float where they are put, one after the other. -/
def scattered (places : List (Window × Rect)) : Stage :=
  (fresh [("screen0", ⟨0, 0, 1920, 1080⟩)] ["I"] .standard (.counting 16777217 1 1)).run
    (places.flatMap fun (w, rect) =>
      [.manage w .unknown { Consequences.standard with state := some .floating },
        .configure w rect])

theorem reachable_scattered (places : List (Window × Rect)) : (scattered places).Reachable :=
  ⟨_, _, _, _, [], _, rfl⟩

/-- Of two windows to the east of the first one, that which overlaps it. -/
def overlapping : Stage :=
  scattered [(1, ⟨0, 0, 100, 100⟩), (2, ⟨300, 0, 100, 100⟩), (3, ⟨50, 50, 100, 100⟩)]

theorem neighbour?_nearest_overlapping :
    overlapping.model.neighbour? ⟨0⟩ .east .high = some ⟨3⟩ ∧
      overlapping.model.neighbour? ⟨0⟩ .west .high = none ∧
      (∀ place, ¬ overlapping.model.Eligible ⟨0⟩ ⟨0, 0, 100, 100⟩ .west .high place) ∧
      ∀ other, overlapping.model.Eligible ⟨0⟩ ⟨0, 0, 100, 100⟩ .east .high other →
        49 ≤ (⟨0, 0, 100, 100⟩ : Rect).edgeDistance other.2 .east := by
  have hall := neighbour?_nearest (reachable_scattered _ : overlapping.Reachable)
    (n := ⟨0⟩) (by decide +kernel)
  have hrect : overlapping.model.visibleRect? ⟨0⟩ = some ⟨0, 0, 100, 100⟩ := by decide +kernel
  have hnear : overlapping.model.visibleRect? ⟨3⟩ = some ⟨50, 50, 100, 100⟩ := by decide +kernel
  have heast : overlapping.model.neighbour? ⟨0⟩ .east .high = some ⟨3⟩ := by decide +kernel
  have hwest : overlapping.model.neighbour? ⟨0⟩ .west .high = none := by decide +kernel
  refine ⟨heast, hwest, ?_, ?_⟩
  · obtain ⟨_, _, rect, -, -, hrect', hnone, -⟩ := hall .west .high
    obtain rfl := Option.some.inj (hrect.symm.trans hrect')
    exact hnone.1 hwest
  · obtain ⟨_, _, rect, -, -, hrect', -, hsome, -⟩ := hall .east .high
    obtain rfl := Option.some.inj (hrect.symm.trans hrect')
    obtain ⟨near, heligible, hleast⟩ := hsome _ heast
    obtain rfl := Option.some.inj (hnear.symm.trans heligible.seen)
    exact hleast

/-- Seen from the other side the comparison of two rectangles is reversed.  It is an order on
rectangles exactly if none that straddles two others comes neither after the first nor before
the last.  Where it is one on those at the same distance, the neighbour is the first of the
nearest windows; it is the same for any order of the windows exactly if it comes before each
other one. -/
theorem neighbour?_in_order {S : Set Rect} (hS : ∀ rect ∈ S, rect.Solid) :
    (∀ a ∈ S, ∀ b ∈ S, b.readingOrder a = (a.readingOrder b).swap) ∧
    (Rect.Ordered S ↔ ∀ a ∈ S, ∀ b ∈ S, ∀ c ∈ S, Rect.Straddles a b c →
      a.readingOrder b = .lt ∨ b.readingOrder c = .lt) ∧
    ∀ (s : Stage) (r : DesktopRef) (d : Desktop) (n : NodeId) (rect : Rect) (dir : Direction)
      (tightness : Tightness), s.Reachable → s.model.locate? n = some r →
      s.model.desktop? r = some d → s.model.visibleRect? n = some rect →
      (∀ place, s.model.Eligible n rect dir tightness place → place.2 ∈ S) →
      ((∀ k, Rect.Ordered { a ∈ S | rect.edgeDistance a dir = k }) →
        ∀ n', s.model.neighbour? n dir tightness = some n' →
        ∃ rect', s.model.Eligible n rect dir tightness (n', rect') ∧
          ∀ other, s.model.Eligible n rect dir tightness other →
            rect.edgeDistance rect' dir < rect.edgeDistance other.2 dir ∨
              rect.edgeDistance rect' dir = rect.edgeDistance other.2 dir ∧
                rect'.readingOrder other.2 ≠ .gt) ∧
      ∀ place, (∀ places, places.Perm (s.model.candidates n d.root rect dir tightness) →
          Model.closest? rect dir places = some place) ↔
        s.model.Eligible n rect dir tightness place ∧
          ∀ other, s.model.Eligible n rect dir tightness other → other ≠ place →
            Model.closeness rect dir place.2 other.2 = .lt := by
  refine ⟨fun a ha b hb => Rect.readingOrder_swap (hS a ha) (hS b hb), Rect.ordered_iff hS, ?_⟩
  intro s r d n rect dir tightness h hlocate hd hrect hplaces
  have hmem (place : NodeId × Rect) :
      place ∈ s.model.candidates n d.root rect dir tightness ↔
        s.model.Eligible n rect dir tightness place := Model.mem_candidates_iff h.sound hlocate hd
  refine ⟨fun hordered n' hn' => ?_, fun place => ?_⟩
  · rw [Model.neighbour?_eq hlocate hd hrect dir tightness] at hn'
    obtain ⟨place, hplace, rfl⟩ := Option.map_eq_some_iff.1 hn'
    obtain ⟨hplace, hfirst⟩ :=
      Model.closest?_first hordered (fun p hp => hplaces p ((hmem p).1 hp)) hplace
    exact ⟨place.2, (hmem place).1 hplace, fun other hother => hfirst other ((hmem other).2 hother)⟩
  · rw [Model.closest?_perm_iff (fun p hp => hS _ (hplaces p ((hmem p).1 hp)))
      (Model.nodup_candidates h.sound hd n rect dir tightness), hmem]
    exact and_congr_right fun _ => forall_congr' fun other => imp_congr_left (hmem other)

/-- Three rectangles below each other. -/
def column : List Rect := [⟨200, 0, 10, 10⟩, ⟨200, 10, 30, 10⟩, ⟨200, 30, 10, 10⟩]

/-- One window beside a column. -/
def besideColumn : Stage := scattered ((4, ⟨0, 0, 100, 1000⟩) :: [1, 2, 3].zip column)

/-- The reading order of a column is an order, and the topmost window is the neighbour. -/
theorem neighbour?_in_order_besideColumn :
    Rect.Ordered { rect | rect ∈ column } ∧
      ∀ l, l.Perm (besideColumn.model.candidates ⟨0⟩ (some ⟨2⟩) ⟨0, 0, 100, 1000⟩ .east .high) →
        Model.closest? ⟨0, 0, 100, 1000⟩ .east l = some (⟨1⟩, ⟨200, 0, 10, 10⟩) := by
  have hreachable : besideColumn.Reachable := reachable_scattered _
  have hd : besideColumn.model.desktop? ⟨0, 0⟩ =
      some ⟨2097154, "I", .tiled, some ⟨2⟩, some ⟨5⟩⟩ := by decide +kernel
  have hlocate : besideColumn.model.locate? ⟨0⟩ = some ⟨0, 0⟩ := by decide +kernel
  have hmem (place : NodeId × Rect) :
      besideColumn.model.Eligible ⟨0⟩ ⟨0, 0, 100, 1000⟩ .east .high place ↔
        place ∈ [(⟨1⟩ : NodeId), ⟨3⟩, ⟨5⟩].zip column := by
    have hcandidates :
        besideColumn.model.candidates ⟨0⟩ (some ⟨2⟩) ⟨0, 0, 100, 1000⟩ .east .high =
          [(⟨1⟩ : NodeId), ⟨3⟩, ⟨5⟩].zip column := by decide +kernel
    rw [← Model.mem_candidates_iff hreachable.sound hlocate hd, hcandidates]
  obtain ⟨-, hordered, hstage⟩ := neighbour?_in_order (S := { rect | rect ∈ column })
    (show ∀ rect ∈ column, rect.Solid by decide)
  obtain ⟨-, hany⟩ := hstage besideColumn ⟨0, 0⟩ _ ⟨0⟩ ⟨0, 0, 100, 1000⟩ .east .high hreachable
    hlocate hd (by decide +kernel) fun place hplace => (List.of_mem_zip ((hmem place).1 hplace)).2
  refine ⟨hordered.2 ?_, (hany _).2 ⟨?_, fun other hother hne => ?_⟩⟩
  · show ∀ a ∈ column, ∀ b ∈ column, ∀ c ∈ column, Rect.Straddles a b c →
      a.readingOrder b = .lt ∨ b.readingOrder c = .lt
    decide
  · rw [hmem]
    exact List.mem_cons_self
  · have hbefore : ∀ other ∈ [(⟨1⟩ : NodeId), ⟨3⟩, ⟨5⟩].zip column,
        other ≠ (⟨1⟩, ⟨200, 0, 10, 10⟩) →
          Model.closeness ⟨0, 0, 100, 1000⟩ .east ⟨200, 0, 10, 10⟩ other.2 = .lt := by decide
    exact hbefore other ((hmem other).1 hother) hne

/-- Which window is the neighbour of the first one to the east. -/
def eastOfFirst? (places : List (Window × Rect)) : Option Window :=
  let s := scattered places
  (s.model.neighbour? ⟨0⟩ .east .high).bind s.model.tree.window?

/-- Three rectangles each of which comes before the next one, and the last before the first;
three of which two and two are equal, but not the first and the last; and windows at the same
places in two orders, where not the same one is the neighbour. -/
theorem not_ordered_solid :
    ¬ Rect.Ordered { rect | rect.Solid } ∧
      (⟨200, 0, 10, 10⟩ : Rect).readingOrder ⟨200, 10, 30, 10⟩ = .lt ∧
      (⟨200, 10, 30, 10⟩ : Rect).readingOrder ⟨200, 5, 20, 10⟩ = .lt ∧
      (⟨200, 5, 20, 10⟩ : Rect).readingOrder ⟨200, 0, 10, 10⟩ = .lt ∧
      (⟨0, 0, 10, 10⟩ : Rect).readingOrder ⟨0, 5, 10, 10⟩ = .eq ∧
      (⟨0, 5, 10, 10⟩ : Rect).readingOrder ⟨0, 10, 10, 10⟩ = .eq ∧
      (⟨0, 0, 10, 10⟩ : Rect).readingOrder ⟨0, 10, 10, 10⟩ = .lt ∧
      eastOfFirst? [(4, ⟨0, 0, 100, 1000⟩), (1, ⟨200, 0, 10, 10⟩), (2, ⟨200, 10, 30, 10⟩),
        (3, ⟨200, 5, 20, 10⟩)] = some 3 ∧
      eastOfFirst? [(4, ⟨0, 0, 100, 1000⟩), (1, ⟨200, 0, 10, 10⟩), (3, ⟨200, 5, 20, 10⟩),
        (2, ⟨200, 10, 30, 10⟩)] = some 2 := by
  refine ⟨fun h => ?_, by decide, by decide, by decide, by decide, by decide, by decide,
    by decide +kernel, by decide +kernel⟩
  have hlt := h.lt_trans ⟨200, 0, 10, 10⟩ (by decide) ⟨200, 10, 30, 10⟩ (by decide)
    ⟨200, 5, 20, 10⟩ (by decide) (by decide) (by decide)
  exact absurd hlt (by decide)

/-- On a tiled desktop with nothing but tiled windows the neighbour comes before each other
window that lies against the edge, and is the same for any order of the windows. -/
theorem neighbour?_of_tiled {r : DesktopRef} {d : Desktop} {monitor : Monitor} (h : s.Reachable)
    (hmonitor : s.model.monitor? r = some monitor) (hfits : monitor.rect.Fits)
    (hd : s.model.desktop? r = some d) (htiled : d.layout = .tiled) (hlaid : s.model.Laid d)
    (hn : n ∈ s.model.tree.leaves d.root) {dir : Direction} {tightness : Tightness} {n' : NodeId}
    (hn' : s.model.neighbour? n dir tightness = some n') :
    ∃ rect rect', s.model.visibleRect? n = some rect ∧ s.model.visibleRect? n' = some rect' ∧
      (∀ other, s.model.Eligible n rect dir tightness other → other.1 ≠ n' →
        Model.closeness rect dir rect' other.2 = .lt) ∧
      ∀ places, places.Perm (s.model.candidates n d.root rect dir tightness) →
        Model.closest? rect dir places = some (n', rect') := by
  obtain ⟨hpieces, hlocate⟩ := h.pieces hmonitor hfits hd htiled hlaid hn
  obtain ⟨rect, -, hrect⟩ := hpieces.placed n hn
  rw [Model.neighbour?_eq hlocate hd hrect dir tightness] at hn'
  obtain ⟨place, hclosest, rfl⟩ := Option.map_eq_some_iff.1 hn'
  have hmem (p : NodeId × Rect) : p ∈ s.model.candidates n d.root rect dir tightness ↔
      s.model.Eligible n rect dir tightness p := Model.mem_candidates_iff h.sound hlocate hd
  have hplace := (Model.closest?_spec hclosest).1
  have hsolid (p : NodeId × Rect) (hp : p ∈ s.model.candidates n d.root rect dir tightness) :
      p.2.Solid := by
    obtain ⟨⟨hleaf, -⟩, hseen, -⟩ := (hpieces.mem_candidates hn hrect).1 hp
    exact (hpieces.within _ hleaf _ hseen).1
  refine ⟨rect, place.2, hrect, ((hmem place).1 hplace).seen, fun other hother hne => ?_, ?_⟩
  · exact hpieces.closest_before hn hrect hclosest ((hmem other).2 hother)
      fun heq => hne (congrArg Prod.fst heq)
  · have hnodup := Model.nodup_candidates h.sound hd n rect dir tightness
    exact (Model.closest?_perm_iff hsolid hnodup).2
      ⟨hplace, fun other hother hne => hpieces.closest_before hn hrect hclosest hother hne⟩

end Stage

end Tiling
