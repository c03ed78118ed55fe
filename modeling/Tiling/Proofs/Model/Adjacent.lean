import Tiling.Proofs.Adjacency
import Tiling.Proofs.Model.Locality
/-!
# Neighbours of a tiled desktop

On a tiled desktop whose windows are all where the layout puts them, the neighbour of a window
lies against its edge, and there is one unless the edge is that of the monitor.
-/

namespace Tiling

open Tiling.Tree (Shape)

namespace Model

variable {m : Model} {d : Desktop} {shape : Shape} {area rect rect' : Rect} {n n' : NodeId}
  {dir : Direction} {tightness : Tightness} {place : NodeId × Rect}

/-- The layout places all windows of the desktop, and leaves none empty. -/
def Laid (m : Model) (d : Desktop) : Prop :=
  ∀ n ∈ m.tree.leaves d.root, ∃ w rect, m.tree.tenant? n = some (w, rect) ∧ rect.Solid

theorem visibleRect?_of_tenant {w : Window} (h : m.tree.tenant? n = some (w, rect)) :
    m.visibleRect? n = some rect := by
  obtain ⟨node, c, hnode, hc, htiled, -, rfl⟩ := Tree.exists_of_tenant h
  rw [visibleRect?_of_client hnode hc]
  cases hstate : c.state <;> simp_all [ClientState.isTiled]

/-- The windows of a desktop divide an area among them. -/
structure Pieces (m : Model) (d : Desktop) (area : Rect) : Prop where
  fits : area.Fits
  placed : ∀ n ∈ m.tree.leaves d.root, ∃ rect, m.tree.rect? n = some rect ∧
    m.visibleRect? n = some rect
  within : ∀ n ∈ m.tree.leaves d.root, ∀ rect, m.visibleRect? n = some rect →
    rect.Solid ∧ area.contains rect = true
  disjoint : ∀ n ∈ m.tree.leaves d.root, ∀ n' ∈ m.tree.leaves d.root, n' ≠ n → ∀ rect rect',
    m.visibleRect? n = some rect → m.visibleRect? n' = some rect' → rect.Disjoint rect'
  covered : ∀ p, area.covers p = true → ∃ n ∈ m.tree.leaves d.root, ∃ rect,
    m.visibleRect? n = some rect ∧ rect.covers p = true

namespace Pieces

theorem of_divided (h : m.tree.Divided shape area) (hfits : area.Fits)
    (hleaves : m.tree.leaves d.root = shape.leaves) (hlaid : m.Laid d) : m.Pieces d area := by
  have hplaced (n : NodeId) (hn : n ∈ m.tree.leaves d.root) : ∃ rect, m.tree.rect? n = some rect ∧
      m.visibleRect? n = some rect ∧ rect.Solid := by
    obtain ⟨w, rect, htenant, hsolid⟩ := hlaid n hn
    exact ⟨rect, Tree.rect?_of_tenant htenant, visibleRect?_of_tenant htenant, hsolid⟩
  have hsame {n : NodeId} (hn : n ∈ m.tree.leaves d.root) : m.visibleRect? n = m.tree.rect? n := by
    obtain ⟨rect, hrect, hvisible, -⟩ := hplaced n hn
    rw [hrect, hvisible]
  refine ⟨hfits, fun n hn => ?_, fun n hn rect hrect => ?_, fun n hn n' hn' hne rect rect' hrect
    hrect' => ?_, fun p hp => ?_⟩
  · obtain ⟨rect, hrect, hvisible, -⟩ := hplaced n hn
    exact ⟨rect, hrect, hvisible⟩
  · obtain ⟨rect', -, hvisible, hsolid⟩ := hplaced n hn
    obtain rfl := Option.some.inj (hvisible.symm.trans hrect)
    exact ⟨hsolid, h.contains (hleaves ▸ hn) (hsame hn ▸ hrect)⟩
  · exact h.disjoint (hleaves ▸ hn) (hleaves ▸ hn') hne.symm (hsame hn ▸ hrect) (hsame hn' ▸ hrect')
  · obtain ⟨n, ⟨hn, rect, hrect, hcovers⟩, -⟩ := h.exact p hp
    rw [← hleaves] at hn
    exact ⟨n, hn, rect, hsame hn ▸ hrect, hcovers⟩

theorem onSide_iff (h : m.Pieces d area) (hn : n ∈ m.tree.leaves d.root)
    (hrect : m.visibleRect? n = some rect) (hn' : n' ∈ m.tree.leaves d.root) (hne : n' ≠ n)
    (hrect' : m.visibleRect? n' = some rect') (tightness : Tightness) :
    rect.onSide rect' dir tightness = true ↔
      rect.Past rect' dir ∧ ∃ c, rect.spans dir c ∧ rect'.spans dir c :=
  Rect.onSide_iff (h.disjoint n hn n' hn' hne rect rect' hrect hrect') (h.within n hn rect hrect).1
    (h.within n' hn' rect' hrect').1 tightness

/-- The candidates are the other windows past the edge that have a part of it. -/
theorem mem_candidates (h : m.Pieces d area) (hn : n ∈ m.tree.leaves d.root)
    (hrect : m.visibleRect? n = some rect) :
    place ∈ m.candidates n d.root rect dir tightness ↔
      (place.1 ∈ m.tree.leaves d.root ∧ place.1 ≠ n) ∧ m.visibleRect? place.1 = some place.2 ∧
        rect.Past place.2 dir ∧ ∃ c, rect.spans dir c ∧ place.2.spans dir c := by
  rw [Model.mem_candidates]
  refine and_congr_right fun ⟨hmem, hne⟩ => and_congr_right fun hplace => ?_
  exact h.onSide_iff hn hrect hmem hne hplace tightness

/-- Both degrees of tightness have the same candidates. -/
theorem candidates_high (h : m.Pieces d area) (hn : n ∈ m.tree.leaves d.root)
    (hrect : m.visibleRect? n = some rect) :
    m.candidates n d.root rect dir .high = m.candidates n d.root rect dir .low := by
  refine List.filterMap_congr fun n' hn' => ?_
  rw [List.mem_filter, bne_iff_ne] at hn'
  obtain ⟨hmem, hne⟩ := hn'
  cases hplace : m.visibleRect? n' with
  | none => rfl
  | some rect' =>
    have hsame : rect.onSide rect' dir .high = rect.onSide rect' dir .low := by
      rw [Bool.eq_iff_iff, h.onSide_iff hn hrect hmem hne hplace,
        h.onSide_iff hn hrect hmem hne hplace]
    rw [Option.filter_some, Option.filter_some, hsame]

/-- Next to an edge within the area there is a window. -/
theorem exists_close (h : m.Pieces d area) (hn : n ∈ m.tree.leaves d.root)
    (hrect : m.visibleRect? n = some rect) (hne : rect.edge dir ≠ area.edge dir)
    (tightness : Tightness) :
    ∃ place ∈ m.candidates n d.root rect dir tightness, rect.edgeDistance place.2 dir ≤ 1 := by
  obtain ⟨hsolid, hcontains⟩ := h.within n hn rect hrect
  obtain ⟨p, hp, hacross⟩ := Rect.exists_across h.fits hcontains hsolid hne
  obtain ⟨n', hn', rect', hrect', hcovers⟩ := h.covered p hp
  have hother : n' ≠ n := by
    rintro rfl
    obtain rfl := Option.some.inj (hrect'.symm.trans hrect)
    rw [hacross.covers] at hcovers
    cases hcovers
  obtain ⟨hpast, hdistance, hshared⟩ := hacross.reaches
    (h.disjoint n hn n' hn' hother _ _ hrect hrect') hsolid (h.within n' hn' rect' hrect').1 hcovers
  exact ⟨(n', rect'), (h.mem_candidates hn hrect).2 ⟨⟨hn', hother⟩, hrect', hpast, hshared⟩,
    hdistance⟩

theorem candidates_eq_nil_iff (h : m.Pieces d area) (hn : n ∈ m.tree.leaves d.root)
    (hrect : m.visibleRect? n = some rect) :
    m.candidates n d.root rect dir tightness = [] ↔ rect.edge dir = area.edge dir := by
  constructor
  · intro hnil
    refine Decidable.byContradiction fun hne => ?_
    obtain ⟨place, hplace, -⟩ := h.exists_close hn hrect hne tightness
    rw [hnil] at hplace
    cases hplace
  · intro hedge
    refine List.eq_nil_iff_forall_not_mem.2 fun place hplace => ?_
    obtain ⟨⟨hmem, -⟩, hvisible, hpast, -⟩ := (h.mem_candidates hn hrect).1 hplace
    obtain ⟨hsolid, hcontains⟩ := h.within _ hmem _ hvisible
    exact hpast.edge_ne hsolid hcontains hedge

/-- The closest candidate lies against the edge. -/
theorem adjoins_of_closest (h : m.Pieces d area) (hn : n ∈ m.tree.leaves d.root)
    (hrect : m.visibleRect? n = some rect)
    (hclosest : closest? rect dir (m.candidates n d.root rect dir tightness) = some place) :
    place.1 ∈ m.tree.leaves d.root ∧ place.1 ≠ n ∧ m.visibleRect? place.1 = some place.2 ∧
      rect.Adjoins place.2 dir := by
  obtain ⟨hmem, hle⟩ := closest?_spec hclosest
  have hne : rect.edge dir ≠ area.edge dir := fun hedge => by
    rw [(h.candidates_eq_nil_iff hn hrect).2 hedge] at hmem
    cases hmem
  obtain ⟨other, hother, hdistance⟩ := h.exists_close hn hrect hne tightness
  obtain ⟨⟨hleaf, hnew⟩, hvisible, hpast, hshared⟩ := (h.mem_candidates hn hrect).1 hmem
  have hclose := Nat.le_trans (hle other hother) hdistance
  exact ⟨hleaf, hnew, hvisible, Nat.le_antisymm hclose hpast.le_edgeDistance, hpast.edge_eq hclose,
    hshared⟩

end Pieces

end Model

namespace Stage

variable {s : Stage} {r : DesktopRef} {d : Desktop} {monitor : Monitor} {n : NodeId}

theorem Reachable.pieces (h : s.Reachable) (hmonitor : s.model.monitor? r = some monitor)
    (hfits : monitor.rect.Fits) (hd : s.model.desktop? r = some d) (htiled : d.layout = .tiled)
    (hlaid : s.model.Laid d) (hn : n ∈ s.model.tree.leaves d.root) :
    s.model.Pieces d monitor.rect ∧ s.model.locate? n = some r := by
  have hne : d.root ≠ none := by
    intro hnone
    rw [hnone] at hn
    cases hn
  obtain ⟨shape, hbears⟩ := exists_bears h.sound hmonitor hd hne
  rw [htiled] at hbears
  have hleaves := hbears.leaves_eq h.sound
  rw [Model.root?, hd, Option.bind_some] at hleaves
  have hdivided := Tree.divided_of_rects hbears.shape (hbears.nodup h.sound) hfits
    (hbears.rect?_eq (h.settled r))
  rw [hleaves] at hn
  exact ⟨.of_divided hdivided hfits hleaves hlaid,
    hbears.locate?_eq h.sound (Shape.mem_preorder_of_mem_leaves hn)⟩

/-- On a tiled desktop with nothing but tiled windows, the neighbour of a window lies against
its edge, and there is none only if this is the edge of the monitor, however tight the side is
taken. -/
theorem neighbour?_adjoins (h : s.Reachable) (hmonitor : s.model.monitor? r = some monitor)
    (hfits : monitor.rect.Fits) (hd : s.model.desktop? r = some d) (htiled : d.layout = .tiled)
    (hlaid : s.model.Laid d) (hn : n ∈ s.model.tree.leaves d.root) (dir : Direction) :
    ∃ rect, s.model.tree.rect? n = some rect ∧
      (∀ tightness,
        (s.model.neighbour? n dir tightness = none ↔ rect.edge dir = monitor.rect.edge dir) ∧
        ∀ n', s.model.neighbour? n dir tightness = some n' →
          n' ∈ s.model.tree.leaves d.root ∧ n' ≠ n ∧
          ∃ rect', s.model.tree.rect? n' = some rect' ∧ rect.Adjoins rect' dir) ∧
      s.model.neighbour? n dir .high = s.model.neighbour? n dir .low := by
  obtain ⟨hpieces, hlocate⟩ := h.pieces hmonitor hfits hd htiled hlaid hn
  obtain ⟨rect, hrect, hvisible⟩ := hpieces.placed n hn
  have heq := Model.neighbour?_eq hlocate hd hvisible dir
  refine ⟨rect, hrect, fun tightness => ⟨?_, fun n' hn' => ?_⟩, ?_⟩
  · rw [heq, Option.map_eq_none_iff, Model.closest?_eq_none,
      hpieces.candidates_eq_nil_iff hn hvisible]
  · rw [heq] at hn'
    obtain ⟨place, hclosest, rfl⟩ := Option.map_eq_some_iff.1 hn'
    obtain ⟨hleaf, hnew, hvisible', hadjoins⟩ :=
      hpieces.adjoins_of_closest hn hvisible hclosest
    obtain ⟨rect', hrect', heq'⟩ := hpieces.placed _ hleaf
    obtain rfl := Option.some.inj (heq'.symm.trans hvisible')
    exact ⟨hleaf, hnew, _, hrect', hadjoins⟩
  · rw [heq, heq, hpieces.candidates_high hn hvisible]

/-- One window beside two of which one is above the other. -/
def besideTwo : Stage :=
  (fresh [("screen0", ⟨0, 0, 1920, 1080⟩)] ["I", "II"] .standard (.counting 16777217 1 1)).run
    [.manage 1 .unknown .standard, .manage 2 .unknown .standard, .manage 3 .unknown .standard]

/-- The lower one has nothing below and the one that is alone to its left. -/
theorem neighbour?_adjoins_besideTwo :
    besideTwo.model.neighbour? ⟨3⟩ .south .high = none ∧
      besideTwo.model.neighbour? ⟨3⟩ .west .high = some ⟨0⟩ ∧
      (⟨960, 540, 960, 540⟩ : Rect).Adjoins ⟨0, 0, 960, 1080⟩ .west := by
  have hreachable : besideTwo.Reachable := ⟨_, _, _, _, [], _, rfl⟩
  obtain ⟨monitor, hmonitor, harea⟩ := Option.map_eq_some_iff.1
    (show (besideTwo.model.monitor? ⟨0, 0⟩).map Monitor.rect = some ⟨0, 0, 1920, 1080⟩ by
      decide +kernel)
  have hd : besideTwo.model.desktop? ⟨0, 0⟩ =
      some ⟨2097154, "I", .tiled, some ⟨2⟩, some ⟨3⟩⟩ := by decide +kernel
  have hleaves : besideTwo.model.tree.leaves (some ⟨2⟩) = [⟨0⟩, ⟨1⟩, ⟨3⟩] := by decide +kernel
  have hlaid : besideTwo.model.Laid ⟨2097154, "I", .tiled, some ⟨2⟩, some ⟨3⟩⟩ := by
    rw [Model.Laid, hleaves, List.forall_mem_cons, List.forall_mem_cons, List.forall_mem_singleton]
    exact ⟨⟨1, ⟨0, 0, 960, 1080⟩, by decide +kernel⟩, ⟨2, ⟨960, 0, 960, 540⟩, by decide +kernel⟩,
      3, ⟨960, 540, 960, 540⟩, by decide +kernel⟩
  have hall := neighbour?_adjoins hreachable hmonitor (harea ▸ by decide) hd rfl hlaid
    (n := ⟨3⟩) (by rw [hleaves]; decide)
  have hrect : besideTwo.model.tree.rect? ⟨3⟩ = some ⟨960, 540, 960, 540⟩ := by decide +kernel
  have hwest : besideTwo.model.neighbour? ⟨3⟩ .west .high = some ⟨0⟩ := by decide +kernel
  refine ⟨?_, hwest, ?_⟩
  · obtain ⟨rect, hplaced, hsides, -⟩ := hall .south
    obtain rfl := Option.some.inj (hrect.symm.trans hplaced)
    exact (hsides .high).1.2 (harea ▸ by decide)
  · obtain ⟨rect, hplaced, hsides, -⟩ := hall .west
    obtain rfl := Option.some.inj (hrect.symm.trans hplaced)
    obtain ⟨-, -, rect', hplaced', hadjoins⟩ := (hsides .high).2 _ hwest
    have halone : besideTwo.model.tree.rect? ⟨0⟩ = some ⟨0, 0, 960, 1080⟩ := by decide +kernel
    exact Option.some.inj (hplaced'.symm.trans halone) ▸ hadjoins

end Stage

end Tiling
