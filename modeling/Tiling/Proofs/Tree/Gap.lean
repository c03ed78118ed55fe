import Tiling.Proofs.Tree.Contents
import Tiling.Proofs.Tree.Rects
/-!
# Rectangles around a hole

What a tree shares out outside a hole, and the rectangle that is left for the hole, do not
depend on what is put into it.  So an edit in one place leaves all other rectangles alone.
-/

namespace Tiling.Tree

variable {layout : Layout} {area r : Rect} {frames : List Frame} {s s' : Shape} {n : NodeId}
  {place : NodeId × Rect}

namespace Frame

/-- The share of the open child. -/
def share (layout : Layout) : Frame → Rect → Rect
  | first _ _, r => (layout.share r).1
  | second _ _, r => (layout.share r).2

/-- The share of the child that is given. -/
def siblingShare (layout : Layout) : Frame → Rect → Rect
  | first _ _, r => (layout.share r).2
  | second _ _, r => (layout.share r).1

/-- The rectangles of all nodes of the frame. -/
def rects (layout : Layout) (f : Frame) (r : Rect) : List (NodeId × Rect) :=
  (f.node, r) :: f.sibling.rects layout (f.siblingShare layout r)

theorem mem_rects_fill {f : Frame} : place ∈ (f.fill s).rects layout r ↔
    place ∈ s.rects layout (f.share layout r) ∨ place ∈ f.rects layout r := by
  cases f with
  | first m b =>
    simp only [fill, Shape.rects, rects, share, siblingShare, node, sibling, List.mem_cons,
      List.mem_append]
    tauto
  | second m a =>
    simp only [fill, Shape.rects, rects, share, siblingShare, node, sibling, List.mem_cons,
      List.mem_append]
    tauto

end Frame

/-- The rectangle of the hole. -/
def gap (layout : Layout) : List Frame → Rect → Rect
  | [], area => area
  | f :: frames, area => f.share layout (gap layout frames area)

/-- The rectangles of all nodes outside the hole. -/
def rectsOutside (layout : Layout) : List Frame → Rect → List (NodeId × Rect)
  | [], _ => []
  | f :: frames, area => f.rects layout (gap layout frames area) ++ rectsOutside layout frames area

theorem mem_rects_plug : place ∈ (plug frames s).rects layout area ↔
    place ∈ s.rects layout (gap layout frames area) ∨
      place ∈ rectsOutside layout frames area := by
  induction frames generalizing s with
  | nil => simp [plug, gap, rectsOutside]
  | cons f frames ih =>
    rw [plug, ih, Frame.mem_rects_fill, gap, rectsOutside, List.mem_append, or_assoc]

/-- A node outside the hole keeps its rectangle. -/
theorem mem_rects_plug_of_not_mem (hn : n ∉ s.preorder)
    (h : (n, r) ∈ (plug frames s).rects layout area) :
    (n, r) ∈ (plug frames s').rects layout area := by
  rcases mem_rects_plug.1 h with h | h
  · exact absurd (Shape.mem_of_mem_rects h) hn
  · exact mem_rects_plug.2 (.inr h)

/-- A split leaf has its rectangle split. -/
theorem mem_rects_pair (joint old fresh : NodeId) (newFirst : Bool) (r : Rect) :
    (fresh, if newFirst then r.split.1 else r.split.2) ∈
        (pair joint old fresh newFirst).rects .tiled r ∧
      (old, if newFirst then r.split.2 else r.split.1) ∈
        (pair joint old fresh newFirst).rects .tiled r := by
  cases newFirst <;> simp [pair, Shape.rects, Layout.share]

/-- Leaves outside the hole do not depend on what is put into it. -/
theorem leaves_plug_perm (frames : List Frame) (s : Shape) :
    (plug frames s).leaves.Perm (s.leaves ++ (leavesBefore frames ++ leavesAfter frames)) := by
  rw [leaves_plug, ← List.append_assoc]
  exact List.perm_append_comm.append_right _

/-- A split leaf adds one leaf. -/
theorem leaves_plug_pair (frames : List Frame) (joint old fresh : NodeId) (newFirst : Bool) :
    (plug frames (pair joint old fresh newFirst)).leaves.Perm
      (fresh :: (plug frames (.leaf old)).leaves) := by
  have hpair : (pair joint old fresh newFirst).leaves.Perm [fresh, old] := by
    cases newFirst with
    | false => exact .swap fresh old []
    | true => exact .refl _
  calc (plug frames (pair joint old fresh newFirst)).leaves
      |>.Perm ([fresh, old] ++ (leavesBefore frames ++ leavesAfter frames)) :=
        (leaves_plug_perm frames _).trans (hpair.append_right _)
    _ |>.Perm (fresh :: (plug frames (.leaf old)).leaves) :=
        ((leaves_plug_perm frames (.leaf old)).symm).cons fresh

/-- A leaf that goes is the only one to go. -/
theorem leaves_plug_sibling (f : Frame) (frames : List Frame) (n : NodeId) :
    (plug (f :: frames) (.leaf n)).leaves.Perm (n :: (plug frames f.sibling).leaves) := by
  have hfill : (f.fill (.leaf n)).leaves.Perm (n :: f.sibling.leaves) := by
    rw [f.leaves_fill, f.leaves_sibling, List.append_assoc]
    exact List.perm_middle
  calc (plug (f :: frames) (.leaf n)).leaves
      |>.Perm (n :: f.sibling.leaves ++ (leavesBefore frames ++ leavesAfter frames)) :=
        (leaves_plug_perm frames _).trans (hfill.append_right _)
    _ |>.Perm (n :: (plug frames f.sibling).leaves) :=
        ((leaves_plug_perm frames f.sibling).symm).cons n

/-- The node above a hole has the room of the hole and of what is beside it. -/
theorem mem_rects_node (f : Frame) :
    (f.node, gap layout frames area) ∈ (plug (f :: frames) s).rects layout area :=
  mem_rects_plug.2 (.inr (List.mem_append_left _ List.mem_cons_self))

/-- A leaf is not below its sibling. -/
theorem nodup_sibling {f : Frame} (hnodup : (plug (f :: frames) (.leaf n)).preorder.Nodup) :
    f.sibling.preorder.Nodup ∧ n ∉ f.sibling.preorder := by
  rw [(preorder_plug (f :: frames) (.leaf n)).nodup_iff] at hnodup
  simp only [Shape.preorder_leaf, outside, List.flatMap_cons, Frame.nodes, List.cons_append,
    List.nil_append, List.nodup_cons, List.nodup_append, List.mem_cons, List.mem_append,
    not_or] at hnodup
  exact ⟨hnodup.2.2.1, hnodup.1.2.1⟩

/-- A leaf that is neither the removed one nor below its sibling is outside their parent. -/
theorem not_mem_fill {f : Frame} {m : NodeId}
    (hnodup : (plug (f :: frames) (.leaf n)).preorder.Nodup)
    (hm : m ∈ (plug (f :: frames) (.leaf n)).leaves) (hne : m ≠ n) (hout : m ∉ f.sibling.preorder) :
    m ∉ (f.fill (.leaf n)).preorder := by
  rw [plug] at hm hnodup
  have hfar : m ∉ (f.fill (.leaf n)).leaves := by
    rw [f.mem_leaves_fill, Shape.leaves_leaf, List.mem_singleton, not_or]
    exact ⟨hne, fun hsibling => hout (Shape.mem_preorder_of_mem_leaves hsibling)⟩
  have hmem : m ∈ outside frames :=
    mem_outside_iff.2 (.inl ((mem_leaves_plug.1 hm).resolve_left hfar))
  rw [(preorder_plug frames _).nodup_iff, List.nodup_append] at hnodup
  exact fun hin => hnodup.2.2 m hin m hmem rfl

/-! ## Children -/

/-- The children of `p`, the parent of `n`, are `n` and `q`. -/
def Siblings (t : Tree) (p n q : NodeId) : Prop :=
  t.parent? n = some p ∧
    ∃ up, t.links? p = some (up, some n, some q) ∨ t.links? p = some (up, some q, some n)

theorem siblings_iff {t : Tree} {f : Frame} {p q : NodeId}
    (h : HasShape t none (plug (f :: frames) (.leaf n))) (hn : n ∉ f.sibling.preorder) :
    t.Siblings p n q ↔ p = f.node ∧ q = f.sibling.top := by
  obtain ⟨⟨hlinks, -, -⟩, hleaf⟩ := hasShape_plug.1 h
  have hparent : t.parent? n = some f.node := parent?_of_links? (hasShape_leaf.1 hleaf)
  have htop : f.sibling.top ≠ n := fun heq => hn (heq ▸ f.sibling.top_mem_preorder)
  constructor
  · rintro ⟨hp, up, hchildren⟩
    obtain rfl : f.node = p := Option.some.inj (hparent.symm.trans hp)
    refine ⟨rfl, ?_⟩
    rw [hlinks] at hchildren
    cases f with
    | first m b =>
      simp only [Frame.children, Option.some.injEq, Prod.mk.injEq] at hchildren
      rcases hchildren with ⟨-, -, hq⟩ | ⟨-, -, hb⟩
      · exact hq.symm
      · exact absurd hb htop
    | second m a =>
      simp only [Frame.children, Option.some.injEq, Prod.mk.injEq] at hchildren
      rcases hchildren with ⟨-, ha, -⟩ | ⟨-, hq, -⟩
      · exact absurd ha htop
      · exact hq.symm
  · rintro ⟨rfl, rfl⟩
    refine ⟨hparent, above frames, ?_⟩
    rw [hlinks]
    cases f with
    | first m b => exact .inl rfl
    | second m a => exact .inr rfl

end Tiling.Tree
