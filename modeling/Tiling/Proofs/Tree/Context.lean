import Tiling.Proofs.Tree.Shape
import Tiling.Tree.Edit
/-!
# Shapes with a hole

An edit replaces one part of a tree and leaves the rest alone.  The rest is a list of frames from
the hole up to the root; putting a shape into the hole gives the shape of the whole tree.
-/

namespace Tiling.Tree

/-- An inner node of which one child is left open, with the shape of the other child. -/
inductive Frame where
  | first (node : NodeId) (second : Shape)
  | second (node : NodeId) (first : Shape)

namespace Frame

/-- The inner node. -/
def node : Frame → NodeId
  | first n _ => n
  | second n _ => n

/-- The shape of the child that is given. -/
def sibling : Frame → Shape
  | first _ b => b
  | second _ a => a

/-- The shape with the open child filled in. -/
def fill : Frame → Shape → Shape
  | first n b, s => .fork n s b
  | second n a, s => .fork n a s

/-- Leaves to the left of the open child. -/
def before : Frame → List NodeId
  | first _ _ => []
  | second _ a => a.leaves

/-- Leaves to the right of the open child. -/
def after : Frame → List NodeId
  | first _ b => b.leaves
  | second _ _ => []

/-- All nodes of the frame. -/
def nodes (f : Frame) : List NodeId := f.node :: f.sibling.preorder

/-- The children of the inner node when the open one is `n`. -/
def children (f : Frame) (n : NodeId) : Option NodeId × Option NodeId :=
  match f with
  | first _ b => (some n, some b.top)
  | second _ a => (some a.top, some n)

@[simp] theorem top_fill (f : Frame) (s : Shape) : (f.fill s).top = f.node := by
  cases f <;> rfl

theorem leaves_fill (f : Frame) (s : Shape) :
    (f.fill s).leaves = f.before ++ s.leaves ++ f.after := by
  cases f <;> simp [fill, before, after]

theorem leaves_sibling (f : Frame) : f.sibling.leaves = f.before ++ f.after := by
  cases f <;> simp [before, after, sibling]

theorem mem_leaves_sibling (f : Frame) {n : NodeId} :
    n ∈ f.sibling.leaves ↔ n ∈ f.before ∨ n ∈ f.after := by
  rw [leaves_sibling, List.mem_append]

theorem mem_leaves_fill (f : Frame) {s : Shape} {n : NodeId} :
    n ∈ (f.fill s).leaves ↔ n ∈ s.leaves ∨ n ∈ f.sibling.leaves := by
  cases f with
  | first m b => rw [fill, Shape.leaves_fork, List.mem_append, sibling]
  | second m a => rw [fill, Shape.leaves_fork, List.mem_append, sibling, or_comm]

theorem mem_inner_fill {f : Frame} {s : Shape} {n : NodeId} :
    n ∈ (f.fill s).inner ↔ n = f.node ∨ n ∈ f.sibling.inner ∨ n ∈ s.inner := by
  cases f with
  | first m b => simp only [fill, Shape.inner_fork, List.mem_cons, List.mem_append, node,
      sibling, or_comm]
  | second m a => simp only [fill, Shape.inner_fork, List.mem_cons, List.mem_append, node,
      sibling]

theorem preorder_fill (f : Frame) (s : Shape) :
    (f.fill s).preorder.Perm (s.preorder ++ f.nodes) := by
  cases f with
  | first n b => exact List.perm_middle.symm
  | second n a =>
    calc n :: (a.preorder ++ s.preorder)
        |>.Perm (n :: (s.preorder ++ a.preorder)) := List.perm_append_comm.cons n
      _ |>.Perm (s.preorder ++ n :: a.preorder) := List.perm_middle.symm

end Frame

/-- Fills the hole of a list of frames, the innermost first. -/
def plug : List Frame → Shape → Shape
  | [], s => s
  | f :: frames, s => plug frames (f.fill s)

/-- The node above the hole. -/
def above (frames : List Frame) : Option NodeId := frames.head?.map Frame.node

/-- All nodes outside the hole. -/
def outside (frames : List Frame) : List NodeId := frames.flatMap Frame.nodes

/-- Nodes with children outside the hole. -/
def innerOutside : List Frame → List NodeId
  | [] => []
  | f :: frames => f.node :: (f.sibling.inner ++ innerOutside frames)

/-- Leaves to the left of the hole. -/
def leavesBefore : List Frame → List NodeId
  | [] => []
  | f :: frames => leavesBefore frames ++ f.before

/-- Leaves to the right of the hole. -/
def leavesAfter : List Frame → List NodeId
  | [] => []
  | f :: frames => f.after ++ leavesAfter frames

theorem leaves_plug (frames : List Frame) (s : Shape) :
    (plug frames s).leaves = leavesBefore frames ++ s.leaves ++ leavesAfter frames := by
  induction frames generalizing s with
  | nil => simp [plug, leavesBefore, leavesAfter]
  | cons f frames ih =>
    rw [plug, ih, Frame.leaves_fill]
    simp [leavesBefore, leavesAfter]

theorem preorder_plug (frames : List Frame) (s : Shape) :
    (plug frames s).preorder.Perm (s.preorder ++ outside frames) := by
  induction frames generalizing s with
  | nil => simp [plug, outside]
  | cons f frames ih =>
    rw [plug]
    calc (plug frames (f.fill s)).preorder
        |>.Perm ((f.fill s).preorder ++ outside frames) := ih _
      _ |>.Perm (s.preorder ++ f.nodes ++ outside frames) := (f.preorder_fill s).append_right _
      _ |>.Perm (s.preorder ++ outside (f :: frames)) := by
        rw [outside, outside, List.flatMap_cons, List.append_assoc]

theorem mem_leaves_plug {frames : List Frame} {s : Shape} {n : NodeId} :
    n ∈ (plug frames s).leaves ↔
      n ∈ s.leaves ∨ n ∈ leavesBefore frames ∨ n ∈ leavesAfter frames := by
  rw [leaves_plug]
  simp only [List.mem_append]
  tauto

theorem mem_inner_plug {frames : List Frame} {s : Shape} {n : NodeId} :
    n ∈ (plug frames s).inner ↔ n ∈ s.inner ∨ n ∈ innerOutside frames := by
  induction frames generalizing s with
  | nil => simp [plug, innerOutside]
  | cons f frames ih =>
    rw [plug, ih, Frame.mem_inner_fill]
    simp only [innerOutside, List.mem_cons, List.mem_append]
    tauto

theorem mem_outside_iff {frames : List Frame} {n : NodeId} :
    n ∈ outside frames ↔
      (n ∈ leavesBefore frames ∨ n ∈ leavesAfter frames) ∨ n ∈ innerOutside frames := by
  induction frames with
  | nil => simp [outside, leavesBefore, leavesAfter, innerOutside]
  | cons f frames ih =>
    simp only [outside, List.flatMap_cons, List.mem_append] at ih ⊢
    rw [ih, Frame.nodes, List.mem_cons, Shape.mem_preorder_iff, f.mem_leaves_sibling]
    simp only [leavesBefore, leavesAfter, innerOutside, List.mem_cons, List.mem_append]
    grind

theorem top_plug_cons (f : Frame) (frames : List Frame) (s s' : Shape) :
    (plug (f :: frames) s).top = (plug (f :: frames) s').top := by
  induction frames generalizing f s s' with
  | nil => simp [plug]
  | cons g frames ih => exact ih g (f.fill s) (f.fill s')

/-- The root of a tree after another shape has been put into the hole. -/
theorem root_plug (frames : List Frame) (s s' : Shape) :
    (if frames = [] then some s'.top else some (plug frames s).top) =
      some (plug frames s').top := by
  cases frames with
  | nil => rfl
  | cons f frames => rw [if_neg (List.cons_ne_nil f frames), top_plug_cons f frames s s']

/-- Every leaf of a shape stands in a hole of it. -/
theorem exists_plug_leaf {s : Shape} {n : NodeId} (hn : n ∈ s.leaves) :
    ∃ frames, s = plug frames (.leaf n) := by
  suffices hgen : ∀ frames : List Frame, ∃ frames', plug frames s = plug frames' (.leaf n) by
    exact hgen []
  induction s with
  | leaf m =>
    obtain rfl : n = m := by simpa using hn
    exact fun frames => ⟨frames, rfl⟩
  | fork m a b iha ihb =>
    intro frames
    rcases List.mem_append.1 hn with hn | hn
    · exact iha hn (.first m b :: frames)
    · exact ihb hn (.second m a :: frames)

/-! ## Links around the hole -/

/-- The links of the frames lead from the hole, which holds the node `n`, up to a root. -/
def Surrounds (t : Tree) (n : NodeId) : List Frame → Prop
  | [] => True
  | f :: frames =>
    t.links? f.node = some (above frames, f.children n) ∧ HasShape t (some f.node) f.sibling ∧
      Surrounds t f.node frames

theorem hasShape_fill {t : Tree} {parent : Option NodeId} {f : Frame} {s : Shape} :
    HasShape t parent (f.fill s) ↔
      t.links? f.node = some (parent, f.children s.top) ∧ HasShape t (some f.node) f.sibling ∧
        HasShape t (some f.node) s := by
  cases f with
  | first n b =>
    rw [Frame.fill, hasShape_fork]
    exact and_congr_right fun _ => and_comm
  | second n a => exact hasShape_fork

theorem hasShape_plug {t : Tree} {frames : List Frame} {s : Shape} :
    HasShape t none (plug frames s) ↔
      Surrounds t s.top frames ∧ HasShape t (above frames) s := by
  induction frames generalizing s with
  | nil => simp [plug, Surrounds, above]
  | cons f frames ih =>
    rw [plug, ih, hasShape_fill, Frame.top_fill]
    simp only [Surrounds, above, List.head?_cons, Option.map_some]
    tauto

theorem Surrounds.congr {t t' : Tree} {n : NodeId} {frames : List Frame}
    (h : Surrounds t n frames) (hlinks : ∀ m ∈ outside frames, t'.links? m = t.links? m) :
    Surrounds t' n frames := by
  induction frames generalizing n with
  | nil => trivial
  | cons f frames ih =>
    obtain ⟨hnode, hsibling, hrest⟩ := h
    have hf : ∀ m ∈ f.nodes, t'.links? m = t.links? m :=
      fun m hm => hlinks m (List.mem_append_left _ hm)
    refine ⟨?_, hsibling.congr fun m hm => hf m (List.mem_cons_of_mem _ hm), ?_⟩
    · rw [hf _ List.mem_cons_self, hnode]
    · exact ih hrest fun m hm => hlinks m (List.mem_append_right _ hm)

end Tiling.Tree
