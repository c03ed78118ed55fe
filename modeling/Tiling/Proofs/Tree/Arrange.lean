import Tiling.Proofs.Tree.Forest
import Tiling.Tree.Arrange
/-!
# Arranging changes rectangles only
-/

namespace Tiling.Tree

theorem Forest.setRect {t : Tree} {shapes : List Shape} (h : t.Forest shapes) (n : NodeId)
    (r : Rect) : (t.modify n fun node => { node with rect := r }).Forest shapes :=
  h.modify n _ (fun _ => rfl) (fun _ => rfl) fun _ _ _ => rfl

theorem Forest.arrangeFrom {t : Tree} {shapes : List Shape} (h : t.Forest shapes)
    (layout : Layout) (fuel : Nat) (pending : List (NodeId × Rect)) :
    (Tree.arrangeFrom layout fuel t pending).1.Forest shapes := by
  fun_induction Tree.arrangeFrom layout fuel t pending with
  | case1 | case2 => exact h
  | case3 fuel t n r pending hget ih => exact ih h
  | case4 fuel t n r pending node hget first second hshare children t' placed hrest ih =>
    rw [hrest] at ih
    exact ih (h.setRect n r)

/-- What a node holds besides its rectangle is not touched. -/
theorem map_get?_arrangeFrom {β : Type} {g : Node → β}
    (hg : ∀ node r, g { node with rect := r } = g node) (layout : Layout) (fuel : Nat) (t : Tree)
    (pending : List (NodeId × Rect)) (m : NodeId) :
    ((arrangeFrom layout fuel t pending).1.get? m).map g = (t.get? m).map g := by
  fun_induction arrangeFrom layout fuel t pending with
  | case1 | case2 => rfl
  | case3 fuel t n r pending hget ih => exact ih
  | case4 fuel t n r pending node hget first second hshare children t' placed hrest ih =>
    rw [hrest] at ih
    rw [ih, get?_modify]
    split
    · rename_i heq
      rw [← heq, Option.map_map]
      exact congrArg (Option.map · (t.get? n)) (funext fun node => hg node r)
    · rfl

theorem Forest.arrange {t : Tree} {shapes : List Shape} (h : t.Forest shapes)
    (root : Option NodeId) (area : Rect) (layout : Layout) :
    (t.arrange root area layout).1.Forest shapes :=
  h.arrangeFrom layout _ _

theorem map_get?_arrange {β : Type} {g : Node → β}
    (hg : ∀ node r, g { node with rect := r } = g node) (t : Tree) (root : Option NodeId)
    (area : Rect) (layout : Layout) (m : NodeId) :
    ((t.arrange root area layout).1.get? m).map g = (t.get? m).map g :=
  map_get?_arrangeFrom hg layout _ t _ m

theorem client?_eq_join (t : Tree) (n : NodeId) :
    t.client? n = ((t.get? n).map Node.client).join := by
  rw [client?]
  cases t.get? n <;> rfl

theorem client?_arrange (t : Tree) (root : Option NodeId) (area : Rect) (layout : Layout)
    (m : NodeId) : (t.arrange root area layout).1.client? m = t.client? m := by
  rw [client?_eq_join, client?_eq_join, map_get?_arrange fun _ _ => rfl]

@[simp] theorem arrange_none (t : Tree) (area : Rect) (layout : Layout) :
    t.arrange none area layout = (t, []) := by
  unfold arrange
  cases t.visitBound <;> rfl

end Tiling.Tree
