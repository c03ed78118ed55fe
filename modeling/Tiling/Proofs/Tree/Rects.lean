import Tiling.Proofs.Tree.Arrange
/-!
# The rectangles of a tree

Arranging a tree gives every node the rectangle that its shape shares out for it, and lists the
tiled windows with theirs.  Nodes outside the tree are left alone, and arranging again changes
nothing.
-/

namespace Tiling

theorem Slots.modify_eq_self {α : Type} {s : Slots α} {i : Nat} {f : α → α}
    (h : ∀ a, s.get? i = some a → f a = a) : s.modify i f = s := by
  unfold Slots.modify
  cases hget : s.get? i with
  | none => rfl
  | some a =>
    have hset : s.cells.setIfInBounds i (some a) = s.cells := by
      have hcell : s.cells[i]? = some (some a) := by
        rw [Slots.get?] at hget
        exact Option.join_eq_some_iff.1 hget
      obtain ⟨hlt, hvalue⟩ := Array.getElem?_eq_some_iff.1 hcell
      rw [Array.setIfInBounds_def, dif_pos hlt, ← hvalue, Array.set_getElem_self]
    show (⟨s.cells.setIfInBounds i (some (f a)), s.free⟩ : Slots α) = s
    rw [h a hget, hset]

namespace Tree

/-! ## Writing rectangles -/

def rect? (t : Tree) (n : NodeId) : Option Rect := (t.get? n).map Node.rect

/-- Writes a rectangle down in each of some nodes. -/
def assign (t : Tree) (rects : List (NodeId × Rect)) : Tree :=
  rects.foldl (fun t place => t.modify place.1 fun node => { node with rect := place.2 }) t

theorem map_get?_assign {β : Type} {g : Node → β}
    (hg : ∀ node r, g { node with rect := r } = g node) (t : Tree)
    (rects : List (NodeId × Rect)) (m : NodeId) :
    ((t.assign rects).get? m).map g = (t.get? m).map g := by
  induction rects generalizing t with
  | nil => rfl
  | cons place rects ih =>
    refine (ih _).trans ?_
    rw [get?_modify]
    split
    · rename_i heq
      rw [← heq, Option.map_map]
      exact congrArg (Option.map · (t.get? place.1)) (funext fun node => hg node place.2)
    · rfl

theorem client?_assign (t : Tree) (rects : List (NodeId × Rect)) (n : NodeId) :
    (t.assign rects).client? n = t.client? n := by
  rw [client?_eq_join, client?_eq_join, map_get?_assign fun _ _ => rfl]

theorem get?_assign_other (t : Tree) {rects : List (NodeId × Rect)} {m : NodeId}
    (hm : m ∉ rects.map Prod.fst) : (t.assign rects).get? m = t.get? m := by
  induction rects generalizing t with
  | nil => rfl
  | cons place rects ih =>
    rw [List.map_cons, List.mem_cons, not_or] at hm
    refine (ih _ hm.2).trans ?_
    rw [get?_modify, if_neg (Ne.symm hm.1)]

/-- The rectangle of a node, if there is one. -/
theorem rect_assign (t : Tree) {rects : List (NodeId × Rect)} (hnodup : (rects.map Prod.fst).Nodup)
    {n : NodeId} {r : Rect} (h : (n, r) ∈ rects) :
    ((t.assign rects).get? n).map Node.rect = (t.get? n).map fun _ => r := by
  induction rects generalizing t with
  | nil => cases h
  | cons place rects ih =>
    obtain ⟨hplace, hnodup⟩ := List.nodup_cons.1 hnodup
    rcases List.mem_cons.1 h with rfl | h
    · have hget := get?_assign_other (t.modify n fun node => { node with rect := r }) hplace
      have hstep : (t.assign ((n, r) :: rects)).get? n =
          (t.modify n fun node => { node with rect := r }).get? n := hget
      rw [hstep, get?_modify, if_pos rfl, Option.map_map]
      rfl
    · refine (ih _ hnodup h).trans ?_
      rw [get?_modify]
      split
      · rw [Option.map_map]
        rename_i heq
        rw [heq]
        rfl
      · rfl

theorem assign_eq_self {t : Tree} {rects : List (NodeId × Rect)}
    (h : ∀ place ∈ rects, (t.get? place.1).map Node.rect = some place.2) : t.assign rects = t := by
  induction rects with
  | nil => rfl
  | cons place rects ih =>
    have hsame : (t.modify place.1 fun node => { node with rect := place.2 }) = t := by
      refine congrArg Tree.mk (Slots.modify_eq_self fun node hnode => ?_)
      have hrect := h place List.mem_cons_self
      have hget : t.get? place.1 = some node := hnode
      rw [hget, Option.map_some] at hrect
      rw [← Option.some.inj hrect]
    show (t.modify place.1 _).assign rects = t
    rw [hsame, ih fun p hp => h p (List.mem_cons_of_mem place hp)]

/-! ## Shapes -/

@[simp] theorem Shape.map_fst_rects (layout : Layout) (s : Shape) (r : Rect) :
    (s.rects layout r).map Prod.fst = s.preorder := by
  induction s generalizing r with
  | leaf n => rfl
  | fork n a b iha ihb => simp [Shape.rects, iha, ihb]

theorem Shape.exists_mem_rects {s : Shape} {n : NodeId} (hn : n ∈ s.preorder) (layout : Layout)
    (area : Rect) : ∃ r, (n, r) ∈ s.rects layout area := by
  rw [← s.map_fst_rects layout area] at hn
  obtain ⟨⟨m, r⟩, hmem, rfl⟩ := List.mem_map.1 hn
  exact ⟨r, hmem⟩

theorem Shape.mem_of_mem_rects {s : Shape} {layout : Layout} {area : Rect} {place : NodeId × Rect}
    (h : place ∈ s.rects layout area) : place.1 ∈ s.preorder := by
  rw [← s.map_fst_rects layout area]
  exact List.mem_map_of_mem h

/-- The tiled window at a place. -/
def placedAt? (t : Tree) (place : NodeId × Rect) : Option (Window × Rect) :=
  (t.get? place.1).bind fun node => placement? node place.2

theorem placedAt?_assign (t : Tree) (rects : List (NodeId × Rect)) :
    (t.assign rects).placedAt? = t.placedAt? := by
  funext place
  have hview (u : Tree) :
      u.placedAt? place = ((u.get? place.1).map fun node => placement? node place.2).join := by
    rw [placedAt?]
    cases u.get? place.1 <;> rfl
  rw [hview, hview, map_get?_assign fun _ _ => rfl]

theorem HasShape.assign {t : Tree} {parent : Option NodeId} {s : Shape} (h : HasShape t parent s)
    (rects : List (NodeId × Rect)) : HasShape (t.assign rects) parent s :=
  h.congr fun n _ => map_get?_assign (g := Node.links) (fun _ _ => rfl) t rects n

/-- The subtrees below the top, with the rectangles they are given. -/
def Shape.parts (layout : Layout) : Shape → Rect → List (Shape × Rect)
  | .leaf _, _ => []
  | .fork _ a b, r => [(a, (layout.share r).1), (b, (layout.share r).2)]

theorem Shape.rects_eq (layout : Layout) (s : Shape) (r : Rect) :
    s.rects layout r =
      (s.top, r) :: (s.parts layout r).flatMap fun p => p.1.rects layout p.2 := by
  cases s with
  | leaf n => rfl
  | fork n a b => simp [Shape.rects, Shape.parts]

theorem Shape.preorder_eq (layout : Layout) (s : Shape) (r : Rect) :
    s.preorder = s.top :: (s.parts layout r).flatMap fun p => p.1.preorder := by
  cases s with
  | leaf n => rfl
  | fork n a b => simp [Shape.parts]

theorem HasShape.parts {t : Tree} {parent : Option NodeId} {s : Shape} (h : HasShape t parent s)
    (layout : Layout) (r : Rect) :
    ∀ p ∈ s.parts layout r, ∃ parent, HasShape t parent p.1 := by
  cases s with
  | leaf n => simp [Shape.parts]
  | fork n a b =>
    obtain ⟨-, ha, hb⟩ := hasShape_fork.1 h
    intro p hp
    rcases List.mem_cons.1 hp with rfl | hp
    · exact ⟨_, ha⟩
    · rw [List.mem_singleton.1 hp]
      exact ⟨_, hb⟩

/-- The top of a pending subtree gets its rectangle, and the subtrees below it are pending. -/
theorem arrangeFrom_top (layout : Layout) {t : Tree} {parent : Option NodeId} {s : Shape}
    (h : HasShape t parent s) (fuel : Nat) (r : Rect) (pending : List (NodeId × Rect)) :
    arrangeFrom layout (fuel + 1) t ((s.top, r) :: pending) =
      let rest := arrangeFrom layout fuel (t.assign [(s.top, r)])
        ((s.parts layout r).map (fun p => (p.1.top, p.2)) ++ pending)
      (rest.1, (t.placedAt? (s.top, r)).toList ++ rest.2) := by
  cases s with
  | leaf n =>
    obtain ⟨node, hget, -, hfirst, hsecond⟩ := exists_of_links? (hasShape_leaf.1 h)
    simp only [arrangeFrom, Shape.top_leaf, hget, hfirst, hsecond, placedAt?]
    rfl
  | fork n a b =>
    obtain ⟨node, hget, -, hfirst, hsecond⟩ := exists_of_links? (hasShape_fork.1 h).1
    simp only [arrangeFrom, Shape.top_fork, hget, hfirst, hsecond, placedAt?]
    rfl

/-- Arranging pending subtrees writes their rectangles down one after the other. -/
theorem arrangeFrom_rects (layout : Layout) {t : Tree} {pending : List (Shape × Rect)} {fuel : Nat}
    (h : ∀ p ∈ pending, ∃ parent, HasShape t parent p.1)
    (hfuel : (pending.flatMap fun p => p.1.preorder).length ≤ fuel) :
    arrangeFrom layout fuel t (pending.map fun p => (p.1.top, p.2)) =
      (t.assign (pending.flatMap fun p => p.1.rects layout p.2),
        (pending.flatMap fun p => p.1.rects layout p.2).filterMap t.placedAt?) := by
  induction fuel generalizing t pending with
  | zero =>
    cases pending with
    | nil => rfl
    | cons p pending =>
      obtain ⟨rest, hrest⟩ := p.1.preorder_eq_top_cons
      simp [hrest] at hfuel
  | succ fuel ih =>
    cases pending with
    | nil => rfl
    | cons p pending =>
      obtain ⟨s, r⟩ := p
      obtain ⟨parent, hs⟩ := h (s, r) List.mem_cons_self
      -- the pending subtrees stand in the store where the first rectangle has been written
      have hstand : ∀ p ∈ s.parts layout r ++ pending,
          ∃ parent, HasShape (t.assign [(s.top, r)]) parent p.1 := fun p hp => by
        obtain ⟨parent, hp⟩ : ∃ parent, HasShape t parent p.1 := by
          rcases List.mem_append.1 hp with hp | hp
          · exact hs.parts layout r p hp
          · exact h p (List.mem_cons_of_mem _ hp)
        exact ⟨parent, hp.assign _⟩
      have hle : ((s.parts layout r ++ pending).flatMap fun p => p.1.preorder).length ≤ fuel := by
        rw [List.flatMap_cons, s.preorder_eq layout r, List.cons_append, List.length_cons,
          ← List.flatMap_append] at hfuel
        omega
      have hrest := ih hstand hle
      rw [placedAt?_assign, List.map_append] at hrest
      rw [List.map_cons, arrangeFrom_top layout hs, hrest, List.flatMap_cons, s.rects_eq,
        List.cons_append, ← List.flatMap_append]
      refine Prod.ext rfl ?_
      rw [List.filterMap_cons]
      cases t.placedAt? (s.top, r) <;> rfl

theorem arrange_rects {t : Tree} {parent : Option NodeId} {s : Shape} (h : HasShape t parent s)
    (hnodup : s.preorder.Nodup) (area : Rect) (layout : Layout) :
    t.arrange (some s.top) area layout =
      (t.assign (s.rects layout area), (s.rects layout area).filterMap t.placedAt?) := by
  have hone : ∀ p ∈ [(s, area)], ∃ parent, HasShape t parent p.1 := fun p hp => by
    rw [List.mem_singleton.1 hp]
    exact ⟨parent, h⟩
  have hbound := length_preorder_le_visitBound h hnodup
  have hall := arrangeFrom_rects layout hone (show _ ≤ t.visitBound by simpa using hbound)
  rw [List.flatMap_singleton] at hall
  exact hall

end Tree

end Tiling
