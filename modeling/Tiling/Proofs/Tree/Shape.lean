import Mathlib.Data.List.Nodup
import Mathlib.Tactic.Tauto
import Tiling.Proofs.Slots
import Tiling.Tree.Walk
/-!
# Shapes of trees

A shape is the recursive account of a linked tree.  This module reads the shape of a tree off
the links of its nodes alone, so that everything else in a node may change under it, and shows
that the links determine the shape.
-/

namespace Tiling

/-- Parent, first child and second child of a node. -/
def Node.links (node : Node) : Option NodeId × Option NodeId × Option NodeId :=
  (node.parent, node.firstChild, node.secondChild)

namespace Tree

/-- The links of a node, if there is one. -/
def links? (t : Tree) (n : NodeId) : Option (Option NodeId × Option NodeId × Option NodeId) :=
  (t.get? n).map Node.links

theorem links?_of_get? {t : Tree} {n : NodeId} {node : Node} (h : t.get? n = some node) :
    t.links? n = some node.links := by
  rw [links?, h, Option.map_some]

theorem exists_of_links? {t : Tree} {n : NodeId} {p a b : Option NodeId}
    (h : t.links? n = some (p, a, b)) :
    ∃ node, t.get? n = some node ∧ node.parent = p ∧ node.firstChild = a ∧
      node.secondChild = b := by
  obtain ⟨node, hget, hlinks⟩ := Option.map_eq_some_iff.1 h
  simp only [Node.links, Prod.mk.injEq] at hlinks
  exact ⟨node, hget, hlinks⟩

/-- Distinct nodes are no more than there are slots. -/
theorem length_le_size {t : Tree} {l : List NodeId} (hnodup : l.Nodup)
    (hlive : ∀ n ∈ l, (t.get? n).isSome) : l.length ≤ t.size := by
  have hinj : (l.map NodeId.index).Nodup :=
    List.Nodup.map (fun _ _ hmn => congrArg NodeId.mk hmn) hnodup
  have hmap : ∀ i ∈ l.map NodeId.index, (t.nodes.get? i).isSome := by
    intro i hi
    obtain ⟨n, hn, rfl⟩ := List.mem_map.1 hi
    exact hlive n hn
  have hle := Slots.length_le_size hinj hmap
  rwa [List.length_map] at hle

theorem parent?_of_links? {t : Tree} {n : NodeId} {p a b : Option NodeId}
    (h : t.links? n = some (p, a, b)) : t.parent? n = p := by
  obtain ⟨node, hget, hparent, -, -⟩ := exists_of_links? h
  rw [parent?, hget, Option.bind_some, hparent]

/-! ## The two lists of a shape -/

namespace Shape

/-- Nodes with children, parents first. -/
def inner : Shape → List NodeId
  | leaf _ => []
  | fork n a b => n :: (a.inner ++ b.inner)

@[simp] theorem inner_leaf (n : NodeId) : (leaf n).inner = [] := rfl

@[simp] theorem inner_fork (n : NodeId) (a b : Shape) :
    (fork n a b).inner = n :: (a.inner ++ b.inner) := rfl

@[simp] theorem top_leaf (n : NodeId) : (leaf n).top = n := rfl

@[simp] theorem top_fork (n : NodeId) (a b : Shape) : (fork n a b).top = n := rfl

@[simp] theorem leaves_leaf (n : NodeId) : (leaf n).leaves = [n] := rfl

@[simp] theorem leaves_fork (n : NodeId) (a b : Shape) :
    (fork n a b).leaves = a.leaves ++ b.leaves := rfl

@[simp] theorem preorder_leaf (n : NodeId) : (leaf n).preorder = [n] := rfl

@[simp] theorem preorder_fork (n : NodeId) (a b : Shape) :
    (fork n a b).preorder = n :: (a.preorder ++ b.preorder) := rfl

@[simp] theorem leaves_ne_nil (s : Shape) : s.leaves ≠ [] := by
  induction s with
  | leaf n => simp
  | fork n a b iha ihb => simp [iha]

theorem top_mem_preorder (s : Shape) : s.top ∈ s.preorder := by
  cases s <;> simp

theorem leaves_sublist_preorder (s : Shape) : s.leaves.Sublist s.preorder := by
  induction s with
  | leaf n => exact List.Sublist.refl _
  | fork n a b iha ihb => exact (iha.append ihb).cons n

theorem mem_preorder_of_mem_leaves {s : Shape} {n : NodeId} (h : n ∈ s.leaves) :
    n ∈ s.preorder :=
  s.leaves_sublist_preorder.subset h

theorem mem_preorder_iff {s : Shape} {n : NodeId} :
    n ∈ s.preorder ↔ n ∈ s.leaves ∨ n ∈ s.inner := by
  induction s with
  | leaf m => simp
  | fork m a b iha ihb =>
    simp only [preorder_fork, leaves_fork, inner_fork, List.mem_cons, List.mem_append, iha, ihb]
    tauto

theorem preorder_eq_top_cons (s : Shape) : ∃ rest, s.preorder = s.top :: rest := by
  cases s with
  | leaf n => exact ⟨[], rfl⟩
  | fork n a b => exact ⟨a.preorder ++ b.preorder, rfl⟩

theorem top_not_mem_tail {s : Shape} (hnodup : s.preorder.Nodup) : s.top ∉ s.preorder.tail := by
  obtain ⟨rest, hrest⟩ := s.preorder_eq_top_cons
  rw [hrest] at hnodup ⊢
  exact (List.nodup_cons.1 hnodup).1

theorem nodup_fork {n : NodeId} {a b : Shape} :
    (fork n a b).preorder.Nodup ↔ (n ∉ a.preorder ∧ n ∉ b.preorder) ∧ a.preorder.Nodup ∧
      b.preorder.Nodup ∧ ∀ m ∈ a.preorder, m ∉ b.preorder := by
  rw [preorder_fork, List.nodup_cons, List.mem_append, not_or, List.nodup_append]
  refine and_congr_right fun _ => and_congr_right fun _ => and_congr_right fun _ => ?_
  exact ⟨fun h m ha hb => h m ha m hb rfl, fun h m ha k hb hmk => h m ha (hmk ▸ hb)⟩

end Shape

/-! ## Reading shapes off links -/

theorem hasShape_leaf {t : Tree} {parent : Option NodeId} {n : NodeId} :
    HasShape t parent (.leaf n) ↔ t.links? n = some (parent, none, none) := by
  constructor
  · rintro ⟨hget, hparent, hfirst, hsecond⟩
    rw [links?_of_get? hget, Node.links, hparent, hfirst, hsecond]
  · intro h
    obtain ⟨node, hget, hparent, hfirst, hsecond⟩ := exists_of_links? h
    exact .leaf hget hparent hfirst hsecond

theorem hasShape_fork {t : Tree} {parent : Option NodeId} {n : NodeId} {a b : Shape} :
    HasShape t parent (.fork n a b) ↔
      t.links? n = some (parent, some a.top, some b.top) ∧ HasShape t (some n) a ∧
        HasShape t (some n) b := by
  constructor
  · rintro (_ | ⟨hget, hparent, hfirst, hsecond, ha, hb⟩)
    refine ⟨?_, ha, hb⟩
    rw [links?_of_get? hget, Node.links, hparent, hfirst, hsecond]
  · rintro ⟨h, ha, hb⟩
    obtain ⟨node, hget, hparent, hfirst, hsecond⟩ := exists_of_links? h
    exact .fork hget hparent hfirst hsecond ha hb

instance decidableHasShape (t : Tree) : ∀ parent s, Decidable (HasShape t parent s)
  | _, .leaf _ => decidable_of_iff _ hasShape_leaf.symm
  | _, .fork n a b =>
    have := decidableHasShape t (some n) a
    have := decidableHasShape t (some n) b
    decidable_of_iff _ hasShape_fork.symm

namespace HasShape

theorem links_top {t : Tree} {parent : Option NodeId} {s : Shape} (h : HasShape t parent s) :
    ∃ a b, t.links? s.top = some (parent, a, b) := by
  cases s with
  | leaf n => exact ⟨_, _, hasShape_leaf.1 h⟩
  | fork n a b => exact ⟨_, _, (hasShape_fork.1 h).1⟩

theorem parent?_top {t : Tree} {parent : Option NodeId} {s : Shape} (h : HasShape t parent s) :
    t.parent? s.top = parent := by
  obtain ⟨a, b, hlinks⟩ := h.links_top
  exact parent?_of_links? hlinks

theorem isSome_get? {t : Tree} {parent : Option NodeId} {s : Shape} (h : HasShape t parent s)
    {n : NodeId} (hn : n ∈ s.preorder) : (t.get? n).isSome := by
  induction s generalizing parent with
  | leaf m =>
    obtain rfl : n = m := by simpa using hn
    obtain ⟨node, hget, -⟩ := exists_of_links? (hasShape_leaf.1 h)
    simp [hget]
  | fork m a b iha ihb =>
    obtain ⟨hlinks, ha, hb⟩ := hasShape_fork.1 h
    rcases List.mem_cons.1 hn with rfl | hn
    · obtain ⟨node, hget, -⟩ := exists_of_links? hlinks
      simp [hget]
    · rcases List.mem_append.1 hn with hn | hn
      · exact iha ha hn
      · exact ihb hb hn

/-- A shape depends on the links of its own nodes only. -/
theorem congr {t t' : Tree} {parent : Option NodeId} {s : Shape} (h : HasShape t parent s)
    (hlinks : ∀ n ∈ s.preorder, t'.links? n = t.links? n) : HasShape t' parent s := by
  induction s generalizing parent with
  | leaf n =>
    rw [hasShape_leaf] at h ⊢
    rw [hlinks n (by simp), h]
  | fork n a b iha ihb =>
    rw [hasShape_fork] at h ⊢
    refine ⟨?_, iha h.2.1 fun m hm => ?_, ihb h.2.2 fun m hm => ?_⟩
    · rw [hlinks n (by simp), h.1]
    · exact hlinks m (by simp [hm])
    · exact hlinks m (by simp [hm])

/-- The links of a tree determine its shape. -/
theorem unique {t : Tree} {parent parent' : Option NodeId} {s s' : Shape}
    (h : HasShape t parent s) (h' : HasShape t parent' s') (htop : s.top = s'.top) : s = s' := by
  induction s generalizing parent parent' s' with
  | leaf n =>
    cases s' with
    | leaf n' => exact congrArg Shape.leaf htop
    | fork n' a' b' =>
      obtain rfl : n = n' := htop
      have hboth := (hasShape_leaf.1 h).symm.trans (hasShape_fork.1 h').1
      simp at hboth
  | fork n a b iha ihb =>
    obtain ⟨hlinks, ha, hb⟩ := hasShape_fork.1 h
    cases s' with
    | leaf n' =>
      obtain rfl : n = n' := htop
      have hboth := hlinks.symm.trans (hasShape_leaf.1 h')
      simp at hboth
    | fork n' a' b' =>
      obtain rfl : n = n' := htop
      obtain ⟨hlinks', ha', hb'⟩ := hasShape_fork.1 h'
      have hboth := hlinks.symm.trans hlinks'
      simp only [Option.some.injEq, Prod.mk.injEq] at hboth
      rw [iha ha ha' hboth.2.1, ihb hb hb' hboth.2.2]

theorem links_of_mem_leaves {t : Tree} {parent : Option NodeId} {s : Shape}
    (h : HasShape t parent s) {n : NodeId} (hn : n ∈ s.leaves) :
    ∃ p, t.links? n = some (p, none, none) := by
  induction s generalizing parent with
  | leaf m =>
    obtain rfl : n = m := by simpa using hn
    exact ⟨parent, hasShape_leaf.1 h⟩
  | fork m a b iha ihb =>
    obtain ⟨-, ha, hb⟩ := hasShape_fork.1 h
    rcases List.mem_append.1 hn with hn | hn
    · exact iha ha hn
    · exact ihb hb hn

/-- A shape whose nodes are distinct is no larger than the store. -/
theorem length_preorder_le {t : Tree} {parent : Option NodeId} {s : Shape}
    (h : HasShape t parent s) (hnodup : s.preorder.Nodup) : s.preorder.length ≤ t.size :=
  length_le_size hnodup fun _ hn => h.isSome_get? hn

end HasShape

end Tree

end Tiling
