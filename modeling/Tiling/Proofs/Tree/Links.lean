import Mathlib.Order.WellFounded
import Tiling.Proofs.Tree.Forest
/-!
# Forests link by link

What a forest comes to for somebody who looks at one node at a time: a node holds a client or
joins two children that know it, a node that names a parent is one of its children, and the
climb from parent to parent comes to an end.
-/

namespace Tiling.Tree

/-- `p` is the parent that `n` names. -/
def Climbs (t : Tree) (p n : NodeId) : Prop := t.parent? n = some p

/-- A node holds a client and has no children, or it holds nothing and has two children, which
name it as their parent. -/
inductive WellJoined (t : Tree) (n : NodeId) (node : Node) : Prop where
  | leaf (client : node.client.isSome) (first : node.firstChild = none)
      (second : node.secondChild = none)
  | inner (a b : NodeId) (client : node.client = none) (presel : node.presel = none)
      (first : node.firstChild = some a) (second : node.secondChild = some b) (distinct : a ≠ b)
      (first_parent : t.parent? a = some n) (second_parent : t.parent? b = some n)

/-! ## One tree -/

namespace HasShape

/-- Every node of a tree is the top of a tree that stands inside. -/
theorem exists_sub {t : Tree} {parent : Option NodeId} {s : Shape} (h : HasShape t parent s)
    {n : NodeId} (hn : n ∈ s.preorder) :
    ∃ p sub, sub.top = n ∧ HasShape t p sub ∧ sub.preorder.Sublist s.preorder ∧
      sub.leaves.Sublist s.leaves ∧ sub.inner.Sublist s.inner := by
  induction s generalizing parent with
  | leaf m =>
    obtain rfl : n = m := by simpa using hn
    exact ⟨parent, .leaf n, rfl, h, .refl _, .refl _, .refl _⟩
  | fork m a b iha ihb =>
    obtain ⟨-, ha, hb⟩ := hasShape_fork.1 h
    rcases List.mem_cons.1 hn with rfl | hn
    · exact ⟨parent, .fork n a b, rfl, h, .refl _, .refl _, .refl _⟩
    rcases List.mem_append.1 hn with hn | hn
    · obtain ⟨p, sub, htop, hsub, hpre, hleaves, hinner⟩ := iha ha hn
      refine ⟨p, sub, htop, hsub, ?_, ?_, ?_⟩
      · exact (hpre.trans (List.sublist_append_left _ _)).cons m
      · exact hleaves.trans (List.sublist_append_left _ _)
      · exact (hinner.trans (List.sublist_append_left _ _)).cons m
    · obtain ⟨p, sub, htop, hsub, hpre, hleaves, hinner⟩ := ihb hb hn
      refine ⟨p, sub, htop, hsub, ?_, ?_, ?_⟩
      · exact (hpre.trans (List.sublist_append_right _ _)).cons m
      · exact hleaves.trans (List.sublist_append_right _ _)
      · exact (hinner.trans (List.sublist_append_right _ _)).cons m

/-- A node that names a parent is the top of the tree or a child of that parent. -/
theorem child_of_parent {t : Tree} {parent : Option NodeId} {s : Shape} (h : HasShape t parent s)
    {n p : NodeId} (hn : n ∈ s.preorder) (hp : t.parent? n = some p) :
    (n = s.top ∧ parent = some p) ∨
      ∃ node, t.get? p = some node ∧ (node.firstChild = some n ∨ node.secondChild = some n) := by
  induction s generalizing parent with
  | leaf m =>
    obtain rfl : n = m := by simpa using hn
    exact .inl ⟨rfl, h.parent?_top.symm.trans hp⟩
  | fork m a b iha ihb =>
    obtain ⟨hlinks, ha, hb⟩ := hasShape_fork.1 h
    obtain ⟨node, hget, -, hfirst, hsecond⟩ := exists_of_links? hlinks
    rcases List.mem_cons.1 hn with rfl | hn
    · exact .inl ⟨rfl, h.parent?_top.symm.trans hp⟩
    rcases List.mem_append.1 hn with hn | hn
    · rcases iha ha hn with ⟨rfl, hm⟩ | hchild
      · obtain rfl := Option.some.inj hm
        exact .inr ⟨node, hget, .inl hfirst⟩
      · exact .inr hchild
    · rcases ihb hb hn with ⟨rfl, hm⟩ | hchild
      · obtain rfl := Option.some.inj hm
        exact .inr ⟨node, hget, .inr hsecond⟩
      · exact .inr hchild

/-- The top of a tree is the only node that can lack a parent. -/
theorem eq_top_of_parent?_none {t : Tree} {parent : Option NodeId} {s : Shape}
    (h : HasShape t parent s) {n : NodeId} (hn : n ∈ s.preorder) (hp : t.parent? n = none) :
    n = s.top := by
  induction s generalizing parent with
  | leaf m => simpa using hn
  | fork m a b iha ihb =>
    obtain ⟨-, ha, hb⟩ := hasShape_fork.1 h
    rcases List.mem_cons.1 hn with rfl | hn
    · rfl
    rcases List.mem_append.1 hn with hn | hn
    · obtain rfl := iha ha hn
      rw [ha.parent?_top] at hp
      cases hp
    · obtain rfl := ihb hb hn
      rw [hb.parent?_top] at hp
      cases hp

/-- If the climb from the parent of a tree comes to an end, so does that from each of its nodes. -/
theorem acc {t : Tree} {parent : Option NodeId} {s : Shape} (h : HasShape t parent s)
    (hparent : ∀ p, parent = some p → Acc t.Climbs p) : ∀ n ∈ s.preorder, Acc t.Climbs n := by
  have htop : Acc t.Climbs s.top := by
    refine .intro _ fun p hp => hparent p ?_
    rw [← h.parent?_top]
    exact hp
  induction s generalizing parent with
  | leaf m =>
    intro n hn
    obtain rfl : n = m := by simpa using hn
    exact htop
  | fork m a b iha ihb =>
    obtain ⟨-, ha, hb⟩ := hasShape_fork.1 h
    have hbelow (p : NodeId) (hp : some m = some p) : Acc t.Climbs p := Option.some.inj hp ▸ htop
    have hchild {c : Shape} (hc : HasShape t (some m) c) : Acc t.Climbs c.top := by
      refine .intro _ fun p hp => hbelow p ?_
      rw [← hc.parent?_top]
      exact hp
    intro n hn
    rcases List.mem_cons.1 hn with rfl | hn
    · exact htop
    rcases List.mem_append.1 hn with hn | hn
    · exact iha ha hbelow (hchild ha) n hn
    · exact ihb hb hbelow (hchild hb) n hn

end HasShape

/-! ## The whole store -/

namespace Forest

variable {t : Tree} {shapes : List Shape}

theorem exists_shape (h : t.Forest shapes) {n : NodeId} {node : Node}
    (hget : t.get? n = some node) : ∃ s ∈ shapes, n ∈ s.preorder :=
  List.mem_flatMap.1 (h.covers n (by rw [hget, Option.isSome_some]))

/-- The leaves under any node are distinct and hold clients. -/
theorem leaves_spec (h : t.Forest shapes) {n : NodeId} {node : Node} (hget : t.get? n = some node) :
    (t.leaves (some n)).Nodup ∧ ∀ m ∈ t.leaves (some n), (t.client? m).isSome := by
  obtain ⟨s, hs, hn⟩ := h.exists_shape hget
  obtain ⟨p, sub, rfl, hsub, hpre, hleaves, -⟩ := (h.hasShape hs).exists_sub hn
  have hnodup := hpre.nodup (h.nodup_of_mem hs)
  rw [leaves_top hsub hnodup]
  exact ⟨sub.leaves_sublist_preorder.nodup hnodup, fun m hm =>
    (h.stands s hs).leaf_client m (hleaves.subset hm)⟩

theorem wellJoined (h : t.Forest shapes) {n : NodeId} {node : Node} (hget : t.get? n = some node) :
    t.WellJoined n node := by
  obtain ⟨s, hs, hn⟩ := h.exists_shape hget
  have hstands := h.stands s hs
  obtain ⟨p, sub, rfl, hsub, hpre, hleaves, hinner⟩ := hstands.hasShape.exists_sub hn
  cases sub with
  | leaf m =>
    obtain ⟨node', hget', -, hfirst, hsecond⟩ := exists_of_links? (hasShape_leaf.1 hsub)
    obtain rfl : node' = node := Option.some.inj (hget'.symm.trans hget)
    have hclient := hstands.leaf_client m (hleaves.subset (by simp))
    rw [client?, hget', Option.bind_some] at hclient
    exact .leaf hclient hfirst hsecond
  | fork m a b =>
    obtain ⟨hlinks, ha, hb⟩ := hasShape_fork.1 hsub
    obtain ⟨node', hget', -, hfirst, hsecond⟩ := exists_of_links? hlinks
    obtain rfl : node' = node := Option.some.inj (hget'.symm.trans hget)
    have hmem : m ∈ s.inner := hinner.subset (by simp)
    have hclient := hstands.inner_client m hmem
    have hpresel := hstands.inner_presel m hmem
    rw [client?, hget', Option.bind_some] at hclient
    rw [presel?, hget', Option.bind_some] at hpresel
    have hdistinct : a.top ≠ b.top := fun heq =>
      (Shape.nodup_fork.1 (hpre.nodup (h.nodup_of_mem hs))).2.2.2 a.top a.top_mem_preorder
        (heq ▸ b.top_mem_preorder)
    exact .inner a.top b.top hclient hpresel hfirst hsecond hdistinct ha.parent?_top hb.parent?_top

theorem child_of_parent (h : t.Forest shapes) {n p : NodeId} (hp : t.parent? n = some p) :
    ∃ node, t.get? p = some node ∧ (node.firstChild = some n ∨ node.secondChild = some n) := by
  obtain ⟨node, hget, -⟩ := Option.bind_eq_some_iff.1 hp
  obtain ⟨s, hs, hn⟩ := h.exists_shape hget
  rcases (h.hasShape hs).child_of_parent hn hp with ⟨-, hnone⟩ | hchild
  · cases hnone
  · exact hchild

theorem wellFounded (h : t.Forest shapes) : WellFounded t.Climbs := by
  refine ⟨fun n => ?_⟩
  cases hget : t.get? n with
  | none =>
    refine .intro _ fun p hp => ?_
    rw [Climbs, parent?, hget, Option.bind_none] at hp
    cases hp
  | some node =>
    obtain ⟨s, hs, hn⟩ := h.exists_shape hget
    exact (h.hasShape hs).acc (fun p hp => by cases hp) n hn

/-- No node is above itself. -/
theorem acyclic (h : t.Forest shapes) (n : NodeId) : ¬ Relation.TransGen t.Climbs n n :=
  fun hcycle => h.wellFounded.transGen.asymmetric n n hcycle hcycle

/-- The nodes without a parent are the tops of the trees. -/
theorem parentless_iff (h : t.Forest shapes) {n : NodeId} :
    ((t.get? n).isSome ∧ t.parent? n = none) ↔ n ∈ shapes.map Shape.top := by
  rw [List.mem_map]
  constructor
  · rintro ⟨hsome, hp⟩
    obtain ⟨s, hs, hn⟩ := List.mem_flatMap.1 (h.covers n hsome)
    exact ⟨s, hs, ((h.hasShape hs).eq_top_of_parent?_none hn hp).symm⟩
  · rintro ⟨s, hs, rfl⟩
    exact ⟨(h.hasShape hs).isSome_get? s.top_mem_preorder, (h.hasShape hs).parent?_top⟩

end Forest

end Tiling.Tree
