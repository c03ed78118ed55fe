import Tiling.Proofs.Tree.Replace
/-!
# Removal follows the shape

Removing a leaf puts its sibling into the place of their parent; removing the only leaf removes
the tree.
-/

namespace Tiling.Tree

/-- A shape whose top gets another parent. -/
theorem HasShape.reparent {t t' : Tree} {parent parent' : Option NodeId} {s : Shape}
    (h : HasShape t parent s) (hnodup : s.preorder.Nodup)
    (htop : t'.links? s.top = (t.links? s.top).map fun links => (parent', links.2))
    (hlinks : ∀ m ∈ s.preorder, m ≠ s.top → t'.links? m = t.links? m) : HasShape t' parent' s := by
  cases s with
  | leaf n =>
    rw [hasShape_leaf] at h ⊢
    rw [Shape.top_leaf, h] at htop
    exact htop
  | fork n a b =>
    obtain ⟨hn, ha, hb⟩ := hasShape_fork.1 h
    obtain ⟨⟨hna, hnb⟩, -⟩ := Shape.nodup_fork.1 hnodup
    rw [Shape.top_fork, hn] at htop
    refine hasShape_fork.2 ⟨htop, ha.congr fun m hm => ?_, hb.congr fun m hm => ?_⟩
    · refine hlinks m (by simp [hm]) fun heq => hna ?_
      rwa [heq] at hm
    · refine hlinks m (by simp [hm]) fun heq => hnb ?_
      rwa [heq] at hm

/-- Removing the only leaf of a tree removes the tree. -/
theorem removeLeaf_only {t : Tree} {n : NodeId} {rest : List Shape}
    (h : t.Forest (.leaf n :: rest)) :
    (t.removeLeaf (some n) n).2.1 = none ∧ (t.removeLeaf (some n) n).2.2 = t.get? n ∧
      (t.removeLeaf (some n) n).1.Forest rest ∧ (t.removeLeaf (some n) n).1.get? n = none ∧
      ∀ m, m ≠ n → (t.removeLeaf (some n) n).1.contents? m = t.contents? m := by
  obtain ⟨node, hget, hparent, -⟩ :=
    exists_of_links? (hasShape_leaf.1 (h.hasShape List.mem_cons_self))
  have hremove : t.removeLeaf (some n) n = (t.release n, none, some node) := by
    simp [removeLeaf, hget, hparent]
  have hnodup : n ∉ rest.flatMap Shape.preorder ∧ (rest.flatMap Shape.preorder).Nodup := by
    have hall := h.nodup
    rwa [List.flatMap_cons, Shape.preorder_leaf, List.singleton_append, List.nodup_cons] at hall
  have hother (m : NodeId) (hm : m ≠ n) : (t.release n).get? m = t.get? m := by
    rw [get?_release, if_neg hm.symm]
  rw [hremove]
  refine ⟨rfl, hget.symm, ⟨h.slots.release n.index, fun s hs => ?_, hnodup.2, fun m hm => ?_⟩,
    get?_release_same t n, fun m hm => contents?_of_get? (hother m hm)⟩
  · refine (h.stands s (List.mem_cons_of_mem _ hs)).congr_get fun m hm => hother m fun heq => ?_
    exact hnodup.1 (List.mem_flatMap.2 ⟨s, hs, heq ▸ hm⟩)
  · rw [get?_release] at hm
    by_cases heq : n = m
    · rw [if_pos heq] at hm
      cases hm
    · rw [if_neg heq] at hm
      have hall := h.covers m hm
      rw [List.flatMap_cons, Shape.preorder_leaf, List.singleton_append, List.mem_cons] at hall
      exact hall.resolve_left (Ne.symm heq)

theorem sibling_of_children {f : Frame} {n : NodeId} {node : Node} {p : Option NodeId}
    (h : node.links = (p, f.children n)) (hn : n ∉ f.sibling.preorder) :
    (if node.firstChild == some n then node.secondChild else node.firstChild) =
      some f.sibling.top := by
  cases f with
  | first m b =>
    simp only [Node.links, Frame.children, Prod.mk.injEq] at h
    simp [h.2.1, h.2.2, Frame.sibling]
  | second m a =>
    simp only [Node.links, Frame.children, Prod.mk.injEq] at h
    have hne : a.top ≠ n := fun heq => hn (heq ▸ a.top_mem_preorder)
    simp [h.2.1, hne, Frame.sibling]

/-- The last steps of a removal: the sibling gets the parent of its parent, and both the parent
and the leaf are freed. -/
def hoist (t : Tree) (grandparent : Option NodeId) (sibling parent n : NodeId) : Tree :=
  ((t.modify sibling (adopt grandparent)).release parent).release n

section Hoist

variable {t : Tree} {grandparent : Option NodeId} {sibling parent n m : NodeId}

theorem get?_hoist (hn : m ≠ n) (hparent : m ≠ parent) :
    (t.hoist grandparent sibling parent n).get? m =
      (t.modify sibling (adopt grandparent)).get? m := by
  rw [hoist, get?_release, if_neg hn.symm, get?_release, if_neg hparent.symm]

theorem get?_hoist_gone (h : m = n ∨ m = parent) :
    (t.hoist grandparent sibling parent n).get? m = none := by
  rw [hoist, get?_release]
  by_cases hn : n = m
  · rw [if_pos hn]
  · rw [if_neg hn, h.resolve_left (Ne.symm hn), get?_release_same]

theorem links?_hoist (hn : m ≠ n) (hparent : m ≠ parent) :
    (t.hoist grandparent sibling parent n).links? m =
      if sibling = m then (t.links? sibling).map fun links => (grandparent, links.2)
      else t.links? m := by
  rw [links?_congr (get?_hoist hn hparent), links?_modify_adopt]

theorem contents?_hoist (hn : m ≠ n) (hparent : m ≠ parent) :
    (t.hoist grandparent sibling parent n).contents? m = t.contents? m := by
  rw [contents?_of_get? (get?_hoist hn hparent), contents?_modify_adopt]

end Hoist

theorem removeLeaf_eq {t : Tree} {f : Frame} {frames : List Frame} {n : NodeId}
    (h : Surrounds t n (f :: frames)) (hn : n ∉ f.sibling.preorder)
    (hlinks : t.links? n = some (some f.node, none, none)) (root : Option NodeId) :
    let r := t.replaceChild root (above frames) f.node f.sibling.top
    (t.removeLeaf root n).1 = r.1.hoist (above frames) f.sibling.top f.node n ∧
      (t.removeLeaf root n).2.1 = r.2 ∧ (t.removeLeaf root n).2.2 =
        ((r.1.modify f.sibling.top (adopt (above frames))).release f.node).get? n := by
  intro r
  obtain ⟨node, hget, hparent, -⟩ := exists_of_links? hlinks
  obtain ⟨parent, hgetp, hlinksp⟩ := Option.map_eq_some_iff.1 h.1
  have hchild := sibling_of_children hlinksp hn
  have hparent' : parent.parent = above frames := by
    rw [Node.links] at hlinksp
    exact congrArg Prod.fst hlinksp
  simp only [removeLeaf, hget, hparent, hgetp, hchild, hparent']
  exact ⟨rfl, rfl, rfl⟩

section Sibling

variable {t : Tree} {f : Frame} {frames : List Frame} {n : NodeId} {rest : List Shape}

/-- A leaf, its parent, the tree beside it, and what is around them have no nodes in common. -/
theorem Forest.apart (h : t.Forest (plug (f :: frames) (.leaf n) :: rest)) :
    (n ≠ f.node ∧ n ∉ f.sibling.preorder ∧
      n ∉ outside frames ∧ n ∉ rest.flatMap Shape.preorder) ∧
    (f.node ∉ f.sibling.preorder ∧
      f.node ∉ outside frames ∧ f.node ∉ rest.flatMap Shape.preorder) ∧
    (f.sibling.preorder ++ (outside frames ++ rest.flatMap Shape.preorder)).Nodup := by
  have hnodup := (preorder_plug_cons (f :: frames) (.leaf n) rest).nodup_iff.1 h.nodup
  simpa only [Shape.preorder_leaf, outside, List.flatMap_cons, Frame.nodes, List.cons_append,
    List.nil_append, List.append_assoc, List.nodup_cons, List.mem_cons, List.mem_append,
    not_or] using hnodup

theorem Forest.sibling_ne (h : t.Forest (plug (f :: frames) (.leaf n) :: rest)) {m : NodeId}
    (hm : m ∈ f.sibling.preorder) : m ≠ n ∧ m ≠ f.node := by
  obtain ⟨⟨-, hnsibling, -, -⟩, ⟨hfsibling, -, -⟩, -⟩ := h.apart
  exact ⟨ne_of_mem_of_not_mem hm hnsibling, ne_of_mem_of_not_mem hm hfsibling⟩

section Hoist

variable {t₁ : Tree}

/-- Around the hole hoisting changes nothing. -/
theorem links?_hoist_around (h : t.Forest (plug (f :: frames) (.leaf n) :: rest)) {m : NodeId}
    (hm : m ∈ outside frames ++ rest.flatMap Shape.preorder) :
    (t₁.hoist (above frames) f.sibling.top f.node n).links? m = t₁.links? m := by
  obtain ⟨⟨-, -, hnframes, hnrest⟩, ⟨-, hfframes, hfrest⟩, hnodup⟩ := h.apart
  have htop : f.sibling.top ≠ m :=
    (List.nodup_append.1 hnodup).2.2 _ f.sibling.top_mem_preorder m hm
  have hmn : m ≠ n := by
    rintro rfl
    exact (List.mem_append.1 hm).elim hnframes hnrest
  have hmf : m ≠ f.node := by
    rintro rfl
    exact (List.mem_append.1 hm).elim hfframes hfrest
  rw [links?_hoist hmn hmf, if_neg htop]

/-- The sibling gets the parent of its parent. -/
theorem hasShape_hoist (h : t.Forest (plug (f :: frames) (.leaf n) :: rest))
    (hget : ∀ m, above frames ≠ some m → t₁.get? m = t.get? m) :
    HasShape (t₁.hoist (above frames) f.sibling.top f.node n) (above frames) f.sibling := by
  have hnodup := h.apart.2.2
  obtain ⟨hnodupsibling, -, hdisjoint⟩ := List.nodup_append.1 hnodup
  obtain ⟨-, hsibling, -⟩ := (hasShape_plug.1 (h.hasShape List.mem_cons_self)).1
  have hkeep {m : NodeId} (hm : m ∈ f.sibling.preorder) : t₁.links? m = t.links? m := by
    refine links?_congr (hget m fun heq => ?_)
    exact hdisjoint m hm m (List.mem_append_left _ (mem_outside_of_above heq)) rfl
  refine hsibling.reparent hnodupsibling ?_ fun m hm hne => ?_
  · obtain ⟨hmn, hmf⟩ := h.sibling_ne f.sibling.top_mem_preorder
    rw [links?_hoist hmn hmf, if_pos rfl, hkeep f.sibling.top_mem_preorder]
  · obtain ⟨hmn, hmf⟩ := h.sibling_ne hm
    rw [links?_hoist hmn hmf, if_neg hne.symm, hkeep hm]

/-- Hoisting the sibling completes a removal once the grandparent is linked to it. -/
theorem forest_hoist (h : t.Forest (plug (f :: frames) (.leaf n) :: rest))
    (hslots : t₁.nodes.WellFormed) (hsurrounds : Surrounds t₁ f.sibling.top frames)
    (hget : ∀ m, above frames ≠ some m → t₁.get? m = t.get? m)
    (hcontents : ∀ m, t₁.contents? m = t.contents? m) :
    (t₁.hoist (above frames) f.sibling.top f.node n).Forest (plug frames f.sibling :: rest) := by
  obtain ⟨hnodupsibling, hnodupothers, -⟩ := List.nodup_append.1 h.apart.2.2
  obtain ⟨-, -, hdisjointrest⟩ := List.nodup_append.1 hnodupothers
  have hkeeps (m : NodeId) (hm : m ≠ n) (hm' : m ≠ f.node) :
      (t₁.hoist (above frames) f.sibling.top f.node n).contents? m = t.contents? m := by
    rw [contents?_hoist hm hm', hcontents]
  have hold {m : NodeId} :
      m ∈ (f.fill (.leaf n)).preorder ↔ m = n ∨ m = f.node ∨ m ∈ f.sibling.preorder := by
    rw [(f.preorder_fill (.leaf n)).mem_iff]
    simp [Frame.nodes]
  have hforest : t.Forest (plug frames (f.fill (.leaf n)) :: rest) := h
  have hstands := hforest.stands _ List.mem_cons_self
  refine hforest.replace ?_ ?_ (hasShape_hoist h hget) hnodupsibling ?_ ?_ ?_ ?_ ?_ ?_
  · exact ((hslots.modify _ _).release _).release _
  · exact hsurrounds.congr fun m hm => links?_hoist_around h (List.mem_append_left _ hm)
  · exact fun m hm => .inl (hold.2 (.inr (.inr hm)))
  · intro m _ hm
    rw [hold, not_or, not_or] at hm
    exact hkeeps m hm.1 hm.2.1
  · intro m hm hmold
    rcases hold.1 hmold with heq | heq | hmem
    · exact get?_hoist_gone (.inl heq)
    · exact get?_hoist_gone (.inr heq)
    · exact absurd hmem hm
  · intro s hs m hm
    have hmem := List.mem_flatMap.2 ⟨s, hs, hm⟩
    rw [links?_hoist_around h (List.mem_append_right _ hmem)]
    exact links?_congr (hget m fun heq => hdisjointrest m (mem_outside_of_above heq) m hmem rfl)
  · intro m hm
    obtain ⟨hmn, hmf⟩ := h.sibling_ne (Shape.mem_preorder_of_mem_leaves hm)
    rw [client?_of_contents? (hkeeps m hmn hmf)]
    exact hstands.leaf_client m (mem_leaves_plug.2 (.inl (f.mem_leaves_fill.2 (.inr hm))))
  · intro m hm
    obtain ⟨hmn, hmf⟩ := h.sibling_ne (Shape.mem_preorder_iff.2 (.inr hm))
    rw [client?_of_contents? (hkeeps m hmn hmf), presel?_of_contents? (hkeeps m hmn hmf)]
    have hinner : m ∈ (plug frames (f.fill (.leaf n))).inner :=
      mem_inner_plug.2 (.inl (Frame.mem_inner_fill.2 (.inr (.inl hm))))
    exact ⟨hstands.inner_client m hinner, hstands.inner_presel m hinner⟩

end Hoist

/-- Removing another leaf puts its sibling in the place of their parent. -/
theorem removeLeaf_sibling (h : t.Forest (plug (f :: frames) (.leaf n) :: rest))
    (root : Option NodeId) :
    (t.removeLeaf root n).2.1 = (if frames = [] then some f.sibling.top else root) ∧
      (t.removeLeaf root n).2.2 = t.get? n ∧
      (t.removeLeaf root n).1.Forest (plug frames f.sibling :: rest) ∧
      (∀ m, m = n ∨ m = f.node → (t.removeLeaf root n).1.get? m = none) ∧
      ∀ m, m ≠ n → m ≠ f.node → (t.removeLeaf root n).1.contents? m = t.contents? m := by
  obtain ⟨hsurrounds, hleaf⟩ := hasShape_plug.1 (h.hasShape List.mem_cons_self)
  rw [Shape.top_leaf] at hsurrounds
  obtain ⟨⟨hnf, hnsibling, hnframes, -⟩, ⟨-, hfframes, -⟩, hnodup⟩ := h.apart
  have hnodupframes := (List.nodup_append.1 (List.nodup_append.1 hnodup).2.1).1
  obtain ⟨hremove, hroot, hnode⟩ := removeLeaf_eq hsurrounds hnsibling (hasShape_leaf.1 hleaf) root
  obtain ⟨hroot', hsurrounds₁, hget₁, hcontents₁, hslots₁⟩ :=
    replaceChild_spec hsurrounds.2.2 hnodupframes hfframes root f.sibling.top
  rw [hremove, hroot, hroot', hnode]
  refine ⟨rfl, ?_, forest_hoist h (hslots₁ h.slots) hsurrounds₁ hget₁ hcontents₁,
    fun m => get?_hoist_gone, fun m hm hm' => ?_⟩
  · have htop : f.sibling.top ≠ n := fun heq => hnsibling (heq ▸ f.sibling.top_mem_preorder)
    rw [get?_release, if_neg hnf.symm, get?_modify, if_neg htop]
    exact hget₁ n fun heq => hnframes (mem_outside_of_above heq)
  · rw [contents?_hoist hm hm', hcontents₁]

end Sibling

/-- A leaf leaves the tree of a desktop, which keeps its other leaves in order. -/
theorem removeLeaf_spec {t : Tree} {s : Shape} {rest : List Shape} (h : t.Forest (s :: rest))
    {n : NodeId} (hn : n ∈ s.leaves) :
    ∃ tree : Option Shape, (t.removeLeaf (some s.top) n).2.1 = tree.map Shape.top ∧
      (t.removeLeaf (some s.top) n).2.2 = t.get? n ∧
      (t.removeLeaf (some s.top) n).1.Forest (tree.toList ++ rest) ∧
      (t.removeLeaf (some s.top) n).1.client? n = none ∧
      (∀ m, m ≠ n → (t.removeLeaf (some s.top) n).1.client? m = t.client? m) ∧
      ∃ before after, s.leaves = before ++ n :: after ∧
        tree.toList.flatMap Shape.leaves = before ++ after := by
  obtain ⟨frames, rfl⟩ := exists_plug_leaf hn
  cases frames with
  | nil =>
    obtain ⟨hroot, hnode, hforest, hgone, hother⟩ := removeLeaf_only h
    exact ⟨none, hroot, hnode, hforest, client?_of_get?_none hgone,
      fun m hm => client?_of_contents? (hother m hm), [], [], rfl, rfl⟩
  | cons f frames =>
    obtain ⟨hroot, hnode, hforest, hgone, hother⟩ :=
      removeLeaf_sibling h (some (plug (f :: frames) (.leaf n)).top)
    refine ⟨some (plug frames f.sibling), ?_, hnode, hforest,
      client?_of_get?_none (hgone n (.inl rfl)), fun m hm => ?_, leavesBefore (f :: frames),
      leavesAfter (f :: frames), ?_, ?_⟩
    · rw [hroot, Option.map_some, plug, root_plug]
    · by_cases hf : m = f.node
      · -- the parent of the removed leaf goes as well, but never held a client
        have hinner := (h.stands _ List.mem_cons_self).inner_client f.node
          (mem_inner_plug.2 (.inr (by simp [innerOutside])))
        rw [hf, hinner, client?_of_get?_none (hgone f.node (.inr rfl))]
      · exact client?_of_contents? (hother m hm hf)
    · rw [leaves_plug, Shape.leaves_leaf, List.append_assoc, List.singleton_append]
    · rw [Option.toList_some, List.flatMap_singleton, leaves_plug, f.leaves_sibling, leavesBefore,
        leavesAfter]
      simp only [List.append_assoc]

/-- Another leaf of the tree is still there after a removal. -/
theorem exists_kept {tree : Option Shape} {leaves before after : List NodeId} {n m : NodeId}
    (hleaves : leaves = before ++ n :: after)
    (htree : tree.toList.flatMap Shape.leaves = before ++ after) (hm : m ∈ leaves) (hne : m ≠ n) :
    ∃ s, tree = some s ∧ m ∈ s.leaves := by
  have hmem : m ∈ before ++ after := by
    rw [hleaves, List.mem_append, List.mem_cons, or_iff_right hne] at hm
    exact List.mem_append.2 hm
  rw [← htree, List.mem_flatMap] at hmem
  obtain ⟨s, hs, hmem⟩ := hmem
  exact ⟨s, Option.mem_toList.1 hs, hmem⟩

end Tiling.Tree
