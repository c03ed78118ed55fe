import Tiling.Proofs.Tree.Contents
import Tiling.Proofs.Tree.Links
/-!
# Growing and pruning one tree of a forest

A new leaf stands beside the leaf at which it is aimed, a removed one leaves a gap that closes,
and nobody else notices.  Removing the leaf that came last undoes its insertion.  There is one
exception: a stale index that names the very slot which the new leaf is about to take.
-/

namespace Tiling.Tree

/-- The index of the next node that is put into the store. -/
def vacancy (t : Tree) : NodeId := (t.alloc .blank).2

theorem alloc_snd (t : Tree) (node : Node) : (t.alloc node).2 = t.vacancy := by
  rw [vacancy, alloc, alloc, Slots.alloc, Slots.alloc]
  cases t.nodes.free <;> rfl

theorem get?_vacancy {t : Tree} (h : t.nodes.WellFormed) : t.get? t.vacancy = none :=
  get?_alloc_index h .blank

/-- An insertion aims at the leaf it is given, and at the first leaf of the tree when it is given
nothing, a node that is gone, or a node with children. -/
inductive Aims (t : Tree) (s : Shape) : Option NodeId → NodeId → Prop where
  | given {n : NodeId} (leaf : n ∈ s.leaves) : Aims t s (some n) n
  | first {at? : Option NodeId} {target : NodeId} (head : s.leaves.head? = some target)
      (noLeaf : ∀ n node, at? = some n → t.get? n = some node → node.isLeaf = false) :
      Aims t s at? target

theorem Aims.gone {t : Tree} {s : Shape} {n target : NodeId} (hn : t.get? n = none)
    (hhead : s.leaves.head? = some target) : t.Aims s (some n) target := by
  refine .first hhead fun m node hm hnode => ?_
  rw [← Option.some.inj hm, hn] at hnode
  cases hnode

/-- What an insertion beside `target` owes to the tree `s` that it makes grow, and to the
others. -/
structure Grows (t : Tree) (s : Shape) (others : List Shape) (target : NodeId) (client : Client)
    (newFirst : Bool) (t' : Tree) (root : Option NodeId) (fresh : NodeId) : Prop where
  unused : t.get? fresh = none
  forest : ∃ s', root = some s'.top ∧ t'.Forest (s' :: others)
  leaves : ∃ before after, t.leaves (some s.top) = before ++ target :: after ∧ t'.leaves root =
    before ++ (if newFirst then [fresh, target] else [target, fresh]) ++ after
  new_leaf : t'.contents? fresh = some (Node.leaf client).contents
  old_leaf : ∀ n ∈ s.leaves, t'.contents? n = t.contents? n
  other_tree : ∀ o ∈ others, ∀ n ∈ o.preorder, t'.get? n = t.get? n
  undone_root : (t'.removeLeaf root fresh).2.1 = some s.top
  undone : ∀ n, (t'.removeLeaf root fresh).1.get? n = t.get? n

/-- What the removal of the leaf `n` owes to the tree `s` that it prunes, and to the others. -/
structure Prunes (t : Tree) (s : Shape) (others : List Shape) (n : NodeId) (t' : Tree)
    (root : Option NodeId) (removed : Option Node) : Prop where
  removed : ∃ node, t.get? n = some node ∧ removed = some node
  forest : ∃ tree : Option Shape, root = tree.map Shape.top ∧ t'.Forest (tree.toList ++ others)
  leaves : ∃ before after, t.leaves (some s.top) = before ++ n :: after ∧
    t'.leaves root = before ++ after
  old_leaf : ∀ m ∈ s.leaves, m ≠ n → t'.contents? m = t.contents? m
  other_tree : ∀ o ∈ others, ∀ m ∈ o.preorder, t'.get? m = t.get? m

/-! ## Trees that are left alone -/

/-- A tree that stands before and after an edit is as it was. -/
theorem KeepsContents.get?_eq {t t' : Tree} (hkeeps : t.KeepsContents t')
    {shapes shapes' : List Shape} (h : t.Forest shapes) (h' : t'.Forest shapes') {o : Shape}
    (ho : o ∈ shapes) (ho' : o ∈ shapes') : ∀ n ∈ o.preorder, t'.get? n = t.get? n :=
  (h.hasShape ho).get?_eq (h'.hasShape ho') fun _ hn =>
    hkeeps.contents?_eq ((h.hasShape ho).isSome_get? hn) ((h'.hasShape ho').isSome_get? hn)

/-- Two stores with the same trees, whose nodes hold the same, are the same to every look-up. -/
theorem Forest.get?_eq {t t' : Tree} {shapes : List Shape} (h : t.Forest shapes)
    (h' : t'.Forest shapes)
    (hcontents : ∀ n ∈ shapes.flatMap Shape.preorder, t'.contents? n = t.contents? n) (n : NodeId) :
    t'.get? n = t.get? n := by
  by_cases hn : n ∈ shapes.flatMap Shape.preorder
  · obtain ⟨o, ho, hmem⟩ := List.mem_flatMap.1 hn
    exact (h.hasShape ho).get?_eq (h'.hasShape ho)
      (fun m hm => hcontents m (List.mem_flatMap.2 ⟨o, ho, hm⟩)) n hmem
  · rw [h.get?_none_of_not_mem hn, h'.get?_none_of_not_mem hn]

/-! ## Insertion -/

section Insertion

variable {t : Tree} {s : Shape} {others : List Shape}

theorem insertionTarget_of_aims (h : t.Forest (s :: others)) {at? : Option NodeId}
    {target : NodeId} (haims : t.Aims s at? target) (hat : at? ≠ some t.vacancy) (client : Client) :
    (t.alloc (.leaf client)).1.insertionTarget (some s.top) at? = some target := by
  have hs : HasShape t none s := h.hasShape List.mem_cons_self
  have hget := get?_alloc h.slots (.leaf client)
  simp only [alloc_snd] at hget
  cases haims with
  | given hn =>
    obtain ⟨p, hlinks⟩ := hs.links_of_mem_leaves hn
    exact insertionTarget_leaf h.slots hlinks (some s.top) client
  | first hhead hnoLeaf =>
    have hrefused : (at?.filter fun n => ((t.alloc (.leaf client)).1.get? n).any Node.isLeaf) =
        none := by
      rw [Option.filter_eq_none_iff]
      intro n hn
      have hne : t.vacancy ≠ n := fun heq => hat (by rw [hn, heq])
      rw [hget, if_neg hne]
      cases hold : t.get? n with
      | none => simp
      | some node => simp [hnoLeaf n node hn hold]
    have hshape : HasShape (t.alloc (.leaf client)).1 none s := by
      refine hs.congr fun n hn => links?_congr ?_
      rw [hget, if_neg (ne_of_isSome (hs.isSome_get? hn) (get?_vacancy h.slots)).symm]
    rw [insertionTarget, hrefused, Option.none_or,
      leftmost_top hshape (h.nodup_of_mem List.mem_cons_self), hhead]

/-- The place of a new leaf in the tree that it makes grow. -/
def halfFrame (joint old : NodeId) (newFirst : Bool) : Frame :=
  if newFirst then .first joint (.leaf old) else .second joint (.leaf old)

theorem fill_halfFrame (joint old fresh : NodeId) (newFirst : Bool) :
    (halfFrame joint old newFirst).fill (.leaf fresh) = pair joint old fresh newFirst := by
  cases newFirst <;> rfl

theorem node_halfFrame (joint old : NodeId) (newFirst : Bool) :
    (halfFrame joint old newFirst).node = joint := by
  cases newFirst <;> rfl

theorem sibling_halfFrame (joint old : NodeId) (newFirst : Bool) :
    (halfFrame joint old newFirst).sibling = .leaf old := by
  cases newFirst <;> rfl

theorem leaves_pair (joint old fresh : NodeId) (newFirst : Bool) :
    (pair joint old fresh newFirst).leaves = if newFirst then [fresh, old] else [old, fresh] := by
  cases newFirst <;> rfl

/-- Removing the leaf that came last gives every node back. -/
theorem Inserted.undone {t' : Tree} {frames : List Frame} {target fresh joint : NodeId}
    {client : Client} {newFirst : Bool} (h : t.Forest (plug frames (.leaf target) :: others))
    (hinserted : Inserted t t' frames target others client newFirst fresh joint) :
    let undone :=
      t'.removeLeaf (some (plug frames (pair joint target fresh newFirst)).top) fresh
    undone.2.1 = some (plug frames (.leaf target)).top ∧ ∀ n, undone.1.get? n = t.get? n := by
  have hforest := hinserted.forest
  rw [← fill_halfFrame] at hforest
  obtain ⟨hroot, -, hforest', -, hcontents⟩ := removeLeaf_sibling hforest
    (some (plug frames (pair joint target fresh newFirst)).top)
  rw [sibling_halfFrame] at hroot hforest'
  rw [node_halfFrame] at hcontents
  refine ⟨by rw [hroot, root_plug], h.get?_eq hforest' fun n hn => ?_⟩
  have hlive := h.isSome_get?_iff.2 hn
  have hfresh := ne_of_isSome hlive hinserted.fresh_unused
  have hjoint := ne_of_isSome hlive hinserted.joint_unused
  rw [hcontents n hfresh hjoint, hinserted.contents_other n hfresh hjoint]

theorem grows_insertLeaf (h : t.Forest (s :: others)) {at? : Option NodeId} {target : NodeId}
    (haims : t.Aims s at? target) (hat : at? ≠ some t.vacancy) (client : Client)
    (newFirst : Bool) :
    let grown := t.insertLeaf (some s.top) at? client newFirst
    t.Grows s others target client newFirst grown.1 grown.2.1 grown.2.2 := by
  have hmem : target ∈ s.leaves := by
    cases haims with
    | given hn => exact hn
    | first hhead _ => exact List.mem_of_mem_head? hhead
  have htarget := insertionTarget_of_aims h haims hat client
  obtain ⟨frames, rfl⟩ := exists_plug_leaf hmem
  obtain ⟨t', fresh, up, hinsert, hinserted⟩ := insertLeaf_split h newFirst htarget
  have hroot := root_plug frames (.leaf target) (pair up target fresh newFirst)
  rw [top_pair] at hroot
  rw [hinsert, hroot]
  have hforest := hinserted.forest
  have hkeeps := hinserted.keepsContents
  obtain ⟨hundoneRoot, hundone⟩ := hinserted.undone h
  refine
    { unused := hinserted.fresh_unused
      forest := ⟨_, rfl, hforest⟩
      leaves := ⟨leavesBefore frames, leavesAfter frames, ?_, ?_⟩
      new_leaf := hinserted.contents_fresh
      old_leaf := fun n hn => ?_
      other_tree := fun o ho => hkeeps.get?_eq h hforest (List.mem_cons_of_mem _ ho)
        (List.mem_cons_of_mem _ ho)
      undone_root := hundoneRoot
      undone := hundone }
  · rw [h.leaves_eq List.mem_cons_self, leaves_plug, Shape.leaves_leaf, List.append_assoc,
      List.singleton_append]
  · rw [hforest.leaves_eq List.mem_cons_self, leaves_plug, leaves_pair]
  · have hlive := (h.hasShape List.mem_cons_self).isSome_get? (Shape.mem_preorder_of_mem_leaves hn)
    exact hinserted.contents_other n (ne_of_isSome hlive hinserted.fresh_unused)
      (ne_of_isSome hlive hinserted.joint_unused)

/-- A stale index that names the slot of the new leaf makes a joint over that leaf alone. -/
theorem not_forest_insertLeaf (h : t.nodes.WellFormed) (root : Option NodeId) (client : Client)
    (newFirst : Bool) (shapes : List Shape) :
    ¬ (t.insertLeaf root (some t.vacancy) client newFirst).1.Forest shapes := by
  obtain ⟨fresh, hfresh⟩ : ∃ fresh, fresh = t.vacancy := ⟨_, rfl⟩
  obtain ⟨hne, -, -, -, hget⟩ := get?_alloc_alloc h (.leaf client) (.inner none fresh fresh)
  rw [alloc_snd t, ← hfresh] at hne
  have hget₁ := get?_alloc h (.leaf client) fresh
  rw [alloc_snd t, ← hfresh] at hget₁
  rw [if_pos rfl] at hget₁
  have htarget : (t.alloc (.leaf client)).1.insertionTarget root (some fresh) = some fresh := by
    have hleaf : (Node.leaf client).isLeaf = true := rfl
    simp [insertionTarget, Option.filter, hget₁, hleaf]
  have hparent : (t.alloc (.leaf client)).1.parent? fresh = none := by
    rw [parent?, hget₁]
    rfl
  rw [← hfresh]
  intro hforest
  have hup : (t.insertLeaf root (some fresh) client newFirst).1.get?
      ((t.alloc (.leaf client)).1.alloc (.inner none fresh fresh)).2 =
        some (.inner none fresh fresh) := by
    simp only [insertLeaf, htarget, alloc_snd t, ← hfresh, hparent, ite_self, replaceChild,
      Option.bind_none, get?_modify, if_neg hne.symm, hget, if_true]
  cases hforest.wellJoined hup with
  | leaf _ hfirst _ => cases hfirst
  | inner a b _ _ hfirst hsecond hdistinct =>
    exact hdistinct (Option.some.inj (hfirst.symm.trans hsecond))

end Insertion

/-! ## Removal -/

theorem prunes_removeLeaf {t : Tree} {s : Shape} {others : List Shape}
    (h : t.Forest (s :: others)) {n : NodeId} (hn : n ∈ s.leaves) :
    let pruned := t.removeLeaf (some s.top) n
    t.Prunes s others n pruned.1 pruned.2.1 pruned.2.2 := by
  obtain ⟨tree, hroot, hnode, hforest, -, -, before, after, hbefore, hafter⟩ := removeLeaf_spec h hn
  have hkeeps := removeLeaf_contents h hn
  have hs := h.hasShape List.mem_cons_self
  refine
    { removed := ?_
      forest := ⟨tree, hroot, hforest⟩
      leaves := ⟨before, after, ?_, ?_⟩
      old_leaf := fun m hm hne => ?_
      other_tree := fun o ho => hkeeps.get?_eq h hforest (List.mem_cons_of_mem _ ho)
        (List.mem_append_right _ ho) }
  · obtain ⟨node, hget⟩ :=
      Option.isSome_iff_exists.1 (hs.isSome_get? (Shape.mem_preorder_of_mem_leaves hn))
    exact ⟨node, hget, hnode.trans hget⟩
  · rw [h.leaves_eq List.mem_cons_self, hbefore]
  · rw [hroot, ← hafter]
    cases tree with
    | none => rfl
    | some s' =>
      rw [Option.map_some, hforest.leaves_eq (by simp), Option.toList_some, List.flatMap_singleton]
  · obtain ⟨s', rfl, hm'⟩ := exists_kept hbefore hafter hm hne
    exact hkeeps.contents?_eq (hs.isSome_get? (Shape.mem_preorder_of_mem_leaves hm))
      ((hforest.hasShape (by simp)).isSome_get? (Shape.mem_preorder_of_mem_leaves hm'))

/-! ## Both -/

/-- In any forest each tree grows and is pruned leaf by leaf as it should be, unless an
insertion is given the index of the slot that it takes itself, which leaves no forest. -/
theorem insertLeaf_removeLeaf_spec {t : Tree} {shapes : List Shape} (h : t.Forest shapes)
    {s : Shape} (hs : s ∈ shapes) :
    (∀ at? target client newFirst, t.Aims s at? target →
      let grown := t.insertLeaf (some s.top) at? client newFirst
      (at? ≠ some t.vacancy →
        t.Grows s (shapes.erase s) target client newFirst grown.1 grown.2.1 grown.2.2) ∧
      (at? = some t.vacancy → ∀ shapes', ¬ grown.1.Forest shapes')) ∧
    ∀ n ∈ s.leaves,
      let pruned := t.removeLeaf (some s.top) n
      t.Prunes s (shapes.erase s) n pruned.1 pruned.2.1 pruned.2.2 := by
  have hforest := h.perm (List.perm_cons_erase hs)
  refine ⟨fun at? target client newFirst haims => ⟨fun hat => ?_, ?_⟩, fun n hn => ?_⟩
  · exact grows_insertLeaf hforest haims hat client newFirst
  · rintro rfl
    exact not_forest_insertLeaf h.slots (some s.top) client newFirst
  · exact prunes_removeLeaf hforest hn

/-- Two leaves under a joint, a lone leaf, and a slot that has been given up. -/
def orchard : Tree :=
  ⟨⟨#[some { Node.leaf (.plain 1) with parent := some ⟨2⟩ },
    some { Node.leaf (.plain 2) with parent := some ⟨2⟩ },
    some (.inner none ⟨0⟩ ⟨1⟩), none, some (.leaf (.plain 3))], [3]⟩⟩

/-- One tree grows at its first leaf, for an index that never was in use; the other, pruned, is
gone. -/
theorem insertLeaf_removeLeaf_orchard :
    let pair := Shape.fork ⟨2⟩ (.leaf ⟨0⟩) (.leaf ⟨1⟩)
    let grown := orchard.insertLeaf (some ⟨2⟩) (some ⟨9⟩) (.plain 4) true
    let pruned := orchard.removeLeaf (some ⟨4⟩) ⟨4⟩
    orchard.Grows pair [.leaf ⟨4⟩] ⟨0⟩ (.plain 4) true grown.1 grown.2.1 grown.2.2 ∧
      orchard.Prunes (.leaf ⟨4⟩) [pair] ⟨4⟩ pruned.1 pruned.2.1 pruned.2.2 ∧
      ∀ shapes, ¬ (orchard.insertLeaf (some ⟨2⟩) (some ⟨3⟩) (.plain 4) true).1.Forest shapes := by
  have hforest : orchard.Forest [.fork ⟨2⟩ (.leaf ⟨0⟩) (.leaf ⟨1⟩), .leaf ⟨4⟩] := by decide
  obtain ⟨hgrows, -⟩ := insertLeaf_removeLeaf_spec hforest List.mem_cons_self
  obtain ⟨-, hprunes⟩ := insertLeaf_removeLeaf_spec hforest (.tail _ (.head _))
  exact ⟨(hgrows (some ⟨9⟩) ⟨0⟩ (.plain 4) true (.gone rfl rfl)).1 (by decide),
    hprunes ⟨4⟩ List.mem_cons_self,
    (hgrows (some ⟨3⟩) ⟨0⟩ (.plain 4) true (.gone rfl rfl)).2 rfl⟩

/-- An index that has been given up is not always as good as none. -/
theorem not_grows_of_stale :
    ¬ ∀ (t : Tree) (shapes : List Shape) (s : Shape) (at? : Option NodeId) (target : NodeId)
      (client : Client) (newFirst : Bool), t.Forest shapes → s ∈ shapes → t.Aims s at? target →
      let grown := t.insertLeaf (some s.top) at? client newFirst
      t.Grows s (shapes.erase s) target client newFirst grown.1 grown.2.1 grown.2.2 := by
  intro hall
  have hgrows := hall orchard [.fork ⟨2⟩ (.leaf ⟨0⟩) (.leaf ⟨1⟩), .leaf ⟨4⟩]
    (.fork ⟨2⟩ (.leaf ⟨0⟩) (.leaf ⟨1⟩)) (some ⟨3⟩) ⟨0⟩ (.plain 4) false (by decide)
    List.mem_cons_self (.gone rfl rfl)
  obtain ⟨s', -, hforest⟩ := hgrows.forest
  have hslots : orchard.nodes.WellFormed := by decide
  exact not_forest_insertLeaf hslots (some ⟨2⟩) (.plain 4) false _ hforest

end Tiling.Tree
