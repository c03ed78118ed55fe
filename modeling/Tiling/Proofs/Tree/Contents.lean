import Tiling.Proofs.Tree.Insert
import Tiling.Proofs.Tree.Remove
/-!
# What an edit leaves in the nodes

Inserting or removing a leaf changes links, but no node that is there before and after holds
anything else than before. The trees that are not edited keep their links too.
-/

namespace Tiling.Tree

/-- A shape determines the links of its nodes. -/
theorem HasShape.links?_eq {t t' : Tree} {parent : Option NodeId} {s : Shape}
    (h : HasShape t parent s) (h' : HasShape t' parent s) :
    ∀ n ∈ s.preorder, t'.links? n = t.links? n := by
  induction s generalizing parent with
  | leaf m =>
    intro n hn
    obtain rfl : n = m := by simpa using hn
    rw [hasShape_leaf.1 h, hasShape_leaf.1 h']
  | fork m a b iha ihb =>
    obtain ⟨hlinks, ha, hb⟩ := hasShape_fork.1 h
    obtain ⟨hlinks', ha', hb'⟩ := hasShape_fork.1 h'
    intro n hn
    rcases List.mem_cons.1 hn with rfl | hn
    · rw [hlinks, hlinks']
    · rcases List.mem_append.1 hn with hn | hn
      · exact iha ha ha' n hn
      · exact ihb hb hb' n hn

/-- A node is its links and what it holds. -/
theorem get?_eq_of {t t' : Tree} {n : NodeId} (hlinks : t'.links? n = t.links? n)
    (hcontents : t'.contents? n = t.contents? n) : t'.get? n = t.get? n := by
  have hinj : Function.Injective fun node : Node => (node.links, node.contents) := by
    rintro ⟨⟩ ⟨⟩ heq
    simp only [Node.links, Node.contents, Prod.mk.injEq] at heq
    simp [heq]
  apply Option.map_injective hinj
  rw [links?, links?] at hlinks
  rw [contents?, contents?] at hcontents
  cases hget : t.get? n <;> cases hget' : t'.get? n <;> simp_all

/-- A tree that stands before and after, and whose nodes hold what they held, is as it was. -/
theorem HasShape.get?_eq {t t' : Tree} {parent : Option NodeId} {s : Shape}
    (h : HasShape t parent s) (h' : HasShape t' parent s)
    (hcontents : ∀ n ∈ s.preorder, t'.contents? n = t.contents? n) :
    ∀ n ∈ s.preorder, t'.get? n = t.get? n :=
  fun n hn => get?_eq_of (h.links?_eq h' n hn) (hcontents n hn)

/-- A node keeps what it holds, unless it is there only before or only after; a new node has no
preselection. -/
def KeepsContents (t t' : Tree) : Prop :=
  ∀ n, t'.contents? n = t.contents? n ∨ t'.get? n = none ∨ (t.get? n = none ∧ t'.presel? n = none)

theorem KeepsContents.contents?_eq {t t' : Tree} (h : t.KeepsContents t') {n : NodeId}
    (hn : (t.get? n).isSome) (hn' : (t'.get? n).isSome) : t'.contents? n = t.contents? n := by
  rcases h n with heq | hnone | ⟨hnone, -⟩
  · exact heq
  · rw [hnone] at hn'
    cases hn'
  · rw [hnone] at hn
    cases hn

theorem Inserted.keepsContents {t t' : Tree} {frames : List Frame} {target : NodeId}
    {rest : List Shape} {client : Client} {newFirst : Bool} {fresh joint : NodeId}
    (h : Inserted t t' frames target rest client newFirst fresh joint) : t.KeepsContents t' := by
  intro m
  by_cases hm : m = fresh
  · subst hm
    exact .inr (.inr ⟨h.fresh_unused, (exists_of_contents? h.contents_fresh).2⟩)
  by_cases hjoint : m = joint
  · subst hjoint
    refine .inr (.inr ⟨h.joint_unused, ?_⟩)
    exact (h.forest.stands _ List.mem_cons_self).inner_presel m
      (mem_inner_plug.2 (.inl (mem_inner_pair.2 rfl)))
  · exact .inl (h.contents_other m hm hjoint)

theorem insertLeaf_contents {t : Tree} {tree : Option Shape} {rest : List Shape}
    (h : t.Forest (tree.toList ++ rest)) {focus : Option NodeId}
    (hnone : tree = none → focus = none)
    (hsome : ∀ s, tree = some s → ∃ n ∈ s.leaves, focus = some n) (client : Client)
    (newFirst : Bool) :
    t.KeepsContents (t.insertLeaf (tree.map Shape.top) focus client newFirst).1 := by
  cases tree with
  | none =>
    obtain rfl := hnone rfl
    obtain ⟨t', fresh, hinsert, hunused, -, hcontents, hother⟩ :=
      insertLeaf_first h client newFirst
    rw [Option.map_none, hinsert]
    intro m
    by_cases hm : m = fresh
    · subst hm
      exact .inr (.inr ⟨hunused, (exists_of_contents? hcontents).2⟩)
    · exact .inl (hother m hm)
  | some s =>
    obtain ⟨n, hn, rfl⟩ := hsome s rfl
    obtain ⟨frames, rfl⟩ := exists_plug_leaf hn
    obtain ⟨t', fresh, up, hinsert, hinserted⟩ := insertLeaf_plug h client newFirst
    rw [Option.map_some, hinsert]
    exact hinserted.keepsContents

theorem removeLeaf_contents {t : Tree} {s : Shape} {rest : List Shape} (h : t.Forest (s :: rest))
    {n : NodeId} (hn : n ∈ s.leaves) : t.KeepsContents (t.removeLeaf (some s.top) n).1 := by
  intro m
  obtain ⟨frames, rfl⟩ := exists_plug_leaf hn
  cases frames with
  | nil =>
    obtain ⟨-, -, -, hgone, hother⟩ := removeLeaf_only h
    by_cases hm : m = n
    · exact .inr (.inl (hm ▸ hgone))
    · exact .inl (hother m hm)
  | cons f frames =>
    obtain ⟨-, -, -, hgone, hother⟩ :=
      removeLeaf_sibling h (some (plug (f :: frames) (.leaf n)).top)
    by_cases hm : m = n ∨ m = f.node
    · exact .inr (.inl (hgone m hm))
    · rw [not_or] at hm
      exact .inl (hother m hm.1 hm.2)

end Tiling.Tree
