import Tiling.Proofs.Tree.Shape
/-!
# Walks follow the shape

The traversals of a tree follow links and count their steps.  On a tree with a shape of distinct
nodes the count never runs out, and each traversal gives the list that the shape gives by
recursion.
-/

namespace Tiling.Tree

/-! ## Downwards -/

theorem leftmostFrom_top {t : Tree} {parent : Option NodeId} {s : Shape} {fuel : Nat}
    (h : HasShape t parent s) (hfuel : s.preorder.length ≤ fuel) :
    t.leftmostFrom fuel s.top = s.leaves.head? := by
  induction s generalizing parent fuel with
  | leaf n =>
    cases fuel with
    | zero => simp at hfuel
    | succ fuel =>
      obtain ⟨node, hget, -, hfirst, -⟩ := exists_of_links? (hasShape_leaf.1 h)
      simp [leftmostFrom, hget, hfirst]
  | fork n a b iha ihb =>
    cases fuel with
    | zero => simp at hfuel
    | succ fuel =>
      obtain ⟨hlinks, ha, -⟩ := hasShape_fork.1 h
      obtain ⟨node, hget, -, hfirst, -⟩ := exists_of_links? hlinks
      have hle : a.preorder.length ≤ fuel := by
        simp only [Shape.preorder_fork, List.length_cons, List.length_append] at hfuel
        omega
      simp only [leftmostFrom, Shape.top_fork, Shape.leaves_fork, hget, hfirst]
      rw [iha ha hle, List.head?_append_of_ne_nil _ a.leaves_ne_nil]

theorem leftmost_top {t : Tree} {parent : Option NodeId} {s : Shape} (h : HasShape t parent s)
    (hnodup : s.preorder.Nodup) : t.leftmost (some s.top) = s.leaves.head? := by
  have hle := h.length_preorder_le hnodup
  exact leftmostFrom_top h (by omega)

/-- Visits of pending subtrees give their lists one after the other. -/
theorem preorderFrom_tops {t : Tree} {shapes : List Shape} {fuel : Nat}
    (h : ∀ s ∈ shapes, ∃ parent, HasShape t parent s)
    (hfuel : (shapes.flatMap Shape.preorder).length ≤ fuel) :
    t.preorderFrom fuel (shapes.map Shape.top) = shapes.flatMap Shape.preorder := by
  induction fuel generalizing shapes with
  | zero =>
    have hnil := List.eq_nil_of_length_eq_zero (Nat.le_zero.1 hfuel)
    rw [hnil, preorderFrom]
  | succ fuel ih =>
    cases shapes with
    | nil => rfl
    | cons s rest =>
      obtain ⟨parent, hs⟩ := h s (by simp)
      have hrest : ∀ s ∈ rest, ∃ parent, HasShape t parent s := fun s' hs' => h s' (by simp [hs'])
      cases s with
      | leaf n =>
        obtain ⟨node, hget, -, hfirst, hsecond⟩ := exists_of_links? (hasShape_leaf.1 hs)
        have hle : (rest.flatMap Shape.preorder).length ≤ fuel := by
          simp only [List.flatMap_cons, Shape.preorder_leaf, List.length_append, List.length_cons,
            List.length_nil] at hfuel
          omega
        simp [preorderFrom, hget, hfirst, hsecond, ih hrest hle]
      | fork n a b =>
        obtain ⟨hlinks, ha, hb⟩ := hasShape_fork.1 hs
        obtain ⟨node, hget, -, hfirst, hsecond⟩ := exists_of_links? hlinks
        have hmore : ∀ s ∈ a :: b :: rest, ∃ parent, HasShape t parent s := by
          intro s' hs'
          rcases List.mem_cons.1 hs' with rfl | hs'
          · exact ⟨_, ha⟩
          · rcases List.mem_cons.1 hs' with rfl | hs'
            · exact ⟨_, hb⟩
            · exact hrest s' hs'
        have hle : ((a :: b :: rest).flatMap Shape.preorder).length ≤ fuel := by
          simp only [List.flatMap_cons, Shape.preorder_fork, List.length_append,
            List.length_cons] at hfuel ⊢
          omega
        have hnext := ih hmore hle
        simp only [List.map_cons, List.flatMap_cons] at hnext
        simp [preorderFrom, hget, hfirst, hsecond, hnext]

theorem length_preorder_le_visitBound {t : Tree} {parent : Option NodeId} {s : Shape}
    (h : HasShape t parent s) (hnodup : s.preorder.Nodup) : s.preorder.length ≤ t.visitBound := by
  have hpow : t.size + 1 < 2 ^ (t.size + 1) := Nat.lt_two_pow_self
  have hle := h.length_preorder_le hnodup
  change s.preorder.length ≤ 2 ^ (t.size + 1)
  omega

@[simp] theorem preorder_none (t : Tree) : t.preorder none = [] := by
  rw [preorder, Option.toList_none]
  cases t.visitBound <;> rfl

theorem preorder_top {t : Tree} {parent : Option NodeId} {s : Shape} (h : HasShape t parent s)
    (hnodup : s.preorder.Nodup) : t.preorder (some s.top) = s.preorder := by
  have hbound := length_preorder_le_visitBound h hnodup
  have hone : ∀ s' ∈ [s], ∃ parent, HasShape t parent s' := by
    intro s' hs'
    obtain rfl : s' = s := by simpa using hs'
    exact ⟨parent, h⟩
  have hwalk := preorderFrom_tops hone (by simpa using hbound)
  simpa [preorder] using hwalk

/-! ## Upwards -/

/-- From a node below the top the climb to the root passes the top. -/
theorem rootFrom_mem {t : Tree} {parent : Option NodeId} {s : Shape} (h : HasShape t parent s)
    {n : NodeId} (hn : n ∈ s.preorder) :
    ∃ steps < s.preorder.length, ∀ fuel, t.rootFrom (fuel + steps) n = t.rootFrom fuel s.top := by
  induction s generalizing parent with
  | leaf m =>
    obtain rfl : n = m := by simpa using hn
    exact ⟨0, by simp, fun fuel => rfl⟩
  | fork m a b iha ihb =>
    obtain ⟨-, ha, hb⟩ := hasShape_fork.1 h
    have step {c : Shape} (hc : HasShape t (some m) c) (fuel : Nat) :
        t.rootFrom (fuel + 1) c.top = t.rootFrom fuel m := by
      obtain ⟨first, second, hlinks⟩ := hc.links_top
      obtain ⟨node, hget, hparent, -⟩ := exists_of_links? hlinks
      simp [rootFrom, hget, hparent]
    rcases List.mem_cons.1 hn with rfl | hn
    · exact ⟨0, by simp, fun fuel => rfl⟩
    · rcases List.mem_append.1 hn with hn | hn
      · obtain ⟨steps, hlt, hclimb⟩ := iha ha hn
        refine ⟨steps + 1, ?_, fun fuel => ?_⟩
        · simp only [Shape.preorder_fork, List.length_cons, List.length_append]
          omega
        · rw [← Nat.add_assoc, Nat.add_right_comm, hclimb, step ha, Shape.top_fork]
      · obtain ⟨steps, hlt, hclimb⟩ := ihb hb hn
        refine ⟨steps + 1, ?_, fun fuel => ?_⟩
        · simp only [Shape.preorder_fork, List.length_cons, List.length_append]
          omega
        · rw [← Nat.add_assoc, Nat.add_right_comm, hclimb, step hb, Shape.top_fork]

theorem rootOf_mem {t : Tree} {s : Shape} (h : HasShape t none s) (hnodup : s.preorder.Nodup)
    {n : NodeId} (hn : n ∈ s.preorder) : t.rootOf n = some s.top := by
  obtain ⟨steps, hlt, hclimb⟩ := rootFrom_mem h hn
  have hle := h.length_preorder_le hnodup
  obtain ⟨fuel, hfuel⟩ : ∃ fuel, t.size + 1 = fuel + 1 + steps := ⟨t.size - steps, by omega⟩
  obtain ⟨first, second, hlinks⟩ := h.links_top
  obtain ⟨node, hget, hparent, -⟩ := exists_of_links? hlinks
  rw [rootOf, hfuel, hclimb]
  simp [rootFrom, hget, hparent]

/-! ## From leaf to leaf -/

theorem isSecondChild_of_links {t : Tree} {n m : NodeId} {p a b c : Option NodeId}
    {second : NodeId} (hn : t.links? n = some (some m, a, b))
    (hm : t.links? m = some (p, c, some second)) : t.isSecondChild n = (second == n) := by
  obtain ⟨node, hget, -, -, hsecond⟩ := exists_of_links? hm
  simp [isSecondChild, parent?_of_links? hn, hget, hsecond]

/-- The climb from the last leaf of a shape reaches its top, unless the root is in between. -/
theorem climb_last {t : Tree} {parent : Option NodeId} {s : Shape} {root : NodeId}
    (h : HasShape t parent s) (hroot : root ∉ s.preorder.tail) {before : List NodeId} {n : NodeId}
    (hleaves : s.leaves = before ++ [n]) :
    ∃ steps < s.preorder.length,
      ∀ fuel, t.climb root (fuel + steps) n = t.climb root fuel s.top := by
  induction s generalizing parent before with
  | leaf m =>
    obtain ⟨-, rfl⟩ : before = [] ∧ n = m := by
      cases before with
      | nil => simpa [eq_comm] using hleaves
      | cons x rest => simp at hleaves
    exact ⟨0, by simp, fun fuel => rfl⟩
  | fork m a b iha ihb =>
    obtain ⟨hlinks, -, hb⟩ := hasShape_fork.1 h
    obtain ⟨rest, hrest⟩ : ∃ rest, b.leaves = rest ++ [n] := by
      have hlast := congrArg List.getLast? hleaves
      rw [Shape.leaves_fork, List.getLast?_append_of_ne_nil _ b.leaves_ne_nil,
        List.getLast?_concat] at hlast
      exact List.getLast?_eq_some_iff.1 hlast
    simp only [Shape.preorder_fork, List.tail_cons, List.mem_append, not_or] at hroot
    obtain ⟨steps, hlt, hclimb⟩ := ihb hb (fun hmem => hroot.2 (List.mem_of_mem_tail hmem)) hrest
    obtain ⟨first, second, htop⟩ := hb.links_top
    have hsecond : t.isSecondChild b.top = true := by
      rw [isSecondChild_of_links htop hlinks, beq_self_eq_true]
    have hne : b.top ≠ root := fun heq => hroot.2 (heq ▸ b.top_mem_preorder)
    refine ⟨steps + 1, ?_, fun fuel => ?_⟩
    · simp only [Shape.preorder_fork, List.length_cons, List.length_append]
      omega
    · rw [← Nat.add_assoc, Nat.add_right_comm, hclimb, Shape.top_fork]
      simp [climb, hsecond, hne, parent?_of_links? htop]

/-- Inside a shape the next leaf is the next one of its list. -/
theorem nextLeaf_of_next {t : Tree} {parent : Option NodeId} {s : Shape} {root : NodeId}
    (h : HasShape t parent s) (hnodup : s.preorder.Nodup) (hroot : root ∉ s.preorder.tail)
    (hsize : s.preorder.length ≤ t.size) {before after : List NodeId} {n next : NodeId}
    (hleaves : s.leaves = before ++ n :: next :: after) : t.nextLeaf n root = some next := by
  induction s generalizing parent before after with
  | leaf m =>
    have hlen := congrArg List.length hleaves
    simp at hlen
    omega
  | fork m a b iha ihb =>
    obtain ⟨hlinks, ha, hb⟩ := hasShape_fork.1 h
    obtain ⟨⟨hma, -⟩, hanodup, hbnodup, hdisjoint⟩ := Shape.nodup_fork.1 hnodup
    simp only [Shape.preorder_fork, List.tail_cons, List.mem_append, not_or] at hroot
    simp only [Shape.preorder_fork, List.length_cons, List.length_append] at hsize
    have hroota : root ∉ a.preorder.tail := fun hmem => hroot.1 (List.mem_of_mem_tail hmem)
    have hrootb : root ∉ b.preorder.tail := fun hmem => hroot.2 (List.mem_of_mem_tail hmem)
    rw [Shape.leaves_fork] at hleaves
    rcases List.append_eq_append_iff.1 hleaves with ⟨rest, hbefore, hbleaves⟩ |
      ⟨rest, haleaves, hrest⟩
    · exact ihb hb hbnodup hrootb (by omega) hbleaves
    · match rest, hrest with
      | [], hrest =>
        have hbleaves : b.leaves = [] ++ n :: next :: after := hrest.symm
        exact ihb hb hbnodup hrootb (by omega) hbleaves
      | [x], hrest =>
        -- the step from the last leaf of the first child to the first leaf of the second
        obtain ⟨rfl, hbleaves⟩ : n = x ∧ next :: after = b.leaves := by simpa using hrest
        obtain ⟨steps, hlt, hclimb⟩ := climb_last ha hroota haleaves
        obtain ⟨fuel, hfuel⟩ : ∃ fuel, t.size + 1 = fuel + 1 + steps :=
          ⟨t.size - steps, by omega⟩
        obtain ⟨first, second, htop⟩ := ha.links_top
        have hsecond : t.isSecondChild a.top = false := by
          rw [isSecondChild_of_links htop hlinks, beq_eq_false_iff_ne]
          exact fun heq => hdisjoint _ a.top_mem_preorder (heq ▸ b.top_mem_preorder)
        have hne : a.top ≠ root := fun heq => hroot.1 (heq ▸ a.top_mem_preorder)
        have htopclimb : t.climb root (t.size + 1) n = some a.top := by
          rw [hfuel, hclimb]
          simp [climb, hsecond]
        obtain ⟨node, hget, -, -, hchild⟩ := exists_of_links? hlinks
        simp only [nextLeaf, htopclimb, beq_eq_false_iff_ne.2 hne, parent?_of_links? htop,
          Option.bind_some, hget, hchild]
        rw [leftmost_top hb hbnodup, ← hbleaves]
        rfl
      | x :: y :: rest, hrest =>
        obtain ⟨rfl, rfl, rfl⟩ : n = x ∧ next = y ∧ after = rest ++ b.leaves := by
          simpa using hrest
        exact iha ha hanodup hroota (by omega) haleaves

/-- After the last leaf there is none. -/
theorem nextLeaf_of_last {t : Tree} {parent : Option NodeId} {s : Shape}
    (h : HasShape t parent s) (hnodup : s.preorder.Nodup) {before : List NodeId} {n : NodeId}
    (hleaves : s.leaves = before ++ [n]) : t.nextLeaf n s.top = none := by
  obtain ⟨steps, hlt, hclimb⟩ := climb_last h (Shape.top_not_mem_tail hnodup) hleaves
  have hle := h.length_preorder_le hnodup
  obtain ⟨fuel, hfuel⟩ : ∃ fuel, t.size + 1 = fuel + 1 + steps := ⟨t.size - steps, by omega⟩
  have htop : t.climb s.top (t.size + 1) n = some s.top := by
    rw [hfuel, hclimb]
    simp [climb]
  simp [nextLeaf, htop]

/-- From any leaf on, the walk gives the rest of the list. -/
theorem leavesFrom_suffix {t : Tree} {parent : Option NodeId} {s : Shape}
    (h : HasShape t parent s) (hnodup : s.preorder.Nodup) {before rest : List NodeId}
    (hleaves : s.leaves = before ++ rest) {fuel : Nat} (hfuel : rest.length ≤ fuel) :
    t.leavesFrom s.top fuel rest.head? = rest := by
  induction rest generalizing before fuel with
  | nil => cases fuel <;> rfl
  | cons n rest ih =>
    cases fuel with
    | zero => simp at hfuel
    | succ fuel =>
      have hnext : t.nextLeaf n s.top = rest.head? := by
        cases rest with
        | nil => exact nextLeaf_of_last h hnodup hleaves
        | cons next after =>
          exact nextLeaf_of_next h hnodup (Shape.top_not_mem_tail hnodup)
            (h.length_preorder_le hnodup) hleaves
      have hsplit : s.leaves = (before ++ [n]) ++ rest := by simpa using hleaves
      have hwalk := ih hsplit (by simpa using hfuel)
      simp only [List.head?_cons, leavesFrom, hnext, hwalk]

/-- The leaf walk from the top of a shape, a root or an inner node, gives its leaves. -/
theorem leaves_top {t : Tree} {parent : Option NodeId} {s : Shape} (h : HasShape t parent s)
    (hnodup : s.preorder.Nodup) : t.leaves (some s.top) = s.leaves := by
  have hle : s.leaves.length ≤ t.size + 1 := by
    have hsub := s.leaves_sublist_preorder.length_le
    have hsize := h.length_preorder_le hnodup
    omega
  have hall : s.leaves = [] ++ s.leaves := rfl
  have hwalk := leavesFrom_suffix h hnodup hall hle
  rw [← leftmost_top h hnodup] at hwalk
  exact hwalk

/-- The walk from a node without children visits that node alone. -/
theorem leaves_of_isLeaf {t : Tree} {n : NodeId} {node : Node} (hget : t.get? n = some node)
    (hleaf : node.isLeaf = true) : t.leaves (some n) = [n] := by
  rw [Node.isLeaf, Bool.and_eq_true, Option.isNone_iff_eq_none, Option.isNone_iff_eq_none] at hleaf
  exact leaves_top (s := .leaf n) (.leaf hget rfl hleaf.1 hleaf.2) (by simp)

end Tiling.Tree
