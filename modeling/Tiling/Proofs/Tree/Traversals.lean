import Tiling.Proofs.Tree.Links
/-!
# The loops behind the walks

Every traversal is a loop over links.  Here the loops are written down round by round, without a
count of steps, and on a store whose links fit together each of them comes to an end and hands
back what its counted form does: the recursive lists of the subtree, the leaf after a leaf, the
root.
-/

namespace Tiling

/-- Repeating `round` from `s` comes to an end, and the last round hands back `r`. -/
inductive Ends {σ ρ : Type} (round : σ → σ ⊕ ρ) : σ → ρ → Prop where
  | done {s : σ} {r : ρ} : round s = .inr r → Ends round s r
  | again {s s' : σ} {r : ρ} : round s = .inl s' → Ends round s' r → Ends round s r

/-- A loop that is one phase of another brings that one to where its last round leaves it. -/
theorem Ends.phase {σ τ ρ ρ' : Type} {round : σ → σ ⊕ ρ} {whole : τ → τ ⊕ ρ'} (f : σ → τ)
    {s : σ} {r : ρ} {r' : ρ'} (h : Ends round s r)
    (hagain : ∀ {s s'}, round s = .inl s' → whole (f s) = .inl (f s'))
    (hdone : ∀ {s}, round s = .inr r → Ends whole (f s) r') : Ends whole (f s) r' := by
  induction h with
  | done hround => exact hdone hround
  | again hround _ ih => exact .again (hagain hround) (ih hdone)

namespace Tree

/-! ## Rounds -/

/-- On the way to the leftmost leaf: on to the first child. -/
def leftmostRound (t : Tree) (n : NodeId) : NodeId ⊕ Option NodeId :=
  match t.get? n with
  | none => .inr none
  | some node =>
    match node.firstChild with
    | none => .inr (some n)
    | some child => .inl child

/-- On the way up from second children: on to the parent, not past `root`. -/
def climbRound (t : Tree) (root n : NodeId) : NodeId ⊕ Option NodeId :=
  if t.isSecondChild n && n != root then
    match t.parent? n with
    | none => .inr none
    | some parent => .inl parent
  else .inr (some n)

/-- Where the search for the next leaf stands: on its way up, or down again. -/
inductive Stride where
  | up (n : NodeId)
  | down (n : NodeId)
  deriving DecidableEq, Repr

/-- On the way to the next leaf: up from second children, over to the sibling, down to the left. -/
def nextLeafRound (t : Tree) (root : NodeId) : Stride → Stride ⊕ Option NodeId
  | .up n =>
    match t.climbRound root n with
    | .inl parent => .inl (.up parent)
    | .inr none => .inr none
    | .inr (some top) =>
      if top == root then .inr none
      else
        match ((t.parent? top).bind t.get?).bind Node.secondChild with
        | none => .inr none
        | some sibling => .inl (.down sibling)
  | .down n =>
    match t.leftmostRound n with
    | .inl child => .inl (.down child)
    | .inr leaf => .inr leaf

/-- Writes down the leaf that the walk stands at and goes on to the next one. -/
def leavesRound (t : Tree) (root : NodeId) :
    List NodeId × Option NodeId → (List NodeId × Option NodeId) ⊕ List NodeId
  | (out, none) => .inr out
  | (out, some n) => .inl (out ++ [n], t.nextLeaf n root)

/-- Writes down the first pending node and puts its children in its place. -/
def preorderRound (t : Tree) :
    List NodeId × List NodeId → (List NodeId × List NodeId) ⊕ List NodeId
  | (out, []) => .inr out
  | (out, n :: pending) =>
    match t.get? n with
    | none => .inl (out, pending)
    | some node =>
      .inl (out ++ [n], node.firstChild.toList ++ node.secondChild.toList ++ pending)

/-- On the way to the root: on to the parent. -/
def rootRound (t : Tree) (n : NodeId) : NodeId ⊕ Option NodeId :=
  match t.get? n with
  | none => .inr none
  | some node =>
    match node.parent with
    | none => .inr (some n)
    | some parent => .inl parent

/-! ## Stores whose links fit together -/

/-- A node has no children or two, children and parents name each other, and no node is above
itself. -/
structure WellLinked (t : Tree) : Prop where
  joined : ∀ {n node}, t.get? n = some node →
    (node.firstChild = none ∧ node.secondChild = none) ∨
      ∃ a b, node.firstChild = some a ∧ node.secondChild = some b ∧ a ≠ b ∧
        t.parent? a = some n ∧ t.parent? b = some n
  child_of_parent : ∀ {n p}, t.parent? n = some p →
    ∃ node, t.get? p = some node ∧ (node.firstChild = some n ∨ node.secondChild = some n)
  acyclic : ∀ n, ¬ Relation.TransGen t.Climbs n n

theorem Forest.wellLinked {t : Tree} {shapes : List Shape} (h : t.Forest shapes) :
    t.WellLinked where
  joined := by
    intro n node hget
    cases h.wellJoined hget with
    | leaf _ hfirst hsecond => exact .inl ⟨hfirst, hsecond⟩
    | inner a b _ _ hfirst hsecond hne ha hb => exact .inr ⟨a, b, hfirst, hsecond, hne, ha, hb⟩
  child_of_parent := h.child_of_parent
  acyclic := h.acyclic

/-- `n` is `r` or below it: the climb from `n` passes `r`. -/
def Under (t : Tree) (r n : NodeId) : Prop := Relation.ReflTransGen t.Climbs r n

/-- Two nodes above the same one are one above the other: a climb never forks. -/
theorem under_or_under {t : Tree} {a b n : NodeId} (ha : t.Under a n) (hb : t.Under b n) :
    t.Under a b ∨ t.Under b a := by
  have hfork : Relator.RightUnique (Function.swap t.Climbs) := fun n p q hp hq =>
    Option.some.inj (hp.symm.trans hq)
  rcases Relation.ReflTransGen.total_of_right_unique hfork
    (Relation.reflTransGen_swap.2 ha) (Relation.reflTransGen_swap.2 hb) with hab | hba
  · exact .inr (Relation.reflTransGen_swap.1 hab)
  · exact .inl (Relation.reflTransGen_swap.1 hba)

theorem isSome_get?_of_parent? {t : Tree} {n p : NodeId} (h : t.parent? n = some p) :
    (t.get? n).isSome := by
  obtain ⟨node, hget, -⟩ := Option.bind_eq_some_iff.1 h
  rw [hget, Option.isSome_some]

/-- Nodes that a walk along `next` has passed on its way to `n`. -/
structure Trail (t : Tree) (next : NodeId → NodeId → Prop) (n : NodeId) (passed : List NodeId) :
    Prop where
  nodup : passed.Nodup
  live : ∀ m ∈ passed, (t.get? m).isSome
  before : ∀ m ∈ passed, Relation.TransGen next m n

namespace Trail

variable {t : Tree} {next : NodeId → NodeId → Prop} {n m : NodeId} {passed : List NodeId}

theorem nil (t : Tree) (next : NodeId → NodeId → Prop) (n : NodeId) : t.Trail next n [] where
  nodup := List.nodup_nil
  live := by simp
  before := by simp

theorem cons (h : t.Trail next n passed) (hacyclic : ¬ Relation.TransGen next n n)
    (hlive : (t.get? n).isSome) (hnext : next n m) : t.Trail next m (n :: passed) where
  nodup := List.nodup_cons.2 ⟨fun hmem => hacyclic (h.before n hmem), h.nodup⟩
  live := List.forall_mem_cons.2 ⟨hlive, h.live⟩
  before := List.forall_mem_cons.2 ⟨.single hnext, fun k hk => (h.before k hk).tail hnext⟩

theorem length_le (h : t.Trail next n passed) : passed.length ≤ t.size :=
  length_le_size h.nodup h.live

end Trail

/-! ## What a round follows -/

theorem firstChild_of_leftmostRound {t : Tree} {n c : NodeId} (h : t.leftmostRound n = .inl c) :
    ∃ node, t.get? n = some node ∧ node.firstChild = some c := by
  rw [leftmostRound] at h
  cases hget : t.get? n with
  | none => simp [hget] at h
  | some node =>
    refine ⟨node, rfl, ?_⟩
    cases hfirst : node.firstChild with
    | none => simp [hget, hfirst] at h
    | some child => simpa [hget, hfirst] using h

theorem climbs_of_climbRound {t : Tree} {root n p : NodeId} (h : t.climbRound root n = .inl p) :
    t.Climbs p n := by
  rw [climbRound] at h
  split at h
  · rw [Climbs]
    cases hp : t.parent? n with
    | none => simp [hp] at h
    | some parent => simpa [hp] using h
  · cases h

theorem rootRound_eq_inl_iff {t : Tree} {n p : NodeId} :
    t.rootRound n = .inl p ↔ t.Climbs p n := by
  rw [rootRound, Climbs, parent?]
  cases t.get? n with
  | none => simp
  | some node => cases hp : node.parent <;> simp [hp]

theorem rootRound_eq_inr_iff {t : Tree} {n : NodeId} {stop : Option NodeId}
    (hn : (t.get? n).isSome) : t.rootRound n = .inr stop ↔ t.parent? n = none ∧ stop = some n := by
  obtain ⟨node, hget⟩ := Option.isSome_iff_exists.1 hn
  rw [rootRound, parent?, hget, Option.bind_some]
  cases hp : node.parent <;> simp [hp, eq_comm]

/-! ## Loops that follow one kind of link -/

/-- A loop whose rounds follow an acyclic relation on the nodes of the store ends before it has
made more rounds than there are slots. -/
theorem ends_of_acyclic {t : Tree} {round : NodeId → NodeId ⊕ Option NodeId}
    (run : Nat → NodeId → Option NodeId) (next : NodeId → NodeId → Prop)
    (hrun : ∀ fuel n, run (fuel + 1) n = (round n).elim (run fuel) id)
    (hnext : ∀ {n m}, round n = .inl m → (t.get? n).isSome ∧ next n m)
    (hacyclic : ∀ n, ¬ Relation.TransGen next n n) (n : NodeId) :
    Ends round n (run (t.size + 1) n) := by
  -- what is left to count and what has been passed always come to the same sum
  suffices key : ∀ fuel n passed, t.Trail next n passed → t.size + 1 = fuel + passed.length →
      Ends round n (run fuel n) from key (t.size + 1) n [] (.nil t next n) rfl
  intro fuel
  induction fuel with
  | zero =>
    intro n passed htrail hcount
    have hle := htrail.length_le
    omega
  | succ fuel ih =>
    intro n passed htrail hcount
    rw [hrun]
    cases hround : round n with
    | inr r => exact .done hround
    | inl m =>
      obtain ⟨hlive, hstep⟩ := hnext hround
      have hmore := htrail.cons (hacyclic n) hlive hstep
      exact .again hround (ih m (n :: passed) hmore (by rw [hcount, List.length_cons]; omega))

namespace WellLinked

variable {t : Tree}

theorem child_climbs (h : t.WellLinked) {n c : NodeId} {node : Node} (hget : t.get? n = some node)
    (hc : node.firstChild = some c ∨ node.secondChild = some c) : t.Climbs n c := by
  rcases h.joined hget with ⟨hfirst, hsecond⟩ | ⟨a, b, hfirst, hsecond, -, ha, hb⟩
  · simp [hfirst, hsecond] at hc
  · rw [hfirst, hsecond, Option.some_inj, Option.some_inj] at hc
    rcases hc with rfl | rfl
    · exact ha
    · exact hb

theorem not_above_itself (h : t.WellLinked) (n : NodeId) :
    ¬ Relation.TransGen (Function.swap t.Climbs) n n :=
  fun hcycle => h.acyclic n (Relation.transGen_swap.1 hcycle)

theorem ends_leftmost (h : t.WellLinked) (n : NodeId) :
    Ends t.leftmostRound n (t.leftmost (some n)) := by
  refine ends_of_acyclic t.leftmostFrom t.Climbs ?_ ?_ h.acyclic n
  · intro fuel n
    rw [leftmostFrom, leftmostRound]
    cases t.get? n with
    | none => rfl
    | some node => cases hfirst : node.firstChild <;> simp [hfirst]
  · intro n c hround
    obtain ⟨node, hget, hfirst⟩ := firstChild_of_leftmostRound hround
    exact ⟨by rw [hget, Option.isSome_some], h.child_climbs hget (.inl hfirst)⟩

theorem ends_climb (h : t.WellLinked) (root n : NodeId) :
    Ends (t.climbRound root) n (t.climb root (t.size + 1) n) := by
  refine ends_of_acyclic (t.climb root) (Function.swap t.Climbs) ?_ ?_ h.not_above_itself n
  · intro fuel n
    rw [climb, climbRound]
    split
    · cases t.parent? n <;> rfl
    · rfl
  · intro n p hround
    have hclimbs := climbs_of_climbRound hround
    exact ⟨isSome_get?_of_parent? hclimbs, hclimbs⟩

theorem ends_rootOf (h : t.WellLinked) (n : NodeId) : Ends t.rootRound n (t.rootOf n) := by
  refine ends_of_acyclic t.rootFrom (Function.swap t.Climbs) ?_ ?_ h.not_above_itself n
  · intro fuel n
    rw [rootFrom, rootRound]
    cases t.get? n with
    | none => rfl
    | some node => cases hp : node.parent <;> simp [hp]
  · intro n p hround
    have hclimbs := rootRound_eq_inl_iff.1 hround
    exact ⟨isSome_get?_of_parent? hclimbs, hclimbs⟩

/-- Up until the climb stops, then down from the sibling. -/
theorem ends_nextLeaf (h : t.WellLinked) (root n : NodeId) :
    Ends (t.nextLeafRound root) (.up n) (t.nextLeaf n root) := by
  have hdown (m : NodeId) : Ends (t.nextLeafRound root) (.down m) (t.leftmost (some m)) :=
    (h.ends_leftmost m).phase Stride.down (fun hround => by rw [nextLeafRound, hround])
      fun hround => .done (by rw [nextLeafRound, hround])
  apply (h.ends_climb root n).phase Stride.up
  · intro n m hround
    rw [nextLeafRound, hround]
  · intro m hround
    rw [nextLeaf]
    cases hstop : t.climb root (t.size + 1) _ with
    | none => exact .done (by rw [nextLeafRound, hround, hstop])
    | some top =>
      by_cases htop : top = root
      · exact .done (by simp [nextLeafRound, hround, hstop, htop])
      cases hparent : (t.parent? top).bind t.get? with
      | none => exact .done (by simp [nextLeafRound, hround, hstop, htop, hparent])
      | some parent =>
        cases hsibling : parent.secondChild with
        | none =>
          exact .done (by simp [nextLeafRound, hround, hstop, htop, hparent, hsibling, leftmost])
        | some sibling =>
          have hover : t.nextLeafRound root (.up m) = .inl (.down sibling) := by
            simp [nextLeafRound, hround, hstop, htop, hparent, hsibling]
          apply Ends.again hover
          simpa [htop, hparent, hsibling] using hdown sibling

/-- From a node of the store the climb ends at a node that has no parent. -/
theorem root_of_ends (h : t.WellLinked) {n : NodeId} {stop : Option NodeId}
    (hends : Ends t.rootRound n stop) (hn : (t.get? n).isSome) :
    ∃ top, stop = some top ∧ t.parent? top = none ∧ t.Under top n := by
  induction hends with
  | done hround =>
    obtain ⟨hnone, rfl⟩ := (rootRound_eq_inr_iff hn).1 hround
    exact ⟨_, rfl, hnone, .refl⟩
  | again hround _ ih =>
    have hclimbs := rootRound_eq_inl_iff.1 hround
    obtain ⟨above, habove, -⟩ := h.child_of_parent hclimbs
    obtain ⟨top, hstop, hnone, hunder⟩ := ih (by rw [habove, Option.isSome_some])
    exact ⟨top, hstop, hnone, hunder.tail hclimbs⟩

end WellLinked

/-! ## Subtrees -/

namespace HasShape

variable {t : Tree} {parent : Option NodeId} {s : Shape}

theorem under_of_mem (h : HasShape t parent s) {n : NodeId} (hn : n ∈ s.preorder) :
    t.Under s.top n := by
  induction s generalizing parent with
  | leaf m =>
    obtain rfl : n = m := by simpa using hn
    exact .refl
  | fork m a b iha ihb =>
    obtain ⟨-, ha, hb⟩ := hasShape_fork.1 h
    rcases List.mem_cons.1 hn with rfl | hn
    · exact .refl
    rcases List.mem_append.1 hn with hn | hn
    · exact .head ha.parent?_top (iha ha hn)
    · exact .head hb.parent?_top (ihb hb hn)

/-- The nodes of a shape are all that is under its top. -/
theorem mem_preorder_iff_under (h : HasShape t parent s) (hlinked : t.WellLinked) {n : NodeId} :
    n ∈ s.preorder ↔ t.Under s.top n := by
  refine ⟨h.under_of_mem, fun hunder => ?_⟩
  induction hunder with
  | refl => exact s.top_mem_preorder
  | @tail p n _ hclimbs hp =>
    obtain ⟨node, hget, hchild⟩ := hlinked.child_of_parent hclimbs
    obtain ⟨above, sub, rfl, hsub, hsublist, -⟩ := h.exists_sub hp
    refine hsublist.subset ?_
    cases sub with
    | leaf m =>
      obtain ⟨node', hget', -, hfirst, hsecond⟩ := exists_of_links? (hasShape_leaf.1 hsub)
      obtain rfl : node' = node := Option.some.inj (hget'.symm.trans hget)
      simp [hfirst, hsecond] at hchild
    | fork m a b =>
      obtain ⟨hlinks, -, -⟩ := hasShape_fork.1 hsub
      obtain ⟨node', hget', -, hfirst, hsecond⟩ := exists_of_links? hlinks
      obtain rfl : node' = node := Option.some.inj (hget'.symm.trans hget)
      rw [hfirst, hsecond, Option.some_inj, Option.some_inj] at hchild
      rw [Shape.preorder_fork, List.mem_cons, List.mem_append]
      rcases hchild with rfl | rfl
      · exact .inr (.inl a.top_mem_preorder)
      · exact .inr (.inr b.top_mem_preorder)

/-- Siblings have nothing in common: a node under both would put one of them under the other. -/
theorem nodup_preorder (h : HasShape t parent s) (hlinked : t.WellLinked) : s.preorder.Nodup := by
  induction s generalizing parent with
  | leaf n => simp
  | fork n a b iha ihb =>
    obtain ⟨hlinks, ha, hb⟩ := hasShape_fork.1 h
    have hout {c : Shape} (hc : HasShape t (some n) c) : n ∉ c.preorder := fun hn =>
      hlinked.acyclic n (.head' hc.parent?_top (hc.under_of_mem hn))
    have hapart {c d : Shape} (hc : HasShape t (some n) c) (hd : HasShape t (some n) d)
        (hne : c.top ≠ d.top) : ¬ t.Under c.top d.top := by
      intro hunder
      rcases hunder.cases_tail with heq | ⟨p, hp, hclimbs⟩
      · exact hne heq.symm
      · obtain rfl : n = p := Option.some.inj (hd.parent?_top.symm.trans hclimbs)
        exact hlinked.acyclic n (.head' hc.parent?_top hp)
    have hne : a.top ≠ b.top := by
      obtain ⟨node, hget, -, hfirst, hsecond⟩ := exists_of_links? hlinks
      rcases hlinked.joined hget with ⟨hnone, -⟩ | ⟨x, y, hx, hy, hxy, -⟩
      · simp [hfirst] at hnone
      · rw [hfirst, Option.some_inj] at hx
        rw [hsecond, Option.some_inj] at hy
        exact hx ▸ hy ▸ hxy
    refine Shape.nodup_fork.2 ⟨⟨hout ha, hout hb⟩, iha ha, ihb hb, fun m hma hmb => ?_⟩
    rcases under_or_under (ha.under_of_mem hma) (hb.under_of_mem hmb) with hunder | hunder
    · exact hapart ha hb hne hunder
    · exact hapart hb ha hne.symm hunder

/-- The leaves of a shape are its nodes without children. -/
theorem filter_preorder (h : HasShape t parent s) :
    s.preorder.filter (fun n => (t.get? n).any Node.isLeaf) = s.leaves := by
  induction s generalizing parent with
  | leaf n =>
    obtain ⟨node, hget, -, hfirst, hsecond⟩ := exists_of_links? (hasShape_leaf.1 h)
    simp [hget, Node.isLeaf, hfirst, hsecond]
  | fork n a b iha ihb =>
    obtain ⟨hlinks, ha, hb⟩ := hasShape_fork.1 h
    obtain ⟨node, hget, -, hfirst, -⟩ := exists_of_links? hlinks
    have hinner : (t.get? n).any Node.isLeaf = false := by simp [hget, Node.isLeaf, hfirst]
    rw [Shape.preorder_fork, List.filter_cons, hinner, if_neg Bool.false_ne_true,
      List.filter_append, iha ha, ihb hb, Shape.leaves_fork]

/-- Writing a shape down in front of what is pending. -/
theorem ends_preorder (h : HasShape t parent s) {out pending result : List NodeId}
    (hrest : Ends t.preorderRound (out ++ s.preorder, pending) result) :
    Ends t.preorderRound (out, s.top :: pending) result := by
  induction s generalizing parent out pending with
  | leaf n =>
    obtain ⟨node, hget, -, hfirst, hsecond⟩ := exists_of_links? (hasShape_leaf.1 h)
    exact .again (by simp [preorderRound, hget, hfirst, hsecond]) hrest
  | fork n a b iha ihb =>
    obtain ⟨hlinks, ha, hb⟩ := hasShape_fork.1 h
    obtain ⟨node, hget, -, hfirst, hsecond⟩ := exists_of_links? hlinks
    have hround : t.preorderRound (out, n :: pending) =
        .inl (out ++ [n], a.top :: b.top :: pending) := by
      simp [preorderRound, hget, hfirst, hsecond]
    apply Ends.again hround
    apply iha ha
    apply ihb hb
    simpa using hrest

/-- Inside a subtree the next leaf is the next one of its list, and there is none after the
last. -/
theorem nextLeaf_eq (h : HasShape t parent s) (hnodup : s.preorder.Nodup)
    {before after : List NodeId} {n : NodeId} (hleaves : s.leaves = before ++ n :: after) :
    t.nextLeaf n s.top = after.head? := by
  cases after with
  | nil => exact nextLeaf_of_last h hnodup hleaves
  | cons next after =>
    exact nextLeaf_of_next h hnodup (Shape.top_not_mem_tail hnodup) (h.length_preorder_le hnodup)
      hleaves

theorem ends_leaves (h : HasShape t parent s) (hnodup : s.preorder.Nodup)
    {before rest : List NodeId} (hleaves : s.leaves = before ++ rest) :
    Ends (t.leavesRound s.top) (before, rest.head?) s.leaves := by
  induction rest generalizing before with
  | nil => exact .done (by simp [leavesRound, hleaves])
  | cons n rest ih =>
    have hround : t.leavesRound s.top (before, some n) = .inl (before ++ [n], rest.head?) := by
      rw [leavesRound, h.nextLeaf_eq hnodup hleaves]
    apply Ends.again hround
    apply ih
    simpa using hleaves

end HasShape

namespace WellLinked

variable {t : Tree}

/-- Every node of the store is the top of a subtree. -/
theorem exists_shape (h : t.WellLinked) {n : NodeId} (hn : (t.get? n).isSome) :
    ∃ s, s.top = n ∧ HasShape t (t.parent? n) s := by
  -- downwards a trail grows at each step, and it has room for no more than the slots
  suffices key : ∀ fuel n passed, t.Trail t.Climbs n passed → t.size < fuel + passed.length →
      (t.get? n).isSome → ∃ s, s.top = n ∧ HasShape t (t.parent? n) s from
    key (t.size + 1) n [] (.nil t t.Climbs n) (Nat.lt_succ_self _) hn
  intro fuel
  induction fuel with
  | zero =>
    intro n passed htrail hcount
    have hle := htrail.length_le
    omega
  | succ fuel ih =>
    intro n passed htrail hcount hn
    obtain ⟨node, hget⟩ := Option.isSome_iff_exists.1 hn
    have hparent : node.parent = t.parent? n := by rw [parent?, hget, Option.bind_some]
    rcases h.joined hget with ⟨hfirst, hsecond⟩ | ⟨a, b, hfirst, hsecond, -, ha, hb⟩
    · exact ⟨.leaf n, rfl, .leaf hget hparent hfirst hsecond⟩
    · have hbelow {c : NodeId} (hc : t.parent? c = some n) :
          ∃ s, s.top = c ∧ HasShape t (some n) s := by
        rw [← hc]
        refine ih c (n :: passed) (htrail.cons (h.acyclic n) hn hc) ?_ (isSome_get?_of_parent? hc)
        rw [List.length_cons]
        omega
      obtain ⟨first, rfl, hfirstShape⟩ := hbelow ha
      obtain ⟨second, rfl, hsecondShape⟩ := hbelow hb
      exact ⟨.fork n first second, rfl,
        .fork hget hparent hfirst hsecond hfirstShape hsecondShape⟩

end WellLinked

/-! ## The walks of a subtree -/

/-- Each loop, started for the node `r`, comes to an end with what the traversal hands back. -/
structure LoopsEnd (t : Tree) (r : NodeId) : Prop where
  leftmost : Ends t.leftmostRound r (t.leftmost (some r))
  nextLeaf : ∀ n, Ends (t.nextLeafRound r) (.up n) (t.nextLeaf n r)
  leaves : Ends (t.leavesRound r) ([], t.leftmost (some r)) (t.leaves (some r))
  preorder : Ends t.preorderRound ([], [r]) (t.preorder (some r))
  rootOf : Ends t.rootRound r (t.rootOf r)

/-- The loops over links agree with the recursive account of the subtree of `r`. -/
theorem walks_of_wellLinked {t : Tree} (h : t.WellLinked) {r : NodeId}
    (hr : (t.get? r).isSome) :
    t.LoopsEnd r ∧
    (∃ top, t.rootOf r = some top ∧ t.parent? top = none ∧ t.Under top r) ∧
    (∃ s, s.top = r ∧ HasShape t (t.parent? r) s ∧ t.leaves (some r) = s.leaves ∧
      t.preorder (some r) = s.preorder) ∧
    (t.preorder (some r)).Nodup ∧ (∀ n, n ∈ t.preorder (some r) ↔ t.Under r n) ∧
    (t.leaves (some r)).Nodup ∧
    (∀ n, n ∈ t.leaves (some r) ↔ t.Under r n ∧ (t.get? n).any Node.isLeaf) ∧
    (t.preorder (some r)).filter (fun n => (t.get? n).any Node.isLeaf) = t.leaves (some r) ∧
    ∀ before n after, t.leaves (some r) = before ++ n :: after →
      t.nextLeaf n r = after.head? := by
  obtain ⟨s, rfl, hs⟩ := h.exists_shape hr
  have hnodup := hs.nodup_preorder h
  have hleaves := leaves_top hs hnodup
  have hpreorder := preorder_top hs hnodup
  have hloops : t.LoopsEnd s.top :=
    { leftmost := h.ends_leftmost s.top
      nextLeaf := h.ends_nextLeaf s.top
      leaves := by
        rw [leftmost_top hs hnodup, hleaves]
        exact hs.ends_leaves hnodup rfl
      preorder := by
        rw [hpreorder]
        exact hs.ends_preorder (.done rfl)
      rootOf := h.ends_rootOf s.top }
  refine ⟨hloops, h.root_of_ends hloops.rootOf hr, ⟨s, rfl, hs, hleaves, hpreorder⟩, ?_⟩
  rw [hleaves, hpreorder]
  refine ⟨hnodup, fun n => hs.mem_preorder_iff_under h, s.leaves_sublist_preorder.nodup hnodup,
    fun n => ?_, hs.filter_preorder, fun before n after => hs.nextLeaf_eq hnodup⟩
  rw [← hs.filter_preorder, List.mem_filter, hs.mem_preorder_iff_under h]

/-- A tree of three leaves and one of a single leaf, beside a released slot. -/
def thicket : Tree :=
  ⟨⟨#[some { Node.leaf (.plain 1) with parent := some ⟨3⟩ },
    some { Node.leaf (.plain 2) with parent := some ⟨4⟩ },
    some { Node.leaf (.plain 3) with parent := some ⟨4⟩ },
    some (.inner none ⟨4⟩ ⟨0⟩), some (.inner (some ⟨3⟩) ⟨1⟩ ⟨2⟩), none, some (.leaf (.plain 4))],
    [5]⟩⟩

/-- Below an inner node the walks stop short of the leaf that follows in the whole tree. -/
theorem walks_thicket :
    thicket.WellLinked ∧ thicket.LoopsEnd ⟨4⟩ ∧ thicket.leaves (some ⟨4⟩) = [⟨1⟩, ⟨2⟩] ∧
      thicket.preorder (some ⟨4⟩) = [⟨4⟩, ⟨1⟩, ⟨2⟩] ∧ thicket.nextLeaf ⟨1⟩ ⟨4⟩ = some ⟨2⟩ ∧
      thicket.nextLeaf ⟨2⟩ ⟨4⟩ = none ∧ thicket.nextLeaf ⟨2⟩ ⟨3⟩ = some ⟨0⟩ := by
  have hforest : thicket.Forest
      [.fork ⟨3⟩ (.fork ⟨4⟩ (.leaf ⟨1⟩) (.leaf ⟨2⟩)) (.leaf ⟨0⟩), .leaf ⟨6⟩] := by decide
  have hlinked := hforest.wellLinked
  obtain ⟨hloops, -, -, -, -, -, -, -, hnext⟩ := walks_of_wellLinked hlinked (r := ⟨4⟩) (by decide)
  have hleaves : thicket.leaves (some ⟨4⟩) = [⟨1⟩, ⟨2⟩] := by decide
  exact ⟨hlinked, hloops, hleaves, by decide, hnext [] ⟨1⟩ [⟨2⟩] hleaves,
    hnext [⟨1⟩] ⟨2⟩ [] hleaves, by decide⟩

end Tree

end Tiling
