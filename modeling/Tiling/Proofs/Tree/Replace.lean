import Tiling.Proofs.Tree.Forest
/-!
# Replacing a subtree

An edit puts a shape into the place of another one.  The parent of that place is linked to the
new shape; all other trees keep their links, and every node that stays keeps what it holds.
-/

namespace Tiling.Tree

/-! ## Relinking the parent of the hole -/

theorem surrounds_modify {t : Tree} {f : Frame} {frames : List Frame} {old new : NodeId}
    (h : Surrounds t old (f :: frames)) (hnodup : (outside (f :: frames)).Nodup)
    (g : Node → Node)
    (hg : ∀ node, node.links = (above frames, f.children old) →
      (g node).links = (above frames, f.children new)) :
    Surrounds (t.modify f.node g) new (f :: frames) := by
  obtain ⟨hnode, hsibling, hrest⟩ := h
  rw [outside, List.flatMap_cons, Frame.nodes, List.cons_append, List.nodup_cons,
    List.mem_append, not_or] at hnodup
  obtain ⟨⟨hnot, hnot'⟩, -⟩ := hnodup
  refine ⟨?_, hsibling.congr fun m hm => ?_, hrest.congr fun m hm => ?_⟩
  · obtain ⟨node, hget, hlinks⟩ := Option.map_eq_some_iff.1 hnode
    rw [links?, get?_modify, if_pos rfl, hget]
    exact congrArg some (hg node hlinks)
  · have hne : f.node ≠ m := fun heq => hnot (heq ▸ hm)
    exact links?_congr (by rw [get?_modify, if_neg hne])
  · have hne : f.node ≠ m := fun heq => hnot' (heq ▸ hm)
    exact links?_congr (by rw [get?_modify, if_neg hne])

theorem mem_outside_of_above {frames : List Frame} {n : NodeId} (h : above frames = some n) :
    n ∈ outside frames := by
  cases frames with
  | nil => cases h
  | cons f frames =>
    obtain rfl : f.node = n := by simpa [above] using h
    simp [outside, Frame.nodes]

/-- Relinking the parent of the hole, or the root without a parent, to another node. -/
theorem replaceChild_spec {t : Tree} {frames : List Frame} {old : NodeId}
    (h : Surrounds t old frames) (hnodup : (outside frames).Nodup) (hold : old ∉ outside frames)
    (root : Option NodeId) (new : NodeId) :
    let r := t.replaceChild root (above frames) old new
    r.2 = (if frames = [] then some new else root) ∧ Surrounds r.1 new frames ∧
      (∀ m, above frames ≠ some m → r.1.get? m = t.get? m) ∧
      (∀ m, r.1.contents? m = t.contents? m) ∧
      (t.nodes.WellFormed → r.1.nodes.WellFormed) := by
  intro r
  cases frames with
  | nil => exact ⟨rfl, trivial, fun m _ => rfl, fun m => rfl, id⟩
  | cons f frames =>
    obtain ⟨node, hget, -, hfirst, hsecond⟩ := exists_of_links? h.1
    have hother (g : Node → Node) (m : NodeId) (hm : some f.node ≠ some m) :
        (t.modify f.node g).get? m = t.get? m := by
      rw [get?_modify, if_neg fun heq => hm (congrArg some heq)]
    have habove : (above (f :: frames)).bind (fun p => (t.get? p).map fun node => (p, node)) =
        some (f.node, node) := by
      simp [above, hget]
    cases f with
    | first n b =>
      have hr : r = (t.modify n fun node => { node with firstChild := some new }, root) := by
        simp only [r, replaceChild, habove, hfirst, Frame.node, beq_self_eq_true, if_true]
      rw [hr]
      refine ⟨rfl, surrounds_modify h hnodup _ ?_, hother _,
        fun m => contents?_modify t n m _ fun _ => rfl, fun hslots => hslots.modify _ _⟩
      intro node hlinks
      simp only [Node.links, Frame.children, Prod.mk.injEq] at hlinks ⊢
      exact ⟨hlinks.1, trivial, hlinks.2.2⟩
    | second n a =>
      have hne : a.top ≠ old := by
        intro heq
        apply hold
        simp [outside, Frame.nodes, Frame.sibling, ← heq, a.top_mem_preorder]
      have hr : r = (t.modify n fun node => { node with secondChild := some new }, root) := by
        simp only [r, replaceChild, habove, hfirst, Frame.node, Option.some_beq_some,
          beq_eq_false_iff_ne.2 hne]
        rfl
      rw [hr]
      refine ⟨rfl, surrounds_modify h hnodup _ ?_, hother _,
        fun m => contents?_modify t n m _ fun _ => rfl, fun hslots => hslots.modify _ _⟩
      intro node hlinks
      simp only [Node.links, Frame.children, Prod.mk.injEq] at hlinks ⊢
      exact ⟨hlinks.1, hlinks.2.1, trivial⟩

/-! ## Replacing what is in the hole -/

theorem preorder_plug_cons (frames : List Frame) (s : Shape) (rest : List Shape) :
    ((plug frames s :: rest).flatMap Shape.preorder).Perm
      (s.preorder ++ (outside frames ++ rest.flatMap Shape.preorder)) := by
  rw [List.flatMap_cons, ← List.append_assoc]
  exact (preorder_plug frames s).append_right _

theorem Forest.isSome_around {t : Tree} {frames : List Frame} {s : Shape} {rest : List Shape}
    (h : t.Forest (plug frames s :: rest)) {n : NodeId}
    (hn : n ∈ outside frames ++ rest.flatMap Shape.preorder) :
    (t.get? n).isSome ∧ n ∉ s.preorder := by
  have hperm := preorder_plug_cons frames s rest
  obtain ⟨-, -, hdisjoint⟩ := List.nodup_append.1 (hperm.nodup_iff.1 h.nodup)
  refine ⟨h.isSome_get?_iff.2 (hperm.mem_iff.2 (List.mem_append_right _ hn)), fun hs => ?_⟩
  exact hdisjoint n hs n hn rfl

theorem Forest.isSome_hole {t : Tree} {frames : List Frame} {s : Shape} {rest : List Shape}
    (h : t.Forest (plug frames s :: rest)) {n : NodeId} (hn : n ∈ s.preorder) :
    (t.get? n).isSome :=
  h.isSome_get?_iff.2 ((preorder_plug_cons frames s rest).mem_iff.2 (List.mem_append_left _ hn))

theorem ne_of_isSome {t : Tree} {n m : NodeId} (hn : (t.get? n).isSome) (hm : t.get? m = none) :
    n ≠ m := by
  intro heq
  rw [heq, hm] at hn
  cases hn

/-- An edit that puts the shape `new` in the place of `old` keeps a forest when the new nodes
were unused and all other nodes stay as they are. -/
theorem Forest.replace {t t' : Tree} {frames : List Frame} {old new : Shape} {rest : List Shape}
    (h : t.Forest (plug frames old :: rest)) (hslots : t'.nodes.WellFormed)
    (hsurrounds : Surrounds t' new.top frames) (hnew : HasShape t' (above frames) new)
    (hnodup : new.preorder.Nodup)
    (hunused : ∀ n ∈ new.preorder, n ∈ old.preorder ∨ t.get? n = none)
    (hother : ∀ n, n ∉ new.preorder → n ∉ old.preorder → t'.contents? n = t.contents? n)
    (hgone : ∀ n, n ∉ new.preorder → n ∈ old.preorder → t'.get? n = none)
    (hrest : ∀ s ∈ rest, ∀ n ∈ s.preorder, t'.links? n = t.links? n)
    (hleaves : ∀ n ∈ new.leaves, (t'.client? n).isSome)
    (hinner : ∀ n ∈ new.inner, t'.client? n = none ∧ t'.presel? n = none) :
    t'.Forest (plug frames new :: rest) := by
  have hperm := preorder_plug_cons frames old rest
  obtain ⟨-, hothers, -⟩ := List.nodup_append.1 (hperm.nodup_iff.1 h.nodup)
  have hnotnew : ∀ n ∈ outside frames ++ rest.flatMap Shape.preorder, n ∉ new.preorder := by
    intro n hn hmem
    obtain ⟨hlive, hnotold⟩ := h.isSome_around hn
    rcases hunused n hmem with hold | hnone
    · exact hnotold hold
    · exact ne_of_isSome hlive hnone rfl
  have hkeep : ∀ n ∈ outside frames ++ rest.flatMap Shape.preorder,
      t'.contents? n = t.contents? n := fun n hn =>
    hother n (hnotnew n hn) (h.isSome_around hn).2
  have hframes : ∀ n ∈ outside frames, t'.contents? n = t.contents? n :=
    fun n hn => hkeep n (List.mem_append_left _ hn)
  have hold := h.stands _ List.mem_cons_self
  refine ⟨hslots, fun s hs => ?_, ?_, fun n hn => ?_⟩
  · rcases List.mem_cons.1 hs with rfl | hs
    · refine ⟨hasShape_plug.2 ⟨hsurrounds, hnew⟩, fun n hn => ?_, fun n hn => ?_, fun n hn => ?_⟩
      · rcases mem_leaves_plug.1 hn with hn | hn
        · exact hleaves n hn
        · rw [client?_of_contents? (hframes n (mem_outside_iff.2 (.inl hn)))]
          exact hold.leaf_client n (mem_leaves_plug.2 (.inr hn))
      · rcases mem_inner_plug.1 hn with hn | hn
        · exact (hinner n hn).1
        · rw [client?_of_contents? (hframes n (mem_outside_iff.2 (.inr hn)))]
          exact hold.inner_client n (mem_inner_plug.2 (.inr hn))
      · rcases mem_inner_plug.1 hn with hn | hn
        · exact (hinner n hn).2
        · rw [presel?_of_contents? (hframes n (mem_outside_iff.2 (.inr hn)))]
          exact hold.inner_presel n (mem_inner_plug.2 (.inr hn))
    · exact (h.stands s (List.mem_cons_of_mem _ hs)).congr (hrest s hs) fun n hn =>
        hkeep n (List.mem_append_right _ (List.mem_flatMap.2 ⟨s, hs, hn⟩))
  · rw [(preorder_plug_cons frames new rest).nodup_iff, List.nodup_append]
    exact ⟨hnodup, hothers, fun n hn m hm heq => hnotnew m hm (heq ▸ hn)⟩
  · rw [(preorder_plug_cons frames new rest).mem_iff, List.mem_append]
    by_cases hmem : n ∈ new.preorder
    · exact .inl hmem
    by_cases hmemold : n ∈ old.preorder
    · rw [hgone n hmem hmemold] at hn
      cases hn
    · have hlive : (t.get? n).isSome := by
        have hsame := congrArg Option.isSome (hother n hmem hmemold)
        simp only [contents?, Option.isSome_map] at hsame
        rw [← hsame, hn]
      have hall := hperm.mem_iff.1 (h.covers n hlive)
      exact .inr ((List.mem_append.1 hall).resolve_left hmemold)

/-! ## Changing the parent of a node -/

/-- What a node becomes when it is put below another, or at a root. -/
def adopt (parent : Option NodeId) (node : Node) : Node := { node with parent := parent }

theorem links?_modify_adopt (t : Tree) (n m : NodeId) (parent : Option NodeId) :
    (t.modify n (adopt parent)).links? m =
      if n = m then (t.links? n).map fun links => (parent, links.2) else t.links? m := by
  rw [links?, get?_modify]
  by_cases h : n = m
  · rw [if_pos h, if_pos h, links?, Option.map_map, Option.map_map]
    rfl
  · rw [if_neg h, if_neg h, links?]

theorem contents?_modify_adopt (t : Tree) (n m : NodeId) (parent : Option NodeId) :
    (t.modify n (adopt parent)).contents? m = t.contents? m :=
  contents?_modify t n m (adopt parent) fun _ => rfl

end Tiling.Tree
