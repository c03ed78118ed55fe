import Tiling.Proofs.Tree.Replace
/-!
# Insertion follows the shape

Inserting a leaf splits the target leaf of one tree: a joint takes its place, with the two leaves
below it.  In an empty tree the leaf becomes the root.
-/

namespace Tiling.Tree

/-- A split leaf: the new leaf stands before or after the old one. -/
def pair (joint old fresh : NodeId) (newFirst : Bool) : Shape :=
  if newFirst then .fork joint (.leaf fresh) (.leaf old) else .fork joint (.leaf old) (.leaf fresh)

@[simp] theorem top_pair (joint old fresh : NodeId) (newFirst : Bool) :
    (pair joint old fresh newFirst).top = joint := by
  cases newFirst <;> rfl

theorem mem_leaves_pair {joint old fresh m : NodeId} {newFirst : Bool} :
    m ∈ (pair joint old fresh newFirst).leaves ↔ m = old ∨ m = fresh := by
  cases newFirst <;> simp [pair, or_comm]

theorem mem_inner_pair {joint old fresh m : NodeId} {newFirst : Bool} :
    m ∈ (pair joint old fresh newFirst).inner ↔ m = joint := by
  cases newFirst <;> simp [pair]

theorem preorder_pair (joint old fresh : NodeId) (newFirst : Bool) :
    (pair joint old fresh newFirst).preorder.Perm [joint, fresh, old] := by
  cases newFirst with
  | false => exact (List.Perm.swap _ _ _).cons _
  | true => exact List.Perm.refl _

theorem hasShape_pair {t : Tree} {parent : Option NodeId} {joint old fresh : NodeId}
    {newFirst : Bool} (hjoint : t.links? joint = some (parent,
      if newFirst then (some fresh, some old) else (some old, some fresh)))
    (hold : t.links? old = some (some joint, none, none))
    (hfresh : t.links? fresh = some (some joint, none, none)) :
    HasShape t parent (pair joint old fresh newFirst) := by
  cases newFirst with
  | false => exact hasShape_fork.2 ⟨hjoint, hasShape_leaf.2 hold, hasShape_leaf.2 hfresh⟩
  | true => exact hasShape_fork.2 ⟨hjoint, hasShape_leaf.2 hfresh, hasShape_leaf.2 hold⟩

/-- The joint that an insertion puts over the two leaves. -/
def joint (grandparent : Option NodeId) (old fresh : NodeId) (newFirst : Bool) : Node :=
  if newFirst then .inner grandparent fresh old else .inner grandparent old fresh

theorem links_joint (grandparent : Option NodeId) (old fresh : NodeId) (newFirst : Bool) :
    (joint grandparent old fresh newFirst).links = (grandparent,
      if newFirst then (some fresh, some old) else (some old, some fresh)) := by
  cases newFirst <;> rfl

/-- What an insertion leaves behind when it splits the leaf `target`. -/
structure Inserted (t t' : Tree) (frames : List Frame) (target : NodeId) (rest : List Shape)
    (client : Client) (newFirst : Bool) (fresh joint : NodeId) : Prop where
  fresh_unused : t.get? fresh = none
  joint_unused : t.get? joint = none
  forest : t'.Forest (plug frames (pair joint target fresh newFirst) :: rest)
  contents_fresh : t'.contents? fresh = some (Node.leaf client).contents
  contents_other : ∀ m, m ≠ fresh → m ≠ joint → t'.contents? m = t.contents? m

/-- Two nodes are allocated one after the other in unused slots. -/
theorem get?_alloc_alloc {t : Tree} (h : t.nodes.WellFormed) (first second : Node) :
    let fresh := (t.alloc first).2
    let t' := ((t.alloc first).1.alloc second).1
    let up := ((t.alloc first).1.alloc second).2
    up ≠ fresh ∧ t.get? fresh = none ∧ t.get? up = none ∧ t'.nodes.WellFormed ∧
      ∀ m, t'.get? m =
        if up = m then some second else if fresh = m then some first else t.get? m := by
  intro fresh t' up
  have hslots : (t.alloc first).1.nodes.WellFormed := h.alloc first
  have hfresh := get?_alloc_index h first
  have hup := get?_alloc_index hslots second
  have hne : up ≠ fresh := by
    intro heq
    rw [get?_alloc h, if_pos heq.symm] at hup
    cases hup
  refine ⟨hne, hfresh, ?_, hslots.alloc second, fun m => ?_⟩
  · rwa [get?_alloc h, if_neg hne.symm] at hup
  · rw [get?_alloc hslots, get?_alloc h]

/-- The last step of an insertion: both leaves get the joint as their parent. -/
def adoptPair (t : Tree) (fresh old up : NodeId) : Tree :=
  (t.modify fresh (adopt (some up))).modify old (adopt (some up))

theorem links?_adoptPair {t : Tree} {fresh old up : NodeId} {p q : Option NodeId}
    (hfresh : t.links? fresh = some (p, none, none)) (hold : t.links? old = some (q, none, none))
    (hne : old ≠ fresh) (m : NodeId) : (t.adoptPair fresh old up).links? m =
      if m = old ∨ m = fresh then some (some up, none, none) else t.links? m := by
  rw [adoptPair, links?_modify_adopt, links?_modify_adopt, links?_modify_adopt, if_neg hne.symm,
    hold, hfresh]
  by_cases hm : old = m
  · rw [if_pos hm, if_pos (.inl hm.symm)]
    rfl
  · rw [if_neg hm]
    by_cases hm' : fresh = m
    · rw [if_pos hm', if_pos (.inr hm'.symm)]
      rfl
    · rw [if_neg hm', if_neg (by simp [Ne.symm hm, Ne.symm hm'])]

theorem contents?_adoptPair (t : Tree) (fresh old up m : NodeId) :
    (t.adoptPair fresh old up).contents? m = t.contents? m := by
  rw [adoptPair, contents?_modify_adopt, contents?_modify_adopt]

/-- The joint is linked below the frames, but the new leaf has no parent yet, and the target
still has its old one. -/
structure Joined (t t' : Tree) (frames : List Frame) (target : NodeId) (rest : List Shape)
    (client : Client) (newFirst : Bool) (fresh up : NodeId) : Prop where
  fresh_unused : t.get? fresh = none
  joint_unused : t.get? up = none
  joint_ne : up ≠ fresh
  slots : t'.nodes.WellFormed
  surrounds : Surrounds t' up frames
  links_joint : t'.links? up = some (joint (above frames) target fresh newFirst).links
  links_fresh : t'.links? fresh = some (none, none, none)
  links_target : t'.links? target = some (above frames, none, none)
  links_rest : ∀ s ∈ rest, ∀ m ∈ s.preorder, t'.links? m = t.links? m
  contents : ∀ m, t'.contents? m =
    if up = m then some (joint (above frames) target fresh newFirst).contents
    else if fresh = m then some (Node.leaf client).contents else t.contents? m

section Joined

variable {t t' : Tree} {frames : List Frame} {target fresh up : NodeId} {rest : List Shape}
  {client : Client} {newFirst : Bool}

theorem mem_preorder_pair {m : NodeId} : m ∈ (pair up target fresh newFirst).preorder ↔
    m = up ∨ m = fresh ∨ m = target := by
  rw [(preorder_pair up target fresh newFirst).mem_iff]
  simp

namespace Joined

theorem target_ne (hj : Joined t t' frames target rest client newFirst fresh up)
    (h : t.Forest (plug frames (.leaf target) :: rest)) : target ≠ fresh ∧ target ≠ up := by
  have hlive := h.isSome_hole (n := target) (by simp)
  exact ⟨ne_of_isSome hlive hj.fresh_unused, ne_of_isSome hlive hj.joint_unused⟩

theorem links?_adoptPair (hj : Joined t t' frames target rest client newFirst fresh up)
    (h : t.Forest (plug frames (.leaf target) :: rest)) (m : NodeId) :
    (t'.adoptPair fresh target up).links? m =
      if m = target ∨ m = fresh then some (some up, none, none) else t'.links? m :=
  Tree.links?_adoptPair hj.links_fresh hj.links_target (hj.target_ne h).1 m

/-- Adopting the leaves changes nothing around the hole. -/
theorem links?_around (hj : Joined t t' frames target rest client newFirst fresh up)
    (h : t.Forest (plug frames (.leaf target) :: rest)) {m : NodeId}
    (hm : m ∈ outside frames ++ rest.flatMap Shape.preorder) :
    (t'.adoptPair fresh target up).links? m = t'.links? m := by
  obtain ⟨hlive, hmt⟩ := h.isSome_around hm
  rw [hj.links?_adoptPair h, if_neg]
  rintro (heq | heq)
  · exact hmt (by simp [heq])
  · exact ne_of_isSome hlive hj.fresh_unused heq

theorem contents_other (hj : Joined t t' frames target rest client newFirst fresh up) {m : NodeId}
    (hm : m ≠ fresh) (hm' : m ≠ up) :
    (t'.adoptPair fresh target up).contents? m = t.contents? m := by
  rw [contents?_adoptPair, hj.contents, if_neg hm'.symm, if_neg hm.symm]

theorem contents_fresh (hj : Joined t t' frames target rest client newFirst fresh up) :
    (t'.adoptPair fresh target up).contents? fresh = some (Node.leaf client).contents := by
  rw [contents?_adoptPair, hj.contents, if_neg hj.joint_ne, if_pos rfl]

theorem contents_joint (hj : Joined t t' frames target rest client newFirst fresh up) :
    (t'.adoptPair fresh target up).contents? up =
      some (joint (above frames) target fresh newFirst).contents := by
  rw [contents?_adoptPair, hj.contents, if_pos rfl]

theorem hasShape_adoptPair (hj : Joined t t' frames target rest client newFirst fresh up)
    (h : t.Forest (plug frames (.leaf target) :: rest)) :
    HasShape (t'.adoptPair fresh target up) (above frames) (pair up target fresh newFirst) := by
  have hlinks := hj.links?_adoptPair h
  refine hasShape_pair ?_ ?_ ?_
  · rw [hlinks, if_neg (by simp [hj.joint_ne, (hj.target_ne h).2.symm]), hj.links_joint,
      Tree.links_joint]
  · rw [hlinks, if_pos (.inl rfl)]
  · rw [hlinks, if_pos (.inr rfl)]

/-- The leaves of the pair have clients. -/
theorem leaf_client (hj : Joined t t' frames target rest client newFirst fresh up)
    (h : t.Forest (plug frames (.leaf target) :: rest)) {m : NodeId}
    (hm : m ∈ (pair up target fresh newFirst).leaves) :
    ((t'.adoptPair fresh target up).client? m).isSome := by
  rcases mem_leaves_pair.1 hm with rfl | rfl
  · rw [client?_of_contents? (hj.contents_other (hj.target_ne h).1 (hj.target_ne h).2)]
    exact (h.stands _ List.mem_cons_self).leaf_client m (mem_leaves_plug.2 (.inl (by simp)))
  · rw [(exists_of_contents? hj.contents_fresh).1]
    rfl

/-- Adopting both leaves completes an insertion. -/
theorem inserted (hj : Joined t t' frames target rest client newFirst fresh up)
    (h : t.Forest (plug frames (.leaf target) :: rest)) :
    Inserted t (t'.adoptPair fresh target up) frames target rest client newFirst fresh up := by
  obtain ⟨hfresh, hup⟩ := hj.target_ne h
  refine ⟨hj.fresh_unused, hj.joint_unused, ?_, hj.contents_fresh,
    fun m hm hm' => hj.contents_other hm hm'⟩
  refine h.replace ((hj.slots.modify _ _).modify _ _) ?_ (hj.hasShape_adoptPair h) ?_ ?_ ?_ ?_ ?_
    (fun m hm => hj.leaf_client h hm) ?_
  · rw [top_pair]
    exact hj.surrounds.congr fun m hm => hj.links?_around h (List.mem_append_left _ hm)
  · rw [(preorder_pair up target fresh newFirst).nodup_iff]
    simp [hj.joint_ne, hup.symm, hfresh.symm]
  · intro m hm
    rcases mem_preorder_pair.1 hm with rfl | rfl | rfl
    · exact .inr hj.joint_unused
    · exact .inr hj.fresh_unused
    · exact .inl (by simp)
  · intro m hm _
    rw [mem_preorder_pair, not_or, not_or] at hm
    exact hj.contents_other hm.2.1 hm.1
  · intro m hm hmold
    rw [mem_preorder_pair, not_or, not_or] at hm
    exact absurd (by simpa using hmold) hm.2.2
  · intro s hs m hm
    have hmem := List.mem_flatMap.2 ⟨s, hs, hm⟩
    rw [hj.links?_around h (List.mem_append_right _ hmem), hj.links_rest s hs m hm]
  · intro m hm
    obtain rfl := mem_inner_pair.1 hm
    obtain ⟨hclient, hpresel⟩ := exists_of_contents? hj.contents_joint
    rw [hclient, hpresel]
    cases newFirst <;> exact ⟨rfl, rfl⟩

end Joined

/-- The node above the hole is neither the target, nor unused, nor in another tree. -/
theorem above_ne (h : t.Forest (plug frames (.leaf target) :: rest)) {m : NodeId}
    (hm : t.get? m = none ∨ m = target ∨ m ∈ rest.flatMap Shape.preorder) :
    above frames ≠ some m := by
  intro heq
  have hmem := mem_outside_of_above heq
  obtain ⟨hsome, hmt⟩ := h.isSome_around (List.mem_append_left _ hmem)
  rcases hm with hm | hm | hm
  · exact ne_of_isSome hsome hm rfl
  · exact hmt (by simp [hm])
  · obtain ⟨-, hnodup, -⟩ :=
      List.nodup_append.1 ((preorder_plug_cons frames (.leaf target) rest).nodup_iff.1 h.nodup)
    obtain ⟨-, -, hdisjoint⟩ := List.nodup_append.1 hnodup
    exact hdisjoint m hmem m hm rfl

/-- Once the new leaf and the joint are there, the joint replaces the target. -/
theorem joined_replaceChild (h : t.Forest (plug frames (.leaf target) :: rest))
    (hfresh : t.get? fresh = none) (hup : t.get? up = none) (hne : up ≠ fresh)
    (hslots : t'.nodes.WellFormed)
    (hget : ∀ m, t'.get? m = if up = m then some (joint (above frames) target fresh newFirst)
      else if fresh = m then some (.leaf client) else t.get? m) (root : Option NodeId) :
    Joined t (t'.replaceChild root (above frames) target up).1 frames target rest client newFirst
        fresh up ∧
      (t'.replaceChild root (above frames) target up).2 =
        if frames = [] then some up else root := by
  have hlive (m : NodeId) (hm : (t.get? m).isSome) : t'.get? m = t.get? m := by
    rw [hget, if_neg (ne_of_isSome hm hup).symm, if_neg (ne_of_isSome hm hfresh).symm]
  obtain ⟨hsurrounds, hleaf⟩ := hasShape_plug.1 (h.hasShape List.mem_cons_self)
  have hsurrounds' : Surrounds t' target frames :=
    hsurrounds.congr fun m hm =>
      links?_congr (hlive m (h.isSome_around (List.mem_append_left _ hm)).1)
  have hnodup := (preorder_plug_cons frames (.leaf target) rest).nodup_iff.1 h.nodup
  have hoff : target ∉ outside frames := fun hm =>
    (h.isSome_around (List.mem_append_left _ hm)).2 (by simp)
  obtain ⟨hroot, hover, hkeep, hcontents, hwell⟩ := replaceChild_spec hsurrounds'
    (List.nodup_append.1 (List.nodup_append.1 hnodup).2.1).1 hoff root up
  refine ⟨⟨hfresh, hup, hne, hwell hslots, hover, ?_, ?_, ?_, ?_, ?_⟩, hroot⟩
  · rw [links?_congr (hkeep up (above_ne h (.inl hup))), links?, hget, if_pos rfl]
    rfl
  · rw [links?_congr (hkeep fresh (above_ne h (.inl hfresh))), links?, hget, if_neg hne,
      if_pos rfl]
    rfl
  · rw [links?_congr (hkeep target (above_ne h (.inr (.inl rfl)))),
      links?_congr (hlive target (h.isSome_hole (by simp))), hasShape_leaf.1 hleaf]
  · intro s hs m hm
    have hmem := List.mem_flatMap.2 ⟨s, hs, hm⟩
    rw [links?_congr (hkeep m (above_ne h (.inr (.inr hmem)))),
      links?_congr (hlive m (h.isSome_around (List.mem_append_right _ hmem)).1)]
  · intro m
    rw [hcontents, contents?, hget]
    split
    · rfl
    · split <;> rfl

theorem insertLeaf_split (h : t.Forest (plug frames (.leaf target) :: rest))
    {root at? : Option NodeId} (newFirst : Bool)
    (htarget : (t.alloc (.leaf client)).1.insertionTarget root at? = some target) :
    ∃ t' fresh up, t.insertLeaf root at? client newFirst =
        (t', if frames = [] then some up else root, fresh) ∧
      Inserted t t' frames target rest client newFirst fresh up := by
  obtain ⟨t₁, fresh, halloc⟩ : ∃ t₁ fresh, t.alloc (.leaf client) = (t₁, fresh) := ⟨_, _, rfl⟩
  obtain ⟨t₂, up, halloc₂⟩ : ∃ t₂ up,
      t₁.alloc (joint (above frames) target fresh newFirst) = (t₂, up) := ⟨_, _, rfl⟩
  have hallocs := get?_alloc_alloc h.slots (.leaf client)
    (joint (above frames) target fresh newFirst)
  simp only [halloc, halloc₂] at hallocs
  obtain ⟨hne, hfresh, hup, hslots, hget⟩ := hallocs
  obtain ⟨hjoined, hroot⟩ := joined_replaceChild h hfresh hup hne hslots hget root
  have hgrand : t₁.parent? target = above frames := by
    have hget₁ := get?_alloc h.slots (.leaf client) target
    rw [halloc, if_neg (ne_of_isSome (h.isSome_hole (by simp)) hfresh).symm] at hget₁
    rw [parent?, hget₁]
    exact parent?_of_links?
      (hasShape_leaf.1 (hasShape_plug.1 (h.hasShape List.mem_cons_self)).2)
  refine ⟨_, fresh, up, ?_, hjoined.inserted h⟩
  have hjoint : (if newFirst then Node.inner (above frames) fresh target
      else Node.inner (above frames) target fresh) = joint (above frames) target fresh newFirst :=
    rfl
  rw [halloc] at htarget
  simp only [insertLeaf, halloc, htarget, hgrand, hjoint, halloc₂, ← hroot]
  rfl

end Joined

/-- A leaf is the target of an insertion at it. -/
theorem insertionTarget_leaf {t : Tree} (h : t.nodes.WellFormed) {n : NodeId}
    {p : Option NodeId} (hlinks : t.links? n = some (p, none, none)) (root : Option NodeId)
    (client : Client) :
    (t.alloc (.leaf client)).1.insertionTarget root (some n) = some n := by
  obtain ⟨node, hget, -, hfirst, hsecond⟩ := exists_of_links? hlinks
  have hne : (t.alloc (.leaf client)).2 ≠ n := by
    intro heq
    have hunused := get?_alloc_index h (.leaf client)
    rw [heq, hget] at hunused
    cases hunused
  have hget' := get?_alloc h (.leaf client) n
  rw [if_neg hne, hget] at hget'
  simp [insertionTarget, Option.filter, hget', Node.isLeaf, hfirst, hsecond]

/-- A leaf of a tree is split by an insertion at it. -/
theorem insertLeaf_plug {t : Tree} {frames : List Frame} {n : NodeId} {rest : List Shape}
    (h : t.Forest (plug frames (.leaf n) :: rest)) (client : Client) (newFirst : Bool) :
    ∃ t' fresh up, t.insertLeaf (some (plug frames (.leaf n)).top) (some n) client newFirst =
        (t', some (plug frames (pair up n fresh newFirst)).top, fresh) ∧
      Inserted t t' frames n rest client newFirst fresh up := by
  have hn : n ∈ (plug frames (.leaf n)).leaves := mem_leaves_plug.2 (.inl (by simp))
  obtain ⟨p, hlinks⟩ := (h.hasShape List.mem_cons_self).links_of_mem_leaves hn
  have htarget := insertionTarget_leaf h.slots hlinks (some (plug frames (.leaf n)).top) client
  obtain ⟨t', fresh, up, hinsert, hinserted⟩ := insertLeaf_split h newFirst htarget
  have htop := root_plug frames (.leaf n) (pair up n fresh newFirst)
  rw [top_pair] at htop
  exact ⟨t', fresh, up, by rw [hinsert, htop], hinserted⟩

/-- The first leaf of a tree is its root. -/
theorem insertLeaf_first {t : Tree} {shapes : List Shape} (h : t.Forest shapes) (client : Client)
    (newFirst : Bool) :
    ∃ t' fresh, t.insertLeaf none none client newFirst = (t', some fresh, fresh) ∧
      t.get? fresh = none ∧ t'.Forest (.leaf fresh :: shapes) ∧
      t'.contents? fresh = some (Node.leaf client).contents ∧
      ∀ m, m ≠ fresh → t'.contents? m = t.contents? m := by
  have hunused := get?_alloc_index h.slots (.leaf client)
  have hget := get?_alloc h.slots (.leaf client)
  have hslots : (t.alloc (.leaf client)).1.nodes.WellFormed := h.slots.alloc (.leaf client)
  obtain ⟨t', fresh, halloc⟩ : ∃ t' fresh, t.alloc (.leaf client) = (t', fresh) := ⟨_, _, rfl⟩
  simp only [halloc] at hunused hget hslots
  have hkeep : ∀ s ∈ shapes, ∀ m ∈ s.preorder, t'.get? m = t.get? m := by
    intro s hs m hm
    have hsome := h.isSome_get?_iff.2 (List.mem_flatMap.2 ⟨s, hs, hm⟩)
    rw [hget, if_neg (ne_of_isSome hsome hunused).symm]
  have hfresh : t'.get? fresh = some (.leaf client) := by rw [hget, if_pos rfl]
  have hempty : t'.insertionTarget none none = none := rfl
  refine ⟨t', fresh, by simp [insertLeaf, halloc, hempty], hunused, ⟨hslots, ?_, ?_, ?_⟩, ?_, ?_⟩
  · intro s hs
    rcases List.mem_cons.1 hs with rfl | hs
    · refine ⟨hasShape_leaf.2 (links?_of_get? hfresh), fun m hm => ?_, by simp, by simp⟩
      obtain rfl : m = fresh := by simpa using hm
      rw [client?, hfresh]
      rfl
    · exact (h.stands s hs).congr_get (hkeep s hs)
  · rw [List.flatMap_cons, Shape.preorder_leaf, List.singleton_append, List.nodup_cons]
    refine ⟨fun hm => ?_, h.nodup⟩
    exact ne_of_isSome (h.isSome_get?_iff.2 hm) hunused rfl
  · intro m hm
    rw [List.flatMap_cons, Shape.preorder_leaf, List.singleton_append, List.mem_cons]
    rw [hget] at hm
    by_cases heq : fresh = m
    · exact .inl heq.symm
    · rw [if_neg heq] at hm
      exact .inr (h.covers m hm)
  · rw [contents?, hfresh, Option.map_some]
  · exact fun m hm => contents?_of_get? (by rw [hget, if_neg hm.symm])

/-- A leaf with a client joins the tree of a desktop, if there is one, beside the leaf that has
the focus. -/
theorem insertLeaf_spec {t : Tree} {tree : Option Shape} {rest : List Shape}
    (h : t.Forest (tree.toList ++ rest)) {focus : Option NodeId}
    (hnone : tree = none → focus = none)
    (hsome : ∀ s, tree = some s → ∃ n ∈ s.leaves, focus = some n) (client : Client)
    (newFirst : Bool) :
    ∃ t' s' fresh, t.insertLeaf (tree.map Shape.top) focus client newFirst =
        (t', some s'.top, fresh) ∧
      t'.Forest (s' :: rest) ∧ fresh ∈ s'.leaves ∧ (∀ n, focus = some n → n ∈ s'.leaves) ∧
      t.client? fresh = none ∧ t'.client? fresh = some client ∧
      ∀ m, m ≠ fresh → t'.client? m = t.client? m := by
  have hcontents {u : Tree} {n : NodeId} (hu : u.contents? n = some (Node.leaf client).contents) :
      u.client? n = some client := (exists_of_contents? hu).1
  cases tree with
  | none =>
    obtain rfl := hnone rfl
    obtain ⟨t', fresh, hinsert, hfresh, hforest, hclient, hother⟩ :=
      insertLeaf_first h client newFirst
    exact ⟨t', .leaf fresh, fresh, hinsert, hforest, by simp, by simp, client?_of_get?_none hfresh,
      hcontents hclient, fun m hm => client?_of_contents? (hother m hm)⟩
  | some s =>
    obtain ⟨n, hn, rfl⟩ := hsome s rfl
    obtain ⟨frames, rfl⟩ := exists_plug_leaf hn
    obtain ⟨t', fresh, up, hinsert, hinserted⟩ := insertLeaf_plug h client newFirst
    have hleaf {m : NodeId} (hm : m = n ∨ m = fresh) :
        m ∈ (plug frames (pair up n fresh newFirst)).leaves :=
      mem_leaves_plug.2 (.inl (mem_leaves_pair.2 hm))
    refine ⟨t', plug frames (pair up n fresh newFirst), fresh, ?_, hinserted.forest,
      hleaf (.inr rfl), fun m hm => hleaf (.inl ?_), client?_of_get?_none hinserted.fresh_unused,
      hcontents hinserted.contents_fresh, fun m hm => ?_⟩
    · rw [Option.map_some, hinsert]
    · exact (Option.some.inj hm).symm
    · by_cases hup : m = up
      · have hinner := (hinserted.forest.stands _ List.mem_cons_self).inner_client up
          (mem_inner_plug.2 (.inl (mem_inner_pair.2 rfl)))
        rw [hup, hinner, client?_of_get?_none hinserted.joint_unused]
      · exact client?_of_contents? (hinserted.contents_other m hm hup)

end Tiling.Tree
