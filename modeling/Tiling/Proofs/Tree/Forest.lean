import Tiling.Proofs.Tree.Context
import Tiling.Proofs.Tree.Walk
/-!
# Forests

The store of a forest holds some trees and nothing else: every node belongs to one of them,
leaves hold clients, and inner nodes hold neither a client nor a preselection.  Changing what
nodes hold keeps a forest; inserting and removing leaves changes one of its trees as the shapes
say.
-/

namespace Tiling

/-- What a node holds besides its links. -/
def Node.contents (node : Node) : Rect × Option Client × Option Presel × Flags :=
  (node.rect, node.client, node.presel, node.flags)

namespace Tree

/-! ## Nodes of a changed store -/

theorem get?_modify (t : Tree) (n m : NodeId) (f : Node → Node) :
    (t.modify n f).get? m = if n = m then (t.get? n).map f else t.get? m := by
  rw [get?, modify, Slots.get?_modify]
  by_cases h : n = m
  · subst h
    simp [get?]
  · rw [if_neg h, if_neg fun heq => h (congrArg NodeId.mk heq), get?]

theorem get?_release (t : Tree) (n m : NodeId) :
    (t.release n).get? m = if n = m then none else t.get? m := by
  by_cases h : n = m
  · subst h
    rw [if_pos rfl, get?_release_same]
  · rw [if_neg h, get?_release_other t h]

theorem get?_alloc {t : Tree} (h : t.nodes.WellFormed) (node : Node) (m : NodeId) :
    (t.alloc node).1.get? m = if (t.alloc node).2 = m then some node else t.get? m := by
  have hiff : (t.nodes.alloc node).2 = m.index ↔ (t.alloc node).2 = m :=
    ⟨congrArg NodeId.mk, congrArg NodeId.index⟩
  change (t.nodes.alloc node).1.get? m.index = _
  simp only [h.get?_alloc, hiff, get?]

theorem get?_alloc_index {t : Tree} (h : t.nodes.WellFormed) (node : Node) :
    t.get? (t.alloc node).2 = none :=
  h.get?_alloc_index node

theorem links?_modify (t : Tree) (n m : NodeId) (f : Node → Node)
    (hf : ∀ node, (f node).links = node.links) : (t.modify n f).links? m = t.links? m := by
  rw [links?, get?_modify]
  split
  · rename_i heq
    subst heq
    rw [Option.map_map, links?]
    exact congrArg (Option.map · (t.get? n)) (funext hf)
  · rfl

/-- The preselection of a node. -/
def presel? (t : Tree) (n : NodeId) : Option Presel := (t.get? n).bind Node.presel

/-- What a node holds besides its links, if there is one. -/
def contents? (t : Tree) (n : NodeId) : Option (Rect × Option Client × Option Presel × Flags) :=
  (t.get? n).map Node.contents

theorem client?_of_contents? {t t' : Tree} {n : NodeId} (h : t'.contents? n = t.contents? n) :
    t'.client? n = t.client? n := by
  have hview (u : Tree) : u.client? n = (u.contents? n).bind fun c => c.2.1 := by
    rw [client?, contents?]
    cases u.get? n <;> rfl
  rw [hview, hview, h]

theorem presel?_of_contents? {t t' : Tree} {n : NodeId} (h : t'.contents? n = t.contents? n) :
    t'.presel? n = t.presel? n := by
  have hview (u : Tree) : u.presel? n = (u.contents? n).bind fun c => c.2.2.1 := by
    rw [presel?, contents?]
    cases u.get? n <;> rfl
  rw [hview, hview, h]

theorem contents?_modify (t : Tree) (n m : NodeId) (f : Node → Node)
    (hf : ∀ node, (f node).contents = node.contents) :
    (t.modify n f).contents? m = t.contents? m := by
  rw [contents?, get?_modify]
  split
  · rename_i heq
    subst heq
    rw [Option.map_map, contents?]
    exact congrArg (Option.map · (t.get? n)) (funext hf)
  · rfl

theorem client?_of_get?_none {t : Tree} {n : NodeId} (h : t.get? n = none) :
    t.client? n = none := by
  rw [client?, h, Option.bind_none]

theorem contents?_of_get? {t t' : Tree} {n : NodeId} (h : t'.get? n = t.get? n) :
    t'.contents? n = t.contents? n := by
  rw [contents?, contents?, h]

theorem links?_congr {t t' : Tree} {n : NodeId} (h : t'.get? n = t.get? n) :
    t'.links? n = t.links? n := by
  rw [links?, links?, h]

theorem exists_of_contents? {t : Tree} {n : NodeId} {node : Node}
    (h : t.contents? n = some node.contents) :
    t.client? n = node.client ∧ t.presel? n = node.presel := by
  obtain ⟨other, hget, hcontents⟩ := Option.map_eq_some_iff.1 h
  simp only [Node.contents, Prod.mk.injEq] at hcontents
  rw [client?, presel?, hget]
  exact ⟨hcontents.2.1, hcontents.2.2.1⟩

theorem client?_modify_of {t : Tree} (n m : NodeId) {f : Node → Node}
    (hf : ∀ node, (f node).client = node.client) : (t.modify n f).client? m = t.client? m := by
  rw [client?, get?_modify]
  by_cases h : n = m
  · subst h
    rw [if_pos rfl, client?]
    cases t.get? n with
    | none => rfl
    | some node => exact hf node
  · rw [if_neg h, client?]

theorem client?_modifyClient (t : Tree) (n m : NodeId) (f : Client → Client) :
    (t.modifyClient n f).client? m = if n = m then (t.client? n).map f else t.client? m := by
  rw [modifyClient, client?, get?_modify]
  by_cases h : n = m
  · subst h
    rw [if_pos rfl, if_pos rfl, client?]
    cases t.get? n <;> rfl
  · rw [if_neg h, if_neg h, client?]

/-! ## Forests -/

/-- A tree of a shape stands in the store.  Its leaves hold clients; its inner nodes hold neither
clients nor preselections. -/
structure Stands (t : Tree) (s : Shape) : Prop where
  hasShape : HasShape t none s
  leaf_client : ∀ n ∈ s.leaves, (t.client? n).isSome
  inner_client : ∀ n ∈ s.inner, t.client? n = none
  inner_presel : ∀ n ∈ s.inner, t.presel? n = none

theorem stands_iff {t : Tree} {s : Shape} : t.Stands s ↔ HasShape t none s ∧
    (∀ n ∈ s.leaves, (t.client? n).isSome) ∧
      ∀ n ∈ s.inner, t.client? n = none ∧ t.presel? n = none :=
  ⟨fun h => ⟨h.hasShape, h.leaf_client, fun n hn => ⟨h.inner_client n hn, h.inner_presel n hn⟩⟩,
    fun ⟨hshape, hleaf, hinner⟩ =>
      ⟨hshape, hleaf, fun n hn => (hinner n hn).1, fun n hn => (hinner n hn).2⟩⟩

instance (t : Tree) (s : Shape) : Decidable (t.Stands s) := decidable_of_iff _ stands_iff.symm

theorem Stands.congr {t t' : Tree} {s : Shape} (h : t.Stands s)
    (hlinks : ∀ n ∈ s.preorder, t'.links? n = t.links? n)
    (hcontents : ∀ n ∈ s.preorder, t'.contents? n = t.contents? n) : t'.Stands s where
  hasShape := h.hasShape.congr hlinks
  leaf_client n hn := by
    rw [client?_of_contents? (hcontents n (Shape.mem_preorder_of_mem_leaves hn))]
    exact h.leaf_client n hn
  inner_client n hn := by
    rw [client?_of_contents? (hcontents n (Shape.mem_preorder_iff.2 (.inr hn)))]
    exact h.inner_client n hn
  inner_presel n hn := by
    rw [presel?_of_contents? (hcontents n (Shape.mem_preorder_iff.2 (.inr hn)))]
    exact h.inner_presel n hn

theorem Stands.congr_get {t t' : Tree} {s : Shape} (h : t.Stands s)
    (hget : ∀ n ∈ s.preorder, t'.get? n = t.get? n) : t'.Stands s :=
  h.congr (fun n hn => links?_congr (hget n hn)) fun n hn => contents?_of_get? (hget n hn)

/-- The store holds trees of the given shapes, and nothing else. -/
structure Forest (t : Tree) (shapes : List Shape) : Prop where
  slots : t.nodes.WellFormed
  stands : ∀ s ∈ shapes, t.Stands s
  nodup : (shapes.flatMap Shape.preorder).Nodup
  covers : ∀ n, (t.get? n).isSome → n ∈ shapes.flatMap Shape.preorder

theorem forest_iff {t : Tree} {shapes : List Shape} : t.Forest shapes ↔ t.nodes.WellFormed ∧
    (∀ s ∈ shapes, t.Stands s) ∧ (shapes.flatMap Shape.preorder).Nodup ∧
      ∀ i < t.size, (t.get? ⟨i⟩).isSome → ⟨i⟩ ∈ shapes.flatMap Shape.preorder := by
  refine ⟨fun h => ⟨h.slots, h.stands, h.nodup, fun i _ hi => h.covers ⟨i⟩ hi⟩,
    fun ⟨hslots, hstands, hnodup, hcovers⟩ => ⟨hslots, hstands, hnodup, fun n hn => ?_⟩⟩
  obtain ⟨node, hnode⟩ := Option.isSome_iff_exists.1 hn
  exact hcovers n.index (Slots.index_lt_size hnode) hn

instance (t : Tree) (shapes : List Shape) : Decidable (t.Forest shapes) :=
  decidable_of_iff _ forest_iff.symm

namespace Forest

theorem empty : Forest Tree.empty [] where
  slots := Slots.wellFormed_empty
  stands s hs := by simp at hs
  nodup := List.nodup_nil
  covers n h := by simp [get?, Tree.empty, Slots.get?_empty] at h

theorem hasShape {t : Tree} {shapes : List Shape} (h : t.Forest shapes) {s : Shape}
    (hs : s ∈ shapes) : HasShape t none s :=
  (h.stands s hs).hasShape

/-- The order of the trees is irrelevant. -/
theorem perm {t : Tree} {shapes shapes' : List Shape} (h : t.Forest shapes)
    (hperm : shapes.Perm shapes') : t.Forest shapes' where
  slots := h.slots
  stands s hs := h.stands s (hperm.mem_iff.2 hs)
  nodup := (hperm.flatMap_right Shape.preorder).nodup_iff.1 h.nodup
  covers n hn := (hperm.flatMap_right Shape.preorder).mem_iff.1 (h.covers n hn)

theorem nodup_of_mem {t : Tree} {shapes : List Shape} (h : t.Forest shapes) {s : Shape}
    (hs : s ∈ shapes) : s.preorder.Nodup :=
  (List.nodup_flatMap.1 h.nodup).1 s hs

theorem isSome_get?_iff {t : Tree} {shapes : List Shape} (h : t.Forest shapes) {n : NodeId} :
    (t.get? n).isSome ↔ n ∈ shapes.flatMap Shape.preorder := by
  refine ⟨h.covers n, fun hn => ?_⟩
  obtain ⟨s, hs, hn⟩ := List.mem_flatMap.1 hn
  exact (h.hasShape hs).isSome_get? hn

theorem get?_none_of_not_mem {t : Tree} {shapes : List Shape} (h : t.Forest shapes) {n : NodeId}
    (hn : n ∉ shapes.flatMap Shape.preorder) : t.get? n = none := by
  rw [← Option.not_isSome_iff_eq_none, h.isSome_get?_iff]
  exact hn

theorem leaves_eq {t : Tree} {shapes : List Shape} (h : t.Forest shapes) {s : Shape}
    (hs : s ∈ shapes) : t.leaves (some s.top) = s.leaves :=
  leaves_top (h.hasShape hs) (h.nodup_of_mem hs)

theorem rootOf_eq {t : Tree} {shapes : List Shape} (h : t.Forest shapes) {s : Shape}
    (hs : s ∈ shapes) {n : NodeId} (hn : n ∈ s.preorder) : t.rootOf n = some s.top :=
  rootOf_mem (h.hasShape hs) (h.nodup_of_mem hs) hn

/-- The nodes with clients are the leaves of the trees. -/
theorem isSome_client?_iff {t : Tree} {shapes : List Shape} (h : t.Forest shapes) {n : NodeId} :
    (t.client? n).isSome ↔ ∃ s ∈ shapes, n ∈ s.leaves := by
  constructor
  · intro hc
    have hget : (t.get? n).isSome := by
      rw [client?] at hc
      exact Option.isSome_of_isSome_bind hc
    obtain ⟨s, hs, hn⟩ := List.mem_flatMap.1 (h.covers n hget)
    rcases Shape.mem_preorder_iff.1 hn with hn | hn
    · exact ⟨s, hs, hn⟩
    · rw [(h.stands s hs).inner_client n hn] at hc
      cases hc
  · rintro ⟨s, hs, hn⟩
    exact (h.stands s hs).leaf_client n hn

/-- A node without a client has no preselection. -/
theorem presel_of_client_none {t : Tree} {shapes : List Shape} (h : t.Forest shapes) {n : NodeId}
    {node : Node} (hget : t.get? n = some node) (hnone : node.client = none) :
    node.presel = none := by
  obtain ⟨s, hs, hn⟩ := List.mem_flatMap.1 (h.covers n (by rw [hget, Option.isSome_some]))
  rcases Shape.mem_preorder_iff.1 hn with hn | hn
  · have hsome := (h.stands s hs).leaf_client n hn
    rw [client?, hget, Option.bind_some, hnone] at hsome
    cases hsome
  · have hpresel := (h.stands s hs).inner_presel n hn
    rwa [presel?, hget, Option.bind_some] at hpresel

/-- The walk from a leaf visits that leaf alone. -/
theorem leaves_leaf {t : Tree} {shapes : List Shape} (h : t.Forest shapes) {n : NodeId}
    (hn : (t.client? n).isSome) : t.leaves (some n) = [n] := by
  obtain ⟨s, hs, hn⟩ := h.isSome_client?_iff.1 hn
  obtain ⟨p, hlinks⟩ := (h.hasShape hs).links_of_mem_leaves hn
  exact leaves_top (s := .leaf n) (hasShape_leaf.2 hlinks) (by simp)

/-- A change that leaves the links alone, replaces clients by clients and gives no preselection
to an inner node keeps a forest. -/
theorem modify {t : Tree} {shapes : List Shape} (h : t.Forest shapes) (n : NodeId)
    (f : Node → Node) (hlinks : ∀ node, (f node).links = node.links)
    (hclient : ∀ node, (f node).client.isSome = node.client.isSome)
    (hpresel : ∀ node, t.get? n = some node → node.client = none →
      (f node).presel = node.presel) : (t.modify n f).Forest shapes := by
  have hisSome (m : NodeId) : ((t.modify n f).client? m).isSome = (t.client? m).isSome := by
    rw [client?, client?, get?_modify]
    by_cases hm : n = m
    · subst hm
      cases t.get? n <;> simp [hclient]
    · rw [if_neg hm]
  refine ⟨h.slots.modify n.index f, fun s hs => ⟨?_, ?_, ?_, ?_⟩, h.nodup, fun m hm => ?_⟩
  · exact (h.hasShape hs).congr fun m _ => links?_modify t n m f hlinks
  · intro m hm
    rw [hisSome]
    exact (h.stands s hs).leaf_client m hm
  · intro m hm
    rw [← Option.isNone_iff_eq_none, ← Option.not_isSome, hisSome,
      (h.stands s hs).inner_client m hm]
    rfl
  · intro m hm
    have hnone := (h.stands s hs).inner_presel m hm
    rw [presel?, get?_modify]
    by_cases heq : n = m
    · subst heq
      rw [if_pos rfl]
      cases hget : t.get? n with
      | none => rfl
      | some node =>
        have hinner := (h.stands s hs).inner_client n hm
        rw [client?, hget, Option.bind_some] at hinner
        rw [presel?, hget, Option.bind_some] at hnone
        rw [Option.map_some, Option.bind_some, hpresel node hget hinner, hnone]
    · rw [if_neg heq]
      exact hnone
  · apply h.covers m
    rw [get?_modify] at hm
    split at hm
    · rename_i heq
      rw [← heq]
      simpa using hm
    · exact hm

theorem modifyClient {t : Tree} {shapes : List Shape} (h : t.Forest shapes) (n : NodeId)
    (f : Client → Client) : (t.modifyClient n f).Forest shapes :=
  h.modify n _ (fun _ => rfl) (fun _ => Option.isSome_map) fun _ _ _ => rfl

end Forest

end Tree

end Tiling
