import Mathlib.Data.List.Flatten
import Tiling.Proofs.Model.Run
import Tiling.Proofs.Tree.Links
/-!
# Intact models

What soundness comes to without shapes: the store is a forest whose roots are those of the
desktops, every window is reached from one desktop, and the focus and the stack name leaves that
exist.  Every run from a fresh model leaves it so.
-/

namespace Tiling

open Tiling.Tree (Shape)

namespace Model

/-- The model holds together, in terms of its store alone. -/
structure Intact (m : Model) : Prop where
  /-- The free list names every empty slot once. -/
  slots : m.tree.nodes.WellFormed
  joined : ∀ n node, m.tree.get? n = some node → m.tree.WellJoined n node
  child_of_parent : ∀ n p, m.tree.parent? n = some p →
    ∃ node, m.tree.get? p = some node ∧ (node.firstChild = some n ∨ node.secondChild = some n)
  acyclic : ∀ n, ¬ Relation.TransGen m.tree.Climbs n n
  /-- The nodes without a parent are the roots of the desktops. -/
  roots : ∀ n, ((m.tree.get? n).isSome ∧ m.tree.parent? n = none) ↔ ∃ r, m.root? r = some n
  root_unique : ∀ r r' n, m.root? r = some n → m.root? r' = some n → r = r'
  /-- Every leaf with a window is reached from one desktop. -/
  reached : ∀ n, (m.tree.window? n).isSome → ∃! r, n ∈ m.tree.leaves (m.root? r)
  /-- The list of nodes shows every managed window once. -/
  listed : ∃ ws : List Window, ws.Nodup ∧ (∀ w, w ∈ ws ↔ (m.tree.findWindow? w).isSome) ∧
    m.listNodes = lines (ws.map Numeral.hex8)
  windows : ∀ a b w, m.tree.window? a = some w → m.tree.window? b = some w → a = b
  focus_iff : ∀ r d, m.desktop? r = some d → (d.focus.isSome ↔ d.root.isSome)
  /-- The focus of a desktop is a leaf of its own tree. -/
  focus_leaf : ∀ r d n, m.desktop? r = some d → d.focus = some n →
    n ∈ m.tree.leaves d.root ∧ (m.tree.client? n).isSome
  stack : m.stack.Holds m.stack.toList
  stack_leaf : ∀ n ∈ m.stack.toList, (m.tree.client? n).isSome
  focused : m.monitors = [] ∨ m.focusedMonitor < m.monitors.length

namespace Shaped

variable {m : Model} {shapes : List (Option Shape)}

theorem mem_roots_iff {n : NodeId} : n ∈ m.roots ↔ ∃ r, m.root? r = some n := by
  rw [roots, List.mem_filterMap]
  constructor
  · rintro ⟨d, hd, hn⟩
    rw [desktops_eq, List.mem_flatten] at hd
    obtain ⟨l, hl, hd⟩ := hd
    obtain ⟨i, hi⟩ := List.mem_iff_getElem?.1 hl
    obtain ⟨j, hj⟩ := List.mem_iff_getElem?.1 hd
    refine ⟨⟨i, j⟩, ?_⟩
    rw [root?, desktop?_eq, hi, Option.bind_some, hj, Option.bind_some, hn]
  · rintro ⟨r, hr⟩
    obtain ⟨d, hd, hn⟩ := Option.bind_eq_some_iff.1 hr
    exact ⟨d, mem_desktops hd, hn⟩

/-- A desktop reaches the leaves of its own tree. -/
theorem leaves_of_owns (h : m.Shaped shapes) {d : Desktop} {o : Option Shape} (ho : o ∈ shapes)
    (howns : d.Owns o) : m.tree.leaves d.root = o.toList.flatMap Shape.leaves := by
  cases o with
  | none =>
    rw [howns.1]
    rfl
  | some s =>
    rw [howns.1, h.forest.leaves_eq (mem_reduceOption.2 ho)]
    simp

theorem owns_of_desktop? (h : m.Shaped shapes) {r : DesktopRef} {d : Desktop}
    (hd : m.desktop? r = some d) : ∃ o ∈ shapes, d.Owns o := by
  obtain ⟨left, o, right, rfl, ho, -⟩ := h.edit hd
  exact ⟨o, by simp, ho⟩

/-- A leaf is in one tree. -/
theorem tree_unique (h : m.Shaped shapes) {s s' : Shape} (hs : some s ∈ shapes)
    (hs' : some s' ∈ shapes) {n : NodeId} (hn : n ∈ s.leaves) (hn' : n ∈ s'.leaves) : s = s' := by
  have htop := h.forest.rootOf_eq (mem_reduceOption.2 hs) (Shape.mem_preorder_of_mem_leaves hn)
  rw [h.forest.rootOf_eq (mem_reduceOption.2 hs') (Shape.mem_preorder_of_mem_leaves hn')] at htop
  exact (h.forest.hasShape (mem_reduceOption.2 hs)).unique
    (h.forest.hasShape (mem_reduceOption.2 hs')) (Option.some.inj htop).symm

theorem reached (h : m.Shaped shapes) {n : NodeId} (hn : (m.tree.client? n).isSome) :
    ∃! r, n ∈ m.tree.leaves (m.root? r) := by
  obtain ⟨s, r, d, hs, hleaf, -, hd, howns⟩ := h.locate_client hn
  have hroot : m.root? r = some s.top := by rw [root?, hd, Option.bind_some, howns.1]
  refine ⟨r, ?_, fun r' hr' => ?_⟩
  · dsimp only
    rwa [hroot, h.forest.leaves_eq (mem_reduceOption.2 hs)]
  dsimp only at hr'
  cases hd' : m.desktop? r' with
  | none =>
    rw [root?, hd', Option.bind_none] at hr'
    cases hr'
  | some d' =>
    rw [root?, hd', Option.bind_some] at hr'
    obtain ⟨o, ho, howns'⟩ := h.owns_of_desktop? hd'
    rw [h.leaves_of_owns ho howns'] at hr'
    cases o with
    | none => cases hr'
    | some s' =>
      obtain rfl := h.tree_unique hs ho hleaf (by simpa using hr')
      exact h.position_unique hd' hd howns'.1 howns.1

/-! ## The list of nodes -/

theorem flatMap_clientsOf (h : m.Shaped shapes) :
    m.desktops.flatMap m.clientsOf =
      (shapes.reduceOption.flatMap Shape.leaves).filterMap m.tree.client? := by
  have hall (desktops : List Desktop) (part : List (Option Shape)) (hpart : part ⊆ shapes)
      (howns : List.Forall₂ Desktop.Owns desktops part) :
      desktops.flatMap m.clientsOf =
        (part.reduceOption.flatMap Shape.leaves).filterMap m.tree.client? := by
    induction howns with
    | nil => rfl
    | @cons d o desktops part ho _ ih =>
      have hclients : m.clientsOf d = (o.toList.flatMap Shape.leaves).filterMap m.tree.client? := by
        rw [clientsOf, h.leaves_of_owns (hpart (by simp)) ho]
      rw [List.flatMap_cons, hclients, ih fun x hx => hpart (List.mem_cons_of_mem _ hx)]
      cases o with
      | none => rfl
      | some s => simp [List.reduceOption_cons_of_some]
  exact hall m.desktops shapes (List.Subset.refl _) h.owns

theorem windows_clientsOf (h : m.Shaped shapes) :
    (m.desktops.flatMap m.clientsOf).map Client.window =
      (shapes.reduceOption.flatMap Shape.leaves).filterMap m.tree.window? := by
  rw [h.flatMap_clientsOf, List.map_filterMap]
  rfl

theorem nodup_windows (h : m.Shaped shapes) :
    ((m.desktops.flatMap m.clientsOf).map Client.window).Nodup := by
  have hleaves : (shapes.reduceOption.flatMap Shape.leaves).Nodup :=
    (List.Sublist.flatMap_right _ fun s _ => s.leaves_sublist_preorder).nodup h.forest.nodup
  rw [h.windows_clientsOf]
  exact hleaves.filterMap fun a b w ha hb => h.windows a b w ha hb

theorem mem_windows_iff (h : m.Shaped shapes) {w : Window} :
    w ∈ (m.desktops.flatMap m.clientsOf).map Client.window ↔ (m.tree.findWindow? w).isSome := by
  rw [h.windows_clientsOf, List.mem_filterMap, Tree.exists_window_iff]
  constructor
  · rintro ⟨n, -, hn⟩
    exact ⟨n, hn⟩
  · rintro ⟨n, hn⟩
    refine ⟨n, List.mem_flatMap.2 (h.forest.isSome_client?_iff.1 ?_), hn⟩
    rw [← isSome_window?, hn, Option.isSome_some]

/-! ## The invariant -/

theorem intact (h : m.Shaped shapes) : m.Intact where
  slots := h.forest.slots
  joined _ _ hget := h.forest.wellJoined hget
  child_of_parent _ _ hp := h.forest.child_of_parent hp
  acyclic := h.forest.acyclic
  roots n := by
    rw [h.forest.parentless_iff, ← h.roots_eq]
    exact mem_roots_iff
  root_unique r r' n hr hr' := by
    obtain ⟨d, hd, hn⟩ := Option.bind_eq_some_iff.1 hr
    obtain ⟨d', hd', hn'⟩ := Option.bind_eq_some_iff.1 hr'
    exact h.position_unique hd hd' hn hn'
  reached n hn := h.reached (by rwa [← isSome_window?])
  listed := by
    refine ⟨_, h.nodup_windows, fun w => h.mem_windows_iff, ?_⟩
    rw [listNodes, List.map_map]
    rfl
  windows := h.windows
  focus_iff r d hd := by
    obtain ⟨o, -, howns⟩ := h.owns_of_desktop? hd
    cases o with
    | none => rw [howns.1, howns.2]
    | some s =>
      obtain ⟨hroot, n, -, hfocus⟩ := howns
      rw [hroot, hfocus, Option.isSome_some, Option.isSome_some]
  focus_leaf r d n hd hn := by
    obtain ⟨o, ho, howns⟩ := h.owns_of_desktop? hd
    rw [h.leaves_of_owns ho howns]
    cases o with
    | none =>
      rw [howns.2] at hn
      cases hn
    | some s =>
      obtain ⟨-, n', hleaf, hfocus⟩ := howns
      obtain rfl : n' = n := Option.some.inj (hfocus.symm.trans hn)
      refine ⟨by simpa using hleaf, ?_⟩
      exact h.forest.isSome_client?_iff.2 ⟨s, mem_reduceOption.2 ho, hleaf⟩
  stack := by
    obtain ⟨l, hl, -⟩ := h.stack
    rwa [hl.toList_eq]
  stack_leaf := by
    obtain ⟨l, hl, hlive⟩ := h.stack
    rwa [hl.toList_eq]
  focused := h.focused

end Shaped

end Model

/-- Whatever operations are carried out one after the other, the model holds together. -/
theorem Stage.intact_run (outputs : List (String × Rect)) (names : List String)
    (settings : Settings) (ids : FeedbackIds) (ops : List Operation) :
    ((fresh outputs names settings ids).run ops).model.Intact := by
  obtain ⟨shapes, h⟩ := sound_run (sound_fresh outputs names settings ids) ops
  exact h.intact

end Tiling
