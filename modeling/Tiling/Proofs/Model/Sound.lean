import Mathlib.Data.List.Forall2
import Mathlib.Data.List.ReduceOption
import Tiling.Model.Stage
import Tiling.Proofs.Model.Desktops
import Tiling.Proofs.Stack.Placement
import Tiling.Proofs.Tree.Arrange
/-!
# Sound models

The invariant that ties monitors, trees and stack together: the trees in the store are those of
the desktops, each desktop has the focus on one of its own leaves, no window is in two leaves,
and the stack holds leaves only.
-/

namespace Tiling

open Tiling.Tree (Shape)

/-- What a desktop keeps of its tree: nothing without one, else its root and the leaf that has
the focus. -/
def Desktop.Owns (d : Desktop) : Option Shape → Prop
  | none => d.root = none ∧ d.focus = none
  | some s => d.root = some s.top ∧ ∃ n ∈ s.leaves, d.focus = some n

theorem Desktop.Owns.cases {d : Desktop} {o : Option Shape} (h : d.Owns o) :
    d.root = o.map Shape.top ∧ (o = none → d.focus = none) ∧
      ∀ s, o = some s → ∃ n ∈ s.leaves, d.focus = some n := by
  cases o with
  | none => exact ⟨h.1, fun _ => h.2, by simp⟩
  | some s =>
    refine ⟨h.1, by simp, fun s' hs => ?_⟩
    obtain rfl := Option.some.inj hs
    exact h.2

theorem forall₂_append_left {α β : Type} {R : α → β → Prop} {before after : List α} {l : List β}
    (h : List.Forall₂ R (before ++ after) l) :
    ∃ left right, l = left ++ right ∧ List.Forall₂ R before left ∧ List.Forall₂ R after right := by
  induction before generalizing l with
  | nil => exact ⟨[], l, rfl, .nil, h⟩
  | cons a before ih =>
    obtain ⟨b, rest, hb, hrest, rfl⟩ := List.forall₂_cons_left_iff.1 h
    obtain ⟨left, right, rfl, hleft, hright⟩ := ih hrest
    exact ⟨b :: left, right, rfl, .cons hb hleft, hright⟩

theorem filterMap_root_of_owns {desktops : List Desktop} {shapes : List (Option Shape)}
    (h : List.Forall₂ Desktop.Owns desktops shapes) :
    desktops.filterMap Desktop.root = shapes.reduceOption.map Shape.top := by
  induction h with
  | nil => rfl
  | @cons d o desktops shapes ho _ ih =>
    obtain ⟨hroot, -⟩ := ho.cases
    cases o with
    | none => rw [List.filterMap_cons_none hroot, List.reduceOption_cons_of_none, ih]
    | some s =>
      rw [List.filterMap_cons_some hroot, List.reduceOption_cons_of_some, List.map_cons, ih]

namespace Model

/-- The desktops of each monitor. -/
def desktopLists (m : Model) : List (List Desktop) := m.monitors.map Monitor.desktops

/-- The invariant, for the trees of the desktops in their order. -/
structure Shaped (m : Model) (shapes : List (Option Shape)) : Prop where
  forest : m.tree.Forest shapes.reduceOption
  owns : List.Forall₂ Desktop.Owns m.desktops shapes
  windows : ∀ a b w, m.tree.window? a = some w → m.tree.window? b = some w → a = b
  stack : ∃ l, m.stack.Holds l ∧ ∀ n ∈ l, (m.tree.client? n).isSome
  focused : m.monitors = [] ∨ m.focusedMonitor < m.monitors.length

/-- The roots of the trees, desktop by desktop. -/
def roots (m : Model) : List NodeId := m.desktops.filterMap Desktop.root

/-- The model is put together as it should be. -/
def Sound (m : Model) : Prop := ∃ shapes, m.Shaped shapes

/-! ## Models with the same desktops -/

theorem desktops_eq (m : Model) : m.desktops = m.desktopLists.flatten := by
  rw [desktops, desktopLists, List.flatMap_def]

theorem desktop?_eq (m : Model) (r : DesktopRef) :
    m.desktop? r = m.desktopLists[r.monitor]?.bind fun desktops => desktops[r.desktop]? := by
  rw [desktop?, monitor?, desktopLists, List.getElem?_map]
  cases m.monitors[r.monitor]? <;> rfl

theorem findDesktopFrom_congr {p : Desktop → Bool} {i : Nat} {left right : List Monitor}
    (h : left.map Monitor.desktops = right.map Monitor.desktops) :
    findDesktopFrom p i left = findDesktopFrom p i right := by
  induction left generalizing i right with
  | nil =>
    cases right with
    | nil => rfl
    | cons _ _ => simp at h
  | cons a left ih =>
    cases right with
    | nil => simp at h
    | cons b right =>
      simp only [List.map_cons, List.cons.injEq] at h
      rw [findDesktopFrom, findDesktopFrom, h.1, ih h.2]

/-- Which desktop is shown and which monitor has the focus is no part of the invariant. -/
theorem Shaped.congr {m m' : Model} {shapes : List (Option Shape)} (h : m.Shaped shapes)
    (htree : m'.tree = m.tree) (hstack : m'.stack = m.stack)
    (hdesktops : m'.desktopLists = m.desktopLists)
    (hfocused : m'.monitors = [] ∨ m'.focusedMonitor < m'.monitors.length) : m'.Shaped shapes where
  forest := by rw [htree]; exact h.forest
  owns := by rw [desktops_eq, hdesktops, ← desktops_eq]; exact h.owns
  windows := by rw [htree]; exact h.windows
  stack := by rw [htree, hstack]; exact h.stack
  focused := hfocused

/-! ## Clients in the tree -/

theorem isSome_window? (t : Tree) (n : NodeId) : (t.window? n).isSome = (t.client? n).isSome := by
  rw [Tree.window?, Option.isSome_map]

namespace Shaped

/-- A change in the tree that keeps its shape and its windows. -/
theorem withTree {m : Model} {shapes : List (Option Shape)} (h : m.Shaped shapes) {t : Tree}
    (hforest : t.Forest shapes.reduceOption) (hwindow : ∀ n, t.window? n = m.tree.window? n) :
    Shaped { m with tree := t } shapes where
  forest := hforest
  owns := h.owns
  windows a b w := by
    simp only [hwindow]
    exact h.windows a b w
  stack := by
    obtain ⟨l, hl, hlive⟩ := h.stack
    refine ⟨l, hl, fun n hn => ?_⟩
    rw [← isSome_window?, hwindow, isSome_window?]
    exact hlive n hn
  focused := h.focused

theorem withStack {m : Model} {shapes : List (Option Shape)} (h : m.Shaped shapes) {s : Stack}
    {l : List NodeId} (hl : s.Holds l) (hlive : ∀ n ∈ l, (m.tree.client? n).isSome) :
    Shaped { m with stack := s } shapes where
  forest := h.forest
  owns := h.owns
  windows := h.windows
  stack := ⟨l, hl, hlive⟩
  focused := h.focused

/-! ## The desktop at a position -/

/-- A change of the desktop at a position, together with the store and the stack. -/
theorem edit {m : Model} {shapes : List (Option Shape)} (h : m.Shaped shapes) {r : DesktopRef}
    {d : Desktop} (hd : m.desktop? r = some d) :
    ∃ left o right, shapes = left ++ o :: right ∧ d.Owns o ∧
      ∀ (t : Tree) (s : Stack) (f : Desktop → Desktop) (o' : Option Shape),
        t.Forest (left ++ o' :: right).reduceOption → (f d).Owns o' →
        (∀ a b w, t.window? a = some w → t.window? b = some w → a = b) →
        (∃ l, s.Holds l ∧ ∀ n ∈ l, (t.client? n).isSome) →
        (modifyDesktop { m with tree := t, stack := s } r f).Shaped (left ++ o' :: right) := by
  obtain ⟨before, after, hsplit, hmodify⟩ := desktops_split hd
  have howns := h.owns
  rw [hsplit] at howns
  obtain ⟨left, rest, hshapes, hleft, hrest⟩ := forall₂_append_left howns
  obtain ⟨o, right, ho, hright, rfl⟩ := List.forall₂_cons_left_iff.1 hrest
  refine ⟨left, o, right, hshapes, ho, fun t s f o' hforest ho' hwindows hstack => ?_⟩
  refine ⟨hforest, ?_, hwindows, hstack, ?_⟩
  · have hdesktops : (modifyDesktop { m with tree := t, stack := s } r f).desktops =
        before ++ f d :: after := hmodify f
    rw [hdesktops]
    exact List.rel_append hleft (.cons ho' hright)
  · rcases h.focused with hnil | hlt
    · exact .inl (by simp [modifyDesktop, hnil])
    · exact .inr (by simpa [modifyDesktop] using hlt)

theorem mem_reduceOption {shapes : List (Option Shape)} {s : Shape} :
    s ∈ shapes.reduceOption ↔ some s ∈ shapes := List.reduceOption_mem_iff

theorem roots_eq {m : Model} {shapes : List (Option Shape)} (h : m.Shaped shapes) :
    m.roots = shapes.reduceOption.map Shape.top :=
  filterMap_root_of_owns h.owns

theorem roots_nodup {m : Model} {shapes : List (Option Shape)} (h : m.Shaped shapes) :
    m.roots.Nodup := by
  rw [h.roots_eq, List.Nodup, List.pairwise_map]
  refine (List.nodup_flatMap.1 h.forest.nodup).2.imp fun hdisjoint htop => ?_
  exact hdisjoint (Shape.top_mem_preorder _) (htop ▸ Shape.top_mem_preorder _)

/-- A tree has one desktop. -/
theorem position_unique {m : Model} {shapes : List (Option Shape)} (h : m.Shaped shapes)
    {r r' : DesktopRef} {d d' : Desktop} {x : NodeId} (hd : m.desktop? r = some d)
    (hd' : m.desktop? r' = some d') (hx : d.root = some x) (hx' : d'.root = some x) : r = r' := by
  have hpairwise : m.desktops.Pairwise fun a b => ∀ y, a.root = some y → b.root ≠ some y := by
    have hnodup := h.roots_nodup
    rw [roots, List.Nodup, List.pairwise_filterMap] at hnodup
    exact hnodup.imp fun hab y hy hy' => hab y hy y hy' rfl
  rw [desktops_eq, List.pairwise_flatten] at hpairwise
  obtain ⟨hinside, hacross⟩ := hpairwise
  rw [desktop?_eq, Option.bind_eq_some_iff] at hd hd'
  obtain ⟨l, hl, hd⟩ := hd
  obtain ⟨l', hl', hd'⟩ := hd'
  obtain ⟨hi, rfl⟩ := List.getElem?_eq_some_iff.1 hl
  obtain ⟨hi', rfl⟩ := List.getElem?_eq_some_iff.1 hl'
  have hmonitor : r.monitor = r'.monitor := by
    by_contra hne
    rcases Nat.lt_or_gt_of_ne hne with hlt | hlt
    · exact List.pairwise_iff_getElem.1 hacross _ _ hi hi' hlt d (List.mem_of_getElem? hd) d'
        (List.mem_of_getElem? hd') x hx hx'
    · exact List.pairwise_iff_getElem.1 hacross _ _ hi' hi hlt d' (List.mem_of_getElem? hd') d
        (List.mem_of_getElem? hd) x hx' hx
  obtain ⟨i, j⟩ := r
  obtain ⟨i', j'⟩ := r'
  obtain rfl : i = i' := hmonitor
  have hrow := hinside _ (List.getElem_mem hi)
  obtain ⟨hj, rfl⟩ := List.getElem?_eq_some_iff.1 hd
  obtain ⟨hj', rfl⟩ := List.getElem?_eq_some_iff.1 hd'
  have hdesktop : j = j' := by
    by_contra hne
    rcases Nat.lt_or_gt_of_ne hne with hlt | hlt
    · exact List.pairwise_iff_getElem.1 hrow _ _ hj hj' hlt x hx hx'
    · exact List.pairwise_iff_getElem.1 hrow _ _ hj' hj hlt x hx' hx
  rw [hdesktop]

/-- A desktop owns one tree. -/
theorem owns_unique {m : Model} {shapes : List (Option Shape)} (h : m.Shaped shapes) {d : Desktop}
    {s s' : Shape} (hs : some s ∈ shapes) (hs' : some s' ∈ shapes) (howns : d.Owns (some s))
    (howns' : d.Owns (some s')) : s = s' := by
  have htop : s.top = s'.top := Option.some.inj (howns.1.symm.trans howns'.1)
  exact (h.forest.hasShape (mem_reduceOption.2 hs)).unique
    (h.forest.hasShape (mem_reduceOption.2 hs')) htop

theorem locate?_eq {m : Model} {shapes : List (Option Shape)} (h : m.Shaped shapes) {s : Shape}
    (hs : some s ∈ shapes) {n : NodeId} (hn : n ∈ s.preorder) :
    m.locate? n = findDesktopFrom (·.root == some s.top) 0 m.monitors := by
  rw [Model.locate?, h.forest.rootOf_eq (mem_reduceOption.2 hs) hn, Option.bind_some]

/-- Where a client is found depends on the shapes of the trees and on the desktops. -/
theorem locate?_congr {m m' : Model} {shapes : List (Option Shape)} (h : m.Shaped shapes)
    (h' : m'.Shaped shapes) (hdesktops : m'.desktopLists = m.desktopLists) {n : NodeId}
    (hn : (m.tree.client? n).isSome) : m'.locate? n = m.locate? n := by
  obtain ⟨s, hs, hleaf⟩ := h.forest.isSome_client?_iff.1 hn
  have hs := mem_reduceOption.1 hs
  have hmem := Shape.mem_preorder_of_mem_leaves hleaf
  rw [h.locate?_eq hs hmem, h'.locate?_eq hs hmem, findDesktopFrom_congr hdesktops]

/-- A desktop with a root owns a tree. -/
theorem exists_of_root {m : Model} {shapes : List (Option Shape)} (h : m.Shaped shapes)
    {r : DesktopRef} {d : Desktop} (hd : m.desktop? r = some d) {x : NodeId}
    (hroot : d.root = some x) : ∃ s, some s ∈ shapes ∧ d.Owns (some s) ∧ s.top = x := by
  obtain ⟨left, o, right, hshapes, ho, -⟩ := h.edit hd
  cases o with
  | none =>
    rw [ho.1] at hroot
    cases hroot
  | some s => exact ⟨s, by simp [hshapes], ho, Option.some.inj (ho.1.symm.trans hroot)⟩

/-- The tree under the root of a desktop is the one that the desktop owns. -/
theorem mem_of_root {m : Model} {shapes : List (Option Shape)} (h : m.Shaped shapes)
    {r : DesktopRef} {d : Desktop} (hd : m.desktop? r = some d) {s : Shape}
    (hroot : d.root = some s.top) (hs : Tree.HasShape m.tree none s) :
    some s ∈ shapes ∧ d.Owns (some s) := by
  obtain ⟨s', hmem, ho, htop⟩ := h.exists_of_root hd hroot
  obtain rfl := (h.forest.hasShape (mem_reduceOption.2 hmem)).unique hs htop
  exact ⟨hmem, ho⟩

/-- Every node of a tree is found on the desktop that owns the tree. -/
theorem locate {m : Model} {shapes : List (Option Shape)} (h : m.Shaped shapes) {s : Shape}
    (hs : some s ∈ shapes) {n : NodeId} (hn : n ∈ s.preorder) :
    ∃ r d, m.locate? n = some r ∧ m.desktop? r = some d ∧ d.Owns (some s) := by
  obtain ⟨i, hi, hsi⟩ := List.mem_iff_getElem.1 hs
  have hlength := h.owns.length_eq
  have howner : m.desktops[i].Owns (some s) := by
    have hat := (List.forall₂_iff_get.1 h.owns).2 i (by omega) hi
    simp only [List.get_eq_getElem, hsi] at hat
    exact hat
  cases hfind : findDesktopFrom (·.root == some s.top) 0 m.monitors with
  | none =>
    have hnone := findDesktopFrom_eq_none hfind _
      (List.getElem_mem (by omega : i < m.desktops.length))
    rw [howner.1] at hnone
    simp at hnone
  | some r =>
    obtain ⟨d, hd, hp⟩ := exists_of_findDesktopFrom hfind
    have hdroot : d.root = some s.top := by simpa using hp
    refine ⟨r, d, by rw [h.locate?_eq hs hn, hfind], hd, ?_⟩
    exact (h.mem_of_root hd hdroot (h.forest.hasShape (mem_reduceOption.2 hs))).2

/-- The nodes under the root of a desktop are found on that desktop. -/
theorem locate?_of_root {m : Model} {shapes : List (Option Shape)} (h : m.Shaped shapes)
    {r : DesktopRef} {d : Desktop} (hd : m.desktop? r = some d) {s : Shape}
    (hroot : d.root = some s.top) (hs : Tree.HasShape m.tree none s) {n : NodeId}
    (hn : n ∈ s.preorder) : m.locate? n = some r := by
  obtain ⟨r', d', hlocate, hd', howns⟩ := h.locate (h.mem_of_root hd hroot hs).1 hn
  rw [hlocate, h.position_unique hd hd' hroot howns.1]

/-- A leaf with a client is found on the desktop that owns its tree. -/
theorem locate_client {m : Model} {shapes : List (Option Shape)} (h : m.Shaped shapes) {n : NodeId}
    (hn : (m.tree.client? n).isSome) :
    ∃ s r d, some s ∈ shapes ∧ n ∈ s.leaves ∧ m.locate? n = some r ∧ m.desktop? r = some d ∧
      d.Owns (some s) := by
  obtain ⟨s, hs, hleaf⟩ := h.forest.isSome_client?_iff.1 hn
  have hs := mem_reduceOption.1 hs
  obtain ⟨r, d, hlocate, hd, howns⟩ := h.locate hs (Shape.mem_preorder_of_mem_leaves hleaf)
  exact ⟨s, r, d, hs, hleaf, hlocate, hd, howns⟩

/-- The trees around the one that holds a client. -/
theorem split_client {m : Model} {shapes : List (Option Shape)} (h : m.Shaped shapes) {n : NodeId}
    (hn : (m.tree.client? n).isSome) {r : DesktopRef} {d : Desktop} (hlocate : m.locate? n = some r)
    (hd : m.desktop? r = some d) :
    ∃ left s right, shapes = left ++ some s :: right ∧ n ∈ s.leaves ∧ d.Owns (some s) := by
  obtain ⟨s, r', d', hmem, hleaf, hlocate', hd', howns⟩ := h.locate_client hn
  obtain rfl : r' = r := Option.some.inj (hlocate'.symm.trans hlocate)
  obtain rfl : d' = d := Option.some.inj (hd'.symm.trans hd)
  obtain ⟨left, right, hshapes⟩ := List.append_of_mem hmem
  exact ⟨left, s, right, hshapes, hleaf, howns⟩

end Shaped

end Model

end Tiling
