import Tiling.Proofs.Model.Intact
import Tiling.Proofs.Model.Managed
import Tiling.Proofs.Model.Steps
/-!
# Where windows live

A managed window lives on the desktop whose tree holds its leaf.  It stays there as long as it
is managed: an edit of a desktop puts new windows on that desktop and leaves the others where
they are.
-/

namespace Tiling

open Tiling.Tree (Shape HasShape)

namespace Model

/-- The desktop on which a window lives. -/
def home? (m : Model) (w : Window) : Option DesktopRef := (m.tree.findWindow? w).bind m.locate?

namespace Shaped

variable {m m' : Model} {shapes shapes' : List (Option Shape)} {r : DesktopRef} {d : Desktop}
  {w : Window}

/-- The windows that live on a desktop are those of the leaves of its tree. -/
theorem home?_iff (h : m.Shaped shapes) (hd : m.desktop? r = some d) {s : Shape}
    (hroot : d.root = some s.top) (hs : HasShape m.tree none s) :
    m.home? w = some r ↔ ∃ n ∈ s.leaves, m.tree.window? n = some w := by
  constructor
  · intro hhome
    obtain ⟨n, hn, hlocate⟩ := Option.bind_eq_some_iff.1 hhome
    have hw := Tree.window?_of_findWindow hn
    obtain ⟨s', r', d', hmem, hleaf, hlocate', hd', howns⟩ :=
      h.locate_client (n := n) (by rw [← isSome_window?, hw, Option.isSome_some])
    obtain rfl : r' = r := Option.some.inj (hlocate'.symm.trans hlocate)
    obtain rfl : d' = d := Option.some.inj (hd'.symm.trans hd)
    obtain rfl := (h.forest.hasShape (mem_reduceOption.2 hmem)).unique hs
      (Option.some.inj (howns.1.symm.trans hroot))
    exact ⟨n, hleaf, hw⟩
  · rintro ⟨n, hleaf, hw⟩
    rw [home?, h.findWindow?_eq hw, Option.bind_some]
    exact h.locate?_of_root hd hroot hs (Shape.mem_preorder_of_mem_leaves hleaf)

theorem home?_ne_of_root?_none (h : m.Shaped shapes) (hroot : m.root? r = none) :
    m.home? w ≠ some r := by
  intro hhome
  obtain ⟨n, hn, hlocate⟩ := Option.bind_eq_some_iff.1 hhome
  have hw := Tree.window?_of_findWindow hn
  obtain ⟨s, r', d, -, -, hlocate', hd, howns⟩ :=
    h.locate_client (n := n) (by rw [← isSome_window?, hw, Option.isSome_some])
  obtain rfl : r' = r := Option.some.inj (hlocate'.symm.trans hlocate)
  rw [root?, hd, Option.bind_some, howns.1] at hroot
  cases hroot

theorem isSome_home? (h : m.Shaped shapes) : (m.home? w).isSome ↔ m.Manages w := by
  rw [home?, Manages]
  cases hn : m.tree.findWindow? w with
  | none => exact Iff.rfl
  | some n =>
    have hw := Tree.window?_of_findWindow hn
    obtain ⟨-, r, -, -, -, hlocate, -, -⟩ :=
      h.locate_client (n := n) (by rw [← isSome_window?, hw, Option.isSome_some])
    rw [Option.bind_some, hlocate, Option.isSome_some, Option.isSome_some]

theorem mem_clientsOf (h : m.Shaped shapes) (hd : m.desktop? r = some d) :
    w ∈ (m.clientsOf d).map Client.window ↔ m.home? w = some r := by
  obtain ⟨o, ho, howns⟩ := h.owns_of_desktop? hd
  have hwindows : (m.clientsOf d).map Client.window =
      (o.toList.flatMap Shape.leaves).filterMap m.tree.window? := by
    rw [clientsOf, h.leaves_of_owns ho howns, List.map_filterMap]
    rfl
  rw [hwindows]
  cases o with
  | none =>
    have hroot : m.root? r = none := by rw [root?, hd, Option.bind_some, howns.1]
    exact iff_of_false (by simp) (h.home?_ne_of_root?_none hroot)
  | some s =>
    rw [h.home?_iff hd howns.1 (h.forest.hasShape (mem_reduceOption.2 ho))]
    simp

/-- Who lives on a desktop depends on its root and on the nodes of its tree. -/
theorem home?_congr (h : m.Shaped shapes) (h' : m'.Shaped shapes') (hroot : m'.root? r = m.root? r)
    (hfacet : ∀ d shape, m.desktop? r = some d → d.root = some shape.top →
      HasShape m.tree none shape → ∀ n ∈ shape.preorder, m'.tree.facet? n = m.tree.facet? n) :
    m'.home? w = some r ↔ m.home? w = some r := by
  cases hx : m.root? r with
  | none =>
    exact iff_of_false (h'.home?_ne_of_root?_none (hroot.trans hx)) (h.home?_ne_of_root?_none hx)
  | some x =>
    obtain ⟨d, hd, hdroot⟩ := Option.bind_eq_some_iff.1 hx
    obtain ⟨d', hd', hdroot'⟩ := Option.bind_eq_some_iff.1 (hroot.trans hx)
    obtain ⟨s, hmem, howns, rfl⟩ := h.exists_of_root hd hdroot
    have hs := h.forest.hasShape (mem_reduceOption.2 hmem)
    have hsame := hfacet d s hd hdroot hs
    have hs' : HasShape m'.tree none s := hs.congr fun n hn => Tree.links?_of_facet (hsame n hn)
    rw [h.home?_iff hd hdroot hs, h'.home?_iff hd' hdroot' hs']
    have hwindow (n : NodeId) (hn : n ∈ s.leaves) : m'.tree.window? n = m.tree.window? n :=
      Tree.window?_of_place (Tree.place?_of_facet (hsame n (Shape.mem_preorder_of_mem_leaves hn)))
    constructor
    · rintro ⟨n, hn, hw⟩
      exact ⟨n, hn, by rw [← hwindow n hn, hw]⟩
    · rintro ⟨n, hn, hw⟩
      exact ⟨n, hn, by rw [hwindow n hn, hw]⟩

end Shaped

theorem root?_eq_plan? (m : Model) (r : DesktopRef) : m.root? r = (m.plan? r).bind (·.2.1) := by
  rw [root?, desktop?, plan?]
  cases m.monitor? r with
  | none => rfl
  | some monitor =>
    rw [Option.bind_some, Option.bind_some]
    cases monitor.desktops[r.desktop]? <;> rfl

theorem exists_home? {m : Model} (hm : m.Sound) {w : Window} (hw : m.Manages w) :
    ∃ r, m.home? w = some r := by
  obtain ⟨shapes, h⟩ := hm
  exact Option.isSome_iff_exists.1 (h.isSome_home?.2 hw)

theorem manages_of_home? {m : Model} {w : Window} {r : DesktopRef} (h : m.home? w = some r) :
    m.Manages w := by
  obtain ⟨n, hn, -⟩ := Option.bind_eq_some_iff.1 h
  rw [Manages, hn, Option.isSome_some]

/-- A leaf is found where its window lives. -/
theorem locate?_of_window {m : Model} (hm : m.Sound) {n : NodeId} {w : Window}
    (hw : m.tree.window? n = some w) : m.locate? n = m.home? w := by
  obtain ⟨shapes, h⟩ := hm
  rw [home?, h.findWindow?_eq hw, Option.bind_some]

theorem home?_of_not_manages {m : Model} {w : Window} (h : ¬ m.Manages w) : m.home? w = none := by
  rw [Option.eq_none_iff_forall_ne_some]
  intro r hr
  exact h (manages_of_home? hr)

end Model

namespace Stage

variable {s s' u : Stage} {r : DesktopRef} {w : Window} {taken : List Window}

theorem Keeps.home?_eq (h : s.Keeps s') (hs : s.model.Sound) (w : Window) :
    s'.model.home? w = s.model.home? w := by
  obtain ⟨shapes, hs⟩ := hs
  have hs' := h.shaped hs
  have hwindow (n : NodeId) : s'.model.tree.window? n = s.model.tree.window? n :=
    Tree.window?_of_standing (h.standing n)
  rw [Model.home?, Model.home?]
  cases hn : s.model.tree.findWindow? w with
  | none =>
    have hnone : s'.model.tree.findWindow? w = none := by
      rw [Tree.findWindow?_eq_none_iff] at hn ⊢
      intro n
      rw [hwindow]
      exact hn n
    rw [hnone]
    rfl
  | some n =>
    have hw := Tree.window?_of_findWindow hn
    have hlive : (s.model.tree.client? n).isSome := by
      rw [← Model.isSome_window?, hw, Option.isSome_some]
    rw [hs'.findWindow?_eq ((hwindow n).trans hw)]
    exact hs.locate?_congr hs' h.desktops hlive

theorem Quiet.home?_eq (h : s.Quiet s') (hs : s.model.Sound) (hs' : s'.model.Sound) (w : Window) :
    s'.model.home? w = s.model.home? w := by
  obtain ⟨shapes, hs⟩ := hs
  obtain ⟨shapes', hs'⟩ := hs'
  apply Option.ext
  intro r
  apply hs.home?_congr hs'
  · rw [Model.root?_eq_plan?, Model.root?_eq_plan?, Model.plan?_eq, Model.plan?_eq, h.plan]
  · intro _ _ _ _ _ n _
    exact h.facet n

/-- After an edit a window is where it was, or on the edited desktop if it is new. -/
theorem Edits.home?_eq (h : s.Edits u r taken) (hs : s.model.Sound) (hw : u.model.Manages w) :
    u.model.home? w = some ((s.model.home? w).getD r) := by
  obtain ⟨home, hhome⟩ := Model.exists_home? h.sound hw
  obtain ⟨shapes, hs⟩ := hs
  obtain ⟨shapes', hu⟩ := h.sound
  have hother (r' : DesktopRef) (hr' : r' ≠ r) :
      u.model.home? w = some r' ↔ s.model.home? w = some r' := by
    apply hs.home?_congr hu
    · rw [Model.root?_eq_plan?, h.plan r' hr', ← Model.root?_eq_plan?]
    · intro d shape hd hroot hshape n hn
      exact h.others r' d shape hr' hd hroot hshape n hn
  by_cases hr : home = r
  · cases hold : s.model.home? w with
    | none => rw [hhome, hr, Option.getD_none]
    | some r' =>
      by_cases hr' : r' = r
      · rw [hhome, hr, Option.getD_some, hr']
      · rw [(hother r' hr').2 hold, Option.getD_some]
  · rw [(hother home hr).1 hhome, hhome, Option.getD_some]

theorem Edits.manages_before (h : s.Edits u r taken) (hw : u.model.Manages w) (hnew : w ∉ taken) :
    s.model.Manages w := by
  obtain ⟨n, hn⟩ := Model.manages_iff.1 hw
  rcases h.windows n w hn with hold | ⟨-, hmem⟩
  · exact Model.manages_iff.2 ⟨n, hold⟩
  · exact absurd hmem hnew

theorem Edits.home?_old (h : s.Edits u r taken) (hs : s.model.Sound) (hw : u.model.Manages w)
    (hnew : w ∉ taken) : u.model.home? w = s.model.home? w := by
  obtain ⟨home, hhome⟩ := Model.exists_home? hs (h.manages_before hw hnew)
  rw [h.home?_eq hs hw, hhome, Option.getD_some]

theorem Step.home?_eq (h : Step taken s s') (hs : s.model.Sound) (hs' : s'.model.Sound)
    (hw : s'.model.Manages w) (hnew : w ∉ taken) : s'.model.home? w = s.model.home? w := by
  have hedit {u : Stage} {r : DesktopRef} (h : s.Edits u r taken)
      (hw : (u.applyLayout r).model.Manages w) :
      (u.applyLayout r).model.home? w = s.model.home? w := by
    have hlaid := Keeps.applyLayout u r
    have huw : u.model.Manages w := ((hlaid.stays h.sound).manages_iff w).1 hw
    rw [hlaid.home?_eq h.sound w, h.home?_old hs huw hnew]
  cases h with
  | quiet h => exact h.home?_eq hs hs' w
  | restack hn promote => rfl
  | edit h hstack => exact hedit h hw
  | remove h hparts => exact hedit h hw
  | configure w' rect => exact (keeps_configure s w' rect).home?_eq hs w

theorem Step.manages_before (h : Step taken s s') (hs : s.model.Sound) (hw : s'.model.Manages w)
    (hnew : w ∉ taken) : s.model.Manages w := by
  have hedit {u : Stage} {r : DesktopRef} (h : s.Edits u r taken)
      (hw : (u.applyLayout r).model.Manages w) : s.model.Manages w :=
    h.manages_before (((Keeps.applyLayout u r).stays h.sound).manages_iff w |>.1 hw) hnew
  cases h with
  | quiet h =>
    obtain ⟨n, hn⟩ := Model.manages_iff.1 hw
    exact Model.manages_iff.2
      ⟨n, by rw [← Tree.window?_of_place (Tree.place?_of_facet (h.facet n)), hn]⟩
  | restack hn promote => exact hw
  | edit h hstack => exact hedit h hw
  | remove h hparts => exact hedit h hw
  | configure w' rect => exact (((keeps_configure s w' rect).stays hs).manages_iff w).1 hw

/-- A window that is not taken in stays on its desktop as long as it is managed. -/
theorem Steps.home?_eq (h : Steps taken s s') (hs' : s'.model.Sound) (hw : s'.model.Manages w)
    (hnew : w ∉ taken) : s'.model.home? w = s.model.home? w := by
  induction h with
  | refl => rfl
  | tail _ hstep ih =>
    obtain ⟨hu, hstep⟩ := hstep
    rw [hstep.home?_eq hu hs' hw hnew]
    exact ih hu (hstep.manages_before hu hw hnew)

theorem home?_of_keepsWindows (hs : s.model.Sound) {op : Operation} (hop : op.keepsWindows = true)
    (w : Window) : (s.perform op).model.home? w = s.model.home? w := by
  by_cases hw : (s.perform op).model.Manages w
  · have htaken : op.taken = [] := by
      cases op <;> first | rfl | cases hop
    exact (steps_perform hs op).home?_eq (perform_spec hs op).1 hw (by simp [htaken])
  · rw [Model.home?_of_not_manages hw, Model.home?_of_not_manages]
    rwa [← manages_perform_iff hs hop]

theorem home?_focusNode (hs : s.model.Sound) {n : NodeId} (hn : (s.model.tree.client? n).isSome)
    (w : Window) : (s.focusNode (some n)).model.home? w = s.model.home? w := by
  obtain ⟨v, hv⟩ := Option.isSome_iff_exists.1 ((Model.isSome_window? s.model.tree n).trans hn)
  obtain ⟨shapes, h⟩ := id hs
  have hperform : s.perform (.focus (.window v)) = s.focusNode (some n) := by
    simp only [perform, onTarget, Target.node?, h.findWindow?_eq hv]
  rw [← hperform]
  exact home?_of_keepsWindows hs rfl w

end Stage

end Tiling
