import Tiling.Proofs.Model.Sound
import Tiling.Proofs.Model.Strokes
/-!
# What an operation leaves alone

Most steps of an operation talk to the display and the subscribers, write rectangles, or change
what is shown.  None of them is seen by the invariant, by the stack or by a look-up of a window.
-/

namespace Tiling

/-- What the stack and the look-ups see of a client. -/
def Client.standing (c : Client) : Window × Layer × ClientState := (c.window, c.layer, c.state)

namespace Tree

/-- What the stack and the look-ups see of a node. -/
def standing? (t : Tree) (n : NodeId) : Option (Window × Layer × ClientState) :=
  (t.client? n).map Client.standing

theorem isSome_standing? (t : Tree) (n : NodeId) :
    (t.standing? n).isSome = (t.client? n).isSome := by
  rw [standing?, Option.isSome_map]

theorem window?_of_standing {t t' : Tree} {n : NodeId} (h : t'.standing? n = t.standing? n) :
    t'.window? n = t.window? n := by
  have hview (u : Tree) : u.window? n = (u.standing? n).map Prod.fst := by
    rw [window?, standing?, Option.map_map]
    rfl
  rw [hview, hview, h]

theorem level_of_standing {t t' : Tree} {n : NodeId} (h : t'.standing? n = t.standing? n) :
    t'.level n = t.level n := by
  have hview (u : Tree) :
      u.level n = ((u.standing? n).map fun x => Client.levelOf x.2.1 x.2.2).getD 0 := by
    rw [level, standing?, Option.map_map]
    rfl
  rw [hview, hview, h]

theorem state_of_standing {t t' : Tree} {n : NodeId} (h : t'.standing? n = t.standing? n) :
    (t'.client? n).map Client.state = (t.client? n).map Client.state := by
  have hview (u : Tree) : (u.client? n).map Client.state = (u.standing? n).map (·.2.2) := by
    rw [standing?, Option.map_map]
    rfl
  rw [hview, hview, h]

theorem isSome_client?_of_standing {t t' : Tree} {n : NodeId}
    (h : t'.standing? n = t.standing? n) : (t'.client? n).isSome = (t.client? n).isSome := by
  rw [← isSome_standing?, h, isSome_standing?]

theorem standing?_of_client {t t' : Tree} {n : NodeId} (h : t'.client? n = t.client? n) :
    t'.standing? n = t.standing? n := by
  rw [standing?, h, standing?]

theorem standing?_modify_of {t : Tree} (n m : NodeId) {f : Node → Node}
    (hf : ∀ node, (f node).client = node.client) :
    (t.modify n f).standing? m = t.standing? m :=
  standing?_of_client (client?_modify_of n m hf)

theorem standing?_modifyClient (t : Tree) (n m : NodeId) {f : Client → Client}
    (hf : ∀ c, (f c).standing = c.standing) : (t.modifyClient n f).standing? m = t.standing? m := by
  rw [standing?, client?_modifyClient]
  by_cases h : n = m
  · subst h
    rw [if_pos rfl, Option.map_map, standing?]
    exact congrArg (Option.map · (t.client? n)) (funext hf)
  · rw [if_neg h, standing?]

theorem window?_modifyClient (t : Tree) (n m : NodeId) {f : Client → Client}
    (hf : ∀ c, (f c).window = c.window) : (t.modifyClient n f).window? m = t.window? m := by
  rw [window?, client?_modifyClient]
  by_cases h : n = m
  · subst h
    rw [if_pos rfl, Option.map_map, window?]
    exact congrArg (Option.map · (t.client? n)) (funext hf)
  · rw [if_neg h, window?]

end Tree

/-! ## Projections of stages -/

namespace Stage

@[simp] theorem model_emit (s : Stage) (es : List Effect) : (s.emit es).model = s.model := rfl

@[simp] theorem model_withModel (s : Stage) (m : Model) : (s.withModel m).model = m := rfl

/-- From `s` to `s'` nothing changes that the invariant, the stack or a look-up of a window
sees. -/
structure Keeps (s s' : Stage) : Prop where
  settings : s'.settings = s.settings
  forest : ∀ shapes, s.model.tree.Forest shapes → s'.model.tree.Forest shapes
  standing : ∀ n, s'.model.tree.standing? n = s.model.tree.standing? n
  stack : s'.model.stack = s.model.stack
  desktops : s'.model.desktopLists = s.model.desktopLists
  focused : s.model.monitors = [] ∨ s.model.focusedMonitor < s.model.monitors.length →
    s'.model.monitors = [] ∨ s'.model.focusedMonitor < s'.model.monitors.length

namespace Keeps

theorem of_model {s s' : Stage} (hmodel : s'.model = s.model)
    (hsettings : s'.settings = s.settings) : s.Keeps s' where
  settings := hsettings
  forest shapes h := by rwa [hmodel]
  standing n := by rw [hmodel]
  stack := by rw [hmodel]
  desktops := by rw [hmodel]
  focused h := by rwa [hmodel]

theorem refl (s : Stage) : s.Keeps s := of_model rfl rfl

theorem trans {s s' s'' : Stage} (h : s.Keeps s') (h' : s'.Keeps s'') : s.Keeps s'' where
  settings := h'.settings.trans h.settings
  forest shapes hf := h'.forest shapes (h.forest shapes hf)
  standing n := (h'.standing n).trans (h.standing n)
  stack := h'.stack.trans h.stack
  desktops := h'.desktops.trans h.desktops
  focused hf := h'.focused (h.focused hf)

theorem emit (s : Stage) (es : List Effect) : s.Keeps (s.emit es) := of_model rfl rfl

theorem shaped {s s' : Stage} {shapes : List (Option Tree.Shape)} (h : s.Keeps s')
    (hs : s.model.Shaped shapes) : s'.model.Shaped shapes := by
  have htree := hs.withTree (h.forest _ hs.forest) fun n => Tree.window?_of_standing (h.standing n)
  exact htree.congr rfl h.stack h.desktops (h.focused hs.focused)

theorem desktop? {s s' : Stage} (h : s.Keeps s') (r : DesktopRef) :
    s'.model.desktop? r = s.model.desktop? r := by
  rw [Model.desktop?_eq, h.desktops, ← Model.desktop?_eq]

/-- A change of a node that its links, its client and its preselection survive. -/
theorem modifyTree (s : Stage) (n : NodeId) {f : Node → Node}
    (hforest : ∀ shapes, s.model.tree.Forest shapes → (s.model.tree.modify n f).Forest shapes)
    (hclient : ∀ node, (f node).client = node.client) :
    s.Keeps (s.modifyTree fun t => t.modify n f) where
  settings := rfl
  forest := hforest
  standing m := Tree.standing?_modify_of n m hclient
  stack := rfl
  desktops := rfl
  focused h := h

theorem modifyClient (s : Stage) (n : NodeId) (f : Client → Client)
    (hf : ∀ c, (f c).standing = c.standing) :
    s.Keeps (s.modifyTree fun t => t.modifyClient n f) where
  settings := rfl
  forest _ h := h.modifyClient n f
  standing m := Tree.standing?_modifyClient _ n m hf
  stack := rfl
  desktops := rfl
  focused h := h

theorem applyLayout (s : Stage) (r : DesktopRef) : s.Keeps (s.applyLayout r) := by
  unfold Stage.applyLayout
  split
  · rename_i monitor desktop hmonitor hdesktop
    exact {
      settings := rfl
      forest := fun _ h => h.arrange desktop.root monitor.rect desktop.layout
      standing := fun n => Tree.standing?_of_client (Tree.client?_arrange _ _ _ _ n)
      stack := rfl
      desktops := rfl
      focused := fun h => h }
  · exact refl s

end Keeps

end Stage

/-- Strokes of these kinds change nothing that the invariant, the stack or a look-up sees. -/
def Stage.StrokeKind.keeps : Stage.StrokeKind → Bool
  | .restack | .state | .layer | .mark | .choose | .layout | .settings => false
  | _ => true

theorem Model.desktopLists_activate (m : Model) (r : DesktopRef) :
    (m.activate r).desktopLists = m.desktopLists := by
  have hsame (l : List Monitor) (i : Nat) (f : Monitor → Monitor)
      (hf : ∀ x, (f x).desktops = x.desktops) :
      (l.modify i f).map Monitor.desktops = l.map Monitor.desktops := by
    induction l generalizing i with
    | nil => simp
    | cons x l ih =>
      cases i with
      | zero => simp [hf]
      | succ i => simp [ih]
  exact hsame m.monitors r.monitor _ fun _ => rfl

namespace Stage.Keeps

theorem activate (s : Stage) (r : DesktopRef) : s.Keeps (s.withModel (s.model.activate r)) where
  settings := rfl
  forest _ h := h
  standing _ := rfl
  stack := rfl
  desktops := s.model.desktopLists_activate r
  focused h := by
    rcases h with h | h
    · exact .inl (by simp [Model.activate, h])
    · exact .inr (by simpa [Model.activate] using h)

theorem of_stroke {k : StrokeKind} {s s' : Stage} (hk : k.keeps = true) (h : s.Stroke k s') :
    s.Keeps s' := by
  cases h with
  | announce | report | configure | focus | destroy | raise => exact emit s _
  | map r value =>
    rw [setMapped_eq]
    exact emit s _
  | grant => exact of_model rfl rfl
  | arrange r => exact applyLayout s r
  | urgency n | float n => exact modifyClient s n _ fun _ => rfl
  | flag n =>
    exact modifyTree s n (fun _ h => h.modify n _ (fun _ => rfl) (fun _ => rfl) fun _ _ _ => rfl)
      fun _ => rfl
  | clear n =>
    refine modifyTree s n (fun _ h => h.modify n _ (fun _ => rfl) (fun _ => rfl) ?_) fun _ => rfl
    intro node hget hnone
    exact (h.presel_of_client_none hget hnone).symm
  | activate r => exact activate s r
  | monitor hthere =>
    obtain ⟨monitor, hmonitor⟩ := Option.isSome_iff_exists.1 hthere
    exact {
      settings := rfl
      forest := fun _ h => h
      standing := fun _ => rfl
      stack := rfl
      desktops := rfl
      focused := fun _ => .inr (List.getElem?_eq_some_iff.1 hmonitor).1 }
  | _ => cases hk

theorem of_path {kinds : List StrokeKind} {s s' : Stage} (h : s.Path kinds s')
    (hkinds : kinds.all StrokeKind.keeps = true) : s.Keeps s' :=
  h.frame hkinds refl trans of_stroke

theorem showDesktop (s : Stage) (r : DesktopRef) : s.Keeps (s.showDesktop r) :=
  of_path (path_showDesktop s r) rfl

end Stage.Keeps

end Tiling
