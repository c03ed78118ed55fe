import Tiling.Proofs.Geometry
import Tiling.Proofs.Model.Locality
/-!
# Where a preselected window lands

The window of a preselection covers the half of a leaf on the side that was chosen.  A window
that is managed next takes the half that splitting the leaf along its longer side leaves for it.
These are the same exactly if the side lies along the longer side.
-/

namespace Tiling.Stage

open Tiling.Tree (Shape)

variable {s : Stage} {r : DesktopRef} {d : Desktop} {f : NodeId} {rect : Rect}

theorem presel_eq {node : Node} (hlocate : s.model.locate? f = some r)
    (hnode : s.model.tree.get? f = some node) (dir : Direction) :
    ∃ words, s.presel f (some dir) = (((s.takePresel f).1.choosePresel r f node.rect dir).announceAt
      .nodePresel r words).raiseFeedback r := by
  simp only [Stage.presel, hlocate, hnode]
  exact ⟨_, rfl⟩

/-- Choosing a side on a shown desktop asks for a window over the half on that side, and changes
nothing but the node and the supply of such windows. -/
theorem choosePresel_spec {node : Node} (hvisible : s.model.isVisible r = true)
    (hnode : s.model.tree.get? f = some node) (rect : Rect) (dir : Direction) :
    (∃ color granted, (s.choosePresel r f rect dir).history =
        .request (.createFeedback (rect.half dir) color granted) :: s.history) ∧
      (s.choosePresel r f rect dir).model.monitors = s.model.monitors ∧
      (s.choosePresel r f rect dir).model.focusedMonitor = s.model.focusedMonitor ∧
      ((s.choosePresel r f rect dir).model.tree.presel? f).map Presel.dir = some dir := by
  rw [choosePresel, if_pos hvisible]
  refine ⟨⟨_, _, rfl⟩, rfl, rfl, ?_⟩
  show ((s.model.tree.modify f _).presel? f).map Presel.dir = some dir
  rw [Tree.presel?, Tree.get?_modify_same _ hnode]
  rfl

/-- A preselection on a shown desktop does as much: the one before it is taken back first. -/
theorem presel_spec (hlocate : s.model.locate? f = some r)
    (hrect : s.model.tree.rect? f = some rect) (hvisible : s.model.isVisible r = true)
    (dir : Direction) :
    (∃ color granted, Effect.request (.createFeedback (rect.half dir) color granted) ∈
        s.since (s.presel f (some dir))) ∧
      (s.presel f (some dir)).model.monitors = s.model.monitors ∧
      (s.presel f (some dir)).model.focusedMonitor = s.model.focusedMonitor ∧
      ((s.presel f (some dir)).model.tree.presel? f).map Presel.dir = some dir := by
  obtain ⟨node, hnode, rfl⟩ := Option.map_eq_some_iff.1 hrect
  obtain ⟨words, heq⟩ := presel_eq hlocate hnode dir
  rw [heq]
  have hmodel := model_takePresel s f
  obtain ⟨es, htaken, -⟩ := (Quiet.of_path (path_takePresel s f) rfl).history
  generalize (s.takePresel f).1 = u at *
  have hvisible : u.model.isVisible r = true := hmodel ▸ hvisible
  have hcleared : u.model.tree.get? f = some { node with presel := none } := by
    rw [hmodel]
    exact Tree.get?_modify_same _ hnode
  obtain ⟨⟨color, granted, hchosen⟩, hmonitors, hfocused, hdir⟩ :=
    choosePresel_spec hvisible hcleared node.rect dir
  generalize u.choosePresel r f node.rect dir = v at *
  have hlast : v.Quiet ((v.announceAt .nodePresel r words).raiseFeedback r) :=
    (Quiet.announceAt v (by decide) r words).trans (Quiet.of_stroke rfl (.raise r))
  obtain ⟨later, hlater, -⟩ := hlast.history
  have hall : ((v.announceAt .nodePresel r words).raiseFeedback r).history =
      (later ++ .request (.createFeedback (node.rect.half dir) color granted) :: es) ++
        s.history := by
    rw [hlater, hchosen, htaken, List.append_assoc, List.cons_append]
  refine ⟨⟨color, granted, ?_⟩, ?_, ?_, hdir⟩
  · rw [since_eq hall, List.mem_reverse]
    exact List.mem_append_right _ List.mem_cons_self
  · exact hmonitors.trans (by rw [hmodel])
  · exact hfocused.trans (by rw [hmodel])

theorem Reachable.presel (h : s.Reachable) (hf : (s.model.tree.client? f).isSome)
    (dir : Option Direction) : (s.presel f dir).Reachable := by
  obtain ⟨client, hclient⟩ := Option.isSome_iff_exists.1 hf
  have hwindow : s.model.tree.window? f = some client.window := by
    rw [Tree.window?, hclient, Option.map_some]
  obtain ⟨shapes, hm⟩ := h.sound
  have htarget : (Target.window client.window).node? s.model = some f := hm.findWindow?_eq hwindow
  have hperform := h.perform (.presel (.window client.window) dir)
  rw [Stage.perform, onTarget, htarget] at hperform
  exact hperform

/-- The focus of a desktop is one of its leaves. -/
theorem focus_spec (hs : s.model.Sound) (hd : s.model.desktop? r = some d)
    (hfocus : d.focus = some f) :
    d.root ≠ none ∧ (s.model.tree.client? f).isSome ∧ s.model.locate? f = some r := by
  have hlive : (s.model.tree.client? f).isSome := Model.isSome_client?_of_focus hs
    (show s.model.focus? r = some f by rw [Model.focus?, hd, Option.bind_some, hfocus])
  obtain ⟨shapes, hm⟩ := hs
  obtain ⟨o, ho, howns⟩ := hm.owns_of_desktop? hd
  cases o with
  | none =>
    rw [howns.2] at hfocus
    cases hfocus
  | some shape =>
    obtain ⟨hroot, n, hn, hdfocus⟩ := howns
    obtain rfl : n = f := Option.some.inj (hdfocus.symm.trans hfocus)
    refine ⟨by rw [hroot]; exact Option.some_ne_none _, hlive, ?_⟩
    exact hm.locate?_of_root hd hroot (hm.forest.hasShape (Model.Shaped.mem_reduceOption.2 ho))
      (Shape.mem_preorder_of_mem_leaves hn)

theorem targetDesktop?_congr {u : Stage} (hmonitors : u.model.monitors = s.model.monitors)
    (hfocused : u.model.focusedMonitor = s.model.focusedMonitor) (csq : Consequences) :
    u.targetDesktop? csq = s.targetDesktop? csq := by
  have hfind : u.model.findDesktop? = s.model.findDesktop? := funext fun name => by
    rw [Model.findDesktop?, Model.findDesktop?, hmonitors]
  rw [targetDesktop?, targetDesktop?, hfind, Model.focusedDesktop?, Model.focusedDesktop?,
    hmonitors, hfocused]

/-- The next window and the preselected one share the room of the latter by its longer side. -/
theorem manage_presel (h : s.Reachable) (hd : s.model.desktop? r = some d)
    (hvisible : s.model.isVisible r = true) (htiled : d.layout = .tiled)
    (hfocus : d.focus = some f) (hrect : s.model.tree.rect? f = some rect) (dir : Direction)
    {w : Window} (hnew : ¬ s.model.Manages w) (named : WindowClass) {csq : Consequences}
    (htarget : s.targetDesktop? csq = some r) :
    ∃ n, ((s.presel f (some dir)).manage w named csq).2 = some n ∧
      let s' := ((s.presel f (some dir)).manage w named csq).1
      s'.model.tree.rect? n = some (rect.splitSide dir) ∧
        s'.model.tree.rect? f = some (rect.splitSide dir.opposite) := by
  obtain ⟨hroot, hlive, hlocate⟩ := focus_spec h.sound hd hfocus
  obtain ⟨-, hmonitors, hfocused, hdir⟩ := presel_spec hlocate hrect hvisible dir
  have hquiet := Quiet.of_path (path_presel s f (some dir)) rfl
  have hreached := h.presel hlive (some dir)
  generalize s.presel f (some dir) = u at *
  -- the desktop is as it was, and the window is still to come
  obtain ⟨monitor, hmonitor, -⟩ := Model.exists_of_desktop? hd
  have humonitor : u.model.monitor? r = some monitor := by
    rw [Model.monitor?, hmonitors, ← Model.monitor?, hmonitor]
  have hud : u.model.desktop? r = some d := by
    rw [Model.desktop?, humonitor, ← hmonitor]
    exact hd
  have hunew : ¬ u.model.Manages w := by
    rwa [Model.manages_congr fun n => Tree.window?_of_place (Tree.place?_of_facet (hquiet.facet n))]
  have hutarget : u.targetDesktop? csq = some r := by
    rw [targetDesktop?_congr hmonitors hfocused, htarget]
  have hn : (u.manage w named csq).2 = some _ :=
    (steady_manage hunew hutarget humonitor hud rfl).1
  have hroom := makesRoom_manage hreached.sound hreached.settled hunew hutarget humonitor hud
    htiled hn
  obtain ⟨f', rect', hfocus', hrect', hfresh, hleft⟩ := hroom.beside hroot
  obtain rfl : f' = f := Option.some.inj (hfocus'.symm.trans hfocus)
  rw [Tree.rect?_of_facet (hquiet.facet f'), hrect] at hrect'
  obtain rfl : rect = rect' := Option.some.inj hrect'
  have hleads : u.opensFirst f' = dir.leads := by
    obtain ⟨p, hp, rfl⟩ := Option.map_eq_some_iff.1 hdir
    rw [opensFirst, hp]
    rfl
  rw [hleads, ← Rect.splitSide] at hfresh
  rw [hleads, ← Rect.splitSide_opposite] at hleft
  exact ⟨_, hn, hfresh, hleft⟩

/-- The next window lands as the window of the preselection shows exactly if the side that was
chosen lies along the longer side, or if there is no room at all. -/
theorem lands_iff (h : s.Reachable) (hd : s.model.desktop? r = some d)
    (hvisible : s.model.isVisible r = true) (htiled : d.layout = .tiled)
    (hfocus : d.focus = some f) (dir : Direction) (w : Window) (hnew : ¬ s.model.Manages w)
    (named : WindowClass) (csq : Consequences) (htarget : s.targetDesktop? csq = some r) :
    ∃ rect n, s.model.tree.rect? f = some rect ∧
      (∃ color granted, Effect.request (.createFeedback (rect.half dir) color granted) ∈
        s.since (s.presel f (some dir))) ∧
      ((s.presel f (some dir)).manage w named csq).2 = some n ∧
      let s' := ((s.presel f (some dir)).manage w named csq).1
      (s'.model.tree.rect? n = some (rect.splitSide dir) ∧
        s'.model.tree.rect? f = some (rect.splitSide dir.opposite)) ∧
      (s'.model.tree.rect? n = some (rect.half dir) ∧
          s'.model.tree.rect? f = some (rect.half dir.opposite) ↔
        (dir.isHorizontal = true ↔ rect.height ≤ rect.width) ∨
          (rect.width = 0 ∧ rect.height = 0)) := by
  obtain ⟨-, hlive, hlocate⟩ := focus_spec h.sound hd hfocus
  obtain ⟨client, hclient⟩ := Option.isSome_iff_exists.1 hlive
  obtain ⟨node, hnode, -⟩ := Option.bind_eq_some_iff.1 hclient
  have hrect : s.model.tree.rect? f = some node.rect := by rw [Tree.rect?, hnode, Option.map_some]
  obtain ⟨hshown, -⟩ := presel_spec hlocate hrect hvisible dir
  obtain ⟨n, hn, hfresh, hleft⟩ :=
    manage_presel h hd hvisible htiled hfocus hrect dir hnew named htarget
  refine ⟨node.rect, n, hrect, hshown, hn, ⟨hfresh, hleft⟩, ?_⟩
  rw [hfresh, hleft, Option.some.injEq, Option.some.injEq]
  exact Rect.splitSide_eq_half_iff

/-- A monitor that is wider than high, with one window. -/
def oneWindow : Stage :=
  (fresh [("screen0", ⟨0, 0, 1920, 1080⟩)] ["I", "II"] .standard (.counting 16777217 1 1)).run
    [.manage 1 .unknown .standard]

theorem reachable_oneWindow : oneWindow.Reachable := ⟨_, _, _, _, [], _, rfl⟩

theorem desktop?_oneWindow :
    oneWindow.model.desktop? ⟨0, 0⟩ = some ⟨2097154, "I", .tiled, some ⟨0⟩, some ⟨0⟩⟩ := by
  decide +kernel

/-- A window on the left lands where it was shown. -/
theorem lands_oneWindow :
    ∃ rect n, oneWindow.model.tree.rect? ⟨0⟩ = some rect ∧
      let s' := ((oneWindow.presel ⟨0⟩ (some .west)).manage 2 .unknown .standard).1
      s'.model.tree.rect? n = some (rect.half .west) ∧
        s'.model.tree.rect? ⟨0⟩ = some (rect.half .east) := by
  obtain ⟨rect, n, hrect, -, -, -, hiff⟩ := lands_iff reachable_oneWindow desktop?_oneWindow
    (by decide +kernel) rfl rfl .west 2 (by decide +kernel) .unknown .standard (by decide +kernel)
  have hwide : oneWindow.model.tree.rect? ⟨0⟩ = some ⟨0, 0, 1920, 1080⟩ := by decide +kernel
  refine ⟨rect, n, hrect, hiff.2 (.inl ?_)⟩
  rw [← Option.some.inj (hwide.symm.trans hrect)]
  decide

/-- A window above another one that is wider than high does not land where it was shown. -/
theorem not_lands_above :
    ¬ ∀ (s : Stage) (r : DesktopRef) (d : Desktop) (f : NodeId) (rect : Rect) (dir : Direction)
      (w : Window) (named : WindowClass) (csq : Consequences) (n : NodeId), s.Reachable →
      s.model.desktop? r = some d → s.model.isVisible r = true → d.layout = .tiled →
      d.focus = some f → s.model.tree.rect? f = some rect → ¬ s.model.Manages w →
      s.targetDesktop? csq = some r → ((s.presel f (some dir)).manage w named csq).2 = some n →
      let s' := ((s.presel f (some dir)).manage w named csq).1
      s'.model.tree.rect? n = some (rect.half dir) ∧
        s'.model.tree.rect? f = some (rect.half dir.opposite) := by
  intro hall
  have hlands := hall oneWindow ⟨0, 0⟩ _ ⟨0⟩ ⟨0, 0, 1920, 1080⟩ .north 2 .unknown .standard ⟨1⟩
    reachable_oneWindow desktop?_oneWindow (by decide +kernel) rfl rfl (by decide +kernel)
    (by decide +kernel) (by decide +kernel) (by decide +kernel)
  revert hlands
  decide +kernel

end Tiling.Stage
