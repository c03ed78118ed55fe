import Tiling.Proofs.Model.Nearest
/-!
# Where windows are taken to be

A neighbour is looked for among the rectangles of the tree and those of floating windows.  This
is where each window was last sent to, but for a window that fills the screen: it was sent to
the whole monitor, and is taken to be where it would be tiled.
-/

namespace Tiling

namespace Model

variable {m : Model} {n : NodeId} {seen seen' : NodeId → Option Rect} {r : DesktopRef} {d : Desktop}

theorem visibleRect?_eq_intended {node : Node} {c : Client} (hnode : m.tree.get? n = some node)
    (hc : node.client = some c) : m.visibleRect? n = some (c.intended node.rect node.rect) := by
  rw [visibleRect?_of_client hnode hc, Client.intended]
  cases c.state <;> rfl

/-- The closest window of the same desktop, where `seen` says where windows are. -/
def neighbourBy (m : Model) (seen : NodeId → Option Rect) (n : NodeId) (dir : Direction)
    (tightness : Tightness) : Option NodeId := do
  let desktop ← (m.locate? n).bind m.desktop?
  let r ← seen n
  let place ← closest? r dir <| ((m.tree.leaves desktop.root).filter (· != n)).filterMap fun c =>
    ((seen c).filter fun place => r.onSide place dir tightness).map (c, ·)
  return place.1

theorem neighbourBy_visible (m : Model) (n : NodeId) (dir : Direction) (tightness : Tightness) :
    m.neighbourBy m.visibleRect? n dir tightness = m.neighbour? n dir tightness := rfl

/-- Only the windows of the desktop matter. -/
theorem neighbourBy_congr (hlocate : m.locate? n = some r)
    (hd : m.desktop? r = some d) (hn : n ∈ m.tree.leaves d.root)
    (hseen : ∀ n' ∈ m.tree.leaves d.root, seen n' = seen' n') (dir : Direction)
    (tightness : Tightness) :
    m.neighbourBy seen n dir tightness = m.neighbourBy seen' n dir tightness := by
  simp only [neighbourBy, hlocate, hd, Option.bind_eq_bind, Option.bind_some, hseen n hn]
  refine congrArg _ (funext fun rect => ?_)
  rw [List.filterMap_congr fun n' hn' => by rw [hseen n' (List.mem_of_mem_filter hn')]]

end Model

theorem Client.intended_eq_iff {c : Client} {area rect : Rect} :
    c.intended rect rect = c.intended area rect ↔ (c.state = .fullscreen → rect = area) := by
  unfold intended
  cases c.state <;> simp

namespace Stage

variable {s : Stage} {n : NodeId} {c : Client}

/-- Where the window of a node was last sent to. -/
def sentAt? (s : Stage) (n : NodeId) : Option Rect := (s.model.tree.window? n).bind s.sent?

/-- A window is seen on its rectangle in the tree unless it floats, and was sent to this
rectangle unless it floats or fills the screen. -/
theorem seen_and_sent (h : s.Reachable) (hc : s.model.tree.client? n = some c) :
    ∃ r monitor d rect, s.model.locate? n = some r ∧ s.model.monitor? r = some monitor ∧
      s.model.desktop? r = some d ∧ s.model.tree.rect? n = some rect ∧
      s.model.visibleRect? n = some (c.intended rect rect) ∧
      s.sentAt? n = some (c.intended monitor.rect rect) := by
  obtain ⟨node, hnode, hclient⟩ := Option.bind_eq_some_iff.1 hc
  obtain ⟨r, monitor, d, -, hlocate, hmonitor, hd, -, -, -, hrests⟩ :=
    rests_of_settled h.sound h.settled hnode
  refine ⟨r, monitor, d, node.rect, hlocate, hmonitor, hd, hrests.placed,
    Model.visibleRect?_eq_intended hnode hclient, ?_⟩
  rw [sentAt?, Tree.window?, hc, Option.map_some, Option.bind_some, hrests.sent c hc]

/-- A window is seen where it was last sent to exactly if it does not fill the screen from a
smaller place in the tree.  Where this holds of all windows of a desktop, the neighbours on it
are those by where the windows were sent to. -/
theorem visibleRect?_eq_sentAt?_iff (h : s.Reachable) (hc : s.model.tree.client? n = some c) :
    ∃ r monitor d rect, s.model.locate? n = some r ∧ s.model.monitor? r = some monitor ∧
      s.model.desktop? r = some d ∧ s.model.tree.rect? n = some rect ∧
      s.model.visibleRect? n = some (c.intended rect rect) ∧
      s.sentAt? n = some (c.intended monitor.rect rect) ∧
      (s.model.visibleRect? n = s.sentAt? n ↔ (c.state = .fullscreen → rect = monitor.rect)) ∧
      ((∀ n' ∈ s.model.tree.leaves d.root, ∀ c', s.model.tree.client? n' = some c' →
          c'.state = .fullscreen → s.model.tree.rect? n' = some monitor.rect) →
        ∀ dir tightness,
          s.model.neighbour? n dir tightness = s.model.neighbourBy s.sentAt? n dir tightness) := by
  obtain ⟨r, monitor, d, rect, hlocate, hmonitor, hd, hrect, hvisible, hsent⟩ := seen_and_sent h hc
  refine ⟨r, monitor, d, rect, hlocate, hmonitor, hd, hrect, hvisible, hsent, ?_, ?_⟩
  · rw [hvisible, hsent, Option.some_inj, Client.intended_eq_iff]
  intro hfull dir tightness
  have hn : n ∈ s.model.tree.leaves d.root :=
    (Model.mem_leaves_iff h.sound hd).2 ⟨by rw [hc, Option.isSome_some], hlocate⟩
  rw [← Model.neighbourBy_visible]
  refine Model.neighbourBy_congr hlocate hd hn (fun n' hn' => ?_) dir tightness
  obtain ⟨hclient, hlocate'⟩ := (Model.mem_leaves_iff h.sound hd).1 hn'
  obtain ⟨c', hc'⟩ := Option.isSome_iff_exists.1 hclient
  obtain ⟨r', monitor', _, rect', hr', hmonitor', -, hrect', hvisible', hsent'⟩ :=
    seen_and_sent h hc'
  obtain rfl := Option.some.inj (hr'.symm.trans hlocate')
  obtain rfl := Option.some.inj (hmonitor'.symm.trans hmonitor)
  rw [hvisible', hsent', Option.some_inj, Client.intended_eq_iff]
  intro hstate
  exact Option.some.inj (hrect'.symm.trans (hfull n' hn' c' hc' hstate))

/-- Two windows of which the first one fills the screen. -/
def oneFull : Stage :=
  (fresh [("screen0", ⟨0, 0, 1920, 1080⟩)] ["I", "II"] .standard (.counting 16777217 1 1)).run
    [.manage 1 .unknown .standard, .manage 2 .unknown .standard,
      .setState (.window 1) .fullscreen]

/-- The tiled window is seen where it is. -/
theorem visibleRect?_eq_sentAt?_oneFull :
    oneFull.model.visibleRect? ⟨1⟩ = oneFull.sentAt? ⟨1⟩ := by
  have hreachable : oneFull.Reachable := ⟨_, _, _, _, [], _, rfl⟩
  obtain ⟨c, hc, hstate⟩ := Option.map_eq_some_iff.1
    (show (oneFull.model.tree.client? ⟨1⟩).map Client.state = some .tiled by decide +kernel)
  obtain ⟨_, _, _, _, -, -, -, -, -, -, hiff, -⟩ := visibleRect?_eq_sentAt?_iff hreachable hc
  exact hiff.2 fun hfull => ClientState.noConfusion (hstate.symm.trans hfull)

/-- The first one is not, and has a neighbour inside the place it was sent to. -/
theorem not_visible_sent :
    oneFull.model.visibleRect? ⟨0⟩ = some ⟨0, 0, 960, 1080⟩ ∧
      oneFull.sentAt? ⟨0⟩ = some ⟨0, 0, 1920, 1080⟩ ∧
      oneFull.model.neighbour? ⟨0⟩ .east .high = some ⟨1⟩ ∧
      oneFull.model.neighbourBy oneFull.sentAt? ⟨0⟩ .east .high = none := by
  decide +kernel

end Stage

end Tiling
