import Tiling.Proofs.Model.Intact
import Tiling.Proofs.Model.Turnover
/-!
# The published report

An operation that changes anything that the report shows publishes the report at its end.  The
others are unseen: they neither publish a report nor change what one would show.
-/

namespace Tiling

/-- What the report shows of a node. -/
def Node.face (node : Node) : Flags × Option (ClientState × Bool) :=
  (node.flags, node.client.map fun c => (c.state, c.urgent))

def Tree.face? (t : Tree) (n : NodeId) : Option (Flags × Option (ClientState × Bool)) :=
  (t.get? n).map Node.face

/-- The text of a report. -/
def Effect.report? : Effect → Option String
  | .message m => if m.topics.has .report then some m.text else none
  | .request _ => none

/-! ## What the report shows -/

namespace Model

/-- The tree of a desktop has the same leaves if it has the same links. -/
theorem leaves_congr {m : Model} (hm : m.Sound) {t : Tree}
    (hlinks : ∀ n, t.links? n = m.tree.links? n) {r : DesktopRef} {d : Desktop}
    (hd : m.desktop? r = some d) : t.leaves d.root = m.tree.leaves d.root := by
  obtain ⟨shapes, h⟩ := hm
  obtain ⟨o, ho, howns⟩ := h.owns_of_desktop? hd
  cases o with
  | none =>
    rw [howns.1]
    rfl
  | some shape =>
    have hshape := Shaped.mem_reduceOption.2 ho
    rw [howns.1, h.forest.leaves_eq hshape]
    exact Tree.leaves_top ((h.forest.hasShape hshape).congr fun n _ => hlinks n)
      (h.forest.nodup_of_mem hshape)

section Congr

variable {m m' : Model}

theorem isUrgent_congr (hm : m.Sound) (hlinks : ∀ n, m'.tree.links? n = m.tree.links? n)
    (hface : ∀ n, m'.tree.face? n = m.tree.face? n) {r : DesktopRef} {d : Desktop}
    (hd : m.desktop? r = some d) : m'.isUrgent d = m.isUrgent d := by
  have hview (m : Model) : m.isUrgent d = (m.tree.leaves d.root).any fun n =>
      ((m.tree.face? n).bind Prod.snd).any Prod.snd := by
    rw [isUrgent, clientsOf, List.any_filterMap]
    refine List.any_congr rfl fun n => ?_
    rw [Tree.client?, Tree.face?]
    cases m.tree.get? n with
    | none => rfl
    | some node => cases hclient : node.client <;> simp [Node.face, hclient]
  rw [hview, hview, leaves_congr hm hlinks hd]
  simp only [hface]

theorem activeReport_congr (hface : ∀ n, m'.tree.face? n = m.tree.face? n) (d : Desktop) :
    m'.activeReport d = m.activeReport d := by
  have hview (m : Model) : m.activeReport d =
      ":L" ++ String.singleton d.layout.letter ++ (((d.focus.bind m.tree.face?).map fun face =>
        ":T" ++ String.singleton ((face.2.map (·.1.letter)).getD '@') ++ ":G" ++
          face.1.letters).getD "") := by
    rw [activeReport]
    cases d.focus with
    | none => rfl
    | some n =>
      rw [Option.bind_some, Option.bind_some, Tree.face?]
      cases m.tree.get? n with
      | none => rfl
      | some node => cases hclient : node.client <;> simp [nodeReport, Node.face, hclient]
  rw [hview, hview, funext hface]

/-- Models with the same monitors and trees that look the same have the same report. -/
theorem report_congr (hm : m.Sound) (hmonitors : m'.monitors = m.monitors)
    (hfocused : m'.focusedMonitor = m.focusedMonitor)
    (hlinks : ∀ n, m'.tree.links? n = m.tree.links? n)
    (hface : ∀ n, m'.tree.face? n = m.tree.face? n) (start : String) :
    m'.report start = m.report start := by
  have hmonitor : m.monitors.mapIdx m'.monitorReport = m.monitors.mapIdx m.monitorReport := by
    rw [List.mapIdx_eq_mapIdx_iff]
    intro i hi
    have hdesktops : (m.monitors[i].desktops.mapIdx fun j d => ":" ++ String.singleton
          (m'.occupancyLetter d (m.monitors[i].active == some j)) ++ d.name) =
        m.monitors[i].desktops.mapIdx fun j d => ":" ++ String.singleton
          (m.occupancyLetter d (m.monitors[i].active == some j)) ++ d.name := by
      rw [List.mapIdx_eq_mapIdx_iff]
      intro j hj
      have hd : m.desktop? ⟨i, j⟩ = some m.monitors[i].desktops[j] := by
        rw [desktop?, monitor?, List.getElem?_eq_getElem hi, Option.bind_some,
          List.getElem?_eq_getElem hj]
      rw [occupancyLetter, isUrgent_congr hm hlinks hface hd, occupancyLetter]
    rw [monitorReport, hfocused, hdesktops, funext (activeReport_congr hface), monitorReport]
  rw [report, hmonitors, hmonitor, report]

end Congr

end Model

/-! ## Steps that are not seen -/

theorem Topics.has_report_single {topic : Topic} (h : topic ≠ .report) :
    (Topics.single topic).has .report = false := by
  cases topic <;> first | rfl | exact absurd rfl h

theorem Stack.PlacementEffect.report?_eq {e : Effect} (h : Stack.PlacementEffect e) :
    e.report? = none := by
  cases h with
  | beside => rfl
  | told htopics =>
    rw [Effect.report?, htopics, Topics.has_report_single (by decide)]
    rfl
  | listed => rfl

namespace Stage

/-- The report of the model as it is. -/
def report (s : Stage) : String := s.model.report s.settings.statusPrefix

/-- Strokes of these kinds neither publish the report nor change what it shows. -/
def StrokeKind.isUnseen : StrokeKind → Bool
  | .announce | .configure | .focus | .destroy | .grant | .restack | .raise | .layer | .float
  | .clear | .mark => true
  | _ => false

/-- From `s` to `s'` no report is published, and the report stays the same. -/
structure Unseen (s s' : Stage) : Prop where
  history : ∃ es, s'.history = es ++ s.history ∧ ∀ e ∈ es, e.report? = none
  monitors : s'.model.monitors = s.model.monitors
  focused : s'.model.focusedMonitor = s.model.focusedMonitor
  links : ∀ n, s'.model.tree.links? n = s.model.tree.links? n
  face : ∀ n, s'.model.tree.face? n = s.model.tree.face? n
  settings : s'.settings = s.settings

namespace Unseen

variable {s s' s'' : Stage}

theorem report (h : s.Unseen s') (hs : s.model.Sound) : s'.report = s.report := by
  rw [Stage.report, h.settings, Stage.report]
  exact Model.report_congr hs h.monitors h.focused h.links h.face _

theorem of_tree (hhistory : ∃ es, s'.history = es ++ s.history ∧ ∀ e ∈ es, e.report? = none)
    (hmonitors : s'.model.monitors = s.model.monitors)
    (hfocused : s'.model.focusedMonitor = s.model.focusedMonitor)
    (htree : s'.model.tree = s.model.tree) (hsettings : s'.settings = s.settings) :
    s.Unseen s' where
  history := hhistory
  monitors := hmonitors
  focused := hfocused
  links n := by rw [htree]
  face n := by rw [htree]
  settings := hsettings

theorem refl (s : Stage) : s.Unseen s :=
  of_tree ⟨[], rfl, by simp⟩ rfl rfl rfl rfl

theorem trans (h : s.Unseen s') (h' : s'.Unseen s'') : s.Unseen s'' where
  history := history_trans h.history h'.history
  monitors := h'.monitors.trans h.monitors
  focused := h'.focused.trans h.focused
  links n := (h'.links n).trans (h.links n)
  face n := (h'.face n).trans (h.face n)
  settings := h'.settings.trans h.settings

theorem emit (s : Stage) {es : List Effect} (h : ∀ e ∈ es, e.report? = none) :
    s.Unseen (s.emit es) :=
  of_tree ⟨es.reverse, rfl, fun e he => h e (List.mem_reverse.1 he)⟩ rfl rfl rfl rfl

theorem request (s : Stage) (r : Request) : s.Unseen (s.request r) :=
  emit s fun e he => by
    rw [List.mem_singleton.1 he]
    rfl

/-- A change of a node that the report does not show. -/
theorem modify (s : Stage) (n : NodeId) {f : Node → Node}
    (hlinks : ∀ node, (f node).links = node.links) (hface : ∀ node, (f node).face = node.face) :
    s.Unseen (s.modifyTree fun t => t.modify n f) where
  history := ⟨[], rfl, by simp⟩
  monitors := rfl
  focused := rfl
  links m := Tree.links?_modify _ n m f hlinks
  face m := by
    show (Tree.get? (Tree.modify _ n f) m).map Node.face = (Tree.get? _ m).map Node.face
    rw [Tree.get?_modify]
    split
    · rename_i heq
      rw [Option.map_map, heq]
      exact congrArg (Option.map · _) (funext hface)
    · rfl
  settings := rfl

theorem modifyClient (s : Stage) (n : NodeId) {f : Client → Client}
    (hf : ∀ c, (f c).state = c.state ∧ (f c).urgent = c.urgent) :
    s.Unseen (s.modifyTree fun t => t.modifyClient n f) := by
  refine modify s n (fun _ => rfl) fun node => ?_
  rw [Node.face, Node.face, Option.map_map]
  refine congrArg (fun g => (node.flags, node.client.map g)) (funext fun c => ?_)
  rw [Function.comp_apply, (hf c).1, (hf c).2]

theorem restack (s : Stage) (n : NodeId) (promote : Bool) : s.Unseen (s.restack n promote) :=
  of_tree ⟨_, rfl, fun _ he => (Stack.mem_restack (List.mem_reverse.1 he)).report?_eq⟩
    rfl rfl rfl rfl

theorem of_stroke {k : StrokeKind} (hk : k.isUnseen = true) (h : s.Stroke k s') :
    s.Unseen s' := by
  cases h with
  | announce hreport =>
    refine emit s fun e he => ?_
    rw [List.mem_singleton.1 he, Effect.report?, Topics.has_report_single hreport]
    rfl
  | configure | focus | destroy => exact request s _
  | grant =>
    exact of_tree ⟨[_], rfl, fun e he => by rw [List.mem_singleton.1 he]; rfl⟩ rfl rfl rfl rfl
  | restack n promote => exact restack s n promote
  | raise => exact emit s fun _ he => (Stack.mem_raiseFeedback he).report?_eq
  | layer n | float n => exact modifyClient s n fun _ => ⟨rfl, rfl⟩
  | clear n | mark n => exact modify s n (fun _ => rfl) fun _ => rfl
  | _ => cases hk

theorem of_path {kinds : List StrokeKind} (h : s.Path kinds s')
    (hkinds : kinds.all StrokeKind.isUnseen = true) : s.Unseen s' :=
  h.frame hkinds refl trans of_stroke

end Unseen

/-! ## Steps that are told -/

/-- The report is published last, or there is nothing to publish. -/
def Tells (s s' : Stage) : Prop := (∃ u : Stage, s' = u.publishReport) ∨ s.Unseen s'

section Operations

variable {s : Stage} {n : NodeId}

theorem tells_focusNode (hs : s.model.Sound) (hn : (s.model.tree.client? n).isSome) :
    ∃ u : Stage, s.focusNode (some n) = u.publishReport := by
  obtain ⟨r, -, hlocate, -⟩ := locate_client hs hn
  obtain ⟨words, hfocus⟩ := focusNode_eq hlocate
  exact ⟨_, hfocus⟩

theorem tells_manage (hs : s.model.Sound) (w : Window) (named : WindowClass) (csq : Consequences) :
    s.Tells (s.manage w named csq).1 := by
  rcases manage_cases hs w named csq with ⟨-, hmanage⟩ | ⟨-, -, hmanage⟩ |
    ⟨r, d, n, x, y, -, -, htakes, hy, hmanage⟩
  · rw [hmanage]
    exact .inr (Unseen.refl s)
  · rw [hmanage]
    exact .inr (Unseen.request s _)
  · rw [hmanage]
    left
    split
    · obtain ⟨hsound, htree, -⟩ := htakes.placed hy
      refine tells_focusNode hsound ?_
      rw [htree, ← Model.isSome_window?, htakes.window, Option.isSome_some]
    · exact ⟨y, rfl⟩

theorem tells_unmanage (hs : s.model.Sound) (w : Window) : s.Tells (s.unmanage w).1 := by
  rcases unmanage_cases hs w with hunmanage | ⟨r, d, n, v, hdrops, hunmanage⟩
  · rw [hunmanage]
    exact .inr (Unseen.refl s)
  · rw [hunmanage]
    left
    split
    · cases hfocus : v.model.focus? r with
      | none => exact ⟨_, rfl⟩
      | some f =>
        exact tells_focusNode hdrops.sound (Model.isSome_client?_of_focus hdrops.sound hfocus)
    · exact ⟨v, rfl⟩

theorem tells_setState (hs : s.model.Sound) {client : Client}
    (hclient : s.model.tree.client? n = some client) (state : ClientState) :
    s.Tells (s.setState n state) := by
  obtain ⟨node, hnode, hnodeclient⟩ := Option.bind_eq_some_iff.1 hclient
  by_cases hsame : client.state = state
  · simp only [setState, hnode, hnodeclient, hsame, if_true]
    exact .inr (Unseen.refl s)
  obtain ⟨u, hu⟩ : ∃ u, u = s.modifyTree fun t => t.modifyClient n (changeState node.rect state) :=
    ⟨_, rfl⟩
  obtain ⟨r, -, hr, -⟩ := locate_client hs (by rw [hclient, Option.isSome_some])
  obtain ⟨-, hlocate, -⟩ := modifyClient_spec hs hclient hu fun _ => rfl
  rw [hr] at hlocate
  simp only [setState, hnode, hnodeclient, if_neg hsame, ← hu, hlocate]
  exact .inl ⟨_, rfl⟩

theorem tells_setFlag (hs : s.model.Sound) {client : Client}
    (hclient : s.model.tree.client? n = some client) (flag : Flag) (value : Bool) :
    s.Tells (s.setFlag n flag value) := by
  obtain ⟨node, hnode, -⟩ := Option.bind_eq_some_iff.1 hclient
  by_cases hsame : node.flags.get flag = value
  · simp only [setFlag, hnode, hsame, if_true]
    exact .inr (Unseen.refl s)
  obtain ⟨u, hu⟩ : ∃ u, u = s.modifyTree fun t =>
      t.modify n fun node => { node with flags := node.flags.set flag value } := ⟨_, rfl⟩
  have hkeeps : s.Keeps u := by
    rw [hu]
    exact Keeps.modifyTree s n (fun shapes h => h.modify n _ (fun _ => rfl) (fun _ => rfl)
      fun _ _ _ => rfl) fun _ => rfl
  -- the leaf is still on a desktop, so there is something to announce
  obtain ⟨r, -, hr, -⟩ := locate_client (hkeeps.stays hs).sound (n := n)
    (by rw [Tree.isSome_client?_of_standing (hkeeps.standing n), hclient, Option.isSome_some])
  simp only [setFlag, hnode, if_neg hsame, ← hu, hr]
  exact .inl ⟨_, rfl⟩

theorem tells_setUrgency (s : Stage) (w : Window) (urgent : Bool) :
    s.Tells (s.setUrgency w urgent) := by
  unfold setUrgency
  split
  · exact .inr (Unseen.refl s)
  split
  · exact .inr (Unseen.refl s)
  split
  · exact .inr (Unseen.refl s)
  · exact .inl ⟨_, rfl⟩

theorem tells_setLayout (s : Stage) (r : DesktopRef) (layout : Layout) :
    s.Tells (s.setLayout r layout) := by
  unfold setLayout
  split
  · exact .inr (Unseen.refl s)
  split
  · exact .inr (Unseen.refl s)
  · exact .inl ⟨_, rfl⟩

theorem tells_onTarget (hs : s.model.Sound) {target : Target} {f : NodeId → Stage}
    (hf : ∀ n client, s.model.tree.client? n = some client → s.Tells (f n)) :
    s.Tells (s.onTarget target f) := by
  unfold onTarget
  cases hn : target.node? s.model with
  | none => exact .inr (Unseen.refl s)
  | some n =>
    obtain ⟨client, hclient⟩ := Option.isSome_iff_exists.1 (target.isSome_client? hs hn)
    exact hf n client hclient

/-- Every operation but a change of the settings publishes the report last if there is anything
new in it. -/
theorem tells_perform (hs : s.model.Sound) {op : Operation} (hop : ∀ new, op ≠ .settings new) :
    s.Tells (s.perform op) := by
  cases op with
  | manage w named csq => exact tells_manage hs w named csq
  | unmanage w => exact tells_unmanage hs w
  | focus target =>
    exact tells_onTarget hs fun n client hclient =>
      .inl (tells_focusNode hs (by rw [hclient, Option.isSome_some]))
  | clearFocus => exact .inl ⟨_, rfl⟩
  | setState target state =>
    exact tells_onTarget hs fun n client hclient => tells_setState hs hclient state
  | setFlag target flag value =>
    exact tells_onTarget hs fun n client hclient => tells_setFlag hs hclient flag value
  | setUrgency w urgent => exact tells_setUrgency s w urgent
  | focusDesktop r => exact .inl ⟨_, rfl⟩
  | setLayout r layout => exact tells_setLayout s r layout
  | setLayer | presel | configure => exact .inr (Unseen.of_path (path_perform s rfl) rfl)
  | settings new => exact absurd rfl (hop new)

end Operations

/-! ## The last report -/

def lastReport? (s : Stage) : Option String := s.history.findSome? Effect.report?

variable {s s' : Stage}

theorem lastReport?_publishReport (u : Stage) :
    u.publishReport.lastReport? = some u.publishReport.report := by
  show (Effect.message ⟨.single .report, u.report⟩ :: u.history).findSome? Effect.report? = _
  have hhas : (Topics.single .report).has .report = true := by decide
  have hreport : Effect.report? (.message ⟨.single .report, u.report⟩) = some u.report :=
    if_pos hhas
  rw [List.findSome?_cons, hreport]
  rfl

theorem Unseen.lastReport? (h : s.Unseen s') : s'.lastReport? = s.lastReport? := by
  obtain ⟨es, hes, hnone⟩ := h.history
  rw [Stage.lastReport?, hes, List.findSome?_append, List.findSome?_eq_none_iff.2 hnone,
    Option.none_or, Stage.lastReport?]

/-- The last report, or else the one at first, stays up to date. -/
theorem Tells.reported (h : s.Tells s') (hs : s.model.Sound) {first : String}
    (hreported : s.lastReport?.getD first = s.report) : s'.lastReport?.getD first = s'.report := by
  rcases h with ⟨u, rfl⟩ | hunseen
  · rw [lastReport?_publishReport, Option.getD_some]
  · rw [hunseen.lastReport?, hunseen.report hs, hreported]

end Stage

end Tiling
