import Mathlib.Logic.Relation
import Tiling.Proofs.Model.Edits
/-!
# Steps of an operation

Every operation is a chain of steps of five kinds, each from a sound model: something quiet, the
placement of a leaf in the stack, an edit of a desktop with its new layout, the removal of a leaf
with all that follows it, and the answer to a window that asks for a geometry.
-/

namespace Tiling

/-- The windows that an operation may take in. -/
def Operation.taken : Operation → List Window
  | .manage w _ _ => [w]
  | _ => []

namespace Stage

/-- A step of an operation that takes in windows. -/
inductive Step (taken : List Window) : Stage → Stage → Prop where
  | quiet {s s' : Stage} (h : s.Quiet s') : Step taken s s'
  | restack {s : Stage} {n : NodeId} (hn : (s.model.tree.client? n).isSome) (promote : Bool) :
      Step taken s (s.restack n promote)
  | edit {s u : Stage} {r : DesktopRef} (h : s.Edits u r taken)
      (hstack : u.model.stack = s.model.stack) : Step taken s (u.applyLayout r)
  | remove {s u : Stage} {r : DesktopRef} {n : NodeId} (h : s.Edits u r taken)
      (hparts : s.Parts u n) : Step taken s ((u.applyLayout r).request
        (.clientList ((u.applyLayout r).model.stack.windows (u.applyLayout r).model.tree)))
  | configure (s : Stage) (w : Window) (rect : Rect) : Step taken s (s.configure w rect)

theorem Step.mono {taken taken' : List Window} {s s' : Stage} (h : Step taken s s')
    (ht : ∀ w ∈ taken, w ∈ taken') : Step taken' s s' := by
  cases h with
  | quiet h => exact .quiet h
  | restack hn promote => exact .restack hn promote
  | edit h hstack => exact .edit (h.mono ht) hstack
  | remove h hparts => exact .remove (h.mono ht) hparts
  | configure w rect => exact .configure s w rect

/-- A chain of steps, each from a sound model. -/
def Steps (taken : List Window) : Stage → Stage → Prop :=
  Relation.ReflTransGen fun s s' => s.model.Sound ∧ Step taken s s'

namespace Steps

variable {s s' : Stage} {taken : List Window}

theorem refl (s : Stage) : Steps taken s s := Relation.ReflTransGen.refl

theorem trans {s'' : Stage} (h : Steps taken s s') (h' : Steps taken s' s'') :
    Steps taken s s'' :=
  Relation.ReflTransGen.trans h h'

theorem one (hs : s.model.Sound) (h : Step taken s s') : Steps taken s s' :=
  Relation.ReflTransGen.single ⟨hs, h⟩

instance : Trans (Steps taken) (Steps taken) (Steps taken) := ⟨Relation.ReflTransGen.trans⟩

theorem mono {taken' : List Window} (h : Steps taken s s') (ht : ∀ w ∈ taken, w ∈ taken') :
    Steps taken' s s' := by
  induction h with
  | refl => exact refl s
  | tail _ hstep ih => exact ih.tail ⟨hstep.1, hstep.2.mono ht⟩

theorem quiet (hs : s.model.Sound) (h : s.Quiet s') : Steps taken s s' := one hs (.quiet h)

/-! ## Operations -/

theorem publishReport (hs : s.model.Sound) : Steps taken s s.publishReport :=
  quiet hs (Quiet.publishReport s)

theorem quiet_choose (s : Stage) (r : DesktopRef) (n : NodeId) : s.Quiet (s.choose r n) :=
  Quiet.of_path (path_choose s r n) rfl

theorem focusNode (hs : s.model.Sound) {n : NodeId} (hn : (s.model.tree.client? n).isSome) :
    Steps taken s (s.focusNode (some n)) := by
  obtain ⟨r, d, hlocate, hd⟩ := locate_client hs hn
  obtain ⟨words, heq⟩ := focusNode_eq hlocate
  obtain ⟨shapes, h⟩ := id hs
  obtain ⟨hchosen, -, -, hstanding⟩ := choose_spec h hn hlocate
  have hlive : ((s.choose r n).model.tree.client? n).isSome := by
    rwa [Tree.isSome_client?_of_standing (hstanding n)]
  have hrestacked := sound_restack ⟨shapes, hchosen⟩ hlive true
  rw [heq]
  calc Steps taken s (s.choose r n) := quiet hs (quiet_choose s r n)
    Steps taken _ ((s.choose r n).restack n true) := one ⟨shapes, hchosen⟩ (.restack hlive true)
    Steps taken _ _ := quiet hrestacked
      ((Quiet.announceAt _ (by decide) r words).trans (Quiet.publishReport _))

theorem manage (hs : s.model.Sound) (w : Window) (named : WindowClass) (csq : Consequences) :
    Steps [w] s (s.manage w named csq).1 := by
  unfold Stage.manage
  split
  · exact refl s
  rename_i hnew
  split
  · exact quiet hs (Quiet.emit_one s (.map w))
  rename_i r hr
  split
  · rename_i monitor d hmonitor hd
    have hnone : ∀ n, s.model.tree.window? n ≠ some w :=
      Tree.findWindow?_eq_none_iff.1 (by simpa using hnew)
    obtain ⟨u, v, n, hinsert, hu, hquiet, hedits, hstack, hn⟩ :=
      edits_insertClient hs hd (newClient w named csq monitor.rect) csq hnone
    rw [hinsert]
    dsimp only
    generalize [Numeral.hex8 ((d.focus.bind v.model.tree.window?).getD 0), Numeral.hex8 w] = words
    have hedits : u.Edits ((v.announceAt .nodeAdd r words).request (.watch w)) r [w] :=
      (hedits.announceAt .nodeAdd (by decide) r words).emit fun e he => by
        rw [List.mem_singleton.1 he]
        exact .watch w
    generalize hwatched : (v.announceAt .nodeAdd r words).request (.watch w) = x at *
    have hkeeps := Keeps.applyLayout x r
    have hlaid : Steps [w] s (x.applyLayout r) :=
      calc Steps [w] s u := quiet hs hquiet
        Steps [w] _ _ := one hu (.edit hedits (hwatched ▸ hstack))
    have hlive : ((x.applyLayout r).model.tree.client? n).isSome := by
      rw [Tree.isSome_client?_of_standing (hkeeps.standing n), ← hwatched]
      exact hn
    have hsound := (hkeeps.stays hedits.sound).sound
    generalize x.applyLayout r = x at *
    -- mapped or not, the window is placed in the stack and may get the focus
    have hrest (y : Stage) (hy : Steps [w] s y) (hysound : y.model.Sound)
        (hylive : (y.model.tree.client? n).isSome) (focus : Bool) :
        Steps [w] s (if focus then (y.restack n true).focusNode (some n)
          else (y.restack n true).publishReport) := by
      have hplaced := sound_restack hysound hylive true
      calc Steps [w] s y := hy
        Steps [w] _ (y.restack n true) := one hysound (.restack hylive true)
        Steps [w] _ _ := by
          cases focus with
          | false => exact publishReport hplaced
          | true => exact focusNode hplaced hylive
    split
    · exact hrest _ (hlaid.trans (quiet hsound (Quiet.emit_one x (.map w)))) hsound hlive _
    · exact hrest x hlaid hsound hlive _
  · exact refl s

/-- A leaf that is gone leaves the focus to the one that its desktop has chosen. -/
theorem removeClient (hs : s.model.Sound) {n : NodeId} (hn : (s.model.tree.client? n).isSome)
    {r : DesktopRef} {d : Desktop} (hlocate : s.model.locate? n = some r)
    (hd : s.model.desktop? r = some d) {u v : Stage} (hu : u = (s.removeClient r d n).applyLayout r)
    (hv : v = u.request (.clientList (u.model.stack.windows u.model.tree))) :
    Steps taken s (if d.focus = some n ∧ v.model.focusedDesktop? = some r then
      (v.focusNode (v.model.focus? r), true) else (v.publishReport, true)).1 := by
  have hparts := parts_removeClient hs hn hlocate hd
  have hedits : s.Edits _ r taken := (edits_removeClient hs hn hlocate hd).mono (by simp)
  have hsound : v.model.Sound := by
    rw [hv, hu]
    exact ((Keeps.applyLayout (s.removeClient r d n) r).stays hparts.sound).sound
  have hgone : Steps taken s v := by
    rw [hv, hu]
    exact one hs (.remove hedits hparts)
  split
  · cases hfocus : v.model.focus? r with
    | none =>
      calc Steps taken s v := hgone
        Steps taken _ _ :=
          quiet hsound ((Quiet.emit_one v (.focus none)).trans (Quiet.publishReport _))
    | some f =>
      calc Steps taken s v := hgone
        Steps taken _ _ := focusNode hsound (Model.isSome_client?_of_focus hsound hfocus)
  · exact hgone.trans (publishReport hsound)

theorem unmanage (hs : s.model.Sound) (w : Window) : Steps taken s (s.unmanage w).1 := by
  unfold Stage.unmanage
  split
  · exact refl s
  rename_i n hn
  have hlive : (s.model.tree.client? n).isSome := by
    rw [← Model.isSome_window?, Tree.window?_of_findWindow hn, Option.isSome_some]
  obtain ⟨r, d, hlocate, hd⟩ := locate_client hs hlive
  simp only [hlocate]
  have hannounced : s.Quiet (s.announceAt .nodeRemove r [Numeral.hex8 w]) :=
    Quiet.announceAt s (by decide) r _
  have hmodel : (s.announceAt .nodeRemove r [Numeral.hex8 w]).model = s.model := rfl
  generalize s.announceAt .nodeRemove r [Numeral.hex8 w] = u at *
  rw [← hmodel] at hlive hlocate hd
  -- the window of a preselection goes first, which leaves the model alone
  have hrest (v : Stage) (hv : s.Quiet v) (hvmodel : v.model = u.model) :=
    (quiet hs hv : Steps taken s v).trans (removeClient (s := v) (by rwa [hvmodel, hmodel])
      (hvmodel ▸ hlive) (hvmodel ▸ hlocate) (hvmodel ▸ hd) rfl rfl)
  cases hfeedback : (u.model.tree.get? n).bind Node.feedback? with
  | none =>
    simp only [hd]
    exact hrest u hannounced rfl
  | some feedback =>
    have hdesktop : (u.request (.destroy feedback)).model.desktop? r = some d := hd
    simp only [hdesktop]
    exact hrest _ (hannounced.trans (Quiet.emit_one u (.destroy (.inl ⟨n, hfeedback⟩)))) rfl

theorem setState (hs : s.model.Sound) {n : NodeId} {client : Client}
    (hclient : s.model.tree.client? n = some client) (state : ClientState) :
    Steps taken s (s.setState n state) := by
  obtain ⟨node, hnode, hnodeclient⟩ := Option.bind_eq_some_iff.1 hclient
  have hn : (s.model.tree.client? n).isSome := by rw [hclient, Option.isSome_some]
  by_cases hsame : client.state = state
  · simp only [Stage.setState, hnode, hnodeclient, hsame, if_true]
    exact refl s
  obtain ⟨u, hu⟩ : ∃ u, u = s.modifyTree fun t => t.modifyClient n (changeState node.rect state) :=
    ⟨_, rfl⟩
  obtain ⟨r, d, hr, -⟩ := locate_client hs hn
  obtain ⟨-, hlocate, hlive⟩ := modifyClient_spec hs hclient hu fun _ => rfl
  have hedits : s.Edits u r taken := by
    rw [hu]
    exact (edits_modifyClient hs hn hr (by intro c; rfl)).mono (by simp)
  have hstack : u.model.stack = s.model.stack := by rw [hu]; rfl
  rw [hr] at hlocate
  simp only [Stage.setState, hnode, hnodeclient, if_neg hsame, ← hu, hlocate]
  generalize Numeral.hex8 client.window = word
  have hold := hedits.announceAt .nodeState (by decide) r
    [word, client.state.word, onOff false]
  have hnew := hold.announceAt .nodeState (by decide) r [word, state.word, onOff true]
  have hkeeps := (Keeps.emit u _).trans ((Keeps.emit _ _).trans (Keeps.applyLayout
    ((u.announceAt .nodeState r [word, client.state.word, onOff false]).announceAt .nodeState r
      [word, state.word, onOff true]) r))
  have hsound := (hkeeps.stays hedits.sound).sound
  rw [← Tree.isSome_client?_of_standing (hkeeps.standing n)] at hlive
  calc Steps taken s _ := one hs (.edit hnew hstack)
    Steps taken _ _ := one hsound (.restack hlive _)
    Steps taken _ _ := publishReport (sound_restack hsound hlive _)

theorem setLayer (hs : s.model.Sound) {n : NodeId} {client : Client}
    (hclient : s.model.tree.client? n = some client) (layer : Layer) :
    Steps taken s (s.setLayer n layer) := by
  by_cases hsame : client.layer = layer
  · simp only [Stage.setLayer, hclient, hsame, if_true]
    exact refl s
  obtain ⟨u, hu⟩ : ∃ u, u = s.modifyTree fun t => t.modifyClient n fun c =>
    { c with layer := layer } := ⟨_, rfl⟩
  obtain ⟨r, d, hr, -⟩ := locate_client hs (by rw [hclient, Option.isSome_some])
  obtain ⟨hsound, hlocate, hlive⟩ := modifyClient_spec hs hclient hu fun _ => rfl
  have hquiet : s.Quiet u := hu ▸ Quiet.modifyClient s n fun _ => rfl
  rw [hr] at hlocate
  simp only [Stage.setLayer, hclient, if_neg hsame, ← hu, hlocate]
  have hannounced : s.Quiet
      (u.announceAt .nodeLayer r [Numeral.hex8 client.window, layer.word]) :=
    hquiet.trans (Quiet.announceAt u (by decide) r _)
  calc Steps taken s _ := quiet hs hannounced
    Steps taken _ _ := one hsound (.restack (s := u.announceAt .nodeLayer r _) hlive _)

theorem setLayout (hs : s.model.Sound) (r : DesktopRef) (layout : Layout) :
    Steps taken s (s.setLayout r layout) := by
  unfold Stage.setLayout
  split
  · exact refl s
  rename_i d hd
  split
  · exact refl s
  have hedits := (edits_withLayout hs hd layout).announceAt .desktopLayout (by decide) r
    [layout.word]
  calc Steps taken s _ := one hs (.edit (hedits.mono (by simp)) rfl)
    Steps taken _ _ := publishReport ((Keeps.applyLayout _ r).stays hedits.sound).sound

end Steps

/-! ## Runs -/

theorem steps_onTarget {s : Stage} (hs : s.model.Sound) {taken : List Window} {target : Target}
    {f : NodeId → Stage}
    (hf : ∀ n client, s.model.tree.client? n = some client → Steps taken s (f n)) :
    Steps taken s (s.onTarget target f) := by
  unfold onTarget
  cases hn : target.node? s.model with
  | none => exact Steps.refl s
  | some n =>
    obtain ⟨client, hclient⟩ := Option.isSome_iff_exists.1 (target.isSome_client? hs hn)
    exact hf n client hclient

theorem steps_perform {s : Stage} (hs : s.model.Sound) (op : Operation) :
    Steps op.taken s (s.perform op) := by
  have hquiet (hkeeps : op.keepsWindows = true)
      (hkinds : op.strokes.all StrokeKind.isQuiet = true) : Steps op.taken s (s.perform op) :=
    Steps.quiet hs (Quiet.of_path (path_perform s hkeeps) hkinds)
  cases op with
  | manage w named csq => exact Steps.manage hs w named csq
  | unmanage w => exact Steps.unmanage hs w
  | focus target =>
    exact steps_onTarget hs fun n client hclient =>
      Steps.focusNode hs (by rw [hclient, Option.isSome_some])
  | setState target state =>
    exact steps_onTarget hs fun n _ hclient => Steps.setState hs hclient state
  | setLayer target layer =>
    exact steps_onTarget hs fun n _ hclient => Steps.setLayer hs hclient layer
  | configure w rect => exact Steps.one hs (.configure s w rect)
  | setLayout r layout => exact Steps.setLayout hs r layout
  | clearFocus | setFlag | presel | setUrgency | focusDesktop | settings => exact hquiet rfl rfl

theorem steps_run {s : Stage} (hs : s.model.Sound) (ops : List Operation) :
    Steps (ops.flatMap Operation.taken) s (s.run ops) := by
  induction ops generalizing s with
  | nil => exact Steps.refl s
  | cons op ops ih =>
    have hfirst : Steps ((op :: ops).flatMap Operation.taken) s (s.perform op) := by
      apply (steps_perform hs op).mono
      intro w hw
      rw [List.flatMap_cons]
      exact List.mem_append_left _ hw
    have hrest :
        Steps ((op :: ops).flatMap Operation.taken) (s.perform op) (s.run (op :: ops)) := by
      apply (ih (perform_spec hs op).1).mono
      intro w hw
      rw [List.flatMap_cons]
      exact List.mem_append_right _ hw
    exact hfirst.trans hrest

/-! ## Monitors -/

theorem monitors_applyLayout (s : Stage) (r : DesktopRef) :
    (s.applyLayout r).model.monitors = s.model.monitors ∧
      (s.applyLayout r).model.focusedMonitor = s.model.focusedMonitor := by
  unfold applyLayout
  split <;> exact ⟨rfl, rfl⟩

/-- Monitors stay where they are; without one, none has the focus. -/
theorem Step.monitors {taken : List Window} {s s' : Stage} (h : Step taken s s') :
    s'.model.areas = s.model.areas ∧
      (s.model.monitors = [] → s'.model.focusedMonitor = s.model.focusedMonitor) := by
  have hlaid {u : Stage} {r : DesktopRef} (h : s.Edits u r taken) :
      (u.applyLayout r).model.areas = s.model.areas ∧
        (u.applyLayout r).model.focusedMonitor = s.model.focusedMonitor := by
    obtain ⟨hmonitors, hfocused⟩ := monitors_applyLayout u r
    rw [Model.areas, hmonitors, ← Model.areas, hfocused]
    exact ⟨h.areas, h.focused⟩
  cases h with
  | quiet h =>
    refine ⟨by rw [Model.areas_eq, h.plan, Model.areas_eq], fun hnil => ?_⟩
    rcases h.focused with heq | hlt
    · exact heq
    · rw [Model.plan, hnil] at hlt
      exact absurd hlt (Nat.not_lt_zero _)
  | restack hn promote => exact ⟨rfl, fun _ => rfl⟩
  | edit h hstack => exact ⟨(hlaid h).1, fun _ => (hlaid h).2⟩
  | remove h hparts => exact ⟨(hlaid h).1, fun _ => (hlaid h).2⟩
  | configure w rect =>
    unfold Stage.configure
    split
    · exact ⟨rfl, fun _ => rfl⟩
    split
    · exact ⟨rfl, fun _ => rfl⟩
    split <;> exact ⟨rfl, fun _ => rfl⟩

theorem Steps.monitors {taken : List Window} {s s' : Stage} (h : Steps taken s s') :
    s'.model.areas = s.model.areas ∧
      (s.model.monitors = [] → s'.model.focusedMonitor = s.model.focusedMonitor) := by
  induction h with
  | refl => exact ⟨rfl, fun _ => rfl⟩
  | @tail u v _ hstep ih =>
    obtain ⟨hareas, hfocused⟩ := hstep.2.monitors
    refine ⟨hareas.trans ih.1, fun hnil => ?_⟩
    have hunil : u.model.monitors = [] := by
      have hmap := ih.1
      rw [Model.areas, Model.areas, hnil, List.map_nil] at hmap
      exact List.map_eq_nil_iff.1 hmap
    rw [hfocused hunil, ih.2 hnil]

/-- In a run the focused monitor stays one of the monitors, or the first of none. -/
theorem focusedMonitor_run {s : Stage} (hs : s.model.Sound)
    (hfocused : s.model.focusedMonitor ≤ s.model.monitors.length - 1) (ops : List Operation) :
    (s.run ops).model.focusedMonitor ≤ (s.run ops).model.monitors.length - 1 := by
  obtain ⟨shapes, h⟩ := sound_run hs ops
  obtain ⟨hareas, hsame⟩ := (steps_run hs ops).monitors
  have hlength := congrArg List.length hareas
  rw [Model.areas, Model.areas, List.length_map, List.length_map] at hlength
  rcases h.focused with hnil | hlt
  · have hnone : s.model.monitors = [] := by
      rw [hnil] at hlength
      exact List.length_eq_zero_iff.1 hlength.symm
    rw [hsame hnone, hlength]
    exact hfocused
  · omega

end Stage

end Tiling
