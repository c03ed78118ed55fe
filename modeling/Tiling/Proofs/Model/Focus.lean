import Tiling.Proofs.Model.Admission
/-!
# The input focus

Giving a node the focus shows its desktop, gives the monitor of that desktop the focus, and makes
the node the one that has the input focus.
-/

namespace Tiling

open Tiling.Tree (Shape)

namespace Stage

theorem focusedDesktop?_showDesktop {s : Stage} {r : DesktopRef} {monitor : Monitor}
    (h : s.model.monitor? r = some monitor) :
    (s.showDesktop r).model.focusedDesktop? = some r := by
  unfold showDesktop
  rw [h]
  dsimp only
  obtain ⟨u, hu⟩ : ∃ u, u = if monitor.active = some r.desktop then s
    else s.switchTo r monitor.active := ⟨_, rfl⟩
  have hactive : u.model.monitors[r.monitor]?.bind Monitor.active = some r.desktop := by
    by_cases hshown : monitor.active = some r.desktop
    · rw [hu, if_pos hshown]
      exact (congrArg (Option.bind · Monitor.active) h).trans hshown
    · rw [hu, if_neg hshown, model_switchTo]
      have hget : (s.model.activate r).monitors[r.monitor]? =
          some { monitor with active := some r.desktop } := by
        simp only [Model.activate, List.getElem?_modify_eq]
        exact congrArg (Option.map _) h
      rw [hget, Option.bind_some]
  rw [← hu, announceAt, announce, model_emit, Model.focusedDesktop?]
  by_cases hfocused : u.model.focusedMonitor = r.monitor
  · rw [if_pos hfocused, hfocused, hactive, Option.map_some]
  · rw [if_neg hfocused, announce, model_emit, model_withModel]
    simp only [hactive, Option.map_some]

theorem focusedDesktop?_modifyDesktop (m : Model) (r : DesktopRef) (f : Desktop → Desktop) :
    (m.modifyDesktop r f).focusedDesktop? = m.focusedDesktop? := by
  simp only [Model.focusedDesktop?, Model.modifyDesktop, List.getElem?_modify]
  cases m.monitors[m.focusedMonitor]? with
  | none => rfl
  | some monitor =>
    simp only [Option.map_eq_map, Option.map_some, Option.bind_some]
    split <;> rfl

/-- A node that is given the focus has it. -/
theorem focusedNode?_focusNode {s : Stage} {n : NodeId} {r : DesktopRef} {d : Desktop}
    (hlocate : s.model.locate? n = some r) (hd : s.model.desktop? r = some d) :
    (s.focusNode (some n)).model.focusedNode? = some n := by
  obtain ⟨monitor, hmonitor, -⟩ := Model.exists_of_desktop? hd
  simp only [focusNode, hlocate]
  obtain ⟨u, hu⟩ : ∃ u, u = if s.model.focusedDesktop? = some r then s else s.showDesktop r :=
    ⟨_, rfl⟩
  have hfocused : u.model.focusedDesktop? = some r := by
    by_cases hshown : s.model.focusedDesktop? = some r
    · rw [hu, if_pos hshown, hshown]
    · rw [hu, if_neg hshown, focusedDesktop?_showDesktop hmonitor]
  have hdesktop : u.model.desktop? r = some d := by
    by_cases hshown : s.model.focusedDesktop? = some r
    · rw [hu, if_pos hshown, hd]
    · rw [hu, if_neg hshown, (Keeps.showDesktop s r).desktop? r, hd]
  rw [← hu]
  have hmodel (v : Stage) (es es' : List Effect) (promote : Bool) :
      (((v.restack n promote).emit es).emit es').model.focusedNode? = v.model.focusedNode? := rfl
  refine (hmodel _ _ _ true).trans ?_
  change (u.model.modifyDesktop r fun d => { d with focus := some n }).focusedNode? = some n
  rw [Model.focusedNode?, focusedDesktop?_modifyDesktop, hfocused, Option.bind_some, Model.focus?,
    Model.desktop?_modifyDesktop, hdesktop]
  rfl

end Stage

namespace Model

/-- The node that has the input focus is a leaf. -/
theorem isSome_client?_of_focus {m : Model} (hm : m.Sound) {r : DesktopRef} {n : NodeId}
    (h : m.focus? r = some n) : (m.tree.client? n).isSome := by
  obtain ⟨shapes, hs⟩ := hm
  obtain ⟨d, hd, hfocus⟩ := Option.bind_eq_some_iff.1 h
  obtain ⟨left, o, right, hshapes, ho, -⟩ := hs.edit hd
  obtain ⟨-, hnone, hsome⟩ := ho.cases
  cases o with
  | none =>
    rw [hnone rfl] at hfocus
    cases hfocus
  | some s =>
    obtain ⟨f, hf, hdfocus⟩ := hsome s rfl
    obtain rfl : f = n := Option.some.inj (hdfocus.symm.trans hfocus)
    exact hs.forest.isSome_client?_iff.2 ⟨s, Shaped.mem_reduceOption.2 (by simp [hshapes]), hf⟩

theorem isSome_client?_of_focused {m : Model} (hm : m.Sound) {n : NodeId}
    (h : m.focusedNode? = some n) : (m.tree.client? n).isSome := by
  obtain ⟨r, -, hfocus⟩ := Option.bind_eq_some_iff.1 h
  exact isSome_client?_of_focus hm hfocus

/-- A node that has the input focus is the focus of the desktop where it is found. -/
theorem focused_iff {m : Model} (hm : m.Sound) {n : NodeId} {r : DesktopRef} {d : Desktop}
    (hlocate : m.locate? n = some r) (hd : m.desktop? r = some d) :
    m.focusedNode? = some n ↔ d.focus = some n ∧ m.focusedDesktop? = some r := by
  have hfocus : m.focus? r = d.focus := by rw [focus?, hd, Option.bind_some]
  constructor
  · intro h
    have hclient := isSome_client?_of_focused hm h
    obtain ⟨r', hr', hfocus'⟩ := Option.bind_eq_some_iff.1 h
    obtain ⟨d', hd', hdfocus'⟩ := Option.bind_eq_some_iff.1 hfocus'
    obtain ⟨shapes, hs⟩ := hm
    obtain ⟨s, r₀, d₀, hmem, hleaf, hlocate₀, hd₀, howns⟩ := hs.locate_client hclient
    obtain rfl : r₀ = r := Option.some.inj (hlocate₀.symm.trans hlocate)
    obtain rfl : d₀ = d := Option.some.inj (hd₀.symm.trans hd)
    obtain ⟨left, o, right, hshapes, ho, -⟩ := hs.edit hd'
    obtain ⟨hroot, hnone, hsome⟩ := ho.cases
    cases o with
    | none =>
      rw [hnone rfl] at hdfocus'
      cases hdfocus'
    | some s' =>
      -- both desktops own the tree that holds the node
      obtain ⟨f, hf, hdfocus⟩ := hsome s' rfl
      obtain rfl : f = n := Option.some.inj (hdfocus.symm.trans hdfocus')
      have hmem' : some s' ∈ shapes := by simp [hshapes]
      have hroots := hs.forest.rootOf_eq (Shaped.mem_reduceOption.2 hmem)
        (Shape.mem_preorder_of_mem_leaves hleaf)
      have hroots' := hs.forest.rootOf_eq (Shaped.mem_reduceOption.2 hmem')
        (Shape.mem_preorder_of_mem_leaves hf)
      have htop : s.top = s'.top := Option.some.inj (hroots.symm.trans hroots')
      obtain rfl := hs.position_unique hd' hd (hroot.trans (by rw [htop]; rfl)) howns.1
      obtain rfl : d' = d₀ := Option.some.inj (hd'.symm.trans hd)
      exact ⟨hdfocus', hr'⟩
  · rintro ⟨hdfocus, hfocused⟩
    rw [focusedNode?, hfocused, Option.bind_some, hfocus, hdfocus]

end Model

namespace Stage

theorem focusedDesktop?_applyLayout (s : Stage) (r : DesktopRef) :
    (s.applyLayout r).model.focusedDesktop? = s.model.focusedDesktop? := by
  unfold applyLayout
  split <;> rfl

theorem model_removeClient {s u : Stage} (hu : u.model = s.model) (r : DesktopRef) (d : Desktop)
    (n : NodeId) : (u.removeClient r d n).model = (s.removeClient r d n).model := by
  simp only [removeClient, model_withModel, hu]

theorem unmanage_of_unknown {s : Stage} {w : Window} (h : s.model.tree.findWindow? w = none) :
    s.unmanage w = (s, false) := by
  simp [unmanage, h]

/-- The outcome of letting go of a managed window: its leaf is gone, and if it had the input
focus, the leaf that has it now is placed. -/
structure Releases (s s' : Stage) (n : NodeId) : Prop where
  sound : s'.model.Sound
  evolves : s.Evolves s' (some n)
    (if s.model.focusedNode? = some n then s'.model.focusedNode?.map (·, true) else none)
  left : s'.model.tree.client? n = none ∧
    ∀ m, m ≠ n → s'.model.tree.standing? m = s.model.tree.standing? m

/-- Once the leaf is gone and the rest arranged, the focus goes to the leaf that its desktop has
chosen, if the leaf had the input focus. -/
theorem releases_focus {s v : Stage} {n : NodeId} {r : DesktopRef} {d : Desktop}
    (hs : s.model.Sound) (hlocate : s.model.locate? n = some r) (hd : s.model.desktop? r = some d)
    (hclient : (s.model.tree.client? n).isSome) (hv : (s.removeClient r d n).Keeps v)
    (hvfocused : v.model.focusedDesktop? = s.model.focusedDesktop?) :
    s.Releases (if d.focus = some n ∧ v.model.focusedDesktop? = some r then
      v.focusNode (v.model.focus? r) else v.publishReport) n := by
  have hparts := parts_removeClient hs hclient hlocate hd
  have hfocused := Model.focused_iff hs hlocate hd
  have hvsound := (hv.stays hparts.sound).sound
  have hevolves := hparts.evolves.keeps hv
  have hleft (u : Stage) (hu : ∀ m, u.model.tree.standing? m = v.model.tree.standing? m) :
      u.model.tree.client? n = none ∧
        ∀ m, m ≠ n → u.model.tree.standing? m = s.model.tree.standing? m := by
    refine ⟨?_, fun m hm => ?_⟩
    · rw [← Option.isNone_iff_eq_none, ← Option.not_isSome,
        Tree.isSome_client?_of_standing (hu n), (hevolves.gone_client n rfl).2]
      rfl
    · rw [hu m, hv.standing m, hparts.other m hm]
  rw [hvfocused]
  by_cases hcase : d.focus = some n ∧ s.model.focusedDesktop? = some r
  · rw [if_pos hcase]
    rw [hcase.2] at hvfocused
    have hvnode : v.model.focusedNode? = v.model.focus? r := by
      rw [Model.focusedNode?, hvfocused, Option.bind_some]
    cases hfocus : v.model.focus? r with
    | none =>
      have hkeeps : v.Keeps (v.focusNode none) := Keeps.of_model rfl rfl
      refine ⟨(hkeeps.stays hvsound).sound, ?_, hleft _ hkeeps.standing⟩
      have hnone : (v.focusNode none).model.focusedNode? = none := hvnode.trans hfocus
      rw [if_pos (hfocused.2 hcase), hnone]
      exact hevolves.keeps hkeeps
    | some f =>
      have hf := Model.isSome_client?_of_focus hvsound hfocus
      obtain ⟨r', d', hlocate', hd'⟩ := locate_client hvsound hf
      have hnode := focusedNode?_focusNode hlocate' hd'
      obtain ⟨shapes, h⟩ := hvsound
      obtain ⟨hshaped, hstanding, hplaced⟩ := focusNode_spec h hf
      refine ⟨⟨shapes, hshaped⟩, ?_, hleft _ hstanding⟩
      rw [if_pos (hfocused.2 hcase), hnode]
      refine hevolves.comp hplaced (fun m hm hmf => ?_) fun l hl => live_of_shaped h hl
      obtain rfl := Option.some.inj hm
      obtain rfl : f = n := by simpa using hmf
      rw [(hevolves.gone_client f rfl).2] at hf
      cases hf
  · rw [if_neg hcase]
    have hkeeps : v.Keeps v.publishReport := Keeps.emit _ _
    refine ⟨(hkeeps.stays hvsound).sound, ?_, hleft _ hkeeps.standing⟩
    rw [if_neg fun h => hcase (hfocused.1 h)]
    exact hevolves.keeps hkeeps

theorem releases_unmanage {s : Stage} (hs : s.model.Sound) {w : Window} {n : NodeId}
    (hn : s.model.tree.findWindow? w = some n) :
    (s.unmanage w).2 = true ∧ s.Releases (s.unmanage w).1 n := by
  have hclient : (s.model.tree.client? n).isSome := by
    rw [← Model.isSome_window?, Tree.window?_of_findWindow hn, Option.isSome_some]
  obtain ⟨r, d, hlocate, hd⟩ := locate_client hs hclient
  have hrest (u : Stage) (hu : u.model = s.model) (hsettings : u.settings = s.settings)
      (ws : List Window) :=
    releases_focus (v := ((u.removeClient r d n).applyLayout r).request (.clientList ws)) hs hlocate
      hd hclient ((Keeps.of_model (model_removeClient hu r d n) hsettings).trans
        ((Keeps.applyLayout _ r).trans (Keeps.emit _ _)))
      (by
        rw [request, model_emit, focusedDesktop?_applyLayout, model_removeClient hu]
        exact focusedDesktop?_modifyDesktop _ r _)
  have hpair (c : Prop) [Decidable c] (x y : Stage) :
      (if c then (x, true) else (y, true)) = (if c then x else y, true) := by
    split <;> rfl
  obtain ⟨u, hu⟩ : ∃ u, u = s.announceAt .nodeRemove r [Numeral.hex8 w] := ⟨_, rfl⟩
  have humodel : u.model = s.model := hu ▸ rfl
  have husettings : u.settings = s.settings := hu ▸ rfl
  have hdestroy (feedback : Window) : (u.request (.destroy feedback)).model = s.model := humodel
  unfold unmanage
  simp only [hn, hlocate, ← hu, humodel]
  cases (s.model.tree.get? n).bind Node.feedback? with
  | none =>
    simp only [humodel, hd, hpair]
    exact ⟨trivial, hrest u humodel husettings _⟩
  | some feedback =>
    simp only [hdestroy, hd, hpair]
    exact ⟨trivial, hrest (u.request (.destroy feedback)) (hdestroy feedback) husettings _⟩

end Stage

end Tiling
