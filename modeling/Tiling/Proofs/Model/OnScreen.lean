import Tiling.Proofs.Model.Feedback
import Tiling.Proofs.Model.Mapping
import Tiling.Proofs.Model.Screen
/-!
# Preselections on screen

The window of a preselection is made only for a desktop that is shown, but it is not unmapped
with the windows of its desktop.  It stays on screen, on a monitor that shows another desktop,
if and only if an operation takes its desktop from the screen.
-/

namespace Tiling

namespace Effect

theorem mark?_eq_made {e : Effect} {w : Window} (h : e.mark? = some (.made w)) :
    ∃ rect pixel, e = .request (.createFeedback rect pixel (some w)) := by
  cases e with
  | message m => cases h
  | request r =>
    cases r with
    | createFeedback rect pixel granted =>
      obtain ⟨v, rfl, hv⟩ := Option.map_eq_some_iff.1 h
      exact ⟨rect, pixel, by rw [Mark.made.inj hv]⟩
    | _ => cases h

theorem mark?_eq_destroyed {e : Effect} {w : Window} (h : e.mark? = some (.destroyed w)) :
    e = .request (.destroy w) := by
  cases e with
  | message m => cases h
  | request r =>
    cases r with
    | createFeedback rect pixel granted =>
      obtain ⟨v, -, hv⟩ := Option.map_eq_some_iff.1 h
      cases hv
    | destroy v => rw [Mark.destroyed.inj (Option.some.inj h)]
    | _ => cases h

end Effect

namespace Model

/-- The desktop that another one takes the place of when it is shown. -/
def covered? (m : Model) (r : DesktopRef) : Option DesktopRef :=
  (m.monitor? r).bind fun monitor =>
    (monitor.active.filter (· ≠ r.desktop)).map fun old => ⟨r.monitor, old⟩

theorem covered?_of_focused {m : Model} {r : DesktopRef} (h : m.focusedDesktop? = some r) :
    m.covered? r = none := by
  obtain ⟨j, hj, rfl⟩ := Option.map_eq_some_iff.1 h
  obtain ⟨monitor, hmonitor, hactive⟩ := Option.bind_eq_some_iff.1 hj
  simp [covered?, monitor?, hmonitor, hactive]

/-- A desktop that is shown stays so unless it is the covered one. -/
theorem isVisible_activate_iff {m : Model} {r r' : DesktopRef} {monitor : Monitor}
    (hmonitor : m.monitor? r = some monitor) (hvisible : m.isVisible r' = true) :
    (m.activate r).isVisible r' = true ↔ m.covered? r ≠ some r' := by
  rw [isVisible_activate hmonitor, covered?, hmonitor, Option.bind_some]
  by_cases hsame : r'.monitor = r.monitor
  · have hactive : monitor.active = some r'.desktop := by
      rw [isVisible, monitor?, hsame, ← monitor?, hmonitor, Option.any_some] at hvisible
      exact beq_iff_eq.1 hvisible
    rw [if_pos hsame, hactive, beq_iff_eq]
    by_cases hdesktop : r'.desktop = r.desktop
    · simp [hdesktop]
    · have hr' : (⟨r.monitor, r'.desktop⟩ : DesktopRef) = r' := by rw [← hsame]
      simp [hdesktop, hr']
  · rw [if_neg hsame, hvisible]
    refine iff_of_true rfl fun hcovered => ?_
    obtain ⟨old, -, rfl⟩ := Option.map_eq_some_iff.1 hcovered
    exact hsame rfl

/-- Preselections are shown on shown desktops only. -/
def Exhibits (m : Model) : Prop :=
  ∀ n w r, m.tree.feedback? n = some w → m.locate? n = some r → m.isVisible r = true

theorem isSome_client?_of_feedback {m : Model} (hm : m.Sound) {n : NodeId} {w : Window}
    (h : m.tree.feedback? n = some w) : (m.tree.client? n).isSome := by
  obtain ⟨shapes, hs⟩ := hm
  cases hn : m.tree.client? n with
  | some client => rfl
  | none =>
    rw [Tree.feedback?_eq, hs.forest.presel?_of_client hn, Option.bind_none] at h
    cases h

end Model

namespace Stage

variable {s s' s'' : Stage} {hidden : Option DesktopRef}

/-- From `s` to `s'` one desktop is taken from the screen, if any, and only windows that `s`
manages are unmapped. -/
structure Veils (s s' : Stage) (hidden : Option DesktopRef) : Prop where
  visible : ∀ r, s.model.isVisible r = true → (s'.model.isVisible r = true ↔ hidden ≠ some r)
  history : ∃ es, s'.history = es ++ s.history ∧
    ∀ e ∈ es, ∀ w, e = .request (.unmap w) → s.model.Manages w

/-- From `s` to `s'` the same desktops are shown and no window is unmapped. -/
structure Bright (s s' : Stage) : Prop where
  shown : s'.model.shown = s.model.shown
  history : ∃ es, s'.history = es ++ s.history ∧ ∀ e ∈ es, ∀ w, e ≠ .request (.unmap w)

namespace Bright

theorem of_same (hshown : s'.model.shown = s.model.shown) (hhistory : s'.history = s.history) :
    s.Bright s' := ⟨hshown, [], hhistory, nofun⟩

theorem refl (s : Stage) : s.Bright s := of_same rfl rfl

theorem trans (h : s.Bright s') (h' : s'.Bright s'') : s.Bright s'' where
  shown := h'.shown.trans h.shown
  history := history_trans h.history h'.history

theorem of_lights {ws : List Window} (h : s.Lights s' ws) : s.Bright s' := by
  obtain ⟨es, hes, hmapped⟩ := h.history
  refine ⟨h.shown, es, hes, fun e he w heq => ?_⟩
  have hmem : e ∈ mappings true ws := by
    rw [← hmapped, List.mem_filter, heq]
    exact ⟨heq ▸ he, rfl⟩
  obtain ⟨v, -, hv⟩ := List.mem_map.1 hmem
  rw [heq] at hv
  cases hv

theorem of_calm {edited : Option DesktopRef} (h : Calm edited s s') : s.Bright s' :=
  of_lights (Lights.of_calm h)

theorem emit (s : Stage) {es : List Effect} (h : ∀ e ∈ es, ∀ w, e ≠ .request (.unmap w)) :
    s.Bright (s.emit es) :=
  ⟨rfl, es.reverse, rfl, fun e he => h e (List.mem_reverse.1 he)⟩

theorem request (s : Stage) {r : Request} (h : ∀ w, r ≠ .unmap w) : s.Bright (s.request r) :=
  emit s fun e he w heq => by
    obtain rfl := List.mem_singleton.1 he
    exact h w (Effect.request.inj heq)

theorem publishReport (s : Stage) : s.Bright s.publishReport :=
  of_calm (Calm.publishReport s : Calm none s _)

theorem veils (h : s.Bright s') : s.Veils s' none where
  visible r hr := by
    rw [Model.isVisible_congr h.shown, hr]
    exact iff_of_true rfl nofun
  history := by
    obtain ⟨es, hes, hnone⟩ := h.history
    exact ⟨es, hes, fun e he w heq => absurd heq (hnone e he w)⟩

end Bright

/-! ## Desktops that are taken from the screen -/

theorem Veils.bright (h : s.Veils s' hidden) (h' : s'.Bright s'') : s.Veils s'' hidden where
  visible r hr := by
    rw [Model.isVisible_congr h'.shown]
    exact h.visible r hr
  history := by
    obtain ⟨es, hes, hmanaged⟩ := h.history
    obtain ⟨es', hes', hnone⟩ := h'.history
    refine ⟨es' ++ es, by rw [hes', hes, List.append_assoc], fun e he w heq => ?_⟩
    rcases List.mem_append.1 he with he | he
    · exact absurd heq (hnone e he w)
    · exact hmanaged e he w heq

theorem Bright.setMapped (s : Stage) (r : DesktopRef) : s.Bright (s.setMapped r true) := by
  unfold Stage.setMapped
  split
  · exact refl s
  · refine emit s fun e he w heq => ?_
    rw [List.map_map] at he
    obtain ⟨c, -, rfl⟩ := List.mem_map.1 he
    cases heq

theorem unmapped_setMapped (hs : s.model.Sound) (r : DesktopRef) :
    ∃ es, (s.setMapped r false).history = es ++ s.history ∧
      ∀ e ∈ es, ∀ w, e = .request (.unmap w) → s.model.Manages w := by
  obtain ⟨shapes, h⟩ := hs
  unfold setMapped
  cases hd : s.model.desktop? r with
  | none => exact ⟨[], rfl, nofun⟩
  | some d =>
    refine ⟨_, rfl, fun e he w heq => ?_⟩
    rw [List.mem_reverse, List.map_map] at he
    obtain ⟨c, hc, rfl⟩ := List.mem_map.1 he
    obtain rfl : c.window = w := Request.unmap.inj (Effect.request.inj heq)
    exact Model.manages_of_home? ((h.mem_clientsOf hd).1 (List.mem_map_of_mem hc))

/-- The windows of the desktop that was shown are unmapped. -/
theorem unmapped_switchTo (hs : s.model.Sound) (r : DesktopRef) (shown : Option Nat) :
    ∃ es, (s.switchTo r shown).history = es ++ s.history ∧
      ∀ e ∈ es, ∀ w, e = .request (.unmap w) → s.model.Manages w := by
  have hshow (u : Stage) : ∃ es,
      (((u.withModel (u.model.activate r)).setMapped r true).announceAt .desktopActivate r
        []).history = es ++ u.history ∧ ∀ e ∈ es, ∀ w, e = .request (.unmap w) →
          s.model.Manages w := by
    obtain ⟨es, hes, hnone⟩ := ((Bright.setMapped (u.withModel (u.model.activate r)) r).trans
      (Bright.of_calm (Calm.announceAt _ .desktopActivate r [] : Calm none _ _))).history
    exact ⟨es, hes, fun e he w heq => absurd heq (hnone e he w)⟩
  cases shown with
  | none => exact hshow s
  | some old => exact history_trans (unmapped_setMapped hs ⟨r.monitor, old⟩) (hshow _)

theorem veils_switchTo (hs : s.model.Sound) {r : DesktopRef} {monitor : Monitor}
    (hmonitor : s.model.monitor? r = some monitor) :
    s.Veils (s.switchTo r monitor.active) (s.model.covered? r) where
  visible r' hr' := by
    rw [model_switchTo]
    exact Model.isVisible_activate_iff hmonitor hr'
  history := unmapped_switchTo hs r monitor.active

theorem veils_showDesktop (hs : s.model.Sound) (r : DesktopRef) :
    s.Veils (s.showDesktop r) (s.model.covered? r) := by
  have hlast (u : Stage) (id : UInt32) : u.Bright
      ((if u.model.focusedMonitor = r.monitor then u
        else (u.withModel { u.model with focusedMonitor := r.monitor }).announce .monitorFocus
          [Numeral.hex8 id]).announceAt .desktopFocus r []) := by
    refine Bright.trans ?_ (Bright.of_calm (Calm.announceAt _ .desktopFocus r [] : Calm none _ _))
    split
    · exact Bright.refl u
    · refine ⟨rfl, [_], rfl, fun e he w heq => ?_⟩
      rw [List.mem_singleton.1 he] at heq
      cases heq
  unfold showDesktop
  cases hmonitor : s.model.monitor? r with
  | none =>
    rw [Model.covered?, hmonitor]
    exact (Bright.refl s).veils
  | some monitor =>
    dsimp only
    split
    · rename_i hshown
      have hcovered : s.model.covered? r = none := by
        simp [Model.covered?, hmonitor, hshown]
      rw [hcovered]
      exact (hlast s monitor.id).veils
    · exact (veils_switchTo hs hmonitor).bright (hlast _ monitor.id)

theorem veils_focusDesktop (hs : s.model.Sound) (r : DesktopRef) :
    s.Veils (s.focusDesktop r) (s.model.covered? r) := by
  have hfocused (u : Stage) (w : Option Window) : u.Bright (u.request (.focus w)) :=
    Bright.request u fun _ => nofun
  exact (veils_showDesktop hs r).bright ((hfocused _ _).trans (Bright.publishReport _))

theorem veils_focusNode (hs : s.model.Sound) {n : NodeId} {r : DesktopRef}
    (hlocate : s.model.locate? n = some r) :
    s.Veils (s.focusNode (some n)) (s.model.covered? r) := by
  by_cases hfocused : s.model.focusedDesktop? = some r
  · rw [Model.covered?_of_focused hfocused]
    exact (Bright.of_lights (Lights.focusNode hlocate hfocused)).veils
  · have hchosen := Bright.of_lights (Lights.choose s r n)
    rw [if_neg hfocused] at hchosen
    exact (veils_showDesktop hs r).bright
      (hchosen.trans (Bright.of_calm (Calm.focusNode hlocate : Calm none _ _)))

/-- The desktop that an operation shows. -/
def reveals? (s : Stage) : Operation → Option DesktopRef
  | .focus target => (target.node? s.model).bind s.model.locate?
  | .focusDesktop r => some r
  | _ => none

/-- The desktop that an operation takes from the screen. -/
def hides? (s : Stage) (op : Operation) : Option DesktopRef :=
  (s.reveals? op).bind s.model.covered?

theorem veils_perform (hs : s.model.Sound) (op : Operation) :
    s.Veils (s.perform op) (s.hides? op) := by
  cases op with
  | manage w named csq =>
    obtain ⟨ws, hlights, -⟩ := lights_manage hs w named csq
    exact (Bright.of_lights hlights).veils
  | unmanage w => exact (Bright.of_lights (Lights.unmanage hs w)).veils
  | focus target =>
    rw [hides?, reveals?, perform, onTarget]
    cases hn : target.node? s.model with
    | none => exact (Bright.refl s).veils
    | some n =>
      obtain ⟨r, d, hlocate, -⟩ := locate_client hs (target.isSome_client? hs hn)
      rw [Option.bind_some, hlocate, Option.bind_some]
      exact veils_focusNode hs hlocate
  | clearFocus => exact (Bright.of_lights (Lights.clearFocus s)).veils
  | focusDesktop r => exact veils_focusDesktop hs r
  | settings new =>
    have hsame : s.Bright { s with settings := new } := Bright.of_same rfl rfl
    exact hsame.veils
  | _ => exact (Bright.of_calm (calm_perform s rfl)).veils

/-! ## What is on screen -/

/-- The window was made to show a preselection, and it has been neither destroyed nor unmapped
since. -/
def OnScreen (s : Stage) (w : Window) : Prop :=
  ∃ later rect pixel before,
    s.history = later ++ .request (.createFeedback rect pixel (some w)) :: before ∧
      .request (.destroy w) ∉ later ∧ .request (.unmap w) ∉ later

variable {w : Window}

theorem mem_ledger_of_history {mark : Mark} {e : Effect} (he : e ∈ s.history)
    (hmark : e.mark? = some mark) : mark ∈ s.ledger :=
  List.mem_filterMap.2 ⟨e, he, hmark⟩

/-- A window that was made, and has not been destroyed since, has not been destroyed at all. -/
theorem Accounted.noted_of_onScreen (h : s.Accounted) (hw : s.OnScreen w) :
    ∃ n, s.model.tree.feedback? n = some w := by
  obtain ⟨later, rect, pixel, before, hsplit, hdestroy, -⟩ := hw
  have hledger : s.ledger =
      later.filterMap Effect.mark? ++ .made w :: before.filterMap Effect.mark? := by
    rw [ledger, hsplit, List.filterMap_append]
    rfl
  apply (h.recorded w).1
  refine ⟨by simp [hledger], fun hdestroyed => ?_⟩
  rw [hledger, List.mem_append] at hdestroyed
  rcases hdestroyed with hlater | hthen
  · obtain ⟨e, he, hmark⟩ := List.mem_filterMap.1 hlater
    exact hdestroy (Effect.mark?_eq_destroyed hmark ▸ he)
  · -- it would have been made before that, and so twice
    rcases List.mem_cons.1 hthen with heq | hbefore
    · cases heq
    obtain ⟨between, first, hfirst⟩ := List.append_of_mem hbefore
    have hmade : .made w ∈ first := h.order w first
      ⟨later.filterMap Effect.mark? ++ .made w :: between, by simp [hledger, hfirst]⟩
    have hdistinct := (List.nodup_append.1 (hledger ▸ h.distinct)).2.1
    apply (List.nodup_cons.1 hdistinct).1
    rw [hfirst]
    exact List.mem_append_right _ (List.mem_cons_of_mem _ hmade)

theorem Accounted.onScreen_of_noted (h : s.Accounted) {n : NodeId}
    (hn : s.model.tree.feedback? n = some w) (hmapped : .request (.unmap w) ∉ s.history) :
    s.OnScreen w := by
  obtain ⟨hmade, hdestroyed⟩ := (h.recorded w).2 ⟨n, hn⟩
  obtain ⟨e, he, hmark⟩ := List.mem_filterMap.1 hmade
  obtain ⟨rect, pixel, rfl⟩ := Effect.mark?_eq_made hmark
  obtain ⟨later, before, hsplit⟩ := List.append_of_mem he
  refine ⟨later, rect, pixel, before, hsplit, fun hlater => ?_, fun hlater => ?_⟩
  · exact hdestroyed (mem_ledger_of_history (hsplit ▸ List.mem_append_left _ hlater) rfl)
  · exact hmapped (hsplit ▸ List.mem_append_left _ hlater)

/-! ## Where the windows are shown -/

/-- Every window on screen that shows a preselection is noted down in a node of a shown desktop. -/
def Lit (s : Stage) : Prop :=
  ∀ w, s.OnScreen w → ∃ n r, s.model.tree.feedback? n = some w ∧ s.model.locate? n = some r ∧
    s.model.isVisible r = true

theorem Accounted.lit_iff (h : s.Accounted) (hs : s.model.Sound)
    (hmapped : ∀ n w, s.model.tree.feedback? n = some w → .request (.unmap w) ∉ s.history) :
    s.Lit ↔ s.model.Exhibits := by
  constructor
  · intro hlit n w r hn hlocate
    obtain ⟨m, r', hm, hlocate', hvisible⟩ := hlit w (h.onScreen_of_noted hn (hmapped n w hn))
    rw [h.once m n w hm hn, hlocate] at hlocate'
    rwa [Option.some.inj hlocate']
  · intro hexhibits w hw
    obtain ⟨n, hn⟩ := h.noted_of_onScreen hw
    obtain ⟨r, d, hlocate, -⟩ := locate_client hs (Model.isSome_client?_of_feedback hs hn)
    exact ⟨n, r, hn, hlocate, hexhibits n w r hn hlocate⟩

/-! ## Operations -/

/-- A leaf that is there before and after an operation has the same window. -/
theorem window?_perform (hs : s.model.Sound) (op : Operation) {n : NodeId}
    (hn : (s.model.tree.client? n).isSome) (hn' : ((s.perform op).model.tree.client? n).isSome) :
    (s.perform op).model.tree.window? n = s.model.tree.window? n := by
  by_cases hop : op.keepsWindows = true
  · exact window?_of_keepsWindows hs hop n
  cases op with
  | manage w named csq =>
    have hadmits := admits_manage hs w named csq
    apply Tree.window?_of_standing
    apply hadmits.evolves.standing n nofun
    rw [Option.map_map]
    intro hadded
    rw [hadmits.unused n (by simpa using hadded)] at hn
    cases hn
  | unmanage w =>
    cases hk : s.model.tree.findWindow? w with
    | none => rw [perform, unmanage_of_unknown hk]
    | some k =>
      obtain ⟨hgone, hother⟩ := (releases_unmanage hs hk).2.left
      apply Tree.window?_of_standing
      apply hother n
      rintro rfl
      rw [perform, hgone] at hn'
      cases hn'
  | _ => exact absurd rfl hop

theorem locate?_perform (hs : s.model.Sound) (op : Operation) {n : NodeId}
    (hn : (s.model.tree.client? n).isSome) (hn' : ((s.perform op).model.tree.client? n).isSome) :
    (s.perform op).model.locate? n = s.model.locate? n := by
  have hs' := (perform_spec hs op).1
  obtain ⟨v, hv⟩ := Option.isSome_iff_exists.1 ((Model.isSome_window? _ n).trans hn)
  have hv' := (window?_perform hs op hn hn').trans hv
  have hmanaged : s.model.Manages v := Model.manages_iff.2 ⟨n, hv⟩
  by_cases htaken : v ∈ op.taken
  · -- a window that is managed already is not taken in again
    cases op with
    | manage w named csq =>
      obtain rfl := List.mem_singleton.1 htaken
      rcases manage_cases hs v named csq with ⟨-, hsame⟩ | ⟨hnew, -⟩ | ⟨r, d, m, x, y, hnew, -⟩
      · rw [perform, hsame]
      · exact absurd hmanaged hnew
      · exact absurd hmanaged hnew
    | _ => cases htaken
  · rw [Model.locate?_of_window hs' hv', Model.locate?_of_window hs hv]
    exact (steps_perform hs op).home?_eq hs' (Model.manages_iff.2 ⟨n, hv'⟩) htaken

/-- A preselection is shown only if its desktop is. -/
theorem feedback?_choosePresel {r : DesktopRef} {n m : NodeId} {rect : Rect} {dir : Direction}
    (h : (s.choosePresel r n rect dir).model.tree.feedback? m = some w) :
    s.model.tree.feedback? m = some w ∨ m = n ∧ s.model.isVisible r = true := by
  have hshows (feedback : Option Window)
      (h : (s.model.tree.modify n fun node =>
        { node with presel := some ⟨dir, feedback⟩ }).feedback? m = some w) :
      s.model.tree.feedback? m = some w ∨ m = n ∧ feedback = some w := by
    rw [Tree.feedback?_modify] at h
    split at h
    · rename_i heq
      obtain ⟨node, -, hnode⟩ := Option.bind_eq_some_iff.1 h
      exact .inr ⟨heq.symm, hnode⟩
    · exact .inl h
  unfold choosePresel at h
  cases hvisible : s.model.isVisible r with
  | false =>
    rw [hvisible] at h
    rcases hshows none h with hold | ⟨-, hnone⟩
    · exact .inl hold
    · cases hnone
  | true =>
    rw [hvisible] at h
    exact (hshows s.feedbackIds.next.1 h).imp_right fun hnew => ⟨hnew.1, rfl⟩

theorem feedback?_presel {n m : NodeId} {dir : Option Direction}
    (h : (s.presel n dir).model.tree.feedback? m = some w) :
    s.model.tree.feedback? m = some w ∨
      m = n ∧ ∃ r, s.model.locate? n = some r ∧ s.model.isVisible r = true := by
  have hcleared := clears_takePresel s n
  have htaken (h : (s.takePresel n).1.model.tree.feedback? m = some w) :
      s.model.tree.feedback? m = some w := by
    rw [hcleared.shows] at h
    split at h
    · cases h
    · exact h
  unfold presel at h
  split at h
  · rename_i r node hr hnode
    have hsame := (Calm.of_path (path_takePresel s n) rfl : Calm none s _).isVisible r
    cases dir with
    | none => exact .inl (htaken h)
    | some dir =>
      rcases feedback?_choosePresel h with hold | ⟨hm, hvisible⟩
      · exact .inl (htaken hold)
      · exact .inr ⟨hm, r, hr, hsame.symm.trans hvisible⟩
  · exact .inl h

/-- A preselection that is shown after an operation was shown before, or was chosen on a shown
desktop. -/
theorem feedback?_perform (hs : s.model.Sound) (op : Operation) {n : NodeId}
    (h : (s.perform op).model.tree.feedback? n = some w) :
    (s.model.tree.client? n).isSome ∧ (s.model.tree.feedback? n = some w ∨
      s.hides? op = none ∧ ∃ r, s.model.locate? n = some r ∧ s.model.isVisible r = true) := by
  have hlive (h : s.model.tree.feedback? n = some w) : (s.model.tree.client? n).isSome :=
    Model.isSome_client?_of_feedback hs h
  cases op with
  | presel target dir =>
    rw [perform, onTarget] at h
    cases hk : target.node? s.model with
    | none =>
      rw [hk] at h
      exact ⟨hlive h, .inl h⟩
    | some k =>
      rw [hk] at h
      rcases feedback?_presel h with hsame | ⟨rfl, hshown⟩
      · exact ⟨hlive hsame, .inl hsame⟩
      · exact ⟨target.isSome_client? hs hk, .inr ⟨rfl, hshown⟩⟩
  | _ =>
    have hsame := (fades_perform hs rfl).shows h
    exact ⟨hlive hsame, .inl hsame⟩

/-- An operation takes the desktop of a shown preselection from the screen. -/
def Strands (s : Stage) (op : Operation) : Prop :=
  ∃ r n w, s.hides? op = some r ∧ s.model.locate? n = some r ∧ s.model.tree.feedback? n = some w

/-- The preselections of a desktop outlast an operation that takes it from the screen. -/
theorem feedback?_of_hides {op : Operation} {r : DesktopRef} (h : s.hides? op = some r)
    (n : NodeId) : (s.perform op).model.tree.feedback? n = s.model.tree.feedback? n := by
  cases op with
  | focus target => exact (still_perform s rfl rfl).shows n
  | focusDesktop r => exact (still_perform s rfl rfl).shows n
  | _ => cases h

theorem exhibits_perform_iff (hs : s.model.Sound) (hexhibits : s.model.Exhibits) (op : Operation) :
    (s.perform op).model.Exhibits ↔ ¬ s.Strands op := by
  have hveils := veils_perform hs op
  have hs' := (perform_spec hs op).1
  constructor
  · rintro hshown ⟨r, n, w, hhides, hlocate, hn⟩
    have hn' := (feedback?_of_hides hhides n).trans hn
    have hlocate' := (locate?_perform hs op (Model.isSome_client?_of_feedback hs hn)
      (Model.isSome_client?_of_feedback hs' hn')).trans hlocate
    exact (hveils.visible r (hexhibits n w r hn hlocate)).1 (hshown n w r hn' hlocate') hhides
  · intro hkept n w r hn hlocate
    obtain ⟨hlive, hbefore⟩ := feedback?_perform hs op hn
    rw [locate?_perform hs op hlive (Model.isSome_client?_of_feedback hs' hn)] at hlocate
    rcases hbefore with hold | ⟨hnone, r', hlocate', hvisible⟩
    · apply (hveils.visible r (hexhibits n w r hold hlocate)).2
      exact fun hhides => hkept ⟨r, n, w, hhides, hlocate, hold⟩
    · obtain rfl := Option.some.inj (hlocate'.symm.trans hlocate)
      apply (hveils.visible r' hvisible).2
      rw [hnone]
      exact nofun

/-! ## Runs -/

section Runs

variable {outputs : List (String × Rect)} {names : List String} {settings : Settings}
  {ids : FeedbackIds} {windows : List Window}

/-- The windows that are managed in a run are none of those that show preselections. -/
theorem agrees_run (hapart : ∀ k w, ids.answer k = some w → w ∉ windows) {ops : List Operation}
    (htaken : ∀ w ∈ ops.flatMap Operation.taken, w ∈ windows) :
    ((fresh outputs names settings ids).run ops).Agrees windows.dedup windows := by
  have hfresh := agrees_fresh outputs names settings ids windows.nodup_dedup
    (fun w hw => List.mem_dedup.2 hw) hapart
  exact hfresh.steps (steps_run (sound_fresh outputs names settings ids) ops) htaken

theorem unmapped_run (hapart : ∀ k w, ids.answer k = some w → w ∉ windows) {ops : List Operation}
    (htaken : ∀ w ∈ ops.flatMap Operation.taken, w ∈ windows)
    (hw : .request (.unmap w) ∈ ((fresh outputs names settings ids).run ops).history) :
    w ∈ windows := by
  induction ops using List.reverseRecOn with
  | nil => cases hw
  | append_singleton before op ih =>
    have hbefore : ∀ w ∈ before.flatMap Operation.taken, w ∈ windows := by
      intro w hw
      apply htaken w
      rw [List.flatMap_append]
      exact List.mem_append_left _ hw
    have hs := sound_run (sound_fresh outputs names settings ids) before
    obtain ⟨es, hes, hmanaged⟩ := (veils_perform hs op).history
    rw [run_append, run, List.foldl_cons, List.foldl_nil, hes] at hw
    rcases List.mem_append.1 hw with hnow | hthen
    · obtain ⟨n, hn⟩ := Model.manages_iff.1 (hmanaged _ hnow w rfl)
      exact (agrees_run hapart hbefore).managed n w hn
    · exact ih hbefore hthen

theorem lit_run_iff_exhibits (hids : ids.Distinct)
    (hapart : ∀ k w, ids.answer k = some w → w ∉ windows) {ops : List Operation}
    (htaken : ∀ w ∈ ops.flatMap Operation.taken, w ∈ windows) :
    ((fresh outputs names settings ids).run ops).Lit ↔
      ((fresh outputs names settings ids).run ops).model.Exhibits := by
  have hs := sound_fresh outputs names settings ids
  have haccounted := (accounted_fresh outputs names settings ids).run hs hids ops
  apply haccounted.lit_iff (sound_run hs ops)
  intro n w hn hunmapped
  exact (agrees_run hapart htaken).distinct w (.inl ⟨n, hn⟩) (unmapped_run hapart htaken hunmapped)

theorem exhibits_fresh : (fresh outputs names settings ids).model.Exhibits := by
  intro n w r hn
  have hempty : (fresh outputs names settings ids).model.tree = Tree.empty :=
    (Model.isBlank_fresh outputs names).1
  rw [hempty, Tree.feedback?, Tree.get?, Tree.empty, Slots.get?_empty, Option.bind_none] at hn
  cases hn

end Runs

/-- In a run on one display, whose windows that show preselections are never managed, these
windows are on screen on shown desktops only, if and only if no operation takes the desktop of
such a window from the screen. -/
theorem lit_run_iff (outputs : List (String × Rect)) (names : List String) (settings : Settings)
    {ids : FeedbackIds} (hids : ids.Distinct) {ops : List Operation}
    (hapart : ∀ k w, ids.answer k = some w → w ∉ ops.flatMap Operation.taken) :
    (∀ before, before <+: ops → ((fresh outputs names settings ids).run before).Lit) ↔
      ∀ before op, before ++ [op] <+: ops →
        ¬ ((fresh outputs names settings ids).run before).Strands op := by
  have hlit (before : List Operation) (hinitial : before <+: ops) :
      ((fresh outputs names settings ids).run before).Lit ↔
        ((fresh outputs names settings ids).run before).model.Exhibits := by
    apply lit_run_iff_exhibits hids hapart
    intro w hw
    obtain ⟨op, hop, hw⟩ := List.mem_flatMap.1 hw
    exact List.mem_flatMap.2 ⟨op, hinitial.subset hop, hw⟩
  have hstep (before : List Operation) (op : Operation) :
      (fresh outputs names settings ids).run (before ++ [op]) =
        ((fresh outputs names settings ids).run before).perform op :=
    run_append _ before [op]
  have hsound (before : List Operation) :=
    sound_run (sound_fresh outputs names settings ids) before
  constructor
  · intro hall before op hinitial
    have hearlier := (List.prefix_append before [op]).trans hinitial
    have hbefore := (hlit before hearlier).1 (hall before hearlier)
    have hafter := (hlit _ hinitial).1 (hall _ hinitial)
    rw [hstep] at hafter
    exact (exhibits_perform_iff (hsound before) hbefore op).1 hafter
  · intro hnone before hinitial
    apply (hlit before hinitial).2
    induction before using List.reverseRecOn with
    | nil => exact exhibits_fresh
    | append_singleton before op ih =>
      have hearlier := (List.prefix_append before [op]).trans hinitial
      rw [hstep]
      exact (exhibits_perform_iff (hsound before) (ih hearlier) op).2 (hnone before op hinitial)

/-- A display that grants a single window. -/
def oneGrant : FeedbackIds := .counting 100 1 1

theorem distinct_oneGrant : oneGrant.Distinct :=
  FeedbackIds.distinct_counting (by decide) (by decide)

theorem apart_oneGrant (k : Nat) (w : Window) (hw : oneGrant.answer k = some w) :
    w ∉ [(1 : Window)] := by
  obtain ⟨hk, rfl⟩ := FeedbackIds.eq_of_counting hw
  obtain rfl : k = 0 := by omega
  decide

/-- A monitor with two desktops. -/
def twoDesktops : Stage := fresh [("screen0", ⟨0, 0, 1920, 1080⟩)] ["I", "II"] .standard oneGrant

/-- A preselection that is taken back before its desktop is left. -/
def withdrawn : List Operation :=
  [.manage 1 .unknown .standard, .presel .focused (some .west), .presel .focused none,
    .focusDesktop ⟨0, 1⟩]

theorem lit_run_withdrawn :
    oneGrant.Distinct ∧
      (∀ k w, oneGrant.answer k = some w → w ∉ withdrawn.flatMap Operation.taken) ∧
      ((∀ before, before <+: withdrawn → (twoDesktops.run before).Lit) ↔
        ∀ before op, before ++ [op] <+: withdrawn → ¬ (twoDesktops.run before).Strands op) :=
  ⟨distinct_oneGrant, apart_oneGrant, lit_run_iff _ _ _ distinct_oneGrant apart_oneGrant⟩

/-- The window of a preselection stays on screen when its desktop is left. -/
theorem not_lit_of_left :
    ¬ (twoDesktops.run [.manage 1 .unknown .standard, .presel .focused (some .west),
      .focusDesktop ⟨0, 1⟩]).Lit := by
  rw [twoDesktops,
    lit_run_iff_exhibits distinct_oneGrant apart_oneGrant (by simp [Operation.taken])]
  intro hexhibits
  have hnoted : (twoDesktops.run [.manage 1 .unknown .standard, .presel .focused (some .west),
      .focusDesktop ⟨0, 1⟩]).model.tree.feedback? ⟨0⟩ = some 100 := by decide +kernel
  have hvisible := hexhibits ⟨0⟩ 100 ⟨0, 0⟩ hnoted (by decide +kernel)
  revert hvisible
  decide +kernel

end Stage

end Tiling
