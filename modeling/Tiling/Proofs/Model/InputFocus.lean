import Tiling.Proofs.Model.Turnover
/-!
# The input focus of the display

The display gives the input focus to the window that it was last asked to.  Operations that move
the focus of the model ask for it, except that some leave the display without the focus on
purpose: a window that comes without asking for the focus may be the only one on the focused
desktop, and the focus can be cleared.  From then on until the next request no window has the
input focus.
-/

namespace Tiling

/-- The window of the node that has the focus. -/
def Model.focusedWindow? (m : Model) : Option Window := m.focusedNode?.bind m.tree.window?

theorem Model.isSome_focusedWindow? {m : Model} (hm : m.Sound) :
    m.focusedWindow?.isSome = m.focusedNode?.isSome := by
  rw [focusedWindow?]
  cases hfocused : m.focusedNode? with
  | none => rfl
  | some n =>
    rw [Option.bind_some, isSome_window?, isSome_client?_of_focused hm hfocused]
    rfl

theorem Model.focusedWindow?_congr {m m' : Model} (htree : m'.tree = m.tree)
    (hmonitors : m'.monitors = m.monitors) (hfocused : m'.focusedMonitor = m.focusedMonitor) :
    m'.focusedWindow? = m.focusedWindow? := by
  have hdesktop : m'.focusedDesktop? = m.focusedDesktop? := by
    rw [focusedDesktop?, hmonitors, hfocused, focusedDesktop?]
  have hfocus : m'.focus? = m.focus? := by
    funext r
    rw [focus?, desktop?, monitor?, hmonitors]
    rfl
  rw [focusedWindow?, focusedNode?, hdesktop, hfocus, htree]
  rfl

theorem Model.focusedNode?_eq {m : Model} {r : DesktopRef} (h : m.focusedDesktop? = some r) :
    m.focusedNode? = m.focus? r := by
  rw [focusedNode?, h, Option.bind_some]

namespace Stage

variable {s s' s'' : Stage}

/-- The window that was last given the input focus; at first, and after a request to clear it, no
window has it. -/
def inputFocus (s : Stage) : Option Window := (s.history.findSome? Effect.focuses?).join

theorem inputFocus_of_request (es : List Effect) {before : List Effect} {w : Option Window}
    (h : s.history = es ++ .request (.focus w) :: before) (hes : ∀ e ∈ es, e.focuses? = none) :
    s.inputFocus = w := by
  rw [inputFocus, h, List.findSome?_append, List.findSome?_eq_none_iff.2 hes]
  rfl

theorem inputFocus_eq (h : ∃ es, s'.history = es ++ s.history ∧ ∀ e ∈ es, e.focuses? = none) :
    s'.inputFocus = s.inputFocus := by
  obtain ⟨es, hes, hnone⟩ := h
  rw [inputFocus, hes, List.findSome?_append, List.findSome?_eq_none_iff.2 hnone, Option.none_or,
    inputFocus]

/-- From `s` to `s'` the input focus is left alone, and so is the focus of the model. -/
structure Idles (s s' : Stage) : Prop where
  history : ∃ es, s'.history = es ++ s.history ∧ ∀ e ∈ es, e.focuses? = none
  focused : s'.model.focusedWindow? = s.model.focusedWindow?

/-- From `s` to `s'` the focus of the model is asked for. -/
structure Refocuses (s s' : Stage) : Prop where
  history : ∃ es, s'.history = es ++ s.history ∧ ∃ e ∈ es, e.focuses?.isSome
  focused : s'.inputFocus = s'.model.focusedWindow?

theorem Idles.refl (s : Stage) : s.Idles s := ⟨⟨[], rfl, by simp⟩, rfl⟩

theorem Refocuses.after {es : List Effect} (hes : s'.history = es ++ s.history)
    (h : s'.Refocuses s'') : s.Refocuses s'' := by
  obtain ⟨es', hes', e, he, hsome⟩ := h.history
  refine ⟨⟨es' ++ es, by rw [hes', hes, List.append_assoc], e, ?_, hsome⟩, h.focused⟩
  exact List.mem_append_left _ he

/-! ## Steps -/

theorem idles_of_calm {edited : Option DesktopRef} (h : Calm edited s s')
    (hfocused : s'.model.focusedWindow? = s.model.focusedWindow?) : s.Idles s' :=
  ⟨h.unfocused, hfocused⟩

/-- Where the focused desktop keeps its focus, and the focused window its leaf, the focused
window stays the same. -/
theorem focusedWindow?_eq
    (hdesktop : s'.model.focusedDesktop? = s.model.focusedDesktop?)
    (hfocus : ∀ r, s.model.focusedDesktop? = some r → s'.model.focus? r = s.model.focus? r)
    (hwindow : ∀ n, s.model.focusedNode? = some n →
      s'.model.tree.window? n = s.model.tree.window? n) :
    s'.model.focusedWindow? = s.model.focusedWindow? := by
  have hnode : s'.model.focusedNode? = s.model.focusedNode? := by
    cases hr : s.model.focusedDesktop? with
    | none =>
      rw [Model.focusedNode?, hdesktop, Model.focusedNode?, hr]
      rfl
    | some r =>
      rw [Model.focusedNode?_eq (hdesktop.trans hr), Model.focusedNode?_eq hr, hfocus r hr]
  rw [Model.focusedWindow?, hnode, Model.focusedWindow?]
  cases hn : s.model.focusedNode? with
  | none => rfl
  | some n => exact hwindow n hn

theorem refocuses_focusNode (hs : s.model.Sound) {n : NodeId}
    (hn : (s.model.tree.client? n).isSome) : s.Refocuses (s.focusNode (some n)) := by
  obtain ⟨r, d, hlocate, hd⟩ := locate_client hs hn
  obtain ⟨u, hu⟩ : ∃ u, u = if s.model.focusedDesktop? = some r then s else s.showDesktop r :=
    ⟨_, rfl⟩
  have hshown : s.Quiet u := by
    rw [hu]
    split
    · exact Quiet.refl s
    · exact Quiet.of_path (path_showDesktop s r) rfl
  obtain ⟨es, hes, -⟩ := hshown.history
  obtain ⟨es', hes', hnone⟩ := (Calm.focusNode hlocate : Calm none _ _).unfocused
  have hchosen : (s.choose r n).history =
      .request (.focus (s.model.tree.window? n)) :: (es ++ s.history) := by
    have hwindow : u.model.tree.window? n = s.model.tree.window? n :=
      Tree.window?_of_place (Tree.place?_of_facet (hshown.facet n))
    rw [← hwindow, ← hes, hu]
    rfl
  constructor
  · refine ⟨es' ++ .request (.focus (s.model.tree.window? n)) :: es, ?_, ?_⟩
    · rw [hes', hchosen, List.append_assoc, List.cons_append]
    · exact ⟨_, List.mem_append_right _ List.mem_cons_self, rfl⟩
  · rw [hchosen] at hes'
    rw [inputFocus_of_request _ hes' hnone, Model.focusedWindow?,
      focusedNode?_focusNode hlocate hd, Option.bind_some, (stays_focusNode hs hn).window n]

theorem refocuses_clearFocus (s : Stage) (h : s.model.focusedNode? = none) :
    s.Refocuses (s.focusNode none) := by
  have hnone : (s.focusNode none).inputFocus = none :=
    inputFocus_of_request [_] rfl fun e he => by
      rw [List.mem_singleton.1 he]
      rfl
  refine ⟨⟨[_, _], rfl, .request (.focus none), by simp, rfl⟩, ?_⟩
  rw [hnone]
  show none = s.model.focusedWindow?
  rw [Model.focusedWindow?, h]
  rfl

theorem inputFocus_focusDesktop (s : Stage) (r : DesktopRef) : (s.focusDesktop r).inputFocus =
    ((s.showDesktop r).model.focus? r).bind (s.showDesktop r).model.tree.window? :=
  inputFocus_of_request [_] rfl fun e he => by
    rw [List.mem_singleton.1 he]
    rfl

theorem refocuses_focusDesktop {r : DesktopRef}
    (h : (s.model.monitor? r).isSome ∨ s.model.focusedNode? = none) :
    s.Refocuses (s.focusDesktop r) := by
  obtain ⟨es, hes, -⟩ := (Quiet.of_path (path_showDesktop s r) rfl).history
  have hhistory : ∃ report w, (s.focusDesktop r).history =
      report :: .request (.focus w) :: (es ++ s.history) := by
    rw [← hes]
    exact ⟨_, _, rfl⟩
  obtain ⟨report, w, hhistory⟩ := hhistory
  refine ⟨⟨report :: .request (.focus w) :: es, hhistory, .request (.focus w), by simp, rfl⟩, ?_⟩
  rw [inputFocus_focusDesktop]
  show _ = (s.showDesktop r).model.focusedWindow?
  cases hmonitor : s.model.monitor? r with
  | some monitor =>
    rw [Model.focusedWindow?, Model.focusedNode?_eq (focusedDesktop?_showDesktop hmonitor)]
  | none =>
    have hnone : s.model.focusedNode? = none := by simpa [hmonitor] using h
    have hsame : s.showDesktop r = s := by simp only [showDesktop, hmonitor]
    rw [hsame, Model.focusedWindow?, hnone, Model.focus?, Model.desktop?, hmonitor]
    rfl

theorem unmanage_focus (hs : s.model.Sound) (w : Window) :
    s.Idles (s.unmanage w).1 ∨ s.Refocuses (s.unmanage w).1 := by
  rcases unmanage_cases hs w with hsame | ⟨r, d, n, v, hdrops, heq⟩
  · rw [hsame]
    exact .inl (Idles.refl s)
  obtain ⟨es, hes, -⟩ := hdrops.calm.history
  rw [heq]
  dsimp only
  split
  · rename_i hcase
    refine .inr (Refocuses.after hes ?_)
    cases hfocus : v.model.focus? r with
    | none => exact refocuses_clearFocus v (by rw [Model.focusedNode?_eq hcase.2, hfocus])
    | some f =>
      exact refocuses_focusNode hdrops.sound (Model.isSome_client?_of_focus hdrops.sound hfocus)
  · rename_i hcase
    left
    rw [hdrops.calm.focusedDesktop?] at hcase
    apply idles_of_calm (hdrops.calm.trans (Calm.publishReport v))
    apply focusedWindow?_eq
    · exact hdrops.calm.focusedDesktop?
    · intro r' hr'
      by_cases hr : r = r'
      · subst hr
        have hne : d.focus ≠ some n := fun hfocus => hcase ⟨hfocus, hr'⟩
        show v.model.focus? r = _
        rw [hdrops.focus hne, Model.focus?, hdrops.desktop, Option.bind_some]
      · exact hdrops.calm.focus r' fun h => hr (Option.some.inj h)
    · intro f hf
      apply hdrops.other f
      rintro rfl
      exact hcase ((Model.focused_iff hs hdrops.located hdrops.desktop).1 hf)

/-! ## Operations that leave the input focus behind -/

/-- The window comes without asking for the focus, and it is the first on the focused desktop. -/
def SlipsIn (s : Stage) (w : Window) (csq : Consequences) : Prop :=
  csq.focus = false ∧ ¬ s.model.Manages w ∧ ∃ r d, s.targetDesktop? csq = some r ∧
    s.model.focusedDesktop? = some r ∧ s.model.desktop? r = some d ∧ d.focus = none

/-- The operation leaves the display without the focus of the model. -/
def Neglects (s : Stage) : Operation → Prop
  | .manage w _ csq => s.SlipsIn w csq
  | .clearFocus => s.model.focusedNode?.isSome
  | .focusDesktop r => s.model.monitor? r = none ∧ s.model.focusedNode?.isSome
  | _ => False

section Arrival

variable {x : Stage} {w : Window} {csq : Consequences} {r : DesktopRef} {d : Desktop} {n : NodeId}

theorem Takes.focusedWindow?_of_slipsIn (h : s.Takes x w r d n)
    (hr : s.targetDesktop? csq = some r) (hslips : s.SlipsIn w csq) :
    s.model.focusedWindow? = none ∧ x.model.focusedWindow? = some w := by
  obtain ⟨-, -, r', d', hr', hfocused, hd', hempty⟩ := hslips
  obtain rfl := Option.some.inj (hr'.symm.trans hr)
  obtain rfl := Option.some.inj (hd'.symm.trans h.desktop)
  have hfocus : s.model.focus? r' = none := by rw [Model.focus?, hd', Option.bind_some, hempty]
  constructor
  · rw [Model.focusedWindow?, Model.focusedNode?_eq hfocused, hfocus]
    rfl
  · rw [Model.focusedWindow?, Model.focusedNode?_eq (h.calm.focusedDesktop?.trans hfocused),
      h.focus, hempty, Option.none_or, Option.bind_some, h.window]

theorem Takes.focusedWindow?_eq (h : s.Takes x w r d n) (hs : s.model.Sound)
    (hnew : ¬ s.model.Manages w) (hr : s.targetDesktop? csq = some r)
    (hslips : ¬ s.SlipsIn w csq)
    (hfocus : ¬ (csq.focus = true ∧ s.model.focusedDesktop? = some r)) :
    x.model.focusedWindow? = s.model.focusedWindow? := by
  apply Stage.focusedWindow?_eq h.calm.focusedDesktop?
  · intro r' hr'
    by_cases hsame : r = r'
    · subst hsame
      have hoff : csq.focus = false := by
        rw [← Bool.not_eq_true]
        exact fun hon => hfocus ⟨hon, hr'⟩
      have hd : s.model.focus? r = d.focus := by rw [Model.focus?, h.desktop, Option.bind_some]
      cases hempty : d.focus with
      | none => exact absurd ⟨hoff, hnew, r, d, hr, hr', h.desktop, hempty⟩ hslips
      | some f => rw [h.focus, hd, hempty, Option.some_or]
    · exact h.calm.focus r' fun heq => hsame (Option.some.inj heq)
  · intro f hf
    -- the new leaf was not there, so it is not the one that has the focus
    apply h.other f
    rintro rfl
    have hlive := Model.isSome_client?_of_focused hs hf
    rw [h.unused] at hlive
    cases hlive

/-- A window that is placed slips in, or the display is told of its focus as the model has it. -/
theorem Takes.settled_focus {y s' : Stage} (h : s.Takes x w r d n) (hs : s.model.Sound)
    (hnew : ¬ s.model.Manages w) (hr : s.targetDesktop? csq = some r)
    (hy : y = (if x.model.isVisible r then x.request (.map w) else x).restack n true)
    (hs' : s' = if csq.focus && y.model.focusedDesktop? == some r then y.focusNode (some n)
      else y.publishReport) :
    (s.SlipsIn w csq ∧ s.model.focusedWindow? = none ∧ s'.model.focusedWindow?.isSome ∧
        s'.inputFocus = s.inputFocus) ∨
      (¬ s.SlipsIn w csq ∧ (s.Idles s' ∨ s.Refocuses s')) := by
  obtain ⟨hysound, htree, hmonitors, hmonitor, hunfocused⟩ := h.placed hy
  have hywindow := Model.focusedWindow?_congr htree hmonitors hmonitor
  have hydesktop : y.model.focusedDesktop? = s.model.focusedDesktop? := by
    rw [← h.calm.focusedDesktop?, Model.focusedDesktop?, hmonitors, hmonitor,
      Model.focusedDesktop?]
  rw [hs']
  split
  · rename_i hcase
    right
    have hwants : csq.focus = true := (Bool.and_eq_true_iff.1 hcase).1
    have hlive : (y.model.tree.client? n).isSome := by
      rw [htree, ← Model.isSome_window?, h.window, Option.isSome_some]
    obtain ⟨es, hes, -⟩ := hunfocused
    refine ⟨?_, .inr (Refocuses.after hes (refocuses_focusNode hysound hlive))⟩
    rintro ⟨hoff, -⟩
    rw [hoff] at hwants
    cases hwants
  · rename_i hcase
    have hidle : ¬ (csq.focus = true ∧ s.model.focusedDesktop? = some r) := by
      rintro ⟨hon, hfocused⟩
      exact hcase (by rw [hon, hydesktop, hfocused, beq_self_eq_true, Bool.and_self])
    have hreported : ∃ es, y.publishReport.history = es ++ s.history ∧
        ∀ e ∈ es, e.focuses? = none :=
      history_trans hunfocused (Calm.publishReport y : Calm none y _).unfocused
    by_cases hslips : s.SlipsIn w csq
    · left
      obtain ⟨hbefore, hafter⟩ := h.focusedWindow?_of_slipsIn hr hslips
      refine ⟨hslips, hbefore, ?_, inputFocus_eq hreported⟩
      show y.model.focusedWindow?.isSome
      rw [hywindow, hafter, Option.isSome_some]
    · right
      refine ⟨hslips, .inl ⟨hreported, ?_⟩⟩
      exact hywindow.trans (h.focusedWindow?_eq hs hnew hr hslips hidle)

end Arrival

/-- A window that slips in has the focus of the model and not that of the display; with any other
window the two stay as they were or become the same. -/
theorem manage_focus (hs : s.model.Sound) (w : Window) (named : WindowClass) (csq : Consequences) :
    (s.SlipsIn w csq ∧ s.model.focusedWindow? = none ∧
        (s.manage w named csq).1.model.focusedWindow?.isSome ∧
        (s.manage w named csq).1.inputFocus = s.inputFocus) ∨
      (¬ s.SlipsIn w csq ∧
        (s.Idles (s.manage w named csq).1 ∨ s.Refocuses (s.manage w named csq).1)) := by
  rcases manage_cases hs w named csq with
    ⟨hout, hsame⟩ | ⟨-, hnowhere, hmap⟩ | ⟨r, d, n, x, y, hnew, hr, htakes, hy, heq⟩
  · right
    rw [hsame]
    refine ⟨?_, .inl (Idles.refl s)⟩
    rintro ⟨-, hnew, r, d, hr, -, hd, -⟩
    rcases hout with hold | ⟨r', hr', hnone⟩
    · exact hnew hold
    · obtain rfl := Option.some.inj (hr.symm.trans hr')
      rw [hd] at hnone
      cases hnone
  · right
    rw [hmap]
    refine ⟨?_, .inl ⟨⟨[.request (.map w)], rfl, by simp [Effect.focuses?]⟩, rfl⟩⟩
    rintro ⟨-, -, r, d, hr, -⟩
    rw [hnowhere] at hr
    cases hr
  · rw [heq]
    exact htakes.settled_focus hs hnew hr hy rfl

theorem idles_perform (hs : s.model.Sound) {op : Operation} (hop : op.isCalm = true) :
    s.Idles (s.perform op) := by
  have hstep := calm_perform s hop
  apply idles_of_calm hstep
  apply focusedWindow?_eq hstep.focusedDesktop?
  · intro r _
    exact hstep.focus r (by simp)
  · intro n _
    rcases stays_perform hs (Operation.keepsWindows_of_isCalm hop) with ⟨new, rfl⟩ | hstays
    · cases hop
    · exact hstays.window n

/-- The display is asked to have no focus, whether or not a window has that of the model. -/
theorem clearFocus_focus (hs : s.model.Sound) :
    (s.Neglects .clearFocus ∧ (s.perform .clearFocus).model.focusedWindow?.isSome ∧
        ((s.perform .clearFocus).inputFocus = none ∨ (s.model.focusedWindow? = none ∧
          (s.perform .clearFocus).inputFocus = s.inputFocus))) ∨
      (¬ s.Neglects .clearFocus ∧
        (s.Idles (s.perform .clearFocus) ∨ s.Refocuses (s.perform .clearFocus))) := by
  have hfocused : s.model.focusedWindow?.isSome = s.model.focusedNode?.isSome :=
    Model.isSome_focusedWindow? hs
  cases hnode : s.model.focusedNode? with
  | none =>
    refine .inr ⟨?_, .inr (refocuses_clearFocus s hnode)⟩
    rw [Neglects, hnode]
    simp
  | some n =>
    refine .inl ⟨by rw [Neglects, hnode, Option.isSome_some], ?_, .inl ?_⟩
    · rw [hnode] at hfocused
      exact hfocused
    · exact inputFocus_of_request [_] rfl fun e he => by
        rw [List.mem_singleton.1 he]
        rfl

/-- A desktop that is not there leaves the focus of the model alone, but not that of the
display. -/
theorem focusDesktop_focus (hs : s.model.Sound) (r : DesktopRef) :
    (s.Neglects (.focusDesktop r) ∧ (s.perform (.focusDesktop r)).model.focusedWindow?.isSome ∧
        ((s.perform (.focusDesktop r)).inputFocus = none ∨ (s.model.focusedWindow? = none ∧
          (s.perform (.focusDesktop r)).inputFocus = s.inputFocus))) ∨
      (¬ s.Neglects (.focusDesktop r) ∧
        (s.Idles (s.perform (.focusDesktop r)) ∨ s.Refocuses (s.perform (.focusDesktop r)))) := by
  have hfocused : s.model.focusedWindow?.isSome = s.model.focusedNode?.isSome :=
    Model.isSome_focusedWindow? hs
  by_cases hneglects : s.model.monitor? r = none ∧ s.model.focusedNode?.isSome
  · have hsame : s.showDesktop r = s := by simp only [showDesktop, hneglects.1]
    refine .inl ⟨hneglects, ?_, .inl ?_⟩
    · show (s.showDesktop r).model.focusedWindow?.isSome
      rw [hsame, hfocused]
      exact hneglects.2
    · show (s.focusDesktop r).inputFocus = none
      rw [inputFocus_focusDesktop, hsame, Model.focus?, Model.desktop?, hneglects.1]
      rfl
  · refine .inr ⟨hneglects, .inr (refocuses_focusDesktop ?_)⟩
    cases hmonitor : s.model.monitor? r with
    | some monitor => exact .inl rfl
    | none =>
      right
      rw [← Option.isNone_iff_eq_none, ← Option.not_isSome]
      simpa [hmonitor] using hneglects

/-- An operation that neglects the display leaves a focused window without the input focus; any
other one leaves both focuses as they were or makes them the same. -/
theorem perform_focus (hs : s.model.Sound) (op : Operation) :
    (s.Neglects op ∧ (s.perform op).model.focusedWindow?.isSome ∧
        ((s.perform op).inputFocus = none ∨
          (s.model.focusedWindow? = none ∧ (s.perform op).inputFocus = s.inputFocus))) ∨
      (¬ s.Neglects op ∧ (s.Idles (s.perform op) ∨ s.Refocuses (s.perform op))) := by
  cases op with
  | manage w named csq =>
    rcases manage_focus hs w named csq with ⟨hslips, hbefore, hafter, hinput⟩ | hrest
    · exact .inl ⟨hslips, hafter, .inr ⟨hbefore, hinput⟩⟩
    · exact .inr hrest
  | unmanage w => exact .inr ⟨id, unmanage_focus hs w⟩
  | focus target =>
    refine .inr ⟨id, ?_⟩
    show s.Idles (s.onTarget target _) ∨ s.Refocuses (s.onTarget target _)
    unfold onTarget
    cases hn : target.node? s.model with
    | none => exact .inl (Idles.refl s)
    | some n => exact .inr (refocuses_focusNode hs (target.isSome_client? hs hn))
  | clearFocus => exact clearFocus_focus hs
  | focusDesktop r => exact focusDesktop_focus hs r
  | settings new => exact .inr ⟨id, .inl ⟨⟨[], rfl, by simp⟩, rfl⟩⟩
  | _ => exact .inr ⟨id, .inl (idles_perform hs rfl)⟩

/-! ## Runs -/

theorem suffix_of_history {P : Effect → Prop}
    (h : ∃ es, s'.history = es ++ s.history ∧ ∀ e ∈ es, P e) : s.history <:+ s'.history := by
  obtain ⟨es, hes, -⟩ := h
  exact ⟨es, hes.symm⟩

theorem Step.suffix {taken : List Window} (h : Step taken s s') : s.history <:+ s'.history := by
  have hedit {u : Stage} {r : DesktopRef} (h : s.Edits u r taken) :
      s.history <:+ (u.applyLayout r).history :=
    (suffix_of_history h.history).trans
      (suffix_of_history (Calm.applyLayout u r : Calm none u _).history)
  cases h with
  | quiet h => exact suffix_of_history h.history
  | restack hn promote => exact List.suffix_append _ _
  | edit h hstack => exact hedit h
  | remove h hparts => exact (hedit h).trans (List.suffix_cons _ _)
  | configure w rect =>
    exact suffix_of_history (Calm.of_path (path_configure s w rect) rfl : Calm none s _).history

/-- What has been recorded is never taken back. -/
theorem suffix_run (hs : s.model.Sound) (ops : List Operation) :
    s.history <:+ (s.run ops).history := by
  have hsteps := steps_run hs ops
  generalize s.run ops = s' at hsteps
  induction hsteps with
  | refl => exact List.suffix_rfl
  | tail _ hstep ih => exact ih.trans hstep.2.suffix

theorem since_trans (h : s.history <:+ s'.history) (h' : s'.history <:+ s''.history) :
    s.since s'' = s.since s' ++ s'.since s'' := by
  obtain ⟨es, hes⟩ := h
  obtain ⟨es', hes'⟩ := h'
  have hall : s''.history = (es' ++ es) ++ s.history := by rw [← hes', ← hes, List.append_assoc]
  rw [since_eq hall, since_eq hes.symm, since_eq hes'.symm, List.reverse_append]

/-- Some operation has neglected the display, and the input focus has not been asked for since. -/
def Neglected (s : Stage) (ops : List Operation) : Prop :=
  ∃ before op after, ops = before ++ op :: after ∧ (s.run before).Neglects op ∧
    ∀ e ∈ (s.run (before ++ [op])).since (s.run ops), e.focuses? = none

theorem neglected_append_iff (hs : s.model.Sound) (ops : List Operation) (op : Operation) :
    s.Neglected (ops ++ [op]) ↔ (s.run ops).Neglects op ∨
      (s.Neglected ops ∧
        ∀ e ∈ (s.run ops).since ((s.run ops).perform op), e.focuses? = none) := by
  have hsplit (before : List Operation) (first : Operation) (after : List Operation)
      (hops : ops = before ++ first :: after) :
      (s.run (before ++ [first])).since (s.run (ops ++ [op])) =
        (s.run (before ++ [first])).since (s.run ops) ++
          (s.run ops).since ((s.run ops).perform op) := by
    have hrun : s.run ops = (s.run (before ++ [first])).run after := by
      rw [← run_append, hops, List.append_assoc, List.singleton_append]
    have hlast : s.run (ops ++ [op]) = (s.run ops).perform op := run_append s ops [op]
    rw [hlast]
    apply since_trans
    · rw [hrun]
      exact suffix_run (sound_run hs _) after
    · exact suffix_run (sound_run hs ops) [op]
  constructor
  · rintro ⟨before, first, after, hops, hneglects, hnone⟩
    rcases List.eq_nil_or_concat after with rfl | ⟨after, last, rfl⟩
    · obtain ⟨rfl, hlast⟩ := List.append_inj' hops rfl
      obtain rfl : op = first := by simpa using hlast
      exact .inl hneglects
    · rw [List.concat_eq_append, ← List.cons_append, ← List.append_assoc] at hops
      obtain ⟨hops, hlast⟩ := List.append_inj' hops rfl
      right
      rw [hsplit before first after hops] at hnone
      refine ⟨⟨before, first, after, hops, hneglects, ?_⟩, ?_⟩
      · intro e he
        exact hnone e (List.mem_append_left _ he)
      · intro e he
        exact hnone e (List.mem_append_right _ he)
  · rintro (hneglects | ⟨⟨before, first, after, hops, hneglects, hnone⟩, hidle⟩)
    · refine ⟨ops, op, [], rfl, hneglects, ?_⟩
      have hsame : (s.run (ops ++ [op])).history = [] ++ (s.run (ops ++ [op])).history := rfl
      rw [since_eq hsame]
      simp
    · refine ⟨before, first, after ++ [op], by rw [hops]; simp, hneglects, ?_⟩
      rw [hsplit before first after hops]
      intro e he
      rcases List.mem_append.1 he with he | he
      · exact hnone e he
      · exact hidle e he

theorem inputFocus_run (hs : s.model.Sound) (hnone : s.inputFocus = none)
    (hfocused : s.model.focusedWindow? = none) (ops : List Operation) :
    ((s.run ops).inputFocus = (s.run ops).model.focusedWindow? ↔ ¬ s.Neglected ops) ∧
      ((s.run ops).inputFocus = (s.run ops).model.focusedWindow? ∨
        (s.run ops).inputFocus = none) := by
  induction ops using List.reverseRecOn with
  | nil =>
    refine ⟨iff_of_true (hnone.trans hfocused.symm) ?_, .inr hnone⟩
    rintro ⟨before, op, after, hops, -⟩
    simp at hops
  | append_singleton ops op ih =>
    obtain ⟨hiff, hor⟩ := ih
    have hlast : s.run (ops ++ [op]) = (s.run ops).perform op := run_append s ops [op]
    rw [neglected_append_iff hs, hlast]
    rcases perform_focus (sound_run hs ops) op with
      ⟨hneglects, hsome, hinput⟩ | ⟨hnot, hidles | hrefocuses⟩
    · -- the display is left without the focus that the model has
      have hnone : ((s.run ops).perform op).inputFocus = none := by
        rcases hinput with hnone | ⟨hbefore, hsame⟩
        · exact hnone
        · rw [hbefore, or_self] at hor
          rw [hsame, hor]
      refine ⟨iff_of_false ?_ ?_, .inr hnone⟩
      · intro heq
        rw [← heq, hnone] at hsome
        cases hsome
      · exact fun hnot => hnot (.inl hneglects)
    · obtain ⟨es, hes, hquiet⟩ := hidles.history
      have hsince : ∀ e ∈ (s.run ops).since ((s.run ops).perform op), e.focuses? = none := by
        rw [since_eq hes]
        intro e he
        exact hquiet e (List.mem_reverse.1 he)
      rw [inputFocus_eq hidles.history, hidles.focused, or_iff_right hnot, and_iff_left hsince]
      exact ⟨hiff, hor⟩
    · refine ⟨iff_of_true hrefocuses.focused ?_, .inl hrefocuses.focused⟩
      rintro (hneglects | ⟨-, hidle⟩)
      · exact hnot hneglects
      · obtain ⟨es, hes, e, he, hsome⟩ := hrefocuses.history
        rw [since_eq hes] at hidle
        rw [hidle e (List.mem_reverse.2 he)] at hsome
        cases hsome

/-- After any operations on a model without windows, the input focus is on the window of the
focused node, or on none without one, unless the display has been neglected; then no window has
it. -/
theorem inputFocus_eq_iff (outputs : List (String × Rect)) (names : List String)
    (settings : Settings) (ids : FeedbackIds) (ops : List Operation) :
    (((fresh outputs names settings ids).run ops).inputFocus =
          ((fresh outputs names settings ids).run ops).model.focusedWindow? ↔
        ¬ (fresh outputs names settings ids).Neglected ops) ∧
      ((fresh outputs names settings ids).Neglected ops →
        ((fresh outputs names settings ids).run ops).inputFocus = none) := by
  have hfocused : (fresh outputs names settings ids).model.focusedWindow? = none := by
    rw [Model.focusedWindow?, Option.bind_eq_none_iff]
    intro n _
    rw [Option.eq_none_iff_forall_ne_some]
    intro w hw
    exact (Model.isBlank_fresh outputs names).not_manages w (Model.manages_iff.2 ⟨n, hw⟩)
  obtain ⟨hiff, hor⟩ := inputFocus_run (sound_fresh outputs names settings ids) rfl hfocused ops
  refine ⟨hiff, ?_⟩
  intro hneglected
  rcases hor with heq | hnone
  · exact absurd hneglected (hiff.1 heq)
  · exact hnone

/-! ## Neglect -/

def single : Stage := fresh [("S", ⟨0, 0, 640, 480⟩)] ["I"] .standard .unavailable

/-- A window comes, for the focus or not. -/
def arrival (focus : Bool) : Operation :=
  .manage 1 .unknown { Consequences.standard with focus := focus }

/-- A window that does not ask for the focus comes to an empty desktop, the focus is cleared, or
a desktop is asked for on a monitor that does not exist: the focused window lacks the input
focus. -/
theorem inputFocus_ne_focusedWindow :
    (single.run [arrival false]).inputFocus ≠
        (single.run [arrival false]).model.focusedWindow? ∧
      (single.run [arrival true, .clearFocus]).inputFocus ≠
        (single.run [arrival true, .clearFocus]).model.focusedWindow? ∧
      (single.run [arrival true, .focusDesktop ⟨1, 0⟩]).inputFocus ≠
        (single.run [arrival true, .focusDesktop ⟨1, 0⟩]).model.focusedWindow? := by
  refine ⟨?_, ?_, ?_⟩ <;> decide +kernel

end Stage

end Tiling
