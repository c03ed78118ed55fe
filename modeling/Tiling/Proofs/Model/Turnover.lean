import Tiling.Proofs.Model.Calm
import Tiling.Proofs.Model.Homes
/-!
# Windows that come and go

What becomes of a stage when a window is taken in or let go of, up to the point where the input
focus is decided.
-/

namespace Tiling.Stage

variable {s x v : Stage} {w : Window} {r : DesktopRef} {d : Desktop} {n : NodeId}

/-! ## A window that comes -/

theorem focus?_insertClient (hd : s.model.desktop? r = some d) (client : Client)
    (csq : Consequences) : (s.insertClient r d client csq).1.model.focus? r =
      d.focus.or (some (s.insertClient r d client csq).2) := by
  obtain ⟨u, presel, htaken, hbody⟩ := insertClient_eq s r d client csq
  have hud : u.model.desktop? r = some d := by
    rcases htaken with rfl | ⟨f, rfl⟩
    · exact hd
    · rw [(keeps_takePresel s f).desktop? r, hd]
  obtain ⟨t, root, n, hleaf⟩ : ∃ t root n, u.model.tree.insertLeaf d.root d.focus client
      (presel.any fun p => p.dir == .west || p.dir == .north) = (t, root, n) := ⟨_, _, _, rfl⟩
  have hdesktop : Model.desktop?
      { u.model with tree := t.modify n fun node => { node with flags := csq.flags } } r = some d :=
    hud
  rw [hbody t root n hleaf]
  show ((Model.modifyDesktop _ r _).desktop? r).bind Desktop.focus = _
  rw [Model.desktop?_modifyDesktop, hdesktop]
  rfl

/-- The window is in a new leaf of a desktop, which has been laid out. -/
structure Takes (s x : Stage) (w : Window) (r : DesktopRef) (d : Desktop) (n : NodeId) : Prop where
  desktop : s.model.desktop? r = some d
  sound : x.model.Sound
  calm : Calm (some r) s x
  unused : s.model.tree.client? n = none
  window : x.model.tree.window? n = some w
  other : ∀ m, m ≠ n → x.model.tree.window? m = s.model.tree.window? m
  /-- The leaf is the focus of a desktop that was empty. -/
  focus : x.model.focus? r = d.focus.or (some n)
  /-- The other windows live where they did. -/
  home : ∀ v r', x.model.home? v = some r' →
    (v = w ∧ r' = r) ∨ (v ≠ w ∧ s.model.home? v = some r')

theorem Takes.located (h : s.Takes x w r d n) : x.model.locate? n = some r := by
  obtain ⟨home, hhome⟩ := Model.exists_home? h.sound (Model.manages_iff.2 ⟨n, h.window⟩)
  rw [Model.locate?_of_window h.sound h.window, hhome]
  rcases h.home w home hhome with ⟨-, rfl⟩ | ⟨hne, -⟩
  · rfl
  · exact absurd rfl hne

theorem takes_insertClient (hs : s.model.Sound) (hd : s.model.desktop? r = some d) (client : Client)
    (hnew : ¬ s.model.Manages client.window) (csq : Consequences) (words : List String) :
    s.Takes ((((s.insertClient r d client csq).1.announceAt .nodeAdd r words).request
      (.watch client.window)).applyLayout r)
      client.window r d (s.insertClient r d client csq).2 := by
  have hnone (n : NodeId) : s.model.tree.window? n ≠ some client.window := fun hn =>
    hnew (Model.manages_iff.2 ⟨n, hn⟩)
  obtain ⟨v, n, hinsert, hjoins⟩ := joins_insertClient hs hd client csq hnone
  obtain ⟨u, v', n', hinsert', hu, hquiet, hedits, -, -⟩ :=
    edits_insertClient hs hd client csq hnone
  have hfocus := focus?_insertClient hd client csq
  have hcalm := Calm.insertClient s r d client csq
  rw [hinsert] at hinsert' hfocus hcalm ⊢
  obtain ⟨rfl, rfl⟩ := Prod.mk.inj hinsert'
  have hlaid : v.Keeps (((v.announceAt .nodeAdd r words).request (.watch client.window)).applyLayout
      r) := (Keeps.emit _ _).trans ((Keeps.emit _ _).trans (Keeps.applyLayout _ r))
  have hrest {edited : Option DesktopRef} : Calm edited v (((v.announceAt .nodeAdd r words).request
      (.watch client.window)).applyLayout r) :=
    (Calm.announceAt v _ r words).trans
      ((Calm.request _ ⟨rfl, rfl⟩).trans (Calm.applyLayout _ r))
  have hwindow (m : NodeId) := Tree.window?_of_standing (hlaid.standing m)
  refine ⟨hd, (hlaid.stays hedits.sound).sound, hcalm.trans hrest, hjoins.unused, ?_, ?_, ?_, ?_⟩
  · rw [hwindow, Tree.window?, hjoins.client, Option.map_some]
  · intro m hm
    rw [hwindow, Tree.window?_of_standing (hjoins.other m hm)]
  · exact ((hrest : Calm none _ _).focus r (by simp)).trans hfocus
  · intro w r' hw
    rw [hlaid.home?_eq hedits.sound] at hw
    have hmanages := Model.manages_of_home? hw
    by_cases heq : w = client.window
    · have hhomeless : s.model.home? w = none := by
        rw [Option.eq_none_iff_forall_ne_some]
        intro r'' hr''
        exact hnew (heq ▸ Model.manages_of_home? hr'')
      rw [hedits.home?_eq hu hmanages, hquiet.home?_eq hs hu, hhomeless, Option.getD_none] at hw
      exact .inl ⟨heq, (Option.some.inj hw).symm⟩
    · refine .inr ⟨heq, ?_⟩
      rwa [hedits.home?_old hu hmanages (by simpa using heq), hquiet.home?_eq hs hu] at hw

/-- From where the leaf is in the tree, mapping its window and placing it in the stack changes
nothing but the stack, and does not ask for the input focus. -/
theorem Takes.placed (h : s.Takes x w r d n) {y : Stage}
    (hy : y = (if x.model.isVisible r then x.request (.map w) else x).restack n true) :
    y.model.Sound ∧ y.model.tree = x.model.tree ∧ y.model.monitors = x.model.monitors ∧
      y.model.focusedMonitor = x.model.focusedMonitor ∧
      ∃ es, y.history = es ++ s.history ∧ ∀ e ∈ es, e.focuses? = none := by
  have hlive : (x.model.tree.client? n).isSome := by
    rw [← Model.isSome_window?, h.window, Option.isSome_some]
  obtain ⟨u, hu⟩ : ∃ u, u = if x.model.isVisible r then x.request (.map w) else x := ⟨_, rfl⟩
  have hmapped : u.model = x.model ∧
      ∃ es, u.history = es ++ x.history ∧ ∀ e ∈ es, e.focuses? = none := by
    rw [hu]
    split
    · exact ⟨rfl, [.request (.map w)], rfl, by simp [Effect.focuses?]⟩
    · exact ⟨rfl, [], rfl, by simp⟩
  obtain ⟨hmodel, hhistory⟩ := hmapped
  have hfields : (u.restack n true).model.tree = u.model.tree ∧
      (u.restack n true).model.monitors = u.model.monitors ∧
      (u.restack n true).model.focusedMonitor = u.model.focusedMonitor := ⟨rfl, rfl, rfl⟩
  rw [hy, ← hu, hfields.1, hfields.2.1, hfields.2.2, hmodel]
  refine ⟨sound_restack (hmodel ▸ h.sound) (hmodel ▸ hlive) true, rfl, rfl, rfl, ?_⟩
  apply history_trans h.calm.unfocused
  exact history_trans hhistory (Calm.restack u n true : Calm none u _).unfocused

/-- A window that is managed already, or is meant for a desktop that does not exist, is left
alone; one without a desktop is only mapped; any other one is taken in, mapped if its desktop is
shown, and gets the focus if it should and its desktop has it. -/
theorem manage_cases (hs : s.model.Sound) (w : Window) (named : WindowClass) (csq : Consequences) :
    ((s.model.Manages w ∨ ∃ r, s.targetDesktop? csq = some r ∧ s.model.desktop? r = none) ∧
        s.manage w named csq = (s, none)) ∨
      (¬ s.model.Manages w ∧ s.targetDesktop? csq = none ∧
        s.manage w named csq = (s.request (.map w), none)) ∨
      ∃ r d n x y, ¬ s.model.Manages w ∧ s.targetDesktop? csq = some r ∧ s.Takes x w r d n ∧
        y = (if x.model.isVisible r then x.request (.map w) else x).restack n true ∧
        s.manage w named csq = (if csq.focus && y.model.focusedDesktop? == some r
          then y.focusNode (some n) else y.publishReport, some n) := by
  unfold manage
  split
  · rename_i hold
    exact .inl ⟨.inl hold, rfl⟩
  rename_i hnew
  split
  · rename_i hnowhere
    exact .inr (.inl ⟨hnew, hnowhere, rfl⟩)
  rename_i r hr
  split
  · rename_i monitor d hmonitor hd
    right
    right
    exact ⟨r, d, _, _, _, hnew, hr,
      takes_insertClient hs hd (newClient w named csq monitor.rect) hnew csq _, rfl, rfl⟩
  · rename_i hnot
    refine .inl ⟨.inr ⟨r, hr, ?_⟩, rfl⟩
    rw [Option.eq_none_iff_forall_ne_some]
    intro d hd
    obtain ⟨monitor, hmonitor, -⟩ := Model.exists_of_desktop? hd
    exact hnot monitor d hmonitor hd

/-! ## A window that goes -/

/-- The leaf of the window is gone, and its desktop has been laid out. -/
structure Drops (s v : Stage) (w : Window) (r : DesktopRef) (d : Desktop) (n : NodeId) : Prop where
  window : s.model.tree.window? n = some w
  located : s.model.locate? n = some r
  desktop : s.model.desktop? r = some d
  sound : v.model.Sound
  calm : Calm (some r) s v
  other : ∀ m, m ≠ n → v.model.tree.window? m = s.model.tree.window? m
  /-- The focus stays where it is unless it was on the leaf. -/
  focus : d.focus ≠ some n → v.model.focus? r = d.focus
  /-- The windows that are left live where they did. -/
  home : ∀ w' r', v.model.home? w' = some r' → s.model.home? w' = some r'

theorem drops_removeClient (hs : s.model.Sound) (hw : s.model.tree.window? n = some w)
    (hlocate : s.model.locate? n = some r) (hd : s.model.desktop? r = some d) (ws : List Window) :
    s.Drops (((s.removeClient r d n).applyLayout r).request (.clientList ws)) w r d n := by
  have hn : (s.model.tree.client? n).isSome := by
    rw [← Model.isSome_window?, hw, Option.isSome_some]
  have hedits := edits_removeClient hs hn hlocate hd
  have hparts := parts_removeClient hs hn hlocate hd
  have hlaid : (s.removeClient r d n).Keeps
      (((s.removeClient r d n).applyLayout r).request (.clientList ws)) :=
    (Keeps.applyLayout _ r).trans (Keeps.emit _ _)
  have hrest {edited : Option DesktopRef} : Calm edited (s.removeClient r d n)
      (((s.removeClient r d n).applyLayout r).request (.clientList ws)) :=
    (Calm.applyLayout _ r).trans (Calm.request _ ⟨rfl, rfl⟩)
  refine ⟨hw, hlocate, hd, (hlaid.stays hedits.sound).sound,
    (Calm.removeClient s r d n).trans hrest, ?_, ?_, ?_⟩
  · intro m hm
    rw [Tree.window?_of_standing (hlaid.standing m), Tree.window?_of_standing (hparts.other m hm)]
  · intro hne
    rw [(hrest : Calm none _ _).focus r (by simp)]
    show ((Model.modifyDesktop _ r _).desktop? r).bind Desktop.focus = _
    rw [Model.desktop?_modifyDesktop]
    show ((s.model.desktop? r).map _).bind Desktop.focus = _
    rw [hd, Option.map_some, Option.bind_some]
    exact if_neg hne
  · intro w' r' hw'
    rw [hlaid.home?_eq hedits.sound] at hw'
    rwa [← hedits.home?_old hs (Model.manages_of_home? hw') (by simp)]

/-- A window that is not managed is left alone; any other one is let go of, and if it had the
input focus, the leaf gets it that its desktop has chosen. -/
theorem unmanage_cases (hs : s.model.Sound) (w : Window) :
    s.unmanage w = (s, false) ∨ ∃ r d n v, s.Drops v w r d n ∧
      s.unmanage w = (if d.focus = some n ∧ v.model.focusedDesktop? = some r
        then v.focusNode (v.model.focus? r) else v.publishReport, true) := by
  cases hn : s.model.tree.findWindow? w with
  | none => exact .inl (unmanage_of_unknown hn)
  | some n =>
    right
    have hw := Tree.window?_of_findWindow hn
    obtain ⟨r, d, hlocate, hd⟩ := locate_client hs (n := n)
      (by rw [← Model.isSome_window?, hw, Option.isSome_some])
    -- what is announced and destroyed first leaves the model alone
    have hfrom (u : Stage) (hu : u.model = s.model) (hcalm : Calm (some r) s u) :
        ∃ v, s.Drops v w r d n ∧ v = ((u.removeClient r d n).applyLayout r).request
          (.clientList (((u.removeClient r d n).applyLayout r).model.stack.windows
            ((u.removeClient r d n).applyLayout r).model.tree)) := by
      refine ⟨_, ?_, rfl⟩
      have hdrops := drops_removeClient (s := u) (hu ▸ hs) (hu ▸ hw) (hu ▸ hlocate) (hu ▸ hd)
        (((u.removeClient r d n).applyLayout r).model.stack.windows
          ((u.removeClient r d n).applyLayout r).model.tree)
      exact ⟨hw, hlocate, hd, hdrops.sound, hcalm.trans hdrops.calm, hu ▸ hdrops.other,
        hdrops.focus, hu ▸ hdrops.home⟩
    have hpair (c : Prop) [Decidable c] (x y : Stage) :
        (if c then (x, true) else (y, true)) = (if c then x else y, true) := by
      split <;> rfl
    have hannounced : Calm (some r) s (s.announceAt .nodeRemove r [Numeral.hex8 w]) :=
      Calm.announceAt s _ r _
    have hmodel : (s.announceAt .nodeRemove r [Numeral.hex8 w]).model = s.model := rfl
    unfold unmanage
    simp only [hn, hlocate]
    generalize s.announceAt .nodeRemove r [Numeral.hex8 w] = u at *
    cases (u.model.tree.get? n).bind Node.feedback? with
    | none =>
      obtain ⟨v, hdrops, hv⟩ := hfrom u hmodel hannounced
      have hdesktop : u.model.desktop? r = some d := hmodel ▸ hd
      simp only [hdesktop, ← hv, hpair]
      exact ⟨r, d, n, v, hdrops, rfl⟩
    | some feedback =>
      obtain ⟨v, hdrops, hv⟩ := hfrom (u.request (.destroy feedback)) hmodel
        (hannounced.trans (Calm.request u ⟨rfl, rfl⟩))
      have hdesktop : (u.request (.destroy feedback)).model.desktop? r = some d := by
        rw [request, model_emit, hmodel, hd]
      simp only [hdesktop, ← hv, hpair]
      exact ⟨r, d, n, v, hdrops, rfl⟩

end Tiling.Stage
