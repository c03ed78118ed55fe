import Tiling.Proofs.Model.Turnover
/-!
# Room for new windows

A new window goes to the desktop that its consequences name, or to the one that the focused
monitor shows.  As long as only desktops that exist are shown there is one, so a window that is
to be managed is always taken in.
-/

namespace Tiling

namespace Model

/-- The focused monitor shows a desktop. -/
def HasRoom (m : Model) : Prop := ∃ r, m.focusedDesktop? = some r ∧ (m.desktop? r).isSome

theorem HasRoom.congr {m m' : Model} (h : m.HasRoom) (hmonitors : m'.monitors = m.monitors)
    (hfocused : m'.focusedMonitor = m.focusedMonitor) : m'.HasRoom := by
  obtain ⟨r, hr, hd⟩ := h
  refine ⟨r, ?_, ?_⟩
  · rw [focusedDesktop?, hmonitors, hfocused, ← focusedDesktop?, hr]
  · rw [desktop?, monitor?, hmonitors, ← monitor?, ← desktop?, hd]

theorem isSome_desktop?_of_find {m : Model} {p : Desktop → Bool} {r : DesktopRef}
    (h : findDesktopFrom p 0 m.monitors = some r) : (m.desktop? r).isSome := by
  obtain ⟨d, hd, -⟩ := exists_of_findDesktopFrom h
  rw [hd, Option.isSome_some]

theorem isSome_desktop?_of_locate? {m : Model} {n : NodeId} {r : DesktopRef}
    (h : m.locate? n = some r) : (m.desktop? r).isSome := by
  obtain ⟨root, -, hfind⟩ := Option.bind_eq_some_iff.1 h
  exact isSome_desktop?_of_find hfind

theorem hasRoom_fresh {outputs : List (String × Rect)} {names : List String}
    (houtputs : outputs ≠ []) (hnames : names ≠ []) : (fresh outputs names).HasRoom := by
  have hadded (rest : List (String × Rect)) (m : Model) :
      (rest.foldl (addMonitor names) m).focusedMonitor = m.focusedMonitor ∧
        m.monitors <+: (rest.foldl (addMonitor names) m).monitors := by
    induction rest generalizing m with
    | nil => exact ⟨rfl, List.prefix_rfl⟩
    | cons output rest ih =>
      obtain ⟨hfocused, hprefix⟩ := ih (addMonitor names m output)
      exact ⟨hfocused, (List.prefix_append _ _).trans hprefix⟩
  obtain ⟨output, rest, rfl⟩ := List.exists_cons_of_ne_nil houtputs
  obtain ⟨name, others, rfl⟩ := List.exists_cons_of_ne_nil hnames
  obtain ⟨hfocused, hprefix⟩ :=
    hadded rest (addMonitor (name :: others) ⟨[], 0, Tree.empty, Stack.empty, firstId⟩ output)
  have hfirst : (fresh (output :: rest) (name :: others)).monitors[0]? =
      some (freshMonitor firstId output.1 output.2 (name :: others)) := by
    obtain ⟨added, hmonitors⟩ := hprefix
    rw [fresh, List.foldl_cons, ← hmonitors]
    rfl
  have hzero : (fresh (output :: rest) (name :: others)).focusedMonitor = 0 := hfocused
  refine ⟨⟨0, 0⟩, ?_, ?_⟩
  · rw [focusedDesktop?, hzero, hfirst]
    simp [freshMonitor]
  · rw [desktop?, monitor?, hfirst]
    simp [freshMonitor]

end Model

namespace Stage

variable {s s' : Stage}

theorem Calm.hasRoom {edited : Option DesktopRef} (h : Calm edited s s') (hs : s.model.HasRoom) :
    s'.model.HasRoom := by
  obtain ⟨r, hr, hd⟩ := hs
  exact ⟨r, h.focusedDesktop?.trans hr, (h.desktop r).trans hd⟩

theorem hasRoom_showDesktop {r : DesktopRef} (h : (s.model.desktop? r).isSome) :
    (s.showDesktop r).model.HasRoom := by
  obtain ⟨d, hd⟩ := Option.isSome_iff_exists.1 h
  obtain ⟨monitor, hmonitor, -⟩ := Model.exists_of_desktop? hd
  refine ⟨r, focusedDesktop?_showDesktop hmonitor, ?_⟩
  rw [(Keeps.showDesktop s r).desktop?, h]

theorem hasRoom_focusNode (h : s.model.HasRoom) (n : Option NodeId) :
    (s.focusNode n).model.HasRoom := by
  cases n with
  | none => exact h
  | some n =>
    cases hlocate : s.model.locate? n with
    | none =>
      have hsame : s.focusNode (some n) = s := by simp only [focusNode, hlocate]
      rwa [hsame]
    | some r =>
      have hshown : (if s.model.focusedDesktop? = some r then s
          else s.showDesktop r).model.HasRoom := by
        split
        · exact h
        · exact hasRoom_showDesktop (Model.isSome_desktop?_of_locate? hlocate)
      have hchosen : (s.choose r n).model.HasRoom :=
        (Calm.modifyDesktop _ rfl rfl r _).hasRoom hshown
      exact (Calm.focusNode hlocate : Calm none _ _).hasRoom hchosen

theorem hasRoom_manage (hs : s.model.Sound) (h : s.model.HasRoom) (w : Window)
    (named : WindowClass) (csq : Consequences) : (s.manage w named csq).1.model.HasRoom := by
  rcases manage_cases hs w named csq with
    ⟨-, hsame⟩ | ⟨-, -, hmap⟩ | ⟨r, d, n, x, y, -, -, htakes, hy, heq⟩
  · rwa [hsame]
  · rw [hmap]
    exact h
  · obtain ⟨-, -, hmonitors, hfocused, -⟩ := htakes.placed hy
    have hyroom := (htakes.calm.hasRoom h).congr hmonitors hfocused
    rw [heq]
    dsimp only
    split
    · exact hasRoom_focusNode hyroom _
    · exact hyroom

theorem hasRoom_unmanage (hs : s.model.Sound) (h : s.model.HasRoom) (w : Window) :
    (s.unmanage w).1.model.HasRoom := by
  rcases unmanage_cases hs w with hsame | ⟨r, d, n, v, hdrops, heq⟩
  · rwa [hsame]
  · have hvroom := hdrops.calm.hasRoom h
    rw [heq]
    dsimp only
    split
    · exact hasRoom_focusNode hvroom _
    · exact hvroom

/-- Where there is room, a new window is managed unless it is not meant to be. -/
theorem manages_manage_iff (hs : s.model.Sound) (h : s.model.HasRoom) (w : Window)
    (named : WindowClass) (csq : Consequences) (v : Window) :
    (s.manage w named csq).1.model.Manages v ↔
      s.model.Manages v ∨ (v = w ∧ csq.manage = true) := by
  have htarget : csq.manage = true →
      ∃ r, s.targetDesktop? csq = some r ∧ (s.model.desktop? r).isSome := by
    intro hmanage
    cases hnamed : csq.desktop.bind s.model.findDesktop? with
    | none =>
      obtain ⟨r, hr, hd⟩ := h
      exact ⟨r, by simp [targetDesktop?, hnamed, hr, hmanage], hd⟩
    | some r =>
      obtain ⟨name, -, hfind⟩ := Option.bind_eq_some_iff.1 hnamed
      exact ⟨r, by simp [targetDesktop?, hnamed, hmanage], Model.isSome_desktop?_of_find hfind⟩
  rcases manage_cases hs w named csq with
    ⟨hold, hsame⟩ | ⟨-, hnowhere, hmap⟩ | ⟨r, d, n, x, y, -, hr, -, -, heq⟩
  · rw [hsame]
    refine (or_iff_left_of_imp ?_).symm
    rintro ⟨rfl, hmanage⟩
    rcases hold with hold | ⟨r, hr, hnone⟩
    · exact hold
    · obtain ⟨r', hr', hd⟩ := htarget hmanage
      obtain rfl := Option.some.inj (hr'.symm.trans hr)
      rw [hnone] at hd
      cases hd
  · rw [hmap]
    refine (or_iff_left_of_imp ?_).symm
    rintro ⟨-, hmanage⟩
    obtain ⟨r, hr, -⟩ := htarget hmanage
    rw [hnowhere] at hr
    cases hr
  · have hmanage : csq.manage = true := by
      have hfilter : ((csq.desktop.bind s.model.findDesktop?).or s.model.focusedDesktop?).filter
          (fun _ => csq.manage) = some r := hr
      exact (Option.filter_eq_some_iff.1 hfilter).2
    have hadmits := admits_manage hs w named csq
    rw [hadmits.manages_iff v, heq]
    simp [hmanage]

end Stage

end Tiling
