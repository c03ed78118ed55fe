import Mathlib.Data.Finset.Basic
import Tiling.Proofs.Model.Turnover
/-!
# Mapped windows

The display is asked to map and to unmap windows one by one.  The account of these requests is a
set: a window that is mapped comes in, one that is unmapped goes out, and so does one that is
let go of.  It holds the windows of the shown desktops, and besides them only windows that were
turned away and so just mapped; these stay in it until they are let go of or taken from the
screen.
-/

namespace Tiling

/-- What an effect makes of the set of mapped windows. -/
def Effect.remap (e : Effect) (mapped : Finset Window) : Finset Window :=
  match e with
  | .request (.map w) => insert w mapped
  | .request (.unmap w) => mapped.erase w
  | _ => mapped

theorem Effect.remap_of_isMapping {e : Effect} (h : e.isMapping = false)
    (mapped : Finset Window) : e.remap mapped = mapped := by
  cases e with
  | message m => rfl
  | request r =>
    cases r with
    | map w => cases h
    | unmap w => cases h
    | _ => rfl

theorem foldr_remap_filter (es : List Effect) (mapped : Finset Window) :
    (es.filter Effect.isMapping).foldr Effect.remap mapped = es.foldr Effect.remap mapped := by
  induction es with
  | nil => rfl
  | cons e es ih =>
    rw [List.filter_cons, List.foldr_cons, ← ih]
    split
    · rfl
    · rename_i hmapping
      rw [Effect.remap_of_isMapping (Bool.not_eq_true _ ▸ hmapping)]

/-- Mapping or unmapping some windows settles which of them are mapped. -/
theorem mem_foldr_remap (ws : List Window) (value : Bool) (mapped : Finset Window) (w : Window) :
    w ∈ (Stage.mappings value ws).foldr Effect.remap mapped ↔
      if w ∈ ws then value = true else w ∈ mapped := by
  induction ws with
  | nil => simp [Stage.mappings]
  | cons v ws ih =>
    rw [Stage.mappings, List.map_cons, List.foldr_cons, ← Stage.mappings]
    cases value with
    | true =>
      show w ∈ insert v _ ↔ _
      rw [Finset.mem_insert, ih]
      by_cases hv : w = v
      · simp [hv]
      · simp [hv]
    | false =>
      show w ∈ Finset.erase _ v ↔ _
      rw [Finset.mem_erase, ih]
      by_cases hv : w = v
      · simp [hv]
      · simp [hv]

namespace Model

/-- The window lives on a desktop that its monitor shows. -/
def shows (m : Model) (w : Window) : Bool := (m.home? w).any m.isVisible

theorem shows_of_home? {m : Model} {w : Window} {r : DesktopRef} (h : m.home? w = some r) :
    m.shows w = m.isVisible r := by
  rw [shows, h, Option.any_some]

theorem shows_of_not_manages {m : Model} {w : Window} (h : ¬ m.Manages w) : m.shows w = false := by
  rw [shows, home?_of_not_manages h, Option.any_none]

theorem manages_of_shows {m : Model} {w : Window} (h : m.shows w = true) : m.Manages w := by
  by_contra hnot
  rw [shows_of_not_manages hnot] at h
  cases h

theorem shows_congr {m m' : Model} {w : Window} (hshown : m'.shown = m.shown)
    (hhome : m'.home? w = m.home? w) : m'.shows w = m.shows w := by
  rw [shows, hhome, funext (isVisible_congr hshown), shows]

theorem isVisible_activate {m : Model} {r : DesktopRef} {monitor : Monitor}
    (h : m.monitor? r = some monitor) (r' : DesktopRef) :
    (m.activate r).isVisible r' =
      if r'.monitor = r.monitor then r'.desktop == r.desktop else m.isVisible r' := by
  simp only [isVisible, monitor?, activate, List.getElem?_modify] at h ⊢
  by_cases hsame : r'.monitor = r.monitor
  · rw [if_pos hsame, hsame, h]
    simp [eq_comm]
  · rw [if_neg hsame]
    cases m.monitors[r'.monitor]? with
    | none => rfl
    | some other =>
      have hne : r.monitor ≠ r'.monitor := fun heq => hsame heq.symm
      simp [hne]

end Model

namespace Stage

variable {s s' s'' : Stage} {ws : List Window} {r : DesktopRef} {n : NodeId}

/-! ## Steps that show no other desktop -/

/-- From `s` to `s'` the same desktops are shown, these windows are mapped, and none is
unmapped. -/
structure Lights (s s' : Stage) (ws : List Window) : Prop where
  shown : s'.model.shown = s.model.shown
  history : ∃ es, s'.history = es ++ s.history ∧ es.filter Effect.isMapping = mappings true ws

namespace Lights

theorem of_same (hshown : s'.model.shown = s.model.shown) (hhistory : s'.history = s.history) :
    s.Lights s' [] := ⟨hshown, [], hhistory, rfl⟩

theorem refl (s : Stage) : s.Lights s [] := of_same rfl rfl

theorem trans {ws' : List Window} (h : s.Lights s' ws) (h' : s'.Lights s'' ws') :
    s.Lights s'' (ws' ++ ws) where
  shown := h'.shown.trans h.shown
  history := by
    obtain ⟨es, hes, hmapped⟩ := h.history
    obtain ⟨es', hes', hmapped'⟩ := h'.history
    refine ⟨es' ++ es, by rw [hes', hes, List.append_assoc], ?_⟩
    rw [List.filter_append, hmapped, hmapped', mappings, mappings, mappings, List.map_append]

theorem before (h : s.Lights s' []) (h' : s'.Lights s'' ws) : s.Lights s'' ws :=
  List.append_nil ws ▸ h.trans h'

theorem of_calm {edited : Option DesktopRef} (h : Calm edited s s') : s.Lights s' [] := by
  obtain ⟨es, hes, hdiscreet⟩ := h.history
  refine ⟨h.shown, es, hes, ?_⟩
  rw [mappings, List.map_nil, List.filter_eq_nil_iff]
  intro e he
  rw [(hdiscreet e he).1]
  exact Bool.false_ne_true

theorem request (s : Stage) {x : Request} (h : (Effect.request x).isMapping = false) :
    s.Lights (s.request x) [] :=
  ⟨rfl, [_], rfl, by rw [List.filter_cons, if_neg (by rw [h]; exact Bool.false_ne_true)]; rfl⟩

theorem map (s : Stage) (w : Window) : s.Lights (s.request (.map w)) [w] := ⟨rfl, [_], rfl, rfl⟩

theorem publishReport (s : Stage) : s.Lights s.publishReport [] :=
  of_calm (Calm.publishReport s : Calm none s _)

/-- A leaf is chosen once its desktop is shown. -/
theorem choose (s : Stage) (r : DesktopRef) (n : NodeId) :
    (if s.model.focusedDesktop? = some r then s else s.showDesktop r).Lights (s.choose r n) [] := by
  have hset (u : Stage) : u.Lights
      (u.withModel (u.model.modifyDesktop r fun d => { d with focus := some n })) [] :=
    of_same (Model.shown_modifyDesktop u.model r _) rfl
  exact (hset _).trans (request _ rfl)

/-- A leaf that is given the focus where it is already shows no other desktop. -/
theorem focusNode (hlocate : s.model.locate? n = some r)
    (hfocused : s.model.focusedDesktop? = some r) : s.Lights (s.focusNode (some n)) [] := by
  have hchosen := choose s r n
  rw [if_pos hfocused] at hchosen
  exact hchosen.trans (of_calm (Calm.focusNode hlocate : Calm none _ _))

theorem clearFocus (s : Stage) : s.Lights (s.focusNode none) [] :=
  (request s rfl).trans (publishReport _)

theorem unmanage (hs : s.model.Sound) (w : Window) : s.Lights (s.unmanage w).1 [] := by
  rcases unmanage_cases hs w with hsame | ⟨r, d, n, v, hdrops, heq⟩
  · rw [hsame]
    exact refl s
  rw [heq]
  apply (of_calm hdrops.calm).before
  dsimp only
  split
  · rename_i hcase
    cases hfocus : v.model.focus? r with
    | none => exact clearFocus v
    | some f =>
      -- the leaf has the focus of the focused desktop, so that is where it is found
      have hlive := Model.isSome_client?_of_focus hdrops.sound hfocus
      obtain ⟨home, d', hlocate, hd'⟩ := locate_client hdrops.sound hlive
      have hnode : v.model.focusedNode? = some f := by
        rw [Model.focusedNode?, hcase.2, Option.bind_some, hfocus]
      exact focusNode hlocate ((Model.focused_iff hdrops.sound hlocate hd').1 hnode).2
  · exact publishReport v

end Lights

/-- The operation finds no desktop for the window, which is then only mapped. -/
def TurnsAway (s : Stage) (op : Operation) (w : Window) : Prop :=
  ∃ named csq, op = .manage w named csq ∧ ¬ s.model.Manages w ∧ s.targetDesktop? csq = none

/-- The window of a leaf that is taken in is the only new one that may be shown. -/
theorem Takes.newly_shown_iff {x y : Stage} {w : Window} {d : Desktop} (h : s.Takes x w r d n)
    (hnew : ¬ s.model.Manages w) (hshown : y.model.shown = x.model.shown)
    (hhome : ∀ v, y.model.home? v = x.model.home? v) (v : Window) :
    (¬ s.model.Manages v ∧ y.model.shows v = true) ↔ v = w ∧ x.model.isVisible r = true := by
  rw [Model.shows_congr hshown (hhome v)]
  obtain ⟨home, hw⟩ := Model.exists_home? h.sound (Model.manages_iff.2 ⟨n, h.window⟩)
  obtain rfl : home = r := by
    rcases h.home w home hw with ⟨-, heq⟩ | ⟨hne, -⟩
    · exact heq
    · exact absurd rfl hne
  constructor
  · rintro ⟨hv, hshows⟩
    obtain ⟨r', hr'⟩ := Model.exists_home? h.sound (Model.manages_of_shows hshows)
    rw [Model.shows_of_home? hr'] at hshows
    rcases h.home v r' hr' with ⟨rfl, rfl⟩ | ⟨-, hold⟩
    · exact ⟨rfl, hshows⟩
    · exact absurd (Model.manages_of_home? hold) hv
  · rintro ⟨rfl, hvisible⟩
    exact ⟨hnew, by rw [Model.shows_of_home? hw, hvisible]⟩

theorem Takes.lights {x y : Stage} {w : Window} {d : Desktop} (h : s.Takes x w r d n)
    (hy : y = (if x.model.isVisible r then x.request (.map w) else x).restack n true) :
    s.Lights y (if x.model.isVisible r then [w] else []) := by
  have hplaced (u : Stage) : u.Lights (u.restack n true) [] :=
    Lights.of_calm (Calm.restack u n true : Calm none _ _)
  rw [hy]
  by_cases hvisible : x.model.isVisible r = true
  · rw [if_pos hvisible, if_pos hvisible]
    exact ((Lights.of_calm h.calm).trans (Lights.map x w)).trans (hplaced _)
  · rw [if_neg hvisible, if_neg hvisible]
    exact (Lights.of_calm h.calm).trans (hplaced x)

/-- Managing a window maps it if it is turned away, and if it is taken in and its desktop is
shown. -/
theorem lights_manage (hs : s.model.Sound) (w : Window) (named : WindowClass) (csq : Consequences) :
    ∃ ws, s.Lights (s.manage w named csq).1 ws ∧ ∀ v, v ∈ ws ↔
      s.TurnsAway (.manage w named csq) v ∨
        (¬ s.model.Manages v ∧ (s.manage w named csq).1.model.shows v = true) := by
  rcases manage_cases hs w named csq with
    ⟨hold, hsame⟩ | ⟨hnew, hnowhere, hmap⟩ | ⟨r, d, n, x, y, hnew, hr, htakes, hy, heq⟩
  · rw [hsame]
    refine ⟨[], Lights.refl s, fun v => iff_of_false List.not_mem_nil ?_⟩
    rintro (⟨_, _, hop, hv, hnowhere⟩ | ⟨hv, hshows⟩)
    · obtain ⟨rfl, rfl, rfl⟩ := Operation.manage.inj hop
      rcases hold with hold | ⟨r, hr, -⟩
      · exact hv hold
      · rw [hnowhere] at hr
        cases hr
    · exact hv (Model.manages_of_shows hshows)
  · rw [hmap]
    refine ⟨[w], Lights.map s w, fun v => ?_⟩
    rw [List.mem_singleton]
    constructor
    · rintro rfl
      exact .inl ⟨named, csq, rfl, hnew, hnowhere⟩
    · rintro (⟨_, _, hop, -, -⟩ | ⟨hv, hshows⟩)
      · exact (Operation.manage.inj hop).1.symm
      · exact absurd (Model.manages_of_shows hshows) hv
  · obtain ⟨hsound, htree, hmonitors, -, -⟩ := htakes.placed hy
    have hlocate : y.model.locate? = x.model.locate? := by
      funext m
      rw [Model.locate?, Model.locate?, htree, hmonitors]
    -- the focus is given, if at all, where it is already
    have hlast : y.Lights (s.manage w named csq).1 [] ∧
        ∀ v, (s.manage w named csq).1.model.home? v = y.model.home? v := by
      rw [heq]
      dsimp only
      split
      · rename_i hcase
        have hlive : (y.model.tree.client? n).isSome := by
          rw [htree, ← Model.isSome_window?, htakes.window, Option.isSome_some]
        exact ⟨Lights.focusNode (hlocate ▸ htakes.located)
          (beq_iff_eq.1 (Bool.and_eq_true_iff.1 hcase).2), home?_focusNode hsound hlive⟩
      · exact ⟨Lights.publishReport y, fun _ => rfl⟩
    have hhome (v : Window) : (s.manage w named csq).1.model.home? v = x.model.home? v := by
      rw [hlast.2, Model.home?, Model.home?, htree, hlocate]
    have hshown : (s.manage w named csq).1.model.shown = x.model.shown :=
      hlast.1.shown.trans (by rw [Model.shown, hmonitors, Model.shown])
    refine ⟨_, (htakes.lights hy).trans hlast.1, fun v => ?_⟩
    rw [htakes.newly_shown_iff hnew hshown hhome, or_iff_right]
    · by_cases hvisible : x.model.isVisible r = true <;> simp [hvisible]
    · rintro ⟨_, _, hop, -, hnowhere⟩
      obtain ⟨-, -, rfl⟩ := Operation.manage.inj hop
      rw [hnowhere] at hr
      cases hr

/-! ## Showing a desktop -/

theorem history_setMapped (hs : s.model.Sound) (r : DesktopRef) (value : Bool) :
    ∃ ws, (s.setMapped r value).history = mappings value ws ++ s.history ∧
      ∀ w, w ∈ ws ↔ s.model.home? w = some r := by
  obtain ⟨shapes, h⟩ := hs
  refine ⟨(((s.model.desktop? r).toList.flatMap s.model.clientsOf).map Client.window).reverse, ?_,
    fun w => ?_⟩
  · rw [setMapped_eq, emit, mappings, ← List.map_reverse, ← mappings]
  · rw [List.mem_reverse]
    cases hd : s.model.desktop? r with
    | none =>
      have hroot : s.model.root? r = none := by rw [Model.root?, hd, Option.bind_none]
      exact iff_of_false (by simp) (h.home?_ne_of_root?_none hroot)
    | some d =>
      simpa using h.mem_clientsOf hd

theorem Model.isVisible_of_monitor? {m : Model} {r r' : DesktopRef} {monitor : Monitor}
    (h : m.monitor? r = some monitor) (hsame : r'.monitor = r.monitor) :
    m.isVisible r' = (monitor.active == some r'.desktop) := by
  rw [Model.isVisible, Model.monitor?, hsame, ← Model.monitor?, h, Option.any_some]

/-- From `s` to `s'` a desktop is shown in place of the one that its monitor showed: the windows
of that one are unmapped, and those of the new one are mapped. -/
structure Switches (s s' : Stage) (r : DesktopRef) : Prop where
  visible : ∀ r', s'.model.isVisible r' =
    if r'.monitor = r.monitor then r'.desktop == r.desktop else s.model.isVisible r'
  history : ∃ es, s'.history = es ++ s.history ∧ ∀ mapped w,
    w ∈ es.foldr Effect.remap mapped ↔ s.model.home? w = some r ∨ (w ∈ mapped ∧
      ∀ r', s.model.home? w = some r' → r'.monitor = r.monitor → s.model.isVisible r' = false)

theorem Lights.foldr_eq {es : List Effect} (h : es.filter Effect.isMapping = mappings true ws)
    (mapped : Finset Window) (w : Window) :
    w ∈ es.foldr Effect.remap mapped ↔ w ∈ ws ∨ w ∈ mapped := by
  rw [← foldr_remap_filter, h, mem_foldr_remap]
  by_cases hw : w ∈ ws
  · simp [hw]
  · simp [hw]

theorem Switches.lights (h : s.Switches s' r) (h' : s'.Lights s'' []) : s.Switches s'' r where
  visible r' := by rw [Model.isVisible_congr h'.shown, h.visible]
  history := by
    obtain ⟨es, hes, hmem⟩ := h.history
    obtain ⟨es', hes', hnone⟩ := h'.history
    refine ⟨es' ++ es, by rw [hes', hes, List.append_assoc], fun mapped w => ?_⟩
    rw [List.foldr_append, Lights.foldr_eq hnone, hmem]
    simp

/-- The desktop that was shown, if any, is unmapped first. -/
theorem history_cover (hs : s.model.Sound) {monitor : Monitor}
    (hmonitor : s.model.monitor? r = some monitor) {u : Stage}
    (hu : u = match monitor.active with
      | some old => s.setMapped ⟨r.monitor, old⟩ false
      | none => s) :
    ∃ ws, u.history = mappings false ws ++ s.history ∧ ∀ w, w ∈ ws ↔
      ∃ r', s.model.home? w = some r' ∧ r'.monitor = r.monitor ∧ s.model.isVisible r' = true := by
  cases hactive : monitor.active with
  | none =>
    rw [hactive] at hu
    refine ⟨[], by rw [hu]; rfl, fun w => iff_of_false List.not_mem_nil ?_⟩
    rintro ⟨r', -, hsame, hvisible⟩
    rw [Model.isVisible_of_monitor? hmonitor hsame, hactive] at hvisible
    cases hvisible
  | some old =>
    rw [hactive] at hu
    obtain ⟨ws, hws, hmem⟩ := history_setMapped hs ⟨r.monitor, old⟩ false
    refine ⟨ws, by rw [hu, hws], fun w => ?_⟩
    rw [hmem]
    constructor
    · intro hhome
      have hvisible : s.model.isVisible ⟨r.monitor, old⟩ = _ :=
        Model.isVisible_of_monitor? hmonitor rfl
      exact ⟨_, hhome, rfl, by rw [hvisible, hactive, beq_self_eq_true]⟩
    · rintro ⟨r', hhome, hsame, hvisible⟩
      rw [Model.isVisible_of_monitor? hmonitor hsame, hactive, beq_iff_eq] at hvisible
      rw [hhome, ← hsame, Option.some.inj hvisible]

theorem switches_switchTo (hs : s.model.Sound) {monitor : Monitor}
    (hmonitor : s.model.monitor? r = some monitor) :
    s.Switches (s.switchTo r monitor.active) r := by
  obtain ⟨u, hu⟩ : ∃ u, u = match monitor.active with
    | some old => s.setMapped ⟨r.monitor, old⟩ false
    | none => s := ⟨_, rfl⟩
  have hmodel : u.model = s.model := by
    rw [hu]
    split
    · exact model_setMapped s _ false
    · rfl
  obtain ⟨ws, hws, hcovered⟩ := history_cover hs hmonitor hu
  have hkeeps : s.Keeps (u.withModel (u.model.activate r)) := by
    refine Keeps.trans ?_ (Keeps.activate u r)
    rw [hu]
    split
    · exact Keeps.of_stroke rfl (.map _ false)
    · exact Keeps.refl s
  obtain ⟨ws', hws', hmem⟩ := history_setMapped (hkeeps.stays hs).sound r true
  have hswitch : s.switchTo r monitor.active = ((u.withModel (u.model.activate r)).setMapped r
      true).announceAt .desktopActivate r [] := by
    rw [hu]
    rfl
  have hmapped : s.Switches ((u.withModel (u.model.activate r)).setMapped r true) r := by
    refine ⟨fun r' => ?_, mappings true ws' ++ mappings false ws, ?_, fun mapped w => ?_⟩
    · rw [model_setMapped, model_withModel, hmodel, Model.isVisible_activate hmonitor]
    · rw [hws', List.append_assoc, ← hws]
      rfl
    · simp only [List.foldr_append, mem_foldr_remap, hmem, hkeeps.home?_eq hs, hcovered]
      by_cases hhome : s.model.home? w = some r
      · simp [hhome]
      · simp [hhome, and_comm]
  rw [hswitch]
  exact hmapped.lights (Lights.of_calm (Calm.announceAt _ _ r [] : Calm none _ _))

theorem lights_or_switches_showDesktop (hs : s.model.Sound) (r : DesktopRef) :
    s.Lights (s.showDesktop r) [] ∨ s.Switches (s.showDesktop r) r := by
  have hlast (u : Stage) (id : UInt32) : u.Lights
      ((if u.model.focusedMonitor = r.monitor then u
        else (u.withModel { u.model with focusedMonitor := r.monitor }).announce .monitorFocus
          [Numeral.hex8 id]).announceAt .desktopFocus r []) [] := by
    have hannounced (v : Stage) : v.Lights (v.announceAt .desktopFocus r []) [] :=
      Lights.of_calm (Calm.announceAt v _ r [] : Calm none _ _)
    split
    · exact hannounced u
    · refine Lights.trans ?_ (hannounced _)
      exact ⟨rfl, [_], rfl, rfl⟩
  unfold showDesktop
  cases hmonitor : s.model.monitor? r with
  | none => exact .inl (Lights.refl s)
  | some monitor =>
    dsimp only
    split
    · exact .inl (hlast s monitor.id)
    · exact .inr ((switches_switchTo hs hmonitor).lights (hlast _ monitor.id))

/-! ## Operations -/

theorem lights_or_switches_focusNode (hs : s.model.Sound)
    (hn : (s.model.tree.client? n).isSome) :
    s.Lights (s.focusNode (some n)) [] ∨ ∃ r, s.Switches (s.focusNode (some n)) r := by
  obtain ⟨r, -, hlocate, -⟩ := locate_client hs hn
  by_cases hfocused : s.model.focusedDesktop? = some r
  · exact .inl (Lights.focusNode hlocate hfocused)
  have hchosen := Lights.choose s r n
  rw [if_neg hfocused] at hchosen
  have hrest : (s.showDesktop r).Lights (s.focusNode (some n)) [] :=
    hchosen.trans (Lights.of_calm (Calm.focusNode hlocate : Calm none _ _))
  rcases lights_or_switches_showDesktop hs r with hshown | hshown
  · exact .inl (hshown.trans hrest)
  · exact .inr ⟨r, hshown.lights hrest⟩

theorem lights_or_switches_focusDesktop (hs : s.model.Sound) (r : DesktopRef) :
    s.Lights (s.focusDesktop r) [] ∨ s.Switches (s.focusDesktop r) r := by
  have hrest : (s.showDesktop r).Lights (s.focusDesktop r) [] :=
    (Lights.request _ rfl).trans (Lights.publishReport _)
  rcases lights_or_switches_showDesktop hs r with hshown | hshown
  · exact .inl (hshown.trans hrest)
  · exact .inr (hshown.lights hrest)

/-- The windows that an operation maps, if it maps none but those it turns away and those it
takes in on a shown desktop. -/
def MapsNew (s : Stage) (op : Operation) : Prop :=
  ∃ ws, s.Lights (s.perform op) ws ∧ ∀ w, w ∈ ws ↔ s.TurnsAway op w ∨
    (¬ s.model.Manages w ∧ (s.perform op).model.shows w = true)

theorem Lights.mapsNew {op : Operation} (h : s.Lights (s.perform op) [])
    (hop : ∀ w named csq, op ≠ .manage w named csq)
    (hmanages : ∀ w, (s.perform op).model.Manages w → s.model.Manages w) : s.MapsNew op := by
  refine ⟨[], h, fun w => iff_of_false List.not_mem_nil ?_⟩
  rintro (⟨named, csq, heq, -⟩ | ⟨hw, hshows⟩)
  · exact hop w named csq heq
  · exact hw (hmanages w (Model.manages_of_shows hshows))

/-- An operation maps no windows but new ones, or it shows another desktop and keeps the
windows. -/
theorem mapsNew_or_switches (hs : s.model.Sound) (op : Operation) :
    s.MapsNew op ∨ (op.keepsWindows = true ∧ ∃ r, s.Switches (s.perform op) r) := by
  have hkept {op : Operation} (hop : op.keepsWindows = true)
      (h : s.Lights (s.perform op) []) : s.MapsNew op := by
    refine h.mapsNew (fun w named csq heq => ?_) fun w => (manages_perform_iff hs hop w).1
    rw [heq] at hop
    cases hop
  cases op with
  | manage w named csq => exact .inl (lights_manage hs w named csq)
  | unmanage w =>
    exact .inl ((Lights.unmanage hs w).mapsNew (fun _ _ _ => nofun)
      fun v hv => ((manages_unmanage_iff hs w v).1 hv).1)
  | focus target =>
    cases hn : target.node? s.model with
    | none =>
      have hsame : s.perform (.focus target) = s := by simp only [perform, onTarget, hn]
      exact .inl (hkept rfl (hsame.symm ▸ Lights.refl s))
    | some n =>
      have hfocus : s.perform (.focus target) = s.focusNode (some n) := by
        simp only [perform, onTarget, hn]
      have hstep := lights_or_switches_focusNode hs (target.isSome_client? hs hn)
      rw [← hfocus] at hstep
      exact hstep.imp (hkept rfl) fun hswitches => ⟨rfl, hswitches⟩
  | focusDesktop r =>
    exact (lights_or_switches_focusDesktop hs r).imp (hkept rfl) fun hswitches =>
      ⟨rfl, r, hswitches⟩
  | clearFocus => exact .inl (hkept rfl (Lights.clearFocus s))
  | settings new => exact .inl (hkept rfl (Lights.of_same rfl rfl))
  | setState | setLayer | setFlag | presel | configure | setUrgency | setLayout =>
    exact .inl (hkept rfl (Lights.of_calm (calm_perform s rfl)))

/-- The windows that are mapped after an operation. -/
def track (s : Stage) (op : Operation) (mapped : Finset Window) : Finset Window :=
  let mapped := (s.since (s.perform op)).foldl (fun mapped e => e.remap mapped) mapped
  match op with
  | .unmanage w => mapped.erase w
  | _ => mapped

theorem mem_track_iff {op : Operation} {es : List Effect}
    (h : (s.perform op).history = es ++ s.history) (mapped : Finset Window) (w : Window) :
    w ∈ s.track op mapped ↔ op ≠ .unmanage w ∧ w ∈ es.foldr Effect.remap mapped := by
  have hfold : (s.since (s.perform op)).foldl (fun mapped e => e.remap mapped) mapped =
      es.foldr Effect.remap mapped := by
    rw [since_eq h, List.foldl_reverse]
  unfold track
  rw [hfold]
  split
  · rename_i v
    rw [Finset.mem_erase]
    exact and_congr_left' ⟨fun hne heq => hne (Operation.unmanage.inj heq).symm,
      fun hne heq => hne (heq ▸ rfl)⟩
  · rename_i hop
    exact (and_iff_right (hop w)).symm

/-- A window that is managed before and after an operation stays on its desktop. -/
theorem home?_perform (hs : s.model.Sound) (op : Operation) {w : Window} (hw : s.model.Manages w)
    (hw' : (s.perform op).model.Manages w) :
    (s.perform op).model.home? w = s.model.home? w := by
  by_cases htaken : w ∈ op.taken
  · cases op with
    | manage v named csq =>
      obtain rfl := List.mem_singleton.1 htaken
      have hsame : s.manage w named csq = (s, none) := by
        unfold manage
        exact if_pos hw
      rw [perform, hsame]
    | _ => cases htaken
  · exact (steps_perform hs op).home?_eq (perform_spec hs op).1 hw' htaken

/-- When another desktop is shown, just the windows that are shown before or afterwards change. -/
theorem Switches.follows (h : s.Switches s' r) :
    ∃ es, s'.history = es ++ s.history ∧ ∀ mapped w, (s.model.shows w = true → w ∈ mapped) →
      s'.model.home? w = s.model.home? w → (w ∈ es.foldr Effect.remap mapped ↔
        s'.model.shows w = true ∨ (s.model.shows w = false ∧ w ∈ mapped)) := by
  obtain ⟨es, hes, hmem⟩ := h.history
  refine ⟨es, hes, fun mapped w hmapped hhome => ?_⟩
  rw [hmem, Model.shows, Model.shows, hhome]
  rw [Model.shows] at hmapped
  cases hw : s.model.home? w with
  | none => simp
  | some r' =>
    rw [hw, Option.any_some] at hmapped
    rw [Option.any_some, Option.any_some, h.visible]
    by_cases hsame : r'.monitor = r.monitor
    · have heq : r' = r ↔ r'.desktop = r.desktop := by
        cases r
        cases r'
        simp_all
      simp [hsame, heq, and_comm]
    · have hne : r' ≠ r := fun heq => hsame (congrArg DesktopRef.monitor heq)
      cases hvisible : s.model.isVisible r' with
      | true => simp [hsame, hne, hmapped hvisible]
      | false => simp [hsame, hne]

/-- If the windows that are shown are on the account before an operation, then it has afterwards
the windows that are shown, one that is turned away, and those it had that are neither let go of
nor taken from the screen. -/
theorem mem_track (hs : s.model.Sound) (op : Operation) {mapped : Finset Window}
    (hmapped : ∀ w, s.model.shows w = true → w ∈ mapped) (w : Window) :
    w ∈ s.track op mapped ↔ (s.perform op).model.shows w = true ∨ s.TurnsAway op w ∨
      (op ≠ .unmanage w ∧ s.model.shows w = false ∧ w ∈ mapped) := by
  rcases mapsNew_or_switches hs op with ⟨ws, hlights, hws⟩ | ⟨hop, r, hswitches⟩
  · obtain ⟨es, hes, hfilter⟩ := hlights.history
    rw [mem_track_iff hes, Lights.foldr_eq hfilter, hws]
    by_cases hdrop : op = .unmanage w
    · subst hdrop
      have hgone : (s.perform (.unmanage w)).model.shows w = false :=
        Model.shows_of_not_manages fun hw => ((manages_unmanage_iff hs w w).1 hw).2 rfl
      simp [hgone, TurnsAway]
    by_cases hw : s.model.Manages w
    · have hsame := Model.shows_congr hlights.shown
        (home?_perform hs op hw (manages_perform_of_ne hs hdrop hw))
      have hkept : ¬ s.TurnsAway op w := fun ⟨_, _, _, hnew, _⟩ => hnew hw
      cases hshows : s.model.shows w with
      | true => simp [hsame, hshows, hdrop, hmapped w hshows]
      | false => simp [hsame, hshows, hdrop, hw, hkept]
    · simp only [hdrop, hw, Model.shows_of_not_manages hw, ne_eq, not_false_eq_true, true_and]
      tauto
  · obtain ⟨es, hes, hfollows⟩ := hswitches.follows
    have hdrop : op ≠ .unmanage w := fun heq => by
      rw [heq] at hop
      cases hop
    have hkept : ¬ s.TurnsAway op w := fun ⟨_, _, heq, _⟩ => by
      rw [heq] at hop
      cases hop
    rw [mem_track_iff hes, hfollows mapped w (hmapped w) (home?_of_keepsWindows hs hop w)]
    simp [hdrop, hkept]

/-! ## Runs -/

def tracked (s : Stage) (mapped : Finset Window) : List Operation → Finset Window
  | [] => mapped
  | op :: ops => (s.perform op).tracked (s.track op mapped) ops

theorem tracked_append (s : Stage) (mapped : Finset Window) (ops ops' : List Operation) :
    s.tracked mapped (ops ++ ops') = (s.run ops).tracked (s.tracked mapped ops) ops' := by
  induction ops generalizing s mapped with
  | nil => rfl
  | cons op ops ih => exact ih _ _

/-- In the run the window was turned away, and since then it has neither been let go of nor been
shown after any operation. -/
def Adrift (s : Stage) (ops : List Operation) (w : Window) : Prop :=
  ∃ before op after, ops = before ++ op :: after ∧ (s.run before).TurnsAway op w ∧
    .unmanage w ∉ after ∧ ∀ later, later <+: after →
      (s.run (before ++ op :: later)).model.shows w = false

theorem TurnsAway.shows_eq {op : Operation} {w : Window} (h : s.TurnsAway op w) :
    (s.perform op).model.shows w = false := by
  obtain ⟨named, csq, rfl, hnew, hnowhere⟩ := h
  have hmap : s.manage w named csq = (s.request (.map w), none) := by
    unfold manage
    exact (if_neg hnew).trans (by simp only [hnowhere])
  rw [perform, hmap]
  exact Model.shows_of_not_manages hnew

theorem Adrift.shows_eq {ops : List Operation} {w : Window} (h : s.Adrift ops w) :
    (s.run ops).model.shows w = false := by
  obtain ⟨before, op, after, rfl, -, -, hhidden⟩ := h
  exact hhidden after List.prefix_rfl

theorem adrift_concat_iff (s : Stage) (ops : List Operation) (op : Operation) (w : Window) :
    s.Adrift (ops ++ [op]) w ↔ (s.run ops).TurnsAway op w ∨
      (s.Adrift ops w ∧ op ≠ .unmanage w ∧ (s.run (ops ++ [op])).model.shows w = false) := by
  constructor
  · rintro ⟨before, first, after, hops, hturned, hdropped, hhidden⟩
    rcases List.eq_nil_or_concat after with rfl | ⟨after, last, rfl⟩
    · obtain ⟨rfl, heq⟩ := List.append_inj' hops rfl
      obtain rfl := List.singleton_inj.1 heq
      exact .inl hturned
    · rw [List.concat_eq_append] at hops hdropped hhidden
      rw [← List.cons_append, ← List.append_assoc] at hops
      obtain ⟨rfl, heq⟩ := List.append_inj' hops rfl
      obtain rfl := List.singleton_inj.1 heq
      rw [List.mem_append, List.mem_singleton, not_or] at hdropped
      refine .inr ⟨⟨before, first, after, rfl, hturned, hdropped.1, fun later hlater => ?_⟩,
        fun heq => hdropped.2 heq.symm, ?_⟩
      · exact hhidden later (hlater.trans (List.prefix_append _ _))
      · rw [List.append_assoc, List.cons_append]
        exact hhidden _ List.prefix_rfl
  · rintro (hturned | ⟨⟨before, first, after, rfl, hturned, hdropped, hhidden⟩, hop, hlast⟩)
    · refine ⟨ops, op, [], rfl, hturned, List.not_mem_nil, fun later hlater => ?_⟩
      rw [List.prefix_nil.1 hlater, run_append]
      exact hturned.shows_eq
    · refine ⟨before, first, after ++ [op], by simp, hturned, ?_, fun later hlater => ?_⟩
      · rw [List.mem_append, List.mem_singleton, not_or]
        exact ⟨hdropped, fun heq => hop heq.symm⟩
      · rcases List.prefix_concat_iff.1 hlater with rfl | hlater
        · rwa [List.append_assoc, List.cons_append] at hlast
        · exact hhidden later hlater

/-- After any operations on a model that managed no window at first, the windows that are shown
are mapped and so are those adrift, and no others. -/
theorem mem_tracked_iff (hs : s.model.Sound) (hnone : ∀ w, ¬ s.model.Manages w)
    (ops : List Operation) (w : Window) :
    w ∈ s.tracked ∅ ops ↔ (s.run ops).model.shows w = true ∨ s.Adrift ops w := by
  induction ops using List.reverseRecOn generalizing w with
  | nil =>
    refine iff_of_false (Finset.notMem_empty w) ?_
    rintro (hshows | ⟨before, op, after, hops, -⟩)
    · exact hnone w (Model.manages_of_shows hshows)
    · exact absurd hops (by simp)
  | append_singleton ops op ih =>
    rw [tracked_append, adrift_concat_iff, run_append]
    show w ∈ (s.run ops).track op (s.tracked ∅ ops) ↔
      ((s.run ops).perform op).model.shows w = true ∨ (s.run ops).TurnsAway op w ∨
        (s.Adrift ops w ∧ op ≠ .unmanage w ∧ ((s.run ops).perform op).model.shows w = false)
    rw [mem_track (sound_run hs ops) op fun v hv => (ih v).2 (.inl hv), ih]
    have hhidden : s.Adrift ops w → (s.run ops).model.shows w = false := Adrift.shows_eq
    cases hbefore : (s.run ops).model.shows w <;>
      cases hafter : ((s.run ops).perform op).model.shows w <;> simp_all [and_comm]

/-- After any operations a window is mapped if its desktop is the one that its monitor shows;
any other window is mapped only if it is adrift. Of the windows that are shown before an
operation just those are mapped after it that are still shown. -/
theorem mapped_iff_shown_or_adrift (outputs : List (String × Rect)) (names : List String)
    (settings : Settings) (ids : FeedbackIds) (ops : List Operation) (w : Window) :
    (w ∈ (fresh outputs names settings ids).tracked ∅ ops ↔
        ((fresh outputs names settings ids).run ops).model.shows w = true ∨
          (fresh outputs names settings ids).Adrift ops w) ∧
      ∀ op, ((fresh outputs names settings ids).run ops).model.shows w = true →
        (w ∈ (fresh outputs names settings ids).tracked ∅ (ops ++ [op]) ↔
          ((fresh outputs names settings ids).run (ops ++ [op])).model.shows w = true) := by
  have hs := sound_fresh outputs names settings ids
  have hnone := (Model.isBlank_fresh outputs names).not_manages
  refine ⟨mem_tracked_iff hs hnone ops w, fun op hshows => ?_⟩
  rw [mem_tracked_iff hs hnone, or_iff_left]
  intro hadrift
  rcases (adrift_concat_iff _ ops op w).1 hadrift with hturned | ⟨hadrift, -, -⟩
  · obtain ⟨_, _, -, hnew, -⟩ := hturned
    exact hnew (Model.manages_of_shows hshows)
  · rw [hadrift.shows_eq] at hshows
    cases hshows

/-- One monitor with two desktops. -/
def oneMonitor : Stage :=
  fresh [("screen0", ⟨0, 0, 1920, 1080⟩)] ["I", "II"] .standard .unavailable

/-- The desktop of a window is left, and the window is not mapped any more. -/
theorem mapped_iff_shown_hidden :
    (oneMonitor.run [.manage 1 .unknown .standard]).model.shows 1 = true ∧
      (oneMonitor.run [.manage 1 .unknown .standard, .focusDesktop ⟨0, 1⟩]).model.shows 1 = false ∧
      1 ∉ oneMonitor.tracked ∅ [.manage 1 .unknown .standard, .focusDesktop ⟨0, 1⟩] := by
  have hbefore : (oneMonitor.run [.manage 1 .unknown .standard]).model.shows 1 = true := by
    decide +kernel
  have hafter : (oneMonitor.run
      [.manage 1 .unknown .standard, .focusDesktop ⟨0, 1⟩]).model.shows 1 = false := by
    decide +kernel
  obtain ⟨-, hstep⟩ := mapped_iff_shown_or_adrift [("screen0", ⟨0, 0, 1920, 1080⟩)] ["I", "II"]
    .standard .unavailable [.manage 1 .unknown .standard] 1
  refine ⟨hbefore, hafter, fun hmapped => ?_⟩
  have hshows := (hstep (.focusDesktop ⟨0, 1⟩) hbefore).1 hmapped
  exact Bool.false_ne_true (hafter.symm.trans hshows)

/-- A window that is not to be managed is mapped, and then it is managed on a hidden desktop. -/
def turnedAway : List Operation :=
  [.manage 1 .unknown { Consequences.standard with manage := false },
    .manage 1 .unknown { Consequences.standard with desktop := some "II" }]

theorem not_mapped_iff_visible :
    ¬ ∀ (outputs : List (String × Rect)) (names : List String) (settings : Settings)
      (ids : FeedbackIds) (ops : List Operation) (w : Window),
      ((fresh outputs names settings ids).run ops).model.Manages w →
        ∃ r, ((fresh outputs names settings ids).run ops).model.home? w = some r ∧
          (w ∈ (fresh outputs names settings ids).tracked ∅ ops ↔
            ((fresh outputs names settings ids).run ops).model.isVisible r = true) := by
  intro hall
  obtain ⟨r, hr, hiff⟩ := hall [("screen0", ⟨0, 0, 1920, 1080⟩)] ["I", "II"] .standard
    .unavailable turnedAway 1 (by decide +kernel)
  have hhome : (oneMonitor.run turnedAway).model.home? 1 = some ⟨0, 1⟩ := by decide +kernel
  obtain rfl : ⟨0, 1⟩ = r := Option.some.inj (hhome.symm.trans hr)
  have hvisible := hiff.1 (by decide +kernel)
  have hhidden : (oneMonitor.run turnedAway).model.isVisible ⟨0, 1⟩ = false := by decide +kernel
  exact Bool.false_ne_true (hhidden.symm.trans hvisible)

end Stage

end Tiling
