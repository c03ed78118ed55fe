import Tiling.Proofs.Daemon.Ghosts
import Tiling.Proofs.Model.Room
/-!
# How windows stand with the program

A window is managed, or it waits for its classifier, or the program has nothing to do with it.
An event that is carried out concerns its own window only, and what becomes of that depends on
how it stood and on whether a classifier can be started for it.
-/

namespace Tiling

open Pending (Tidy queue contains_iff)

namespace DisplayEvent

def departs (e : DisplayEvent) : Bool := e.isLifecycle && !e.isMapRequest

/-- By the events of a window it goes and comes again. -/
def returns (events : List DisplayEvent) : Bool :=
  (events.dropWhile fun e => !e.departs).any isMapRequest

end DisplayEvent

namespace Daemon

inductive Presence where
  | absent
  | waiting
  | managed
  deriving DecidableEq, Repr

/-- What becomes of a window when an event of its own is carried out. -/
def Presence.after (classified : Bool) : Presence → DisplayEvent → Presence
  | .absent, .mapRequest .. => if classified then .waiting else .managed
  | .managed, .unmapped _ | .managed, .destroyed _ => .absent
  | p, _ => p

namespace Presence

variable {classified : Bool} {p : Presence} {e : DisplayEvent}

theorem after_quiet (he : e.isLifecycle = false) : p.after classified e = p := by
  cases e with
  | configureRequest w rect => cases p <;> rfl
  | hintsChanged w => cases p <;> rfl
  | _ => cases he

theorem after_mapRequest_ne (he : e.isMapRequest = true) : p.after classified e ≠ .absent := by
  cases e with
  | mapRequest w sequence => cases p <;> cases classified <;> simp [after]
  | _ => cases he

/-- A window is absent after some events if it last went by them, or if it was absent before and
they did not concern that. -/
theorem foldl_after_eq_absent {events : List DisplayEvent}
    (h : events.foldl (after classified) p = .absent) :
    (p = .absent ∧ events.filter DisplayEvent.isLifecycle = []) ∨
      ∃ e, (events.filter DisplayEvent.isLifecycle).getLast? = some e ∧ e.isMapRequest = false := by
  induction events using List.reverseRecOn with
  | nil => exact .inl ⟨h, rfl⟩
  | append_singleton events e ih =>
    rw [List.foldl_append, List.foldl_cons, List.foldl_nil] at h
    rw [List.filter_append, List.filter_singleton]
    cases hlife : e.isLifecycle with
    | false =>
      rw [after_quiet hlife] at h
      simpa using ih h
    | true =>
      refine .inr ⟨e, by simp, ?_⟩
      cases hmap : e.isMapRequest with
      | false => rfl
      | true => exact absurd h (after_mapRequest_ne hmap)

theorem foldl_after_waiting (events : List DisplayEvent) :
    events.foldl (after classified) .waiting = .waiting := by
  induction events with
  | nil => rfl
  | cons e rest ih =>
    have hfirst : (waiting).after classified e = .waiting := by cases e <;> rfl
    rw [List.foldl_cons, hfirst, ih]

theorem foldl_after_ne_waiting (hp : p ≠ .waiting) (events : List DisplayEvent) :
    events.foldl (after false) p ≠ .waiting := by
  induction events generalizing p with
  | nil => exact hp
  | cons e rest ih =>
    apply ih
    cases e <;> cases p <;> simp_all [after]

theorem foldl_after_absent_eq_waiting {events : List DisplayEvent} :
    events.foldl (after true) .absent = .waiting ↔
      events.any DisplayEvent.isMapRequest = true := by
  induction events with
  | nil => simp
  | cons e rest ih =>
    rw [List.foldl_cons, List.any_cons]
    cases e with
    | mapRequest w sequence => exact iff_of_true (foldl_after_waiting rest) rfl
    | _ => exact ih

/-- A managed window waits after some events if and only if it goes and comes again by them and a
classifier can be started for it. -/
theorem foldl_after_managed_eq_waiting {events : List DisplayEvent} :
    events.foldl (after classified) .managed = .waiting ↔
      classified = true ∧ DisplayEvent.returns events = true := by
  cases classified with
  | false => exact iff_of_false (foldl_after_ne_waiting (by simp) events) (by simp)
  | true =>
    rw [and_iff_right rfl]
    induction events with
    | nil => exact iff_of_false (by simp) (by simp [DisplayEvent.returns])
    | cons e rest ih =>
      rw [List.foldl_cons, DisplayEvent.returns]
      cases e with
      | unmapped w => exact foldl_after_absent_eq_waiting
      | destroyed w => exact foldl_after_absent_eq_waiting
      | _ => exact ih

end Presence

def presence (d : Daemon) (w : Window) : Presence :=
  if d.model.Manages w then .managed
  else if d.pending.contains w then .waiting
  else .absent

/-- A classifier can be started for the window. -/
def classifies (d : Daemon) (env : Surroundings) (w : Window) : Bool :=
  d.canClassify env (Classifier.argumentsFor ⟨w, 0, .standard, []⟩ (env.screen.classOf w))

theorem classifies_congr {d d' : Daemon} (h : d'.settings = d.settings) (env : Surroundings)
    (w : Window) : d'.classifies env w = d.classifies env w := by
  rw [classifies, canClassify, h]
  rfl

theorem presence_congr {d d' : Daemon} {w : Window}
    (hmanages : d'.model.Manages w ↔ d.model.Manages w)
    (hwaits : d'.pending.contains w = d.pending.contains w) : d'.presence w = d.presence w := by
  simp only [presence, hmanages, hwaits]

theorem presence_eq_managed {d : Daemon} {w : Window} :
    d.presence w = .managed ↔ d.model.Manages w := by
  unfold presence
  split
  · rename_i hw
    exact iff_of_true rfl hw
  · rename_i hw
    split <;> exact iff_of_false (by simp) hw

theorem presence_eq_absent {d : Daemon} {w : Window} :
    d.presence w = .absent ↔ ¬ d.model.Manages w ∧ d.pending.contains w = false := by
  unfold presence
  split
  · rename_i hw
    exact iff_of_false (by simp) fun h => h.1 hw
  · rename_i hw
    split
    · rename_i hwaits
      exact iff_of_false (by simp) fun h => by simp [hwaits] at h
    · rename_i hwaits
      exact iff_of_true rfl ⟨hw, by simpa using hwaits⟩

theorem contains_congr {p p' : Pending}
    (h : p'.rules.map PendingRule.window = p.rules.map PendingRule.window) (w : Window) :
    p'.contains w = p.contains w := by
  rw [Bool.eq_iff_iff, contains_iff, contains_iff, h]

/-- New windows have somewhere to go, and those that wait are not managed yet. -/
structure Steady (d : Daemon) : Prop where
  sound : d.model.Sound
  room : d.model.HasRoom
  tidy : Tidy d.pending.rules
  apart : ∀ w, d.model.Manages w → d.pending.contains w = false
  /-- Without an answer a window is managed like any other. -/
  standard : ∀ rule ∈ d.pending.rules, rule.consequences = .standard

theorem Steady.presence_eq_waiting {d : Daemon} (h : d.Steady) {w : Window} :
    d.presence w = .waiting ↔ d.pending.contains w = true := by
  unfold presence
  split
  · rename_i hw
    rw [h.apart w hw]
    simp
  · split
    · rename_i hwaits
      exact iff_of_true rfl hwaits
    · rename_i hwaits
      exact iff_of_false (by simp) hwaits

/-- Changes that take no window in, and leave those that wait alone. -/
theorem Steady.congr {d d' : Daemon} (h : d.Steady) (hsound : d'.model.Sound)
    (hroom : d'.model.HasRoom) (hmanages : ∀ w, d'.model.Manages w → d.model.Manages w)
    (hrules : d'.pending.rules = d.pending.rules) : d'.Steady where
  sound := hsound
  room := hroom
  tidy := hrules ▸ h.tidy
  apart w hw := by
    rw [contains_congr (congrArg _ hrules)]
    exact h.apart w (hmanages w hw)
  standard := hrules ▸ h.standard

theorem Steady.of_eq {d d' : Daemon} (h : d.Steady) (hmodel : d'.model = d.model)
    (hrules : d'.pending.rules = d.pending.rules) : d'.Steady :=
  h.congr (hmodel ▸ h.sound) (hmodel ▸ h.room) (fun _ hw => hmodel ▸ hw) hrules

/-! ## Events -/

structure Replays (env : Surroundings) (d d' : Daemon) (events : List DisplayEvent) : Prop where
  steady : d'.Steady
  settings : d'.settings = d.settings
  queue : ∀ w, queue d'.pending.rules w = queue d.pending.rules w
  presence : ∀ w, d'.presence w = (events.filter (·.window == w)).foldl
    (Presence.after (d.classifies env w)) (d.presence w)

section Events

variable {d : Daemon} {env : Surroundings} {e : DisplayEvent}

theorem Replays.refl (h : d.Steady) : d.Replays env d [] := ⟨h, rfl, fun _ => rfl, fun _ => rfl⟩

theorem Replays.trans {d' d'' : Daemon} {events events' : List DisplayEvent}
    (h : Replays env d d' events) (h' : Replays env d' d'' events') :
    Replays env d d'' (events ++ events') where
  steady := h'.steady
  settings := h'.settings.trans h.settings
  queue w := (h'.queue w).trans (h.queue w)
  presence w := by
    rw [h'.presence w, h.presence w, classifies_congr h.settings, List.filter_append,
      List.foldl_append]

/-- To carry out one event it is enough to look at its own window. -/
theorem Replays.one {d' : Daemon} {w : Window} (hw : e.window = w) (hsteady : d'.Steady)
    (hsettings : d'.settings = d.settings)
    (hqueue : ∀ v, Pending.queue d'.pending.rules v = Pending.queue d.pending.rules v)
    (hother : ∀ v, w ≠ v → d'.presence v = d.presence v)
    (hown : d'.presence w = (d.presence w).after (d.classifies env w) e) :
    Replays env d d' [e] where
  steady := hsteady
  settings := hsettings
  queue := hqueue
  presence v := by
    rw [List.filter_singleton, hw]
    by_cases hv : w = v
    · subst hv
      rw [beq_self_eq_true]
      exact hown
    · rw [beq_eq_false_iff_ne.2 hv]
      exact hother v hv

/-- A window that the program has nothing to do with is managed, unless it is not meant to be. -/
theorem Steady.manage (h : d.Steady) {w : Window} (hw : d.presence w = .absent)
    (env : Surroundings) (csq : Consequences) :
    (d.manage env w csq).Steady ∧ (d.manage env w csq).settings = d.settings ∧
      ∀ v, (d.manage env w csq).presence v =
        if w = v then (if csq.manage then .managed else .absent) else d.presence v := by
  obtain ⟨u, hu⟩ : ∃ u, u = (d.request (.readClass w)).quietStage := ⟨_, rfl⟩
  have hmodel : u.model = d.model := by rw [hu]; rfl
  have hsettings : u.settings = d.settings := by rw [hu]; rfl
  have hstage : (d.manage env w csq).model = (u.manage w (env.screen.classOf w) csq).1.model ∧
      (d.manage env w csq).settings = (u.manage w (env.screen.classOf w) csq).1.settings := by
    rw [hu]
    exact ⟨rfl, rfl⟩
  have hpending : (d.manage env w csq).pending = d.pending := rfl
  have hmanages (v : Window) : (d.manage env w csq).model.Manages v ↔
      d.model.Manages v ∨ (v = w ∧ csq.manage = true) := by
    rw [hstage.1, Stage.manages_manage_iff (hmodel ▸ h.sound) (hmodel ▸ h.room), hmodel]
  have hadmits := Stage.admits_manage (hmodel ▸ h.sound) w (env.screen.classOf w) csq
  obtain ⟨hnew, hfree⟩ := presence_eq_absent.1 hw
  refine ⟨⟨?_, ?_, h.tidy, ?_, h.standard⟩, ?_, ?_⟩
  · rw [hstage.1]
    exact hadmits.sound
  · rw [hstage.1]
    exact Stage.hasRoom_manage (hmodel ▸ h.sound) (hmodel ▸ h.room) w _ csq
  · intro v hv
    rcases (hmanages v).1 hv with hold | ⟨rfl, -⟩
    · exact h.apart v hold
    · exact hfree
  · rw [hstage.2, hadmits.evolves.settings, hsettings]
  · intro v
    by_cases hv : w = v
    · subst hv
      rw [if_pos rfl]
      cases hcsq : csq.manage with
      | true => exact presence_eq_managed.2 ((hmanages w).2 (.inr ⟨rfl, hcsq⟩))
      | false =>
        refine presence_eq_absent.2 ⟨fun hw => ?_, hfree⟩
        rcases (hmanages w).1 hw with hold | ⟨-, htrue⟩
        · exact hnew hold
        · rw [hcsq] at htrue
          cases htrue
    · rw [if_neg hv]
      refine presence_congr ?_ (by rw [hpending])
      rw [hmanages]
      exact or_iff_left fun hvw => hv hvw.1.symm

theorem Steady.track (h : d.Steady) {w : Window} (hw : d.presence w = .absent) (sequence : UInt16)
    (arguments : List String) :
    let d' := { d with pending := d.pending.track ⟨w, sequence, .standard, []⟩ arguments }
    d'.Steady ∧ (∀ v, Pending.queue d'.pending.rules v = Pending.queue d.pending.rules v) ∧
      ∀ v, d'.presence v = if w = v then .waiting else d.presence v := by
  intro d'
  have hmodel : d'.model = d.model := rfl
  obtain ⟨hnew, hfree⟩ := presence_eq_absent.1 hw
  have hrules : d'.pending.rules = d.pending.rules ++ [⟨w, sequence, .standard, []⟩] := rfl
  have hwaits (v : Window) :
      d'.pending.contains v = true ↔ d.pending.contains v = true ∨ v = w := by
    rw [contains_iff, contains_iff, hrules, List.map_append, List.mem_append]
    simp
  have hsteady : d'.Steady := by
    refine ⟨hmodel ▸ h.sound, hmodel ▸ h.room, ?_, ?_, ?_⟩
    · rw [hrules]
      refine h.tidy.concat ?_ rfl
      rw [← contains_iff, hfree]
      simp
    · intro v hv
      rw [hmodel] at hv
      rw [← Bool.not_eq_true, hwaits, h.apart v hv]
      rintro (hfalse | rfl)
      · cases hfalse
      · exact hnew hv
    · intro rule hrule
      rw [hrules] at hrule
      rcases List.mem_append.1 hrule with hrule | hrule
      · exact h.standard rule hrule
      · rw [List.mem_singleton.1 hrule]
  refine ⟨hsteady, ?_, ?_⟩
  · intro v
    rw [hrules]
    exact Pending.queue_concat rfl v
  · intro v
    by_cases hv : w = v
    · rw [if_pos hv, hsteady.presence_eq_waiting, hwaits]
      exact .inr hv.symm
    · rw [if_neg hv]
      refine presence_congr (by rw [hmodel]) ?_
      rw [Bool.eq_iff_iff, hwaits]
      exact or_iff_left fun heq => hv heq.symm

/-- A window that is known already changes nothing by coming. -/
theorem replays_known (h : d.Steady) (env : Surroundings) {w : Window} (hknown : d.knows w = true)
    (sequence : UInt16) : Replays env d d [.mapRequest w sequence] := by
  refine .one (w := w) rfl h rfl (fun _ => rfl) (fun _ _ => rfl) ?_
  cases hw : d.presence w with
  | absent =>
    obtain ⟨hnew, hfree⟩ := presence_eq_absent.1 hw
    rw [knows, hfree, Bool.or_false] at hknown
    exact absurd hknown hnew
  | waiting => rfl
  | managed => rfl

theorem replays_schedule (h : d.Steady) (env : Surroundings) (w : Window) (sequence : UInt16) :
    Replays env d (d.schedule env w sequence) [.mapRequest w sequence] := by
  unfold schedule
  by_cases hknown : d.knows w = true
  · rw [if_pos hknown]
    exact replays_known h env hknown sequence
  rw [if_neg hknown]
  have habsent : d.presence w = .absent := by
    rw [knows, Bool.or_eq_true, not_or] at hknown
    exact presence_eq_absent.2 ⟨hknown.1, by simpa using hknown.2⟩
  obtain ⟨u, hu⟩ : ∃ u, u = d.request (.readClass w) := ⟨_, rfl⟩
  have hsame : u.model = d.model ∧ u.pending = d.pending ∧ u.settings = d.settings := by
    rw [hu]
    exact ⟨rfl, rfl, rfl⟩
  have husteady : u.Steady := by
    rw [hu]
    exact h.of_eq rfl rfl
  have hupresence (v : Window) : u.presence v = d.presence v :=
    presence_congr (by rw [hsame.1]) (by rw [hsame.2.1])
  have hclassifies : u.canClassify env (Classifier.argumentsFor ⟨w, sequence, .standard, []⟩
      (env.screen.classOf w)) = d.classifies env w := by
    rw [hu]
    rfl
  -- from here on only `u` matters, which differs from `d` in what has been asked of the display
  dsimp only
  rw [← hu, hclassifies]
  obtain ⟨hmodel, hpending, hsettings⟩ := hsame
  have huabsent : u.presence w = .absent := (hupresence w).trans habsent
  cases hcan : d.classifies env w with
  | true =>
    rw [if_pos rfl]
    obtain ⟨hsteady, hqueue, hpresence⟩ := husteady.track huabsent sequence
      (Classifier.argumentsFor ⟨w, sequence, .standard, []⟩ (env.screen.classOf w))
    refine .one (w := w) rfl hsteady hsettings (fun v => by rw [hqueue, hpending]) ?_ ?_
    · intro v hv
      rw [hpresence, if_neg hv, hupresence]
    · rw [hpresence, if_pos rfl, habsent, hcan]
      rfl
  | false =>
    rw [if_neg (by simp)]
    obtain ⟨hsteady, hsettings', hpresence⟩ := husteady.manage huabsent env .standard
    have hqueue (v : Window) : Pending.queue (u.manage env w .standard).pending.rules v =
        Pending.queue d.pending.rules v := by
      rw [← hpending]
      rfl
    refine .one (w := w) rfl hsteady (hsettings'.trans hsettings) hqueue ?_ ?_
    · intro v hv
      rw [hpresence, if_neg hv, hupresence]
    · rw [hpresence, if_pos rfl, habsent, hcan]
      rfl

/-- A window that goes is not managed any more; if it waits, it goes on waiting. -/
theorem replays_unmanage (h : d.Steady) {w : Window} (hw : e.window = w)
    (hgone : e = .unmapped w ∨ e = .destroyed w) :
    Replays env d (d.perform fun s => (s.unmanage w).1) [e] := by
  have hmanages (v : Window) : (d.perform fun s => (s.unmanage w).1).model.Manages v ↔
      d.model.Manages v ∧ v ≠ w :=
    Stage.manages_unmanage_iff (s := d.quietStage) h.sound w v
  have hpending : (d.perform fun s => (s.unmanage w).1).pending = d.pending := rfl
  obtain ⟨hsound, hchange⟩ := Stage.perform_spec (s := d.quietStage) h.sound (.unmanage w)
  have hsettings : (d.quietStage.unmanage w).1.settings = d.settings := by
    rcases hchange with ⟨new, heq⟩ | hevolves
    · cases heq
    · exact hevolves.settings
  have hsteady : (d.perform fun s => (s.unmanage w).1).Steady :=
    h.congr hsound (Stage.hasRoom_unmanage (s := d.quietStage) h.sound h.room w)
      (fun v hv => ((hmanages v).1 hv).1) rfl
  refine .one hw hsteady hsettings (fun _ => rfl) ?_ ?_
  · intro v hv
    refine presence_congr ?_ (by rw [hpending])
    rw [hmanages]
    exact and_iff_left fun heq => hv heq.symm
  · have hnot : ¬ (d.perform fun s => (s.unmanage w).1).model.Manages w :=
      fun hv => ((hmanages w).1 hv).2 rfl
    cases hpresence : d.presence w with
    | managed =>
      have hfree := h.apart w (presence_eq_managed.1 hpresence)
      rw [presence_eq_absent.2 ⟨hnot, hfree⟩]
      rcases hgone with rfl | rfl <;> rfl
    | waiting =>
      have hwaits := h.presence_eq_waiting.1 hpresence
      rw [hsteady.presence_eq_waiting.2 hwaits]
      rcases hgone with rfl | rfl <;> rfl
    | absent =>
      rw [presence_eq_absent.2 ⟨hnot, (presence_eq_absent.1 hpresence).2⟩]
      rcases hgone with rfl | rfl <;> rfl

/-- An event by which no window comes or goes. -/
theorem replays_perform (h : d.Steady) {d' : Daemon} (s : Stage) (op : Operation)
    (hstage : d'.model = (s.perform op).model ∧ d'.settings = (s.perform op).settings)
    (hpending : d'.pending = d.pending) (hs : s.model = d.model ∧ s.settings = d.settings)
    (hop : op.isCalm = true) (he : e.isLifecycle = false) : Replays env d d' [e] := by
  have hssound : s.model.Sound := hs.1 ▸ h.sound
  have hcalm := Stage.calm_perform s hop
  have hmanages (v : Window) : d'.model.Manages v ↔ d.model.Manages v := by
    rw [hstage.1, Stage.manages_perform_iff hssound (Operation.keepsWindows_of_isCalm hop), hs.1]
  have hsteady : d'.Steady := by
    refine h.congr ?_ ?_ (fun v => (hmanages v).1) (by rw [hpending])
    · rw [hstage.1]
      exact (Stage.perform_spec hssound op).1
    · rw [hstage.1]
      exact hcalm.hasRoom (hs.1 ▸ h.room)
  have hsettings : d'.settings = d.settings := by rw [hstage.2, hcalm.settings, hs.2]
  have hsame (v : Window) : d'.presence v = d.presence v :=
    presence_congr (hmanages v) (by rw [hpending])
  refine .one rfl hsteady hsettings (fun v => by rw [hpending]) (fun v _ => hsame v) ?_
  rw [hsame, Presence.after_quiet he]

theorem replays_handleEvent (h : d.Steady) (env : Surroundings) (e : DisplayEvent) :
    Replays env d (handleEvent env d e) [e] := by
  cases e with
  | mapRequest w sequence => exact replays_schedule h env w sequence
  | unmapped w => exact replays_unmanage h rfl (.inl rfl)
  | destroyed w => exact replays_unmanage h rfl (.inr rfl)
  | configureRequest w rect =>
    exact replays_perform h d.quietStage (.configure w rect) ⟨rfl, rfl⟩ rfl ⟨rfl, rfl⟩ rfl rfl
  | hintsChanged w =>
    exact replays_perform h (d.request (.readHints w)).quietStage
      (.setUrgency w (env.screen.isUrgent w)) ⟨rfl, rfl⟩ rfl ⟨rfl, rfl⟩ rfl rfl

theorem replays_events (h : d.Steady) (env : Surroundings) (events : List DisplayEvent) :
    Replays env d (events.foldl (handleEvent env) d) events := by
  induction events generalizing d with
  | nil => exact Replays.refl h
  | cons e rest ih =>
    have hfirst := replays_handleEvent h env e
    exact hfirst.trans (ih hfirst.steady)

end Events

end Daemon

end Tiling
