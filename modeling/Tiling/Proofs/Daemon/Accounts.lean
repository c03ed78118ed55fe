import Tiling.Proofs.Daemon.Waiting
/-!
# What becomes of events

Every event that is taken from the display is carried out, or kept for its window; for each
window the order stays the same.  A window that is managed or waits has last been seen to come,
or it was waiting when it was last seen to go.
-/

namespace Tiling

namespace Daemon

open Pending (Tidy queue contains_iff)

/-! ## One event -/

theorem manage_spec {d : Daemon} (hd : d.model.Sound) (env : Surroundings) (w : Window)
    (csq : Consequences) :
    (d.manage env w csq).model.Sound ∧ (d.manage env w csq).pending = d.pending ∧
      ∀ v, (d.manage env w csq).model.Manages v → d.model.Manages v ∨ v = w := by
  have hsound : (d.request (.readClass w)).quietStage.model.Sound := hd
  have hadmits := Stage.admits_manage hsound w (env.screen.classOf w) csq
  refine ⟨hadmits.sound, rfl, fun v hv => ?_⟩
  exact ((hadmits.manages_iff v).1 hv).imp_right And.right

/-- The outcome of an event: only a window that asks to be shown may be managed or wait that was
not or did not before, and a window that is seen to go is not managed any more. -/
structure Reacts (d d' : Daemon) (e : DisplayEvent) : Prop where
  sound : d'.model.Sound
  manages : ∀ v, d'.model.Manages v →
    d.model.Manages v ∨ (e.isMapRequest = true ∧ v = e.window)
  gone : e.isLifecycle = true → e.isMapRequest = false → ¬ d'.model.Manages e.window
  rules : d'.pending.rules = d.pending.rules ∨ (e.isMapRequest = true ∧
    ∃ rule, d'.pending.rules = d.pending.rules ++ [rule] ∧ rule.window = e.window ∧
      rule.events = [] ∧ rule.window ∉ d.pending.rules.map PendingRule.window)

theorem reacts_schedule {d : Daemon} (hd : d.model.Sound) (env : Surroundings) (w : Window)
    (sequence : UInt16) : d.Reacts (d.schedule env w sequence) (.mapRequest w sequence) := by
  unfold schedule
  by_cases hknown : d.knows w = true
  · rw [if_pos hknown]
    exact ⟨hd, fun v hv => .inl hv, fun _ hmap => (by cases hmap), .inl rfl⟩
  rw [if_neg hknown]
  dsimp only
  split
  · refine ⟨hd, fun v hv => .inl hv, fun _ hmap => (by cases hmap),
      .inr ⟨rfl, _, rfl, rfl, rfl, fun hmem => hknown ?_⟩⟩
    rw [knows, contains_iff.2 hmem, Bool.or_true]
  · have hsound : (d.request (.readClass w)).model.Sound := hd
    obtain ⟨hsound', hpending, hmanages⟩ := manage_spec hsound env w .standard
    refine ⟨hsound', fun v hv => (hmanages v hv).imp_right fun heq => ⟨rfl, heq⟩,
      fun _ hmap => (by cases hmap), .inl (congrArg Pending.rules hpending)⟩

theorem reacts_handleEvent {d : Daemon} (hd : d.model.Sound) (env : Surroundings)
    (e : DisplayEvent) : d.Reacts (handleEvent env d e) e := by
  have hunmanage (w : Window) :
      (d.perform fun s => (s.unmanage w).1).model.Sound ∧
        ∀ v, (d.perform fun s => (s.unmanage w).1).model.Manages v → d.model.Manages v ∧ v ≠ w := by
    have hsound : d.quietStage.model.Sound := hd
    exact ⟨(Stage.perform_spec hsound (.unmanage w)).1,
      fun v hv => (Stage.manages_unmanage_iff hsound w v).1 hv⟩
  have hkeeps (s : Stage) (hs : s.model = d.model) (op : Operation) (hop : op.keepsWindows = true) :
      (s.perform op).model.Sound ∧
        ∀ v, (s.perform op).model.Manages v → d.model.Manages v := by
    have hsound : s.model.Sound := hs ▸ hd
    refine ⟨(Stage.perform_spec hsound op).1, fun v hv => ?_⟩
    rw [← hs]
    exact (Stage.manages_perform_iff hsound hop v).1 hv
  cases e with
  | mapRequest w sequence => exact reacts_schedule hd env w sequence
  | unmapped w =>
    obtain ⟨hsound, hmanages⟩ := hunmanage w
    exact ⟨hsound, fun v hv => .inl (hmanages v hv).1, fun _ _ hw => (hmanages w hw).2 rfl,
      .inl rfl⟩
  | destroyed w =>
    obtain ⟨hsound, hmanages⟩ := hunmanage w
    exact ⟨hsound, fun v hv => .inl (hmanages v hv).1, fun _ _ hw => (hmanages w hw).2 rfl,
      .inl rfl⟩
  | configureRequest w rect =>
    obtain ⟨hsound, hmanages⟩ := hkeeps d.quietStage rfl (.configure w rect) rfl
    exact ⟨hsound, fun v hv => .inl (hmanages v hv), fun hlife => (by cases hlife), .inl rfl⟩
  | hintsChanged w =>
    obtain ⟨hsound, hmanages⟩ := hkeeps (d.request (.readHints w)).quietStage rfl
      (.setUrgency w (env.screen.isUrgent w)) rfl
    exact ⟨hsound, fun v hv => .inl (hmanages v hv), fun hlife => (by cases hlife), .inl rfl⟩

/-! ## The log of a window -/

theorem latest?_concat_other {log : List Handled} {h : Handled} {w : Window}
    (hother : (h.event.isLifecycle && h.event.window == w) = false) :
    Handled.latest? w (log ++ [h]) = Handled.latest? w log := by
  rw [Handled.latest?, List.filter_append, List.filter_singleton, hother]
  simp [Handled.latest?]

theorem latest?_concat_same {log : List Handled} {h : Handled} {w : Window}
    (hw : h.event.window = w) (hlife : h.event.isLifecycle = true) :
    Handled.latest? w (log ++ [h]) = some h := by
  rw [Handled.latest?, List.filter_append, List.filter_singleton]
  simp [hlife, hw]

/-- The window has last been seen to come, or it was waiting when it was last seen to go. -/
def Shown (w : Window) (log : List Handled) : Prop :=
  ∃ h, Handled.latest? w log = some h ∧ (h.event.isMapRequest = true ∨ h.waiting = true)

/-! ## The invariant -/

/-- Of the events taken from the display, those in the log have been carried out, those of `todo`
are about to be, and the others are kept.  The windows of `due` are about to be managed. -/
structure Accounts (d : Daemon) (due : List Window) (todo polled : List DisplayEvent)
    (log : List Handled) : Prop where
  sound : d.model.Sound
  tidy : Tidy d.pending.rules
  balance : ∀ w, polled.filter (·.window == w) =
    (log.map Handled.event ++ todo).filter (·.window == w) ++ queue d.pending.rules w
  shown : ∀ w, d.model.Manages w ∨ w ∈ d.pending.rules.map PendingRule.window ∨ w ∈ due →
    Shown w log

namespace Accounts

variable {d : Daemon} {due : List Window} {todo polled : List DisplayEvent} {log : List Handled}

/-- Changes that keep the rules and take no window in are not seen. -/
theorem congr {d' : Daemon} (h : d.Accounts due todo polled log) (hsound : d'.model.Sound)
    (hmanages : ∀ w, d'.model.Manages w → d.model.Manages w)
    (hrules : d'.pending.rules = d.pending.rules) : d'.Accounts due todo polled log where
  sound := hsound
  tidy := hrules ▸ h.tidy
  balance := hrules ▸ h.balance
  shown w hw := by
    rw [hrules] at hw
    exact h.shown w (hw.imp_left (hmanages w))

/-- An event is carried out. -/
theorem handle {e : DisplayEvent} (h : d.Accounts due (e :: todo) polled log)
    (hdue : e.window ∉ due) (env : Surroundings) :
    (handleEvent env d e).Accounts due todo polled (log ++ d.handling e) := by
  have hreacts := reacts_handleEvent h.sound env e
  generalize handleEvent env d e = d' at hreacts ⊢
  refine ⟨hreacts.sound, ?_, fun w => ?_, fun w hw => ?_⟩
  · rcases hreacts.rules with hsame | ⟨-, rule, hnew, -, hempty, hfresh⟩
    · exact hsame ▸ h.tidy
    · exact hnew ▸ h.tidy.concat hfresh hempty
  · have hqueue : queue d'.pending.rules w = queue d.pending.rules w := by
      rcases hreacts.rules with hsame | ⟨-, rule, hnew, -, hempty, -⟩
      · rw [hsame]
      · rw [hnew, Pending.queue_concat hempty]
    rw [hqueue, h.balance w, handling, List.map_append, List.map_singleton, List.append_assoc,
      List.singleton_append]
  rw [handling]
  by_cases hnew : e.isMapRequest = true ∧ w = e.window
  · obtain ⟨hmap, rfl⟩ := hnew
    have hlife : e.isLifecycle = true := by cases e <;> first | rfl | cases hmap
    exact ⟨_, latest?_concat_same rfl hlife, .inl hmap⟩
  -- every other window was managed, or waited, or was due before
  have hrules : w ∈ d'.pending.rules.map PendingRule.window →
      w ∈ d.pending.rules.map PendingRule.window := by
    intro hw
    rcases hreacts.rules with hsame | ⟨hmap, rule, hconcat, hwindow, -⟩
    · rwa [hsame] at hw
    · rw [hconcat, List.map_append, List.map_singleton, hwindow] at hw
      rcases List.mem_append.1 hw with hw | hw
      · exact hw
      · exact absurd ⟨hmap, List.mem_singleton.1 hw⟩ hnew
  cases hsame : e.isLifecycle && e.window == w with
  | false =>
    rw [Shown, latest?_concat_other hsame]
    refine h.shown w ?_
    rcases hw with hw | hw | hw
    · exact .inl ((hreacts.manages w hw).resolve_right hnew)
    · exact .inr (.inl (hrules hw))
    · exact .inr (.inr hw)
  | true =>
    obtain ⟨hlife, hwindow⟩ := (Bool.and_eq_true _ _).mp hsame
    obtain rfl : e.window = w := by simpa using hwindow
    have hmap : e.isMapRequest = false := by
      cases hmap : e.isMapRequest with
      | false => rfl
      | true => exact absurd ⟨hmap, rfl⟩ hnew
    refine ⟨_, latest?_concat_same rfl hlife, .inr ?_⟩
    rcases hw with hw | hw | hw
    · exact absurd hw (hreacts.gone hlife hmap)
    · exact contains_iff.2 (hrules hw)
    · exact absurd hw hdue

theorem replay {events more : List DisplayEvent}
    (h : d.Accounts due (events ++ more) polled log) (hdue : ∀ e ∈ events, e.window ∉ due)
    (env : Surroundings) :
    (events.foldl (handleEvent env) d).Accounts due more polled
      (log ++ logged (handleEvent env) handling d events) := by
  have hall := logged_induction (f := handleEvent env) (g := handling)
    (P := fun d rest log => d.Accounts due (rest ++ more) polled log ∧ ∀ e ∈ rest, e.window ∉ due)
    (fun d e rest log hstep => by
      obtain ⟨h, hdue⟩ := hstep
      exact ⟨h.handle (hdue e List.mem_cons_self) env,
        fun e' he' => hdue e' (List.mem_cons_of_mem e he')⟩) events ⟨h, hdue⟩
  exact hall.1

/-- A window that has waited is managed, and what was kept for it is carried out. -/
theorem resolve {rule : PendingRule} {more : List DisplayEvent}
    (h : d.Accounts (rule.window :: due) (rule.events ++ more) polled log)
    (hown : ∀ e ∈ rule.events, e.window = rule.window) (hdue : rule.window ∉ due)
    (env : Surroundings) (answer : Option String) :
    (resolve env d rule answer).Accounts due more polled (log ++ resolving env d rule answer) := by
  obtain ⟨hsound, hpending, hmanages⟩ :=
    manage_spec h.sound env rule.window (outcome rule answer)
  have hmanaged : (d.manage env rule.window (outcome rule answer)).Accounts due
      (rule.events ++ more) polled log := by
    refine ⟨hsound, hpending ▸ h.tidy, hpending ▸ h.balance, fun w hw => h.shown w ?_⟩
    rw [hpending] at hw
    rcases hw with hw | hw | hw
    · rcases hmanages w hw with hold | hnew
      · exact .inl hold
      · exact .inr (.inr (hnew ▸ List.mem_cons_self))
    · exact .inr (.inl hw)
    · exact .inr (.inr (List.mem_cons_of_mem _ hw))
  exact hmanaged.replay (fun e he => by rwa [hown e he]) env

/-- Without a classifier's answer to wait for, every window that waits is due. -/
theorem settle (h : d.Accounts [] [] polled log) (env : Surroundings) :
    (settlePending env d).Accounts [] [] polled (log ++ d.occurring (.settle env)) := by
  have hstart : Accounts { d with pending := d.pending.drain.2 }
      (d.pending.rules.map PendingRule.window) (d.pending.rules.flatMap PendingRule.events) polled
      log := by
    refine ⟨h.sound, ⟨List.nodup_nil, by simp [Pending.drain]⟩, fun w => ?_, fun w hw => ?_⟩
    · rw [h.balance w, List.append_nil, List.filter_append, h.tidy.filter_flatMap]
      simp [Pending.drain, queue]
    · refine h.shown w ?_
      rcases hw with hw | hw | hw
      · exact .inl hw
      · simp [Pending.drain] at hw
      · exact .inr (.inl hw)
  have hall := logged_induction (f := fun d rule => Daemon.resolve env d rule none)
    (g := fun d rule => resolving env d rule none)
    (P := fun d rules log => d.Accounts (rules.map PendingRule.window)
      (rules.flatMap PendingRule.events) polled log ∧ Tidy rules)
    (fun d rule rules log hstep => by
      obtain ⟨h, htidy⟩ := hstep
      obtain ⟨hfresh, hown, hrules⟩ := htidy.cons
      exact ⟨h.resolve hown hfresh env none, hrules⟩) d.pending.rules ⟨hstart, h.tidy⟩
  exact hall.1

/-- The next window with an answer is managed. -/
theorem attend (h : d.Accounts [] [] polled log) (env : Surroundings) (cause : Cause) :
    (attend env d cause).1.Accounts [] [] polled (log ++ attending env d cause) := by
  cases cause with
  | connection connection request =>
    obtain ⟨hsound, hmanages, hpending⟩ := serve_spec h.sound connection request
    rw [attending, List.append_nil]
    exact h.congr hsound (fun w hw => (hmanages w).1 hw) (congrArg Pending.rules hpending)
  | display =>
    rw [attending, List.append_nil]
    exact h
  | signal =>
    rw [attending, List.append_nil]
    exact h.congr h.sound (fun w hw => hw) rfl
  | classified =>
    rw [attending, Daemon.attend, resolveNext]
    cases hnext : d.pending.nextResolved with
    | mk settled after =>
      cases settled with
      | none =>
        rw [List.append_nil]
        exact h.congr h.sound (fun w hw => hw) (Pending.nextResolved_none hnext)
      | some found =>
        obtain ⟨rule, answer⟩ := found
        have hperm := Pending.nextResolved_some hnext
        obtain ⟨hfresh, hown, hrules⟩ := (h.tidy.perm hperm).cons
        have htaken : Accounts { d with pending := after } [rule.window] (rule.events ++ []) polled
            log := by
          refine ⟨h.sound, hrules, fun w => ?_, fun w hw => h.shown w ?_⟩
          · rw [h.balance w, ← h.tidy.queue_perm hperm w, Pending.queue_cons, List.append_nil,
              List.append_nil, List.filter_append, List.append_assoc]
            by_cases hw : rule.window = w
            · subst hw
              rw [if_pos rfl, Pending.filter_events_self hown, Pending.queue_eq_nil hfresh,
                List.append_nil]
            · rw [if_neg hw, Pending.filter_events_other hown hw, List.nil_append]
          · rw [(hperm.map PendingRule.window).mem_iff, List.map_cons, List.mem_cons]
            rcases hw with hw | hw | hw
            · exact .inl hw
            · exact .inr (.inl (.inr hw))
            · exact .inr (.inl (.inl (List.mem_singleton.1 hw)))
        exact htaken.resolve hown (by simp) env answer

/-- An event is taken from the display. -/
theorem receive (h : d.Accounts [] [] polled log) (env : Surroundings) (e : DisplayEvent) :
    (receive env d e).Accounts [] [] (polled ++ [e]) (log ++ receiving d e) := by
  rw [Daemon.receive, receiving, Pending.enqueue?]
  by_cases hwaits : d.pending.contains e.window = true
  · rw [if_pos hwaits, Option.isSome_some, if_pos rfl, List.append_nil]
    have hmem := contains_iff.1 hwaits
    refine ⟨h.sound, h.tidy.enqueueIn e, fun w => ?_, fun w hw => h.shown w ?_⟩
    · rw [List.filter_append, h.balance w, Pending.queue_enqueueIn hmem, List.append_assoc]
    · rwa [Pending.map_window_enqueueIn] at hw
  · rw [if_neg hwaits, Option.isSome_none, if_neg (by simp)]
    have hpolled : d.Accounts [] [e] (polled ++ [e]) log := by
      refine ⟨h.sound, h.tidy, fun w => ?_, h.shown⟩
      rw [List.filter_append, h.balance w, List.append_nil, List.filter_append]
      by_cases hw : e.window = w
      · have hempty : queue d.pending.rules w = [] :=
          Pending.queue_eq_nil fun hmem => hwaits (contains_iff.2 (hw ▸ hmem))
        rw [hempty, List.append_nil, List.append_nil]
      · simp [hw]
    exact hpolled.handle (by simp) env

theorem receiveAll (h : d.Accounts [] [] polled log) (env : Surroundings)
    (events : List DisplayEvent) :
    (events.foldl (Daemon.receive env) d).Accounts [] [] (polled ++ events)
      (log ++ logged (Daemon.receive env) receiving d events) := by
  induction events generalizing d polled log with
  | nil => simpa [logged] using h
  | cons e rest ih =>
    have hrest := ih (h.receive env e)
    rwa [List.append_assoc, List.append_assoc] at hrest

/-- Whatever happens, the accounts are kept. -/
theorem occur (h : d.Accounts [] [] polled log) (o : Occurrence) :
    (d.occur o).Accounts [] [] (polled ++ o.polled) (log ++ d.occurring o) := by
  cases o with
  | classified w answer =>
    rw [Occurrence.polled, occurring, List.append_nil, List.append_nil, Daemon.occur]
    split
    · exact h.congr h.sound (fun w hw => hw) rfl
    · exact h
  | turn env cause events lost =>
    rw [Occurrence.polled, occurring, ← List.append_assoc]
    have hevents := (h.attend env cause).receiveAll env events
    obtain ⟨hmodel, hpending⟩ := d.occur_turn env cause events lost
    exact hevents.congr (hmodel ▸ hevents.sound) (fun w hw => hmodel ▸ hw) (congrArg _ hpending)
  | settle env =>
    rw [Occurrence.polled, List.append_nil]
    exact h.settle env
  | readers subscribers =>
    rw [Occurrence.polled, occurring, List.append_nil, List.append_nil]
    exact h.congr h.sound (fun w hw => hw) rfl

theorem run (h : d.Accounts [] [] polled log) (occurrences : List Occurrence) :
    (d.run occurrences).Accounts [] [] (polled ++ occurrences.flatMap Occurrence.polled)
      (log ++ d.log occurrences) := by
  induction occurrences generalizing d polled log with
  | nil => simpa [Daemon.run, Daemon.log, logged] using h
  | cons o rest ih =>
    have hrest := ih (h.occur o)
    rwa [List.append_assoc, List.append_assoc] at hrest

end Accounts

end Daemon

end Tiling
