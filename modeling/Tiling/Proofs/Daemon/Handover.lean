import Tiling.Proofs.Daemon.Settling
import Tiling.Proofs.Model.Restart
/-!
# What a restart hands over

A window that has last been seen to come is in the state that is handed over, unless its
classifier has said that it is not to be managed.  The exception is a window that goes and comes
again while it waits: it waits anew when all is settled, and its successor never learns of it.
-/

namespace Tiling

open Pending (Tidy queue contains_iff)

namespace DisplayEvent

theorem latest?_eq (w : Window) (events : List DisplayEvent) :
    latest? w events = ((events.filter (·.window == w)).filter isLifecycle).getLast? := by
  rw [latest?, List.filter_filter]

theorem latest?_concat (w : Window) (events : List DisplayEvent) (e : DisplayEvent) :
    latest? w (events ++ [e]) =
      if e.isLifecycle && e.window == w then some e else latest? w events := by
  rw [latest?, List.filter_append, List.filter_singleton]
  cases e.isLifecycle && e.window == w <;> simp [latest?]

end DisplayEvent

namespace Daemon

open DisplayEvent (latest? latest?_eq latest?_concat)

/-- The window that a cause has classified, and what it is managed with. -/
def settled (d : Daemon) : Cause → List (Window × Consequences)
  | .classified =>
    match d.pending.nextResolved.1 with
    | some (rule, answer) => [(rule.window, outcome rule answer)]
    | none => []
  | .connection .. | .display | .signal => []

/-- The windows that are classified by something that happens. -/
def classified (d : Daemon) : Occurrence → List (Window × Consequences)
  | .turn _ cause _ _ => d.settled cause
  | .settle _ => d.pending.rules.map fun rule => (rule.window, outcome rule none)
  | .classified .. | .readers _ => []

def classifications (d : Daemon) : List Occurrence → List (Window × Consequences)
  | [] => []
  | o :: rest => d.classified o ++ (d.occur o).classifications rest

/-- By its last classification the window is not to be managed. -/
def Declined (w : Window) (classified : List (Window × Consequences)) : Prop :=
  ∃ csq, ((classified.filter (·.1 == w)).map Prod.snd).getLast? = some csq ∧ csq.manage = false

/-- Among the events that are kept for the window it goes and comes again, and a classifier can
be started for it. -/
def Reopens (d : Daemon) (env : Surroundings) (w : Window) : Prop :=
  d.classifies env w = true ∧ DisplayEvent.returns (queue d.pending.rules w) = true

theorem Steady.reopens_iff {d : Daemon} (h : d.Steady) (env : Surroundings) (w : Window) :
    (settlePending env d).presence w = .waiting ↔ d.Reopens env w := by
  obtain ⟨-, -, hwaited, hothers⟩ := h.settle env
  by_cases hwaits : d.pending.contains w = true
  · obtain ⟨rule, hrule, rfl⟩ := List.mem_map.1 (contains_iff.1 hwaits)
    rw [hwaited rule hrule, Presence.foldl_after_managed_eq_waiting, Reopens,
      Pending.queue_eq h.tidy.nodup hrule]
  · have hempty : queue d.pending.rules w = [] :=
      Pending.queue_eq_nil fun hmem => hwaits (contains_iff.2 hmem)
    rw [hothers w (by simpa using hwaits), h.presence_eq_waiting, Reopens, hempty]
    exact iff_of_false hwaits (by simp [DisplayEvent.returns])

/-! ## Windows that were declined -/

theorem declined_append_of_ne {w : Window} {classified more : List (Window × Consequences)}
    (h : ∀ c ∈ more, c.1 ≠ w) : Declined w (classified ++ more) ↔ Declined w classified := by
  have hnone : more.filter (·.1 == w) = [] :=
    List.filter_eq_nil_iff.2 fun c hc => by simpa using h c hc
  rw [Declined, List.filter_append, hnone, List.append_nil, Declined]

theorem declined_concat {w : Window} {classified : List (Window × Consequences)}
    {csq : Consequences} (h : csq.manage = false) : Declined w (classified ++ [(w, csq)]) :=
  ⟨csq, by simp [List.filter_append], h⟩

/-- A window that has last been seen to come was absent before the events that were kept, if it
is absent after them. -/
theorem eq_absent_of_kept {w : Window} {sequence : UInt16} {events polled : List DisplayEvent}
    (hkept : events <:+ polled.filter (·.window == w))
    (hlatest : latest? w polled = some (.mapRequest w sequence)) {c : Bool} {p : Presence}
    (h : events.foldl (Presence.after c) p = .absent) : p = .absent := by
  rcases Presence.foldl_after_eq_absent h with ⟨hp, -⟩ | ⟨e, he, hmap⟩
  · exact hp
  · obtain ⟨before, hsplit⟩ := hkept
    rw [latest?_eq, ← hsplit, List.filter_append, List.getLast?_append, he, Option.some_or]
      at hlatest
    rw [Option.some.inj hlatest] at hmap
    cases hmap

/-! ## The invariant -/

/-- What is kept for a window are the last of its events, and a window that has last been seen to
come is absent only if it was declined. -/
structure Tracks (d : Daemon) (polled : List DisplayEvent)
    (classified : List (Window × Consequences)) : Prop where
  steady : d.Steady
  kept : ∀ w, queue d.pending.rules w <:+ polled.filter (·.window == w)
  declined : ∀ w sequence, d.presence w = .absent →
    latest? w polled = some (.mapRequest w sequence) → Declined w classified

namespace Tracks

variable {d d' : Daemon} {polled : List DisplayEvent} {said : List (Window × Consequences)}

theorem congr (h : d.Tracks polled said) (hsteady : d'.Steady)
    (hmanages : ∀ w, d'.model.Manages w ↔ d.model.Manages w)
    (hrules : d'.pending.rules = d.pending.rules) : d'.Tracks polled said where
  steady := hsteady
  kept := hrules ▸ h.kept
  declined w sequence hw := by
    refine h.declined w sequence (Eq.trans ?_ hw)
    exact (presence_congr (hmanages w) (contains_congr (congrArg _ hrules) w)).symm

theorem of_eq (h : d.Tracks polled said) (hmodel : d'.model = d.model)
    (hrules : d'.pending.rules = d.pending.rules) : d'.Tracks polled said :=
  h.congr (h.steady.of_eq hmodel hrules) (fun _ => by rw [hmodel]) hrules

theorem resolveNext (h : d.Tracks polled said) (env : Surroundings) :
    (resolveNext env d).Tracks polled (said ++ d.settled .classified) := by
  rw [settled, Daemon.resolveNext]
  cases hnext : d.pending.nextResolved with
  | mk found after =>
    cases found with
    | none =>
      rw [List.append_nil]
      exact h.of_eq rfl (Pending.nextResolved_none hnext)
    | some found =>
      obtain ⟨rule, answer⟩ := found
      obtain ⟨u, hu⟩ : ∃ u : Daemon, u = { d with pending := after } := ⟨_, rfl⟩
      have hperm : d.pending.rules.Perm (rule :: u.pending.rules) := by
        rw [hu]
        exact Pending.nextResolved_some hnext
      have hmodel : u.model = d.model := by rw [hu]; rfl
      obtain ⟨husteady, hown, habsent, hrest, hempty, hqueue⟩ := h.steady.take hmodel hperm
      obtain ⟨hsteady, -, hkept, hrule, hother⟩ := husteady.resolve habsent hown env answer
      dsimp only
      rw [← hu]
      refine ⟨hsteady, ?_, ?_⟩
      · intro w
        have hmine := h.kept w
        rw [hqueue] at hmine
        rw [hkept]
        by_cases hw : rule.window = w
        · rw [← hw, hempty]
          exact List.nil_suffix
        · rwa [if_neg hw] at hmine
      · intro w sequence hw hlatest
        by_cases hwindow : rule.window = w
        · subst hwindow
          have hmine := h.kept rule.window
          rw [hqueue, if_pos rfl] at hmine
          rw [hrule] at hw
          -- the kept events end with its coming, so it was absent before them: it was declined
          have hstart := eq_absent_of_kept hmine hlatest hw
          apply declined_concat
          cases hmanage : (outcome rule answer).manage with
          | false => rfl
          | true =>
            rw [hmanage] at hstart
            cases hstart
        · rw [hother w hwindow, hrest w hwindow] at hw
          rw [declined_append_of_ne (by simpa using hwindow)]
          exact h.declined w sequence hw hlatest

theorem attend (h : d.Tracks polled said) (env : Surroundings) (cause : Cause) :
    (attend env d cause).1.Tracks polled (said ++ d.settled cause) := by
  cases cause with
  | classified => exact h.resolveNext env
  | connection connection request =>
    obtain ⟨-, hmanages, hpending⟩ := serve_spec h.steady.sound connection request
    rw [settled, List.append_nil]
    exact h.congr (h.steady.serve connection request) hmanages (congrArg _ hpending)
  | display =>
    rw [settled, List.append_nil]
    exact h
  | signal =>
    rw [settled, List.append_nil]
    exact h.of_eq rfl rfl

/-- When all is settled, no window is absent that has last been seen to come, unless it was
declined and does not wait to be classified again. -/
theorem settled_ne_absent (h : d.Tracks polled said) {w : Window} {sequence : UInt16}
    (hlatest : latest? w polled = some (.mapRequest w sequence))
    (hw : d.pending.contains w = true ∨ ¬ Declined w said) (env : Surroundings) :
    (settlePending env d).presence w ≠ .absent := by
  obtain ⟨-, -, hwaited, hothers⟩ := h.steady.settle env
  intro habsent
  by_cases hwaits : d.pending.contains w = true
  · obtain ⟨rule, hrule, rfl⟩ := List.mem_map.1 (contains_iff.1 hwaits)
    have hmine := h.kept rule.window
    rw [Pending.queue_eq h.steady.tidy.nodup hrule] at hmine
    rw [hwaited rule hrule] at habsent
    cases eq_absent_of_kept hmine hlatest habsent
  · rw [hothers w (by simpa using hwaits)] at habsent
    exact hw.resolve_left hwaits (h.declined w sequence habsent hlatest)

theorem settle (h : d.Tracks polled said) (env : Surroundings) :
    (settlePending env d).Tracks polled (said ++ d.classified (.settle env)) := by
  obtain ⟨hsteady, hqueue, -, -⟩ := h.steady.settle env
  refine ⟨hsteady, ?_, ?_⟩
  · intro w
    rw [hqueue]
    exact List.nil_suffix
  · intro w sequence hw hlatest
    -- a window that waited is managed first, so one that is absent has been classified before
    have hfree : d.pending.contains w ≠ true := fun hwaits =>
      h.settled_ne_absent hlatest (.inl hwaits) env hw
    have hdeclined : Declined w said := by
      by_contra hnot
      exact h.settled_ne_absent hlatest (.inr hnot) env hw
    refine (declined_append_of_ne ?_).2 hdeclined
    intro c hc heq
    obtain ⟨rule, hrule, rfl⟩ := List.mem_map.1 hc
    exact hfree (contains_iff.2 (List.mem_map.2 ⟨rule, hrule, heq⟩))

/-- An event of a window that waits is kept. -/
theorem keep (h : d.Tracks polled said) {e : DisplayEvent}
    (hwaits : d.pending.contains e.window = true) {u : Daemon} (hmodel : u.model = d.model)
    (hrules : u.pending.rules = Pending.enqueueIn e d.pending.rules) :
    u.Tracks (polled ++ [e]) said := by
  have hcontains (w : Window) : u.pending.contains w = d.pending.contains w :=
    contains_congr (by rw [hrules, Pending.map_window_enqueueIn]) w
  have hpresence (w : Window) : u.presence w = d.presence w :=
    presence_congr (by rw [hmodel]) (hcontains w)
  refine ⟨⟨hmodel ▸ h.steady.sound, hmodel ▸ h.steady.room, ?_, ?_, ?_⟩, ?_, ?_⟩
  · exact hrules ▸ h.steady.tidy.enqueueIn e
  · intro w hw
    rw [hcontains]
    exact h.steady.apart w (hmodel ▸ hw)
  · exact hrules ▸ Pending.consequences_enqueueIn h.steady.standard
  · intro w
    obtain ⟨before, hsplit⟩ := h.kept w
    rw [hrules, Pending.queue_enqueueIn (contains_iff.1 hwaits), List.filter_append, ← hsplit,
      List.append_assoc]
    exact List.suffix_append _ _
  · intro w sequence hw hlatest
    rw [hpresence] at hw
    rw [latest?_concat] at hlatest
    have hne : e.window ≠ w := by
      rintro rfl
      rw [(presence_eq_absent.1 hw).2] at hwaits
      cases hwaits
    rw [beq_eq_false_iff_ne.2 hne, Bool.and_false] at hlatest
    exact h.declined w sequence hw hlatest

/-- Any other event is carried out. -/
theorem carryOut (h : d.Tracks polled said) (env : Surroundings) {e : DisplayEvent}
    (hfree : d.pending.contains e.window ≠ true) :
    (handleEvent env d e).Tracks (polled ++ [e]) said := by
  have hreplays := replays_handleEvent h.steady env e
  refine ⟨hreplays.steady, ?_, ?_⟩
  · intro w
    rw [hreplays.queue, List.filter_append, List.filter_singleton]
    by_cases hw : e.window = w
    · rw [Pending.queue_eq_nil fun hmem => hfree (contains_iff.2 (hw ▸ hmem))]
      exact List.nil_suffix
    · rw [beq_eq_false_iff_ne.2 hw]
      simpa using h.kept w
  · intro w sequence hw hlatest
    rw [hreplays.presence w, List.filter_singleton] at hw
    rw [latest?_concat] at hlatest
    by_cases hwindow : e.window = w
    · rw [hwindow, beq_self_eq_true] at hw
      rw [hwindow, beq_self_eq_true, Bool.and_true] at hlatest
      cases hlife : e.isLifecycle with
      | true =>
        rw [hlife] at hlatest
        have he := Option.some.inj hlatest
        exact absurd hw (Presence.after_mapRequest_ne (by rw [he]; rfl))
      | false =>
        rw [hlife] at hlatest
        have hbefore : (d.presence w).after (d.classifies env w) e = .absent := hw
        rw [Presence.after_quiet hlife] at hbefore
        exact h.declined w sequence hbefore hlatest
    · rw [beq_eq_false_iff_ne.2 hwindow] at hw
      rw [beq_eq_false_iff_ne.2 hwindow, Bool.and_false] at hlatest
      exact h.declined w sequence hw hlatest

theorem receive (h : d.Tracks polled said) (env : Surroundings) (e : DisplayEvent) :
    (receive env d e).Tracks (polled ++ [e]) said := by
  rw [Daemon.receive, Pending.enqueue?]
  by_cases hwaits : d.pending.contains e.window = true
  · rw [if_pos hwaits]
    exact h.keep hwaits rfl rfl
  · rw [if_neg hwaits]
    exact h.carryOut env hwaits

theorem receiveAll (h : d.Tracks polled said) (env : Surroundings) (events : List DisplayEvent) :
    (events.foldl (Daemon.receive env) d).Tracks (polled ++ events) said := by
  induction events generalizing d polled with
  | nil => simpa using h
  | cons e rest ih =>
    have hrest := ih (h.receive env e)
    rwa [List.append_assoc] at hrest

theorem occur (h : d.Tracks polled said) (o : Occurrence) :
    (d.occur o).Tracks (polled ++ o.polled) (said ++ d.classified o) := by
  cases o with
  | classified w answer =>
    rw [Occurrence.polled, classified, List.append_nil, List.append_nil, Daemon.occur]
    split
    · exact h.of_eq rfl rfl
    · exact h
  | turn env cause events lost =>
    have hall := (h.attend env cause).receiveAll env events
    obtain ⟨hmodel, hpending⟩ := d.occur_turn env cause events lost
    exact hall.of_eq hmodel (congrArg _ hpending)
  | settle env =>
    rw [Occurrence.polled, List.append_nil]
    exact h.settle env
  | readers subscribers =>
    rw [Occurrence.polled, classified, List.append_nil, List.append_nil]
    exact h.of_eq rfl rfl

theorem run (h : d.Tracks polled said) (occurrences : List Occurrence) :
    (d.run occurrences).Tracks (polled ++ occurrences.flatMap Occurrence.polled)
      (said ++ d.classifications occurrences) := by
  induction occurrences generalizing d polled said with
  | nil => simpa [Daemon.run, classifications] using h
  | cons o rest ih =>
    have hrest := ih (h.occur o)
    rwa [List.append_assoc, List.append_assoc] at hrest

end Tracks

/-! ## Programs that come up -/

theorem steady_configure {d : Daemon} (hsound : d.model.Sound) (hroom : d.model.HasRoom)
    (hrules : d.pending.rules = []) : d.configure.enter.Steady := by
  have hkeeps := Stage.keeps_applyLayouts (shownDesktops d.model) d.quietStage
  have hcalm (rs : List DesktopRef) (s : Stage) :
      Stage.Calm none s (rs.foldl Stage.applyLayout s) := by
    induction rs generalizing s with
    | nil => exact .refl s
    | cons r rs ih => exact (Stage.Calm.applyLayout s r).trans (ih _)
  have hmodel : d.configure.enter.model =
      ((shownDesktops d.model).foldl Stage.applyLayout d.quietStage).model := rfl
  have hempty : d.configure.enter.pending.rules = [] := hrules
  refine ⟨?_, ?_, ?_, ?_, ?_⟩
  · rw [hmodel]
    exact (hkeeps.stays hsound).sound
  · rw [hmodel]
    exact (hcalm _ d.quietStage).hasRoom hroom
  · rw [hempty]
    exact ⟨List.nodup_nil, by simp⟩
  · intro w _
    rw [← Bool.not_eq_true, contains_iff, hempty]
    simp
  · rw [hempty]
    simp

/-- A program that comes up, on its own or with what a predecessor has handed over.  It has an
output and the name of a desktop.  Settings with an empty list of names are taken as well, but
without a desktop there is none to manage a window on: windows that come are mapped and nothing
else, whatever the classifier says, and no window is ever handed over. -/
inductive Begins : Daemon → Prop where
  | ready {outputs : List (String × Rect)} {config : Config} (ids : FeedbackIds)
      (files : FifoDirectory) (houtputs : outputs ≠ []) (hnames : config.desktopNames ≠ []) :
      Begins (ready outputs config ids files)
  | successor {d : Daemon} (h : Begins d) (occurrences : List Occurrence) (env : Surroundings)
      (outputs : List (String × Rect)) (config : Config) (ids : FeedbackIds)
      (files : FifoDirectory) (descriptor : Nat) (stream? : Int32 → Option Stream) :
      Begins (({ start outputs config ids files with nextDescriptor := descriptor }.restore
        (handOver env (d.run occurrences)).2.snapshot stream?).configure.enter)

theorem tracks_of_steady {d : Daemon} (h : d.Steady) (hrules : d.pending.rules = []) :
    d.Tracks [] [] := by
  refine ⟨h, fun w => ?_, fun w sequence _ hlatest => by cases hlatest⟩
  rw [hrules]
  exact List.nil_suffix

theorem Begins.spec {d : Daemon} (h : Begins d) : d.Steady ∧ d.pending.rules = [] := by
  induction h with
  | @ready outputs config ids files houtputs hnames =>
    refine ⟨steady_configure ?_ (Model.hasRoom_fresh houtputs hnames) rfl, rfl⟩
    exact Stage.sound_fresh outputs config.desktopNames config.settings ids
  | @successor d _ occurrences env outputs config ids files descriptor stream? ih =>
    have hsettled := (((tracks_of_steady ih.1 ih.2).run occurrences).settle env).steady
    obtain ⟨u, hu⟩ : ∃ u, u = settlePending env (d.run occurrences) := ⟨_, rfl⟩
    rw [← hu] at hsettled
    have hcarried : Stage.Carried u.stage.model := by
      refine ⟨hsettled.sound, ?_⟩
      obtain ⟨r, hr, -⟩ := hsettled.room
      obtain ⟨i, hi, -⟩ := Option.map_eq_some_iff.1 hr
      obtain ⟨monitor, hmonitor, -⟩ := Option.bind_eq_some_iff.1 hi
      have hlt := (List.getElem?_eq_some_iff.1 hmonitor).1
      exact Nat.le_sub_one_of_lt hlt
    have hmodel : ({ start outputs config ids files with nextDescriptor := descriptor }.restore
        (handOver env (d.run occurrences)).2.snapshot stream?).model =
          (u.stage.restart []).model := by
      rw [hu]
      rfl
    refine ⟨steady_configure ?_ ?_ rfl, rfl⟩
    · rw [hmodel]
      exact (Stage.carried_restart hcarried []).1
    · rw [hmodel]
      obtain ⟨r, hr, hd⟩ := hsettled.room
      have halike := Stage.alike_restart hcarried []
      exact ⟨r, halike.focusedDesktop?.trans hr, (congrArg _ (halike.desktop? r)).trans hd⟩

/-- What waits anew when all is settled, and so is missing in what is handed over, are the
windows that go and come again by the events that were kept for them.  Every other window that
has last been seen to come is handed over, unless it was declined and does not wait to be
classified again.  All this is about a program with an output and a desktop, as `Begins` has it;
without a desktop nothing is managed and nothing handed over. -/
theorem handOver_manages_iff {d : Daemon} (hd : Begins d) (occurrences : List Occurrence)
    (env : Surroundings) :
    (∀ w, (settlePending env (d.run occurrences)).pending.contains w = true ↔
        (d.run occurrences).Reopens env w) ∧
      ∀ w sequence, latest? w (occurrences.flatMap Occurrence.polled) =
          some (.mapRequest w sequence) →
        (d.run occurrences).pending.contains w = true ∨
          ¬ Declined w (d.classifications occurrences) →
        ((handOver env (d.run occurrences)).2.snapshot.model.Manages w ↔
          ¬ (d.run occurrences).Reopens env w) := by
  obtain ⟨hsteady, hrules⟩ := hd.spec
  have htracks := (tracks_of_steady hsteady hrules).run occurrences
  rw [List.nil_append, List.nil_append] at htracks
  generalize d.run occurrences = d' at htracks ⊢
  obtain ⟨hsettled, -⟩ := htracks.steady.settle env
  have hreopens (w : Window) := htracks.steady.reopens_iff env w
  constructor
  · intro w
    rw [← hsettled.presence_eq_waiting, hreopens]
  · intro w sequence hlatest hw
    have hpresent := htracks.settled_ne_absent hlatest hw env
    rw [← hreopens]
    show (settlePending env d').model.Manages w ↔ _
    rw [← presence_eq_managed]
    cases hp : (settlePending env d').presence w with
    | absent => exact absurd hp hpresent
    | waiting => simp
    | managed => simp

/-! ## A window that is lost -/

/-- A window comes, and asks for a geometry while it waits. -/
def patient : List Occurrence :=
  [.turn silent .display [.mapRequest 1 0, .configureRequest 1 ⟨0, 0, 320, 240⟩] false]

/-- A window comes; while it waits it goes and comes again. -/
def restless : List Occurrence :=
  [.turn silent .display [.mapRequest 1 0] false,
    .turn silent .display [.unmapped 1, .mapRequest 1 1] false]

theorem begins_classifying : Begins classifying := .ready _ _ (by simp) (by decide)

theorem handOver_patient :
    (handOver silent (classifying.run patient)).2.snapshot.model.Manages 1 :=
  ((handOver_manages_iff begins_classifying patient silent).2 1 0 rfl
    (.inl (by decide +kernel))).2 fun h => by
      have hreturns := h.2
      revert hreturns
      decide +kernel

/-- The window waits still when all is settled, and the state that is handed over is without it. -/
theorem handOver_restless :
    (settlePending silent (classifying.run restless)).pending.contains 1 = true ∧
      latest? 1 (restless.flatMap Occurrence.polled) = some (.mapRequest 1 1) ∧
      classifying.classifications restless = [] ∧
      ¬ (handOver silent (classifying.run restless)).2.snapshot.model.Manages 1 := by
  refine ⟨?_, ?_, ?_, ?_⟩ <;> decide +kernel

end Daemon

end Tiling
