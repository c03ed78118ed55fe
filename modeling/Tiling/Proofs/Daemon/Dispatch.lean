import Tiling.Proofs.Daemon.Ghosts
/-!
# No event is lost

The program goes from one state to the next by carrying out an event, or by something that
carries out none.  Of the events that it takes from the display, each is carried out once or
kept once, with its window, and those of a window stay in their order.
-/

namespace Tiling

open Pending (Tidy queue)

/-- Lists that hold the same events of every window hold the same events. -/
theorem perm_of_windows {events others : List DisplayEvent}
    (h : ∀ w, events.filter (·.window == w) = others.filter (·.window == w)) :
    events.Perm others := by
  rw [List.perm_iff_count]
  intro e
  have hcount (l : List DisplayEvent) : l.count e = (l.filter (·.window == e.window)).count e :=
    (List.count_filter (by simp)).symm
  rw [hcount, h, ← hcount]

/-- The windows in the leaves of all trees. -/
def Model.windows (m : Model) : List Window :=
  m.tree.nodes.cells.toList.filterMap fun cell => (cell.bind Node.client).map Client.window

theorem Model.mem_windows {m : Model} {w : Window} (h : m.Manages w) : w ∈ m.windows := by
  obtain ⟨n, hn⟩ := manages_iff.1 h
  obtain ⟨client, hclient, rfl⟩ := Option.map_eq_some_iff.1 hn
  obtain ⟨node, hnode, hclient⟩ := Option.bind_eq_some_iff.1 hclient
  have hcell : m.tree.nodes.cells[n.index]? = some (some node) := Option.join_eq_some_iff.1 hnode
  refine List.mem_filterMap.2 ⟨some node, ?_, by rw [Option.bind_some, hclient, Option.map_some]⟩
  exact Array.mem_toList_iff.2 (Array.mem_of_getElem? hcell)

namespace Daemon

/-- What the program does without carrying out an event of the display. -/
inductive Aside : Daemon → Daemon → Prop where
  /-- An event is kept for its window. -/
  | keep {d : Daemon} {e : DisplayEvent} {pending : Pending}
      (h : d.pending.enqueue? e = some pending) : Aside d { d with pending := pending }
  /-- A classifier ends. -/
  | answer (d : Daemon) (task : Nat) (answer : Option String) :
      Aside d { d with pending := d.pending.complete task answer }
  /-- The next window that is settled is taken out of the table. -/
  | settled (d : Daemon) : Aside d { d with pending := d.pending.nextResolved.2 }
  /-- All windows are taken out of the table. -/
  | drained (d : Daemon) : Aside d { d with pending := d.pending.drain.2 }
  | manage (d : Daemon) (env : Surroundings) (w : Window) (csq : Consequences) :
      Aside d (d.manage env w csq)
  | serve (d : Daemon) (connection : Stream) (request : Bytes) :
      Aside d (d.serve connection request).1
  | stop (d : Daemon) : Aside d { d with runState := .stopping }
  | readers (d : Daemon) (subscribers : Subscribers) :
      Aside d { d with subscribers := subscribers }

/-- From `d` to `d'` some events are carried out, in this order. -/
inductive Dispatches : Daemon → List DisplayEvent → Daemon → Prop where
  | refl (d : Daemon) : Dispatches d [] d
  | aside {d d' d'' : Daemon} {events : List DisplayEvent} (h : Aside d d')
      (rest : Dispatches d' events d'') : Dispatches d events d''
  | handle {d d' : Daemon} (env : Surroundings) (e : DisplayEvent) {events : List DisplayEvent}
      (rest : Dispatches (handleEvent env d e) events d') : Dispatches d (e :: events) d'

namespace Dispatches

variable {d d' d'' : Daemon} {events more : List DisplayEvent}

theorem trans (h : Dispatches d events d') (h' : Dispatches d' more d'') :
    Dispatches d (events ++ more) d'' := by
  induction h with
  | refl d => exact h'
  | aside hstep _ ih => exact .aside hstep (ih h')
  | handle env e _ ih => exact .handle env e (ih h')

theorem one (h : Aside d d') : Dispatches d [] d' := .aside h (.refl d')

/-- Steps that are each logged are logged together. -/
theorem logged {α : Type} {f : Daemon → α → Daemon} {g : Daemon → α → List Handled}
    (h : ∀ d a, Dispatches d ((g d a).map Handled.event) (f d a)) (d : Daemon) (as : List α) :
    Dispatches d ((Daemon.logged f g d as).map Handled.event) (as.foldl f d) := by
  induction as generalizing d with
  | nil => exact .refl d
  | cons a rest ih =>
    rw [Daemon.logged, List.map_append]
    exact (h d a).trans (ih (f d a))

theorem handling (env : Surroundings) (d : Daemon) (e : DisplayEvent) :
    Dispatches d ((d.handling e).map Handled.event) (handleEvent env d e) :=
  .handle env e (.refl _)

theorem receiving (env : Surroundings) (d : Daemon) (e : DisplayEvent) :
    Dispatches d ((d.receiving e).map Handled.event) (receive env d e) := by
  rw [Daemon.receiving, receive]
  cases hkeep : d.pending.enqueue? e with
  | some pending => exact one (.keep hkeep)
  | none => exact handling env d e

theorem resolving (env : Surroundings) (d : Daemon) (rule : PendingRule)
    (answer : Option String) :
    Dispatches d ((Daemon.resolving env d rule answer).map Handled.event)
      (resolve env d rule answer) :=
  .aside (.manage d env rule.window (outcome rule answer)) (logged (handling env) _ rule.events)

theorem attending (env : Surroundings) (d : Daemon) (cause : Cause) :
    Dispatches d ((Daemon.attending env d cause).map Handled.event) (attend env d cause).1 := by
  cases cause with
  | connection connection request => exact one (.serve d connection request)
  | display => exact .refl d
  | signal => exact one (.stop d)
  | classified =>
    have htaken : Aside d { d with pending := d.pending.nextResolved.2 } := .settled d
    rw [Daemon.attending, attend, resolveNext]
    generalize d.pending.nextResolved = outcome at htaken ⊢
    obtain ⟨settled, pending⟩ := outcome
    cases settled with
    | none => exact one htaken
    | some found => exact .aside htaken (resolving env _ found.1 found.2)

theorem occurring (d : Daemon) (o : Occurrence) :
    Dispatches d ((d.occurring o).map Handled.event) (d.occur o) := by
  cases o with
  | classified window answer =>
    rw [Daemon.occurring, occur]
    cases d.pending.classifier? window with
    | none => exact .refl d
    | some c => exact one (.answer d c.task answer)
  | settle env =>
    exact .aside (.drained d) (logged (fun d rule => resolving env d rule none) _ d.pending.drain.1)
  | readers subscribers => exact one (.readers d subscribers)
  | turn env cause events lost =>
    have hevents := (attending env d cause).trans (logged (receiving env) _ events)
    generalize hu : events.foldl (receive env) (attend env d cause).1 = u at hevents
    have hturn : d.occur (.turn env cause events lost) =
        { u.noticeLoss lost with subscribers := (u.noticeLoss lost).subscribers.prune } := by
      rw [← hu]
      rfl
    have hloss : Dispatches u [] (u.noticeLoss lost) := by
      rw [noticeLoss]
      split
      · exact one (.stop u)
      · exact .refl u
    rw [hturn, Daemon.occurring, List.map_append]
    simpa only [List.append_nil] using hevents.trans (hloss.trans (one (.readers _ _)))

end Dispatches

/-- The log of a run holds the events that are carried out in it. -/
theorem dispatches_run (d : Daemon) (occurrences : List Occurrence) :
    Dispatches d ((d.log occurrences).map Handled.event) (d.run occurrences) :=
  .logged Dispatches.occurring d occurrences

/-- Windows that have only been seen to come. -/
theorem shown_of_mapRequests {windows : List Window} {w : Window} (h : w ∈ windows) :
    Shown w (windows.map fun v => ⟨.mapRequest v 0, false⟩) := by
  obtain ⟨log, hlog⟩ : ∃ log : List Handled,
    log = windows.map fun v => ⟨.mapRequest v 0, false⟩ := ⟨_, rfl⟩
  rw [← hlog]
  cases hlatest : Handled.latest? w log with
  | none =>
    have hfirst : ⟨.mapRequest w 0, false⟩ ∈ log := hlog ▸ List.mem_map_of_mem h
    have hnone := List.filter_eq_nil_iff.1 (List.getLast?_eq_none_iff.1 hlatest) _ hfirst
    simp [DisplayEvent.isLifecycle, DisplayEvent.window] at hnone
  | some last =>
    have hlast := (List.mem_filter.1 (List.mem_of_getLast? hlatest)).1
    rw [hlog] at hlast
    obtain ⟨v, -, rfl⟩ := List.mem_map.1 hlast
    exact ⟨_, hlatest, .inl rfl⟩

/-- A model in good order with nothing waiting has its accounts in order, once every window that
it manages already counts as seen to come. -/
theorem accounts_of_sound {d : Daemon} (hsound : d.model.Sound) (hrules : d.pending.rules = []) :
    ∃ log : List Handled, d.Accounts [] [] (log.map Handled.event) log := by
  refine ⟨d.model.windows.map fun w => ⟨.mapRequest w 0, false⟩, hsound, ?_, fun w => ?_,
    fun w hw => ?_⟩
  · rw [hrules]
    exact ⟨List.nodup_nil, by simp⟩
  · rw [hrules, Pending.queue_eq_nil (by simp), List.append_nil, List.append_nil]
  · have hmanaged : w ∈ d.model.windows := by
      rw [hrules] at hw
      rcases hw with hw | hw | hw
      · exact Model.mem_windows hw
      · cases hw
      · cases hw
    exact shown_of_mapRequests hmanaged

/-- Each event that is taken from the display is carried out once, or kept once by the only rule
of its window, and the events of a window stay in their order. -/
theorem events_kept {d : Daemon} (hsound : d.model.Sound) (hrules : d.pending.rules = [])
    (occurrences : List Occurrence) :
    let polled := occurrences.flatMap Occurrence.polled
    let dispatched := (d.log occurrences).map Handled.event
    let rules := (d.run occurrences).pending.rules
    Dispatches d dispatched (d.run occurrences) ∧ Tidy rules ∧
      (∀ w, polled.filter (·.window == w) =
        dispatched.filter (·.window == w) ++ queue rules w) ∧
      polled.Perm (dispatched ++ rules.flatMap PendingRule.events) := by
  intro polled dispatched rules
  obtain ⟨log, hstart⟩ := accounts_of_sound hsound hrules
  have haccounts := hstart.run occurrences
  have horder (w : Window) : polled.filter (·.window == w) =
      dispatched.filter (·.window == w) ++ queue rules w := by
    have hbalance := haccounts.balance w
    rw [List.append_nil, List.map_append, List.filter_append, List.filter_append,
      List.append_assoc] at hbalance
    -- what counted as logged at the start is on both sides
    exact List.append_cancel_left hbalance
  refine ⟨dispatches_run d occurrences, haccounts.tidy, horder, perm_of_windows fun w => ?_⟩
  rw [List.filter_append, haccounts.tidy.filter_flatMap, horder]

/-- Two windows come and wait, and each of them goes; the first one comes again before its
classifier answers, so that it waits anew. -/
def interleaved : List Occurrence :=
  [.turn silent .display [.mapRequest 1 0, .mapRequest 2 0, .unmapped 1] false,
    .turn silent .display [.unmapped 2, .mapRequest 1 1] false] ++ answered ++
    [.turn silent .display [.configureRequest 1 ⟨0, 0, 320, 240⟩] false]

theorem kept_interleaved :
    classifying.model.Sound ∧ classifying.pending.rules = [] ∧
      Dispatches classifying [.mapRequest 1 0, .mapRequest 2 0, .unmapped 1, .mapRequest 1 1]
        (classifying.run interleaved) ∧
      (classifying.run interleaved).pending.rules.flatMap PendingRule.events =
        [.unmapped 2, .configureRequest 1 ⟨0, 0, 320, 240⟩] ∧
      ∀ w, (interleaved.flatMap Occurrence.polled).filter (·.window == w) =
        ([.mapRequest 1 0, .mapRequest 2 0, .unmapped 1, .mapRequest 1 1] :
          List DisplayEvent).filter (·.window == w) ++
          queue (classifying.run interleaved).pending.rules w := by
  have hsound : classifying.model.Sound := (accounts_ready _ _ _ _).sound
  have hdispatched : (classifying.log interleaved).map Handled.event =
      [.mapRequest 1 0, .mapRequest 2 0, .unmapped 1, .mapRequest 1 1] := by
    decide +kernel
  obtain ⟨hdispatches, -, horder, -⟩ := events_kept hsound rfl interleaved
  rw [hdispatched] at hdispatches horder
  exact ⟨hsound, rfl, hdispatches, by decide +kernel, horder⟩

end Daemon

end Tiling
