import Tiling.Proofs.Daemon.Accounts
/-!
# Ghost windows

A window should be managed only while it has last been seen to come.  An event that is kept for
a waiting window is not put back into its queue when the window waits again by the time it is
carried out, so a window that goes can be missed; that is the only way in which one is.
-/

namespace Tiling

open Pending (queue contains_iff)

namespace Stage

theorem keeps_applyLayouts (rs : List DesktopRef) (s : Stage) :
    s.Keeps (rs.foldl Stage.applyLayout s) := by
  induction rs generalizing s with
  | nil => exact Keeps.refl s
  | cons r rs ih => exact (Keeps.applyLayout s r).trans (ih _)

end Stage

namespace Daemon

theorem accounts_ready (outputs : List (String × Rect)) (config : Config) (ids : FeedbackIds)
    (files : FifoDirectory) : (ready outputs config ids files).Accounts [] [] [] [] := by
  have hkeeps := Stage.keeps_applyLayouts (shownDesktops (Model.fresh outputs config.desktopNames))
    (Stage.fresh outputs config.desktopNames config.settings ids)
  have hstays := hkeeps.stays (Stage.sound_fresh outputs config.desktopNames config.settings ids)
  have hrules : (ready outputs config ids files).pending.rules = [] := rfl
  refine ⟨hstays.sound, ⟨List.nodup_nil, by simp [hrules]⟩, fun w => rfl, fun w hw => ?_⟩
  rcases hw with hw | hw | hw
  · exact absurd ((hstays.manages_iff w).1 hw)
      ((Model.isBlank_fresh outputs config.desktopNames).not_manages w)
  · cases hw
  · cases hw

/-- By the last event by which it came or went the window went, and that event was carried out
while the window was waiting. -/
def Swallowed (w : Window) (log : List Handled) : Prop :=
  ∃ h, Handled.latest? w log = some h ∧ h.event.isMapRequest = false ∧ h.waiting = true

/-- Of a window that is not waiting every event has been carried out. -/
theorem Accounts.latest?_eq {d : Daemon} {polled : List DisplayEvent} {log : List Handled}
    (h : d.Accounts [] [] polled log) {w : Window} (hw : d.pending.contains w = false) :
    DisplayEvent.latest? w polled = (Handled.latest? w log).map Handled.event := by
  have hempty : queue d.pending.rules w = [] := by
    refine Pending.queue_eq_nil fun hmem => ?_
    rw [contains_iff.2 hmem] at hw
    cases hw
  have hsame := h.balance w
  rw [hempty, List.append_nil, List.append_nil] at hsame
  have hsplit (events : List DisplayEvent) :
      events.filter (fun e => e.isLifecycle && e.window == w) =
        (events.filter (·.window == w)).filter DisplayEvent.isLifecycle := by
    rw [List.filter_filter]
  rw [DisplayEvent.latest?, hsplit, hsame, ← hsplit, List.filter_map, List.getLast?_map]
  rfl

/-- When a managed window is not waiting, it has last been seen to come, if and only if its last
event was not swallowed. -/
theorem mapRequest_latest_iff (outputs : List (String × Rect)) (config : Config) (ids : FeedbackIds)
    (files : FifoDirectory) (occurrences : List Occurrence) (w : Window)
    (hwaits : ((ready outputs config ids files).run occurrences).pending.contains w = false)
    (hmanages : ((ready outputs config ids files).run occurrences).model.Manages w) :
    (∃ sequence, DisplayEvent.latest? w (occurrences.flatMap Occurrence.polled) =
        some (.mapRequest w sequence)) ↔
      ¬ Swallowed w ((ready outputs config ids files).log occurrences) := by
  have haccounts := (accounts_ready outputs config ids files).run occurrences
  rw [List.nil_append, List.nil_append] at haccounts
  rw [haccounts.latest?_eq hwaits]
  obtain ⟨h, hlatest, hshown⟩ := haccounts.shown w (.inl hmanages)
  have hwindow : h.event.window = w := by
    have hmem := List.mem_of_getLast? hlatest
    have hboth := (List.mem_filter.1 hmem).2
    simpa using ((Bool.and_eq_true _ _).mp hboth).2
  rw [hlatest, Option.map_some]
  constructor
  · rintro ⟨sequence, hevent⟩ ⟨h', hlatest', hgone, -⟩
    obtain rfl : h = h' := Option.some.inj (hlatest.symm.trans hlatest')
    rw [Option.some.inj hevent] at hgone
    cases hgone
  · intro hnot
    have hmap : h.event.isMapRequest = true := by
      rcases hshown with hmap | hwaiting
      · exact hmap
      · cases hmap : h.event.isMapRequest with
        | true => rfl
        | false => exact absurd ⟨h, hlatest, hmap, hwaiting⟩ hnot
    cases hevent : h.event with
    | mapRequest v sequence =>
      rw [hevent] at hwindow
      exact ⟨sequence, by rw [show v = w from hwindow]⟩
    | _ =>
      rw [hevent] at hmap
      cases hmap

/-! ## A window that is missed -/

/-- Windows that do not say what they are, and commands that can all be started. -/
def silent : Surroundings := ⟨⟨fun _ => .unknown, fun _ => false⟩, fun _ => true⟩

/-- A program with one output and a classifier. -/
def classifying : Daemon :=
  ready [("S", ⟨0, 0, 640, 480⟩)]
    { Config.standard with settings := { Settings.standard with rulesCommand := "classify" } }
    .unavailable ⟨"/tmp", true, []⟩

/-- The classifier of the first window answers, and the answer is taken up. -/
def answered : List Occurrence :=
  [.classified 1 (some ""), .turn silent .classified [] false]

/-- A window comes; while it waits it goes, comes and goes again; then it is classified twice. -/
def twice : List Occurrence :=
  [.turn silent .display [.mapRequest 1 0] false,
    .turn silent .display [.unmapped 1, .mapRequest 1 1, .unmapped 1] false] ++
    answered ++ answered

theorem not_swallowed_answered :
    ¬ Swallowed 1 (classifying.log (.turn silent .display [.mapRequest 1 0] false :: answered)) :=
  (mapRequest_latest_iff _ _ _ _ _ 1 (by decide +kernel) (by decide +kernel)).1 ⟨0, rfl⟩

/-- Nothing waits any more, the window has gone, and it is managed. -/
theorem managed_twice :
    (classifying.run twice).pending.isEmpty = true ∧ (classifying.run twice).model.Manages 1 ∧
      DisplayEvent.latest? 1 (twice.flatMap Occurrence.polled) = some (.unmapped 1) := by
  refine ⟨?_, ?_, ?_⟩ <;> decide +kernel

end Daemon

end Tiling
