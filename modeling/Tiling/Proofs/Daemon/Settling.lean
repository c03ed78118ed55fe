import Tiling.Proofs.Daemon.Presence
/-!
# Settling what waits

Before the program hands over it manages every window that waits.  The events that were kept are
carried out one by one, so a window that goes and comes again by them may wait anew, and is then
missing in what is handed over.  No other window is lost.
-/

namespace Tiling

open Pending (Tidy queue contains_iff)

namespace Pending

theorem queue_eq {rules : List PendingRule} (h : (rules.map PendingRule.window).Nodup)
    {rule : PendingRule} (hrule : rule ∈ rules) : queue rules rule.window = rule.events := by
  induction rules with
  | nil => cases hrule
  | cons first rest ih =>
    rw [List.map_cons, List.nodup_cons] at h
    rw [queue_cons]
    rcases List.mem_cons.1 hrule with rfl | hrest
    · rw [if_pos rfl]
    · rw [if_neg fun heq => h.1 (List.mem_map.2 ⟨rule, hrest, heq.symm⟩), ih h.2 hrest]

theorem consequences_enqueueIn {e : DisplayEvent} {csq : Consequences} {rules : List PendingRule}
    (h : ∀ rule ∈ rules, rule.consequences = csq) :
    ∀ rule ∈ enqueueIn e rules, rule.consequences = csq := by
  induction rules with
  | nil => exact h
  | cons first rest ih =>
    have hfirst := h first List.mem_cons_self
    have hrest := fun rule hrule => h rule (List.mem_cons_of_mem first hrule)
    rw [enqueueIn]
    intro rule hrule
    split at hrule
    · rcases List.mem_cons.1 hrule with rfl | hrule
      · exact hfirst
      · exact hrest rule hrule
    · rcases List.mem_cons.1 hrule with rfl | hrule
      · exact hfirst
      · exact ih hrest rule hrule

end Pending

namespace Daemon

variable {d : Daemon} {env : Surroundings}

/-! ## Windows that have waited -/

/-- A window that has waited is managed as its classification says, and goes on from there. -/
theorem Steady.resolve (h : d.Steady) {rule : PendingRule}
    (hrule : d.presence rule.window = .absent)
    (hown : ∀ e ∈ rule.events, e.window = rule.window) (env : Surroundings)
    (answer : Option String) :
    (resolve env d rule answer).Steady ∧ (resolve env d rule answer).settings = d.settings ∧
      (∀ w, queue (resolve env d rule answer).pending.rules w = queue d.pending.rules w) ∧
      (resolve env d rule answer).presence rule.window =
        rule.events.foldl (Presence.after (d.classifies env rule.window))
          (if (outcome rule answer).manage then .managed else .absent) ∧
      ∀ w, rule.window ≠ w → (resolve env d rule answer).presence w = d.presence w := by
  obtain ⟨hsteady, hsettings, hpresence⟩ := h.manage hrule env (outcome rule answer)
  have hreplays := replays_events hsteady env rule.events
  refine ⟨hreplays.steady, hreplays.settings.trans hsettings, hreplays.queue, ?_, ?_⟩
  · have hall := hreplays.presence rule.window
    rw [Pending.filter_events_self hown, classifies_congr hsettings, hpresence, if_pos rfl] at hall
    exact hall
  · intro w hw
    have hnone := hreplays.presence w
    rw [Pending.filter_events_other hown hw, hpresence, if_neg hw] at hnone
    exact hnone

theorem Steady.take (h : d.Steady) {u : Daemon} (hmodel : u.model = d.model) {rule : PendingRule}
    (hperm : d.pending.rules.Perm (rule :: u.pending.rules)) :
    u.Steady ∧ (∀ e ∈ rule.events, e.window = rule.window) ∧
      u.presence rule.window = .absent ∧
      (∀ w, rule.window ≠ w → u.presence w = d.presence w) ∧
      queue u.pending.rules rule.window = [] ∧
      ∀ w, queue d.pending.rules w =
        if rule.window = w then rule.events else queue u.pending.rules w := by
  obtain ⟨hfresh, hown, hrules⟩ := (h.tidy.perm hperm).cons
  have hwaits (w : Window) :
      d.pending.contains w = true ↔ w = rule.window ∨ u.pending.contains w = true := by
    rw [contains_iff, contains_iff, (hperm.map PendingRule.window).mem_iff, List.map_cons,
      List.mem_cons]
  have hfree : u.pending.contains rule.window = false := by
    rw [← Bool.not_eq_true, contains_iff]
    exact hfresh
  have hsteady : u.Steady := by
    refine ⟨hmodel ▸ h.sound, hmodel ▸ h.room, hrules, ?_, ?_⟩
    · intro w hw
      rw [← Bool.not_eq_true]
      intro hwaiting
      have hapart := h.apart w (hmodel ▸ hw)
      rw [(hwaits w).2 (.inr hwaiting)] at hapart
      cases hapart
    · intro other hother
      exact h.standard other (hperm.mem_iff.2 (List.mem_cons_of_mem rule hother))
  refine ⟨hsteady, hown, ?_, ?_, Pending.queue_eq_nil hfresh, ?_⟩
  · refine presence_eq_absent.2 ⟨fun hmanages => ?_, hfree⟩
    have hapart := h.apart _ (hmodel ▸ hmanages)
    rw [(hwaits _).2 (.inl rfl)] at hapart
    cases hapart
  · intro w hw
    refine presence_congr (by rw [hmodel]) ?_
    rw [Bool.eq_iff_iff, hwaits]
    exact (or_iff_right fun heq => hw heq.symm).symm
  · intro w
    rw [← h.tidy.queue_perm hperm w, Pending.queue_cons]

theorem Steady.resolveAll {rules : List PendingRule} (h : d.Steady) (htidy : Tidy rules)
    (hstandard : ∀ rule ∈ rules, rule.consequences = .standard)
    (habsent : ∀ rule ∈ rules, d.presence rule.window = .absent) (env : Surroundings) {d' : Daemon}
    (hd' : d' = rules.foldl (fun d rule => Daemon.resolve env d rule none) d) :
    d'.Steady ∧ d'.settings = d.settings ∧
      (∀ w, queue d'.pending.rules w = queue d.pending.rules w) ∧
      (∀ rule ∈ rules, d'.presence rule.window =
        rule.events.foldl (Presence.after (d.classifies env rule.window)) .managed) ∧
      ∀ w, w ∉ rules.map PendingRule.window → d'.presence w = d.presence w := by
  induction rules generalizing d with
  | nil =>
    subst hd'
    exact ⟨h, rfl, fun _ => rfl, by simp, fun _ _ => rfl⟩
  | cons rule rest ih =>
    obtain ⟨hfresh, hown, hrest⟩ := htidy.cons
    obtain ⟨hsteady, hsettings, hqueue, hrule, hother⟩ :=
      h.resolve (habsent rule List.mem_cons_self) hown env none
    have hne (other : PendingRule) (hmem : other ∈ rest) : rule.window ≠ other.window :=
      fun heq => hfresh (List.mem_map.2 ⟨other, hmem, heq.symm⟩)
    obtain ⟨hsteady', hsettings', hqueue', hrules, hothers⟩ := ih hsteady hrest
      (fun other hmem => hstandard other (List.mem_cons_of_mem rule hmem))
      (fun other hmem => by
        rw [hother _ (hne other hmem), habsent other (List.mem_cons_of_mem rule hmem)]) hd'
    have houtcome : (outcome rule none).manage = true := by
      rw [outcome, Option.map_none, Option.getD_none, hstandard rule List.mem_cons_self]
      rfl
    refine ⟨hsteady', hsettings'.trans hsettings, fun w => (hqueue' w).trans (hqueue w), ?_, ?_⟩
    -- the rules that follow concern other windows, so what the first one has done stands
    · intro other hmem
      rcases List.mem_cons.1 hmem with rfl | hmem
      · rw [hothers _ hfresh, hrule, if_pos houtcome]
      · rw [hrules other hmem, classifies_congr hsettings]
    · intro w hw
      rw [List.map_cons, List.mem_cons, not_or] at hw
      rw [hothers w hw.2, hother w fun heq => hw.1 heq.symm]

/-- After settling, a window that waited has gone on from being managed, and every other one
stands as it did. -/
theorem Steady.settle (h : d.Steady) (env : Surroundings) :
    (settlePending env d).Steady ∧
      (∀ w, queue (settlePending env d).pending.rules w = []) ∧
      (∀ rule ∈ d.pending.rules, (settlePending env d).presence rule.window =
        rule.events.foldl (Presence.after (d.classifies env rule.window)) .managed) ∧
      ∀ w, d.pending.contains w = false → (settlePending env d).presence w = d.presence w := by
  obtain ⟨u, hu⟩ : ∃ u : Daemon, u = { d with pending := d.pending.drain.2 } := ⟨_, rfl⟩
  have hrules : u.pending.rules = [] := by rw [hu]; rfl
  have hmodel : u.model = d.model := by rw [hu]; rfl
  have hsettings : u.settings = d.settings := by rw [hu]; rfl
  have hempty (w : Window) : u.pending.contains w = false := by
    rw [← Bool.not_eq_true, contains_iff, hrules]
    simp
  have husteady : u.Steady := by
    refine ⟨hmodel ▸ h.sound, hmodel ▸ h.room, ?_, fun w _ => hempty w, ?_⟩
    · rw [hrules]
      exact ⟨List.nodup_nil, by simp⟩
    · rw [hrules]
      simp
  have habsent : ∀ rule ∈ d.pending.rules, u.presence rule.window = .absent := by
    intro rule hrule
    refine presence_eq_absent.2 ⟨fun hmanages => ?_, hempty _⟩
    rw [hmodel] at hmanages
    have hwaits := contains_iff.2 (List.mem_map.2 ⟨rule, hrule, rfl⟩)
    rw [h.apart _ hmanages] at hwaits
    cases hwaits
  have hsettled : settlePending env d =
      d.pending.rules.foldl (fun d rule => Daemon.resolve env d rule none) u := by
    rw [hu]
    rfl
  obtain ⟨hsteady, -, hqueue, hwaited, hothers⟩ :=
    husteady.resolveAll h.tidy h.standard habsent env hsettled
  refine ⟨hsteady, ?_, ?_, ?_⟩
  · intro w
    rw [hqueue, hrules]
    rfl
  · intro rule hrule
    rw [hwaited rule hrule, classifies_congr hsettings]
  · intro w hw
    have hnot : w ∉ d.pending.rules.map PendingRule.window := by
      rw [← contains_iff, hw]
      simp
    rw [hothers w hnot]
    exact presence_congr (by rw [hmodel]) ((hempty w).trans hw.symm)

/-! ## Requests -/

theorem hasRoom_nodeStep {s : Stage} (h : s.model.HasRoom) (n : NodeId) (step : NodeStep) :
    (nodeStep n step s).1.model.HasRoom := by
  cases step with
  | focus => exact Stage.hasRoom_focusNode h (some n)
  | focusNeighbour dir =>
    rw [nodeStep]
    cases s.model.neighbour? n dir s.settings.tightness with
    | none => exact h
    | some other => exact Stage.hasRoom_focusNode h (some other)
  | state state =>
    exact (Stage.Calm.of_path (s.path_setState n state) rfl : s.Calm none _).hasRoom h
  | layer layer =>
    exact (Stage.Calm.of_path (s.path_setLayer n layer) rfl : s.Calm none _).hasRoom h
  | flag flag value =>
    exact (Stage.Calm.of_path (s.path_setFlag n flag _) rfl : s.Calm none _).hasRoom h
  | presel dir => exact (Stage.Calm.of_path (s.path_presel n dir) rfl : s.Calm none _).hasRoom h

theorem hasRoom_nodeSteps {s : Stage} (h : s.model.HasRoom) (n : NodeId) (steps : List NodeStep) :
    (nodeSteps n steps s).1.model.HasRoom := by
  induction steps generalizing s with
  | nil => exact h
  | cons step rest ih =>
    have hstep := hasRoom_nodeStep h n step
    rw [nodeSteps]
    generalize nodeStep n step s = after at *
    obtain ⟨s', failure⟩ := after
    cases failure with
    | none => exact ih hstep
    | some e => exact hstep

theorem hasRoom_desktopSteps {s : Stage} (h : s.model.HasRoom) {r : DesktopRef}
    (hr : (s.model.desktop? r).isSome) (steps : List DesktopStep) :
    (steps.foldl (desktopStep r) s).model.HasRoom := by
  induction steps generalizing s with
  | nil => exact h
  | cons step rest ih =>
    cases step with
    | focus =>
      refine ih (Stage.hasRoom_showDesktop hr) ?_
      show ((s.showDesktop r).model.desktop? r).isSome
      rw [(Stage.Keeps.showDesktop s r).desktop?, hr]
    | layout layout =>
      have hcalm : s.Calm none (s.setLayout r layout) := .of_path (s.path_setLayout r layout) rfl
      exact ih (hcalm.hasRoom h) ((hcalm.desktop r).trans hr)

theorem hasRoom_execute (h : d.model.HasRoom) (command : Command) :
    (d.execute command).1.model.HasRoom := by
  cases command with
  | query what => exact h
  | subscribe fifo budget topics =>
    cases fifo with
    | false => exact h
    | true =>
      rw [execute, subscribeFifo]
      split <;> exact h
  | wm what => cases what <;> exact h
  | quit status => exact h
  | config key value =>
    rw [execute]
    unfold runConfig
    split
    · split <;> exact h
    · split <;> exact h
  | node target steps =>
    rw [execute, runNode]
    cases targetNode? d.model target with
    | none => exact h
    | some n => exact hasRoom_nodeSteps (s := d.quietStage) h n steps
  | desktop name steps =>
    rw [execute, runDesktop]
    cases htarget : targetDesktop? d.model name with
    | none => exact h
    | some r =>
      refine hasRoom_desktopSteps (s := d.quietStage) h ?_ steps
      cases name with
      | some name => exact Model.isSome_desktop?_of_find htarget
      | none =>
        obtain ⟨r', hr', hd⟩ := h
        obtain rfl := Option.some.inj (hr'.symm.trans htarget)
        exact hd

theorem Steady.serve (h : d.Steady) (connection : Stream) (request : Bytes) :
    (d.serve connection request).1.Steady := by
  obtain ⟨hsound, hmanages, hpending⟩ := serve_spec h.sound connection request
  refine h.congr hsound ?_ (fun w => (hmanages w).1) (congrArg Pending.rules hpending)
  have hhandle (arguments : List String) : (d.handle arguments).1.model.HasRoom := by
    unfold handle
    split
    · exact hasRoom_execute h.room _
    · exact h.room
  have hdecoded := hhandle (Wire.decodeRequest (request.take Wire.capacity))
  unfold Daemon.serve
  split <;> rename_i hresult <;> rw [hresult] at hdecoded <;> exact hdecoded

end Daemon

end Tiling
