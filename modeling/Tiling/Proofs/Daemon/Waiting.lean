import Tiling.Proofs.Daemon.Run
/-!
# Waiting windows

The table of waiting windows has one rule for a window, and keeps with it only events of that
window, in the order in which they came in.
-/

namespace Tiling

namespace Pending

/-- Each window waits once, and its rule keeps its own events only. -/
structure Tidy (rules : List PendingRule) : Prop where
  nodup : (rules.map PendingRule.window).Nodup
  own : ∀ rule ∈ rules, ∀ e ∈ rule.events, e.window = rule.window

/-- The events that are kept for a window. -/
def queue (rules : List PendingRule) (w : Window) : List DisplayEvent :=
  ((rules.find? (·.window == w)).map PendingRule.events).getD []

theorem contains_iff {p : Pending} {w : Window} :
    p.contains w = true ↔ w ∈ p.rules.map PendingRule.window := by
  rw [contains, List.any_eq_true, List.mem_map]
  simp only [beq_iff_eq]

theorem queue_eq_nil {rules : List PendingRule} {w : Window}
    (h : w ∉ rules.map PendingRule.window) : queue rules w = [] := by
  have hnone : rules.find? (·.window == w) = none := by
    rw [List.find?_eq_none]
    intro rule hrule heq
    exact h (List.mem_map.2 ⟨rule, hrule, by simpa using heq⟩)
  rw [queue, hnone, Option.map_none, Option.getD_none]

theorem Tidy.cons {rule : PendingRule} {rules : List PendingRule} (h : Tidy (rule :: rules)) :
    rule.window ∉ rules.map PendingRule.window ∧ (∀ e ∈ rule.events, e.window = rule.window) ∧
      Tidy rules := by
  have hnodup := h.nodup
  rw [List.map_cons, List.nodup_cons] at hnodup
  exact ⟨hnodup.1, h.own rule List.mem_cons_self, hnodup.2, fun rule' hrule' =>
    h.own rule' (List.mem_cons_of_mem rule hrule')⟩

theorem filter_events_self {rule : PendingRule} (h : ∀ e ∈ rule.events, e.window = rule.window) :
    rule.events.filter (·.window == rule.window) = rule.events :=
  List.filter_eq_self.2 fun e he => by simp [h e he]

theorem filter_events_other {rule : PendingRule} (h : ∀ e ∈ rule.events, e.window = rule.window)
    {w : Window} (hw : rule.window ≠ w) : rule.events.filter (·.window == w) = [] :=
  List.filter_eq_nil_iff.2 fun e he => by simp [h e he, hw]

theorem queue_cons (rule : PendingRule) (rules : List PendingRule) (w : Window) :
    queue (rule :: rules) w = if rule.window = w then rule.events else queue rules w := by
  rw [queue, List.find?_cons]
  by_cases hw : rule.window = w
  · simp [hw]
  · rw [if_neg hw, beq_eq_false_iff_ne.2 hw]
    rfl

/-- Taken together, the rules keep for a window what its own rule keeps. -/
theorem Tidy.filter_flatMap {rules : List PendingRule} (h : Tidy rules) (w : Window) :
    (rules.flatMap PendingRule.events).filter (·.window == w) = queue rules w := by
  induction rules with
  | nil => rfl
  | cons rule rules ih =>
    obtain ⟨hfresh, hown, hrules⟩ := h.cons
    rw [List.flatMap_cons, List.filter_append, ih hrules, queue_cons]
    by_cases hw : rule.window = w
    · subst hw
      rw [if_pos rfl, filter_events_self hown, queue_eq_nil hfresh, List.append_nil]
    · rw [if_neg hw, filter_events_other hown hw, List.nil_append]

/-! ## Changes of the table -/

theorem map_window_enqueueIn (e : DisplayEvent) (rules : List PendingRule) :
    (enqueueIn e rules).map PendingRule.window = rules.map PendingRule.window := by
  induction rules with
  | nil => rfl
  | cons rule rules ih =>
    rw [enqueueIn]
    split
    · rfl
    · rw [List.map_cons, List.map_cons, ih]

theorem Tidy.enqueueIn {rules : List PendingRule} (h : Tidy rules) (e : DisplayEvent) :
    Tidy (Pending.enqueueIn e rules) := by
  refine ⟨by rw [map_window_enqueueIn]; exact h.nodup, ?_⟩
  induction rules with
  | nil => exact h.own
  | cons rule rules ih =>
    obtain ⟨-, hown, hrules⟩ := h.cons
    rw [Pending.enqueueIn]
    split
    · rename_i hw
      intro rule' hrule' e' he'
      rcases List.mem_cons.1 hrule' with rfl | hrule'
      · rcases List.mem_append.1 he' with he' | he'
        · exact hown e' he'
        · rw [List.mem_singleton.1 he']
          exact hw.symm
      · exact hrules.own rule' hrule' e' he'
    · intro rule' hrule'
      rcases List.mem_cons.1 hrule' with rfl | hrule'
      · exact hown
      · exact ih hrules rule' hrule'

theorem queue_enqueueIn {rules : List PendingRule} {e : DisplayEvent}
    (h : e.window ∈ rules.map PendingRule.window) (w : Window) :
    queue (enqueueIn e rules) w = queue rules w ++ [e].filter (·.window == w) := by
  induction rules with
  | nil => cases h
  | cons rule rules ih =>
    rw [enqueueIn]
    by_cases hrule : rule.window = e.window
    · rw [if_pos hrule, queue_cons, queue_cons]
      by_cases hw : rule.window = w
      · simp [hw, ← hrule]
      · have hew : e.window ≠ w := fun heq => hw (hrule.trans heq)
        simp [hw, hew]
    · have hrest : e.window ∈ rules.map PendingRule.window := by
        rcases List.mem_cons.1 h with heq | hmem
        · exact absurd heq.symm hrule
        · exact hmem
      rw [if_neg hrule, queue_cons, queue_cons, ih hrest]
      by_cases hw : rule.window = w
      · have hew : e.window ≠ w := fun heq => hrule (hw.trans heq.symm)
        simp [hw, hew]
      · rw [if_neg hw, if_neg hw]

theorem Tidy.concat {rules : List PendingRule} (h : Tidy rules) {rule : PendingRule}
    (hnew : rule.window ∉ rules.map PendingRule.window) (hempty : rule.events = []) :
    Tidy (rules ++ [rule]) := by
  refine ⟨?_, fun rule' hrule' => ?_⟩
  · rw [List.map_append, List.map_singleton, List.nodup_append]
    refine ⟨h.nodup, List.nodup_singleton _, fun w hw w' hw' heq => ?_⟩
    rw [heq, List.mem_singleton.1 hw'] at hw
    exact hnew hw
  · rcases List.mem_append.1 hrule' with hrule' | hrule'
    · exact h.own rule' hrule'
    · rw [List.mem_singleton.1 hrule', hempty]
      simp

theorem queue_concat {rules : List PendingRule} {rule : PendingRule} (hempty : rule.events = [])
    (w : Window) : queue (rules ++ [rule]) w = queue rules w := by
  rw [queue, queue, List.find?_append]
  cases rules.find? (·.window == w) with
  | some other => rfl
  | none =>
    rw [Option.none_or, List.find?_singleton]
    split <;> simp [hempty]

theorem Tidy.perm {rules rules' : List PendingRule} (h : Tidy rules) (hperm : rules.Perm rules') :
    Tidy rules' where
  nodup := (hperm.map _).nodup_iff.1 h.nodup
  own rule hrule := h.own rule (hperm.mem_iff.2 hrule)

/-- The order of the rules is irrelevant. -/
theorem Tidy.queue_perm {rules rules' : List PendingRule} (h : Tidy rules)
    (hperm : rules.Perm rules') (w : Window) : queue rules' w = queue rules w := by
  by_cases hw : w ∈ rules.map PendingRule.window
  · obtain ⟨rule, hrule, rfl⟩ := List.mem_map.1 hw
    have hfirst {l : List PendingRule} (hl : Tidy l) (hmem : rule ∈ l) :
        l.find? (·.window == rule.window) = some rule := by
      cases hfind : l.find? (·.window == rule.window) with
      | none =>
        have hnone := List.find?_eq_none.1 hfind rule hmem
        simp at hnone
      | some other =>
        have hother := List.find?_some hfind
        rw [List.inj_on_of_nodup_map hl.nodup (List.mem_of_find?_eq_some hfind) hmem
          (by simpa using hother)]
    rw [queue, queue, hfirst h hrule, hfirst (h.perm hperm) (hperm.mem_iff.1 hrule)]
  · have hw' : w ∉ rules'.map PendingRule.window := fun hmem =>
      hw ((hperm.map _).mem_iff.2 hmem)
    rw [queue_eq_nil hw, queue_eq_nil hw']

/-- A rule that is taken out of the table. -/
theorem split_of_find {rules : List PendingRule} {v : Window} {rule : PendingRule}
    (h : rules.find? (·.window == v) = some rule) :
    ∃ before after, rules = before ++ rule :: after ∧
      rules.eraseP (·.window == v) = before ++ after ∧ rule.window = v := by
  obtain ⟨hv, before, after, rfl, hbefore⟩ := List.find?_eq_some_iff_append.1 h
  refine ⟨before, after, rfl, ?_, by simpa using hv⟩
  have hnone : ∀ rule' ∈ before, ¬ (rule'.window == v) = true := fun rule' hrule' => by
    simpa using hbefore rule' hrule'
  rw [List.eraseP_append_right _ hnone, List.eraseP_cons_of_pos (by simpa using hv)]

/-! ## Answers -/

theorem resolveFrom_spec (p : Pending) (answers : List (Nat × Option String))
    (classifiers : List Classifier) :
    match p.resolveFrom answers classifiers with
    | (some (rule, _), after) => p.rules.Perm (rule :: after.rules)
    | (none, after) => after.rules = p.rules := by
  induction answers generalizing classifiers with
  | nil => rfl
  | cons first answers ih =>
    obtain ⟨task, answer⟩ := first
    rw [resolveFrom]
    cases classifiers.find? (·.task == task) with
    | none => exact ih classifiers
    | some c =>
      dsimp only
      cases hrule : p.rules.find? (·.window == c.window) with
      | none => exact ih _
      | some rule =>
        obtain ⟨before, after, hsplit, herase, -⟩ := split_of_find hrule
        dsimp only
        rw [herase, hsplit]
        exact List.perm_middle

/-- An answer that settles a window takes the rule of that window out of the table. -/
theorem nextResolved_some {p after : Pending} {rule : PendingRule} {answer : Option String}
    (h : p.nextResolved = (some (rule, answer), after)) : p.rules.Perm (rule :: after.rules) := by
  have hspec := resolveFrom_spec p p.answers p.classifiers
  rw [nextResolved] at h
  rwa [h] at hspec

theorem nextResolved_none {p after : Pending} (h : p.nextResolved = (none, after)) :
    after.rules = p.rules := by
  have hspec := resolveFrom_spec p p.answers p.classifiers
  rw [nextResolved] at h
  rwa [h] at hspec

end Pending

end Tiling
