import Mathlib.Data.List.Nodup
import Mathlib.Data.List.Range
import Tiling.Proofs.Daemon.Waiting
/-!
# Tickets

A rule and the classifier that was started for it belong together, although the table looks a
rule up by its window.  From the log of what is done with the table one can tell which rules
wait, with which classifier each was tracked and which were handed back; the table hands back
just these.
-/

namespace Tiling.Pending

/-- What is done with the classifications in flight. -/
inductive Action where
  | track (rule : PendingRule) (arguments : List String)
  | enqueue (event : DisplayEvent)
  /-- A classifier ends, without an answer if it failed or died. -/
  | complete (task : Nat) (answer : Option String)
  | resolve
  | drain

/-- What came of it. -/
inductive Entry where
  | tracked (task : Nat) (rule : PendingRule)
  | enqueued (event : DisplayEvent)
  | completed (task : Nat) (answer : Option String)
  /-- A rule was handed back with an answer. -/
  | resolved (rule : PendingRule) (answer : Option String)
  /-- All rules were handed back. -/
  | drained (rules : List PendingRule)

/-- The classifier that was started. -/
def Entry.task? : Entry → Option Nat
  | .tracked task _ => some task
  | _ => none

/-! ## What the log tells -/

/-- A rule with the classifier that was started for it. -/
structure Ticket where
  task : Nat
  rule : PendingRule

namespace Ticket

def window (t : Ticket) : Window := t.rule.window

/-- An event is kept for its own window. -/
def keep (event : DisplayEvent) (t : Ticket) : Ticket :=
  if t.window = event.window then
    { t with rule := { t.rule with events := t.rule.events ++ [event] } }
  else t

theorem task_keep (event : DisplayEvent) (t : Ticket) : (t.keep event).task = t.task := by
  unfold keep
  split <;> rfl

theorem window_keep (event : DisplayEvent) (t : Ticket) : (t.keep event).window = t.window := by
  unfold keep
  split <;> rfl

end Ticket

/-- The rules that were tracked and not handed back since, with the events kept for them; the log
has the latest entry first. -/
def waiting : List Entry → List Ticket
  | [] => []
  | .tracked task rule :: log => waiting log ++ [⟨task, rule⟩]
  | .enqueued event :: log => (waiting log).map (Ticket.keep event)
  | .completed .. :: log => waiting log
  | .resolved rule _ :: log => (waiting log).filter (·.window != rule.window)
  | .drained _ :: _ => []

/-- The rules that were handed back. -/
def returned : List Entry → List Ticket
  | [] => []
  | .resolved rule _ :: log => (waiting log).filter (·.window == rule.window) ++ returned log
  | .drained _ :: log => waiting log ++ returned log
  | .tracked .. :: log => returned log
  | .enqueued _ :: log => returned log
  | .completed .. :: log => returned log

/-- The answers in the order in which the classifiers ended. -/
def completions : List Entry → List (Nat × Option String)
  | [] => []
  | .completed task answer :: log => completions log ++ [(task, answer)]
  | .tracked .. :: log => completions log
  | .enqueued _ :: log => completions log
  | .resolved .. :: log => completions log
  | .drained _ :: log => completions log

theorem mem_completions {log : List Entry} {task : Nat} {answer : Option String} :
    (task, answer) ∈ completions log ↔ .completed task answer ∈ log := by
  induction log with
  | nil => simp [completions]
  | cons e log ih => cases e <;> simp [completions, ih, or_comm]

/-- The rule an answer is for, if it waits. -/
def settled? (tickets : List Ticket) (ended : Nat × Option String) :
    Option (PendingRule × Option String) :=
  (tickets.find? (·.task == ended.1)).map fun t => (t.rule, ended.2)

/-- The rules that wait although their classifiers have ended, with their own answers. -/
def ready (log : List Entry) : List (PendingRule × Option String) :=
  (completions log).filterMap (settled? (waiting log))

/-! ## Courses -/

/-- The classifications with what has been done with them, the latest first. -/
structure Course where
  pending : Pending
  log : List Entry

namespace Course

def start : Course := ⟨.empty, []⟩

/-- A classifier that was started and has not ended, whether or not it has been given up. -/
def isRunning (c : Course) (task : Nat) : Bool :=
  (c.log.filterMap Entry.task?).contains task && !(completions c.log).any (·.1 == task)

/-- A window that waits is not tracked again, and only what runs can end. -/
def act (c : Course) : Action → Course
  | .track rule arguments =>
    if c.pending.contains rule.window then c
    else ⟨c.pending.track rule arguments, .tracked c.pending.nextTask rule :: c.log⟩
  | .enqueue event => ⟨(c.pending.enqueue? event).getD c.pending, .enqueued event :: c.log⟩
  | .complete task answer =>
    if c.isRunning task then ⟨c.pending.complete task answer, .completed task answer :: c.log⟩
    else c
  | .resolve =>
    match c.pending.nextResolved with
    | (some (rule, answer), p) => ⟨p, .resolved rule answer :: c.log⟩
    | (none, p) => ⟨p, c.log⟩
  | .drain => ⟨c.pending.drain.2, .drained c.pending.drain.1 :: c.log⟩

def run (c : Course) (actions : List Action) : Course := actions.foldl act c

end Course

/-- What an entry hands back has waited; an answer is that of the rule's own classifier, which
has handed back no other rule. -/
def Entry.Honest (before : List Entry) : Entry → Prop
  | .resolved rule answer => ∃ t ∈ waiting before, t.rule = rule ∧
      .completed t.task answer ∈ before ∧ ∀ other ∈ returned before, other.task ≠ t.task
  | .drained rules => rules = (waiting before).map Ticket.rule
  | .tracked .. | .enqueued _ | .completed .. => True

/-- The table is as the log tells. -/
structure Course.Kept (c : Course) : Prop where
  rules : c.pending.rules = (waiting c.log).map Ticket.rule
  classifiers : c.pending.classifiers.map (fun x => (x.task, x.window)) =
    (waiting c.log).map fun t => (t.task, t.window)
  windows : ((waiting c.log).map Ticket.window).Nodup
  tasks : c.log.filterMap Entry.task? = (List.range c.pending.nextTask).reverse
  once : ((waiting c.log ++ returned c.log).map Ticket.task).Perm
    (c.log.filterMap Entry.task?)
  /-- The answers that were passed over are those of classifiers for which nothing waits. -/
  answers : ∃ gone, completions c.log = gone ++ c.pending.answers ∧
    ∀ x ∈ gone, ∀ t ∈ waiting c.log, t.task ≠ x.1
  started : ∀ x ∈ completions c.log, x.1 < c.pending.nextTask
  ended : ((completions c.log).map Prod.fst).Nodup
  honest : ∀ e before, e :: before <:+ c.log → e.Honest before

/-! ## Taking up an answer -/

section Split

variable {α β : Type} {f : α → β} {left right : List α} {a : α}

theorem ne_of_nodup_map (h : ((left ++ a :: right).map f).Nodup) :
    (∀ x ∈ left, f x ≠ f a) ∧ ∀ x ∈ right, f x ≠ f a := by
  have hperm : ((left ++ a :: right).map f).Perm (f a :: (left ++ right).map f) := by
    rw [← List.map_cons]
    exact List.perm_middle.map f
  have hfresh := (List.nodup_cons.1 (hperm.nodup_iff.1 h)).1
  rw [List.map_append, List.mem_append, not_or] at hfresh
  exact ⟨fun x hx heq => hfresh.1 (List.mem_map.2 ⟨x, hx, heq⟩),
    fun x hx heq => hfresh.2 (List.mem_map.2 ⟨x, hx, heq⟩)⟩

variable [DecidableEq β]

theorem filter_others (h : ((left ++ a :: right).map f).Nodup) :
    (left ++ a :: right).filter (f · != f a) = left ++ right := by
  obtain ⟨hleft, hright⟩ := ne_of_nodup_map h
  rw [List.filter_append, List.filter_cons_of_neg (by simp),
    List.filter_eq_self.2 (by simpa using hleft), List.filter_eq_self.2 (by simpa using hright)]

theorem filter_self (h : ((left ++ a :: right).map f).Nodup) :
    (left ++ a :: right).filter (f · == f a) = [a] := by
  obtain ⟨hleft, hright⟩ := ne_of_nodup_map h
  rw [List.filter_append, List.filter_cons_of_pos (by simp),
    List.filter_eq_nil_iff.2 (by simpa using hleft),
    List.filter_eq_nil_iff.2 (by simpa using hright), List.nil_append]

theorem find?_self (h : ((left ++ a :: right).map f).Nodup) :
    (left ++ a :: right).find? (f · == f a) = some a := by
  rw [List.find?_append, List.find?_eq_none.2 (by simpa using (ne_of_nodup_map h).1),
    Option.none_or, List.find?_cons_of_pos (by simp)]

theorem eraseP_self (h : ((left ++ a :: right).map f).Nodup) :
    (left ++ a :: right).eraseP (f · == f a) = left ++ right := by
  rw [List.eraseP_append_right _ (by simpa using (ne_of_nodup_map h).1),
    List.eraseP_cons_of_pos (by simp)]

end Split

theorem filterMap_settled? {tickets : List Ticket} {answers : List (Nat × Option String)}
    (h : ∀ x ∈ answers, ∀ t ∈ tickets, t.task ≠ x.1) :
    answers.filterMap (settled? tickets) = [] := by
  refine List.filterMap_eq_nil_iff.2 fun x hx => ?_
  rw [settled?, List.find?_eq_none.2 (by simpa using h x hx), Option.map_none]

section Resolved

variable {log : List Entry} {left right : List Ticket} {t : Ticket}

theorem waiting_resolved (h : ((waiting log).map Ticket.window).Nodup)
    (hsplit : waiting log = left ++ t :: right) (answer : Option String) :
    waiting (.resolved t.rule answer :: log) = left ++ right := by
  rw [hsplit] at h
  rw [waiting, hsplit]
  exact filter_others h

theorem returned_resolved (h : ((waiting log).map Ticket.window).Nodup)
    (hsplit : waiting log = left ++ t :: right) (answer : Option String) :
    returned (.resolved t.rule answer :: log) = t :: returned log := by
  rw [hsplit] at h
  rw [returned, hsplit]
  exact congrArg (· ++ returned log) (filter_self h)

end Resolved

/-- The first answer of a classifier for which something waits hands back the rule of that
classifier. -/
theorem resolveFrom_eq {p : Pending} {tickets : List Ticket} {classifiers : List Classifier}
    (hrules : p.rules = tickets.map Ticket.rule)
    (hclassifiers : classifiers.map (fun x => (x.task, x.window)) =
      tickets.map fun t => (t.task, t.window))
    (hwindows : (tickets.map Ticket.window).Nodup) (answers : List (Nat × Option String)) :
    ((∀ x ∈ answers, ∀ t ∈ tickets, t.task ≠ x.1) ∧ p.resolveFrom answers classifiers =
        (none, { p with answers := [], classifiers := classifiers })) ∨
      ∃ skipped answer rest left t right, answers = skipped ++ (t.task, answer) :: rest ∧
        (∀ x ∈ skipped, ∀ t ∈ tickets, t.task ≠ x.1) ∧ tickets = left ++ t :: right ∧
        p.resolveFrom answers classifiers = (some (t.rule, answer),
          { p with
            rules := (left ++ right).map Ticket.rule
            classifiers := classifiers.filter (·.task != t.task)
            answers := rest }) := by
  induction answers with
  | nil => exact .inl ⟨by simp, rfl⟩
  | cons first answers ih =>
    obtain ⟨task, answer⟩ := first
    rw [resolveFrom]
    cases hfind : classifiers.find? (·.task == task) with
    | none =>
      have hnone : ∀ t ∈ tickets, t.task ≠ task := by
        rintro t ht rfl
        have hpair : (t.task, t.window) ∈ classifiers.map fun x => (x.task, x.window) := by
          rw [hclassifiers]
          exact List.mem_map.2 ⟨t, ht, rfl⟩
        obtain ⟨x, hx, heq⟩ := List.mem_map.1 hpair
        exact List.find?_eq_none.1 hfind x hx (beq_iff_eq.2 (Prod.mk.inj heq).1)
      have hskips {skipped : List (Nat × Option String)}
          (hskipped : ∀ x ∈ skipped, ∀ t ∈ tickets, t.task ≠ x.1) :
          ∀ x ∈ (task, answer) :: skipped, ∀ t ∈ tickets, t.task ≠ x.1 :=
        List.forall_mem_cons.2 ⟨hnone, hskipped⟩
      rcases ih with ⟨hskipped, hrest⟩ |
        ⟨skipped, answer', rest, left, t, right, rfl, hskipped, hrest⟩
      · exact .inl ⟨hskips hskipped, hrest⟩
      · exact .inr ⟨(task, answer) :: skipped, answer', rest, left, t, right, rfl, hskips hskipped,
          hrest⟩
    | some x =>
      have hpair : (x.task, x.window) ∈ tickets.map fun t => (t.task, t.window) := by
        rw [← hclassifiers]
        exact List.mem_map.2 ⟨x, List.mem_of_find?_eq_some hfind, rfl⟩
      obtain ⟨t, ht, heq⟩ := List.mem_map.1 hpair
      obtain ⟨htask, hwindow⟩ := Prod.mk.inj heq
      obtain rfl : x.task = task := by simpa using List.find?_some hfind
      obtain ⟨left, right, rfl⟩ := List.append_of_mem ht
      -- the table looks for the window, which is that of the ticket
      have hdistinct : ((left.map Ticket.rule ++ t.rule :: right.map Ticket.rule).map
          PendingRule.window).Nodup := by
        rw [← List.map_cons, ← List.map_append, List.map_map]
        exact hwindows
      have hrule := find?_self hdistinct
      have herase := eraseP_self hdistinct
      rw [← List.map_cons, ← List.map_append, ← hrules] at hrule herase
      refine .inr ⟨[], answer, answers, left, t, right, ?_, by simp, rfl, ?_⟩
      · rw [htask, List.nil_append]
      · simp only [← hwindow, ← htask, Ticket.window, hrule, herase, List.map_append]

/-- An event goes to the rule of its own window. -/
theorem enqueueIn_rules {tickets : List Ticket} (h : (tickets.map Ticket.window).Nodup)
    (event : DisplayEvent) : enqueueIn event (tickets.map Ticket.rule) =
      (tickets.map (Ticket.keep event)).map Ticket.rule := by
  induction tickets with
  | nil => rfl
  | cons t tickets ih =>
    obtain ⟨hfresh, hrest⟩ := List.nodup_cons.1 h
    rw [List.map_cons, List.map_cons, List.map_cons, enqueueIn, Ticket.keep, Ticket.window]
    by_cases ht : t.rule.window = event.window
    · have hothers : tickets.map (Ticket.keep event) = tickets := by
        rw [List.map_congr_left fun other hother => (?_ : Ticket.keep event other = id other),
          List.map_id]
        refine if_neg fun heq => hfresh (List.mem_map.2 ⟨other, hother, heq.trans ht.symm⟩)
      rw [if_pos ht, if_pos ht, hothers]
    · rw [if_neg ht, if_neg ht, ih hrest]

theorem enqueueIn_of_not_mem {event : DisplayEvent} {rules : List PendingRule}
    (h : event.window ∉ rules.map PendingRule.window) : enqueueIn event rules = rules := by
  induction rules with
  | nil => rfl
  | cons rule rules ih =>
    rw [List.map_cons, List.mem_cons, not_or] at h
    rw [enqueueIn, if_neg (Ne.symm h.1), ih h.2]

theorem getD_enqueue? (p : Pending) (event : DisplayEvent) :
    (p.enqueue? event).getD p = { p with rules := enqueueIn event p.rules } := by
  rw [enqueue?]
  split
  · rfl
  · rename_i hfree
    rw [Option.getD_none, enqueueIn_of_not_mem fun hmem => hfree (contains_iff.2 hmem)]

/-! ## Each action -/

namespace Course.Kept

variable {c : Course}

theorem start : Kept .start where
  rules := rfl
  classifiers := rfl
  windows := List.nodup_nil
  tasks := rfl
  once := List.Perm.nil
  answers := ⟨[], rfl, by simp⟩
  started := by simp [completions, Course.start]
  ended := List.nodup_nil
  honest e before h := by
    have hlength := h.length_le
    simp [Course.start] at hlength

/-- No classifier belongs to two rules, whether they wait or were handed back. -/
theorem tasks_nodup (h : c.Kept) : ((waiting c.log).map Ticket.task).Nodup ∧
    ∀ t ∈ waiting c.log, ∀ other ∈ returned c.log, other.task ≠ t.task := by
  have hall : ((waiting c.log ++ returned c.log).map Ticket.task).Nodup := by
    rw [h.once.nodup_iff, h.tasks, List.nodup_reverse]
    exact List.nodup_range
  rw [List.map_append, List.nodup_append] at hall
  refine ⟨hall.1, fun t ht other hother heq => ?_⟩
  exact hall.2.2 t.task (List.mem_map.2 ⟨t, ht, rfl⟩) other.task
    (List.mem_map.2 ⟨other, hother, rfl⟩) heq.symm

/-- A new entry may hand back what waits. -/
theorem honest_cons (h : c.Kept) {e : Entry} (he : e.Honest c.log) :
    ∀ e' before, e' :: before <:+ e :: c.log → e'.Honest before := by
  intro e' before hsuffix
  rcases List.suffix_cons_iff.1 hsuffix with heq | hold
  · obtain ⟨rfl, rfl⟩ := List.cons_eq_cons.1 heq
    exact he
  · exact h.honest e' before hold

theorem track (h : c.Kept) (rule : PendingRule) (arguments : List String) :
    (c.act (.track rule arguments)).Kept := by
  rw [act]
  split
  · exact h
  rename_i hfree
  have hnew : rule.window ∉ (waiting c.log).map Ticket.window := by
    have hwindows : (waiting c.log).map Ticket.window = c.pending.rules.map PendingRule.window := by
      rw [h.rules, List.map_map]
      rfl
    rw [hwindows]
    exact fun hmem => hfree (contains_iff.2 hmem)
  obtain ⟨gone, hanswers, hgone⟩ := h.answers
  exact {
    rules := by
      show c.pending.rules ++ [rule] = _
      rw [h.rules, waiting, List.map_append, List.map_singleton]
    classifiers := by
      show List.map _ (c.pending.classifiers ++ [⟨c.pending.nextTask, rule.window, arguments⟩]) = _
      rw [List.map_append, h.classifiers, waiting, List.map_append]
      rfl
    windows := by
      rw [waiting, List.map_append, List.nodup_append]
      refine ⟨h.windows, List.nodup_singleton _, fun w hw w' hw' heq => ?_⟩
      rw [heq, List.mem_singleton.1 hw'] at hw
      exact hnew hw
    tasks := by
      show c.pending.nextTask :: c.log.filterMap Entry.task? =
        (List.range (c.pending.nextTask + 1)).reverse
      rw [h.tasks, List.range_succ, List.reverse_append]
      rfl
    once := by
      show ((waiting c.log ++ [Ticket.mk c.pending.nextTask rule] ++
        returned c.log).map Ticket.task).Perm (c.pending.nextTask :: c.log.filterMap Entry.task?)
      rw [List.append_assoc, List.singleton_append]
      exact (List.perm_middle.map _).trans (h.once.cons _)
    answers := by
      refine ⟨gone, hanswers, fun x hx t ht => ?_⟩
      rcases List.mem_append.1 ht with ht | ht
      · exact hgone x hx t ht
      · rw [List.mem_singleton.1 ht]
        exact (h.started x (hanswers ▸ List.mem_append_left _ hx)).ne'
    started := fun x hx => Nat.lt_succ_of_lt (h.started x hx)
    ended := h.ended
    honest := h.honest_cons trivial }

theorem enqueue (h : c.Kept) (event : DisplayEvent) : (c.act (.enqueue event)).Kept := by
  have hview {β : Type} {f : Ticket → β} (hf : ∀ t, f (t.keep event) = f t) :
      (waiting (.enqueued event :: c.log)).map f = (waiting c.log).map f := by
    rw [waiting, List.map_map]
    exact List.map_congr_left fun t _ => hf t
  rw [act, getD_enqueue?]
  obtain ⟨gone, hanswers, hgone⟩ := h.answers
  exact {
    rules := by
      show enqueueIn event c.pending.rules = _
      rw [h.rules, enqueueIn_rules h.windows]
      rfl
    classifiers := by
      rw [hview fun t => by rw [t.task_keep, t.window_keep]]
      exact h.classifiers
    windows := by
      rw [hview fun t => t.window_keep event]
      exact h.windows
    tasks := h.tasks
    once := by
      rw [List.map_append, hview fun t => t.task_keep event]
      have honce := h.once
      rwa [List.map_append] at honce
    answers := by
      refine ⟨gone, hanswers, fun x hx t ht => ?_⟩
      obtain ⟨kept, hkept, rfl⟩ := List.mem_map.1 ht
      rw [kept.task_keep]
      exact hgone x hx kept hkept
    started := h.started
    ended := h.ended
    honest := h.honest_cons trivial }

theorem complete (h : c.Kept) (task : Nat) (answer : Option String) :
    (c.act (.complete task answer)).Kept := by
  rw [act]
  split
  · rename_i hrunning
    rw [isRunning, Bool.and_eq_true, List.contains_iff_mem, Bool.not_eq_true', List.any_eq_false]
      at hrunning
    have hstarted : task < c.pending.nextTask := by simpa [h.tasks] using hrunning.1
    obtain ⟨gone, hanswers, hgone⟩ := h.answers
    exact {
      rules := h.rules
      classifiers := h.classifiers
      windows := h.windows
      tasks := h.tasks
      once := h.once
      answers := by
        refine ⟨gone, ?_, hgone⟩
        show completions c.log ++ [(task, answer)] = gone ++ (c.pending.answers ++ [(task, answer)])
        rw [hanswers, List.append_assoc]
      started := fun x hx => by
        rcases List.mem_append.1 hx with hx | hx
        · exact h.started x hx
        · rw [List.mem_singleton.1 hx]
          exact hstarted
      ended := by
        rw [completions, List.map_append, List.nodup_append]
        refine ⟨h.ended, List.nodup_singleton _, fun n hn m hm heq => ?_⟩
        obtain ⟨x, hx, rfl⟩ := List.mem_map.1 hn
        exact hrunning.2 x hx (beq_iff_eq.2 (heq.trans (List.mem_singleton.1 hm)))
      honest := h.honest_cons trivial }
  · exact h

section Answer

variable {skipped rest : List (Nat × Option String)} {answer : Option String}
  {left right : List Ticket} {t : Ticket}

/-- An answer that is taken up is gone, like those before it for which nothing waits. -/
theorem answers_resolved (h : c.Kept)
    (hrest : c.pending.answers = skipped ++ (t.task, answer) :: rest)
    (hskipped : ∀ x ∈ skipped, ∀ t ∈ waiting c.log, t.task ≠ x.1)
    (hsplit : waiting c.log = left ++ t :: right) : ∃ gone, completions c.log = gone ++ rest ∧
      ∀ x ∈ gone, ∀ other ∈ left ++ right, other.task ≠ x.1 := by
  obtain ⟨gone, hanswers, hgone⟩ := h.answers
  have htasks := h.tasks_nodup.1
  rw [hsplit] at htasks
  refine ⟨gone ++ skipped ++ [(t.task, answer)], ?_, fun x hx other hother => ?_⟩
  · rw [hanswers, hrest, List.append_assoc, List.append_assoc, List.singleton_append]
  · rw [← filter_others htasks, ← hsplit, List.mem_filter, bne_iff_ne] at hother
    obtain ⟨hold, hne⟩ := hother
    rcases List.mem_append.1 hx with hx | hx
    · rcases List.mem_append.1 hx with hx | hx
      · exact hgone x hx other hold
      · exact hskipped x hx other hold
    · rw [List.mem_singleton.1 hx]
      exact hne

/-- A rule is handed back with the answer of its classifier. -/
theorem handBack (h : c.Kept) (hrest : c.pending.answers = skipped ++ (t.task, answer) :: rest)
    (hskipped : ∀ x ∈ skipped, ∀ t ∈ waiting c.log, t.task ≠ x.1)
    (hsplit : waiting c.log = left ++ t :: right) :
    (⟨{ c.pending with
        rules := (left ++ right).map Ticket.rule
        classifiers := c.pending.classifiers.filter (·.task != t.task)
        answers := rest }, .resolved t.rule answer :: c.log⟩ : Course).Kept := by
  have hmem : t ∈ waiting c.log := hsplit ▸ List.mem_append_right _ List.mem_cons_self
  obtain ⟨htasks, hreturned⟩ := h.tasks_nodup
  rw [hsplit] at htasks
  have hwaiting := waiting_resolved h.windows hsplit answer
  exact {
    rules := by
      rw [hwaiting]
    classifiers := by
      have hpairs := congrArg (List.filter (·.1 != t.task)) h.classifiers
      rw [List.filter_map, List.filter_map, hsplit] at hpairs
      rw [hwaiting, ← filter_others htasks]
      exact hpairs
    windows := by
      have hwindows := h.windows
      rw [hsplit] at hwindows
      rw [hwaiting]
      exact hwindows.sublist (((List.sublist_cons_self t right).append_left left).map _)
    tasks := h.tasks
    once := by
      have honce := h.once
      rw [hsplit, List.append_assoc, List.cons_append] at honce
      rw [hwaiting, returned_resolved h.windows hsplit, List.append_assoc]
      exact ((List.perm_middle.append_left left).map _).trans honce
    answers := by
      rw [hwaiting]
      exact h.answers_resolved hrest hskipped hsplit
    started := h.started
    ended := h.ended
    honest := by
      refine h.honest_cons ⟨t, hmem, rfl, ?_, hreturned t hmem⟩
      obtain ⟨gone, hanswers, -⟩ := h.answers
      rw [← mem_completions, hanswers, hrest]
      simp }

end Answer

theorem resolve (h : c.Kept) : (c.act .resolve).Kept := by
  rw [act]
  obtain ⟨gone, hanswers, hgone⟩ := h.answers
  rcases resolveFrom_eq h.rules h.classifiers h.windows c.pending.answers with
    ⟨hskipped, hresult⟩ | ⟨skipped, answer, rest, left, t, right, hrest, hskipped, hsplit, hresult⟩
  · rw [nextResolved, hresult]
    exact { h with
      answers := by
        refine ⟨completions c.log, (List.append_nil _).symm, fun x hx => ?_⟩
        rw [hanswers] at hx
        rcases List.mem_append.1 hx with hx | hx
        · exact hgone x hx
        · exact hskipped x hx }
  · rw [nextResolved, hresult]
    exact h.handBack hrest hskipped hsplit

theorem drain (h : c.Kept) : (c.act .drain).Kept where
  rules := rfl
  classifiers := rfl
  windows := List.nodup_nil
  tasks := h.tasks
  once := h.once
  answers := by
    obtain ⟨gone, hanswers, -⟩ := h.answers
    exact ⟨gone, hanswers, fun x _ t ht => absurd ht List.not_mem_nil⟩
  started := h.started
  ended := h.ended
  honest := h.honest_cons h.rules

theorem act (h : c.Kept) (action : Action) : (c.act action).Kept := by
  cases action with
  | track rule arguments => exact h.track rule arguments
  | enqueue event => exact h.enqueue event
  | complete task answer => exact h.complete task answer
  | resolve => exact h.resolve
  | drain => exact h.drain

theorem run (h : c.Kept) (actions : List Action) : (c.run actions).Kept := by
  induction actions generalizing c with
  | nil => exact h
  | cons action actions ih => exact ih (h.act action)

/-- The table settles the first rule that is ready. -/
theorem nextResolved (h : c.Kept) : c.pending.nextResolved.1 = (ready c.log).head? := by
  obtain ⟨gone, hanswers, hgone⟩ := h.answers
  rw [ready, hanswers, List.filterMap_append, filterMap_settled? hgone, List.nil_append,
    Pending.nextResolved]
  rcases resolveFrom_eq h.rules h.classifiers h.windows c.pending.answers with
    ⟨hskipped, hresult⟩ | ⟨skipped, answer, rest, left, t, right, hrest, hskipped, hsplit, hresult⟩
  · rw [hresult, filterMap_settled? hskipped]
    rfl
  · have htasks := h.tasks_nodup.1
    rw [hsplit] at htasks
    have hsettled : settled? (waiting c.log) (t.task, answer) = some (t.rule, answer) := by
      rw [settled?, hsplit, find?_self htasks, Option.map_some]
    rw [hresult, hrest, List.filterMap_append, filterMap_settled? hskipped, List.nil_append,
      List.filterMap_cons_some hsettled, List.head?_cons]

end Course.Kept

/-- Each rule that was tracked either waits or was handed back, just once and as its own
classifier answered. -/
structure Course.Faithful (c : Course) : Prop where
  tasks : (c.log.filterMap Entry.task?).Nodup
  once : ((waiting c.log ++ returned c.log).map Ticket.task).Perm
    (c.log.filterMap Entry.task?)
  alone : ((waiting c.log).map Ticket.window).Nodup
  rules : c.pending.rules = (waiting c.log).map Ticket.rule
  ended : ((completions c.log).map Prod.fst).Nodup
  honest : ∀ e before, e :: before <:+ c.log → e.Honest before
  next : c.pending.nextResolved.1 = (ready c.log).head?

theorem faithful_run (actions : List Action) : (Course.start.run actions).Faithful := by
  have hkept := Course.Kept.start.run actions
  exact {
    tasks := by
      rw [hkept.tasks, List.nodup_reverse]
      exact List.nodup_range
    once := hkept.once
    alone := hkept.windows
    rules := hkept.rules
    ended := hkept.ended
    honest := hkept.honest
    next := hkept.nextResolved }

-- The late answer of a classifier that was given up is not taken for the next rule of its window.
example : (Course.start.run [.track ⟨7, 1, .standard, []⟩ [], .drain,
    .track ⟨7, 2, .standard, []⟩ [], .complete 0 (some "manage=off"),
    .complete 1 none]).pending.nextResolved.1 = some (⟨7, 2, .standard, []⟩, none) := by
  decide

end Tiling.Pending
