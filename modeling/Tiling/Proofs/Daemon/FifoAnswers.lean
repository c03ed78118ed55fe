import Tiling.Proofs.Command
import Tiling.Proofs.Daemon.Run
import Tiling.Proofs.Subscribers.Delivery
import Tiling.Proofs.Subscribers.Fifos
/-!
# Answered FIFOs

A request for a FIFO is answered with its path, whatever became of the subscriber in the
meantime. The report that a newcomer is met with can cost the last message of its budget, or be
too long for a FIFO that nobody reads yet, and then the file is gone before its path is
answered.
-/

namespace Tiling

namespace Subscriber

variable {sub : Subscriber}

theorem isSpent_spend (h : sub.budget ≠ 0) : sub.spend.isSpent = true ↔ sub.budget = 1 := by
  rw [isSpent, beq_iff_eq, spend]
  by_cases hpos : 0 < sub.budget
  · rw [if_pos hpos]
    exact Int32.sub_eq_iff_eq_add
  · rw [if_neg hpos]
    refine iff_of_false h fun hone => hpos ?_
    rw [hone]
    decide

/-- The report, if it is asked for, leaves some of the budget and fits into an empty FIFO. -/
def Outlives (topics : Topics) (budget : Int32) (report : String) : Prop :=
  topics.has .report = true → budget ≠ 1 ∧ (Text.encode report).length ≤ Pipe.capacity

/-- Somebody with a new FIFO is taken in, unless the report uses up the budget or does not fit. -/
theorem meet_newFifo (hstream : sub.stream = Stream.newFifo) (hbudget : sub.budget ≠ 0)
    (report : String) :
    ((sub.meet (.greeting report)).2 = true ↔ Outlives sub.topics sub.budget report) ∧
      (sub.meet (.greeting report)).1.stream.isOpen = true ∧
      (sub.meet (.greeting report)).1.stream.waiting =
        if sub.topics.has .report then (Text.encode report).take Pipe.capacity else [] := by
  rw [Outlives, Traffic.greeting, meet, deliver, Topics.meets_single, Message.bytes]
  cases sub.topics.has .report with
  | false =>
    refine ⟨iff_of_true rfl fun h => ?_, congrArg Stream.isOpen hstream,
      congrArg Stream.waiting hstream⟩
    cases h
  | true =>
    obtain ⟨hopen, hwaiting, hbroken⟩ := Stream.send_newFifo (Text.encode report)
    have hspent := isSpent_spend hbudget
    simp only [if_true, send, stream_spend, hstream]
    refine ⟨?_, hopen, hwaiting⟩
    rw [leaves, Bool.not_eq_true', Bool.or_eq_false_iff, beq_eq_false_iff_ne, ne_eq, hbroken,
      Nat.not_lt, ← Bool.not_eq_true]
    show _ ∧ ¬ sub.spend.isSpent = true ↔ _
    rw [hspent, and_comm, true_imp_iff]

end Subscriber

/-- Whether somebody with a new FIFO is taken in decides over the file. -/
theorem Subscribers.register_newFifo {s : Subscribers} {sub : Subscriber} {path : String}
    (hstream : sub.stream = .newFifo) (hbudget : sub.budget ≠ 0) (hfifo : sub.fifo = some path)
    (hfile : s.files.has path = true) (report : String) :
    ((s.register sub report).files.has path = true ↔
        s.restarting = true ∨ Subscriber.Outlives sub.topics sub.budget report) ∧
      (Subscriber.Outlives sub.topics sub.budget report →
        ∃ member ∈ (s.register sub report).members, member.fifo = some path ∧
          member.stream.isOpen = true ∧ member.stream.waiting =
            if sub.topics.has .report then Text.encode report else []) := by
  obtain ⟨hstays, hopen, hwaiting⟩ := Subscriber.meet_newFifo hstream hbudget report
  have hpath := (sub.fifo_meet (.greeting report)).trans hfifo
  rw [register_eq, ← hstays]
  cases hmark : (sub.meet (.greeting report)).2 with
  | true =>
    refine ⟨iff_of_true hfile (.inr rfl), fun _ => ?_⟩
    refine ⟨_, List.mem_append_right _ List.mem_cons_self, hpath, hopen, hwaiting.trans ?_⟩
    split
    · rename_i hreport
      exact List.take_of_length_le (hstays.1 hmark hreport).2
    · rfl
  | false =>
    refine ⟨?_, nofun⟩
    rw [if_neg Bool.false_ne_true, or_iff_left Bool.false_ne_true, dispose]
    cases hrestarting : s.restarting with
    | true => exact iff_of_true hfile rfl
    | false =>
      rw [if_neg Bool.false_ne_true, hpath]
      show (s.files.remove path).has path = true ↔ _
      rw [FifoDirectory.has_remove_same]

/-! ## Budgets of requests -/

namespace Command

/-- A budget that is asked for pays for a message, or has no bound. -/
theorem budget_ofArguments {arguments : List String} {fifo : Bool} {budget : Int32}
    {topics : Topics} (h : ofArguments arguments = .ok (.subscribe fifo budget topics)) :
    budget ≠ 0 := by
  rintro rfl
  exact absurd (sensible_of_ofArguments h).2 (by decide)

end Command

namespace Daemon

/-! ## Answers -/

/-- An answer is the path of a FIFO that can be read, unless the report that was asked for used
up the budget or did not fit. -/
theorem subscribeFifo_spec {d d' : Daemon} {topics : Topics} {budget : Int32} {text : String}
    (hbudget : budget ≠ 0) (h : d.subscribeFifo topics budget = (d', .ok (.text text))) :
    ∃ path, text = path ++ "\n" ∧
      (d'.subscribers.files.has path = true ↔
        d.subscribers.restarting = true ∨ Subscriber.Outlives topics budget d.report) ∧
      (Subscriber.Outlives topics budget d.report →
        ∃ sub ∈ d'.subscribers.members, sub.fifo = some path ∧ sub.stream.isOpen = true ∧
          sub.stream.waiting = if topics.has .report then Text.encode d.report else []) := by
  rw [subscribeFifo] at h
  cases hmake : d.subscribers.files.make fifoStem with
  | error e =>
    rw [hmake] at h
    cases h
  | ok made =>
    obtain ⟨files, path⟩ := made
    rw [hmake] at h
    obtain ⟨rfl, htext⟩ := Prod.mk.inj h
    obtain rfl := Reply.text.inj (Except.ok.inj htext)
    obtain ⟨-, rfl⟩ := FifoDirectory.fresh_of_make hmake
    refine ⟨path, rfl, Subscribers.register_newFifo rfl hbudget rfl ?_ d.report⟩
    simp [FifoDirectory.has]

/-- A request for a FIFO that is answered is answered with the path of a FIFO. The file is
there, and what is asked for can be read from it, unless the report is asked for and uses up the
budget or is longer than what fits into an empty FIFO. -/
theorem answered_fifo {d d' : Daemon} {arguments : List String} {budget : Int32} {topics : Topics}
    {text : String} (hcommand : Command.ofArguments arguments = .ok (.subscribe true budget topics))
    (hanswer : d.handle arguments = (d', .ok (.text text))) :
    ∃ path, text = path ++ "\n" ∧
      (d'.subscribers.files.has path = true ↔
        d.subscribers.restarting = true ∨ Subscriber.Outlives topics budget d.report) ∧
      (Subscriber.Outlives topics budget d.report →
        ∃ sub ∈ d'.subscribers.members, sub.fifo = some path ∧ sub.stream.isOpen = true ∧
          sub.stream.waiting = if topics.has .report then Text.encode d.report else []) := by
  rw [handle, hcommand] at hanswer
  exact subscribeFifo_spec (Command.budget_ofArguments hcommand) hanswer

/-- A program with nothing but a monitor. -/
def idle : Daemon :=
  ready [("S", ⟨0, 0, 640, 480⟩)] ⟨Settings.standard, ["I"]⟩ .unavailable ⟨"/tmp/", true, []⟩

theorem make_idle : idle.subscribers.files.make fifoStem =
    .ok (⟨"/tmp/", true, ["/tmp/splitwm_fifo-0"]⟩, "/tmp/splitwm_fifo-0") := by
  have hstem : fifoStem.contains '/' = false := by
    rw [String.contains_char_eq]
    decide
  have hnumber : idle.subscribers.files.freeNumber? fifoStem = some 0 := by decide +kernel
  have hname : ¬ FifoDirectory.longestName < (FifoDirectory.nameOf fifoStem 0).utf8ByteSize := by
    decide +kernel
  rw [FifoDirectory.make, hstem, if_neg (by decide), hnumber]
  dsimp only
  rw [if_neg hname]
  rfl

/-- The program after a request for its first FIFO. -/
def asked (topics : Topics) (budget : Int32) : Daemon :=
  ({ idle with subscribers :=
      { idle.subscribers with files := ⟨"/tmp/", true, ["/tmp/splitwm_fifo-0"]⟩ } } :
    Daemon).subscribe .newFifo (some "/tmp/splitwm_fifo-0") topics budget

theorem handle_idle {arguments : List String} {budget : Int32} {topics : Topics}
    (h : Command.ofArguments arguments = .ok (.subscribe true budget topics)) :
    idle.handle arguments = (asked topics budget, .ok (.text "/tmp/splitwm_fifo-0\n")) := by
  rw [handle, h]
  dsimp only [execute]
  rw [subscribeFifo, make_idle]
  rfl

/-- The FIFO of a subscriber for two reports can be read. -/
theorem answered_fifo_idle :
    Command.ofArguments ["subscribe", "--fifo", "--count", "2"] =
        .ok (.subscribe true 2 (.single .report)) ∧
      idle.handle ["subscribe", "--fifo", "--count", "2"] =
        (asked (.single .report) 2, .ok (.text "/tmp/splitwm_fifo-0\n")) ∧
      ∃ path, "/tmp/splitwm_fifo-0\n" = path ++ "\n" ∧
        (asked (.single .report) 2).subscribers.files.has path = true ∧
        ∃ sub ∈ (asked (.single .report) 2).subscribers.members, sub.fifo = some path ∧
          sub.stream.isOpen = true ∧ sub.stream.waiting = Text.encode "WMS:FI:LT\n" := by
  have hcommand : Command.ofArguments ["subscribe", "--fifo", "--count", "2"] =
      .ok (.subscribe true 2 (.single .report)) := by
    decide +kernel
  have hanswer := handle_idle hcommand
  have hreport : idle.report = "WMS:FI:LT\n" := by decide +kernel
  have houtlives : Subscriber.Outlives (.single .report) 2 idle.report := by
    rw [hreport]
    exact fun _ => ⟨by decide, by decide⟩
  obtain ⟨path, hpath, hfile, hmember⟩ := answered_fifo hcommand hanswer
  rw [hreport] at hmember
  exact ⟨hcommand, hanswer, path, hpath, hfile.2 (.inr houtlives), hmember (hreport ▸ houtlives)⟩

/-- A path is answered whose file is gone: the one message that was asked for is the report. -/
theorem not_answered_fifo :
    ¬ ∀ (outputs : List (String × Rect)) (config : Config) (ids : FeedbackIds)
      (files : FifoDirectory) (occurrences : List Occurrence) (arguments : List String)
      (budget : Int32) (topics : Topics) (d' : Daemon) (text : String),
      Command.ofArguments arguments = .ok (.subscribe true budget topics) →
      ((ready outputs config ids files).run occurrences).handle arguments =
        (d', .ok (.text text)) →
      ∃ path, text = path ++ "\n" ∧ d'.subscribers.files.has path = true := by
  intro hall
  have hcommand : Command.ofArguments ["subscribe", "--fifo", "--count", "1"] =
      .ok (.subscribe true 1 (.single .report)) := by
    decide +kernel
  have hgone : (asked (.single .report) 1).subscribers.files.paths = [] := by decide +kernel
  obtain ⟨path, -, hfile⟩ := hall _ _ _ _ [] _ _ _ _ _ hcommand (handle_idle hcommand)
  rw [FifoDirectory.has, hgone] at hfile
  cases hfile

end Daemon

end Tiling
