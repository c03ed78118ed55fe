import Tiling.Command.Reader
import Tiling.Daemon.Control
import Tiling.Proofs.Model.Run
import Tiling.Proofs.Numeral
import Tiling.Proofs.Text.Blank
/-!
# Commands in words

Every command that makes sense has words that are read as it, and nothing else is ever read.  An
option is a word with a leading hyphen, so no step takes the words of the next one for its own.
-/

namespace Tiling

/-! ## Topics -/

namespace Topics

theorem ofWord?_word (t : Topic) : ofWord? t.word = some (single t) := by
  cases t <;> rfl

theorem getLsbD_foldl (ts : List Topic) (set : Topics) (i : Nat) :
    (ts.foldl (fun set t => set ||| single t) set).getLsbD i =
      (set.getLsbD i || ts.any fun t => decide (t.bit < 28) && decide (t.bit = i)) := by
  induction ts generalizing set with
  | nil => simp
  | cons t ts ih =>
    rw [List.foldl_cons, ih, BitVec.getLsbD_or, single, BitVec.getLsbD_twoPow, List.any_cons,
      Bool.or_assoc]

/-- Every bit is that of a topic. -/
theorem exists_bit : ∀ i < 28, ∃ t ∈ Topic.all, t.bit = i := by decide

/-- A set is made up of the topics in it. -/
theorem ofList_filter_has (set : Topics) : ofList (Topic.all.filter set.has) = set := by
  apply BitVec.eq_of_getLsbD_eq
  intro i hi
  obtain ⟨t, ht, rfl⟩ := exists_bit i hi
  rw [ofList, getLsbD_foldl, Bool.eq_iff_iff]
  simp only [none, BitVec.ofNat_eq_ofNat, BitVec.getLsbD_zero, Bool.false_or, List.any_eq_true,
    List.mem_filter, Bool.and_eq_true, decide_eq_true_eq]
  constructor
  · rintro ⟨t', ⟨-, hhas⟩, -, hbit⟩
    rwa [has, hbit] at hhas
  · exact fun hhas => ⟨t, ⟨ht, hhas⟩, hi, rfl⟩

end Topics

/-! ## Words for the parts of commands -/

namespace Query

def word : Query → String
  | .monitors => "-M"
  | .desktops => "-D"
  | .nodes => "-N"
  | .stack => "-S"

end Query

namespace Control

def word : Control → String
  | .restart => "-r"
  | .dumpState => "-d"
  | .status => "-g"

end Control

/-- What follows the word of a flag. -/
def settingWord : Option Bool → String
  | none => ""
  | some value => "=" ++ onOff value

namespace NodeStep

def words : NodeStep → List String
  | .focus => ["-f"]
  | .focusNeighbour dir => ["-f", dir.word]
  | .state s => ["-t", s.word]
  | .layer l => ["-l", l.word]
  | .flag f value => ["-g", f.word ++ settingWord value]
  | .presel none => ["-p", "cancel"]
  | .presel (some dir) => ["-p", dir.word]

end NodeStep

namespace DesktopStep

def words : DesktopStep → List String
  | .focus => ["-f"]
  | .layout l => ["-l", l.word]

end DesktopStep

def NodeTarget.word : NodeTarget → String
  | .focused => "focused"
  | .window w => Numeral.hex8 w

namespace Command

def topicWords (topics : Topics) : List String := (Topic.all.filter topics.has).map Topic.word

def budgetWords (budget : Int32) : List String :=
  if budget = -1 then [] else ["-c", Numeral.decimal budget.toInt]

def subscribeWords (fifo : Bool) (budget : Int32) (topics : Topics) : List String :=
  (if fifo then ["-f"] else []) ++ (budgetWords budget ++ topicWords topics)

/-- One way to ask for a command. -/
def words : Command → List String
  | .query what => ["query", what.word]
  | .subscribe fifo budget topics => "subscribe" :: subscribeWords fifo budget topics
  | .wm what => ["wm", what.word]
  | .quit status => "quit" :: (status.map fun n => Numeral.decimal n.toInt).toList
  | .config key value => "config" :: key :: value.toList
  | .node target steps => "node" :: target.word :: steps.flatMap NodeStep.words
  | .desktop name steps => "desktop" :: (name.getD "focused") :: steps.flatMap DesktopStep.words

/-- A command that makes sense: it has something to do, a subscriber hears of something and can
get a message, and the name of a desktop is no option and no word for the focused one. -/
def Sensible : Command → Prop
  | .subscribe _ budget topics => topics ≠ Topics.none ∧ (budget = -1 ∨ 1 ≤ budget)
  | .node _ steps => steps ≠ []
  | .desktop name steps =>
    steps ≠ [] ∧ ∀ text ∈ name, text.toList.head? ≠ some '-' ∧ text ≠ "focused"
  | .query _ | .wm _ | .quit _ | .config _ _ => True

/-! ## What is read makes sense -/

section Soundness

variable {arguments : List String} {command : Command}

/-- A command with steps has at least one. -/
theorem exists_steps_of_bind_someSteps {α : Type} {verb : Verb} {build : List α → Command}
    {found : Except CommandError (List α)} (h : found.bind (someSteps verb build) = .ok command) :
    ∃ steps, steps ≠ [] ∧ command = build steps := by
  cases found with
  | error e => cases h
  | ok steps =>
    cases steps with
    | nil => cases h
    | cons step steps => exact ⟨_, List.cons_ne_nil step steps, (Except.ok.inj h).symm⟩

theorem sensible_of_readQuery {found : Option Query}
    (h : readQuery found arguments = .ok command) : command.Sensible := by
  fun_induction readQuery found arguments with
  | case1 what => obtain rfl := Except.ok.inj h; exact trivial
  | case2 => cases h
  | case3 _ _ _ _ ih => exact ih h
  | case4 => cases h

theorem le_of_readBudget {option value : String} {n : Int32} (h : readBudget option value = .ok n) :
    1 ≤ n := by
  unfold readBudget at h
  split at h
  · cases h
  · split at h
    · cases h
    · rename_i hn
      obtain rfl := Except.ok.inj h
      exact Int32.not_lt.1 hn

theorem sensible_of_readSubscribe {fifo : Bool} {budget : Int32} {topics : Topics}
    (hbudget : budget = -1 ∨ 1 ≤ budget)
    (h : readSubscribe fifo budget topics arguments = .ok command) : command.Sensible := by
  fun_induction readSubscribe fifo budget topics arguments with
  | case1 fifo budget topics =>
    obtain rfl := Except.ok.inj h
    refine ⟨?_, hbudget⟩
    split
    · decide
    · assumption
  | case2 _ _ _ _ _ _ ih => exact ih hbudget h
  | case3 => cases h
  | case4 => cases h
  | case5 _ _ _ _ _ _ _ _ _ hread ih => exact ih (.inr (le_of_readBudget hread)) h
  | case6 => cases h
  | case7 _ _ _ _ _ _ _ _ _ ih => exact ih hbudget h

theorem sensible_of_readNode (h : readNode arguments = .ok command) : command.Sensible := by
  have hsteps {target : NodeTarget} {rest : List String}
      (h : (readNodeSteps rest).bind (someSteps .node (.node target)) = .ok command) :
      command.Sensible := by
    obtain ⟨steps, hne, rfl⟩ := exists_steps_of_bind_someSteps h
    exact hne
  unfold readNode at h
  split at h
  · cases h
  · split at h
    · split at h
      · cases h
      · exact hsteps h
    · exact hsteps h

theorem isDescriptor_iff {word : String} : isDescriptor word ↔ word.toList.head? ≠ some '-' :=
  bne_iff_ne

theorem sensible_of_readDesktop (h : readDesktop arguments = .ok command) : command.Sensible := by
  have hsteps {name : Option String} {rest : List String}
      (hname : ∀ text ∈ name, text.toList.head? ≠ some '-' ∧ text ≠ "focused")
      (h : (readDesktopSteps rest).bind (someSteps .desktop (.desktop name)) = .ok command) :
      command.Sensible := by
    obtain ⟨steps, hne, rfl⟩ := exists_steps_of_bind_someSteps h
    exact ⟨hne, hname⟩
  unfold readDesktop at h
  split at h
  · cases h
  · rename_i first rest
    split at h
    · rename_i hfirst
      refine hsteps (fun text htext => ?_) h
      split at htext
      · cases htext
      · rename_i hfocused
        obtain rfl := Option.some.inj htext
        exact ⟨isDescriptor_iff.1 hfirst, hfocused⟩
    · exact hsteps (by simp) h

theorem sensible_of_ofArguments (h : ofArguments arguments = .ok command) : command.Sensible := by
  unfold ofArguments at h
  split at h
  · cases h
  · split at h
    · cases h
    · rename_i rest _ verb _
      cases verb with
      | query => exact sensible_of_readQuery h
      | subscribe => exact sensible_of_readSubscribe (.inl rfl) h
      | wm =>
        simp only [readAfter, readControl] at h
        split at h
        · cases h
        · split at h
          · cases h
          · obtain rfl := Except.ok.inj h
            exact trivial
          · cases h
      | quit =>
        simp only [readAfter, readQuit] at h
        split at h
        · obtain rfl := Except.ok.inj h
          exact trivial
        · split at h
          · obtain rfl := Except.ok.inj h
            exact trivial
          · cases h
      | config =>
        simp only [readAfter, readConfig] at h
        split at h
        · cases h
        · obtain rfl := Except.ok.inj h
          exact trivial
        · obtain rfl := Except.ok.inj h
          exact trivial
        · cases h
      | node => exact sensible_of_readNode h
      | desktop => exact sensible_of_readDesktop h

end Soundness

/-! ## What makes sense is read -/

section Completeness

theorem ofArguments_cons (verb : Verb) (rest : List String) :
    ofArguments (verb.word :: rest) = readAfter verb rest := by
  rw [ofArguments, Verb.ofWord?_word]

/-! ### Subscriptions -/

theorem readBudget_decimal (option : String) {n : Int32} (h : 1 ≤ n) :
    readBudget option (Numeral.decimal n.toInt) = .ok n := by
  rw [readBudget, Numeral.int32?_decimal]
  exact if_neg (Int32.not_lt.2 h)

theorem readSubscribe_fifo (fifo : Bool) (budget : Int32) (topics : Topics) (rest : List String) :
    readSubscribe fifo budget topics ("-f" :: rest) = readSubscribe true budget topics rest := by
  rw [readSubscribe.eq_def]
  exact if_pos (by decide)

theorem readSubscribe_budget (fifo : Bool) (budget : Int32) (topics : Topics) {n : Int32}
    (h : 1 ≤ n) (rest : List String) :
    readSubscribe fifo budget topics ("-c" :: Numeral.decimal n.toInt :: rest) =
      readSubscribe fifo n topics rest := by
  rw [readSubscribe, if_neg (by decide), if_pos (by decide), readBudget_decimal "-c" h]

theorem readSubscribe_topics (fifo : Bool) (budget : Int32) (topics : Topics) (ts : List Topic) :
    readSubscribe fifo budget topics (ts.map Topic.word) =
      readSubscribe fifo budget (ts.foldl (fun set t => set ||| .single t) topics) [] := by
  induction ts generalizing topics with
  | nil => rfl
  | cons t ts ih =>
    have hword : isFifoOption t.word = false ∧ isBudgetOption t.word = false := by
      cases t <;> decide
    rw [List.map_cons, readSubscribe.eq_def]
    dsimp only
    rw [hword.1, hword.2, if_neg Bool.false_ne_true, if_neg Bool.false_ne_true,
      Topics.ofWord?_word]
    exact ih _

theorem readSubscribe_words {fifo : Bool} {budget : Int32} {topics : Topics}
    (htopics : topics ≠ Topics.none) (hbudget : budget = -1 ∨ 1 ≤ budget) :
    readSubscribe false (-1) Topics.none (subscribeWords fifo budget topics) =
      .ok (.subscribe fifo budget topics) := by
  have hread (fifo : Bool) (budget : Int32) :
      readSubscribe fifo budget Topics.none (topicWords topics) =
        .ok (.subscribe fifo budget topics) := by
    rw [topicWords, readSubscribe_topics, ← Topics.ofList, Topics.ofList_filter_has, readSubscribe,
      if_neg htopics]
  have hbudgeted (fifo : Bool) :
      readSubscribe fifo (-1) Topics.none (budgetWords budget ++ topicWords topics) =
        .ok (.subscribe fifo budget topics) := by
    rw [budgetWords]
    by_cases hnone : budget = -1
    · rw [if_pos hnone, hnone]
      exact hread fifo (-1)
    · rw [if_neg hnone]
      exact (readSubscribe_budget _ _ _ (hbudget.resolve_left hnone) _).trans (hread fifo budget)
  cases fifo with
  | false => exact hbudgeted false
  | true => exact (readSubscribe_fifo _ _ _ _).trans (hbudgeted true)

/-! ### Steps -/

theorem flagStep?_words (f : Flag) (value : Option Bool) :
    flagStep? (f.word ++ settingWord value) = some (.flag f value) := by
  rcases value with _ | _ | _ <;> cases f <;> decide

theorem readNodeSteps_option {word value : String} {rest : List String} {step : NodeStep}
    {read : String → Option NodeStep} (hfocus : isFocusOption word = false)
    (hoption : nodeOption? word = some read) (hread : read value = some step) :
    readNodeSteps (word :: value :: rest) = (readNodeSteps rest).map (step :: ·) := by
  rw [readNodeSteps, hfocus, if_neg Bool.false_ne_true, hoption]
  dsimp only
  rw [hread]

/-- What follows a focus option is left alone unless it is a direction. -/
theorem readNodeSteps_focus {rest : List String}
    (h : ∀ value ∈ rest.head?, Direction.ofWord? value = none) :
    readNodeSteps ("-f" :: rest) = (readNodeSteps rest).map (.focus :: ·) := by
  cases rest with
  | nil => rfl
  | cons value rest =>
    rw [readNodeSteps, if_pos (by decide), h value rfl]

/-- No step begins with a direction. -/
theorem head?_flatMap_words (steps : List NodeStep) :
    ∀ value ∈ (steps.flatMap NodeStep.words).head?, Direction.ofWord? value = none := by
  intro value hvalue
  cases steps with
  | nil => cases hvalue
  | cons step steps =>
    rw [List.flatMap_cons] at hvalue
    rcases step with _ | _ | _ | _ | _ | _ | _ <;> obtain rfl := Option.some.inj hvalue <;> rfl

theorem readNodeSteps_words (steps : List NodeStep) :
    readNodeSteps (steps.flatMap NodeStep.words) = .ok steps := by
  induction steps with
  | nil => rfl
  | cons step steps ih =>
    rw [List.flatMap_cons]
    have hrest : (readNodeSteps (steps.flatMap NodeStep.words)).map (step :: ·) =
        .ok (step :: steps) := by
      rw [ih]
      rfl
    rw [← hrest]
    cases step with
    | focus => exact readNodeSteps_focus (head?_flatMap_words steps)
    | focusNeighbour dir =>
      show readNodeSteps ("-f" :: dir.word :: _) = _
      rw [readNodeSteps, if_pos (by decide), Direction.ofWord?_word]
      rfl
    | state s => exact readNodeSteps_option rfl rfl (by rw [ClientState.ofWord?_word]; rfl)
    | layer l => exact readNodeSteps_option rfl rfl (by rw [Layer.ofWord?_word]; rfl)
    | flag f value => exact readNodeSteps_option rfl rfl (flagStep?_words f value)
    | presel dir =>
      cases dir with
      | none => exact readNodeSteps_option rfl rfl rfl
      | some dir => exact readNodeSteps_option rfl rfl (by cases dir <;> rfl)

theorem readDesktopSteps_words (steps : List DesktopStep) :
    readDesktopSteps (steps.flatMap DesktopStep.words) = .ok steps := by
  induction steps with
  | nil => rfl
  | cons step steps ih =>
    rw [List.flatMap_cons]
    cases step with
    | focus =>
      show readDesktopSteps ("-f" :: steps.flatMap DesktopStep.words) = _
      cases hrest : steps.flatMap DesktopStep.words with
      | nil =>
        rw [hrest] at ih
        obtain rfl := Except.ok.inj ih
        rfl
      | cons value rest =>
        rw [readDesktopSteps, if_pos (by decide), ← hrest, ih]
        rfl
    | layout l =>
      show readDesktopSteps ("-l" :: l.word :: steps.flatMap DesktopStep.words) = _
      rw [readDesktopSteps, if_neg (by decide), if_pos (by decide), Layout.ofWord?_word]
      dsimp only
      rw [ih]
      rfl

/-! ### Targets -/

theorem nodeTarget?_hex8 (w : Window) : nodeTarget? (Numeral.hex8 w) = some (.window w) := by
  have hfocused : Numeral.hex8 w ≠ "focused" := by
    intro h
    have htext := congrArg String.toList h
    rw [Numeral.toList_hex8] at htext
    cases htext
  have hwindow : windowOf? (Numeral.hex8 w) = some w := by
    rw [windowOf?, Numeral.toList_hex8]
    exact Numeral.hexUInt32?_hexDigits w
  rw [nodeTarget?, if_neg hfocused, hwindow, Option.map_some]

theorem isDescriptor_hex8 (w : Window) : isDescriptor (Numeral.hex8 w) = true := by
  rw [isDescriptor, Numeral.toList_hex8]
  rfl

theorem nodeTarget?_word (target : NodeTarget) :
    isDescriptor target.word = true ∧ nodeTarget? target.word = some target := by
  cases target with
  | focused => exact ⟨by decide, rfl⟩
  | window w => exact ⟨isDescriptor_hex8 w, nodeTarget?_hex8 w⟩

theorem readNode_word (target : NodeTarget) (rest : List String) :
    readNode (target.word :: rest) =
      (readNodeSteps rest).bind (someSteps .node (.node target)) := by
  obtain ⟨hdescriptor, htarget⟩ := nodeTarget?_word target
  rw [readNode, if_pos hdescriptor, htarget]

theorem someSteps_of_ne_nil {α : Type} (verb : Verb) (build : List α → Command) {steps : List α}
    (h : steps ≠ []) : someSteps verb build steps = .ok (build steps) := by
  cases steps with
  | nil => exact absurd rfl h
  | cons step steps => rfl

theorem readDesktop_word {name : Option String}
    (h : ∀ text ∈ name, text.toList.head? ≠ some '-' ∧ text ≠ "focused") (rest : List String) :
    readDesktop (name.getD "focused" :: rest) =
      (readDesktopSteps rest).bind (someSteps .desktop (.desktop name)) := by
  cases name with
  | none =>
    rw [readDesktop, if_pos (by decide)]
    rfl
  | some text =>
    obtain ⟨hhyphen, hfocused⟩ := h text rfl
    rw [Option.getD_some, readDesktop, if_pos (isDescriptor_iff.2 hhyphen)]
    simp only [if_neg hfocused]

theorem ofArguments_words {command : Command} (h : command.Sensible) :
    ofArguments command.words = .ok command := by
  cases command with
  | query what => cases what <;> rfl
  | subscribe fifo budget topics =>
    exact (ofArguments_cons .subscribe _).trans (readSubscribe_words h.1 h.2)
  | wm what => cases what <;> rfl
  | quit status =>
    refine (ofArguments_cons .quit _).trans ?_
    cases status with
    | none => rfl
    | some n =>
      show readQuit [Numeral.decimal n.toInt] = _
      rw [readQuit, Numeral.int32?_decimal]
  | config key value =>
    refine (ofArguments_cons .config _).trans ?_
    cases value <;> rfl
  | node target steps =>
    refine (ofArguments_cons .node _).trans ((readNode_word target _).trans ?_)
    rw [readNodeSteps_words]
    exact someSteps_of_ne_nil .node _ h
  | desktop name steps =>
    refine (ofArguments_cons .desktop _).trans ((readDesktop_word h.2 _).trans ?_)
    rw [readDesktopSteps_words]
    exact someSteps_of_ne_nil .desktop _ h.1

end Completeness

/-! ## Identifiers in listings -/

theorem solid_hex8 (w : Window) : Text.Solid (Numeral.hex8 w) := by
  have hdigit : ∀ d < 16, Text.isBlank (Numeral.hexDigit d) = false := by decide
  constructor
  · intro hempty
    have htext := congrArg String.toList hempty
    rw [Numeral.toList_hex8] at htext
    cases htext
  · rw [Numeral.toList_hex8, List.forall_mem_cons, List.forall_mem_cons]
    refine ⟨by decide, by decide, fun c hc => ?_⟩
    obtain ⟨d, hd, rfl⟩ := List.mem_map.1 hc
    exact hdigit d (Numeral.lt_of_mem_hexDigits hd)

theorem fields_listNodes (m : Model) : Text.fields m.listNodes =
    (m.desktops.flatMap m.clientsOf).map fun c => Numeral.hex8 c.window := by
  apply Text.fields_join_lines
  intro text htext
  obtain ⟨c, -, rfl⟩ := List.mem_map.1 htext
  exact solid_hex8 c.window

/-- A listed window is found by its identifier. -/
theorem targetNode?_of_mem_clientsOf {m : Model} {d : Desktop} {c : Client}
    (h : c ∈ m.clientsOf d) :
    ∃ n, Daemon.targetNode? m (.window c.window) = some n ∧ m.tree.window? n = some c.window := by
  obtain ⟨n, -, hclient⟩ := List.mem_filterMap.1 h
  have hwindow : m.tree.window? n = some c.window := by
    rw [Tree.window?, hclient, Option.map_some]
  obtain ⟨n', hn'⟩ := Option.isSome_iff_exists.1 (Tree.exists_window_iff.2 ⟨n, hwindow⟩)
  exact ⟨n', hn', Tree.window?_of_findWindow hn'⟩

/-- A command can be asked for if and only if it makes sense; the topics that a subscription can
be for are all known ones and no others; and the identifiers in the list of nodes, as they stand
there, make a command one on their window, whatever the steps. -/
theorem exists_arguments_iff :
    (∀ command, (∃ arguments, ofArguments arguments = .ok command) ↔ command.Sensible) ∧
      (∀ fifo budget bits, (∃ arguments topics,
          ofArguments arguments = .ok (.subscribe fifo budget topics) ∧ topics.toNat = bits) ↔
        (bits ≠ 0 ∧ bits < Nat.pow 2 28) ∧ (budget = -1 ∨ 1 ≤ budget)) ∧
      ∀ (m : Model) (id : String), id ∈ Text.fields (Daemon.answerQuery m .nodes) →
        ∃ n w, Daemon.targetNode? m (.window w) = some n ∧ m.tree.window? n = some w ∧
          Numeral.hex8 w = id ∧ ∀ words, ofArguments ("node" :: id :: words) =
            (readNodeSteps words).bind (someSteps .node (.node (.window w))) := by
  have hiff (command : Command) :
      (∃ arguments, ofArguments arguments = .ok command) ↔ command.Sensible :=
    ⟨fun ⟨_, h⟩ => sensible_of_ofArguments h, fun h => ⟨command.words, ofArguments_words h⟩⟩
  refine ⟨hiff, fun fifo budget bits => ?_, fun m id hid => ?_⟩
  · constructor
    · rintro ⟨arguments, topics, hread, rfl⟩
      obtain ⟨htopics, hbudget⟩ := (hiff _).1 ⟨arguments, hread⟩
      exact ⟨⟨fun hzero => htopics (BitVec.eq_of_toNat_eq hzero), topics.isLt⟩, hbudget⟩
    · rintro ⟨⟨hne, hlt⟩, hbudget⟩
      have hbits : (Topics.ofBits bits).toNat = bits := Nat.mod_eq_of_lt hlt
      have htopics : Topics.ofBits bits ≠ Topics.none := by
        intro hnone
        rw [hnone] at hbits
        exact hne hbits.symm
      obtain ⟨arguments, hread⟩ := (hiff (.subscribe fifo budget _)).2 ⟨htopics, hbudget⟩
      exact ⟨arguments, _, hread, hbits⟩
  · rw [Daemon.answerQuery, fields_listNodes] at hid
    obtain ⟨c, hc, rfl⟩ := List.mem_map.1 hid
    obtain ⟨d, -, hc⟩ := List.mem_flatMap.1 hc
    obtain ⟨n, htarget, hwindow⟩ := targetNode?_of_mem_clientsOf hc
    refine ⟨n, c.window, htarget, hwindow, rfl, fun words => ?_⟩
    exact (ofArguments_cons .node _).trans (readNode_word (.window c.window) words)

/-- Of two windows, the identifier of the second one names it; a focus option before another
option is a step of its own. -/
theorem exists_arguments_iff_twoWindows :
    let s := (Stage.fresh [("S", ⟨0, 0, 640, 480⟩)] ["I"] .standard .unavailable)
    let m := ((s.manage 7 .unknown .standard).1.manage 0xab12 .unknown .standard).1.model
    "0x0000AB12" ∈ Text.fields (Daemon.answerQuery m .nodes) ∧
      (∃ n, Daemon.targetNode? m (.window 0xab12) = some n ∧ m.tree.window? n = some 0xab12) ∧
      ofArguments ["node", "0x0000AB12", "-f", "-t", "floating"] =
        .ok (.node (.window 0xab12) [.focus, .state .floating]) := by
  intro s m
  have hlisted : "0x0000AB12" ∈ Text.fields (Daemon.answerQuery m .nodes) := by decide +kernel
  obtain ⟨n, w, htarget, hwindow, hid, hread⟩ := exists_arguments_iff.2.2 m _ hlisted
  obtain rfl : w = 0xab12 := by
    have hw : nodeTarget? "0x0000AB12" = some (.window w) := hid ▸ nodeTarget?_hex8 w
    have hknown : nodeTarget? "0x0000AB12" = some (.window 0xab12) := by decide +kernel
    exact NodeTarget.window.inj (Option.some.inj (hw.symm.trans hknown))
  refine ⟨hlisted, ⟨n, htarget, hwindow⟩, ?_⟩
  rw [hread]
  decide +kernel

end Command

end Tiling
