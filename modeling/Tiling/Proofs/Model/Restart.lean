import Tiling.Daemon.Run
import Tiling.Proofs.Model.Alike
import Tiling.Proofs.Model.Steps
/-!
# Successors go on where the program stopped

A successor builds its model from a snapshot.  Its stack has other slots, which is all that sets
it apart: whatever is asked of it, and however it is used, it answers and acts as the program
itself would have.
-/

namespace Tiling

/-- What can be asked of a model without changing it. -/
inductive Question where
  | report (start : String)
  | query (what : Query)
  | flag (n : NodeId) (flag : Flag)
  | neighbour (n : NodeId) (dir : Direction) (tightness : Tightness)
  | findWindow (w : Window)
  | focusedNode
  | focusedDesktop
  | findDesktop (name : String)
  | locate (n : NodeId)
  | desktop (r : DesktopRef)
  | isVisible (r : DesktopRef)
  | isUrgent (d : Desktop)

/-- What an operation or a question gives back. -/
inductive Answer where
  | nothing
  | text (s : String)
  | truth (b : Bool)
  | node (n : Option NodeId)
  | position (r : Option DesktopRef)
  | desktop (d : Option Desktop)
  deriving DecidableEq, Repr

/-- An operation on the model with the nodes it is given, a change of the settings, or a
question. -/
inductive Call where
  | manage (w : Window) (named : WindowClass) (csq : Consequences)
  | unmanage (w : Window)
  | focus (n : Option NodeId)
  | setState (n : NodeId) (state : ClientState)
  | setLayer (n : NodeId) (layer : Layer)
  | setFlag (n : NodeId) (flag : Flag) (value : Bool)
  | presel (n : NodeId) (dir : Option Direction)
  | configure (w : Window) (rect : Rect)
  | setUrgency (w : Window) (urgent : Bool)
  | focusDesktop (r : DesktopRef)
  | setLayout (r : DesktopRef) (layout : Layout)
  | applyLayout (r : DesktopRef)
  | settings (new : Settings)
  | ask (q : Question)

namespace Stage

def answer (s : Stage) : Question → Answer
  | .report start => .text (s.model.report start)
  | .query what => .text (Daemon.answerQuery s.model what)
  | .flag n flag => .truth (s.flag n flag)
  | .neighbour n dir tightness => .node (s.model.neighbour? n dir tightness)
  | .findWindow w => .node (s.model.tree.findWindow? w)
  | .focusedNode => .node s.model.focusedNode?
  | .focusedDesktop => .position s.model.focusedDesktop?
  | .findDesktop name => .position (s.model.findDesktop? name)
  | .locate n => .position (s.model.locate? n)
  | .desktop r => .desktop (s.model.desktop? r)
  | .isVisible r => .truth (s.model.isVisible r)
  | .isUrgent d => .truth (s.model.isUrgent d)

def call (s : Stage) : Call → Stage × Answer
  | .manage w named csq => ((s.manage w named csq).1, .node (s.manage w named csq).2)
  | .unmanage w => ((s.unmanage w).1, .truth (s.unmanage w).2)
  | .focus n => (s.focusNode n, .nothing)
  | .setState n state => (s.setState n state, .nothing)
  | .setLayer n layer => (s.setLayer n layer, .nothing)
  | .setFlag n flag value => (s.setFlag n flag value, .nothing)
  | .presel n dir => (s.presel n dir, .nothing)
  | .configure w rect => (s.configure w rect, .nothing)
  | .setUrgency w urgent => (s.setUrgency w urgent, .nothing)
  | .focusDesktop r => (s.focusDesktop r, .nothing)
  | .setLayout r layout => (s.setLayout r layout, .nothing)
  | .applyLayout r => (s.applyLayout r, .nothing)
  | .settings new => ({ s with settings := new }, .nothing)
  | .ask q => (s, s.answer q)

def forget (s : Stage) : Stage := { s with history := [] }

/-- Makes calls one after the other: what each gives back, and its requests and messages. -/
def converse (s : Stage) : List Call → List (Answer × List Effect)
  | [] => []
  | c :: rest =>
    ((s.forget.call c).2, (s.forget.call c).1.effects) :: (s.forget.call c).1.converse rest

/-- A successor takes over the model from a snapshot. -/
def restart (s : Stage) (records : List SubscriberRecord) : Stage :=
  s.withModel (Snapshot.capture s.model records).model

/-- Several lives: at the end of each, a successor takes over. -/
def lives (s : Stage) (runs : List (List Operation × List SubscriberRecord)) : Stage :=
  runs.foldl (fun s run => (s.run run.1).restart run.2) s

/-! ## Stages alike give the same answers -/

namespace Alike

variable {s s' : Stage}

theorem answer (h : s.Alike s') (q : Question) : s'.answer q = s.answer q := by
  have hwindows := h.windows s.model.tree
  obtain ⟨l, stack, -, -, rfl⟩ := h
  cases q with
  | query what =>
    cases what with
    | stack =>
      have hlist : (s.withStack stack).model.listStack = s.model.listStack :=
        congrArg (fun windows : List Window => Model.lines (windows.map Numeral.hex8)) hwindows
      exact congrArg Answer.text hlist
    | _ => rfl
  | _ => rfl

theorem call (h : s.Alike s') (c : Call) :
    (s.call c).1.Alike (s'.call c).1 ∧ (s'.call c).2 = (s.call c).2 := by
  cases c with
  | manage w named csq =>
    obtain ⟨halike, hnode⟩ := h.manage w named csq
    exact ⟨halike, congrArg Answer.node hnode⟩
  | unmanage w =>
    obtain ⟨halike, htruth⟩ := h.unmanage w
    exact ⟨halike, congrArg Answer.truth htruth⟩
  | focus n => exact ⟨h.focusNode n, rfl⟩
  | setState n state => exact ⟨h.setState n state, rfl⟩
  | setLayer n layer => exact ⟨h.setLayer n layer, rfl⟩
  | setFlag n flag value => exact ⟨h.setFlag n flag value, rfl⟩
  | presel n dir => exact ⟨h.presel n dir, rfl⟩
  | configure w rect => exact ⟨h.configure w rect, rfl⟩
  | setUrgency w urgent => exact ⟨h.setUrgency w urgent, rfl⟩
  | focusDesktop r => exact ⟨h.focusDesktop r, rfl⟩
  | setLayout r layout => exact ⟨h.setLayout r layout, rfl⟩
  | applyLayout r => exact ⟨h.applyLayout r, rfl⟩
  | settings new => exact ⟨h.withSettings new, rfl⟩
  | ask q => exact ⟨h, h.answer q⟩

theorem converse (h : s.Alike s') (calls : List Call) : s'.converse calls = s.converse calls := by
  induction calls generalizing s s' with
  | nil => rfl
  | cons c calls ih =>
    obtain ⟨halike, hanswer⟩ : (s.forget.call c).1.Alike (s'.forget.call c).1 ∧
        (s'.forget.call c).2 = (s.forget.call c).2 := h.forget.call c
    have heffects : (s'.forget.call c).1.effects = (s.forget.call c).1.effects :=
      congrArg List.reverse halike.history
    rw [Stage.converse, Stage.converse, ih halike, heffects, hanswer]

end Alike

/-! ## Successors -/

/-- A model that a snapshot carries over: sound, with the focus on one of its monitors. -/
def Carried (m : Model) : Prop := m.Sound ∧ m.focusedMonitor ≤ m.monitors.length - 1

theorem carried_fresh (outputs : List (String × Rect)) (names : List String) (settings : Settings)
    (ids : FeedbackIds) : Carried (fresh outputs names settings ids).model := by
  refine ⟨sound_fresh outputs names settings ids, ?_⟩
  have hblank := Model.isBlank_fresh outputs names
  show (Model.fresh outputs names).focusedMonitor ≤ _
  rw [hblank.2.2.1]
  exact Nat.zero_le _

theorem carried_run {s : Stage} (h : Carried s.model) (ops : List Operation) :
    Carried (s.run ops).model :=
  ⟨sound_run h.1 ops, focusedMonitor_run h.1 h.2 ops⟩

/-- The model of a successor differs in the slots of its stack. -/
theorem alike_restart {s : Stage} (h : Carried s.model) (records : List SubscriberRecord) :
    s.Alike (s.restart records) := by
  obtain ⟨⟨shapes, hs⟩, hfocused⟩ := h
  obtain ⟨l, hl, -⟩ := hs.stack
  refine ⟨l, Stack.ofList s.model.stack.toList, hl, ?_, ?_⟩
  · rw [hl.toList_eq]
    exact Stack.Holds.ofList hl.1
  · have hmin : min s.model.focusedMonitor (s.model.monitors.length - 1) = s.model.focusedMonitor :=
      Nat.min_eq_left hfocused
    simp only [restart, Snapshot.capture, Snapshot.model, hmin]
    rfl

theorem carried_restart {s : Stage} (h : Carried s.model) (records : List SubscriberRecord) :
    Carried (s.restart records).model := by
  obtain ⟨l, stack, hl, hstack, heq⟩ := alike_restart h records
  obtain ⟨⟨shapes, hs⟩, hfocused⟩ := h
  rw [heq]
  exact ⟨⟨shapes, hs.withStack hstack (live_of_shaped hs hl)⟩, hfocused⟩

theorem carried_lives {s : Stage} (h : Carried s.model)
    (runs : List (List Operation × List SubscriberRecord)) : Carried (s.lives runs).model := by
  induction runs generalizing s with
  | nil => exact h
  | cons run runs ih => exact ih (carried_restart (carried_run h run.1) run.2)

end Stage

/-! ## Subscribers -/

/-- What a subscription comes to, apart from its stream. -/
def Subscriber.terms (sub : Subscriber) : Topics × Int32 × Option String :=
  (sub.topics, sub.budget, sub.fifo)

theorem Topics.ofBits_toNat (topics : Topics) :
    ofBits (UInt32.ofNat topics.toNat).toNat = topics := by
  have hlt : topics.toNat < UInt32.size := Nat.lt_trans topics.isLt (by decide)
  rw [ofBits, UInt32.toNat_ofNat_of_lt' hlt, BitVec.ofNat_toNat, BitVec.setWidth_eq]

/-- The record of a subscriber gives its terms back, whatever stream is found for it. -/
theorem Subscriber.terms_ofRecord? {stream? : Int32 → Option Stream} {sub : Subscriber}
    (h : (stream? (Int32.ofNat sub.descriptor)).isSome) :
    (ofRecord? stream? sub.record).map terms = some sub.terms := by
  obtain ⟨stream, hstream⟩ := Option.isSome_iff_exists.1 h
  simp only [ofRecord?, record, hstream, Option.map_some, terms, Topics.ofBits_toNat]

namespace Daemon

theorem isSome_stream? {h : Handover} {sub : Subscriber} (hsub : sub ∈ h.streams) :
    (h.stream? (Int32.ofNat sub.descriptor)).isSome := by
  rw [Handover.stream?, Option.isSome_map, List.find?_isSome]
  exact ⟨sub, hsub, by simp⟩

theorem members_foldl_add (subs : List Subscriber) (s : Subscribers) :
    (subs.foldl Subscribers.add s).members = s.members ++ subs := by
  induction subs generalizing s with
  | nil => simp
  | cons sub subs ih => simp [ih, Subscribers.add]

/-- A successor has the subscribers that were handed over, in their order. -/
theorem terms_restore (env : Surroundings) (d e : Daemon) (he : e.subscribers.members = []) :
    let h := (handOver env d).2
    (e.restore h.snapshot h.stream?).subscribers.members.map Subscriber.terms =
      (settlePending env d).subscribers.members.map Subscriber.terms := by
  intro h
  have hstreams : h.streams = (settlePending env d).subscribers.members := rfl
  have hrecords : h.snapshot.subscribers = h.streams.map Subscriber.record := rfl
  have hadded : (e.restore h.snapshot h.stream?).subscribers.members =
      h.streams.filterMap fun sub => Subscriber.ofRecord? h.stream? sub.record := by
    rw [restore, members_foldl_add, he, List.nil_append, hrecords, List.filterMap_map]
    rfl
  rw [hadded, ← hstreams, List.map_filterMap]
  calc h.streams.filterMap
        (fun sub => (Subscriber.ofRecord? h.stream? sub.record).map Subscriber.terms)
      = h.streams.filterMap fun sub => some sub.terms :=
        List.filterMap_congr fun sub hsub => Subscriber.terms_ofRecord? (isSome_stream? hsub)
    _ = h.streams.map Subscriber.terms := by rw [List.filterMap_eq_map']

end Daemon

namespace Stage

/-- A restart is invisible: whatever model a run has reached, in however many lives, a successor
gives the same answers, makes the same requests and publishes the same messages, call by call.
What a daemon hands over comes to that model, and to subscribers with the same terms in the same
order. -/
theorem restart_invisible (outputs : List (String × Rect)) (names : List String)
    (settings : Settings) (ids : FeedbackIds)
    (earlier : List (List Operation × List SubscriberRecord)) (ops : List Operation)
    (records : List SubscriberRecord) (calls : List Call) :
    ((((fresh outputs names settings ids).lives earlier).run ops).restart records).converse calls =
        (((fresh outputs names settings ids).lives earlier).run ops).converse calls ∧
      ∀ (env : Surroundings) (d : Daemon) (config : Config) (files : FifoDirectory),
        let h := (Daemon.handOver env d).2
        let successor := (Daemon.start outputs config ids files).restore h.snapshot h.stream?
        let predecessor := Daemon.settlePending env d
        successor.model = (predecessor.stage.restart h.snapshot.subscribers).model ∧
          successor.subscribers.members.map Subscriber.terms =
            predecessor.subscribers.members.map Subscriber.terms := by
  constructor
  · have hearlier := carried_lives (carried_fresh outputs names settings ids) earlier
    have hreached := carried_run hearlier ops
    exact (alike_restart hreached records).converse calls
  · intro env d config files
    exact ⟨rfl, Daemon.terms_restore env d (Daemon.start outputs config ids files) rfl⟩

end Stage

end Tiling
