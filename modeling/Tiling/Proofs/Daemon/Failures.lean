import Tiling.Proofs.Daemon.Run
import Tiling.Proofs.Numeral
import Tiling.Proofs.Relay
import Tiling.Proofs.Text.Utf8
/-!
# Answers that look like failures

The first byte of a response tells a failure from an answer.  Most answers begin with a
character of their own, but some begin with a text that comes from outside: a setting, or the
name of a monitor, of a desktop or of the directory for FIFOs.  Such an answer is taken for a
failure if the text begins with the failure byte.
-/

namespace Tiling

/-! ## How texts begin -/

namespace Text

def initial? (text : String) : Option Char := text.toList.head?

theorem initial?_append (a b : String) : initial? (a ++ b) = (initial? a).or (initial? b) := by
  rw [initial?, String.toList_append, List.head?_append]
  rfl

/-- The text begins with the character that is the failure byte. -/
def Rings (text : String) : Prop := initial? text = some '\x07'

instance (text : String) : Decidable (Rings text) := inferInstanceAs (Decidable (_ = _))

theorem not_rings_empty : ¬ Rings "" := by decide

theorem isFailure_encode (text : String) : Wire.isFailure (encode text) = true ↔ Rings text := by
  rw [Wire.isFailure, beq_iff_eq, Wire.failureByte]
  exact head?_encode rfl text

/-- What follows a text matters only if the text is empty. -/
theorem rings_append {a b : String} (hb : ¬ Rings b) : Rings (a ++ b) ↔ Rings a := by
  rw [Rings, Rings, initial?_append]
  cases ha : initial? a with
  | none =>
    rw [Option.none_or]
    exact ⟨fun h => absurd h hb, fun h => by cases h⟩
  | some c => rw [Option.some_or]

theorem not_rings_append {a : String} {c : Char} (ha : initial? a = some c) (hc : c ≠ '\x07')
    (b : String) : ¬ Rings (a ++ b) := by
  rw [Rings, initial?_append, ha, Option.some_or]
  exact fun h => hc (Option.some.inj h)

theorem rings_lines (texts : List String) : Rings (Model.lines texts) ↔ Rings (texts.headD "") := by
  cases texts with
  | nil => rfl
  | cons text texts =>
    have hbreak : ¬ Rings ("\n" ++ Model.lines texts) := not_rings_append rfl (by decide) _
    have hlines : Model.lines (text :: texts) = text ++ ("\n" ++ Model.lines texts) := by
      rw [Model.lines, List.map_cons, String.join_cons, String.append_assoc]
      rfl
    rw [hlines, List.headD_cons]
    exact rings_append hbreak

theorem not_rings_toString (n : Nat) : ¬ Rings (toString n) := by
  intro h
  rw [Rings, initial?, Numeral.toList_toString] at h
  have hdigit := Numeral.isDigit_of_mem (List.mem_of_mem_head? h)
  exact absurd hdigit (by decide)

theorem not_rings_hex8 (w : UInt32) : ¬ Rings (Numeral.hex8 w) :=
  not_rings_append (a := "0x") rfl (by decide) _

theorem not_rings_windows {α : Type} (f : α → Window) (l : List α) :
    ¬ Rings (Model.lines (l.map fun x => Numeral.hex8 (f x))) := by
  rw [rings_lines]
  cases l with
  | nil => exact not_rings_empty
  | cons x l => exact not_rings_hex8 (f x)

end Text

namespace Model

open Text (Rings not_rings_append rings_append initial? initial?_append)

/-- The part of a monitor begins with a letter. -/
theorem not_rings_monitorReport (m : Model) (i : Nat) (monitor : Monitor) (rest : String) :
    ¬ Rings (m.monitorReport i monitor ++ rest) := by
  rw [monitorReport, String.append_assoc, String.append_assoc, String.append_assoc]
  split
  · exact not_rings_append rfl (by decide) _
  · exact not_rings_append rfl (by decide) _

theorem rings_report (m : Model) (start : String) : Rings (m.report start) ↔ Rings start := by
  rw [report, String.append_assoc]
  apply rings_append
  cases m.monitors with
  | nil => exact not_rings_append (a := "\n") rfl (by decide) ""
  | cons monitor monitors =>
    rw [List.mapIdx_cons]
    cases List.mapIdx (fun i => m.monitorReport (i + 1)) monitors with
    | nil =>
      rw [String.intercalate_singleton]
      exact m.not_rings_monitorReport 0 monitor "\n"
    | cons part parts =>
      rw [String.intercalate_cons_cons, String.append_assoc, String.append_assoc]
      exact m.not_rings_monitorReport 0 monitor _

end Model

theorem Snapshot.not_rings_render (s : Snapshot) (rest : String) :
    ¬ Text.Rings (s.render ++ rest) := by
  refine Text.not_rings_append (c := '\x7b') ?_ (by decide) rest
  rw [Text.initial?, Snapshot.render, Json.Value.render, String.toList_ofList]
  rfl

namespace Settings

/-- The setting of a key if it may be any text; no text for any other key. -/
def free (s : Settings) (key : String) : String :=
  match SettingKey.ofWord? key with
  | some .statusPrefix => s.statusPrefix
  | some .rulesCommand => s.rulesCommand
  | some .feedbackColor => s.feedbackColor
  | _ => ""

theorem rings_get {s : Settings} {key text : String} (h : s.get key = .ok text) :
    Text.Rings (text ++ "\n") ↔ Text.Rings (s.free key) := by
  have hother {k : SettingKey} (hk : ¬ Text.Rings (s.value k)) :
      Text.Rings (s.value k) ↔ Text.Rings "" := iff_of_false hk Text.not_rings_empty
  rw [Text.rings_append (by decide)]
  rw [get] at h
  rw [free]
  cases hkey : SettingKey.ofWord? key with
  | none =>
    rw [hkey] at h
    cases h
  | some k =>
    rw [hkey] at h
    obtain rfl := Except.ok.inj h
    cases k with
    | statusPrefix => rfl
    | rulesCommand => rfl
    | feedbackColor => rfl
    | rulesTimeout => exact hother (Text.not_rings_toString s.rulesTimeout.toNat)
    | autoRaise =>
      apply hother
      rw [value]
      split <;> decide
    | tightness =>
      apply hother
      rw [value]
      cases s.tightness <;> decide

end Settings

namespace Daemon

open Text (Rings)

/-! ## Answers -/

/-- The text from outside with which the answer to a command begins, if it begins with one. -/
def opening (d : Daemon) : Command → String
  | .query .monitors => (d.model.monitors.map Monitor.name).headD ""
  | .query .desktops => (d.model.desktops.map Desktop.name).headD ""
  | .subscribe true _ _ => d.subscribers.files.location
  | .wm .status => d.settings.statusPrefix
  | .config key none => d.settings.free key
  | _ => ""

theorem rings_subscribeFifo {d d' : Daemon} {topics : Topics} {budget : Int32} {text : String}
    (h : d.subscribeFifo topics budget = (d', .ok (.text text))) :
    Rings text ↔ Rings d.subscribers.files.location := by
  rw [subscribeFifo, FifoDirectory.make] at h
  split at h
  · cases h
  rename_i files path hmade
  split at hmade
  · cases hmade
  split at hmade
  · cases hmade
  split at hmade
  · cases hmade
  rename_i n hn hname
  obtain ⟨-, rfl⟩ := Prod.mk.inj (Except.ok.inj hmade)
  obtain rfl := Reply.text.inj (Except.ok.inj (Prod.mk.inj h).2)
  rw [FifoDirectory.pathOf, FifoDirectory.nameOf, String.append_assoc, String.append_assoc]
  exact Text.rings_append (Text.not_rings_append rfl (by decide) _)

theorem rings_own {text : String} (h : ¬ Rings text) : Rings text ↔ Rings "" :=
  iff_of_false h Text.not_rings_empty

theorem rings_done {d d' : Daemon} {text : String} (h : (d, Except.ok (Reply.text "")) =
    (d', (Except.ok (.text text) : Except CommandError Reply))) : Rings text ↔ Rings "" := by
  rw [← Reply.text.inj (Except.ok.inj (Prod.mk.inj h).2)]

theorem rings_query {d d' : Daemon} {what : Query} {text : String}
    (h : d.execute (.query what) = (d', .ok (.text text))) :
    Rings text ↔ Rings (d.opening (.query what)) := by
  obtain rfl := Reply.text.inj (Except.ok.inj (Prod.mk.inj h).2)
  cases what with
  | monitors => exact Text.rings_lines _
  | desktops => exact Text.rings_lines _
  | nodes => exact rings_own (Text.not_rings_windows Client.window _)
  | stack => exact rings_own (Text.not_rings_windows id _)

theorem rings_config {d d' : Daemon} {key : String} {value : Option String} {text : String}
    (h : d.execute (.config key value) = (d', .ok (.text text))) :
    Rings text ↔ Rings (d.opening (.config key value)) := by
  change d.runConfig key value = _ at h
  unfold runConfig at h
  cases value with
  | none =>
    dsimp only at h
    split at h
    · rename_i value hget
      obtain rfl := Reply.text.inj (Except.ok.inj (Prod.mk.inj h).2)
      exact Settings.rings_get hget
    · cases h
  | some new =>
    dsimp only at h
    split at h
    · exact rings_done h
    · cases h

/-- An answer begins with the failure byte only if a text from outside does. -/
theorem rings_execute {d d' : Daemon} {command : Command} {text : String}
    (h : d.execute command = (d', .ok (.text text))) : Rings text ↔ Rings (d.opening command) := by
  cases command with
  | query what => exact rings_query h
  | subscribe fifo budget topics =>
    cases fifo with
    | false => cases h
    | true => exact rings_subscribeFifo h
  | wm what =>
    cases what with
    | restart => exact rings_done h
    | dumpState =>
      obtain rfl := Reply.text.inj (Except.ok.inj (Prod.mk.inj h).2)
      exact rings_own (d.snapshot.not_rings_render "\n")
    | status =>
      obtain rfl := Reply.text.inj (Except.ok.inj (Prod.mk.inj h).2)
      exact d.model.rings_report d.settings.statusPrefix
  | quit status => exact rings_done h
  | config key value => exact rings_config h
  | node target steps =>
    rw [execute, runNode] at h
    split at h
    · cases h
    dsimp only at h
    split at h
    · exact rings_done h
    · cases h
  | desktop name steps =>
    rw [execute, runDesktop] at h
    split at h
    · cases h
    · exact rings_done h

/-- The request of some arguments is refused. -/
def Refuses (d : Daemon) (arguments : List String) : Prop := ∃ e, (d.handle arguments).2 = .error e

/-- The answer begins with a text from outside that begins with the failure byte. -/
def Misleads (d : Daemon) (arguments : List String) : Prop :=
  ∃ command, Command.ofArguments arguments = .ok command ∧ Rings (d.opening command)

theorem isFailure_serve {d : Daemon} {connection : Stream} {request response : Bytes}
    (h : (d.serve connection request).2 = some response) :
    Wire.isFailure response = true ↔
      d.Refuses (Wire.decodeRequest (request.take Wire.capacity)) ∨
        d.Misleads (Wire.decodeRequest (request.take Wire.capacity)) := by
  rw [serve] at h
  generalize Wire.decodeRequest (request.take Wire.capacity) = arguments at *
  rcases hhandle : d.handle arguments with ⟨d', answer⟩
  rw [hhandle] at h
  cases answer with
  | error e =>
    obtain rfl := Option.some.inj h
    have hrefused : d.Refuses arguments := ⟨e, by rw [hhandle]⟩
    exact ⟨fun _ => .inl hrefused, fun _ => rfl⟩
  | ok reply =>
    cases reply with
    | stream topics budget => cases h
    | text text =>
      obtain rfl := Option.some.inj h
      have hserved : ¬ d.Refuses arguments := by
        rintro ⟨e, he⟩
        rw [hhandle] at he
        cases he
      rw [Text.isFailure_encode, or_iff_right hserved]
      rw [handle] at hhandle
      rw [Misleads]
      cases hcommand : Command.ofArguments arguments with
      | error e =>
        rw [hcommand] at hhandle
        cases hhandle
      | ok command =>
        rw [hcommand] at hhandle
        rw [rings_execute hhandle]
        constructor
        · exact fun hrings => ⟨command, rfl, hrings⟩
        · rintro ⟨other, heq, hrings⟩
          rwa [Except.ok.inj heq]

/-! ## Exits -/

/-- A request that is refused has an answer that is a failure, but so has one that begins with a
text from outside which begins with the failure byte.  A messenger ends with an error, and
writes to the errors, just when the response is a failure. -/
theorem failed_iff {d : Daemon} {connection : Stream} {request response : Bytes}
    {env : Messenger.Surroundings} {message : List String} {path : FilePath}
    {answers : List ReadAnswer} (hserve : (d.serve connection request).2 = some response)
    (hmessage : message ≠ [])
    (hpath : DisplayName.findSocket env.socket env.display = .ok path)
    (hreach : Messenger.connect env path = .ok answers)
    (hanswers : Relay.read answers = (response, none)) :
    (Wire.isFailure response = true ↔
      d.Refuses (Wire.decodeRequest (request.take Wire.capacity)) ∨
        d.Misleads (Wire.decodeRequest (request.take Wire.capacity))) ∧
      (Messenger.send env message).exit =
        if Wire.isFailure response then ⟨1, [], response.drop 1⟩ else ⟨0, response, []⟩ := by
  exact ⟨isFailure_serve hserve, Messenger.exit_send hmessage hpath hreach hanswers⟩

/-- The prefix of the status report is the character that is the failure byte. -/
def ringing : Daemon :=
  ready [("S", ⟨0, 0, 640, 480⟩)] ⟨{ Settings.standard with statusPrefix := "\x07" }, ["I"]⟩
    .unavailable ⟨"/tmp", true, []⟩

def statusRequest : Bytes := Wire.encodeRequest ["wm", "-g"]

/-- The status report comes in pieces. -/
def reached : Messenger.Surroundings :=
  ⟨some "/tmp/splitwm-socket", none, fun _ => .ok
    [.received [7, 77], .interrupted, .received (Text.encode "S:FI:LT\n"), .received []]⟩

theorem serve_ringing : (ringing.serve (.through (.socket true)) statusRequest).2 =
    some (7 :: Text.encode "MS:FI:LT\n") := by
  decide +kernel

theorem failed_iff_ringing :
    (Wire.isFailure (7 :: Text.encode "MS:FI:LT\n") = true ↔
      ringing.Refuses (Wire.decodeRequest (statusRequest.take Wire.capacity)) ∨
        ringing.Misleads (Wire.decodeRequest (statusRequest.take Wire.capacity))) ∧
      (Messenger.send reached ["wm", "-g"]).exit = ⟨1, [], Text.encode "MS:FI:LT\n"⟩ :=
  failed_iff serve_ringing (by decide) rfl rfl rfl

/-- A status report that was asked for and sent is taken for a failure. -/
theorem not_isFailure_iff_refuses :
    ¬ ∀ (outputs : List (String × Rect)) (config : Config) (ids : FeedbackIds)
      (files : FifoDirectory) (occurrences : List Occurrence) (connection : Stream)
      (request response : Bytes),
      (((ready outputs config ids files).run occurrences).serve connection request).2 =
        some response →
      (Wire.isFailure response = true ↔ ((ready outputs config ids files).run occurrences).Refuses
        (Wire.decodeRequest (request.take Wire.capacity))) := by
  intro hall
  have hreport : (ringing.handle (Wire.decodeRequest (statusRequest.take Wire.capacity))).2 =
      .ok (.text "\x07MS:FI:LT\n") := by
    decide +kernel
  obtain ⟨e, he⟩ := (hall _ _ _ _ [] _ _ _ serve_ringing).1 rfl
  cases hreport.symm.trans he

end Daemon

end Tiling
