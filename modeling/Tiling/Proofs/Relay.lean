import Tiling.Messenger
/-!
# What is relayed

However a response is cut into pieces, it goes to one place as a whole, and its first byte alone
decides where.
-/

namespace Tiling

namespace Sink

theorem write_nil (s : Sink) : s.write [] = s := by
  obtain ⟨written, room⟩ := s
  cases room <;> simp [write]

theorem takes_nil (s : Sink) : s.takes [] = true := by
  obtain ⟨written, room⟩ := s
  cases room <;> simp [takes]

theorem takes_append (s : Sink) (left right : Bytes) :
    s.takes (left ++ right) = (s.takes left && (s.write left).takes right) := by
  obtain ⟨written, room⟩ := s
  cases room with
  | none => rfl
  | some room =>
    simp only [takes, write, Option.all_some, List.length_append, ← Bool.decide_and]
    congr 1
    rw [eq_iff_iff]
    omega

theorem write_append {s : Sink} {left : Bytes} (h : s.takes left = true) (right : Bytes) :
    s.write (left ++ right) = (s.write left).write right := by
  obtain ⟨written, room⟩ := s
  cases room with
  | none => simp [write]
  | some room =>
    have hfits : left.length ≤ room := by simpa [takes] using h
    simp only [write, List.length_append, List.take_append, List.take_of_length_le hfits,
      List.append_assoc, Nat.sub_sub]

/-- What comes after a piece that was refused makes no difference. -/
theorem write_append_of_refused {s : Sink} {left : Bytes} (h : s.takes left = false)
    (right : Bytes) : s.write (left ++ right) = s.write left := by
  obtain ⟨written, room⟩ := s
  cases room with
  | none => cases h
  | some room =>
    have hlong : room < left.length := by simpa [takes] using h
    have hnothing : room - left.length = 0 := by omega
    have hnothing' : room - (left ++ right).length = 0 := by
      rw [List.length_append]
      omega
    rw [write, write]
    dsimp only
    rw [hnothing, hnothing', List.take_append_of_le_length (by omega)]

end Sink

namespace Relay

/-! ## Pieces -/

/-- What is read until the end of the response or an error, and the error. -/
def read : List ReadAnswer → Bytes × Option String
  | [] => ([], none)
  | .interrupted :: rest => read rest
  | .failed reason :: _ => ([], some reason)
  | .received bytes :: rest =>
    if bytes.isEmpty then ([], none) else (bytes ++ (read rest).1, (read rest).2)

/-- The end of reading; there was none if a piece was refused. -/
def halt (r : Relay) (fault : Option String) : Relay :=
  if r.stop.isSome then r else { r with stop := fault.map .unreadable }

variable {r : Relay} {failed : Bool}

theorem halt_of_stop (h : r.stop.isSome) (fault : Option String) : r.halt fault = r := if_pos h

theorem halt_none (r : Relay) : r.halt none = r := by
  rw [halt]
  split
  · rfl
  · rename_i h
    rw [Option.map_none, ← Option.not_isSome_iff_eq_none.1 h]

theorem failed_halt (r : Relay) (fault : Option String) : (r.halt fault).failed = r.failed := by
  unfold halt
  split <;> rfl

theorem place_halt (r : Relay) (fault : Option String) (failed : Bool) :
    (r.halt fault).place failed = r.place failed := by
  unfold halt
  split <;> rfl

theorem stop_halt (r : Relay) (fault : Option String) : (r.halt fault).stop =
    if r.stop.isSome then r.stop else fault.map .unreadable := by
  unfold halt
  split <;> rfl

theorem write_nil (h : r.failed = some failed) : r.write failed [] = r := by
  obtain ⟨f, output, errors, stop⟩ := r
  obtain rfl : f = some failed := h
  cases failed <;> simp [write, place, Sink.takes_nil, Sink.write_nil]

theorem failed_write (r : Relay) (failed : Bool) (bytes : Bytes) :
    (r.write failed bytes).failed = some failed := by
  cases failed <;> rfl

theorem place_write (r : Relay) (failed : Bool) (bytes : Bytes) :
    (r.write failed bytes).place failed = (r.place failed).write bytes := by
  cases failed <;> rfl

theorem stop_write (r : Relay) (failed : Bool) (bytes : Bytes) : (r.write failed bytes).stop =
    if (r.place failed).takes bytes then r.stop else some .refused := by
  cases failed <;> rfl

theorem write_append_of_takes {left : Bytes} (h : (r.place failed).takes left = true)
    (right : Bytes) :
    r.write failed (left ++ right) = (r.write failed left).write failed right := by
  cases failed <;>
    simp only [place, Bool.false_eq_true, if_false, if_true] at h <;>
    simp [write, place, h, Sink.takes_append, Sink.write_append h]

theorem write_append_of_refused {left : Bytes} (h : (r.place failed).takes left = false)
    (right : Bytes) : r.write failed (left ++ right) = r.write failed left := by
  cases failed <;>
    simp only [place, Bool.false_eq_true, if_false, if_true] at h <;>
    simp [write, place, h, Sink.takes_append, Sink.write_append_of_refused h]

/-- Two pieces one after the other are one piece, and none comes after one that was refused. -/
theorem write_append (hstop : r.stop = none) (failed : Bool) (left right : Bytes) :
    r.write failed (left ++ right) =
      if (r.write failed left).stop.isSome then r.write failed left
      else (r.write failed left).write failed right := by
  rw [stop_write]
  cases htakes : (r.place failed).takes left with
  | true => simpa [hstop] using write_append_of_takes htakes right
  | false => simpa using write_append_of_refused htakes right

/-- Once the place is known, it gets all that is left. -/
theorem run_of_decided (hstop : r.stop = none) (h : r.failed = some failed)
    (answers : List ReadAnswer) :
    r.run answers = (r.write failed (read answers).1).halt (read answers).2 := by
  induction answers generalizing r with
  | nil => rw [read, write_nil h, halt_none, run]
  | cons answer answers ih =>
    cases answer with
    | interrupted => exact ih hstop h
    | failed reason =>
      rw [run, read, write_nil h, halt, if_neg (by rw [hstop]; exact nofun)]
      rfl
    | received bytes =>
      rw [run, read]
      split
      · rw [write_nil h, halt_none]
      · have htake : r.take bytes = r.write failed bytes := by rw [take, h]
        dsimp only
        rw [htake, write_append hstop]
        split
        · rename_i hrefused
          rw [halt_of_stop hrefused]
        · rename_i hopen
          rw [Option.not_isSome_iff_eq_none] at hopen
          exact ih hopen (failed_write r failed bytes)

/-- The first byte decides for all that follows. -/
theorem take_append (hstop : r.stop = none) {first : Bytes} (hne : first ≠ []) (rest : Bytes) :
    ∃ failed, (r.take first).failed = some failed ∧ r.take (first ++ rest) =
      if (r.take first).stop.isSome then r.take first else (r.take first).write failed rest := by
  rw [take, take]
  cases r.failed with
  | some failed => exact ⟨failed, failed_write .., write_append hstop ..⟩
  | none =>
    obtain ⟨b, bytes, rfl⟩ := List.exists_cons_of_ne_nil hne
    have hfirst : Wire.isFailure (b :: bytes ++ rest) = Wire.isFailure (b :: bytes) := rfl
    dsimp only
    rw [hfirst]
    split
    · exact ⟨true, failed_write .., write_append hstop ..⟩
    · exact ⟨false, failed_write .., write_append hstop ..⟩

/-- Takes the whole of what is read. -/
def takeAll (r : Relay) (bytes : Bytes) : Relay := if bytes = [] then r else r.take bytes

/-- Pieces have the effect of all that is read in one piece. -/
theorem run_eq (hstop : r.stop = none) (answers : List ReadAnswer) :
    r.run answers = (r.takeAll (read answers).1).halt (read answers).2 := by
  induction answers with
  | nil => exact (halt_none r).symm
  | cons answer answers ih =>
    cases answer with
    | interrupted => exact ih
    | failed reason =>
      rw [run, read, takeAll, if_pos rfl, halt, if_neg (by rw [hstop]; exact nofun)]
      rfl
    | received bytes =>
      rw [run, read]
      by_cases hnil : bytes = []
      · rw [hnil]
        exact (halt_none r).symm
      · obtain ⟨failed, hdecided, hwhole⟩ := r.take_append hstop hnil (read answers).1
        have hempty : ¬ bytes.isEmpty = true := by rwa [List.isEmpty_iff]
        have hboth : bytes ++ (read answers).1 ≠ [] := List.append_ne_nil_of_left_ne_nil hnil _
        rw [if_neg hempty, if_neg hempty, takeAll, if_neg hboth, hwhole]
        dsimp only
        split
        · rename_i hrefused
          rw [halt_of_stop hrefused]
        · rename_i hopen
          rw [Option.not_isSome_iff_eq_none] at hopen
          rw [run_of_decided hopen hdecided]

/-! ## Whole responses -/

/-- What there is to write of a response. -/
def payload (bytes : Bytes) : Bytes := if Wire.isFailure bytes then bytes.drop 1 else bytes

theorem takeAll_eq (h : r.failed = none) {bytes : Bytes} (hne : bytes ≠ []) :
    r.takeAll bytes = r.write (Wire.isFailure bytes) (payload bytes) := by
  rw [takeAll, if_neg hne, take, h, payload]
  cases Wire.isFailure bytes <;> rfl

/-- A failure goes to the errors without its first byte, anything else to the output, up to what
there is room for.  An error is met only if there is room for all that is read before. -/
theorem run_onto (output errors : Option Nat) {answers : List ReadAnswer} {bytes : Bytes}
    {fault : Option String} (h : read answers = (bytes, fault)) :
    let r := (onto output errors).run answers
    let sink := (onto output errors).place (Wire.isFailure bytes)
    r.isFailure = Wire.isFailure bytes ∧
      r.place (Wire.isFailure bytes) = sink.write (payload bytes) ∧
      (r.place (!Wire.isFailure bytes)).written = [] ∧
      r.stop = if sink.takes (payload bytes) then fault.map .unreadable else some .refused := by
  intro r sink
  have hrun : r = ((onto output errors).takeAll bytes).halt fault := by
    rw [← show (read answers).1 = bytes by rw [h], ← show (read answers).2 = fault by rw [h]]
    exact run_eq rfl answers
  rw [hrun, isFailure, failed_halt, place_halt, place_halt, stop_halt]
  by_cases hnil : bytes = []
  · subst hnil
    rw [takeAll, if_pos rfl, show payload [] = [] from rfl, Sink.takes_nil, Sink.write_nil]
    exact ⟨rfl, rfl, rfl, rfl⟩
  · rw [takeAll_eq rfl hnil, failed_write, place_write, stop_write]
    refine ⟨rfl, rfl, ?_, ?_⟩
    · cases Wire.isFailure bytes <;> rfl
    · cases sink.takes (payload bytes) <;> rfl

/-- Where everything is taken, a failure goes to the errors as a whole and anything else to the
output. -/
theorem run_start {answers : List ReadAnswer} {bytes : Bytes} {fault : Option String}
    (h : read answers = (bytes, fault)) :
    (start.run answers).isFailure = Wire.isFailure bytes ∧
      (start.run answers).output.written = (if Wire.isFailure bytes then [] else bytes) ∧
      (start.run answers).errors.written =
        (if Wire.isFailure bytes then bytes.drop 1 else []) ∧
      (start.run answers).stop = fault.map .unreadable := by
  obtain ⟨hfailed, hplace, hother, hstop⟩ := run_onto none none h
  rw [payload] at hplace
  have htakes : ((onto none none).place (Wire.isFailure bytes)).takes (payload bytes) = true := by
    cases Wire.isFailure bytes <;> rfl
  rw [htakes] at hstop
  cases hbytes : Wire.isFailure bytes with
  | true =>
    rw [hbytes] at hfailed hplace hother
    exact ⟨hfailed, hother, congrArg Sink.written hplace, hstop⟩
  | false =>
    rw [hbytes] at hfailed hplace hother
    exact ⟨hfailed, congrArg Sink.written hplace, hother, hstop⟩

/-! ## Deliveries -/

/-- How a response can come: in pieces that are not empty and fit into the buffer, with
interruptions anywhere, up to the first read that gives nothing. -/
inductive Delivers : List ReadAnswer → Bytes → Prop
  | ended : Delivers [] []
  | closed (rest : List ReadAnswer) : Delivers (.received [] :: rest) []
  | interrupted {answers : List ReadAnswer} {bytes : Bytes} (h : Delivers answers bytes) :
    Delivers (.interrupted :: answers) bytes
  | piece {answers : List ReadAnswer} {first bytes : Bytes} (hne : first ≠ [])
    (hfits : first.length ≤ Wire.capacity) (h : Delivers answers bytes) :
    Delivers (.received first :: answers) (first ++ bytes)

theorem Delivers.read_eq {answers : List ReadAnswer} {bytes : Bytes}
    (h : Delivers answers bytes) : read answers = (bytes, none) := by
  induction h with
  | ended => rfl
  | closed rest => rfl
  | interrupted _ ih => exact ih
  | piece hne _ _ ih => rw [read, if_neg (by rwa [List.isEmpty_iff]), ih]

/-- A response that is a failure goes to the errors without its first byte, any other goes to the
output, and nothing goes to the other place; and it does not matter how the response comes. -/
theorem run_of_delivers {answers : List ReadAnswer} {bytes : Bytes} (h : Delivers answers bytes) :
    (bytes.head? = some Wire.failureByte → (start.run answers).errors.written = bytes.tail ∧
      (start.run answers).output.written = [] ∧ (start.run answers).isFailure = true) ∧
    (bytes.head? ≠ some Wire.failureByte → (start.run answers).errors.written = [] ∧
      (start.run answers).output.written = bytes ∧ (start.run answers).isFailure = false) ∧
    (start.run answers).stop = none ∧
    ∀ others, Delivers others bytes → start.run others = start.run answers := by
  obtain ⟨hfailed, houtput, herrors, hstop⟩ := run_start h.read_eq
  have hhead : Wire.isFailure bytes = true ↔ bytes.head? = some Wire.failureByte := beq_iff_eq
  refine ⟨fun hfailure => ?_, fun hsuccess => ?_, hstop, fun others hothers => ?_⟩
  · have hfailure := hhead.2 hfailure
    rw [herrors, houtput, hfailed, if_pos hfailure, if_pos hfailure, List.drop_one]
    exact ⟨rfl, rfl, hfailure⟩
  · have hsuccess := mt hhead.1 hsuccess
    rw [herrors, houtput, hfailed, if_neg hsuccess, if_neg hsuccess]
    exact ⟨rfl, rfl, Bool.eq_false_iff.2 hsuccess⟩
  · rw [run_eq rfl, run_eq rfl, hothers.read_eq, h.read_eq]

/-- The failure byte alone is the first piece, and one more comes later. -/
theorem run_of_delivers_loneByte :
    Delivers [.interrupted, .received [7], .interrupted, .received [7, 65], .received []]
        [7, 7, 65] ∧
      [(7 : UInt8), 7, 65].head? = some Wire.failureByte ∧
      (start.run [.interrupted, .received [7], .interrupted, .received [7, 65],
        .received []]).errors.written = [7, 65] := by
  have hlast : Delivers [.received [7, 65], .received []] ([7, 65] ++ []) :=
    .piece (by decide) (by decide) (.closed [])
  have h : Delivers [.interrupted, .received [7], .interrupted, .received [7, 65], .received []]
      ([7] ++ [7, 65]) := .interrupted (.piece (by decide) (by decide) (.interrupted hlast))
  exact ⟨h, rfl, ((run_of_delivers h).1 rfl).1⟩

end Relay

namespace Messenger

/-- A messenger that reaches the program relays its response, if that is read to its end. -/
theorem exit_send {env : Surroundings} {message : List String} {path : FilePath}
    {answers : List ReadAnswer} {bytes : Bytes} (hmessage : message ≠ [])
    (hpath : DisplayName.findSocket env.socket env.display = .ok path)
    (hreach : connect env path = .ok answers) (hread : Relay.read answers = (bytes, none)) :
    (send env message).exit =
      if Wire.isFailure bytes then ⟨1, [], bytes.drop 1⟩ else ⟨0, bytes, []⟩ := by
  obtain ⟨hfailed, houtput, herrors, hstop⟩ := Relay.run_start hread
  have hnonempty : ¬ message.isEmpty = true := by rwa [List.isEmpty_iff]
  rw [send, if_neg hnonempty, hpath]
  dsimp only
  rw [hreach]
  dsimp only
  rw [conclude, hstop]
  dsimp only [Option.map_none]
  rw [hfailed, houtput, herrors]
  split <;> rfl

end Messenger

end Tiling
