import Tiling.Messenger
import Tiling.Proofs.CommandLine
import Tiling.Proofs.Wire
/-!
# Messages that are sent

The messenger refuses a message without arguments, but it looks at the arguments and not at what
is left of them in the request.  An argument that does not fit is left out with all that follow,
so what a message comes to depends on its first argument.
-/

namespace Tiling

namespace Wire

/-- The first argument fits exactly if there is room for it and its NUL. -/
theorem encodeRequest_cons (first : String) (rest : List String) :
    encodeRequest (first :: rest) =
      if first.utf8ByteSize < capacity then
        frame first ++ encodeWithin (capacity - (first.utf8ByteSize + 1)) rest
      else [] := by
  rw [encodeRequest, encodeWithin, length_frame]
  by_cases hfits : first.utf8ByteSize < capacity
  · rw [if_pos hfits, if_pos (by omega)]
  · rw [if_neg hfits, if_neg (by omega)]

theorem frame_ne_nil (argument : String) : frame argument ≠ [] := by
  intro hnil
  have hlength := length_frame argument
  rw [hnil, List.length_nil] at hlength
  omega

/-- A request is empty exactly if there is no first argument that fits. -/
theorem encodeRequest_eq_nil_iff (arguments : List String) :
    encodeRequest arguments = [] ↔
      ∀ first ∈ arguments.head?, capacity ≤ first.utf8ByteSize := by
  cases arguments with
  | nil => exact iff_of_true rfl nofun
  | cons first rest =>
    rw [encodeRequest_cons, List.head?_cons]
    by_cases hfits : first.utf8ByteSize < capacity
    · rw [if_pos hfits]
      refine iff_of_false (fun hnil => ?_) fun hlong => ?_
      · exact frame_ne_nil first (List.append_eq_nil_iff.1 hnil).1
      · have hfirst := hlong first rfl
        omega
    · rw [if_neg hfits]
      refine iff_of_true rfl fun other hother => ?_
      obtain rfl := Option.some.inj hother
      omega

theorem length_encodeRequest_le (arguments : List String) :
    (encodeRequest arguments).length ≤ capacity := by
  obtain ⟨kept, hkept, hbytes⟩ := exists_fitting capacity arguments
  rw [encodeRequest, hbytes, length_flatMap_frame]
  exact hkept.fits

end Wire

namespace Messenger

open CommandLine CommandLine.Program

variable {env : Surroundings} {arguments message : List String} {r : Reading}

/-- The arguments are read as a message, and the control socket is there to take it. -/
structure Contacts (env : Surroundings) (arguments message : List String) : Prop where
  nonempty : message ≠ []
  reading : ∃ r, program.read .empty arguments = .ok r ∧ pathSwitch ∉ r.switches ∧
    r.words = message
  reached : ∃ path answers, DisplayName.findSocket env.socket env.display = .ok path ∧
    connect env path = .ok answers

theorem run_of_read (hread : program.read .empty arguments = .ok r) : run env arguments =
    if pathSwitch ∈ r.switches then
      ⟨⟨0, Text.encode ((DisplayName.findSocketOrLocal env.socket env.display).text ++ "\n"), []⟩,
        none⟩
    else send env r.words := by
  rw [run, hread]
  simp only [List.contains_iff_mem]

/-- What is written is the request of the message, once there is a connection. -/
theorem request_eq_some_iff {bytes : Bytes} : (run env arguments).request = some bytes ↔
    ∃ message, Contacts env arguments message ∧ bytes = Wire.encodeRequest message := by
  constructor
  · intro hrequest
    cases hread : program.read .empty arguments with
    | error stop =>
      rw [run, hread] at hrequest
      cases hrequest
    | ok r =>
      rw [run_of_read hread] at hrequest
      split at hrequest
      · cases hrequest
      rename_i hpath
      rw [send] at hrequest
      split at hrequest
      · cases hrequest
      rename_i hempty
      rw [List.isEmpty_iff] at hempty
      cases hfind : DisplayName.findSocket env.socket env.display with
      | error e =>
        rw [hfind] at hrequest
        cases hrequest
      | ok path =>
        rw [hfind] at hrequest
        cases hconnect : connect env path with
        | error e =>
          dsimp only at hrequest
          rw [hconnect] at hrequest
          cases hrequest
        | ok answers =>
          dsimp only at hrequest
          rw [hconnect] at hrequest
          refine ⟨r.words, ⟨hempty, ⟨r, hread, hpath, rfl⟩, path, answers, hfind, hconnect⟩, ?_⟩
          exact (Option.some.inj hrequest).symm
  · rintro ⟨message, ⟨hnonempty, ⟨r, hread, hpath, rfl⟩, path, answers, hfind, hconnect⟩, rfl⟩
    have hempty : ¬ r.words.isEmpty = true := by rwa [List.isEmpty_iff]
    rw [run_of_read hread, if_neg hpath, send, if_neg hempty, hfind]
    dsimp only
    rw [hconnect]

/-- Every message can be sent, also one that begins like an option. -/
theorem contacts_divider {path : FilePath} {answers : List ReadAnswer} (hnonempty : message ≠ [])
    (hfind : DisplayName.findSocket env.socket env.display = .ok path)
    (hconnect : connect env path = .ok answers) : Contacts env ("--" :: message) message := by
  refine ⟨hnonempty, ⟨⟨[], none, message⟩, ?_, nofun, rfl⟩, path, answers, hfind, hconnect⟩
  rw [Program.read, form_eq_divider_iff.2 rfl]
  cases message with
  | nil => exact absurd rfl hnonempty
  | cons first rest => rfl

/-! ## What is written -/

/-- A control socket at which the response is empty. -/
def silent : Surroundings := ⟨some "/tmp/splitwm-socket", none, fun _ => .ok [.received []]⟩

/-- A text of some letters. -/
def letters (n : Nat) : String := String.ofList (List.replicate n 'x')

theorem utf8ByteSize_letters (n : Nat) : (letters n).utf8ByteSize = n := by
  rw [← Text.length_encode, Text.encode, letters, String.toList_ofList, Text.encodeChars]
  induction n with
  | zero => rfl
  | succ n ih =>
    rw [List.replicate_succ, List.flatMap_cons, List.length_append, ih]
    exact Nat.add_comm 1 n

theorem contacts_letters (n : Nat) : Contacts silent [letters (n + 1)] [letters (n + 1)] := by
  have hletters : (letters (n + 1)).toList = 'x' :: List.replicate n 'x' := by
    rw [letters, String.toList_ofList, List.replicate_succ]
  have hform : Form.of (letters (n + 1)) = .plain := form_eq_plain hletters (by decide)
  refine ⟨nofun, ⟨⟨[], none, [letters (n + 1)]⟩, ?_, nofun, rfl⟩, _, _, rfl, rfl⟩
  rw [Program.read, hform]
  rfl

/-- A message is sent as one request, which a single read takes in.  It is empty exactly if the
first argument does not fit with its NUL, and else begins with that argument. -/
theorem request_eq_nil_iff {first : String} {rest : List String}
    (h : Contacts env arguments (first :: rest)) :
    ∃ request, (run env arguments).request = some request ∧
      request = Wire.encodeRequest (first :: rest) ∧ request.take Wire.capacity = request ∧
      (request = [] ↔ Wire.capacity ≤ first.utf8ByteSize) ∧
      (request ≠ [] ↔ Wire.frame first <+: request) := by
  refine ⟨_, request_eq_some_iff.2 ⟨_, h, rfl⟩, rfl,
    List.take_of_length_le (Wire.length_encodeRequest_le _), ?_, ?_⟩
  · rw [Wire.encodeRequest_eq_nil_iff, List.head?_cons]
    simp
  · rw [Wire.encodeRequest_cons]
    split
    · refine iff_of_true (fun hnil => ?_) (List.prefix_append _ _)
      exact Wire.frame_ne_nil first (List.append_eq_nil_iff.1 hnil).1
    · simpa using Wire.frame_ne_nil first

/-- The longest first argument that fits leaves no room for more. -/
theorem request_of_longest :
    Contacts silent ["--", letters 8191, ""] [letters 8191, ""] ∧
      ∃ request, (run silent ["--", letters 8191, ""]).request = some request ∧
        Wire.frame (letters 8191) <+: request := by
  have h : Contacts silent ["--", letters 8191, ""] [letters 8191, ""] :=
    contacts_divider nofun rfl rfl
  obtain ⟨request, hrequest, -, -, hnil, hprefix⟩ := request_eq_nil_iff h
  refine ⟨h, request, hrequest, hprefix.1 fun hempty => ?_⟩
  have hlong := hnil.1 hempty
  rw [utf8ByteSize_letters] at hlong
  exact absurd hlong (by decide)

/-- An argument that takes up the whole request without its NUL is sent as nothing. -/
theorem not_request_nonempty :
    '\x00' ∉ (letters 8192).toList ∧ Contacts silent [letters 8192] [letters 8192] ∧
      (run silent [letters 8192]).request = some [] := by
  have h : Contacts silent [letters 8192] [letters 8192] := contacts_letters 8191
  have hnothing : Wire.encodeRequest [letters 8192] = [] := by
    rw [Wire.encodeRequest_cons, utf8ByteSize_letters, if_neg (by decide)]
  refine ⟨?_, h, request_eq_some_iff.2 ⟨_, h, hnothing.symm⟩⟩
  rw [letters, String.toList_ofList, List.mem_replicate]
  exact fun hx => absurd hx.2 (by decide)

end Messenger

end Tiling
