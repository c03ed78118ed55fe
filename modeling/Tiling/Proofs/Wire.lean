import Mathlib.Data.List.Infix
import Tiling.Proofs.Text.Utf8
import Tiling.Wire
/-!
# Requests read back

Decoding a request gives the arguments that fit into it, and encoding what was decoded gives the
same bytes.  A request without arguments and one with the empty argument alone decode alike, and
they are the only ones that cannot be told apart.
-/

namespace Tiling.Wire

/-- Bytes that the frames of some arguments take up. -/
def size : List String → Nat
  | [] => 0
  | argument :: rest => argument.utf8ByteSize + 1 + size rest

theorem length_frame (argument : String) : (frame argument).length = argument.utf8ByteSize + 1 := by
  rw [frame, List.length_append, Text.length_encode, List.length_singleton]

theorem length_flatMap_frame (arguments : List String) :
    (arguments.flatMap frame).length = size arguments := by
  induction arguments with
  | nil => rfl
  | cons argument rest ih => rw [List.flatMap_cons, List.length_append, length_frame, ih, size]

/-! ## What fits -/

/-- Of the beginnings of a list of arguments, the longest whose frames fit into `room` bytes. -/
structure Fitting (room : Nat) (kept arguments : List String) : Prop where
  begins : kept <+: arguments
  fits : size kept ≤ room
  longest : ∀ others, others <+: arguments → size others ≤ room → others <+: kept

theorem exists_fitting (room : Nat) (arguments : List String) :
    ∃ kept, Fitting room kept arguments ∧ encodeWithin room arguments = kept.flatMap frame := by
  induction arguments generalizing room with
  | nil =>
    refine ⟨[], ⟨List.prefix_refl [], Nat.zero_le _, fun others hothers _ => hothers⟩, rfl⟩
  | cons argument rest ih =>
    rw [encodeWithin, length_frame]
    by_cases hroom : argument.utf8ByteSize + 1 ≤ room
    · rw [if_pos hroom]
      obtain ⟨kept, hkept, hbytes⟩ := ih (room - (argument.utf8ByteSize + 1))
      refine ⟨argument :: kept, ⟨?_, ?_, ?_⟩, by rw [hbytes, List.flatMap_cons]⟩
      · exact (List.prefix_cons_inj argument).2 hkept.begins
      · have hfits := hkept.fits
        rw [size]
        omega
      · intro others hothers hsize
        cases others with
        | nil => exact List.nil_prefix
        | cons first others =>
          obtain ⟨rfl, hrest⟩ := List.cons_prefix_cons.1 hothers
          rw [size] at hsize
          exact (List.prefix_cons_inj first).2 (hkept.longest others hrest (by omega))
    · rw [if_neg hroom]
      refine ⟨[], ⟨List.nil_prefix, Nat.zero_le _, fun others hothers hsize => ?_⟩, rfl⟩
      cases others with
      | nil => exact List.nil_prefix
      | cons first others =>
        obtain ⟨rfl, -⟩ := List.cons_prefix_cons.1 hothers
        rw [size] at hsize
        omega

theorem encodeWithin_of_size_le {room : Nat} {arguments : List String}
    (h : size arguments ≤ room) : encodeWithin room arguments = arguments.flatMap frame := by
  obtain ⟨kept, hkept, hbytes⟩ := exists_fitting room arguments
  have hall := hkept.longest arguments (List.prefix_refl arguments) h
  rw [hbytes, hkept.begins.eq_of_length_le hall.length_le]

/-! ## Parts between NULs -/

theorem splitFrom_append {bytes : Bytes} (h : 0 ∉ bytes) (part rest : Bytes) :
    splitFrom part (bytes ++ rest) = splitFrom (bytes.reverse ++ part) rest := by
  induction bytes generalizing part with
  | nil => rfl
  | cons b bytes ih =>
    obtain ⟨hb, hbytes⟩ := List.ne_and_not_mem_of_not_mem_cons h
    rw [List.cons_append, splitFrom, if_neg (Ne.symm hb), ih hbytes, List.reverse_cons,
      List.append_assoc]
    rfl

theorem splitFrom_flatMap (parts : List Bytes) {last : Bytes} (hparts : ∀ p ∈ parts, 0 ∉ p)
    (hlast : 0 ∉ last) : splitFrom [] (parts.flatMap (· ++ [0]) ++ last) = parts ++ [last] := by
  induction parts with
  | nil =>
    have hwhole := splitFrom_append hlast [] []
    rw [List.append_nil, List.append_nil, splitFrom, List.reverse_reverse] at hwhole
    exact hwhole
  | cons p parts ih =>
    rw [List.flatMap_cons, List.append_assoc, List.append_assoc,
      splitFrom_append (hparts p List.mem_cons_self), List.singleton_append, splitFrom, if_pos rfl,
      ih fun q hq => hparts q (List.mem_cons_of_mem p hq), List.append_nil, List.reverse_reverse,
      List.cons_append]

/-- The parts with their NULs are the bytes again, with a NUL at the end. -/
theorem flatMap_splitFrom (part bytes : Bytes) :
    (splitFrom part bytes).flatMap (· ++ [0]) = part.reverse ++ bytes ++ [0] := by
  induction bytes generalizing part with
  | nil => simp [splitFrom]
  | cons b bytes ih =>
    rw [splitFrom]
    split
    · rename_i hb
      rw [List.flatMap_cons, ih, hb]
      simp
    · rw [ih]
      simp

theorem splitFrom_concat (part bytes : Bytes) :
    splitFrom part (bytes ++ [0]) = splitFrom part bytes ++ [[]] := by
  induction bytes generalizing part with
  | nil => simp [splitFrom]
  | cons b bytes ih =>
    rw [List.cons_append, splitFrom, splitFrom]
    split
    · rw [ih, List.cons_append]
    · exact ih _

/-- The parts of a text are texts. -/
theorem exists_text_of_mem_splitFrom (cs ds : List Char) {p : Bytes}
    (hp : p ∈ splitFrom (Text.encodeChars ds).reverse (Text.encodeChars cs)) :
    ∃ text, p = Text.encode text := by
  induction cs generalizing ds with
  | nil =>
    rw [Text.encodeChars_nil, splitFrom, List.mem_singleton, List.reverse_reverse] at hp
    exact ⟨String.ofList ds, by rw [hp, Text.encode, String.toList_ofList]⟩
  | cons c cs ih =>
    rw [Text.encodeChars_cons] at hp
    by_cases hc : c = '\x00'
    · have hnul : String.utf8EncodeChar c = [0] := by
        rw [hc]
        decide
      rw [hnul, List.singleton_append, splitFrom, if_pos rfl, List.mem_cons,
        List.reverse_reverse] at hp
      rcases hp with rfl | hp
      · exact ⟨String.ofList ds, by rw [Text.encode, String.toList_ofList]⟩
      · exact ih [] hp
    · rw [splitFrom_append (fun hzero => hc (Text.zero_mem_encodeChar.1 hzero)),
        ← List.reverse_append] at hp
      apply ih (ds ++ [c])
      rwa [Text.encodeChars_append, Text.encodeChars_cons, Text.encodeChars_nil, List.append_nil]

/-! ## Both ways -/

theorem dropFinalNul_concat (bytes : Bytes) : Text.dropFinalNul (bytes ++ [0]) = bytes := by
  rw [Text.dropFinalNul, List.getLast?_concat, if_pos rfl, List.dropLast_concat]

theorem decodeRequest_frames {arguments : List String}
    (h : ∀ argument ∈ arguments, '\x00' ∉ argument.toList) :
    decodeRequest (arguments.flatMap frame) = if arguments = [""] then [] else arguments := by
  rcases List.eq_nil_or_concat' arguments with rfl | ⟨before, last, rfl⟩
  · rfl
  have hfree (argument : String) (hmem : argument ∈ before ++ [last]) :
      0 ∉ Text.encode argument := fun hzero => h argument hmem (Text.zero_mem_encode.1 hzero)
  have hframes : (before ++ [last]).flatMap frame =
      ((before.map Text.encode).flatMap (· ++ [0]) ++ Text.encode last) ++ [0] := by
    rw [List.flatMap_append, List.flatMap_map, List.flatMap_singleton, frame, List.append_assoc]
    rfl
  have hsplit : splitFrom [] ((before.map Text.encode).flatMap (· ++ [0]) ++ Text.encode last) =
      (before ++ [last]).map Text.encode := by
    rw [splitFrom_flatMap, List.map_append, List.map_singleton]
    · intro p hp
      obtain ⟨argument, hargument, rfl⟩ := List.mem_map.1 hp
      exact hfree argument (List.mem_append_left _ hargument)
    · exact hfree last (by simp)
  have htexts : ((before ++ [last]).map Text.encode).map Text.decode = before ++ [last] := by
    rw [List.map_map]
    exact (List.map_congr_left fun argument _ => Text.decode_encode argument).trans (List.map_id' _)
  rw [decodeRequest, hframes, dropFinalNul_concat, hsplit, htexts]
  -- nothing is left without the last NUL only if there is one argument, and that is empty
  have hempty : (((before.map Text.encode).flatMap (· ++ [0]) ++ Text.encode last).isEmpty = true) ↔
      before ++ [last] = [""] := by
    cases before with
    | nil =>
      rw [List.map_nil, List.flatMap_nil, List.nil_append, List.nil_append, List.isEmpty_iff,
        ← List.length_eq_zero_iff, Text.length_encode, String.utf8ByteSize_eq_zero_iff]
      simp
    | cons first before => simp
  simp only [hempty]

theorem encodeRequest_decodeRequest {bytes : Bytes} (hcapacity : bytes.length < capacity)
    (htexts : ∀ p ∈ splitFrom [] bytes, ∃ text, p = Text.encode text) (hne : bytes ≠ []) :
    encodeRequest (decodeRequest (bytes ++ [0])) = bytes ++ [0] := by
  have hframes : ((splitFrom [] bytes).map Text.decode).flatMap frame = bytes ++ [0] := by
    calc ((splitFrom [] bytes).map Text.decode).flatMap frame
        = (splitFrom [] bytes).flatMap (· ++ [0]) := by
          rw [List.flatMap_map]
          refine List.flatMap_congr fun p hp => ?_
          obtain ⟨text, rfl⟩ := htexts p hp
          rw [Text.decode_encode, frame]
      _ = bytes ++ [0] := flatMap_splitFrom [] bytes
  rw [decodeRequest, dropFinalNul_concat, if_neg (by simpa using hne), encodeRequest,
    encodeWithin_of_size_le, hframes]
  rw [← length_flatMap_frame, hframes, List.length_append, List.length_singleton]
  exact hcapacity

/-- A request takes no more bytes than there are and carries the longest beginning of its
arguments that fits; a request that is a text and ends in NUL is what its arguments are encoded
to. -/
theorem request_round_trip :
    (∀ arguments : List String, (∀ argument ∈ arguments, '\x00' ∉ argument.toList) →
      (encodeRequest arguments).length ≤ capacity ∧
        ∃ kept, Fitting capacity kept arguments ∧
          decodeRequest (encodeRequest arguments) = if kept = [""] then [] else kept) ∧
      ∀ bytes : Bytes, bytes.length ≤ capacity → (Text.decode? bytes).isSome →
        bytes.getLast? = some 0 → bytes ≠ [0] → encodeRequest (decodeRequest bytes) = bytes := by
  constructor
  · intro arguments hfree
    obtain ⟨kept, hkept, hbytes⟩ := exists_fitting capacity arguments
    rw [encodeRequest, hbytes, length_flatMap_frame]
    refine ⟨hkept.fits, kept, hkept, decodeRequest_frames fun argument hargument => ?_⟩
    exact hfree argument (hkept.begins.subset hargument)
  · intro bytes hcapacity htext hlast hne
    obtain ⟨before, rfl⟩ := List.getLast?_eq_some_iff.1 hlast
    obtain ⟨text, htext⟩ := Option.isSome_iff_exists.1 htext
    rw [List.length_append, List.length_singleton] at hcapacity
    refine encodeRequest_decodeRequest hcapacity (fun p hp => ?_) ?_
    · apply exists_text_of_mem_splitFrom text.toList []
      show p ∈ splitFrom [] (Text.encode text)
      rw [← Text.decode?_eq_some_iff.1 htext, splitFrom_concat]
      exact List.mem_append_left _ hp
    · rintro rfl
      exact hne rfl

/-- Empty arguments, also at the end, and characters of several bytes come back. -/
theorem request_round_trip_empty :
    (∀ argument ∈ ["é", "", ""], '\x00' ∉ argument.toList) ∧
      (∃ kept, Fitting capacity kept ["é", "", ""] ∧
        decodeRequest (encodeRequest ["é", "", ""]) = if kept = [""] then [] else kept) ∧
      (Text.decode? [0xc3, 0xa9, 0, 0, 0]).isSome ∧
      encodeRequest (decodeRequest [0xc3, 0xa9, 0, 0, 0]) = [0xc3, 0xa9, 0, 0, 0] := by
  have hfree : ∀ argument ∈ ["é", "", ""], '\x00' ∉ argument.toList := by decide
  have htext : (Text.decode? [0xc3, 0xa9, 0, 0, 0]).isSome := by
    rw [show ([0xc3, 0xa9, 0, 0, 0] : Bytes) = Text.encode "é\x00\x00\x00" by decide,
      Text.decode?_encode]
    rfl
  exact ⟨hfree, (request_round_trip.1 _ hfree).2, htext,
    request_round_trip.2 _ (by decide) htext (by decide) (by decide)⟩

end Tiling.Wire
