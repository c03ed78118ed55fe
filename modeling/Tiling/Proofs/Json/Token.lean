import Mathlib.Data.List.TakeWhile
import Tiling.Json.Printer
import Tiling.Proofs.Numeral
/-!
# Printed tokens are read back

A quoted text is read as one string token that spells it, whatever follows; a numeral is read as
one number token if what follows cannot continue it.
-/

namespace Tiling.Json

/-! ## Strings -/

theorem digit?_lowerHexDigit : ∀ n < 16, Numeral.digit? 16 (lowerHexDigit n) = some n := by
  decide

/-- A character and the escape sequence of its unit spell the same. -/
theorem textOfPieces_unit {c : Char} (h : c.toNat < 0x20) (acc : List Char) (pieces : List Piece) :
    textOfPieces acc (.unit c.toNat :: pieces) = textOfPieces (c :: acc) pieces := by
  have htrailing : isTrailing c.toNat = false := by
    rw [isTrailing, decide_eq_false (by omega), Bool.false_and]
  have hleading : isLeading c.toNat = false := by
    rw [isLeading, decide_eq_false (by omega), Bool.false_and]
  conv => lhs; unfold textOfPieces
  simp only [htrailing, hleading, Char.ofNat_toNat, Bool.false_eq_true, if_false]

theorem scanString_unit {c : Char} (h : c.toNat < 0x20) (acc : List Piece) (rest : List Char) :
    scanString acc ('\\' :: 'u' :: '0' :: '0' :: lowerHexDigit (c.toNat / 16) ::
      lowerHexDigit (c.toNat % 16) :: rest) = scanString (.unit c.toNat :: acc) rest := by
  have hvalue : hex4? '0' '0' (lowerHexDigit (c.toNat / 16)) (lowerHexDigit (c.toNat % 16)) =
      some c.toNat := by
    have hsum : ((0 * 16 + 0) * 16 + c.toNat / 16) * 16 + c.toNat % 16 = c.toNat := by omega
    rw [hex4?, digit?_lowerHexDigit _ (by omega), digit?_lowerHexDigit _ (by omega)]
    exact congrArg some hsum
  rw [scanString, hvalue]

theorem scanString_plain {c : Char} (hquote : c ≠ '"') (hslash : c ≠ '\\') (h : ¬ c.toNat < 0x20)
    (acc : List Piece) (rest : List Char) :
    scanString acc (c :: rest) = scanString (.char c :: acc) rest := by
  rw [scanString]
  · rw [if_neg h]
  all_goals simp_all

/-- The escaped form of a character is read as a piece that spells it. -/
theorem scanString_escape (c : Char) :
    ∃ piece, (∀ acc rest, scanString acc (escape c ++ rest) = scanString (piece :: acc) rest) ∧
      ∀ acc pieces, textOfPieces acc (piece :: pieces) = textOfPieces (c :: acc) pieces := by
  have hchar
      (p : ∀ acc rest, scanString acc (escape c ++ rest) = scanString (.char c :: acc) rest) :
      ∃ piece, (∀ acc rest, scanString acc (escape c ++ rest) = scanString (piece :: acc) rest) ∧
        ∀ acc pieces, textOfPieces acc (piece :: pieces) = textOfPieces (c :: acc) pieces :=
    ⟨.char c, p, fun _ _ => rfl⟩
  unfold escape at hchar ⊢
  split
  iterate 7 exact hchar fun acc rest => by simp [scanString, escaped?]
  split
  · rename_i h
    exact ⟨.unit c.toNat, fun acc rest => scanString_unit h acc rest, textOfPieces_unit h⟩
  · rename_i h
    refine ⟨.char c, fun acc rest => scanString_plain ?_ ?_ h acc rest, fun _ _ => rfl⟩
    · assumption
    · assumption

/-- A text between quotes is read to its end. -/
theorem scanString_quoted (text : List Char) (acc : List Piece) (rest : List Char) :
    ∃ pieces, scanString acc (text.flatMap escape ++ '"' :: rest) = some (pieces, rest) ∧
      ∀ after, textOfPieces after pieces = textOfPieces (text ++ after) acc := by
  induction text generalizing acc with
  | nil => exact ⟨acc, by simp [scanString], fun _ => rfl⟩
  | cons c text ih =>
    obtain ⟨piece, hscan, hspells⟩ := scanString_escape c
    obtain ⟨pieces, hpieces, hafter⟩ := ih (piece :: acc)
    refine ⟨pieces, ?_, fun after => ?_⟩
    · rw [List.flatMap_cons, List.append_assoc, hscan, hpieces]
    · rw [hafter, hspells, List.cons_append]

theorem Token.next?_quote (text : String) (rest : List Char) :
    Token.next? (quote text ++ rest) = some (.string (some text), rest) := by
  obtain ⟨pieces, hscan, hafter⟩ := scanString_quoted text.toList [] rest
  have htext : textOfPieces [] pieces = some text.toList := by
    rw [hafter, List.append_nil, textOfPieces]
  have hquote : quote text ++ rest = '"' :: (text.toList.flatMap escape ++ '"' :: rest) := by
    simp [quote]
  rw [hquote, Token.next?, hscan, Option.map_some]
  dsimp only
  rw [htext, Option.map_some, String.ofList_toList]

/-! ## Numbers -/

/-- The spelling of a number, which ends where another character comes. -/
structure IsNumeral (spelling : List Char) : Prop where
  number : isNumber spelling = true
  chars : ∀ c ∈ spelling, isNumberChar c = true

/-- Nothing that continues a number comes first. -/
def Breaks (rest : List Char) : Prop := ∀ c ∈ rest.head?, isNumberChar c = false

theorem Breaks.takeWhile {rest : List Char} (h : Breaks rest) :
    rest.takeWhile isNumberChar = [] ∧ rest.dropWhile isNumberChar = rest := by
  cases rest with
  | nil => exact ⟨rfl, rfl⟩
  | cons c rest =>
    have hc : isNumberChar c = false := h c rfl
    rw [List.takeWhile_cons, List.dropWhile_cons, hc]
    exact ⟨rfl, rfl⟩

theorem Token.next?_number {spelling rest : List Char} (h : IsNumeral spelling)
    (hrest : Breaks rest) :
    Token.next? (spelling ++ rest) = some (.number (String.ofList spelling), rest) := by
  obtain ⟨htake, hdrop⟩ := hrest.takeWhile
  have hspelling : (spelling ++ rest).takeWhile isNumberChar = spelling := by
    rw [List.takeWhile_append_of_pos h.chars, htake, List.append_nil]
  have hleft : (spelling ++ rest).dropWhile isNumberChar = rest := by
    rw [List.dropWhile_append_of_pos h.chars, hdrop]
  cases spelling with
  | nil => exact absurd h.number (by decide)
  | cons c spelling =>
    have hc := h.chars c List.mem_cons_self
    rw [List.cons_append] at *
    have hne (d : Char) (hd : isNumberChar d = false) : c ≠ d := fun heq => by
      rw [heq, hd] at hc
      cases hc
    -- no other token starts with a character of a number
    unfold Token.next?
    split
    · cases ‹c :: _ = []›
    iterate 10 exact absurd (List.cons.inj ‹_›).1 (hne _ rfl)
    dsimp only
    rw [hspelling, hleft, if_pos h.number]

/-! ## Numerals -/

theorem isNumberChar_of_isDigit {c : Char} (h : c.isDigit = true) : isNumberChar c = true := by
  simp [isNumberChar, h]

theorem isUnsignedNumber_toDigits (n : Nat) : isUnsignedNumber (Nat.toDigits 10 n) = true := by
  obtain ⟨c, rest, hdigits, hzero⟩ := Numeral.exists_toDigits n
  by_cases hc : c = '0'
  · rw [hzero hc]
    decide
  · have hdigit {d : Char} (hd : d ∈ c :: rest) : d.isDigit = true :=
      Numeral.isDigit_of_mem (n := n) (by rwa [hdigits])
    have hall : rest.dropWhile Char.isDigit = [] :=
      List.dropWhile_eq_nil_iff.2 fun d hd => hdigit (List.mem_cons_of_mem c hd)
    rw [hdigits]
    unfold isUnsignedNumber
    split
    · exact absurd (List.cons.inj ‹_›).1 hc
    · rename_i heq
      obtain ⟨rfl, rfl⟩ := List.cons.inj heq
      rw [hdigit List.mem_cons_self, hall]
      rfl
    · rename_i heq
      cases heq

theorem isNumeral_toString (n : Nat) : IsNumeral (toString n).toList := by
  obtain ⟨c, rest, hdigits, -⟩ := Numeral.exists_toDigits n
  have hc : c ≠ '-' := Numeral.ne_of_isDigit
    (Numeral.isDigit_of_mem (n := n) (by rw [hdigits]; exact List.mem_cons_self)) rfl
  have hunsigned := isUnsignedNumber_toDigits n
  rw [Numeral.toList_toString]
  refine ⟨?_, fun d hd => isNumberChar_of_isDigit (Numeral.isDigit_of_mem hd)⟩
  rw [hdigits] at hunsigned ⊢
  unfold isNumber
  split
  · exact absurd (List.cons.inj ‹_›).1 hc
  · exact hunsigned

theorem isNumeral_decimal (n : Int) : IsNumeral (Numeral.decimal n).toList := by
  by_cases hneg : n < 0
  · rw [Numeral.toList_decimal_of_neg hneg]
    refine ⟨isUnsignedNumber_toDigits _, fun d hd => ?_⟩
    rcases List.mem_cons.1 hd with rfl | hd
    · rfl
    · exact isNumberChar_of_isDigit (Numeral.isDigit_of_mem hd)
  · rw [Numeral.toList_decimal_of_nonneg hneg, ← Numeral.toList_toString]
    exact isNumeral_toString _

end Tiling.Json
