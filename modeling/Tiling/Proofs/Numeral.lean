import Tiling.Numeral
/-!
# Numerals read back

The decimal form of an integer is read as that integer wherever it is within the range.  While
digits are read, the value only grows; so no part of a numeral exceeds the bound before its end.
-/

namespace Tiling.Numeral

/-! ## Digits -/

theorem digit?_of_isDigit {c : Char} (h : c.isDigit = true) :
    digit? 10 c = some (c.toNat - '0'.toNat) := by
  have hrange : '0' ≤ c ∧ c ≤ '9' := by simpa [Char.isDigit, Char.le_def] using h
  have hvalue : digitValue? c = some (c.toNat - '0'.toNat) := by
    rw [digitValue?, if_pos hrange]
    rfl
  have hsmall : c.toNat - '0'.toNat < 10 := by
    have htop := (Char.isDigit_iff_toNat.1 h).2
    have hnine : '9'.toNat = 57 := rfl
    have hzero : '0'.toNat = 48 := rfl
    omega
  rw [digit?, hvalue, Option.filter_some]
  exact if_pos (decide_eq_true hsmall)

theorem le_ofDigitChars (acc : Nat) (l : List Char) : acc ≤ Nat.ofDigitChars 10 l acc := by
  induction l generalizing acc with
  | nil => exact Nat.le_refl acc
  | cons c l ih =>
    rw [Nat.ofDigitChars_cons]
    calc acc ≤ 10 * acc + (c.toNat - '0'.toNat) := by omega
      _ ≤ Nat.ofDigitChars 10 l _ := ih _

theorem readDigits_eq {bound acc : Nat} {excess : Fault} {l : List Char}
    (hl : ∀ c ∈ l, c.isDigit = true) (hbound : Nat.ofDigitChars 10 l acc ≤ bound) :
    readDigits 10 bound excess acc l = .ok (Nat.ofDigitChars 10 l acc) := by
  induction l generalizing acc with
  | nil => rfl
  | cons c l ih =>
    rw [Nat.ofDigitChars_cons, Nat.mul_comm] at hbound
    have hvalue : acc * 10 + (c.toNat - '0'.toNat) ≤ bound :=
      Nat.le_trans (le_ofDigitChars _ l) hbound
    rw [readDigits, digit?_of_isDigit (hl c List.mem_cons_self)]
    dsimp only
    rw [if_pos hvalue, ih (fun c' hc' => hl c' (List.mem_cons_of_mem c hc')) hbound,
      Nat.ofDigitChars_cons, Nat.mul_comm]

theorem readDigits_le {radix bound acc n : Nat} {excess : Fault} {l : List Char}
    (hacc : acc ≤ bound) (h : readDigits radix bound excess acc l = .ok n) : n ≤ bound := by
  fun_induction readDigits radix bound excess acc l with
  | case1 acc => cases h; exact hacc
  | case2 => cases h
  | case3 acc c rest d hd value hvalue ih => exact ih hvalue h
  | case4 => cases h

theorem readNat_le {radix bound n : Nat} {l : List Char} (h : readNat radix bound l = .ok n) :
    n ≤ bound := by
  unfold readNat at h
  split at h
  · cases h
  · cases h
  · exact readDigits_le (Nat.zero_le bound) h
  · exact readDigits_le (Nat.zero_le bound) h

/-! ## Decimal forms -/

theorem toList_toString (n : Nat) : (toString n).toList = Nat.toDigits 10 n := by
  rw [Nat.toString_eq_repr, Nat.toList_repr]

theorem isDigit_of_mem {n : Nat} {c : Char} (h : c ∈ Nat.toDigits 10 n) : c.isDigit = true :=
  Nat.isDigit_of_mem_toDigits (by decide) (by decide) h

/-- Only zero starts with the digit zero. -/
theorem exists_toDigits (n : Nat) :
    ∃ c rest, Nat.toDigits 10 n = c :: rest ∧ (c = '0' → n = 0) := by
  induction n using Nat.strongRecOn with
  | ind n ih =>
    by_cases hn : n < 10
    · refine ⟨n.digitChar, [], Nat.toDigits_of_lt_base hn, fun hzero => ?_⟩
      have hvalue := Nat.toNat_digitChar_of_lt_ten hn
      rw [hzero] at hvalue
      have hfortyEight : '0'.toNat = 48 := rfl
      omega
    · have hstep := Nat.toDigits_of_base_le (b := 10) (by decide) (Nat.le_of_not_lt hn)
      obtain ⟨c, rest, hdigits, hzero⟩ := ih (n / 10) (by omega)
      refine ⟨c, rest ++ [(n % 10).digitChar], by rw [hstep, hdigits, List.cons_append], ?_⟩
      intro hc
      have hnone := hzero hc
      omega

theorem ne_of_isDigit {c d : Char} (hc : c.isDigit = true) (hd : d.isDigit = false) : c ≠ d := by
  rintro rfl
  rw [hc] at hd
  cases hd

theorem read_digits {bound n : Nat} (excess : Fault) (h : n ≤ bound) :
    readDigits 10 bound excess 0 (Nat.toDigits 10 n) = .ok n := by
  have hvalue : Nat.ofDigitChars 10 (Nat.toDigits 10 n) 0 = n :=
    Nat.ofDigitChars_toDigits (by decide) (by decide)
  rw [readDigits_eq (fun _ => isDigit_of_mem) (by rw [hvalue]; exact h), hvalue]

section Sign

variable {radix bound : Nat} {c : Char} {rest : List Char}

theorem readNat_of_ne_plus (hc : c ≠ '+') :
    readNat radix bound (c :: rest) = readDigits radix bound .tooLarge 0 (c :: rest) := by
  unfold readNat
  split <;> simp_all

theorem readNat_of_digit (hc : c.isDigit = true) :
    readNat radix bound (c :: rest) = readDigits radix bound .tooLarge 0 (c :: rest) :=
  readNat_of_ne_plus (ne_of_isDigit hc rfl)

theorem readInt_of_digit (hc : c.isDigit = true) :
    readInt radix bound (c :: rest) =
      (readDigits radix (bound - 1) .tooLarge 0 (c :: rest)).map fun n => (n : Int) := by
  have hplus : c ≠ '+' := ne_of_isDigit hc rfl
  have hminus : c ≠ '-' := ne_of_isDigit hc rfl
  unfold readInt
  split <;> simp_all

theorem readInt_minus :
    readInt radix bound ('-' :: c :: rest) =
      (readDigits radix bound .tooSmall 0 (c :: rest)).map fun n => -(n : Int) := by
  unfold readInt
  split <;> simp_all

end Sign

theorem readNat_toString {bound n : Nat} (h : n ≤ bound) :
    readNat 10 bound (toString n).toList = .ok n := by
  obtain ⟨c, rest, hdigits, -⟩ := exists_toDigits n
  have hc : c.isDigit = true := isDigit_of_mem (n := n) (by rw [hdigits]; exact List.mem_cons_self)
  rw [toList_toString, hdigits, readNat_of_digit hc, ← hdigits, read_digits _ h]

theorem uint32?_toString (n : UInt32) : uint32? (toString n.toNat) = some n := by
  rw [uint32?, readNat_toString (Nat.le_sub_one_of_lt n.toNat_lt)]
  exact congrArg some n.ofNat_toNat

theorem uint64?_toString (n : UInt64) : uint64? (toString n.toNat) = some n := by
  rw [uint64?, readNat_toString (Nat.le_sub_one_of_lt n.toNat_lt)]
  exact congrArg some n.ofNat_toNat

theorem toList_decimal_of_neg {n : Int} (h : n < 0) :
    (decimal n).toList = '-' :: Nat.toDigits 10 n.natAbs := by
  rw [decimal, if_pos h, String.toList_append, toList_toString]
  rfl

theorem toList_decimal_of_nonneg {n : Int} (h : ¬ n < 0) :
    (decimal n).toList = Nat.toDigits 10 n.natAbs := by
  rw [decimal, if_neg h, toList_toString]

theorem readInt_decimal {bound : Nat} {n : Int} (hlow : -(bound : Int) ≤ n) (hhigh : n < bound) :
    readInt 10 bound (decimal n).toList = .ok n := by
  obtain ⟨c, rest, hdigits, -⟩ := exists_toDigits n.natAbs
  have hc : c.isDigit = true :=
    isDigit_of_mem (n := n.natAbs) (by rw [hdigits]; exact List.mem_cons_self)
  by_cases hneg : n < 0
  · have hvalue : -(n.natAbs : Int) = n := by omega
    rw [toList_decimal_of_neg hneg, hdigits, readInt_minus, ← hdigits, read_digits _ (by omega)]
    exact congrArg Except.ok hvalue
  · have hvalue : (n.natAbs : Int) = n := by omega
    rw [toList_decimal_of_nonneg hneg, hdigits, readInt_of_digit hc, ← hdigits,
      read_digits _ (by omega)]
    exact congrArg Except.ok hvalue

theorem int32?_decimal (n : Int32) : int32? (decimal n.toInt) = some n := by
  have hlow := n.le_toInt
  have hhigh := n.toInt_lt
  rw [int32?, readInt_decimal (by omega) (by omega)]
  exact congrArg some n.ofInt_toInt

/-- No integer is written as a zero with a sign. -/
theorem decimal_ne_negativeZero (n : Int) : decimal n ≠ "-0" := by
  intro h
  have htext : (decimal n).toList = ['-', '0'] := congrArg String.toList h
  obtain ⟨c, rest, hdigits, hzero⟩ := exists_toDigits n.natAbs
  by_cases hneg : n < 0
  · rw [toList_decimal_of_neg hneg, hdigits, List.cons.injEq, List.cons.injEq] at htext
    have hnone := hzero htext.2.1
    omega
  · rw [toList_decimal_of_nonneg hneg] at htext
    have hminus : '-'.isDigit = true :=
      isDigit_of_mem (n := n.natAbs) (by rw [htext]; exact List.mem_cons_self)
    exact absurd hminus (by decide)

/-! ## Hexadecimal forms -/

/-- The eight hexadecimal digits of a word, the highest first. -/
def hexDigits (word : UInt32) : List Nat :=
  (List.range 8).map fun i => word.toNat / Nat.pow 16 (7 - i) % 16

theorem toList_hex8 (word : UInt32) :
    (hex8 word).toList = '0' :: 'x' :: (hexDigits word).map hexDigit := by
  simp only [hex8, hexDigits, String.toList_append, String.toList_ofList, List.map_map]
  rfl

theorem lt_of_mem_hexDigits {word : UInt32} {d : Nat} (h : d ∈ hexDigits word) : d < 16 := by
  obtain ⟨i, -, rfl⟩ := List.mem_map.1 h
  exact Nat.mod_lt _ (by decide)

theorem digit?_hexDigit {d : Nat} (h : d < 16) : digit? 16 (hexDigit d) = some d :=
  (by decide : ∀ d < 16, digit? 16 (hexDigit d) = some d) d h

theorem hexDigit_ne_plus {d : Nat} (h : d < 16) : hexDigit d ≠ '+' :=
  (by decide : ∀ d < 16, hexDigit d ≠ '+') d h

/-- The value of hexadecimal digits that are read onto `acc`. -/
def ofHexDigits (acc : Nat) (digits : List Nat) : Nat :=
  digits.foldl (fun acc d => acc * 16 + d) acc

theorem le_ofHexDigits (acc : Nat) (digits : List Nat) : acc ≤ ofHexDigits acc digits := by
  induction digits generalizing acc with
  | nil => exact Nat.le_refl acc
  | cons d digits ih =>
    calc acc ≤ acc * 16 + d := by omega
      _ ≤ ofHexDigits (acc * 16 + d) digits := ih _

/-- The first `k` of eight digits have the value of what is left of the number. -/
theorem ofHexDigits_range {n : Nat} (hn : n < Nat.pow 16 8) {k : Nat} (hk : k ≤ 8) :
    ofHexDigits 0 ((List.range k).map fun i => n / Nat.pow 16 (7 - i) % 16) =
      n / Nat.pow 16 (8 - k) := by
  induction k with
  | zero => exact (Nat.div_eq_of_lt hn).symm
  | succ k ih =>
    have hstep : n / Nat.pow 16 (8 - k) = n / Nat.pow 16 (7 - k) / 16 := by
      have hsucc : 8 - k = 7 - k + 1 := by omega
      rw [Nat.div_div_eq_div_mul, hsucc]
      rfl
    have hexponent : 8 - (k + 1) = 7 - k := by omega
    have hbefore := ih (by omega)
    rw [ofHexDigits] at hbefore
    rw [List.range_succ, List.map_append, ofHexDigits, List.foldl_append, hbefore, hstep, hexponent]
    exact Nat.div_add_mod' (n / Nat.pow 16 (7 - k)) 16

theorem ofHexDigits_hexDigits (word : UInt32) : ofHexDigits 0 (hexDigits word) = word.toNat :=
  (ofHexDigits_range word.toNat_lt (Nat.le_refl 8)).trans (Nat.div_one _)

theorem readDigits_map_hexDigit {bound acc : Nat} {excess : Fault} {digits : List Nat}
    (hdigits : ∀ d ∈ digits, d < 16) (hbound : ofHexDigits acc digits ≤ bound) :
    readDigits 16 bound excess acc (digits.map hexDigit) = .ok (ofHexDigits acc digits) := by
  induction digits generalizing acc with
  | nil => rfl
  | cons d digits ih =>
    rw [List.forall_mem_cons] at hdigits
    have hvalue : acc * 16 + d ≤ bound := Nat.le_trans (le_ofHexDigits _ digits) hbound
    rw [List.map_cons, readDigits, digit?_hexDigit hdigits.1]
    dsimp only
    rw [if_pos hvalue, ih hdigits.2 hbound]
    rfl

/-- The digits of the fixed-width form are those of the word. -/
theorem hexUInt32?_hexDigits (word : UInt32) :
    hexUInt32? (String.ofList ((hexDigits word).map hexDigit)) = some word := by
  obtain ⟨d, rest, hdigits⟩ : ∃ d rest, hexDigits word = d :: rest := ⟨_, _, rfl⟩
  have hplus : hexDigit d ≠ '+' :=
    hexDigit_ne_plus (lt_of_mem_hexDigits (hdigits ▸ List.mem_cons_self))
  have hbound : ofHexDigits 0 (hexDigits word) ≤ UInt32.size - 1 := by
    rw [ofHexDigits_hexDigits]
    exact Nat.le_sub_one_of_lt word.toNat_lt
  have hread : readNat 16 (UInt32.size - 1) ((hexDigits word).map hexDigit) = .ok word.toNat := by
    rw [hdigits, List.map_cons, readNat_of_ne_plus hplus, ← List.map_cons, ← hdigits,
      readDigits_map_hexDigit (fun _ => lt_of_mem_hexDigits) hbound, ofHexDigits_hexDigits]
  rw [hexUInt32?, String.toList_ofList, hread]
  exact congrArg some word.ofNat_toNat

end Tiling.Numeral
