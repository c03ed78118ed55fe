import Tiling.Text.Utf8
/-!
# Texts and their bytes

The bytes of a text decode to the text, with replacement characters or without.  A NUL in the
bytes is a NUL in the text, so bytes parted at a NUL are those of two texts.
-/

namespace Tiling.Text

theorem encodeChars_nil : encodeChars [] = [] := rfl

theorem encodeChars_append (cs ds : List Char) :
    encodeChars (cs ++ ds) = encodeChars cs ++ encodeChars ds :=
  List.flatMap_append

theorem encodeChars_cons (c : Char) (cs : List Char) :
    encodeChars (c :: cs) = String.utf8EncodeChar c ++ encodeChars cs :=
  List.flatMap_cons

theorem toByteArray_encode (text : String) :
    ByteArray.mk (encode text).toArray = text.toByteArray := by
  rw [← String.utf8Encode_toList, encode, encodeChars, List.utf8Encode]
  apply ByteArray.ext
  rw [List.data_toByteArray]

theorem length_encode (text : String) : (encode text).length = text.utf8ByteSize := by
  have hsize := congrArg ByteArray.size (toByteArray_encode text)
  rwa [String.size_toByteArray, ByteArray.size, List.size_toArray] at hsize

/-! ## Well-formed bytes -/

theorem decode?_encode (text : String) : decode? (encode text) = some text := by
  rw [decode?, toByteArray_encode, String.fromUTF8?, dif_pos text.isValidUTF8]
  rfl

theorem decode?_eq_some_iff {bytes : Bytes} {text : String} :
    decode? bytes = some text ↔ bytes = encode text := by
  constructor
  · intro h
    rw [decode?, String.fromUTF8?] at h
    split at h
    · have hbytes : bytes = text.toByteArray.data.toList := by
        rw [← Option.some.inj h]
        rfl
      rw [hbytes, ← toByteArray_encode]
    · cases h
  · rintro rfl
    exact decode?_encode text

/-! ## Bytes that may be ill-formed -/

theorem firstChar?_encodeChar (c : Char) (rest : Bytes) :
    firstChar? (String.utf8EncodeChar c ++ rest) = some c := by
  have hlength : (String.utf8EncodeChar c).length ≤ 4 := by
    rw [String.length_utf8EncodeChar]
    exact c.utf8Size_le_four
  have hbytes : ByteArray.mk ((String.utf8EncodeChar c ++ rest).take 4).toArray =
      (String.utf8EncodeChar c).toByteArray ++
        ByteArray.mk (rest.take (4 - (String.utf8EncodeChar c).length)).toArray := by
    rw [List.take_append, List.take_of_length_le hlength]
    apply ByteArray.ext
    rw [ByteArray.data_append, List.data_toByteArray, List.append_toArray]
  rw [firstChar?, hbytes]
  exact ByteArray.utf8DecodeChar?_utf8EncodeChar_append

theorem decodeFrom_encodeChars (cs acc : List Char) {fuel : Nat}
    (h : (encodeChars cs).length ≤ fuel) :
    decodeFrom fuel acc (encodeChars cs) = acc.reverse ++ cs := by
  induction cs generalizing acc fuel with
  | nil => cases fuel <;> simp [decodeFrom, encodeChars]
  | cons c cs ih =>
    rw [encodeChars_cons, List.length_append, String.length_utf8EncodeChar] at h
    have hpos := c.utf8Size_pos
    obtain ⟨fuel, rfl⟩ : ∃ n, fuel = n + 1 := ⟨fuel - 1, by omega⟩
    obtain ⟨b, rest, hsplit⟩ : ∃ b rest, encodeChars (c :: cs) = b :: rest := by
      cases hbytes : encodeChars (c :: cs) with
      | nil =>
        have hlength := congrArg List.length hbytes
        rw [encodeChars_cons, List.length_append, String.length_utf8EncodeChar,
          List.length_nil] at hlength
        omega
      | cons b rest => exact ⟨b, rest, rfl⟩
    have hfirst : firstChar? (b :: rest) = some c := by
      rw [← hsplit, encodeChars_cons, firstChar?_encodeChar]
    have hrest : (b :: rest).drop c.utf8Size = encodeChars cs := by
      rw [← hsplit, encodeChars_cons, ← String.length_utf8EncodeChar, List.drop_left]
    rw [hsplit, decodeFrom, hfirst]
    dsimp only
    rw [hrest, ih (c :: acc) (by omega), List.reverse_cons, List.append_assoc]
    rfl

theorem decode_encode (text : String) : decode (encode text) = text := by
  rw [decode, encode, decodeFrom_encodeChars _ _ (Nat.le_refl _), List.reverse_nil, List.nil_append,
    String.ofList_toList]

/-! ## The first byte -/

/-- A character of one byte is known by that byte. -/
theorem head?_encode {a : Char} {b : UInt8} (h : String.utf8EncodeChar a = [b]) (text : String) :
    (encode text).head? = some b ↔ text.toList.head? = some a := by
  have hfirst (rest : Bytes) : firstChar? (b :: rest) = some a := by
    rw [← List.singleton_append, ← h, firstChar?_encodeChar]
  rw [encode]
  constructor
  · intro hhead
    obtain ⟨rest, hrest⟩ := List.head?_eq_some_iff.1 hhead
    cases hlist : text.toList with
    | nil =>
      rw [hlist, encodeChars_nil] at hrest
      cases hrest
    | cons c cs =>
      rw [hlist, encodeChars_cons] at hrest
      rw [List.head?_cons, ← firstChar?_encodeChar c (encodeChars cs), hrest, hfirst]
  · intro hhead
    obtain ⟨rest, hrest⟩ := List.head?_eq_some_iff.1 hhead
    rw [hrest, encodeChars_cons, h, List.singleton_append, List.head?_cons]

/-! ## NUL -/

theorem zero_mem_encodeChar {c : Char} : (0 : UInt8) ∈ String.utf8EncodeChar c ↔ c = '\x00' := by
  constructor
  · intro h
    -- the bytes of a longer sequence all have their first bit set
    have hbyte {n : Nat} (hlow : 0x80 ≤ n) (hhigh : n < 0x100) : (0 : UInt8) ≠ UInt8.ofNat n := by
      intro heq
      have hzero := congrArg UInt8.toNat heq
      rw [UInt8.toNat_ofNat', UInt8.toNat_zero, Nat.mod_eq_of_lt (by omega)] at hzero
      omega
    have htail (n : Nat) : (0 : UInt8) ≠ UInt8.ofNat (n % 0x40 + 0x80) :=
      hbyte (by omega) (by omega)
    rw [String.utf8EncodeChar] at h
    split at h
    · rename_i hsmall
      have hzero := congrArg UInt8.toNat (List.mem_singleton.1 h)
      rw [UInt8.toNat_ofNat', UInt8.toNat_zero, Nat.mod_eq_of_lt (by omega)] at hzero
      exact Char.toNat_inj.1 hzero.symm
    split at h
    · simp only [List.mem_cons, htail, List.not_mem_nil, or_false] at h
      exact absurd h (hbyte (by omega) (by omega))
    split at h
    · simp only [List.mem_cons, htail, List.not_mem_nil, or_false] at h
      exact absurd h (hbyte (by omega) (by omega))
    · simp only [List.mem_cons, htail, List.not_mem_nil, or_false] at h
      exact absurd h (hbyte (by omega) (by omega))
  · rintro rfl
    decide

theorem zero_mem_encode {text : String} : (0 : UInt8) ∈ encode text ↔ '\x00' ∈ text.toList := by
  rw [encode, encodeChars, List.mem_flatMap]
  simp only [zero_mem_encodeChar, exists_eq_right]

end Tiling.Text
