import Tiling.Proofs.Json.Token
/-!
# Printed values are read back

The printed form of a value, at any level and inside any open brackets, takes the reader to the
place of that value.  The parts of a text are read one after the other, a gap or a token at a
time, so a text never needs more fuel than it has characters.
-/

namespace Tiling.Json

/-- The printed form says all of the value: its numbers are spelled as numbers, and nothing in
it is void. -/
inductive Value.Legible : Value → Prop where
  | null : Legible .null
  | bool (b : Bool) : Legible (.bool b)
  | number {spelling : String} (h : IsNumeral spelling.toList) : Legible (.number spelling)
  | string (text : String) : Legible (.string text)
  | array {items : List Value} (h : ∀ v ∈ items, Legible v) : Legible (.array items)
  | object {members : List (String × Value)} (h : ∀ m ∈ members, Legible m.2) :
      Legible (.object members)

theorem breaks_cons {c : Char} (h : isNumberChar c = false) (rest : List Char) :
    Breaks (c :: rest) := fun d hd => by
  rw [← Option.some.inj hd]
  exact h

theorem not_isGap {c : Char} (h : isNumberChar c = true) : isGap c = false := by
  rw [← Bool.not_eq_true]
  intro hgap
  simp only [isGap, Bool.or_eq_true, beq_iff_eq] at hgap
  rcases hgap with ((rfl | rfl) | rfl) | rfl <;> exact absurd h (by decide)

theorem isGap_lineBreak (level : Nat) : ∀ c ∈ lineBreak level, isGap c = true := by
  intro c hc
  rcases List.mem_cons.1 hc with rfl | hc
  · rfl
  · rw [List.eq_of_mem_replicate hc]
    rfl

namespace Value

/-! ## Parts of a text -/

/-- A part of a text is read from one partial value to another. -/
def Reads (part : List Char) (p q : Partial) (rest : List Char) : Prop :=
  ∃ k ≤ part.length, ∀ fuel, readFrom (fuel + k) p (part ++ rest) = readFrom fuel q rest

namespace Reads

variable {a b part rest : List Char} {p q r : Partial}

theorem nil (p : Partial) (rest : List Char) : Reads [] p p rest :=
  ⟨0, Nat.le_refl 0, fun _ => rfl⟩

theorem append (h : Reads a p q (b ++ rest)) (h' : Reads b q r rest) : Reads (a ++ b) p r rest := by
  obtain ⟨k, hk, hread⟩ := h
  obtain ⟨k', hk', hread'⟩ := h'
  refine ⟨k' + k, by rw [List.length_append]; omega, fun fuel => ?_⟩
  rw [← Nat.add_assoc, List.append_assoc, hread, hread']

theorem gap (p : Partial) (rest : List Char) (h : ∀ c ∈ part, isGap c = true) :
    Reads part p p rest := by
  induction part with
  | nil => exact nil p rest
  | cons c part ih =>
    obtain ⟨k, hk, hread⟩ := ih fun d hd => h d (List.mem_cons_of_mem c hd)
    refine ⟨k + 1, by rw [List.length_cons]; omega, fun fuel => ?_⟩
    rw [← Nat.add_assoc, List.cons_append, readFrom, if_pos (h c List.mem_cons_self), hread]

/-- A part that is one token. -/
theorem token {c : Char} {token : Token} (hc : isGap c = false)
    (hnext : Token.next? (c :: part ++ rest) = some (token, rest)) (hpush : p.push token = some q) :
    Reads (c :: part) p q rest := by
  refine ⟨1, by rw [List.length_cons]; omega, fun fuel => ?_⟩
  rw [List.cons_append] at hnext ⊢
  rw [readFrom, hc, hnext]
  dsimp only
  rw [hpush]
  rfl

end Reads

/-- A character at the end of a line. -/
theorem reads_line {c : Char} {p q : Partial} (h : ∀ rest, Reads [c] p q rest) (level : Nat)
    (rest : List Char) : Reads (c :: lineBreak level) p q rest :=
  .append (a := [c]) (h _) (.gap q rest (isGap_lineBreak level))

/-! ## Values in their places -/

/-- The printed form of the value is read where a value may stand, and puts the value there. -/
def ReadsBack (v : Value) : Prop :=
  ∀ (level : Nat) (frames : List Frame) (expected : Expected) (q : Partial) (rest : List Char),
    (expected = .value ∨ expected = .firstItem) → Partial.place v frames = some q → Breaks rest →
    Reads (print level v) (.within frames expected) q rest

theorem push_value {frames : List Frame} {expected : Expected}
    (h : expected = .value ∨ expected = .firstItem) {token : Token} (ht : token ≠ .closeArray) :
    Partial.push (.within frames expected) token = Partial.pushValue frames token := by
  rcases h with rfl | rfl
  · rfl
  · cases token <;> first | rfl | exact absurd rfl ht

theorem push_key {frames : List Frame} {expected : Expected}
    (h : expected = .key ∨ expected = .firstKey) (key : Option String) :
    Partial.push (.within frames expected) (.string key) =
      Partial.pushKey frames (.string key) := by
  rcases h with rfl | rfl <;> rfl

theorem breaks_printItems (level : Nat) (items : List Value) {rest : List Char} (h : Breaks rest) :
    Breaks (printItems level items ++ rest) := by
  cases items with
  | nil => exact h
  | cons v items => exact breaks_cons rfl _

theorem breaks_printMembers (level : Nat) (members : List (String × Value)) {rest : List Char}
    (h : Breaks rest) : Breaks (printMembers level members ++ rest) := by
  cases members with
  | nil => exact h
  | cons member members => exact breaks_cons rfl _

/-- The items after the first one go into the open array. -/
theorem reads_items {items : List Value} (h : ∀ v ∈ items, v.ReadsBack) (level : Nat)
    (done : List Value) (frames : List Frame) {rest : List Char} (hrest : Breaks rest) :
    Reads (printItems level items) (.within (.array done :: frames) .separator)
      (.within (.array (items.reverse ++ done) :: frames) .separator) rest := by
  induction items generalizing done with
  | nil => exact .nil _ rest
  | cons v items ih =>
    have hitem := h v List.mem_cons_self level (.array done :: frames) .value _
      (printItems level items ++ rest) (.inl rfl) rfl (breaks_printItems level items hrest)
    have hitems := ih (fun u hu => h u (List.mem_cons_of_mem v hu)) (v :: done)
    have hcomma := reads_line (p := .within (.array done :: frames) .separator)
      (q := .within (.array done :: frames) .value) (c := ',') (fun _ => .token rfl rfl rfl) level
    rw [List.reverse_cons, List.append_assoc]
    exact .append (.append (hcomma _) hitem) hitems

/-- A member goes into the open object. -/
theorem reads_member (key : String) {v : Value} (h : v.ReadsBack) (level : Nat)
    (done : List (String × Value)) (frames : List Frame) {expected : Expected}
    (hexpected : expected = .key ∨ expected = .firstKey) {rest : List Char} (hrest : Breaks rest) :
    Reads (quote key ++ [':', ' '] ++ print level v)
      (.within (.object done false none :: frames) expected)
      (.within (.object ((key, v) :: done) false none :: frames) .separator) rest := by
  have hkey : Reads (quote key) (.within (.object done false none :: frames) expected)
      (.within (.object done false (some key) :: frames) .colon)
      ([':', ' '] ++ (print level v ++ rest)) :=
    .token rfl (Token.next?_quote key _) (push_key hexpected (some key))
  have hcolon : Reads [':', ' '] (.within (.object done false (some key) :: frames) .colon)
      (.within (.object done false (some key) :: frames) .value) (print level v ++ rest) :=
    .append (a := [':']) (.token rfl rfl rfl) (.gap _ _ fun c hc => by
      rw [List.mem_singleton.1 hc]
      rfl)
  exact .append (.append hkey hcolon) (h level _ .value _ rest (.inl rfl) rfl hrest)

/-- The members after the first one go into the open object. -/
theorem reads_members {members : List (String × Value)} (h : ∀ m ∈ members, m.2.ReadsBack)
    (level : Nat) (done : List (String × Value)) (frames : List Frame) {rest : List Char}
    (hrest : Breaks rest) :
    Reads (printMembers level members) (.within (.object done false none :: frames) .separator)
      (.within (.object (members.reverse ++ done) false none :: frames) .separator) rest := by
  induction members generalizing done with
  | nil => exact .nil _ rest
  | cons member members ih =>
    obtain ⟨key, v⟩ := member
    have hmember := reads_member key (v := v) (h _ List.mem_cons_self) level done frames (.inl rfl)
      (breaks_printMembers level members hrest)
    have hmembers := ih (fun u hu => h u (List.mem_cons_of_mem _ hu)) ((key, v) :: done)
    have hcomma := reads_line (p := .within (.object done false none :: frames) .separator)
      (q := .within (.object done false none :: frames) .key) (c := ',')
      (fun _ => .token rfl rfl rfl) level
    have heq : printMembers level ((key, v) :: members) =
        ',' :: lineBreak level ++ (quote key ++ [':', ' '] ++ print level v) ++
          printMembers level members := by
      simp [printMembers]
    rw [List.reverse_cons, List.append_assoc, heq]
    exact .append (.append (hcomma _) hmember) hmembers

/-- Brackets around parts that are read one level further in. -/
theorem reads_bracket {level : Nat} {first others : List Char} {left right : Char}
    {p q r u v : Partial} {rest : List Char} (hopen : ∀ rest, Reads [left] p q rest)
    (hfirst : Reads first q r (others ++ (lineBreak level ++ ([right] ++ rest))))
    (hothers : Reads others r u (lineBreak level ++ ([right] ++ rest)))
    (hclose : Reads [right] u v rest) :
    Reads (left :: lineBreak (level + 1) ++ first ++ others ++ lineBreak level ++ [right]) p v
      rest := by
  have hstart := reads_line hopen (level + 1)
  have hend : Reads (lineBreak level) u u ([right] ++ rest) := .gap _ _ (isGap_lineBreak level)
  exact .append (.append (.append (.append (hstart _) hfirst) hothers) hend) hclose

theorem readsBack_number {spelling : String} (hnumeral : IsNumeral spelling.toList) :
    (number spelling).ReadsBack := by
  intro level frames expected q rest hexpected hq hrest
  have hnext := Token.next?_number hnumeral hrest
  rw [String.ofList_toList] at hnext
  show Reads spelling.toList _ q rest
  -- the first character of a number starts the token
  cases htext : spelling.toList with
  | nil =>
    rw [htext] at hnumeral
    exact absurd hnumeral.number (by decide)
  | cons c text =>
    rw [htext] at hnext hnumeral
    have hgap : isGap c = false := not_isGap (hnumeral.chars c List.mem_cons_self)
    exact .token hgap hnext ((push_value hexpected (by simp)).trans hq)

theorem readsBack_array {items : List Value} (ih : ∀ v ∈ items, v.ReadsBack) :
    (array items).ReadsBack := by
  intro level frames expected q rest hexpected hq hrest
  have hopen (rest : List Char) : Reads ['['] (.within frames expected)
      (.within (.array [] :: frames) .firstItem) rest :=
    .token rfl rfl (push_value hexpected (by decide))
  cases items with
  | nil => exact .append (a := ['[']) (hopen _) (.token rfl rfl hq)
  | cons v items =>
    have hbreaks : Breaks (lineBreak level ++ ([']'] ++ rest)) := breaks_cons rfl _
    have hfirst := ih v List.mem_cons_self (level + 1) (.array [] :: frames) .firstItem _ _
      (.inr rfl) rfl (breaks_printItems (level + 1) items hbreaks)
    have hitems := reads_items (fun u hu => ih u (List.mem_cons_of_mem v hu)) (level + 1) [v]
      frames hbreaks
    refine reads_bracket hopen hfirst hitems (.token rfl rfl ?_)
    show Partial.place (.array (items.reverse ++ [v]).reverse) frames = some q
    rwa [List.reverse_append, List.reverse_reverse]

theorem readsBack_object {members : List (String × Value)} (ih : ∀ m ∈ members, m.2.ReadsBack) :
    (object members).ReadsBack := by
  intro level frames expected q rest hexpected hq hrest
  have hopen (rest : List Char) : Reads ['\x7b'] (.within frames expected)
      (.within (.object [] false none :: frames) .firstKey) rest :=
    .token rfl rfl (push_value hexpected (by decide))
  cases members with
  | nil => exact .append (a := ['\x7b']) (hopen _) (.token rfl rfl hq)
  | cons member members =>
    obtain ⟨key, v⟩ := member
    have hbreaks : Breaks (lineBreak level ++ (['\x7d'] ++ rest)) := breaks_cons rfl _
    have hfirst := reads_member key (v := v) (ih _ List.mem_cons_self) (level + 1) [] frames
      (.inr rfl) (breaks_printMembers (level + 1) members hbreaks)
    have hmembers := reads_members (fun u hu => ih u (List.mem_cons_of_mem _ hu)) (level + 1)
      [(key, v)] frames hbreaks
    have heq : print level (.object ((key, v) :: members)) =
        '\x7b' :: lineBreak (level + 1) ++ (quote key ++ [':', ' '] ++ print (level + 1) v) ++
          printMembers (level + 1) members ++ lineBreak level ++ ['\x7d'] := by
      simp [print]
    rw [heq]
    refine reads_bracket hopen hfirst hmembers (.token rfl rfl ?_)
    show Partial.place (.object (members.reverse ++ [(key, v)]).reverse) frames = some q
    rwa [List.reverse_append, List.reverse_reverse]

theorem Legible.readsBack {v : Value} (h : v.Legible) : v.ReadsBack := by
  induction h with
  | null =>
    intro level frames expected q rest hexpected hq hrest
    exact .token rfl rfl ((push_value hexpected (by decide)).trans hq)
  | bool b =>
    intro level frames expected q rest hexpected hq hrest
    cases b with
    | false => exact .token rfl rfl ((push_value hexpected (by decide)).trans hq)
    | true => exact .token rfl rfl ((push_value hexpected (by decide)).trans hq)
  | number hnumeral => exact readsBack_number hnumeral
  | string text =>
    intro level frames expected q rest hexpected hq hrest
    exact .token rfl (Token.next?_quote text rest) ((push_value hexpected (by simp)).trans hq)
  | array _ ih => exact readsBack_array ih
  | object _ ih => exact readsBack_object ih

/-! ## Whole texts -/

theorem ofChars?_print {v : Value} (h : v.Legible) : ofChars? (v.print 0) = some v := by
  obtain ⟨k, hk, hread⟩ := h.readsBack 0 [] .value (.complete v) [] (.inl rfl) rfl
    fun c hc => by cases hc
  obtain ⟨fuel, hfuel⟩ : ∃ fuel, (v.print 0).length + 1 = fuel + 1 + k :=
    ⟨(v.print 0).length - k, by omega⟩
  have hall := hread (fuel + 1)
  rw [List.append_nil] at hall
  rw [ofChars?, hfuel, Partial.start, hall]
  rfl

/-- The indented form of a legible value is read as that value. -/
theorem ofText?_render {v : Value} (h : v.Legible) : ofText? v.render = some v := by
  rw [ofText?, render, String.toList_ofList, ofChars?_print h]

end Value

end Tiling.Json
