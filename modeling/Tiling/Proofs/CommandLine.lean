import Tiling.CommandLine.Options
import Tiling.Proofs.Numeral
/-!
# Command lines in parts

A program that takes no words reads each argument by itself. A command line is then understood
if and only if its parts are, one after the other; two hyphens can only stand at its end, and an
option that waits for its value is given none by an argument that looks like an option.
-/

namespace Tiling.CommandLine

theorem bind_eq_ok_iff {ε α β : Type} {x : Except ε α} {f : α → Except ε β} {b : β} :
    x >>= f = .ok b ↔ ∃ a, x = .ok a ∧ f a = .ok b := by
  cases x with
  | error e => exact iff_of_false nofun nofun
  | ok a => exact ⟨fun h => ⟨a, rfl, h⟩, fun ⟨_, rfl, h⟩ => h⟩

theorem number_decimal (n : Int32) : number (Numeral.decimal n.toInt) = .ok n := by
  have hlow := n.le_toInt
  have hhigh := n.toInt_lt
  rw [number, Numeral.readInt_decimal (by omega) (by omega)]
  dsimp only
  rw [if_pos (by omega), n.ofInt_toInt]

namespace Reading

variable {r r' : Reading} {s : Switch} {value : String}

theorem value?_eq_none_iff : r.value? s = none ↔ s ∉ r.switches := by
  rw [value?, List.lookup_eq_none_iff, switches, List.mem_map]
  constructor
  · rintro h ⟨x, hx, rfl⟩
    exact bne_iff_ne.1 (h x hx) rfl
  · intro h x hx
    exact bne_iff_ne.2 fun heq => h ⟨x, hx, heq.symm⟩

/-- What is read with one more option. -/
def give (r : Reading) (s : Switch) (value : String) : Reading :=
  { r with given := r.given ++ [(s, value)] }

@[simp] theorem switches_give : (r.give s value).switches = r.switches ++ [s] := List.map_append

theorem value?_give (r : Reading) (s : Switch) (value : String) (s' : Switch) :
    (r.give s value).value? s' = (r.value? s').or (if s' = s then some value else none) := by
  rw [value?, give, List.lookup_append, ← value?, List.lookup_cons]
  by_cases hs : s' = s
  · rw [if_pos hs, beq_iff_eq.2 hs]
  · rw [if_neg hs, beq_eq_false_iff_ne.2 hs]
    rfl

theorem accept_eq_ok_iff :
    r.accept s value = .ok r' ↔ s ∉ r.switches ∧ valueError? s value = none ∧
      r' = r.give s value := by
  unfold accept
  by_cases hrepeated : s ∈ r.switches
  · rw [if_pos (List.contains_iff_mem.2 hrepeated)]
    exact iff_of_false nofun fun h => h.1 hrepeated
  · rw [if_neg fun h => hrepeated (List.contains_iff_mem.1 h)]
    cases valueError? s value with
    | some e => exact iff_of_false nofun fun h => nomatch h.2.1
    | none =>
      refine ⟨fun h => ⟨hrepeated, rfl, (Except.ok.inj h).symm⟩, ?_⟩
      rintro ⟨-, -, rfl⟩
      rfl

theorem settle_of_waiting (h : r.waiting = none) (s : Switch) (value : String) :
    ({ r with waiting := some (s, some value) } : Reading).settle = r.accept s value := by
  rw [settle]
  dsimp only
  rw [← h]

theorem settle_of_missing (h : r.waiting = some (s, none)) :
    r.settle = .error (.usage (.missingValue s)) := by
  rw [settle, h]

theorem option_of_missing (h : r.waiting = some (s, none)) (s' : Switch)
    (attached : Option String) : r.option s' attached = .error (.usage (.missingValue s)) := by
  rw [Reading.option, settle_of_missing h]
  rfl

theorem mark_of_missing (h : r.waiting = some (s, none)) (s' : Switch) :
    r.mark s' = .error (.usage (.missingValue s)) := by
  rw [mark, settle_of_missing h]
  rfl

/-- Nothing waits to be looked at once it has been. -/
theorem waiting_settle (h : r.settle = .ok r') : r'.waiting = none := by
  unfold settle at h
  split at h
  · rename_i hnone
    rw [← Except.ok.inj h, hnone]
  · cases h
  · obtain ⟨-, -, rfl⟩ := accept_eq_ok_iff.1 h
    rfl

/-! ## Values -/

/-- No words were read, and every value is one of its option. -/
structure Proper (r : Reading) : Prop where
  words : r.words = []
  values : ∀ x ∈ r.given, valueError? x.1 x.2 = none

namespace Proper

theorem empty : Reading.empty.Proper := ⟨rfl, nofun⟩

theorem waiting (h : r.Proper) (waiting : Option (Switch × Option String)) :
    ({ r with waiting } : Reading).Proper := ⟨h.words, h.values⟩

theorem accept (h : r.Proper) (hr : r.accept s value = .ok r') : r'.Proper := by
  obtain ⟨-, hvalue, rfl⟩ := accept_eq_ok_iff.1 hr
  refine ⟨h.words, fun x hx => ?_⟩
  rcases List.mem_append.1 hx with hold | hnew
  · exact h.values x hold
  · rw [List.mem_singleton.1 hnew]
    exact hvalue

theorem settle (h : r.Proper) (hr : r.settle = .ok r') : r'.Proper := by
  unfold Reading.settle at hr
  split at hr
  · exact Except.ok.inj hr ▸ h
  · cases hr
  · exact (h.waiting none).accept hr

theorem option {attached : Option String} (h : r.Proper) (hr : r.option s attached = .ok r') :
    r'.Proper := by
  obtain ⟨x, hx, hr⟩ := bind_eq_ok_iff.1 hr
  cases attached with
  | some value => exact (h.settle hx).accept hr
  | none => exact Except.ok.inj hr ▸ (h.settle hx).waiting _

theorem mark (h : r.Proper) (hr : r.mark s = .ok r') : r'.Proper := by
  obtain ⟨x, hx, hr⟩ := bind_eq_ok_iff.1 hr
  split at hr
  · cases hr
  · cases hr
  · exact (h.settle hx).accept hr

theorem fill? (h : r.Proper) (hr : r.fill? value = some r') : r'.Proper := by
  unfold Reading.fill? at hr
  split at hr
  · exact Option.some.inj hr ▸ h.waiting _
  · cases hr

end Proper

end Reading

namespace Program

variable {p : Program} {r r' k q : Reading} {s : Switch} {a : String} {before rest : List String}

/-! ## Forms -/

theorem form_eq_divider_iff : Form.of a = .divider ↔ a = "--" := by
  constructor
  · intro h
    unfold Form.of at h
    split at h
    · exact String.toList_injective ‹_›
    all_goals cases h
  · rintro rfl
    rfl

theorem ne_nil_of_letters {cs : List Char} (h : Form.of a = .letters cs) : cs ≠ [] := by
  rintro rfl
  unfold Form.of at h
  split at h <;> simp_all

theorem form_eq_plain {c : Char} {cs : List Char} (h : a.toList = c :: cs) (hc : c ≠ '-') :
    Form.of a = .plain := by
  rw [Form.of, h]
  split <;> simp_all

/-- A number is taken for an option if it has a sign. -/
theorem form_decimal_iff (n : Int) : Form.of (Numeral.decimal n) = .plain ↔ 0 ≤ n := by
  obtain ⟨c, rest, hdigits, -⟩ := Numeral.exists_toDigits n.natAbs
  have hc : c ≠ '-' :=
    Numeral.ne_of_isDigit (Numeral.isDigit_of_mem (hdigits ▸ List.mem_cons_self)) rfl
  by_cases hneg : n < 0
  · refine iff_of_false ?_ (by omega)
    rw [Form.of, Numeral.toList_decimal_of_neg hneg, hdigits]
    split <;> simp_all
  · have htext := (Numeral.toList_decimal_of_nonneg hneg).trans hdigits
    exact iff_of_true (form_eq_plain htext hc) (by omega)

/-! ## One argument -/

/-- Reads an argument, unless it is two hyphens, for a program that takes no words. -/
def step (p : Program) (r : Reading) (argument : String) : Except Stop Reading :=
  match Form.of argument with
  | .divider => .error (.usage (.unexpected argument))
  | .named cs =>
    match p.ofName? (splitName cs).1 with
    | some s => readNamed r s (splitName cs).2
    | none => .error (.usage (p.unknownName r (splitName cs).1))
  | .letters cs => p.readLetters r cs
  | .plain =>
    match r.fill? argument with
    | some r => .ok r
    | none => .error (.usage (.unexpected argument))

theorem read_cons (hp : p.words = none) (ha : a ≠ "--") :
    p.read r (a :: rest) = p.step r a >>= fun r => p.read r rest := by
  rw [read, step]
  cases hform : Form.of a with
  | divider => exact absurd (form_eq_divider_iff.1 hform) ha
  | named cs =>
    dsimp only
    cases p.ofName? (splitName cs).1 with
    | none => rw [hp]; rfl
    | some s => dsimp only; cases readNamed r s (splitName cs).2 <;> rfl
  | letters cs =>
    dsimp only
    rw [hp]
    cases hread : p.readLetters r cs <;> simp <;> rfl
  | plain =>
    dsimp only
    cases r.fill? a with
    | none => rw [readWords, hp]; rfl
    | some r => rfl

theorem readLetters_of_missing {cs : List Char} (h : r.waiting = some (s, none)) (hcs : cs ≠ []) :
    p.readLetters r cs ≠ .ok q := by
  cases cs with
  | nil => exact absurd rfl hcs
  | cons c cs =>
    rw [readLetters]
    split
    · exact nofun
    · split
      · rw [Reading.option_of_missing h]
        exact nofun
      · rw [Reading.mark_of_missing h]
        exact nofun

theorem readNamed_of_missing (h : r.waiting = some (s, none)) (s' : Switch)
    (value : Option String) : readNamed r s' value ≠ .ok q := by
  unfold readNamed
  split
  · rw [Reading.option_of_missing h]
    exact nofun
  · exact nofun
  · rw [Reading.mark_of_missing h]
    exact nofun

/-- An option that waits for its value takes the next argument, if that is a plain one. -/
theorem step_missing_iff (h : r.waiting = some (s, none)) :
    p.step r a = .ok r' ↔ Form.of a = .plain ∧ r' = { r with waiting := some (s, some a) } := by
  rw [step]
  cases hform : Form.of a with
  | divider => exact iff_of_false nofun fun h => nomatch h.1
  | named cs =>
    refine iff_of_false ?_ fun h => nomatch h.1
    dsimp only
    split
    · exact readNamed_of_missing h _ _
    · exact nofun
  | letters cs =>
    exact iff_of_false (readLetters_of_missing h (ne_nil_of_letters hform)) fun h => nomatch h.1
  | plain => simp [Reading.fill?, h, eq_comm]

/-- An option that is a letter looks at what waits, and waits itself. -/
theorem step_letter {c : Char} {placeholder : String} (hform : Form.of a = .letters [c])
    (hs : p.ofLetter? c = some s) (hvalue : s.placeholder? = some placeholder) :
    p.step r a = r.settle >>= fun r => .ok { r with waiting := some (s, none) } := by
  rw [step, hform]
  dsimp only
  rw [readLetters, hs]
  dsimp only
  rw [hvalue]
  rfl

theorem read_missing_iff (hp : p.words = none) (h : r.waiting = some (s, none)) :
    p.read r (a :: rest) = .ok q ↔
      Form.of a = .plain ∧ p.read { r with waiting := some (s, some a) } rest = .ok q := by
  by_cases ha : a = "--"
  · subst ha
    refine iff_of_false ?_ fun h => nomatch h.1
    rw [read, form_eq_divider_iff.2 rfl]
    dsimp only
    cases rest with
    | nil =>
      rw [readWords, finish, Reading.settle_of_missing h]
      exact nofun
    | cons b rest =>
      rw [readWords, hp]
      exact nofun
  · rw [read_cons hp ha, bind_eq_ok_iff]
    constructor
    · rintro ⟨r', hr', hq⟩
      obtain ⟨hplain, rfl⟩ := (step_missing_iff h).1 hr'
      exact ⟨hplain, hq⟩
    · rintro ⟨hplain, hq⟩
      exact ⟨_, (step_missing_iff h).2 ⟨hplain, rfl⟩, hq⟩

/-! ## Many arguments -/

theorem read_append (hp : p.words = none) (h : "--" ∉ before) :
    p.read r (before ++ rest) = before.foldlM p.step r >>= fun r => p.read r rest := by
  induction before generalizing r with
  | nil => rfl
  | cons a before ih =>
    obtain ⟨ha, hbefore⟩ := not_or.1 (mt List.mem_cons.2 h)
    rw [List.cons_append, read_cons hp (Ne.symm ha), List.foldlM_cons, bind_assoc]
    exact congrArg _ (funext fun r => ih hbefore)

/-- Nothing follows two hyphens. -/
theorem read_ne_ok_of_divider (hp : p.words = none) (h : "--" ∈ before) (hrest : rest ≠ []) :
    p.read r (before ++ rest) ≠ .ok q := by
  induction before generalizing r with
  | nil => cases h
  | cons a before ih =>
    by_cases ha : a = "--"
    · have hmore := List.append_ne_nil_of_right_ne_nil before hrest
      obtain ⟨b, l, hl⟩ := List.exists_cons_of_ne_nil hmore
      rw [List.cons_append, hl, read, form_eq_divider_iff.2 ha]
      dsimp only
      rw [readWords, hp]
      exact nofun
    · rw [List.cons_append, read_cons hp ha, Ne, bind_eq_ok_iff]
      rintro ⟨r', -, hq⟩
      exact ih ((List.mem_cons.1 h).resolve_left (Ne.symm ha)) hq

/-! ## Readings of parts -/

theorem proper_readLetters {cs : List Char} (h : r.Proper) (hr : p.readLetters r cs = .ok r') :
    r'.Proper := by
  induction cs generalizing r with
  | nil => exact Except.ok.inj hr ▸ h
  | cons c cs ih =>
    rw [readLetters] at hr
    split at hr
    · cases hr
    · split at hr
      · exact h.option hr
      · split at hr
        · rename_i hmark
          exact ih (h.mark hmark) hr
        · cases hr

theorem proper_readNamed {value : Option String} (h : r.Proper)
    (hr : readNamed r s value = .ok r') : r'.Proper := by
  unfold readNamed at hr
  split at hr
  · exact h.option hr
  · cases hr
  · exact h.mark hr

theorem proper_step (h : r.Proper) (hr : p.step r a = .ok r') : r'.Proper := by
  unfold step at hr
  split at hr
  · cases hr
  · split at hr
    · exact proper_readNamed h hr
    · cases hr
  · exact proper_readLetters h hr
  · split at hr
    · rename_i hfill
      exact Except.ok.inj hr ▸ h.fill? hfill
    · cases hr

theorem proper_foldlM {l : List String} (h : r.Proper) (hr : l.foldlM p.step r = .ok r') :
    r'.Proper := by
  induction l generalizing r with
  | nil => exact Except.ok.inj hr ▸ h
  | cons a l ih =>
    obtain ⟨x, hx, hr⟩ := bind_eq_ok_iff.1 hr
    exact ih (proper_step h hx) hr

theorem read_nil (h : r.Proper) : p.read r [] = r.settle := by
  rw [read, finish]
  cases hr : r.settle with
  | error stop => rfl
  | ok x =>
    have hx := (h.settle hr).words
    exact congrArg Except.ok (by rw [← hx])

/-- What is read to the end, without two hyphens, is all looked at. -/
theorem read_spec (hp : p.words = none) (hr : r.Proper) (h : "--" ∉ before)
    (hk : p.read r before = .ok k) : k.Proper ∧ k.waiting = none := by
  rw [← List.append_nil before, read_append hp h] at hk
  obtain ⟨x, hx, hk⟩ := bind_eq_ok_iff.1 hk
  have hproper := proper_foldlM hr hx
  rw [read_nil hproper] at hk
  exact ⟨hproper.settle hk, Reading.waiting_settle hk⟩

/-- An option that is a letter, and what follows it, are read from what comes before. -/
theorem read_append_letter_iff {c : Char} {placeholder : String} (hp : p.words = none)
    (hform : Form.of a = .letters [c]) (hs : p.ofLetter? c = some s)
    (hvalue : s.placeholder? = some placeholder) (hr : r.Proper) :
    p.read r (before ++ a :: rest) = .ok q ↔ "--" ∉ before ∧ ∃ k, p.read r before = .ok k ∧
      p.read { k with waiting := some (s, none) } rest = .ok q := by
  have ha : a ≠ "--" := by
    rintro rfl
    cases hform
  by_cases h : "--" ∈ before
  · exact iff_of_false (read_ne_ok_of_divider hp h (List.cons_ne_nil _ _)) fun h' => h'.1 h
  have hbefore : p.read r before = before.foldlM p.step r >>= fun r => p.read r [] := by
    rw [← read_append hp h, List.append_nil]
  rw [read_append hp h, hbefore, and_iff_right h, bind_eq_ok_iff]
  constructor
  · rintro ⟨x, hx, hq⟩
    rw [read_cons hp ha, step_letter hform hs hvalue] at hq
    obtain ⟨y, hy, hq⟩ := bind_eq_ok_iff.1 hq
    obtain ⟨k, hk, hy⟩ := bind_eq_ok_iff.1 hy
    refine ⟨k, bind_eq_ok_iff.2 ⟨x, hx, ?_⟩, ?_⟩
    · rw [read_nil (proper_foldlM hr hx), hk]
    · rw [Except.ok.inj hy]
      exact hq
  · rintro ⟨k, hk, hq⟩
    obtain ⟨x, hx, hk⟩ := bind_eq_ok_iff.1 hk
    rw [read_nil (proper_foldlM hr hx)] at hk
    refine ⟨x, hx, ?_⟩
    rw [read_cons hp ha, step_letter hform hs hvalue, hk]
    exact hq

/-- An option with its value is read after what comes before, which has not named it. -/
theorem read_append_option_iff {c : Char} {placeholder value : String} (hp : p.words = none)
    (hform : Form.of a = .letters [c]) (hs : p.ofLetter? c = some s)
    (hvalue : s.placeholder? = some placeholder) (hr : r.Proper) :
    p.read r (before ++ [a, value]) = .ok q ↔ "--" ∉ before ∧ Form.of value = .plain ∧
      ∃ k, p.read r before = .ok k ∧ s ∉ k.switches ∧ Reading.valueError? s value = none ∧
        q = k.give s value := by
  rw [read_append_letter_iff hp hform hs hvalue hr]
  refine and_congr_right fun h => ?_
  have hlast {k : Reading} (hk : p.read r before = .ok k) :
      p.read { k with waiting := some (s, none) } [value] = .ok q ↔
        Form.of value = .plain ∧ s ∉ k.switches ∧ Reading.valueError? s value = none ∧
          q = k.give s value := by
    obtain ⟨hproper, hwaiting⟩ := read_spec hp hr h hk
    rw [read_missing_iff hp rfl, read_nil (hproper.waiting _),
      Reading.settle_of_waiting hwaiting, Reading.accept_eq_ok_iff]
  constructor
  · rintro ⟨k, hk, hq⟩
    obtain ⟨hplain, hnew⟩ := (hlast hk).1 hq
    exact ⟨hplain, k, hk, hnew⟩
  · rintro ⟨hplain, k, hk, hnew⟩
    exact ⟨k, hk, (hlast hk).2 ⟨hplain, hnew⟩⟩

end Program

end Tiling.CommandLine
