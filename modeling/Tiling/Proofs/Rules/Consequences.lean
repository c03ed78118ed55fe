import Mathlib.Data.List.TakeDrop
import Tiling.Proofs.Text.Blank
import Tiling.Rules
/-!
# What a text says about a window

Of a text only the last value counts that it gives to each key.  These values are an update, and
updates follow one another like texts do.  The written form of consequences that come from texts
has one token for each value, since no name of a desktop is empty or has white space in it.
-/

namespace Tiling.Consequences

variable {csq : Consequences} {key value : String}

/-- The values that are given, key by key. -/
structure Update where
  state : Option ClientState
  layer : Option Layer
  desktop : Option String
  flag : Flag → Option Bool
  focus : Option Bool
  manage : Option Bool

namespace Update

def nothing : Update := ⟨none, none, none, fun _ => none, none, none⟩

/-- Values take the place of those that there are. -/
def on (u : Update) (csq : Consequences) : Consequences where
  state := u.state.or csq.state
  layer := u.layer.or csq.layer
  desktop := u.desktop.or csq.desktop
  flags :=
    { sticky := (u.flag .sticky).getD csq.flags.sticky
      exclusive := (u.flag .exclusive).getD csq.flags.exclusive
      locked := (u.flag .locked).getD csq.flags.locked
      marked := (u.flag .marked).getD csq.flags.marked }
  focus := u.focus.getD csq.focus
  manage := u.manage.getD csq.manage

/-- The values of one update and then another, of which the later ones count. -/
def andThen (u v : Update) : Update where
  state := v.state.or u.state
  layer := v.layer.or u.layer
  desktop := v.desktop.or u.desktop
  flag f := (v.flag f).or (u.flag f)
  focus := v.focus.or u.focus
  manage := v.manage.or u.manage

theorem on_andThen (u v : Update) (csq : Consequences) :
    (u.andThen v).on csq = v.on (u.on csq) := by
  simp only [on, andThen, Option.or_assoc, Option.getD_or]

theorem andThen_self (u : Update) : u.andThen u = u := by
  simp only [andThen, Option.or_self]

theorem on_on (u : Update) (csq : Consequences) : u.on (u.on csq) = u.on csq := by
  rw [← on_andThen, andThen_self]

/-- The value of an assignment; none if its key or value has no meaning. -/
def ofAssignment (key value : String) : Update :=
  match key with
  | "state" => { nothing with state := ClientState.ofWord? value }
  | "layer" => { nothing with layer := Layer.ofWord? value }
  | "desktop" => { nothing with desktop := if value.isEmpty then none else some value }
  | "focus" => { nothing with focus := switch? value }
  | "manage" => { nothing with manage := switch? value }
  | _ => { nothing with flag := fun f => if Flag.ofWord? key = some f then switch? value else none }

def ofToken (token : String) : Update :=
  match assignment? token with
  | none => nothing
  | some (key, value) => ofAssignment key value

/-- The last value that a text gives to each key. -/
def ofText (text : String) : Update :=
  (Text.fields text).foldl (fun u token => u.andThen (ofToken token)) nothing

end Update

open Update

/-! ## Texts as updates -/

theorem assign_eq (csq : Consequences) (key value : String) :
    csq.assign key value = (ofAssignment key value).on csq := by
  unfold assign
  split
  · rfl
  · rfl
  · by_cases hempty : value.isEmpty <;> simp [on, nothing, ofAssignment, hempty]
  · rfl
  · rfl
  · simp only [ofAssignment]
    cases hflag : Flag.ofWord? key with
    | none => rfl
    | some flag =>
      cases switch? value with
      | none => simp [on, nothing]
      | some b => cases flag <;> simp [on, nothing, Flags.set]

theorem applyToken_eq (csq : Consequences) (token : String) :
    csq.applyToken token = (ofToken token).on csq := by
  rw [applyToken, ofToken]
  cases assignment? token with
  | none => rfl
  | some a => exact assign_eq csq a.1 a.2

theorem foldl_applyToken (u : Update) (csq : Consequences) (tokens : List String) :
    tokens.foldl applyToken (u.on csq) =
      (tokens.foldl (fun u token => u.andThen (ofToken token)) u).on csq := by
  induction tokens generalizing u with
  | nil => rfl
  | cons token tokens ih => rw [List.foldl_cons, List.foldl_cons, applyToken_eq, ← on_andThen, ih]

theorem apply_eq (csq : Consequences) (text : String) : csq.apply text = (ofText text).on csq :=
  foldl_applyToken nothing csq (Text.fields text)

theorem apply_apply (csq : Consequences) (text : String) :
    (csq.apply text).apply text = csq.apply text := by
  rw [apply_eq, apply_eq, on_on]

theorem apply_append {blanks : String} (hne : blanks ≠ "")
    (hblanks : ∀ c ∈ blanks.toList, Text.isBlank c = true) (csq : Consequences)
    (first second : String) :
    csq.apply (first ++ blanks ++ second) = (csq.apply first).apply second := by
  rw [apply, Text.fields_append hne hblanks, List.foldl_append, ← apply, ← apply]

/-! ## Names of desktops -/

/-- The desktop that is named, if one is, has a name that can stand in a token. -/
def Sayable (csq : Consequences) : Prop := ∀ name ∈ csq.desktop, Text.Solid name

theorem sayable_standard : standard.Sayable := nofun

theorem toList_of_assignment? {token : String} (h : assignment? token = some (key, value)) :
    token.toList = key.toList ++ '=' :: value.toList := by
  have hspan := List.takeWhile_append_dropWhile (p := (· != '=')) (l := token.toList)
  rw [assignment?, List.span_eq_takeWhile_dropWhile] at h
  cases hrest : token.toList.dropWhile (· != '=') with
  | nil =>
    rw [hrest] at h
    cases h
  | cons c rest =>
    obtain rfl : c = '=' := by
      have hhead := List.head?_dropWhile_not (· != '=') token.toList
      rw [hrest] at hhead
      simpa using hhead
    rw [hrest] at h hspan
    obtain ⟨rfl, rfl⟩ := Prod.mk.inj (Option.some.inj h)
    rw [String.toList_ofList, String.toList_ofList]
    exact hspan.symm

theorem Sayable.assign (h : csq.Sayable) (hvalue : ∀ c ∈ value.toList, Text.isBlank c = false)
    (key : String) : (csq.assign key value).Sayable := by
  unfold Consequences.assign
  split
  · exact h
  · exact h
  · intro name hname
    dsimp only at hname
    split at hname
    · exact h name hname
    · rename_i hempty
      obtain rfl := Option.some.inj hname
      exact ⟨fun heq => hempty (by rw [heq]; rfl), hvalue⟩
  · exact h
  · exact h
  · split <;> exact h

theorem Sayable.applyToken (h : csq.Sayable) {token : String} (htoken : Text.Solid token) :
    (csq.applyToken token).Sayable := by
  rw [Consequences.applyToken]
  cases ha : assignment? token with
  | none => exact h
  | some a =>
    obtain ⟨key, value⟩ := a
    refine h.assign (fun c hc => htoken.dense c ?_) key
    rw [toList_of_assignment? ha]
    exact List.mem_append_right _ (List.mem_cons_of_mem _ hc)

theorem Sayable.apply (h : csq.Sayable) (text : String) : (csq.apply text).Sayable := by
  have htokens : ∀ token ∈ Text.fields text, Text.Solid token := fun _ => Text.solid_of_mem_fields
  rw [Consequences.apply]
  generalize Text.fields text = tokens at htokens
  induction tokens generalizing csq with
  | nil => exact h
  | cons token tokens ih =>
    rw [List.forall_mem_cons] at htokens
    exact ih (h.applyToken htokens.1) htokens.2

theorem Sayable.foldl (h : csq.Sayable) (texts : List String) :
    (texts.foldl Consequences.apply csq).Sayable := by
  induction texts generalizing csq with
  | nil => exact h
  | cons text texts ih => exact ih (h.apply text)

/-! ## The written form -/

def token (a : String × String) : String := a.1 ++ "=" ++ a.2

theorem toList_token (a : String × String) :
    (token a).toList = a.1.toList ++ '=' :: a.2.toList := by
  rw [token, String.toList_append, String.toList_append, List.append_assoc]
  rfl

theorem assignment?_token {a : String × String} (h : '=' ∉ a.1.toList) :
    assignment? (token a) = some a := by
  have hkey : ∀ c ∈ a.1.toList, (c != '=') = true := fun c hc =>
    bne_iff_ne.2 fun heq => h (heq ▸ hc)
  rw [assignment?, List.span_eq_takeWhile_dropWhile, toList_token,
    List.takeWhile_append_of_pos hkey, List.dropWhile_append_of_pos hkey]
  simp [String.ofList_toList]

theorem solid_token {a : String × String} (hkey : Text.Solid a.1)
    (hvalue : ∀ c ∈ a.2.toList, Text.isBlank c = false) : Text.Solid (token a) := by
  constructor
  · intro hempty
    have htext := toList_token a
    rw [hempty] at htext
    simp at htext
  · intro c hc
    rw [toList_token, List.mem_append, List.mem_cons] at hc
    rcases hc with hc | rfl | hc
    · exact hkey.dense c hc
    · decide
    · exact hvalue c hc

/-- The flags all have their tokens. -/
theorem tokens_eq (csq : Consequences) : csq.tokens =
    (csq.state.map fun s => ("state", s.word)).toList ++
      (csq.layer.map fun l => ("layer", l.word)).toList ++
      (csq.desktop.map fun name => ("desktop", name)).toList ++
      [Flag.sticky, .exclusive, .locked, .marked].map
        (fun f => (f.word, onOff (csq.flags.get f))) ++
      [("focus", onOff csq.focus), ("manage", onOff csq.manage)] := by
  rw [tokens, List.append_assoc _ (List.map _ _)]
  rfl

/-- The key of a written token has no equals sign, and neither key nor value has white space. -/
theorem wellFormed_of_mem_tokens (h : csq.Sayable) {a : String × String} (ha : a ∈ csq.tokens) :
    ('=' ∉ a.1.toList ∧ Text.Solid a.1) ∧ Text.Solid a.2 := by
  have hkeys : ∀ key ∈ ["state", "layer", "desktop", "focus", "manage"],
      '=' ∉ key.toList ∧ Text.Solid key := by decide
  have hflags (f : Flag) : '=' ∉ f.word.toList ∧ Text.Solid f.word := by
    cases f <;> decide
  have hstates (s : ClientState) : Text.Solid s.word := by
    cases s <;> decide
  have hlayers (l : Layer) : Text.Solid l.word := by
    cases l <;> decide
  have hswitch (b : Bool) : Text.Solid (onOff b) := by
    cases b <;> decide
  simp only [tokens_eq, List.mem_append, Option.mem_toList, Option.map_eq_some_iff, List.mem_map,
    List.mem_pair] at ha
  rcases ha with (((⟨s, -, rfl⟩ | ⟨l, -, rfl⟩) | ⟨name, hname, rfl⟩) | ⟨f, -, rfl⟩) | rfl | rfl
  · exact ⟨hkeys _ (by simp), hstates s⟩
  · exact ⟨hkeys _ (by simp), hlayers l⟩
  · exact ⟨hkeys _ (by simp), h name hname⟩
  · exact ⟨hflags f, hswitch _⟩
  · exact ⟨hkeys _ (by simp), hswitch _⟩
  · exact ⟨hkeys _ (by simp), hswitch _⟩

theorem fields_render (h : csq.Sayable) : Text.fields csq.render = csq.tokens.map token := by
  apply Text.fields_intercalate
  intro text htext
  obtain ⟨a, ha, rfl⟩ := List.mem_map.1 htext
  obtain ⟨⟨-, hkey⟩, hvalue⟩ := wellFormed_of_mem_tokens h ha
  exact solid_token hkey hvalue.dense

/-- Carried out on the standard consequences, the assignments give all values. -/
theorem foldl_assign_tokens (h : csq.Sayable) :
    csq.tokens.foldl (fun csq a => csq.assign a.1 a.2) standard = csq := by
  have hstate (csq : Consequences) (s : ClientState) :
      csq.assign "state" s.word = { csq with state := some s } := by
    cases s <;> rfl
  have hlayer (csq : Consequences) (l : Layer) :
      csq.assign "layer" l.word = { csq with layer := some l } := by
    cases l <;> rfl
  have hdesktop (csq : Consequences) (name : String) (hname : name ≠ "") :
      csq.assign "desktop" name = { csq with desktop := some name } := by
    simp [assign, hname]
  have hflag (csq : Consequences) (f : Flag) (b : Bool) :
      csq.assign f.word (onOff b) = { csq with flags := csq.flags.set f b } := by
    cases f <;> cases b <;> rfl
  have hfocus (csq : Consequences) (b : Bool) :
      csq.assign "focus" (onOff b) = { csq with focus := b } := by
    cases b <;> rfl
  have hmanage (csq : Consequences) (b : Bool) :
      csq.assign "manage" (onOff b) = { csq with manage := b } := by
    cases b <;> rfl
  obtain ⟨state, layer, desktop, flags, focus, manage⟩ := csq
  rw [tokens_eq]
  cases desktop with
  | none =>
    cases state <;> cases layer <;>
      simp [hstate, hlayer, hflag, hfocus, hmanage, standard, Flags.get, Flags.set]
  | some name =>
    have hname := (h name rfl).nonempty
    cases state <;> cases layer <;>
      simp [hstate, hlayer, hdesktop, hname, hflag, hfocus, hmanage, standard, Flags.get, Flags.set]

/-- The written form reads back as itself. -/
theorem apply_render (h : csq.Sayable) : standard.apply csq.render = csq := by
  rw [apply, fields_render h, List.foldl_map]
  refine (List.foldl_ext _ _ _ fun csq' a ha => ?_).trans (foldl_assign_tokens h)
  rw [applyToken, assignment?_token (wellFormed_of_mem_tokens h ha).1.1]

/-- Whatever texts the consequences come from, their written form gives them back; texts with
white space between them have the effect of one after the other; and a text that is carried out
twice has the effect that it has once. -/
theorem apply_laws :
    (∀ texts : List String, standard.apply (texts.foldl apply standard).render =
      texts.foldl apply standard) ∧
    (∀ (csq : Consequences) (first blanks second : String), blanks ≠ "" →
      (∀ c ∈ blanks.toList, Text.isBlank c = true) →
      csq.apply (first ++ blanks ++ second) = (csq.apply first).apply second) ∧
    ∀ (csq : Consequences) (text : String), (csq.apply text).apply text = csq.apply text :=
  ⟨fun texts => apply_render (sayable_standard.foldl texts),
    fun csq first _ second hne hblanks => apply_append hne hblanks csq first second, apply_apply⟩

/-- A name with an equals sign is kept, and tokens without meaning change nothing. -/
theorem apply_laws_ideographicSpace :
    " \u3000" ≠ "" ∧ (∀ c ∈ " \u3000".toList, Text.isBlank c = true) ∧
      standard.apply ("desktop=a=b state=tall" ++ " \u3000" ++ "desktop= private=true") =
        ⟨none, none, some "a=b", Flags.none.set .exclusive true, true, true⟩ := by
  have hblanks : ∀ c ∈ " \u3000".toList, Text.isBlank c = true := List.all_eq_true.1 rfl
  refine ⟨by decide, hblanks, ?_⟩
  rw [apply_laws.2.1 _ _ _ _ (by decide) hblanks]
  decide

end Tiling.Consequences
