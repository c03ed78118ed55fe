import Tiling.Config.File
import Tiling.Daemon.Control
import Tiling.Proofs.Numeral
import Tiling.Proofs.Text.Utf8
/-!
# Settings read and written back

Writing back what was read changes nothing, and a change concerns its own key only.  The one
text that may be refused is that of the colour: a settings file can give any text for it, and a
text that is no colour stays until a colour takes its place.
-/

namespace Tiling

theorem SettingKey.ofWord?_eq_some_iff {text : String} {key : SettingKey} :
    ofWord? text = some key ↔ text = key.word := by
  constructor
  · intro h
    unfold ofWord? at h
    split at h
    case h_7 => cases h
    all_goals
      obtain rfl := Option.some.inj h
      rfl
  · rintro rfl
    exact ofWord?_word key

namespace Settings

variable {s s' : Settings} {key text : String}

/-- The settings after an attempt to change one. -/
def changed (s : Settings) (key text : String) : Settings :=
  match s.set key text with
  | .ok s' => s'
  | .error _ => s

/-- The settings after attempts to change some, each a key with a text. -/
def afterSets (s : Settings) (attempts : List (String × String)) : Settings :=
  attempts.foldl (fun s attempt => s.changed attempt.1 attempt.2) s

theorem changed_of_ok (h : s.set key text = .ok s') : s.changed key text = s' := by
  rw [changed, h]

theorem changed_of_error {e : SettingError} (h : s.set key text = .error e) :
    s.changed key text = s := by
  rw [changed, h]

theorem get_word (s : Settings) (key : SettingKey) : s.get key.word = .ok (s.value key) := by
  rw [get, SettingKey.ofWord?_word]

theorem set_word (s : Settings) (key : SettingKey) (text : String) : s.set key.word text =
    match s.assign? key text with
    | some s => .ok s
    | none => .error (.invalid key.word text) := by
  cases hassign : s.assign? key text <;> simp only [set, SettingKey.ofWord?_word, hassign]

theorem set_eq_ok_iff :
    s.set key text = .ok s' ↔ ∃ k : SettingKey, key = k.word ∧ s.assign? k text = some s' := by
  constructor
  · intro h
    unfold set at h
    split at h
    · rename_i k hk
      split at h
      · rename_i hassign
        obtain rfl := Except.ok.inj h
        exact ⟨k, SettingKey.ofWord?_eq_some_iff.1 hk, hassign⟩
      · cases h
    · cases h
  · rintro ⟨k, rfl, hassign⟩
    rw [set_word, hassign]

/-! ## Writing back -/

/-- The value of a setting gives the setting, unless it is a colour that is none. -/
theorem assign?_value (s : Settings) (key : SettingKey) : s.assign? key (s.value key) =
    if key = .feedbackColor ∧ color? s.feedbackColor = none then none else some s := by
  cases key with
  | statusPrefix => rfl
  | rulesCommand => rfl
  | rulesTimeout =>
    rw [assign?, value, Numeral.uint64?_toString]
    rfl
  | autoRaise =>
    obtain ⟨_, _, _, raise, _, _⟩ := s
    cases raise <;> rfl
  | tightness =>
    rw [assign?, value, Tightness.ofWord?_word]
    rfl
  | feedbackColor =>
    rw [assign?, value]
    cases color? s.feedbackColor with
    | none => rfl
    | some pixel => rfl

theorem set_value (s : Settings) (key : SettingKey) : s.set key.word (s.value key) =
    if key = .feedbackColor ∧ color? s.feedbackColor = none then
      .error (.invalid key.word (s.value key))
    else .ok s := by
  rw [set_word, assign?_value]
  by_cases hbad : key = .feedbackColor ∧ color? s.feedbackColor = none
  · rw [if_pos hbad, if_pos hbad]
  · rw [if_neg hbad, if_neg hbad]

/-! ## Changes -/

theorem value_of_assign? {k other : SettingKey} (h : s.assign? k text = some s') (hne : other ≠ k) :
    s'.value other = s.value other := by
  cases k <;> simp only [assign?, Option.map_eq_some_iff, Option.some.injEq] at h
  case statusPrefix | rulesCommand =>
    subst h
    cases other <;> first | rfl | exact absurd rfl hne
  all_goals
    obtain ⟨_, -, rfl⟩ := h
    cases other <;> first | rfl | exact absurd rfl hne

/-- A change gives the colour its text if it is a change of the colour to a colour. -/
theorem feedbackColor_changed (s : Settings) (key text : String) :
    (s.changed key text).feedbackColor =
      if key = SettingKey.feedbackColor.word ∧ color? text ≠ none then text
      else s.feedbackColor := by
  cases hset : s.set key text with
  | error e =>
    rw [changed_of_error hset, if_neg]
    rintro ⟨rfl, hcolor⟩
    obtain ⟨pixel, hpixel⟩ := Option.ne_none_iff_exists'.1 hcolor
    rw [set_word, assign?, hpixel] at hset
    cases hset
  | ok s' =>
    obtain ⟨k, rfl, hassign⟩ := set_eq_ok_iff.1 hset
    rw [changed_of_ok hset]
    by_cases hk : k = .feedbackColor
    · subst hk
      obtain ⟨pixel, hpixel, rfl⟩ := Option.map_eq_some_iff.1 hassign
      rw [hpixel]
      exact (if_pos ⟨rfl, nofun⟩).symm
    · rw [if_neg fun h => hk (Option.some.inj <|
        (SettingKey.ofWord?_word k).symm.trans (SettingKey.ofWord?_eq_some_iff.2 h.1))]
      exact value_of_assign? hassign (Ne.symm hk)

/-- What is no colour stays until a colour takes its place. -/
theorem color?_afterSets (s : Settings) (attempts : List (String × String)) :
    color? (s.afterSets attempts).feedbackColor = none ↔ color? s.feedbackColor = none ∧
      ∀ attempt ∈ attempts,
        attempt.1 = SettingKey.feedbackColor.word → color? attempt.2 = none := by
  induction attempts generalizing s with
  | nil => simp [afterSets]
  | cons attempt attempts ih =>
    rw [afterSets, List.foldl_cons, ← afterSets, ih, feedbackColor_changed, List.forall_mem_cons]
    by_cases hkey : attempt.1 = SettingKey.feedbackColor.word
    · by_cases hcolor : color? attempt.2 = none
      · simp [hkey, hcolor]
      · simp [hkey, hcolor]
    · simp [hkey]

/-- Without a settings file the colour is one. -/
theorem isSome_of_load {content : Option Bytes} {config : Config}
    (hload : Config.load content = .ok config)
    (hcolor : color? config.settings.feedbackColor = none) :
    content.isSome := by
  cases content with
  | none =>
    obtain rfl := Except.ok.inj hload
    exact absurd hcolor (by decide)
  | some bytes => rfl

theorem runConfig_of_error {d : Daemon} {e : SettingError}
    (h : d.settings.set key text = .error e) :
    d.runConfig key (some text) = (d, .error (.setting e)) := by
  rw [Daemon.runConfig]
  dsimp only
  rw [h]

/-- After any attempts to change the settings of a configuration that was loaded, every key can
be given the value that it has, which changes nothing.  Only the colour is refused, and that as
long as it is a text of the settings file that is no colour.  An attempt that is refused changes
nothing, and one that is not changes no other key. -/
theorem set_value_loaded {content : Option Bytes} {config : Config}
    (hload : Config.load content = .ok config) (attempts : List (String × String)) :
    let s := config.settings.afterSets attempts
    (∀ key : SettingKey, s.get key.word = .ok (s.value key) ∧ s.set key.word (s.value key) =
      if key = .feedbackColor ∧ color? s.feedbackColor = none then
        .error (.invalid key.word (s.value key))
      else .ok s) ∧
    (color? s.feedbackColor = none ↔
      content.isSome ∧ color? config.settings.feedbackColor = none ∧ ∀ attempt ∈ attempts,
        attempt.1 = SettingKey.feedbackColor.word → color? attempt.2 = none) ∧
    (∀ (key text : String) (e : SettingError), s.set key text = .error e →
      s.changed key text = s ∧
        ∀ d : Daemon, d.settings = s → d.runConfig key (some text) = (d, .error (.setting e))) ∧
    ∀ (key text : String) (s' : Settings), s.set key text = .ok s' →
      s.changed key text = s' ∧
        ∀ other : SettingKey, other.word ≠ key → s'.get other.word = s.get other.word := by
  intro s
  refine ⟨fun key => ⟨get_word s key, set_value s key⟩, ?_, fun key text e hset => ?_,
    fun key text s' hset => ⟨changed_of_ok hset, fun other hother => ?_⟩⟩
  · exact (color?_afterSets config.settings attempts).trans
      (iff_and_self.2 fun h => isSome_of_load hload h.1)
  · refine ⟨changed_of_error hset, fun d hd => runConfig_of_error ?_⟩
    rwa [hd]
  · obtain ⟨k, rfl, hassign⟩ := set_eq_ok_iff.1 hset
    rw [get_word, get_word, value_of_assign? hassign fun heq => hother (heq ▸ rfl)]

/-- A settings file that gives a word for the colour. -/
def wordForColor : Bytes := Text.encode "[settings]\npresel_feedback_color = \"blue\"\n"

theorem load_wordForColor : Config.load (some wordForColor) =
    .ok { Config.standard with settings := { standard with feedbackColor := "blue" } } := by
  have htext : Config.ofText? "[settings]\npresel_feedback_color = \"blue\"\n" =
      some { Config.standard with settings := { standard with feedbackColor := "blue" } } := by
    decide +kernel
  rw [Config.load, wordForColor, Text.decode?_encode]
  dsimp only
  rw [htext]

/-- A word for the colour stays, whatever else is changed, and is then refused. -/
theorem set_value_loaded_wordForColor :
    let s := { standard with statusPrefix := "", feedbackColor := "blue" }
    Config.load (some wordForColor) =
        .ok { Config.standard with settings := { standard with feedbackColor := "blue" } } ∧
      (∀ key : SettingKey, key ≠ .feedbackColor → s.set key.word (s.value key) = .ok s) ∧
      s.set "presel_feedback_color" "blue" = .error (.invalid "presel_feedback_color" "blue") := by
  intro s
  obtain ⟨hback, hcolor, -, -⟩ := set_value_loaded load_wordForColor
    [("status_prefix", ""), ("presel_feedback_color", "red"), ("auto_raise", "maybe")]
  refine ⟨load_wordForColor, fun key hkey => ?_, ?_⟩
  · exact (hback key).2.trans (if_neg fun h => hkey h.1)
  · exact (hback .feedbackColor).2.trans (if_pos ⟨rfl, by decide⟩)

/-- A setting cannot always be given the value that it has. -/
theorem not_set_value_loaded :
    ¬ ∀ (content : Option Bytes) (config : Config) (attempts : List (String × String))
      (key : SettingKey), Config.load content = .ok config →
      let s := config.settings.afterSets attempts
      s.set key.word (s.value key) = .ok s := by
  intro hall
  have hrefused := (set_value { standard with feedbackColor := "blue" } .feedbackColor).trans
    (if_pos ⟨rfl, by decide⟩)
  cases hrefused.symm.trans (hall _ _ [] .feedbackColor load_wordForColor)

end Settings

end Tiling
