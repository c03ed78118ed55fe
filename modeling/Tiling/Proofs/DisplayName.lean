import Mathlib.Data.List.TakeDrop
import Tiling.DisplayName
import Tiling.Proofs.FilePath
import Tiling.Proofs.Numeral
/-!
# Names and files of displays

A host may contain whatever separates it from the numbers, but digits do not.  So the numbers
are found from the end: the text before the last separator is all of the host.  Displays are
told apart by their paths, but for slashes that a path leaves out, and are read back from their
names.
-/

namespace Tiling

/-! ## The last separator -/

/-- What stands before the first separator is found again. -/
theorem span_append {sep : Char} {first : List Char} (h : sep ∉ first) (rest : List Char) :
    (first ++ sep :: rest).span (· != sep) = (first, sep :: rest) := by
  have hfirst : ∀ c ∈ first, (c != sep) = true := by
    intro c hc
    rw [bne_iff_ne]
    rintro rfl
    exact h hc
  rw [List.span_eq_takeWhile_dropWhile, List.takeWhile_append_of_pos hfirst,
    List.dropWhile_append_of_pos hfirst]
  simp

/-- A text has one last separator. -/
theorem append_cons_inj_of_last {sep : Char} {first last first' last' : List Char}
    (hlast : sep ∉ last) (hlast' : sep ∉ last')
    (h : first ++ sep :: last = first' ++ sep :: last') : first = first' ∧ last = last' := by
  have hreverse :
      last.reverse ++ sep :: first.reverse = last'.reverse ++ sep :: first'.reverse := by
    simpa using congrArg List.reverse h
  have hspan := congrArg (List.span (· != sep)) hreverse
  rw [span_append (by simpa using hlast), span_append (by simpa using hlast'), Prod.mk.injEq,
    List.cons.injEq] at hspan
  exact ⟨List.reverse_inj.1 hspan.2.2, List.reverse_inj.1 hspan.1⟩

/-- A beginning without the separator is one of the text before the separator. -/
theorem prefix_append_cons_iff {sep : Char} {start first : List Char} (h : sep ∉ start)
    (rest : List Char) : start <+: first ++ sep :: rest ↔ start <+: first := by
  constructor
  · intro hstart
    rcases List.prefix_or_prefix_of_prefix hstart (List.prefix_append first _) with hle | hle
    · exact hle
    · -- the text before the separator is a beginning itself, and cannot be a proper one
      obtain ⟨more, rfl⟩ := hle
      rw [List.prefix_append_right_inj] at hstart
      cases more with
      | nil => simp
      | cons c more =>
        obtain ⟨rfl, -⟩ := List.cons_prefix_cons.1 hstart
        exact absurd (by simp) h
  · intro hstart
    exact hstart.trans (List.prefix_append first _)

/-! ## Numbers -/

theorem not_mem_toString {sep : Char} (h : sep.isDigit = false) (n : Nat) :
    sep ∉ (toString n).toList := by
  rw [Numeral.toList_toString]
  intro hmem
  exact Numeral.ne_of_isDigit (Numeral.isDigit_of_mem hmem) h rfl

namespace DisplayName

theorem toString_inj {n m : UInt32}
    (h : (toString n.toNat).toList = (toString m.toNat).toList) : n = m := by
  have hread := congrArg Numeral.uint32? (String.toList_inj.1 h)
  rw [Numeral.uint32?_toString, Numeral.uint32?_toString] at hread
  exact Option.some.inj hread

/-! ## Files -/

/-- The numbers in a path, with what stands before each. -/
def suffix (d : DisplayName) : List Char :=
  '_' :: (toString d.display.toNat).toList ++ '_' :: (toString d.screen.toNat).toList

theorem slash_not_mem_suffix (d : DisplayName) : '/' ∉ d.suffix := by
  rw [suffix, List.mem_append, List.mem_cons, List.mem_cons, not_or, not_or, not_or]
  exact ⟨⟨by decide, not_mem_toString (by decide) _⟩, by decide, not_mem_toString (by decide) _⟩

theorem toList_fileStem (d : DisplayName) :
    d.fileStem.toList = "/tmp/splitwm".toList ++ d.host.toList ++ d.suffix := by
  show ("/tmp/splitwm" ++ d.host ++ "_" ++ toString d.display.toNat ++ "_" ++
    toString d.screen.toNat).toList = _
  simp [suffix]

/-- The numbers and the host are found again before the end of a path. -/
theorem eq_of_append_suffix {host host' : List Char} {a b : DisplayName}
    (h : host ++ a.suffix = host' ++ b.suffix) :
    host = host' ∧ a.display = b.display ∧ a.screen = b.screen := by
  rw [suffix, suffix, ← List.append_assoc, ← List.append_assoc] at h
  obtain ⟨hrest, hscreen⟩ := append_cons_inj_of_last (not_mem_toString (by decide) _)
    (not_mem_toString (by decide) _) h
  obtain ⟨hhost, hdisplay⟩ := append_cons_inj_of_last (not_mem_toString (by decide) _)
    (not_mem_toString (by decide) _) hrest
  exact ⟨hhost, toString_inj hdisplay, toString_inj hscreen⟩

/-- The display with its host as a path has it. -/
def tidied (d : DisplayName) : DisplayName :=
  { d with host := String.ofList (FilePath.tidy d.host.toList) }

theorem tidied_eq_self_iff (d : DisplayName) : d.tidied = d ↔
    ¬ "//".toList <:+: d.host.toList ∧ ¬ "/./".toList <:+: d.host.toList := by
  rw [show "//".toList = ['/', '/'] from rfl, show "/./".toList = ['/', '.', '/'] from rfl,
    ← FilePath.tidy_eq_self_iff]
  obtain ⟨host, display, screen⟩ := d
  rw [tidied, mk.injEq, ← String.toList_inj, String.toList_ofList]
  simp

/-- The path of a file of a display. -/
def file (d : DisplayName) (ending : String) : FilePath := ⟨d.fileStem ++ ending⟩

/-- What follows the host and the first separator in a path. -/
def afterHost (d : DisplayName) (ending : String) : List Char := d.suffix.tail ++ ending.toList

theorem slash_not_mem_afterHost (d : DisplayName) {ending : String} (h : '/' ∉ ending.toList) :
    '/' ∉ '_' :: d.afterHost ending := by
  have hsuffix : '_' :: d.afterHost ending = d.suffix ++ ending.toList := rfl
  rw [hsuffix, List.mem_append, not_or]
  exact ⟨d.slash_not_mem_suffix, h⟩

theorem toList_file (d : DisplayName) (ending : String) : (d.file ending).text.toList =
    '/' :: ("tmp/splitwm".toList ++ d.host.toList ++ '_' :: d.afterHost ending) := by
  rw [file, String.toList_append, toList_fileStem, List.append_assoc]
  rfl

/-- What follows the host has no slash, and neither does it begin with a point. -/
theorem tidy_file (d : DisplayName) {ending : String} (h : '/' ∉ ending.toList) :
    FilePath.tidy (d.file ending).text.toList =
      "/tmp/splitwm".toList ++ (FilePath.tidy d.host.toList ++ '_' :: d.afterHost ending) := by
  have hrest : FilePath.tidy ('_' :: d.afterHost ending) = '_' :: d.afterHost ending := by
    have htidy := FilePath.tidy_append (d.slash_not_mem_afterHost h) []
    simpa [FilePath.tidy] using htidy
  have hpieces : (d.file ending).text.toList = '/' :: ("tmp".toList ++ '/' ::
      ("splitwm".toList ++ (d.host.toList ++ '_' :: d.afterHost ending))) := by
    rw [toList_file, List.append_assoc]
    rfl
  rw [hpieces, FilePath.tidy_slash (by decide) (by decide),
    FilePath.tidy_slash (by decide) (by decide),
    FilePath.tidy_append_cons (by decide) (by decide), hrest]
  rfl

/-- The same files belong to displays whose names are the same in a path. -/
theorem file_beq_iff (a b : DisplayName) {ending : String} (h : '/' ∉ ending.toList) :
    (a.file ending == b.file ending) = true ↔ a.tidied = b.tidied := by
  rw [FilePath.beq_iff_tidy (toList_file a ending) (by decide) (a.slash_not_mem_afterHost h)
    (toList_file b ending) (by decide) (b.slash_not_mem_afterHost h), tidy_file a h, tidy_file b h,
    List.append_right_inj, tidied, tidied, mk.injEq, ← String.toList_inj, String.toList_ofList,
    String.toList_ofList]
  constructor
  · intro heq
    have hsuffix : FilePath.tidy a.host.toList ++ a.suffix ++ ending.toList =
        FilePath.tidy b.host.toList ++ b.suffix ++ ending.toList := by
      rw [List.append_assoc, List.append_assoc]
      exact heq
    exact eq_of_append_suffix (List.append_cancel_right hsuffix)
  · rintro ⟨hhost, hdisplay, hscreen⟩
    rw [hhost, afterHost, afterHost, suffix, suffix, hdisplay, hscreen]

theorem socketPath_bne_statePath (a b : DisplayName) : (a.socketPath == b.statePath) = false := by
  rw [Bool.eq_false_iff]
  intro h
  have htidy := (FilePath.beq_iff_tidy (toList_file a "-socket") (by decide)
    (a.slash_not_mem_afterHost (by decide)) (toList_file b "-state") (by decide)
    (b.slash_not_mem_afterHost (by decide))).1 h
  rw [tidy_file a (by decide), tidy_file b (by decide)] at htidy
  have hlast := congrArg (List.head? ∘ List.reverse) htidy
  simp [afterHost] at hlast

/-! ## Names -/

/-- What marks the name of a local connection. -/
def marker : String := "unix/"

/-- The name of a display, with both of its numbers. -/
def render (d : DisplayName) : String :=
  d.host ++ ":" ++ toString d.display.toNat ++ "." ++ toString d.screen.toNat

/-- What stands after the last colon of the name. -/
def numberText (d : DisplayName) : List Char :=
  (toString d.display.toNat).toList ++ '.' :: (toString d.screen.toNat).toList

theorem toList_render (d : DisplayName) :
    d.render.toList = d.host.toList ++ ':' :: d.numberText := by
  simp [render, numberText]

theorem colon_not_mem_numberText (d : DisplayName) : ':' ∉ d.numberText := by
  rw [numberText, List.mem_append, List.mem_cons, not_or, not_or]
  exact ⟨not_mem_toString (by decide) _, by decide, not_mem_toString (by decide) _⟩

theorem numbers?_numberText (d : DisplayName) :
    numbers? d.numberText = some (d.display, d.screen) := by
  rw [numbers?, numberText, span_append (not_mem_toString (by decide) _)]
  dsimp only
  rw [String.ofList_toList, String.ofList_toList, Numeral.uint32?_toString,
    Numeral.uint32?_toString]
  rfl

theorem splitAtLastColon?_append {numbers : List Char} (h : ':' ∉ numbers) (host : List Char) :
    splitAtLastColon? (host ++ ':' :: numbers) = some (host, numbers) := by
  have hreverse : (host ++ ':' :: numbers).reverse = numbers.reverse ++ ':' :: host.reverse := by
    simp
  rw [splitAtLastColon?, hreverse, span_append (by simpa using h)]
  simp

theorem dropMarker_append (rest : List Char) : dropMarker (marker.toList ++ rest) = rest := rfl

theorem dropMarker_of_unmarked {name : List Char} (h : ¬ marker.toList <+: name) :
    dropMarker name = name := by
  unfold dropMarker
  split
  · rename_i rest
    exact absurd (List.prefix_append marker.toList rest) h
  · rfl

/-- Once the marker is dropped, the rest is read from its end. -/
theorem ofText?_of_dropMarker {text : String} {host : List Char} {d : DisplayName}
    (h : dropMarker text.toList = host ++ ':' :: d.numberText) :
    ofText? text = some ⟨String.ofList host, d.display, d.screen⟩ := by
  rw [ofText?, h, splitAtLastColon?_append d.colon_not_mem_numberText]
  simp [numbers?_numberText]

theorem ofText?_marker_render (d : DisplayName) : ofText? (marker ++ d.render) = some d := by
  have hdrop : dropMarker (marker ++ d.render).toList = d.host.toList ++ ':' :: d.numberText := by
    rw [String.toList_append, dropMarker_append, toList_render]
  rw [ofText?_of_dropMarker hdrop, String.ofList_toList]

/-- A marker at the beginning of the host is taken for one of the name. -/
theorem ofText?_render_iff (d : DisplayName) :
    ofText? d.render = some d ↔ ¬ marker.toList <+: d.host.toList := by
  constructor
  · rintro hread ⟨host, hhost⟩
    have hdrop : dropMarker d.render.toList = host ++ ':' :: d.numberText := by
      rw [toList_render, ← hhost, List.append_assoc, dropMarker_append]
    rw [ofText?_of_dropMarker hdrop, Option.some.injEq] at hread
    have hshort : d.host.toList.length = host.length := by
      rw [← hread, String.toList_ofList]
    have hlong : d.host.toList.length = 5 + host.length := by
      rw [← hhost, List.length_append]
      rfl
    omega
  · intro hhost
    have hdrop : dropMarker d.render.toList = d.host.toList ++ ':' :: d.numberText := by
      rw [dropMarker_of_unmarked, toList_render]
      rwa [toList_render, prefix_append_cons_iff (by decide)]
    rw [ofText?_of_dropMarker hdrop, String.ofList_toList]

/-- Displays have the same socket, or the same file for their state, exactly if their numbers
are the same and so are their hosts, once every `//` and `/./` in them is a single slash.  No
socket is such a file.  A display is read back from its name with the marker in front, and
without it exactly if its host does not begin with one. -/
theorem files_and_names :
    (∀ a b : DisplayName, ((a.socketPath == b.socketPath) = true ↔ a.tidied = b.tidied) ∧
      ((a.statePath == b.statePath) = true ↔ a.tidied = b.tidied) ∧
      (a.socketPath == b.statePath) = false) ∧
    ∀ d : DisplayName,
      (d.tidied = d ↔ ¬ "//".toList <:+: d.host.toList ∧ ¬ "/./".toList <:+: d.host.toList) ∧
      ofText? (marker ++ d.render) = some d ∧
      (ofText? d.render = some d ↔ ¬ marker.toList <+: d.host.toList) := by
  refine ⟨fun a b => ⟨?_, ?_, socketPath_bne_statePath a b⟩, fun d => ⟨tidied_eq_self_iff d, ?_⟩⟩
  · exact file_beq_iff a b (by decide)
  · exact file_beq_iff a b (by decide)
  · exact ⟨ofText?_marker_render d, ofText?_render_iff d⟩

/-- Hosts that differ by a repeated slash. -/
theorem not_eq_of_socketPath :
    ¬ ∀ a b : DisplayName, (a.socketPath == b.socketPath) = true → a = b := by
  intro hall
  have h := hall ⟨"x//y", 0, 0⟩ ⟨"x/y", 0, 0⟩ (by decide)
  exact absurd h (by decide)

/-- Separators in the host, and a marker in the middle of it. -/
example : ofText? "a:1.2_unix/:3.4" = some ⟨"a:1.2_unix/", 3, 4⟩ := by decide

end DisplayName

end Tiling
