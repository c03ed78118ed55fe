import Mathlib.Data.List.Basic
import Tiling.Text.Blank
/-!
# Fields of texts

The fields of two texts with white space between them are those of the one and then those of the
other.  A field is not empty and has no white space in it, and any such text is a field of its
own; so texts of this kind can be joined and are found again.
-/

namespace Tiling.Text

variable {c : Char} {cs : List Char} {text : String}

/-- The text is not empty and has no white space in it. -/
structure Solid (text : String) : Prop where
  nonempty : text ≠ ""
  dense : ∀ c ∈ text.toList, isBlank c = false

instance (text : String) : Decidable (Solid text) :=
  decidable_of_iff (text ≠ "" ∧ text.toList.all (!isBlank ·)) <| by
    simp only [List.all_eq_true, Bool.not_eq_true']
    exact ⟨fun h => ⟨h.1, h.2⟩, fun h => ⟨h.1, h.2⟩⟩

/-! ## Characters -/

/-- The fields that follow stay as they are. -/
theorem foldr_addToFields (cs : List Char) (rest : List (List Char)) :
    cs.foldr addToFields ([], rest) =
      ((cs.foldr addToFields ([], [])).1, (cs.foldr addToFields ([], [])).2 ++ rest) := by
  induction cs with
  | nil => rfl
  | cons c cs ih =>
    rw [List.foldr_cons, List.foldr_cons, ih]
    obtain ⟨opened, fields⟩ := cs.foldr addToFields ([], [])
    simp only [addToFields]
    split
    · split <;> rfl
    · rfl

theorem foldr_addToFields_of_dense (h : ∀ c ∈ cs, isBlank c = false) :
    cs.foldr addToFields ([], []) = (cs, []) := by
  induction cs with
  | nil => rfl
  | cons c cs ih =>
    rw [List.foldr_cons, ih fun d hd => h d (List.mem_cons_of_mem c hd), addToFields,
      h c List.mem_cons_self, if_neg Bool.false_ne_true]

theorem fieldsOf_cons_blank (hc : isBlank c = true) (cs : List Char) :
    fieldsOf (c :: cs) = fieldsOf cs := by
  rw [fieldsOf, fieldsOf, List.foldr_cons]
  simp only [addToFields, hc, if_true]
  rfl

theorem foldr_addToFields_cons_blank (hc : isBlank c = true) (cs : List Char) :
    (c :: cs).foldr addToFields ([], []) = ([], fieldsOf cs) := by
  rw [List.foldr_cons, fieldsOf]
  simp only [addToFields, hc, if_true]

theorem fieldsOf_append_cons (hc : isBlank c = true) (left right : List Char) :
    fieldsOf (left ++ c :: right) = fieldsOf left ++ fieldsOf right := by
  have hright := foldr_addToFields_cons_blank hc right
  generalize fieldsOf right = rest at hright ⊢
  rw [fieldsOf, fieldsOf, List.foldr_append, hright, foldr_addToFields]
  dsimp only
  split <;> rfl

theorem fieldsOf_of_dense (hne : cs ≠ []) (h : ∀ c ∈ cs, isBlank c = false) :
    fieldsOf cs = [cs] := by
  rw [fieldsOf, foldr_addToFields_of_dense h]
  exact if_neg (by rwa [List.isEmpty_iff])

theorem dense_of_mem_fieldsOf {field : List Char} (h : field ∈ fieldsOf cs) :
    field ≠ [] ∧ ∀ c ∈ field, isBlank c = false := by
  -- an open field has no white space either, but may still be empty
  have hinvariant : (∀ c ∈ (cs.foldr addToFields ([], [])).1, isBlank c = false) ∧
      ∀ field ∈ (cs.foldr addToFields ([], [])).2,
        field ≠ [] ∧ ∀ c ∈ field, isBlank c = false := by
    clear h
    induction cs with
    | nil => exact ⟨nofun, nofun⟩
    | cons c cs ih =>
      rw [List.foldr_cons]
      generalize cs.foldr addToFields ([], []) = before at ih ⊢
      obtain ⟨opened, fields⟩ := before
      rw [addToFields]
      split
      · refine ⟨nofun, ?_⟩
        split
        · exact ih.2
        · rename_i hopened
          rw [List.forall_mem_cons]
          exact ⟨⟨fun hnil => hopened (List.isEmpty_iff.2 hnil), ih.1⟩, ih.2⟩
      · rename_i hc
        exact ⟨List.forall_mem_cons.2 ⟨Bool.eq_false_iff.2 hc, ih.1⟩, ih.2⟩
  rw [fieldsOf] at h
  generalize cs.foldr addToFields ([], []) = after at h hinvariant
  obtain ⟨opened, fields⟩ := after
  dsimp only at h
  split at h
  · exact hinvariant.2 field h
  · rename_i hopened
    rcases List.mem_cons.1 h with rfl | h
    · exact ⟨fun hnil => hopened (List.isEmpty_iff.2 hnil), hinvariant.1⟩
    · exact hinvariant.2 field h

/-! ## Texts -/

theorem solid_of_mem_fields {field : String} (h : field ∈ fields text) : Solid field := by
  obtain ⟨cs, hcs, rfl⟩ := List.mem_map.1 h
  obtain ⟨hne, hdense⟩ := dense_of_mem_fieldsOf hcs
  refine ⟨fun hempty => hne ?_, by rwa [String.toList_ofList]⟩
  simpa using congrArg String.toList hempty

theorem fields_of_solid (h : Solid text) : fields text = [text] := by
  have hne : text.toList ≠ [] := fun hnil => h.nonempty (String.toList_eq_nil_iff.1 hnil)
  rw [fields, fieldsOf_of_dense hne h.dense, List.map_singleton, String.ofList_toList]

/-- Any amount of white space parts two texts. -/
theorem fields_append {blanks : String} (hne : blanks ≠ "")
    (hblanks : ∀ c ∈ blanks.toList, isBlank c = true) (left right : String) :
    fields (left ++ blanks ++ right) = fields left ++ fields right := by
  obtain ⟨c, cs, hcs⟩ : ∃ c cs, blanks.toList = c :: cs :=
    List.exists_cons_of_ne_nil fun hnil => hne (String.toList_eq_nil_iff.1 hnil)
  rw [hcs, List.forall_mem_cons] at hblanks
  have hrest : fieldsOf (cs ++ right.toList) = fieldsOf right.toList := by
    clear hcs
    induction cs with
    | nil => rfl
    | cons d cs ih =>
      rw [List.forall_mem_cons] at hblanks
      rw [List.cons_append, fieldsOf_cons_blank hblanks.2.1, ih ⟨hblanks.1, hblanks.2.2⟩]
  rw [fields, String.toList_append, String.toList_append, hcs, List.append_assoc, List.cons_append,
    fieldsOf_append_cons hblanks.1, hrest, List.map_append, ← fields, ← fields]

/-- Texts joined by white space are found again. -/
theorem fields_intercalate {texts : List String} (h : ∀ text ∈ texts, Solid text) :
    fields (" ".intercalate texts) = texts := by
  induction texts with
  | nil => rfl
  | cons text texts ih =>
    rw [List.forall_mem_cons] at h
    cases texts with
    | nil => rw [String.intercalate_singleton, fields_of_solid h.1]
    | cons other texts =>
      rw [String.intercalate_cons_cons, fields_append (by decide) (List.all_eq_true.1 rfl),
        fields_of_solid h.1, ih h.2, List.singleton_append]

/-- Lines without white space are found again. -/
theorem fields_join_lines {texts : List String} (h : ∀ text ∈ texts, Solid text) :
    fields (String.join (texts.map (· ++ "\n"))) = texts := by
  induction texts with
  | nil => rfl
  | cons text texts ih =>
    rw [List.forall_mem_cons] at h
    rw [List.map_cons, String.join_cons, fields_append (by decide) (List.all_eq_true.1 rfl),
      fields_of_solid h.1, ih h.2, List.singleton_append]

end Tiling.Text
