import Mathlib.Data.List.Basic
import Tiling.FilePath
/-!
# Paths that are the same

A repeated slash, and a point between slashes, do not change a path.  Without them a path from
the root to a name is read back from what it leads through.
-/

namespace Tiling

namespace FilePath

/-! ## Pieces -/

theorem not_mem_of_mem_splitOn {sep : Char} {text piece : List Char}
    (h : piece ∈ text.splitOn sep) : sep ∉ piece := by
  induction text generalizing piece with
  | nil =>
    obtain rfl := List.mem_singleton.1 h
    exact List.not_mem_nil
  | cons c text ih =>
    rw [List.splitOn_cons_eq_if_modifyHead] at h
    split at h
    · rcases List.mem_cons.1 h with rfl | h
      · exact List.not_mem_nil
      · exact ih h
    · rename_i hc
      obtain ⟨first, rest, hpieces⟩ := List.exists_cons_of_ne_nil (List.splitOn_ne_nil sep text)
      rw [hpieces, List.modifyHead_cons] at h
      rcases List.mem_cons.1 h with rfl | h
      · have hfirst : sep ∉ first := ih (hpieces ▸ List.mem_cons_self)
        simp only [List.mem_cons, not_or]
        exact ⟨fun heq => hc (beq_iff_eq.2 heq.symm), hfirst⟩
      · exact ih (hpieces ▸ List.mem_cons_of_mem _ h)

/-- Pieces with a slash before each. -/
def slashed (pieces : List (List Char)) : List Char := pieces.flatMap ('/' :: ·)

theorem slashed_cons (piece : List Char) (pieces : List (List Char)) :
    slashed (piece :: pieces) = '/' :: (piece ++ slashed pieces) := rfl

theorem slashed_splitOn (text : List Char) : slashed (text.splitOn '/') = '/' :: text := by
  induction text with
  | nil => rfl
  | cons c text ih =>
    rw [List.splitOn_cons_eq_if_modifyHead]
    split
    · rename_i hc
      rw [slashed_cons, ih, beq_iff_eq.1 hc]
      rfl
    · obtain ⟨first, rest, hpieces⟩ := List.exists_cons_of_ne_nil (List.splitOn_ne_nil '/' text)
      rw [hpieces, slashed_cons, List.cons.injEq] at ih
      rw [hpieces, List.modifyHead_cons, slashed_cons, List.cons_append, ih.2]

theorem splitOn_slashed {pieces : List (List Char)} (h : ∀ piece ∈ pieces, '/' ∉ piece) :
    (slashed pieces).splitOn '/' = [] :: pieces := by
  induction pieces with
  | nil => rfl
  | cons piece pieces ih =>
    have hpiece := h piece List.mem_cons_self
    have ih := ih fun other hother => h other (List.mem_cons_of_mem _ hother)
    rw [slashed_cons, ← List.nil_append ('/' :: _),
      List.splitOn_append_cons_self_of_not_mem List.not_mem_nil]
    cases pieces with
    | nil => rw [slashed, List.flatMap_nil, List.append_nil, List.splitOn_eq_singleton hpiece]
    | cons next pieces =>
      rw [slashed_cons, ← List.nil_append ('/' :: _),
        List.splitOn_append_cons_self_of_not_mem List.not_mem_nil, List.cons.injEq] at ih
      rw [slashed_cons, List.splitOn_append_cons_self_of_not_mem hpiece, ih.2]

theorem eq_of_not_isName {piece : List Char} (h : ¬ isName piece = true) :
    piece = [] ∨ piece = ['.'] := by
  by_contra hother
  rw [not_or] at hother
  exact h (by simp [isName, hother])

/-! ## Shortened paths -/

/-- Leaves out every slash that another one follows, or a point and another one, with the point. -/
def tidy : List Char → List Char
  | [] => []
  | [c] => [c]
  | c :: d :: rest =>
    if c = '/' ∧ d = '/' then tidy (d :: rest)
    else if c = '/' ∧ d = '.' ∧ rest.head? = some '/' then tidy rest
    else c :: tidy (d :: rest)

theorem tidy_cons {c : Char} (h : c ≠ '/') (rest : List Char) :
    tidy (c :: rest) = c :: tidy rest := by
  cases rest with
  | nil => rfl
  | cons d rest => rw [tidy, if_neg fun hc => h hc.1, if_neg fun hc => h hc.1]

theorem tidy_append {first : List Char} (h : '/' ∉ first) (rest : List Char) :
    tidy (first ++ rest) = first ++ tidy rest := by
  induction first with
  | nil => rfl
  | cons c first ih =>
    rw [List.mem_cons, not_or] at h
    rw [List.cons_append, tidy_cons (Ne.symm h.1), ih h.2, List.cons_append]

theorem tidy_append_cons {c : Char} (hslash : c ≠ '/') (hdot : c ≠ '.') (first rest : List Char) :
    tidy (first ++ c :: rest) = tidy first ++ tidy (c :: rest) := by
  fun_induction tidy first with
  | case1 => rfl
  | case2 d => simp [tidy, hslash, hdot]
  | case3 d e first h ih =>
    rw [← ih, List.cons_append, List.cons_append, tidy, if_pos h]
  | case4 d e first h h' ih =>
    obtain ⟨next, hnext⟩ := List.head?_eq_some_iff.1 h'.2.2
    rw [← ih, List.cons_append, List.cons_append, tidy, if_neg h, if_pos]
    rw [hnext]
    exact ⟨h'.1, h'.2.1, rfl⟩
  | case5 d e first h h' ih =>
    have hstep : tidy (d :: (e :: first ++ c :: rest)) = d :: tidy (e :: first ++ c :: rest) := by
      rw [List.cons_append, tidy, if_neg h, if_neg]
      rintro ⟨hd, he, hnext⟩
      cases first with
      | nil => exact hslash (Option.some.inj hnext)
      | cons f first => exact h' ⟨hd, he, hnext⟩
    exact hstep.trans (congrArg (List.cons d) ih)

theorem length_tidy_le (text : List Char) : (tidy text).length ≤ text.length := by
  fun_induction tidy text with
  | case1 => exact Nat.le_refl 0
  | case2 c => exact Nat.le_refl 1
  | case3 c d rest h ih => exact Nat.le_succ_of_le ih
  | case4 c d rest h h' ih => exact Nat.le_succ_of_le (Nat.le_succ_of_le ih)
  | case5 c d rest h h' ih => exact Nat.succ_le_succ ih

/-- A text is tidy if neither of what is left out stands in it. -/
theorem tidy_eq_self_iff (text : List Char) : tidy text = text ↔
    ¬ ['/', '/'] <:+: text ∧ ¬ ['/', '.', '/'] <:+: text := by
  fun_induction tidy text with
  | case1 => simp
  | case2 c => simp [List.infix_cons_iff]
  | case3 c d rest h ih =>
    obtain ⟨rfl, rfl⟩ := h
    refine iff_of_false (fun heq => ?_) fun hinfix => hinfix.1 ⟨[], rest, rfl⟩
    have hlength := length_tidy_le ('/' :: rest)
    rw [heq, List.length_cons, List.length_cons] at hlength
    omega
  | case4 c d rest h h' ih =>
    obtain ⟨rfl, rfl, hnext⟩ := h'
    obtain ⟨rest, rfl⟩ := List.head?_eq_some_iff.1 hnext
    refine iff_of_false (fun heq => ?_) fun hinfix => hinfix.2 ⟨[], rest, rfl⟩
    have hlength := length_tidy_le ('/' :: rest)
    rw [heq, List.length_cons, List.length_cons, List.length_cons] at hlength
    omega
  | case5 c d rest h h' ih =>
    rw [List.cons.injEq, eq_self, true_and, ih]
    have hslashes : ¬ ['/', '/'] <+: c :: d :: rest := by
      simpa [eq_comm] using h
    have hpoint : ¬ ['/', '.', '/'] <+: c :: d :: rest := by
      intro hprefix
      obtain ⟨hc, hprefix⟩ := List.cons_prefix_cons.1 hprefix
      obtain ⟨hd, next, rfl⟩ := List.cons_prefix_cons.1 hprefix
      exact h' ⟨hc.symm, hd.symm, rfl⟩
    exact and_congr (not_congr (List.infix_cons_iff.trans (or_iff_right hslashes)).symm)
      (not_congr (List.infix_cons_iff.trans (or_iff_right hpoint)).symm)

/-- A slash before a name stays. -/
theorem tidy_slash {name : List Char} (hname : isName name) (hslash : '/' ∉ name)
    (rest : List Char) : tidy ('/' :: (name ++ rest)) = '/' :: (name ++ tidy rest) := by
  have htail := tidy_append hslash rest
  cases name with
  | nil => cases hname
  | cons c name =>
    rw [List.mem_cons, not_or] at hslash
    rw [← htail, List.cons_append, tidy, if_neg fun hc => hslash.1 hc.2.symm, if_neg]
    rintro ⟨-, rfl, hnext⟩
    cases name with
    | nil => cases hname
    | cons d name =>
      obtain rfl : d = '/' := Option.some.inj hnext
      exact hslash.2 List.mem_cons_self

theorem tidy_slashed {pieces : List (List Char)} {last : List Char}
    (hpieces : ∀ piece ∈ pieces, '/' ∉ piece) (hslash : '/' ∉ last) (hlast : isName last) :
    tidy (slashed (pieces ++ [last])) = slashed ((pieces ++ [last]).filter isName) := by
  induction pieces with
  | nil =>
    rw [List.nil_append, List.filter_cons_of_pos hlast, slashed_cons,
      tidy_slash hlast hslash]
    rfl
  | cons piece pieces ih =>
    have ih := ih fun other hother => hpieces other (List.mem_cons_of_mem _ hother)
    rw [List.cons_append, slashed_cons]
    by_cases hname : isName piece
    · rw [List.filter_cons_of_pos hname, slashed_cons, ← ih,
        tidy_slash hname (hpieces piece List.mem_cons_self)]
    · obtain ⟨rest, hrest⟩ : ∃ rest, slashed (pieces ++ [last]) = '/' :: rest := by
        cases pieces <;> exact ⟨_, rfl⟩
      rw [List.filter_cons_of_neg hname, ← ih, hrest]
      rcases eq_of_not_isName hname with rfl | rfl
      · rfl
      · rfl

/-! ## Paths from the root to a name -/

/-- A path ends in a name if it has something else than a point after its last slash. -/
theorem exists_splitOn (start : List Char) {c : Char} (hc : c ≠ '.') {rest : List Char}
    (hrest : '/' ∉ c :: rest) : ∃ pieces last, isName last ∧
      (start ++ c :: rest).splitOn '/' = pieces ++ [last] := by
  induction start with
  | nil =>
    refine ⟨[], c :: rest, ?_, List.splitOn_eq_singleton hrest⟩
    simp [isName, hc]
  | cons d start ih =>
    obtain ⟨pieces, last, hlast, hsplit⟩ := ih
    rw [List.cons_append, List.splitOn_cons_eq_if_modifyHead, hsplit]
    split
    · exact ⟨[] :: pieces, last, hlast, rfl⟩
    · cases pieces with
      | cons first pieces => exact ⟨(d :: first) :: pieces, last, hlast, rfl⟩
      | nil =>
        refine ⟨[], d :: last, ?_, rfl⟩
        cases last with
        | nil => cases hlast
        | cons e last => simp [isName]

/-- The names that a path from the root leads through. -/
def names (text : List Char) : List (List Char) := (text.splitOn '/').filter isName

theorem components_of_root {p : FilePath} {text : List Char} (h : p.text.toList = '/' :: text) :
    p.components = .root :: (names text).map .name := by
  have hpieces : p.pieces = [] :: text.splitOn '/' := by
    rw [pieces, h, ← List.nil_append ('/' :: text),
      List.splitOn_append_cons_self_of_not_mem List.not_mem_nil]
  obtain ⟨first, rest, hsplit⟩ := List.exists_cons_of_ne_nil (List.splitOn_ne_nil '/' text)
  rw [components, hpieces, names, hsplit]
  rfl

theorem tidy_eq_slashed (start : List Char) {c : Char} (hc : c ≠ '.') {rest : List Char}
    (hrest : '/' ∉ c :: rest) :
    tidy ('/' :: (start ++ c :: rest)) = slashed (names (start ++ c :: rest)) := by
  obtain ⟨pieces, last, hlast, hsplit⟩ := exists_splitOn start hc hrest
  have hslash : ∀ piece ∈ pieces ++ [last], '/' ∉ piece := by
    intro piece hpiece
    rw [← hsplit] at hpiece
    exact not_mem_of_mem_splitOn hpiece
  rw [← slashed_splitOn, names, hsplit]
  refine tidy_slashed (fun piece hpiece => hslash piece ?_) (hslash last ?_) hlast
  · exact List.mem_append_left _ hpiece
  · exact List.mem_append_right _ (List.mem_singleton_self last)

theorem slashed_names_inj {a b : List Char} (h : slashed (names a) = slashed (names b)) :
    names a = names b := by
  have hslash : ∀ text : List Char, ∀ piece ∈ names text, '/' ∉ piece :=
    fun text piece hpiece => not_mem_of_mem_splitOn (List.mem_filter.1 hpiece).1
  have hsplit := congrArg (List.splitOn '/') h
  rw [splitOn_slashed (hslash a), splitOn_slashed (hslash b)] at hsplit
  exact (List.cons.inj hsplit).2

/-- Paths from the root to a name are the same exactly if their texts are once they are tidy. -/
theorem beq_iff_tidy {p q : FilePath} {start start' rest rest' : List Char} {c c' : Char}
    (hp : p.text.toList = '/' :: (start ++ c :: rest)) (hc : c ≠ '.') (hrest : '/' ∉ c :: rest)
    (hq : q.text.toList = '/' :: (start' ++ c' :: rest')) (hc' : c' ≠ '.')
    (hrest' : '/' ∉ c' :: rest') :
    (p == q) = true ↔ tidy p.text.toList = tidy q.text.toList := by
  have hbeq : (p == q) = (p.components == q.components) := rfl
  rw [hbeq, beq_iff_eq, components_of_root hp, components_of_root hq, hp, hq,
    tidy_eq_slashed start hc hrest, tidy_eq_slashed start' hc' hrest']
  constructor
  · intro h
    have hnames := List.map_injective_iff.2 (fun _ _ => Component.name.inj) (List.cons.inj h).2
    rw [hnames]
  · intro h
    rw [slashed_names_inj h]

end FilePath

end Tiling
