import Mathlib.Data.List.Perm.Subperm
import Tiling.Slots
/-!
# Well-formed slot stores

The free list of a store names every empty cell once and nothing else.  Under this invariant a
value is always put into an empty cell, so taking a cell never hides another value.
-/

namespace Tiling.Slots

variable {α : Type}

/-- The free list names every empty cell once, and nothing else. -/
structure WellFormed (s : Slots α) : Prop where
  nodup : s.free.Nodup
  mem_free_iff : ∀ i, i ∈ s.free ↔ i < s.size ∧ s.get? i = none

theorem wellFormed_empty : (empty : Slots α).WellFormed where
  nodup := List.nodup_nil
  mem_free_iff i := by simp [empty, size]

theorem wellFormed_iff {s : Slots α} : s.WellFormed ↔ s.free.Nodup ∧
    (∀ i ∈ s.free, i < s.size ∧ s.get? i = none) ∧
      ∀ i < s.size, s.get? i = none → i ∈ s.free := by
  refine ⟨fun h => ⟨h.nodup, fun i hi => (h.mem_free_iff i).1 hi, fun i hlt hnone =>
    (h.mem_free_iff i).2 ⟨hlt, hnone⟩⟩, fun ⟨hnodup, hfree, hunused⟩ => ⟨hnodup, fun i => ?_⟩⟩
  exact ⟨hfree i, fun h => hunused i h.1 h.2⟩

instance (s : Slots α) : Decidable s.WellFormed := decidable_of_iff _ wellFormed_iff.symm

theorem get?_eq_none_of_size_le {s : Slots α} {i : Nat} (h : s.size ≤ i) : s.get? i = none := by
  have hi : s.cells[i]? = none := Array.getElem?_eq_none h
  simp [get?, hi]

theorem index_lt_size {s : Slots α} {i : Nat} {a : α} (h : s.get? i = some a) : i < s.size := by
  apply Nat.lt_of_not_le
  intro hle
  rw [get?_eq_none_of_size_le hle] at h
  cases h

theorem get?_modify (s : Slots α) (i j : Nat) (f : α → α) :
    (s.modify i f).get? j = if i = j then (s.get? i).map f else s.get? j := by
  by_cases hij : i = j
  · subst hij
    rw [if_pos rfl]
    cases h : s.get? i with
    | none => simp [modify, h]
    | some a => rw [get?_modify_same f h, Option.map_some]
  · rw [if_neg hij, get?_modify_other s f hij]

theorem get?_release (s : Slots α) (i j : Nat) :
    (s.release i).get? j = if i = j then none else s.get? j := by
  by_cases hij : i = j
  · subst hij
    rw [if_pos rfl, get?_release_same]
  · rw [if_neg hij, get?_release_other s hij]

@[simp] theorem size_modify (s : Slots α) (i : Nat) (f : α → α) : (s.modify i f).size = s.size := by
  unfold modify size
  split <;> simp

@[simp] theorem free_modify (s : Slots α) (i : Nat) (f : α → α) : (s.modify i f).free = s.free := by
  unfold modify
  split <;> rfl

@[simp] theorem size_release (s : Slots α) (i : Nat) : (s.release i).size = s.size := by
  unfold release size
  split <;> simp

theorem free_release {s : Slots α} {i : Nat} {a : α} (h : s.get? i = some a) :
    (s.release i).free = i :: s.free := by
  simp [release, h]

/-! ## Preservation -/

namespace WellFormed

theorem modify {s : Slots α} (h : s.WellFormed) (i : Nat) (f : α → α) :
    (s.modify i f).WellFormed where
  nodup := by simpa using h.nodup
  mem_free_iff j := by
    rw [free_modify, size_modify, h.mem_free_iff, get?_modify]
    by_cases hij : i = j
    · subst hij
      simp
    · rw [if_neg hij]

theorem release {s : Slots α} (h : s.WellFormed) (i : Nat) : (s.release i).WellFormed := by
  cases hi : s.get? i with
  | none =>
    have hsame : s.release i = s := by simp [Slots.release, hi]
    rwa [hsame]
  | some a =>
    have hfree := free_release hi
    have hnot : i ∉ s.free := by
      rw [h.mem_free_iff, hi]
      simp
    refine ⟨?_, fun j => ?_⟩
    · rw [hfree]
      exact List.nodup_cons.2 ⟨hnot, h.nodup⟩
    · rw [hfree, List.mem_cons, h.mem_free_iff, size_release, get?_release]
      by_cases hij : i = j
      · subst hij
        simp [index_lt_size hi]
      · simp [hij, Ne.symm hij]

/-- A value goes into an empty cell. -/
theorem get?_alloc_index {s : Slots α} (h : s.WellFormed) (a : α) :
    s.get? (s.alloc a).2 = none := by
  unfold alloc
  split
  · rename_i i rest hfree
    exact ((h.mem_free_iff i).1 (by simp [hfree])).2
  · exact get?_eq_none_of_size_le (Nat.le_refl _)

theorem get?_alloc {s : Slots α} (h : s.WellFormed) (a : α) (j : Nat) :
    (s.alloc a).1.get? j = if (s.alloc a).2 = j then some a else s.get? j := by
  by_cases hj : (s.alloc a).2 = j
  · subst hj
    rw [if_pos rfl]
    exact get?_alloc_same s a fun i hi => ((h.mem_free_iff i).1 hi).1
  · rw [if_neg hj, get?_alloc_other s a hj]

theorem alloc {s : Slots α} (h : s.WellFormed) (a : α) : (s.alloc a).1.WellFormed := by
  have hget := h.get?_alloc a
  cases hfree : s.free with
  | nil =>
    have hindex : (s.alloc a).2 = s.size := by simp [Slots.alloc, hfree, size]
    have hnil : (s.alloc a).1.free = [] := by simp [Slots.alloc, hfree]
    have hsize : (s.alloc a).1.size = s.size + 1 := by simp [Slots.alloc, hfree, size]
    refine ⟨by simp [hnil], fun j => ?_⟩
    have hnot : ¬ (j < s.size ∧ s.get? j = none) := by
      rw [← h.mem_free_iff, hfree]
      simp
    rw [hnil, hsize, hget, hindex]
    by_cases hj : s.size = j
    · simp [hj]
    · simp only [List.not_mem_nil, if_neg hj, false_iff]
      rintro ⟨hlt, hnone⟩
      exact hnot ⟨by omega, hnone⟩
  | cons i rest =>
    have hindex : (s.alloc a).2 = i := by simp [Slots.alloc, hfree]
    have hrest : (s.alloc a).1.free = rest := by simp [Slots.alloc, hfree]
    have hsize : (s.alloc a).1.size = s.size := by simp [Slots.alloc, hfree, size]
    have hnodup : i ∉ rest ∧ rest.Nodup := by
      have hall := h.nodup
      rw [hfree] at hall
      exact List.nodup_cons.1 hall
    refine ⟨by rw [hrest]; exact hnodup.2, fun j => ?_⟩
    have hmem : j ∈ i :: rest ↔ j < s.size ∧ s.get? j = none := by
      rw [← hfree, h.mem_free_iff]
    rw [hrest, hsize, hget, hindex]
    by_cases hj : i = j
    · subst hj
      simp [hnodup.1]
    · rw [if_neg hj, ← hmem]
      simp [Ne.symm hj]

end WellFormed

/-- Distinct cells with values are no more than the store has cells. -/
theorem length_le_size {s : Slots α} {l : List Nat} (hnodup : l.Nodup)
    (hlive : ∀ i ∈ l, (s.get? i).isSome) : l.length ≤ s.size := by
  have hsub : l ⊆ List.range s.size := by
    intro i hi
    obtain ⟨a, ha⟩ := Option.isSome_iff_exists.1 (hlive i hi)
    exact List.mem_range.2 (index_lt_size ha)
  have hle := (hnodup.subperm hsub).length_le
  rwa [List.length_range] at hle

/-! ## Search -/

theorem findIdx?_eq_some {s : Slots α} {p : α → Bool} {i : Nat} (h : s.findIdx? p = some i) :
    ∃ a, s.get? i = some a ∧ p a = true := by
  obtain ⟨hi, hp, -⟩ := Array.findIdx?_eq_some_iff_getElem.1 h
  obtain ⟨a, ha, hpa⟩ := (Option.any_eq_true p _).1 hp
  exact ⟨a, by simp [get?, hi, ha], hpa⟩

theorem findIdx?_eq_none_iff {s : Slots α} {p : α → Bool} :
    s.findIdx? p = none ↔ ∀ i a, s.get? i = some a → p a = false := by
  rw [findIdx?, Array.findIdx?_eq_none_iff]
  constructor
  · intro hall i a hi
    have hlt : i < s.cells.size := index_lt_size hi
    have hcell : s.cells[i] = some a := by simpa [get?, hlt] using hi
    have hany := hall (some a) (hcell ▸ Array.getElem_mem hlt)
    simpa using hany
  · intro hall cell hcell
    obtain ⟨i, hi, rfl⟩ := Array.mem_iff_getElem.1 hcell
    cases hc : s.cells[i] with
    | none => rfl
    | some a => exact hall i a (by simp [get?, hi, hc])

end Tiling.Slots
