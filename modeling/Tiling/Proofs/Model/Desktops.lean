import Mathlib.Data.List.Basic
import Tiling.Model.Basic
/-!
# Desktops by position

A position names one element of the list of all desktops, and changing the desktop at a position
changes that element alone.
-/

namespace Tiling

theorem modify_split {α : Type} {l : List α} {i : Nat} {a : α} (h : l[i]? = some a) :
    ∃ before after, l = before ++ a :: after ∧
      ∀ f : α → α, l.modify i f = before ++ f a :: after := by
  induction l generalizing i with
  | nil => simp at h
  | cons b l ih =>
    cases i with
    | zero =>
      obtain rfl : b = a := by simpa using h
      exact ⟨[], l, rfl, fun f => by simp⟩
    | succ i =>
      obtain ⟨before, after, hl, hmodify⟩ := ih (by simpa using h)
      exact ⟨b :: before, after, by rw [hl, List.cons_append], fun f => by simp [hmodify]⟩

namespace Model

theorem exists_of_desktop? {m : Model} {r : DesktopRef} {d : Desktop} (h : m.desktop? r = some d) :
    ∃ monitor, m.monitor? r = some monitor ∧ monitor.desktops[r.desktop]? = some d :=
  Option.bind_eq_some_iff.1 h

/-- The list of all desktops around a position. -/
theorem desktops_split {m : Model} {r : DesktopRef} {d : Desktop} (h : m.desktop? r = some d) :
    ∃ before after, m.desktops = before ++ d :: after ∧
      ∀ f, (m.modifyDesktop r f).desktops = before ++ f d :: after := by
  obtain ⟨monitor, hmonitor, hdesktop⟩ := exists_of_desktop? h
  obtain ⟨left, right, hmonitors, hmodify⟩ := modify_split hmonitor
  obtain ⟨before, after, hdesktops, hmodify'⟩ := modify_split hdesktop
  refine ⟨left.flatMap Monitor.desktops ++ before, after ++ right.flatMap Monitor.desktops, ?_,
    fun f => ?_⟩
  · rw [desktops, hmonitors, List.flatMap_append, List.flatMap_cons, hdesktops]
    simp
  · rw [desktops, modifyDesktop, hmodify, List.flatMap_append, List.flatMap_cons, hmodify']
    simp

theorem desktop?_modifyDesktop (m : Model) (r : DesktopRef) (f : Desktop → Desktop) :
    (m.modifyDesktop r f).desktop? r = (m.desktop? r).map f := by
  simp only [desktop?, monitor?, modifyDesktop, List.getElem?_modify_eq]
  cases m.monitors[r.monitor]? with
  | none => rfl
  | some monitor => simp

theorem mem_desktops {m : Model} {r : DesktopRef} {d : Desktop} (h : m.desktop? r = some d) :
    d ∈ m.desktops := by
  obtain ⟨before, after, hsplit, -⟩ := desktops_split h
  simp [hsplit]

/-! ## Search -/

theorem findDesktopFrom_eq_some {p : Desktop → Bool} {i : Nat} {monitors : List Monitor}
    {r : DesktopRef} (h : findDesktopFrom p i monitors = some r) :
    ∃ k monitor d, r.monitor = i + k ∧ monitors[k]? = some monitor ∧
      monitor.desktops[r.desktop]? = some d ∧ p d = true := by
  induction monitors generalizing i with
  | nil => cases h
  | cons monitor rest ih =>
    rw [findDesktopFrom] at h
    cases hfind : monitor.desktops.findIdx? p with
    | some j =>
      rw [hfind] at h
      obtain rfl : (⟨i, j⟩ : DesktopRef) = r := Option.some.inj h
      obtain ⟨hj, hp, -⟩ := List.findIdx?_eq_some_iff_getElem.1 hfind
      exact ⟨0, monitor, monitor.desktops[j], rfl, rfl, List.getElem?_eq_getElem hj, hp⟩
    | none =>
      rw [hfind] at h
      obtain ⟨k, other, d, hr, hother, hd, hp⟩ := ih h
      exact ⟨k + 1, other, d, by omega, by simpa using hother, hd, hp⟩

theorem findDesktopFrom_eq_none {p : Desktop → Bool} {i : Nat} {monitors : List Monitor}
    (h : findDesktopFrom p i monitors = none) :
    ∀ d ∈ monitors.flatMap Monitor.desktops, p d = false := by
  induction monitors generalizing i with
  | nil => simp
  | cons monitor rest ih =>
    rw [findDesktopFrom] at h
    cases hfind : monitor.desktops.findIdx? p with
    | some j =>
      rw [hfind] at h
      cases h
    | none =>
      rw [hfind] at h
      intro d hd
      rw [List.flatMap_cons, List.mem_append] at hd
      rcases hd with hd | hd
      · exact List.findIdx?_eq_none_iff.1 hfind d hd
      · exact ih h d hd

theorem exists_of_findDesktopFrom {m : Model} {p : Desktop → Bool} {r : DesktopRef}
    (h : findDesktopFrom p 0 m.monitors = some r) : ∃ d, m.desktop? r = some d ∧ p d = true := by
  obtain ⟨k, monitor, d, hr, hmonitor, hd, hp⟩ := findDesktopFrom_eq_some h
  obtain rfl : r.monitor = k := by omega
  exact ⟨d, by rw [desktop?, monitor?, hmonitor, Option.bind_some, hd], hp⟩

end Model

end Tiling
