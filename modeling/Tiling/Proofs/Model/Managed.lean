import Tiling.Proofs.Model.Run
/-!
# Managed windows

Managing a window adds at most that window, letting go of a window takes that window away, and no
other operation changes which windows are managed.
-/

namespace Tiling

namespace Model

/-- The window is in a leaf of some desktop. -/
def Manages (m : Model) (w : Window) : Prop := (m.tree.findWindow? w).isSome

instance (m : Model) (w : Window) : Decidable (m.Manages w) :=
  inferInstanceAs (Decidable ((m.tree.findWindow? w).isSome = true))

theorem manages_iff {m : Model} {w : Window} : m.Manages w ↔ ∃ n, m.tree.window? n = some w :=
  Tree.exists_window_iff

theorem manages_congr {m m' : Model} (h : ∀ n, m'.tree.window? n = m.tree.window? n) (w : Window) :
    m'.Manages w ↔ m.Manages w := by
  simp only [manages_iff, h]

theorem IsBlank.not_manages {m : Model} (h : m.IsBlank) (w : Window) : ¬ m.Manages w := by
  rw [manages_iff, h.1]
  simp [Tree.window?, Tree.client?, Tree.get?, Tree.empty, Slots.get?_empty]

end Model

namespace Stage

theorem Stays.manages_iff {s s' : Stage} {placed : Option (NodeId × Bool)} (h : s.Stays s' placed)
    (w : Window) : s'.model.Manages w ↔ s.model.Manages w :=
  Model.manages_congr h.window w

theorem manages_perform_iff {s : Stage} (hs : s.model.Sound) {op : Operation}
    (hop : op.keepsWindows = true) (w : Window) :
    (s.perform op).model.Manages w ↔ s.model.Manages w := by
  rcases stays_perform hs hop with ⟨new, rfl⟩ | hstays
  · exact Iff.rfl
  · exact hstays.manages_iff w

theorem Admits.manages_iff {s s' : Stage} {w : Window} {added : Option NodeId}
    (h : s.Admits s' w added) (v : Window) :
    s'.model.Manages v ↔ s.model.Manages v ∨ (added.isSome ∧ v = w) := by
  have hother (m : NodeId) (hm : added ≠ some m) :
      s'.model.tree.window? m = s.model.tree.window? m := by
    apply Tree.window?_of_standing
    apply h.evolves.standing m (by simp)
    cases added with
    | none => simp
    | some n => simpa using hm
  have hunused (m : NodeId) (hm : added = some m) : s.model.tree.window? m = none := by
    rw [Tree.window?, h.unused m hm, Option.map_none]
  rw [Model.manages_iff, Model.manages_iff]
  constructor
  · rintro ⟨m, hv⟩
    by_cases hm : added = some m
    · rw [h.window m hm] at hv
      exact .inr ⟨by rw [hm, Option.isSome_some], (Option.some.inj hv).symm⟩
    · exact .inl ⟨m, by rw [← hother m hm, hv]⟩
  · rintro (⟨m, hv⟩ | ⟨hsome, rfl⟩)
    · have hm : added ≠ some m := fun hm => by
        rw [hunused m hm] at hv
        cases hv
      exact ⟨m, by rw [hother m hm, hv]⟩
    · obtain ⟨n, hn⟩ := Option.isSome_iff_exists.1 hsome
      exact ⟨n, h.window n hn⟩

theorem manages_unmanage_iff {s : Stage} (hs : s.model.Sound) (w v : Window) :
    (s.unmanage w).1.model.Manages v ↔ s.model.Manages v ∧ v ≠ w := by
  cases hn : s.model.tree.findWindow? w with
  | none =>
    rw [unmanage_of_unknown hn]
    refine (and_iff_left_of_imp fun hv heq => ?_).symm
    rw [heq, Model.Manages, hn] at hv
    cases hv
  | some n =>
    obtain ⟨hgone, hother⟩ := (releases_unmanage hs hn).2.left
    have hw := Tree.window?_of_findWindow hn
    rw [Model.manages_iff, Model.manages_iff]
    constructor
    · rintro ⟨m, hv⟩
      have hm : m ≠ n := fun hm => by
        rw [hm, Tree.window?, hgone] at hv
        cases hv
      rw [Tree.window?_of_standing (hother m hm)] at hv
      refine ⟨⟨m, hv⟩, fun heq => ?_⟩
      obtain ⟨shapes, h⟩ := hs
      exact hm (h.windows m n w (heq ▸ hv) hw)
    · rintro ⟨⟨m, hv⟩, hne⟩
      have hm : m ≠ n := fun hm => hne <| by
        rw [hm, hw] at hv
        exact (Option.some.inj hv).symm
      exact ⟨m, by rw [Tree.window?_of_standing (hother m hm), hv]⟩

/-- A managed window stays so unless it is let go of. -/
theorem manages_perform_of_ne {s : Stage} (hs : s.model.Sound) {op : Operation} {w : Window}
    (hop : op ≠ .unmanage w) (hw : s.model.Manages w) : (s.perform op).model.Manages w := by
  cases op with
  | manage v named csq => exact ((admits_manage hs v named csq).manages_iff w).2 (.inl hw)
  | unmanage v =>
    refine (manages_unmanage_iff hs v w).2 ⟨hw, ?_⟩
    rintro rfl
    exact hop rfl
  | _ => exact (manages_perform_iff hs rfl w).2 hw

end Stage

end Tiling
