import Tiling.Proofs.Model.Run
import Tiling.Proofs.Stack.Beside
/-!
# The stacking order over a run

While windows are raised automatically, the stack holds every managed window, ordered by level.
Floating windows that are not raised stay where they are and may come out of their level; the
others stay in order among themselves as long as no placement is misled by such a window.
-/

namespace Tiling

namespace Tree

/-- The leaf floats. -/
def floats (t : Tree) (n : NodeId) : Bool := (t.client? n).any fun c => c.state == .floating

theorem floats_eq_true_iff {t : Tree} {n : NodeId} :
    t.floats n = true ↔ (t.client? n).map Client.state = some .floating := by
  rw [floats, Option.any_eq_true, Option.map_eq_some_iff]
  simp only [beq_iff_eq]

theorem floats_of_standing {t t' : Tree} {n : NodeId} (h : t'.standing? n = t.standing? n) :
    t'.floats n = t.floats n := by
  rw [Bool.eq_iff_iff, floats_eq_true_iff, floats_eq_true_iff, state_of_standing h]

end Tree

/-! ## One placement -/

namespace Stack

theorem sublist_without (gone : Option NodeId) (l : List NodeId) : (without gone l).Sublist l := by
  cases gone with
  | none => exact List.Sublist.refl l
  | some n => exact List.erase_sublist

theorem mem_without_iff {gone : Option NodeId} {l : List NodeId} (hnodup : l.Nodup) {n : NodeId} :
    n ∈ without gone l ↔ n ∈ l ∧ gone ≠ some n := by
  cases gone with
  | none => simp [without]
  | some m =>
    rw [without, hnodup.mem_erase_iff, and_comm, ne_eq, ne_eq, Option.some.injEq, eq_comm (a := m)]

/-- A leaf that does not float is placed in any case. -/
theorem Moves.settled {t : Tree} {autoRaise : Bool} {n : NodeId} {promote : Bool}
    {l l' : List NodeId} (h : Moves t autoRaise n promote l l')
    (hmoves : t.floats n = true → autoRaise = true) :
    Settles t.level n promote (l.erase n) l' := by
  cases h with
  | stays hfloating hoff =>
    rw [hmoves (Tree.floats_eq_true_iff.2 hfloating)] at hoff
    cases hoff
  | settles _ hsettles => exact hsettles

/-- Placing a leaf leaves the others in their order. -/
theorem Moves.filter_eq {t : Tree} {autoRaise : Bool} {n : NodeId} {promote : Bool}
    {l l' : List NodeId} (h : Moves t autoRaise n promote l l') {p : NodeId → Bool}
    (hp : p n = false) : l'.filter p = (l.erase n).filter p := by
  cases h with
  | stays => rw [filter_erase_of_not (by simp [hp])]
  | settles _ hsettles => exact hsettles.filter_eq hp

/-- Whether a leaf is misled does not depend on where it was. -/
theorem misleads_erase_iff {level : NodeId → Nat} {exempt : NodeId → Bool} {n : NodeId}
    {promote : Bool} {l : List NodeId} :
    Misleads level exempt n promote (l.erase n) ↔ Misleads level exempt n promote l := by
  have hpair (x a : NodeId) (hx : level x ≠ level n) (ha : level a ≠ level n) :
      [x, a].Sublist (l.erase n) ↔ [x, a].Sublist l :=
    pair_sublist_erase_iff (fun heq => hx (heq ▸ rfl)) fun heq => ha (heq ▸ rfl)
  refine exists_congr fun x => exists_congr fun a => and_congr_right fun _ =>
    and_congr_right fun _ => ?_
  cases promote with
  | true =>
    refine and_congr_left fun hbetween => hpair x a ?_ ?_ <;> omega
  | false =>
    refine and_congr_left fun hbetween => hpair a x ?_ ?_ <;> omega

theorem Ascends.carried {t t' : Tree} {l k : List NodeId} {p p' : NodeId → Bool}
    (h : Ascends t.level (l.filter p)) (hsub : k.Sublist l)
    (hstanding : ∀ m ∈ k, t'.standing? m = t.standing? m) (hp : ∀ m ∈ k, p' m = p m) :
    Ascends t'.level (k.filter p') := by
  rw [List.filter_congr hp]
  refine (h.sublist (hsub.filter p)).imp_of_mem fun ha hb hle => ?_
  rwa [Tree.level_of_standing (hstanding _ (List.mem_filter.1 ha).1),
    Tree.level_of_standing (hstanding _ (List.mem_filter.1 hb).1)]

end Stack

namespace Stage.Evolves

variable {s s' : Stage} {gone : Option NodeId} {placed : Option (NodeId × Bool)}

/-- The order before and after an operation. -/
theorem exists_lists (h : s.Evolves s' gone placed) (hs : s.model.Sound) :
    ∃ l l', s.model.stack.Holds l ∧ s'.model.stack.Holds l' ∧
      (∀ n ∈ l, (s.model.tree.client? n).isSome) ∧
      Stack.Rearranges s'.model.tree s'.settings.autoRaise gone placed l l' := by
  obtain ⟨shapes, hs⟩ := hs
  obtain ⟨l, hl, hlive⟩ := hs.stack
  obtain ⟨l', hl', hrearranges⟩ := h.stack l hl hlive
  exact ⟨l, l', hl, hl', hlive, hrearranges⟩

/-- The leaves that are neither gone nor placed keep their level and their order. -/
theorem ascends_others (h : s.Evolves s' gone placed) {l k : List NodeId} (hnodup : l.Nodup)
    {p p' : NodeId → Bool} (hascends : Stack.Ascends s.model.tree.level (l.filter p))
    (hsub : k.Sublist (Stack.without gone l)) (hk : ∀ m ∈ k, placed.map Prod.fst ≠ some m)
    (hp : ∀ m, s'.model.tree.standing? m = s.model.tree.standing? m → p' m = p m) :
    Stack.Ascends s'.model.tree.level (k.filter p') := by
  have hstanding (m : NodeId) (hm : m ∈ k) :
      s'.model.tree.standing? m = s.model.tree.standing? m :=
    h.standing m ((Stack.mem_without_iff hnodup).1 (hsub.subset hm)).2 (hk m hm)
  exact hascends.carried (hsub.trans (Stack.sublist_without gone l)) hstanding fun m hm =>
    hp m (hstanding m hm)

/-- The leaf that is placed is none of the others. -/
theorem not_placed_of_mem_erase {l : List NodeId} (hnodup : l.Nodup) {n : NodeId} {promote : Bool} :
    ∀ m ∈ l.erase n, (some (n, promote)).map Prod.fst ≠ some m := by
  intro m hm heq
  obtain rfl : n = m := by simpa using heq
  exact hnodup.not_mem_erase hm

end Stage.Evolves

/-! ## Windows that are raised automatically -/

namespace Model

/-- The stack holds every leaf with a client, and their levels ascend. -/
structure Complete (m : Model) : Prop where
  mem_iff : ∀ n, n ∈ m.stack.toList ↔ (m.tree.client? n).isSome
  ascends : Stack.Ascends m.tree.level m.stack.toList

/-- Every managed window is stacked once, nothing else is, and a higher level is nearer the
front. -/
structure WellStacked (m : Model) : Prop where
  leaf : ∀ n ∈ m.stack.toList, (m.tree.window? n).isSome
  nodup : (m.stack.windows m.tree).Nodup
  mem_iff : ∀ w, w ∈ m.stack.windows m.tree ↔ (m.tree.findWindow? w).isSome
  ascends : Stack.Ascends m.tree.level m.stack.toList
  nearer : ∀ (i j : Nat) a b, m.stack.toList[i]? = some a → m.stack.toList[j]? = some b →
    m.tree.level a < m.tree.level b → i < j

theorem Complete.wellStacked {m : Model} (h : m.Complete) (hm : m.Sound) : m.WellStacked where
  leaf n hn := by
    rw [isSome_window?]
    exact (h.mem_iff n).1 hn
  nodup := by
    obtain ⟨shapes, hs⟩ := hm
    obtain ⟨l, hl, -⟩ := hs.stack
    rw [Stack.windows, hl.toList_eq]
    exact hl.1.filterMap fun a b w ha hb => hs.windows a b w ha hb
  mem_iff w := by
    rw [Stack.windows, List.mem_filterMap, Tree.exists_window_iff]
    refine exists_congr fun n => and_iff_right_of_imp fun hn => (h.mem_iff n).2 ?_
    rw [← isSome_window?, hn, Option.isSome_some]
  ascends := h.ascends
  nearer i j a b ha hb hlt := by
    obtain ⟨hi, rfl⟩ := List.getElem?_eq_some_iff.1 ha
    obtain ⟨hj, rfl⟩ := List.getElem?_eq_some_iff.1 hb
    by_contra hle
    rcases Nat.lt_or_ge j i with hji | hij
    · have hdescends := List.pairwise_iff_getElem.1 h.ascends j i hj hi hji
      omega
    · obtain rfl : i = j := by omega
      omega

end Model

namespace Stage

/-- What is stacked is what is managed, also after an operation. -/
theorem Evolves.mem_iff {s s' : Stage} {gone : Option NodeId} {placed : Option (NodeId × Bool)}
    (h : s.Evolves s' gone placed) {l : List NodeId} (hnodup : l.Nodup)
    (hl : ∀ n, n ∈ l ↔ (s.model.tree.client? n).isSome) {n : NodeId}
    (hn : placed.map Prod.fst ≠ some n) :
    n ∈ Stack.without gone l ↔ (s'.model.tree.client? n).isSome := by
  rw [Stack.mem_without_iff hnodup]
  by_cases hgone : gone = some n
  · simp [hgone, (h.gone_client n hgone).2]
  · rw [hl, Tree.isSome_client?_of_standing (h.standing n hgone hn), and_iff_left hgone]

theorem Evolves.complete {s s' : Stage} {gone : Option NodeId} {placed : Option (NodeId × Bool)}
    (h : s.Evolves s' gone placed) (hs : s.model.Sound) (hon : s.settings.autoRaise = true)
    (hcomplete : s.model.Complete) : s'.model.Complete := by
  obtain ⟨l, l', hl, hl', -, hrearranges⟩ := h.exists_lists hs
  obtain ⟨hmem, hascends⟩ := hcomplete
  rw [hl.toList_eq] at hmem hascends
  have hall (k : List NodeId) : (k.filter fun _ => true) = k := by simp
  rw [← hall l] at hascends
  have hothers (n : NodeId) (hn : placed.map Prod.fst ≠ some n) := h.mem_iff hl.1 hmem hn
  cases placed with
  | none =>
    obtain rfl : l' = Stack.without gone l := hrearranges
    refine ⟨fun n => ?_, ?_⟩
    · rw [hl'.toList_eq]
      exact hothers n (by simp)
    · have hstays : Stack.Ascends s'.model.tree.level
          ((Stack.without gone l).filter fun _ => true) :=
        h.ascends_others hl.1 hascends (List.Sublist.refl _) (by simp) fun _ _ => rfl
      rwa [hall, ← hl'.toList_eq] at hstays
  | some place =>
    obtain ⟨n, promote⟩ := place
    have hnodup := hl.1.sublist (Stack.sublist_without gone l)
    have hmoves : Stack.Moves s'.model.tree s'.settings.autoRaise n promote
      (Stack.without gone l) l' := hrearranges
    have hsettles := hmoves.settled fun _ => by rw [h.settings, hon]
    refine ⟨fun m => ?_, ?_⟩
    · rw [hl'.toList_eq, hsettles.perm.mem_iff, List.mem_cons]
      by_cases hm : m = n
      · simp [hm, h.placed_client n rfl]
      · rw [List.mem_erase_of_ne hm, or_iff_right hm]
        exact hothers m fun heq => hm (Option.some.inj heq).symm
    · have hstays : Stack.Ascends s'.model.tree.level
          (((Stack.without gone l).erase n).filter fun _ => true) :=
        h.ascends_others hl.1 hascends List.erase_sublist (not_placed_of_mem_erase hnodup)
          fun _ _ => rfl
      rw [hall] at hstays
      rw [hl'.toList_eq]
      exact hsettles.ascends hstays

theorem complete_perform {s : Stage} (hs : s.model.Sound) (hon : s.settings.autoRaise = true)
    (hcomplete : s.model.Complete) (op : Operation) : (s.perform op).model.Complete := by
  rcases (perform_spec hs op).2 with ⟨new, rfl⟩ | hevolves
  · exact hcomplete
  · exact hevolves.complete hs hon hcomplete

theorem autoRaise_perform {s : Stage} (hs : s.model.Sound) (hon : s.settings.autoRaise = true)
    {op : Operation} (hop : ∀ new, op = .settings new → new.autoRaise = true) :
    (s.perform op).settings.autoRaise = true := by
  rcases (perform_spec hs op).2 with ⟨new, rfl⟩ | hevolves
  · exact hop new rfl
  · rw [hevolves.settings, hon]

theorem complete_run {s : Stage} (hs : s.model.Sound) (hon : s.settings.autoRaise = true)
    (hcomplete : s.model.Complete) {ops : List Operation}
    (hops : ∀ new, .settings new ∈ ops → new.autoRaise = true) : (s.run ops).model.Complete := by
  induction ops generalizing s with
  | nil => exact hcomplete
  | cons op ops ih =>
    have hon' := autoRaise_perform hs hon fun new hop => hops new (hop ▸ List.mem_cons_self)
    exact ih (perform_spec hs op).1 hon' (complete_perform hs hon hcomplete op) fun new hnew =>
      hops new (List.mem_cons_of_mem op hnew)

theorem complete_fresh (outputs : List (String × Rect)) (names : List String) :
    (Model.fresh outputs names).Complete := by
  obtain ⟨htree, hstack, -⟩ := Model.isBlank_fresh outputs names
  refine ⟨fun n => ?_, ?_⟩
  · rw [hstack, htree, Stack.Holds.empty.toList_eq]
    simp [Tree.client?, Tree.get?, Tree.empty, Slots.get?_empty]
  · rw [hstack, Stack.Holds.empty.toList_eq]
    exact List.Pairwise.nil

/-- While automatic raising is on, the stack is complete and ordered after every operation. -/
theorem wellStacked_run (outputs : List (String × Rect)) (names : List String)
    (settings : Settings) (ids : FeedbackIds) (ops : List Operation)
    (hon : settings.autoRaise = true)
    (hops : ∀ new, .settings new ∈ ops → new.autoRaise = true) :
    ((fresh outputs names settings ids).run ops).model.WellStacked := by
  have hsound := sound_fresh outputs names settings ids
  have hcomplete := complete_run hsound hon (complete_fresh outputs names) hops
  exact hcomplete.wellStacked (sound_run hsound ops)

/-- The lowest of three windows is brought to the front by its layer, after the setting was set
to what it was. -/
theorem wellStacked_raised :
    ((fresh [("S", ⟨0, 0, 640, 480⟩)] ["I"] .standard .unavailable).run
      [.manage 1 ⟨"", ""⟩ .standard, .manage 2 ⟨"", ""⟩ .standard, .manage 3 ⟨"", ""⟩ .standard,
        .settings .standard, .setLayer (.window 1) .above]).model.WellStacked := by
  refine wellStacked_run _ _ _ _ _ rfl fun new hnew => ?_
  obtain rfl : new = .standard := by simpa using hnew
  rfl

end Stage

/-! ## Windows that do not float -/

namespace Model

/-- The stacked leaves that do not float ascend by level. -/
def Ordered (m : Model) : Prop :=
  Stack.Ascends m.tree.level (m.stack.toList.filter fun n => !m.tree.floats n)

instance (m : Model) : Decidable m.Ordered :=
  inferInstanceAs (Decidable (List.Pairwise _ _))

end Model

namespace Stage

/-- An operation places a leaf that does not float where a floating one misleads it. -/
def Misled (s : Stage) (op : Operation) : Prop :=
  ∃ n promote, s.placed? op = some (n, promote) ∧ (s.perform op).model.tree.floats n = false ∧
    Stack.Misleads (s.perform op).model.tree.level (s.perform op).model.tree.floats n promote
      (Stack.without (s.gone? op) s.model.stack.toList)

theorem Evolves.ordered_iff {s s' : Stage} {gone : Option NodeId} {placed : Option (NodeId × Bool)}
    (h : s.Evolves s' gone placed) (hs : s.model.Sound) (hordered : s.model.Ordered) :
    s'.model.Ordered ↔ ¬ ∃ n promote, placed = some (n, promote) ∧
      s'.model.tree.floats n = false ∧ Stack.Misleads s'.model.tree.level s'.model.tree.floats n
        promote (Stack.without gone s.model.stack.toList) := by
  obtain ⟨l, l', hl, hl', -, hrearranges⟩ := h.exists_lists hs
  rw [Model.Ordered, hl.toList_eq] at hordered
  rw [Model.Ordered, hl'.toList_eq, hl.toList_eq]
  have hfloats (m : NodeId) (hm : s'.model.tree.standing? m = s.model.tree.standing? m) :
      (!s'.model.tree.floats m) = !s.model.tree.floats m := by
    rw [Tree.floats_of_standing hm]
  cases placed with
  | none =>
    obtain rfl : l' = Stack.without gone l := hrearranges
    have hstays := h.ascends_others hl.1 hordered (List.Sublist.refl _) (by simp) hfloats
    refine ⟨fun _ => ?_, fun _ => hstays⟩
    rintro ⟨n, promote, hnone, -⟩
    cases hnone
  | some place =>
    obtain ⟨n, promote⟩ := place
    have hnodup := hl.1.sublist (Stack.sublist_without gone l)
    have hothers := h.ascends_others (k := (Stack.without gone l).erase n) hl.1 hordered
      List.erase_sublist (not_placed_of_mem_erase hnodup) hfloats
    have hmoves : Stack.Moves s'.model.tree s'.settings.autoRaise n promote
      (Stack.without gone l) l' := hrearranges
    cases hn : s'.model.tree.floats n with
    | true =>
      rw [hmoves.filter_eq (by simp [hn])]
      refine ⟨fun _ => ?_, fun _ => hothers⟩
      rintro ⟨m, promote', hplace, hm, -⟩
      obtain ⟨rfl, -⟩ := Prod.mk.inj (Option.some.inj hplace)
      rw [hn] at hm
      cases hm
    | false =>
      have hsettles := hmoves.settled (by simp [hn])
      rw [hsettles.ascends_iff hn hothers, not_iff_not, Stack.misleads_erase_iff]
      constructor
      · exact fun hmisled => ⟨n, promote, rfl, hn, hmisled⟩
      · rintro ⟨m, promote', hplace, -, hmisled⟩
        obtain ⟨rfl, rfl⟩ := Prod.mk.inj (Option.some.inj hplace)
        exact hmisled

theorem ordered_perform_iff {s : Stage} (hs : s.model.Sound) (hordered : s.model.Ordered)
    (op : Operation) : (s.perform op).model.Ordered ↔ ¬ s.Misled op := by
  rcases (perform_spec hs op).2 with ⟨new, rfl⟩ | hevolves
  · refine ⟨fun _ => ?_, fun _ => hordered⟩
    rintro ⟨n, promote, hnone, -⟩
    cases hnone
  · exact hevolves.ordered_iff hs hordered

end Stage

theorem Model.ordered_fresh (outputs : List (String × Rect)) (names : List String) :
    (Model.fresh outputs names).Ordered := by
  obtain ⟨-, hstack, -⟩ := Model.isBlank_fresh outputs names
  rw [Model.Ordered, hstack, Stack.Holds.empty.toList_eq]
  exact List.Pairwise.nil

/-- However the setting changes in between, the windows that do not float are in order after
every operation, if and only if no operation is misled. -/
theorem Stage.ordered_run_iff (outputs : List (String × Rect)) (names : List String)
    (settings : Settings) (ids : FeedbackIds) (ops : List Operation) :
    (∀ before, before <+: ops → ((fresh outputs names settings ids).run before).model.Ordered) ↔
      ∀ before op, before ++ [op] <+: ops →
        ¬ ((fresh outputs names settings ids).run before).Misled op := by
  have hsound (before : List Operation) :=
    sound_run (sound_fresh outputs names settings ids) before
  have hstep (before : List Operation) (op : Operation) :
      (fresh outputs names settings ids).run (before ++ [op]) =
        ((fresh outputs names settings ids).run before).perform op :=
    run_append _ before [op]
  constructor
  · intro hall before op hprefix
    have hbefore := hall before ((List.prefix_append before [op]).trans hprefix)
    have hafter := hall (before ++ [op]) hprefix
    rw [hstep] at hafter
    exact (ordered_perform_iff (hsound before) hbefore op).1 hafter
  · intro hnone before
    induction before using List.reverseRecOn with
    | nil => exact fun _ => Model.ordered_fresh outputs names
    | append_singleton before op ih =>
      intro hprefix
      have hbefore := ih ((List.prefix_append before [op]).trans hprefix)
      rw [hstep]
      exact (ordered_perform_iff (hsound before) hbefore op).2 (hnone before op hprefix)

/-- The lowest of three windows floats in an upper layer without being moved; the highest one,
made fullscreen, goes to the bottom, as if that floating window were at the front. -/
theorem Stage.not_ordered_of_unraised :
    ¬ ((fresh [("S", ⟨0, 0, 640, 480⟩)] ["I"] .standard .unavailable).run
      [.manage 1 ⟨"", ""⟩ .standard, .manage 2 ⟨"", ""⟩ .standard, .manage 3 ⟨"", ""⟩ .standard,
        .settings { Settings.standard with autoRaise := false },
        .setState (.window 1) .floating, .setLayer (.window 1) .above,
        .setState (.window 3) .fullscreen]).model.Ordered := by
  decide +kernel

end Tiling
