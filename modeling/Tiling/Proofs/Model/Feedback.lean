import Mathlib.Data.List.Nodup
import Mathlib.Logic.Relation
import Tiling.Proofs.Model.Calm
import Tiling.Proofs.Model.Edits
/-!
# Windows that show preselections

The display makes these windows on demand, and none of them may be left over or be destroyed
twice. The history tells which have been made and not destroyed; these are just the ones that
are noted down in the tree.
-/

namespace Tiling

/-- What becomes of a window that shows a preselection. -/
inductive Mark where
  | made (w : Window)
  | destroyed (w : Window)
  deriving DecidableEq, Repr

def Effect.mark? : Effect → Option Mark
  | .request (.createFeedback _ _ granted) => granted.map Mark.made
  | .request (.destroy w) => some (.destroyed w)
  | _ => none

/-- The display grants no window twice. -/
def FeedbackIds.Distinct (ids : FeedbackIds) : Prop :=
  ∀ i j w, ids.answer i = some w → ids.answer j = some w → i = j

theorem FeedbackIds.eq_of_counting {first step count k : Nat}
    (h : (counting first step count).answer k = some w) :
    k < count ∧ w = UInt32.ofNat (first + k * step) := by
  simp only [counting] at h
  split at h
  · exact ⟨‹_›, (Option.some.inj h).symm⟩
  · cases h

theorem FeedbackIds.distinct_counting {first step count : Nat} (hstep : 0 < step)
    (hroom : first + count * step ≤ UInt32.size) : (counting first step count).Distinct := by
  intro i j w hi hj
  have hone (k : Nat) (hk : (counting first step count).answer k = some w) :
      w.toNat = first + k * step := by
    obtain ⟨hlt, rfl⟩ := eq_of_counting hk
    have hbound : k * step < count * step := Nat.mul_lt_mul_of_pos_right hlt hstep
    exact UInt32.toNat_ofNat_of_lt' (by omega)
  have heq : i * step = j * step := by
    have hi := hone i hi
    have hj := hone j hj
    omega
  exact Nat.eq_of_mul_eq_mul_right hstep heq

theorem Stack.PlacementEffect.mark?_eq {e : Effect} (h : Stack.PlacementEffect e) :
    e.mark? = none := by
  cases h with
  | beside relation => cases relation <;> rfl
  | told => rfl
  | listed => rfl

/-! ## The tree -/

namespace Tree

theorem feedback?_of_presel {t t' : Tree} {n : NodeId} (h : t'.presel? n = t.presel? n) :
    t'.feedback? n = t.feedback? n := by
  rw [feedback?_eq, h, feedback?_eq]

theorem Forest.presel?_of_client {t : Tree} {shapes : List Shape} (h : t.Forest shapes) {n : NodeId}
    (hn : t.client? n = none) : t.presel? n = none := by
  cases hget : t.get? n with
  | none => rw [presel?, hget, Option.bind_none]
  | some node =>
    rw [client?, hget, Option.bind_some] at hn
    rw [presel?, hget, Option.bind_some]
    exact h.presel_of_client_none hget hn

/-- A node that an edit takes in or gives up without its client has no preselection. -/
theorem KeepsContents.presel?_eq {t t' : Tree} {shapes : List Shape} (hkeeps : t.KeepsContents t')
    (h : t.Forest shapes) {n : NodeId} (hn : t'.client? n = t.client? n) :
    t'.presel? n = t.presel? n := by
  rcases hkeeps n with heq | hnone | ⟨hnone, hpresel⟩
  · exact presel?_of_contents? heq
  · rw [client?, hnone, Option.bind_none] at hn
    rw [h.presel?_of_client hn.symm, presel?, hnone, Option.bind_none]
  · rw [hpresel, presel?, hnone, Option.bind_none]

theorem KeepsContents.presel?_none {t t' : Tree} (hkeeps : t.KeepsContents t') {n : NodeId}
    (hn : t.presel? n = none) : t'.presel? n = none := by
  rcases hkeeps n with heq | hnone | ⟨-, hpresel⟩
  · rw [presel?_of_contents? heq, hn]
  · rw [presel?, hnone, Option.bind_none]
  · exact hpresel

theorem feedback?_arrange (t : Tree) (root : Option NodeId) (area : Rect) (layout : Layout)
    (n : NodeId) : (t.arrange root area layout).1.feedback? n = t.feedback? n := by
  have hview (u : Tree) : u.feedback? n = ((u.get? n).map Node.feedback?).join := by
    rw [feedback?]
    cases u.get? n <;> rfl
  rw [hview, hview, map_get?_arrange fun _ _ => rfl]

end Tree

/-! ## The ledger -/

namespace Stage

/-- The windows that were made and destroyed, the latest first. -/
def ledger (s : Stage) : List Mark := s.history.filterMap Effect.mark?

/-- The windows that have been made and not destroyed are noted down in the tree, each in one
node. -/
structure Accounted (s : Stage) : Prop where
  recorded : ∀ w, (.made w ∈ s.ledger ∧ .destroyed w ∉ s.ledger) ↔
    ∃ n, s.model.tree.feedback? n = some w
  once : ∀ n m w, s.model.tree.feedback? n = some w → s.model.tree.feedback? m = some w → n = m
  distinct : s.ledger.Nodup
  order : ∀ w before, .destroyed w :: before <:+ s.ledger → .made w ∈ before
  granted : ∀ w, .made w ∈ s.ledger → ∃ k < s.feedbackIds.asked, s.feedbackIds.answer k = some w

/-- Strokes of these kinds leave these windows alone. -/
def StrokeKind.isStill : StrokeKind → Bool
  | .destroy | .grant | .clear | .mark => false
  | _ => true

/-- Nothing becomes of these windows. -/
structure Still (s u : Stage) : Prop where
  ledger : u.ledger = s.ledger
  shows : ∀ n, u.model.tree.feedback? n = s.model.tree.feedback? n
  ids : u.feedbackIds = s.feedbackIds

/-- The window of a node is destroyed, if there is one. -/
structure Clears (s u : Stage) (n : NodeId) : Prop where
  ledger : u.ledger = ((s.model.tree.feedback? n).map Mark.destroyed).toList ++ s.ledger
  shows : ∀ m, u.model.tree.feedback? m = if m = n then none else s.model.tree.feedback? m
  ids : u.feedbackIds = s.feedbackIds

/-- A window is asked for to show the preselection of a node that has none. -/
structure Grants (s u : Stage) (n : NodeId) : Prop where
  bare : s.model.tree.feedback? n = none
  ledger : u.ledger = (s.feedbackIds.next.1.map Mark.made).toList ++ s.ledger
  shows : ∀ m, u.model.tree.feedback? m =
    if m = n then s.feedbackIds.next.1 else s.model.tree.feedback? m
  ids : u.feedbackIds = s.feedbackIds.next.2

inductive Move (s u : Stage) : Prop where
  | still (h : s.Still u)
  | clears (n : NodeId) (h : s.Clears u n)
  | grants (n : NodeId) (h : s.Grants u n)

namespace Accounted

variable {s u : Stage} {w : Window}

theorem made_of_destroyed (h : s.Accounted) (hw : .destroyed w ∈ s.ledger) :
    .made w ∈ s.ledger := by
  obtain ⟨later, before, hsplit⟩ := List.append_of_mem hw
  have hbefore := h.order w before ⟨later, hsplit.symm⟩
  rw [hsplit]
  exact List.mem_append_right _ (List.mem_cons_of_mem _ hbefore)

theorem congr (h : s.Accounted) (hledger : u.ledger = s.ledger)
    (hshows : ∀ n, u.model.tree.feedback? n = s.model.tree.feedback? n)
    (hids : u.feedbackIds = s.feedbackIds ∨ u.feedbackIds = s.feedbackIds.next.2) :
    u.Accounted where
  recorded w := by
    rw [hledger, h.recorded]
    simp only [hshows]
  once n m w hn hm := by
    rw [hshows] at hn hm
    exact h.once n m w hn hm
  distinct := hledger ▸ h.distinct
  order := hledger ▸ h.order
  granted w hw := by
    obtain ⟨k, hk, hanswer⟩ := h.granted w (hledger ▸ hw)
    rcases hids with hids | hids <;> rw [hids]
    · exact ⟨k, hk, hanswer⟩
    · exact ⟨k, Nat.lt_succ_of_lt hk, hanswer⟩

theorem order_cons (h : s.Accounted) {mark : Mark}
    (hmark : ∀ w, mark = .destroyed w → .made w ∈ s.ledger) :
    ∀ w before, .destroyed w :: before <:+ mark :: s.ledger → .made w ∈ before := by
  intro w before hsuffix
  rcases List.suffix_cons_iff.1 hsuffix with heq | hold
  · obtain ⟨hfirst, rfl⟩ := List.cons_eq_cons.1 heq
    exact hmark w hfirst.symm
  · exact h.order w before hold

theorem destroy {n : NodeId} (h : s.Accounted) (hn : s.model.tree.feedback? n = some w)
    (hledger : u.ledger = .destroyed w :: s.ledger)
    (hshows : ∀ m v, u.model.tree.feedback? m = some v ↔
      s.model.tree.feedback? m = some v ∧ v ≠ w)
    (hids : u.feedbackIds = s.feedbackIds) : u.Accounted := by
  have hlive := (h.recorded w).2 ⟨n, hn⟩
  exact {
    recorded := fun v => by
      rw [hledger]
      simp only [hshows, exists_and_right, ← h.recorded]
      simp only [List.mem_cons, reduceCtorEq, false_or, Mark.destroyed.injEq, not_or]
      exact ⟨fun hv => ⟨⟨hv.1, hv.2.2⟩, hv.2.1⟩, fun hv => ⟨hv.1.1, hv.2, hv.1.2⟩⟩
    once := fun m m' v hm hm' => h.once m m' v ((hshows m v).1 hm).1 ((hshows m' v).1 hm').1
    distinct := by
      rw [hledger]
      exact List.nodup_cons.2 ⟨hlive.2, h.distinct⟩
    order := by
      rw [hledger]
      refine h.order_cons fun v hv => ?_
      rw [← Mark.destroyed.inj hv]
      exact hlive.1
    granted := fun v hv => by
      rw [hledger] at hv
      rw [hids]
      exact h.granted v (by simpa using hv) }

theorem make {n : NodeId} (h : s.Accounted) (hids : s.feedbackIds.Distinct)
    (hw : s.feedbackIds.next.1 = some w) (hledger : u.ledger = .made w :: s.ledger)
    (hshows : ∀ m v, u.model.tree.feedback? m = some v ↔
      (m = n ∧ v = w) ∨ s.model.tree.feedback? m = some v)
    (hnext : u.feedbackIds = s.feedbackIds.next.2) : u.Accounted := by
  -- the window is none of those that were granted before
  have hnew : .made w ∉ s.ledger := by
    intro hmade
    obtain ⟨k, hk, hanswer⟩ := h.granted w hmade
    exact Nat.ne_of_lt hk (hids k s.feedbackIds.asked w hanswer hw)
  have hold {m : NodeId} (hm : s.model.tree.feedback? m = some w) : False :=
    hnew ((h.recorded w).2 ⟨m, hm⟩).1
  exact {
    recorded := fun v => by
      simp only [hledger, hshows, exists_or, ← h.recorded, List.mem_cons, Mark.made.injEq,
        reduceCtorEq, false_or, exists_and_right, exists_eq, true_and]
      refine ⟨fun hv => hv.1.imp_right fun hmade => ⟨hmade, hv.2⟩, ?_⟩
      rintro (rfl | hv)
      · exact ⟨.inl rfl, fun hgone => hnew (h.made_of_destroyed hgone)⟩
      · exact ⟨.inr hv.1, hv.2⟩
    once := fun m m' v hm hm' => by
      rcases (hshows m v).1 hm with ⟨hmn, rfl⟩ | hm
      · rcases (hshows m' v).1 hm' with ⟨hmn', -⟩ | hm'
        · rw [hmn, hmn']
        · exact (hold hm').elim
      · rcases (hshows m' v).1 hm' with ⟨-, rfl⟩ | hm'
        · exact (hold hm).elim
        · exact h.once m m' v hm hm'
    distinct := by
      rw [hledger]
      exact List.nodup_cons.2 ⟨hnew, h.distinct⟩
    order := by
      rw [hledger]
      exact h.order_cons fun v hv => by cases hv
    granted := fun v hv => by
      rw [hledger] at hv
      rw [hnext]
      rcases List.mem_cons.1 hv with heq | hmade
      · rw [Mark.made.inj heq]
        exact ⟨s.feedbackIds.asked, Nat.lt_succ_self _, hw⟩
      · obtain ⟨k, hk, hanswer⟩ := h.granted v hmade
        exact ⟨k, Nat.lt_succ_of_lt hk, hanswer⟩ }

theorem clears {n : NodeId} (h : s.Accounted) (hu : s.Clears u n) : u.Accounted := by
  obtain ⟨hledger, hshows, hids⟩ := hu
  cases hn : s.model.tree.feedback? n with
  | none =>
    rw [hn] at hledger
    refine h.congr hledger (fun m => ?_) (.inl hids)
    exact (hshows m).trans (ite_eq_right_iff.2 fun heq => by rw [heq, hn])
  | some w =>
    rw [hn] at hledger
    refine h.destroy hn hledger (fun m v => ?_) hids
    rw [hshows]
    split
    · rename_i heq
      rw [heq, hn]
      simp [eq_comm]
    · rename_i hne
      refine ⟨fun hm => ⟨hm, ?_⟩, fun hm => hm.1⟩
      rintro rfl
      exact hne (h.once m n v hm hn)

theorem grants {n : NodeId} (h : s.Accounted) (hids : s.feedbackIds.Distinct) (hu : s.Grants u n) :
    u.Accounted := by
  obtain ⟨hbare, hledger, hshows, hnext⟩ := hu
  cases hw : s.feedbackIds.next.1 with
  | none =>
    rw [hw] at hledger hshows
    refine h.congr hledger (fun m => ?_) (.inr hnext)
    exact (hshows m).trans (ite_eq_right_iff.2 fun heq => by rw [heq, hbare])
  | some w =>
    rw [hw] at hledger hshows
    refine h.make (n := n) hids hw hledger (fun m v => ?_) hnext
    rw [hshows]
    split
    · rename_i heq
      rw [heq, hbare]
      simp [eq_comm]
    · rename_i hne
      simp [hne]

theorem move (h : s.Accounted) (hids : s.feedbackIds.Distinct) (hu : s.Move u) : u.Accounted := by
  cases hu with
  | still hu => exact h.congr hu.ledger hu.shows (.inl hu.ids)
  | clears n hu => exact h.clears hu
  | grants n hu => exact h.grants hids hu

end Accounted

theorem Move.answer {s u : Stage} (h : s.Move u) : u.feedbackIds.answer = s.feedbackIds.answer := by
  cases h with
  | still h => rw [h.ids]
  | clears n h => rw [h.ids]
  | grants n h =>
    rw [h.ids]
    rfl

/-! ## What leaves these windows alone -/

theorem ledger_emit (s : Stage) (es : List Effect) :
    (s.emit es).ledger = (es.filterMap Effect.mark?).reverse ++ s.ledger := by
  rw [ledger, emit, List.filterMap_append, List.filterMap_reverse]
  rfl

namespace Still

variable {s s' s'' : Stage}

theorem refl (s : Stage) : s.Still s := ⟨rfl, fun _ => rfl, rfl⟩

theorem trans (h : s.Still s') (h' : s'.Still s'') : s.Still s'' where
  ledger := h'.ledger.trans h.ledger
  shows n := (h'.shows n).trans (h.shows n)
  ids := h'.ids.trans h.ids

theorem emit (s : Stage) {es : List Effect} (h : ∀ e ∈ es, e.mark? = none) :
    s.Still (s.emit es) where
  ledger := by
    rw [ledger_emit, List.filterMap_eq_nil_iff.2 h]
    rfl
  shows _ := rfl
  ids := rfl

theorem request (s : Stage) {r : Request} (h : (Effect.request r).mark? = none) :
    s.Still (s.request r) :=
  emit s fun e he => by rwa [List.mem_singleton.1 he]

theorem announce (s : Stage) (topic : Topic) (words : List String) :
    s.Still (s.announce topic words) :=
  emit s fun e he => by
    rw [List.mem_singleton.1 he]
    rfl

theorem announceAt (s : Stage) (topic : Topic) (r : DesktopRef) (words : List String) :
    s.Still (s.announceAt topic r words) :=
  announce s topic _

theorem publishReport (s : Stage) : s.Still s.publishReport :=
  emit s fun e he => by
    rw [List.mem_singleton.1 he]
    rfl

theorem withModel (s : Stage) {m : Model}
    (h : ∀ n, m.tree.feedback? n = s.model.tree.feedback? n) : s.Still (s.withModel m) :=
  ⟨rfl, h, rfl⟩

theorem modifyTree (s : Stage) (n : NodeId) {f : Node → Node}
    (hf : ∀ node, (f node).presel = node.presel) :
    s.Still (s.modifyTree fun t => t.modify n f) :=
  withModel s fun m => Tree.feedback?_modify_of n m hf

theorem modifyClient (s : Stage) (n : NodeId) (f : Client → Client) :
    s.Still (s.modifyTree fun t => t.modifyClient n f) :=
  modifyTree s n fun _ => rfl

theorem applyLayout (s : Stage) (r : DesktopRef) : s.Still (s.applyLayout r) := by
  unfold Stage.applyLayout
  split
  · rename_i monitor d hmonitor hd
    have harranged : s.Still (s.withModel { s.model with
        tree := (s.model.tree.arrange d.root monitor.rect d.layout).1 }) :=
      withModel s fun n => Tree.feedback?_arrange _ _ _ _ n
    refine harranged.trans (emit _ fun e he => ?_)
    obtain ⟨r, hr, rfl⟩ := List.mem_map.1 he
    obtain ⟨place, -, rfl⟩ := List.mem_map.1 hr
    rfl
  · exact refl s

theorem restack (s : Stage) (n : NodeId) (promote : Bool) : s.Still (s.restack n promote) := by
  have hplaced : s.Still (s.withModel { s.model with
      stack := (s.model.stack.restack s.model.tree ((s.model.locate? n).bind s.model.root?) n
        promote s.settings.autoRaise).1 }) := withModel s fun _ => rfl
  exact hplaced.trans (emit _ fun e he => (Stack.mem_restack he).mark?_eq)

theorem setMapped (s : Stage) (r : DesktopRef) (value : Bool) :
    s.Still (s.setMapped r value) := by
  rw [setMapped_eq]
  refine emit s fun e he => ?_
  obtain ⟨w, -, rfl⟩ := List.mem_map.1 he
  cases value <;> rfl

theorem of_stroke {k : StrokeKind} (hk : k.isStill = true) (h : s.Stroke k s') : s.Still s' := by
  cases h with
  | announce => exact announce s _ _
  | report => exact publishReport s
  | configure | focus => exact request s rfl
  | map r value => exact setMapped s r value
  | arrange r => exact applyLayout s r
  | restack n promote => exact restack s n promote
  | raise => exact emit s fun _ he => (Stack.mem_raiseFeedback he).mark?_eq
  | state n | layer n | urgency n | float n => exact modifyClient s n _
  | flag n => exact modifyTree s n fun _ => rfl
  | activate | monitor | choose | layout => exact withModel s fun _ => rfl
  | settings => exact ⟨rfl, fun _ => rfl, rfl⟩
  | _ => cases hk

theorem of_path {kinds : List StrokeKind} (h : s.Path kinds s')
    (hkinds : kinds.all StrokeKind.isStill = true) : s.Still s' :=
  h.frame hkinds refl trans of_stroke

theorem focusNode (s : Stage) (n : Option NodeId) : s.Still (s.focusNode n) :=
  of_path (path_focusNode s n) rfl

end Still

/-! ## What does not -/

theorem ledger_request (s : Stage) (r : Request) :
    (s.request r).ledger = (Effect.request r).mark?.toList ++ s.ledger := by
  rw [request, ledger_emit, List.filterMap_cons]
  cases (Effect.request r).mark? <;> rfl

theorem clears_takePresel (s : Stage) (n : NodeId) : s.Clears (s.takePresel n).1 n := by
  have hfeedback : ((s.model.tree.get? n).bind Node.presel).bind Presel.feedback =
      s.model.tree.feedback? n := by
    rw [Tree.feedback?, Option.bind_assoc]
    rfl
  have hshows (m : NodeId) :
      (s.model.tree.modify n fun node => { node with presel := none }).feedback? m =
        if m = n then none else s.model.tree.feedback? m := by
    rw [Tree.feedback?_modify]
    by_cases hm : n = m
    · rw [if_pos hm, if_pos hm.symm]
      exact Option.bind_fun_none _
    · rw [if_neg hm, if_neg (Ne.symm hm)]
  unfold takePresel
  dsimp only
  rw [hfeedback]
  cases hn : s.model.tree.feedback? n with
  | none => exact ⟨by rw [hn]; rfl, hshows, rfl⟩
  | some w =>
    refine ⟨?_, hshows, rfl⟩
    rw [hn]
    exact ledger_request _ (.destroy w)

theorem move_choosePresel {s : Stage} {n : NodeId} (hn : (s.model.tree.get? n).isSome)
    (hbare : s.model.tree.feedback? n = none) (r : DesktopRef) (rect : Rect) (dir : Direction) :
    s.Move (s.choosePresel r n rect dir) := by
  obtain ⟨node, hnode⟩ := Option.isSome_iff_exists.1 hn
  have hshows (feedback : Option Window) (m : NodeId) :
      (s.model.tree.modify n fun node => { node with presel := some ⟨dir, feedback⟩ }).feedback? m =
        if m = n then feedback else s.model.tree.feedback? m := by
    rw [Tree.feedback?_modify]
    by_cases hm : n = m
    · rw [if_pos hm, if_pos hm.symm, hnode]
      rfl
    · rw [if_neg hm, if_neg (Ne.symm hm)]
  unfold choosePresel
  cases s.model.isVisible r with
  | false =>
    refine .still ⟨rfl, fun m => (hshows none m).trans ?_, rfl⟩
    exact ite_eq_right_iff.2 fun heq => by rw [heq, hbare]
  | true =>
    refine .grants n ⟨hbare, ?_, hshows _, rfl⟩
    exact ledger_request _ (.createFeedback _ _ s.feedbackIds.next.1)

/-- A chain of steps. -/
def Moves : Stage → Stage → Prop := Relation.ReflTransGen Move

/-- A step that asks for no window. -/
inductive Fade (s u : Stage) : Prop where
  | still (h : s.Still u)
  | clears (n : NodeId) (h : s.Clears u n)

/-- A chain of steps that ask for no window. -/
def Fades : Stage → Stage → Prop := Relation.ReflTransGen Fade

theorem Moves.presel (s : Stage) (n : NodeId) (dir : Option Direction) :
    s.Moves (s.presel n dir) := by
  have hlast (u : Stage) (r : DesktopRef) (words : List String) :
      u.Move ((u.announceAt .nodePresel r words).raiseFeedback r) :=
    .still ((Still.announceAt u _ r words).trans (Still.of_stroke rfl (.raise r)))
  unfold Stage.presel
  split
  · rename_i r node hr hnode
    have hcleared := clears_takePresel s n
    have htaken : s.Moves (s.takePresel n).1 := Relation.ReflTransGen.single (.clears n hcleared)
    cases dir with
    | none => exact htaken.tail (hlast _ _ _)
    | some dir =>
      have hlive : ((s.takePresel n).1.model.tree.get? n).isSome := by
        rw [model_takePresel, Tree.get?_modify_same _ hnode, Option.isSome_some]
      have hbare : (s.takePresel n).1.model.tree.feedback? n = none := by
        rw [hcleared.shows, if_pos rfl]
      have hchosen : s.Moves ((s.takePresel n).1.choosePresel r n node.rect dir) :=
        htaken.tail (move_choosePresel hlive hbare r node.rect dir)
      exact hchosen.tail (hlast _ _ _)
  · exact Relation.ReflTransGen.refl

namespace Fades

variable {s u v : Stage}

theorem still (h : s.Still u) : s.Fades u := Relation.ReflTransGen.single (.still h)

theorem thenStill (h : s.Fades u) (hv : u.Still v) : s.Fades v := h.tail (.still hv)

theorem moves (h : s.Fades u) : s.Moves u := by
  induction h with
  | refl => exact Relation.ReflTransGen.refl
  | tail _ hstep ih =>
    cases hstep with
    | still h => exact ih.tail (.still h)
    | clears n h => exact ih.tail (.clears n h)

/-- What a node shows afterwards it has shown before. -/
theorem shows (h : s.Fades u) {n : NodeId} {w : Window} (hw : u.model.tree.feedback? n = some w) :
    s.model.tree.feedback? n = some w := by
  induction h with
  | refl => exact hw
  | tail _ hstep ih =>
    cases hstep with
    | still h => exact ih (by rw [← h.shows, hw])
    | clears m h =>
      rw [h.shows] at hw
      split at hw
      · cases hw
      · exact ih hw

theorem insertClient (hs : s.model.Sound) {r : DesktopRef} {d : Desktop}
    (hd : s.model.desktop? r = some d) (client : Client) (csq : Consequences) :
    s.Fades (s.insertClient r d client csq).1 := by
  obtain ⟨u, presel, htaken, hbody⟩ := insertClient_eq s r d client csq
  have hu : s.Keeps u ∧ s.Fades u := by
    rcases htaken with rfl | ⟨f, rfl⟩
    · exact ⟨Keeps.refl u, Relation.ReflTransGen.refl⟩
    · exact ⟨keeps_takePresel s f, Relation.ReflTransGen.single (.clears f (clears_takePresel s f))⟩
  obtain ⟨shapes, h⟩ := hs
  have h := hu.1.shaped h
  obtain ⟨left, o, right, rfl, howns, -⟩ := h.edit ((hu.1.desktop? r).trans hd)
  have hforest := h.forest.perm (reduceOption_perm left o right)
  obtain ⟨hroot, hnone, hsome⟩ := howns.cases
  obtain ⟨t, shape, n, hleaf, -, -, -, hunused, hclient, hother⟩ :=
    Tree.insertLeaf_spec hforest hnone hsome client
      (presel.any fun p => p.dir == .west || p.dir == .north)
  have hkeeps := Tree.insertLeaf_contents hforest hnone hsome client
    (presel.any fun p => p.dir == .west || p.dir == .north)
  rw [hleaf] at hkeeps
  rw [← hroot] at hleaf
  rw [hbody t _ n hleaf]
  refine hu.2.thenStill (Still.withModel u fun m => ?_)
  have hflags : (t.modify n fun node => { node with flags := csq.flags }).feedback? m =
      t.feedback? m := Tree.feedback?_modify_of n m fun _ => rfl
  refine hflags.trans (Tree.feedback?_of_presel ?_)
  by_cases hmn : m = n
  · have hbare := hforest.presel?_of_client hunused
    rw [hmn, hbare, hkeeps.presel?_none hbare]
  · exact hkeeps.presel?_eq hforest (hother m hmn)

theorem manage (hs : s.model.Sound) (w : Window) (named : WindowClass) (csq : Consequences) :
    s.Fades (s.manage w named csq).1 := by
  unfold Stage.manage
  split
  · exact Relation.ReflTransGen.refl
  split
  · exact still (Still.request s rfl)
  rename_i r hr
  split
  · rename_i monitor d hmonitor hd
    have hinserted := insertClient hs hd (newClient w named csq monitor.rect) csq
    dsimp only
    generalize s.insertClient r d (newClient w named csq monitor.rect) csq = inserted at *
    obtain ⟨u, n⟩ := inserted
    dsimp only at hinserted ⊢
    generalize [Numeral.hex8 ((d.focus.bind u.model.tree.window?).getD 0), Numeral.hex8 w] = words
    have hlaid : s.Fades (((u.announceAt .nodeAdd r words).request (.watch w)).applyLayout r) :=
      hinserted.thenStill ((Still.announceAt u _ r words).trans
        ((Still.request _ rfl).trans (Still.applyLayout _ r)))
    generalize ((u.announceAt .nodeAdd r words).request (.watch w)).applyLayout r = x at *
    have hmapped : x.Still (if x.model.isVisible r then x.request (.map w) else x) := by
      split
      · exact Still.request x rfl
      · exact Still.refl x
    generalize (if x.model.isVisible r then x.request (.map w) else x) = y at *
    apply hlaid.thenStill
    apply (hmapped.trans (Still.restack y n true)).trans
    split
    · exact Still.focusNode _ _
    · exact Still.publishReport _
  · exact Relation.ReflTransGen.refl

end Fades

/-- What a node has noted down goes with its client. -/
theorem feedback?_removeClient {s : Stage} (hs : s.model.Sound) {n : NodeId}
    (hn : (s.model.tree.client? n).isSome) {r : DesktopRef} {d : Desktop}
    (hlocate : s.model.locate? n = some r) (hd : s.model.desktop? r = some d) (m : NodeId) :
    (s.removeClient r d n).model.tree.feedback? m =
      if m = n then none else s.model.tree.feedback? m := by
  obtain ⟨shapes, h⟩ := hs
  obtain ⟨left, shape, right, rfl, hleaf, howns⟩ := h.split_client hn hlocate hd
  have hforest := h.forest.perm (reduceOption_perm left (some shape) right)
  obtain ⟨tree, -, -, hforest', hgone, hother, -⟩ := Tree.removeLeaf_spec hforest hleaf
  have hkeeps := Tree.removeLeaf_contents hforest hleaf
  rw [← howns.1] at hforest' hgone hother hkeeps
  show (s.model.tree.removeLeaf d.root n).1.feedback? m = _
  split
  · rename_i heq
    rw [heq, Tree.feedback?_eq, hforest'.presel?_of_client hgone, Option.bind_none]
  · rename_i hne
    exact Tree.feedback?_of_presel (hkeeps.presel?_eq hforest (hother m hne))

namespace Fades

variable {s : Stage}

theorem unmanage (hs : s.model.Sound) (w : Window) : s.Fades (s.unmanage w).1 := by
  unfold Stage.unmanage
  split
  · exact Relation.ReflTransGen.refl
  rename_i n hn
  have hlive : (s.model.tree.client? n).isSome := by
    rw [← Model.isSome_window?, Tree.window?_of_findWindow hn, Option.isSome_some]
  obtain ⟨r, d, hlocate, hd⟩ := locate_client hs hlive
  simp only [hlocate]
  have hannounced := Still.announceAt s .nodeRemove r [Numeral.hex8 w]
  have hmodel : (s.announceAt .nodeRemove r [Numeral.hex8 w]).model = s.model := rfl
  generalize s.announceAt .nodeRemove r [Numeral.hex8 w] = u at *
  -- the window of the preselection is destroyed before the leaf goes
  have hrest (v : Stage) (hv : v.model = s.model) (hids : v.feedbackIds = s.feedbackIds)
      (hledger : v.ledger = ((s.model.tree.feedback? n).map Mark.destroyed).toList ++ s.ledger) :
      s.Fades ((v.removeClient r d n).applyLayout r) := by
    have hcleared : s.Clears (v.removeClient r d n) n := by
      refine ⟨hledger, fun m => ?_, hids⟩
      rw [feedback?_removeClient (hv ▸ hs) (hv ▸ hlive) (hv ▸ hlocate) (hv ▸ hd), hv]
    exact (Relation.ReflTransGen.single (.clears n hcleared)).tail (.still (Still.applyLayout _ r))
  have hlast (v : Stage) (ws : List Window) (c : Prop) [Decidable c] (focus : Option NodeId) :
      v.Still (if c then ((v.request (.clientList ws)).focusNode focus, true)
        else ((v.request (.clientList ws)).publishReport, true)).1 := by
    have hlisted : v.Still (v.request (.clientList ws)) := Still.request v rfl
    split
    · exact hlisted.trans (Still.focusNode _ focus)
    · exact hlisted.trans (Still.publishReport _)
  cases hfeedback : (u.model.tree.get? n).bind Node.feedback? with
  | none =>
    have hdesktop : u.model.desktop? r = some d := hmodel ▸ hd
    simp only [hdesktop]
    have hleft := hrest u hmodel hannounced.ids (by
      rw [hannounced.ledger, Tree.feedback?, ← hmodel, hfeedback]
      rfl)
    generalize (u.removeClient r d n).applyLayout r = v at *
    exact hleft.thenStill (hlast v _ _ _)
  | some feedback =>
    have hdesktop : (u.request (.destroy feedback)).model.desktop? r = some d := hmodel ▸ hd
    simp only [hdesktop]
    have hleft := hrest (u.request (.destroy feedback)) hmodel hannounced.ids (by
      rw [ledger_request, hannounced.ledger, Tree.feedback?, ← hmodel, hfeedback]
      rfl)
    generalize ((u.request (.destroy feedback)).removeClient r d n).applyLayout r = v at *
    exact hleft.thenStill (hlast v _ _ _)

end Fades

end Stage

/-! ## Operations -/

/-- The operation chooses a preselection, or takes one back. -/
def Operation.preselects : Operation → Bool
  | .presel .. => true
  | _ => false

namespace Stage

theorem still_perform (s : Stage) {op : Operation} (hop : op.keepsWindows = true)
    (hpresel : op.preselects = false) : s.Still (s.perform op) := by
  refine Still.of_path (path_perform s hop) ?_
  cases op <;> first | rfl | cases hpresel

/-- Only a preselection asks for a window. -/
theorem fades_perform {s : Stage} (hs : s.model.Sound) {op : Operation}
    (hpresel : op.preselects = false) : s.Fades (s.perform op) := by
  cases op with
  | manage w named csq => exact Fades.manage hs w named csq
  | unmanage w => exact Fades.unmanage hs w
  | _ => exact Fades.still (still_perform s rfl hpresel)

theorem moves_perform {s : Stage} (hs : s.model.Sound) (op : Operation) :
    s.Moves (s.perform op) := by
  cases op with
  | presel target dir =>
    rw [perform, onTarget]
    split
    · exact Relation.ReflTransGen.refl
    · exact Moves.presel s _ dir
  | _ => exact (fades_perform hs rfl).moves

/-! ## Runs -/

theorem Accounted.moves {s u : Stage} (h : s.Accounted) (hids : s.feedbackIds.Distinct)
    (hu : s.Moves u) : u.Accounted ∧ u.feedbackIds.Distinct := by
  induction hu with
  | refl => exact ⟨h, hids⟩
  | tail _ hmove ih =>
    obtain ⟨haccounted, hdistinct⟩ := ih
    refine ⟨haccounted.move hdistinct hmove, ?_⟩
    rw [FeedbackIds.Distinct, hmove.answer]
    exact hdistinct

theorem Accounted.run {s : Stage} (h : s.Accounted) (hs : s.model.Sound)
    (hids : s.feedbackIds.Distinct) (ops : List Operation) : (s.run ops).Accounted := by
  induction ops generalizing s with
  | nil => exact h
  | cons op ops ih =>
    obtain ⟨haccounted, hdistinct⟩ := h.moves hids (moves_perform hs op)
    exact ih haccounted (perform_spec hs op).1 hdistinct

theorem accounted_fresh (outputs : List (String × Rect)) (names : List String)
    (settings : Settings) (ids : FeedbackIds) :
    (fresh outputs names settings ids).Accounted := by
  have hempty (n : NodeId) : (fresh outputs names settings ids).model.tree.feedback? n = none := by
    show (Model.fresh outputs names).tree.feedback? n = none
    rw [(Model.isBlank_fresh outputs names).1, Tree.feedback?, Tree.get?, Tree.empty,
      Slots.get?_empty, Option.bind_none]
  exact {
    recorded := fun w => by
      simp only [hempty]
      simp [ledger, fresh]
    once := fun n m w hn => by
      rw [hempty] at hn
      cases hn
    distinct := List.nodup_nil
    order := fun w before hsuffix => by
      have hlength := hsuffix.length_le
      simp [ledger, fresh] at hlength
    granted := fun w hw => by cases hw }

/-- In a run on one display these windows are neither left over nor destroyed twice. -/
theorem accounted_run (outputs : List (String × Rect)) (names : List String) (settings : Settings)
    {ids : FeedbackIds} (hids : ids.Distinct) (ops : List Operation) :
    ((fresh outputs names settings ids).run ops).Accounted :=
  (accounted_fresh outputs names settings ids).run (sound_fresh outputs names settings ids) hids ops

/-- A preselection is chosen anew, used up by the next window, and goes with that window. -/
def preselected : List Operation :=
  [.manage 1 .unknown .standard, .presel .focused (some .west), .presel .focused (some .north),
    .manage 2 .unknown .standard, .presel .focused (some .east), .unmanage 2]

theorem accounted_preselected :
    (FeedbackIds.counting 100 1 3).Distinct ∧
      ((fresh [("screen0", ⟨0, 0, 1920, 1080⟩)] ["I"] .standard (.counting 100 1 3)).run
        preselected).Accounted := by
  have hids : (FeedbackIds.counting 100 1 3).Distinct :=
    FeedbackIds.distinct_counting (by decide) (by decide)
  exact ⟨hids, accounted_run _ _ _ hids preselected⟩

example : ((fresh [("screen0", ⟨0, 0, 1920, 1080⟩)] ["I"] .standard (.counting 100 1 3)).run
    preselected).ledger =
      [.destroyed 102, .made 102, .destroyed 101, .made 101, .destroyed 100, .made 100] := by
  decide +kernel

end Stage

end Tiling
