import Tiling.Proofs.Model.Steps
import Tiling.Proofs.Stack.Shown
/-!
# What the display and the listeners see of the stack

The display keeps an order of all its windows, the stacked ones and any others, and moves
windows as it is asked to.  The root window lists what was last published, and listeners hear of
placements. All three go along with the stack of the model, step by step.
-/

namespace Tiling

/-! ## The order on the display -/

namespace Request

/-- Moves a window directly above or below another one; nothing happens unless both exist and
differ. -/
def move (relation : Relation) (window sibling : Window) (order : List Window) : List Window :=
  if window ∈ order ∧ sibling ∈ order ∧ window ≠ sibling then
    putBeside relation window sibling (order.erase window)
  else order

/-- The order of all windows, bottom first, after a request.  A new window comes to the front. -/
def reorder (order : List Window) : Request → List Window
  | .stackAbove window sibling => move .above window sibling order
  | .stackBelow window sibling => move .below window sibling order
  | .createFeedback _ _ (some window) => if window ∈ order then order else order ++ [window]
  | .destroy window => order.erase window
  | _ => order

end Request

namespace Effect

def reorder (order : List Window) : Effect → List Window
  | .request r => r.reorder order
  | .message _ => order

/-- The windows that a request publishes. -/
def published? : Effect → Option (List Window)
  | .request (.clientList windows) => some windows
  | _ => none

/-- The message on a topic. -/
def told? (topic : Topic) : Effect → Option Message
  | .message m => if m.topics = .single topic then some m else none
  | .request _ => none

/-- What there is to tell of a request that places one of some windows. -/
def placement? (windows : List Window) : Effect → Option Message
  | .request (.stackAbove window sibling) =>
    if window ∈ windows then some (Stack.placementMessage window sibling .above) else none
  | .request (.stackBelow window sibling) =>
    if window ∈ windows then some (Stack.placementMessage window sibling .below) else none
  | _ => none

end Effect

/-! ## Effects that leave the order alone -/

/-- An effect that moves none of some windows, publishes no list and tells of no placement. -/
structure Effect.Calm (windows : List Window) (e : Effect) : Prop where
  published : e.published? = none
  told : e.told? .nodeStack = none
  placement : e.placement? windows = none
  nodup : ∀ order : List Window, order.Nodup → (e.reorder order).Nodup
  order : ∀ order : List Window, order.Nodup →
    ((e.reorder order).filter fun w => w ∈ windows) = order.filter fun w => w ∈ windows

theorem Request.nodup_move (relation : Relation) (w sibling : Window) {order : List Window}
    (hnodup : order.Nodup) : (move relation w sibling order).Nodup := by
  unfold move
  split
  · rename_i h
    have hsibling : sibling ∈ order.erase w := (List.mem_erase_of_ne (Ne.symm h.2.2)).2 h.2.1
    exact nodup_putBeside hsibling hnodup.not_mem_erase (hnodup.erase w)
  · exact hnodup

theorem Effect.Calm.of_silent {windows : List Window} {e : Effect}
    (hpublished : e.published? = none) (htold : e.told? .nodeStack = none)
    (hplacement : e.placement? windows = none)
    (horder : ∀ order, e.reorder order = order) : e.Calm windows where
  published := hpublished
  told := htold
  placement := hplacement
  nodup order h := by rwa [horder]
  order order _ := by rw [horder]

/-- What is quiet is calm: it may move the windows that show preselections, and no others. -/
theorem Effect.Quiet.calm {feedback : Window → Prop} {windows : List Window} {e : Effect}
    (h : Effect.Quiet feedback e) (hw : ∀ w, feedback w → w ∉ windows) : e.Calm windows := by
  cases h with
  | message h => exact .of_silent rfl (if_neg h) rfl fun _ => rfl
  | map | unmap | watch | focus => exact .of_silent rfl rfl rfl fun _ => rfl
  | @createFeedback rect color granted h =>
    cases granted with
    | none => exact .of_silent rfl rfl rfl fun _ => rfl
    | some w =>
      have hnot := hw w (h w rfl)
      refine ⟨rfl, rfl, rfl, fun order hnodup => ?_, fun order hnodup => ?_⟩
      · simp only [Effect.reorder, Request.reorder]
        split
        · exact hnodup
        · rename_i hmem
          exact List.nodup_append.2 ⟨hnodup, List.nodup_singleton w, fun x hx y hy heq =>
            hmem (by rwa [← List.mem_singleton.1 hy, ← heq])⟩
      · simp only [Effect.reorder, Request.reorder]
        split
        · rfl
        · simp [hnot]
  | @destroy w h =>
    exact ⟨rfl, rfl, rfl, fun order hnodup => hnodup.erase w, fun order hnodup =>
      filter_erase_of_not (by simpa using hw w h) order⟩
  | @raise w h top =>
    have hnot := hw w h
    refine ⟨rfl, rfl, if_neg hnot, fun order hnodup => Request.nodup_move _ _ _ hnodup,
      fun order hnodup => ?_⟩
    simp only [Effect.reorder, Request.reorder, Request.move]
    split
    · rw [filter_putBeside_of_not (by simpa using hnot), filter_erase_of_not (by simpa using hnot)]
    · rfl

namespace Stage

/-- The order of all windows on the display, which was `initial` at first. -/
def display (s : Stage) (initial : List Window) : List Window :=
  s.effects.foldl Effect.reorder initial

/-- The stacked windows, bottom first. -/
def stacked (s : Stage) : List Window := s.model.stack.windows s.model.tree

/-- The list of windows that was published last. -/
def published (s : Stage) : List Window :=
  ((s.effects.filterMap Effect.published?).getLast?).getD []

/-- The display, the published list and the listeners agree with the stack, and the windows that
are managed are among some that show no preselections. -/
structure Agrees (s : Stage) (initial windows : List Window) : Prop where
  nodup : (s.display initial).Nodup
  present : ∀ w ∈ windows, w ∈ s.display initial
  managed : ∀ n w, s.model.tree.window? n = some w → w ∈ windows
  distinct : ∀ w, s.Offers w → w ∉ windows
  shown : Shows (s.display initial) s.stacked
  published : s.published = s.stacked
  announced : s.effects.filterMap (Effect.told? .nodeStack) =
    s.effects.filterMap (Effect.placement? windows)

/-! ## Calm steps -/

section Calm

variable {initial windows : List Window}

theorem filterMap_calm {es : List Effect} (hcalm : ∀ e ∈ es, Effect.Calm windows e) :
    es.filterMap Effect.published? = [] ∧ es.filterMap (Effect.told? .nodeStack) = [] ∧
      es.filterMap (Effect.placement? windows) = [] :=
  ⟨List.filterMap_eq_nil_iff.2 fun e he => (hcalm e he).published,
    List.filterMap_eq_nil_iff.2 fun e he => (hcalm e he).told,
    List.filterMap_eq_nil_iff.2 fun e he => (hcalm e he).placement⟩

theorem display_calm {es : List Effect} (hcalm : ∀ e ∈ es, Effect.Calm windows e)
    {order : List Window} (hnodup : order.Nodup) :
    (es.foldl Effect.reorder order).Nodup ∧
      ((es.foldl Effect.reorder order).filter fun w => w ∈ windows) =
        order.filter fun w => w ∈ windows := by
  induction es generalizing order with
  | nil => exact ⟨hnodup, rfl⟩
  | cons e es ih =>
    have he := hcalm e List.mem_cons_self
    obtain ⟨hrest, hsame⟩ := ih (fun e' he' => hcalm e' (List.mem_cons_of_mem e he'))
      (he.nodup order hnodup)
    exact ⟨hrest, hsame.trans (he.order order hnodup)⟩

theorem mem_stacked {s : Stage} {w : Window} (h : w ∈ s.stacked) :
    ∃ n, s.model.tree.window? n = some w := by
  obtain ⟨n, -, hn⟩ := List.mem_filterMap.1 h
  exact ⟨n, hn⟩

/-- Calm effects show nothing new; a list with fewer windows is shown as well. -/
theorem Agrees.calm {s u : Stage} (h : s.Agrees initial windows) {es : List Effect}
    (heffects : u.effects = s.effects ++ es) (hcalm : ∀ e ∈ es, Effect.Calm windows e)
    (hmanaged : ∀ n w, u.model.tree.window? n = some w → w ∈ windows)
    (hoffers : ∀ w, u.Offers w → s.Offers w) (hstacked : u.stacked = s.stacked) :
    u.Agrees initial windows := by
  have hdisplay : u.display initial = es.foldl Effect.reorder (s.display initial) := by
    rw [display, heffects, List.foldl_append, display]
  obtain ⟨hnodup, hsame⟩ := display_calm hcalm h.nodup
  obtain ⟨hpublished, htold, hplacement⟩ := filterMap_calm hcalm
  rw [← hdisplay] at hnodup hsame
  have hsub : ∀ w ∈ s.stacked, w ∈ windows := fun w hw => by
    obtain ⟨n, hn⟩ := mem_stacked hw
    exact h.managed n w hn
  refine ⟨hnodup, fun w hw => ?_, hmanaged, fun w hw => h.distinct w (hoffers w hw), ?_, ?_, ?_⟩
  · exact mem_of_filter_mem hsame hw (h.present w hw)
  · rw [hstacked]
    exact h.shown.congr hsame hsub
  · rw [Stage.published, heffects, List.filterMap_append, hpublished, List.append_nil, hstacked]
    exact h.published
  · rw [heffects, List.filterMap_append, List.filterMap_append, htold, hplacement, h.announced]

/-- Effects end in a published list: what comes before leaves an order that shows the list and
tells of its placements, what comes after is calm. -/
theorem Agrees.publish {s u : Stage} (h : s.Agrees initial windows) {before after : List Effect}
    (heffects : u.effects = s.effects ++ (before ++ .request (.clientList u.stacked) :: after))
    (hnodup : (before.foldl Effect.reorder (s.display initial)).Nodup)
    (hpresent : ∀ w ∈ windows, w ∈ before.foldl Effect.reorder (s.display initial))
    (hshown : Shows (before.foldl Effect.reorder (s.display initial)) u.stacked)
    (htold : before.filterMap (Effect.told? .nodeStack) =
      before.filterMap (Effect.placement? windows))
    (hcalm : ∀ e ∈ after, Effect.Calm windows e)
    (hmanaged : ∀ n w, u.model.tree.window? n = some w → w ∈ windows)
    (hoffers : ∀ w, u.Offers w → s.Offers w) : u.Agrees initial windows := by
  obtain ⟨hafter, hsame⟩ := display_calm hcalm hnodup
  obtain ⟨hpublished, hnone, hnone'⟩ := filterMap_calm hcalm
  have hdisplay : u.display initial =
      after.foldl Effect.reorder (before.foldl Effect.reorder (s.display initial)) := by
    rw [display, heffects, List.foldl_append, List.foldl_append, List.foldl_cons, display]
    rfl
  rw [← hdisplay] at hafter hsame
  have hsub : ∀ w ∈ u.stacked, w ∈ windows := fun w hw => by
    obtain ⟨n, hn⟩ := mem_stacked hw
    exact hmanaged n w hn
  refine ⟨hafter, fun w hw => ?_, hmanaged, fun w hw => h.distinct w (hoffers w hw),
    hshown.congr hsame hsub, ?_, ?_⟩
  · exact mem_of_filter_mem hsame hw (hpresent w hw)
  · have hlist : (Effect.request (.clientList u.stacked) :: after).filterMap Effect.published? =
        [u.stacked] := by
      rw [List.filterMap_cons, hpublished]
      rfl
    rw [Stage.published, heffects, List.filterMap_append, List.filterMap_append, hlist,
      ← List.append_assoc, List.getLast?_concat, Option.getD_some]
  · have hlist : (Effect.request (.clientList u.stacked) :: after).filterMap
        (Effect.told? .nodeStack) = [] := by
      rw [List.filterMap_cons_none rfl, hnone]
    have hlist' : (Effect.request (.clientList u.stacked) :: after).filterMap
        (Effect.placement? windows) = [] := by
      rw [List.filterMap_cons_none rfl, hnone']
    rw [heffects, List.filterMap_append, List.filterMap_append, List.filterMap_append,
      List.filterMap_append, hlist, hlist', htold, h.announced]

end Calm

/-! ## Placements -/

theorem effects_emit (s : Stage) (es : List Effect) : (s.emit es).effects = s.effects ++ es := by
  rw [effects, emit, List.reverse_append, List.reverse_reverse, effects]

/-- The display moves a window as its leaf moves, and the listeners are told of it. -/
theorem placeLeaf_shown {t : Tree} {n : NodeId} {client : Client}
    (hclient : t.client? n = some client)
    (hinj : ∀ a b w, t.window? a = some w → t.window? b = some w → a = b)
    {windows order : List Window}
    (hwindows : ∀ m w, t.window? m = some w → w ∈ windows) (hnodup : order.Nodup)
    (hpresent : ∀ w ∈ windows, w ∈ order) {l : List NodeId} (hl : l.Nodup)
    (hshown : Shows order (l.filterMap t.window?)) (promote autoRaise : Bool) :
    let placed := Stack.placeLeaf t promote autoRaise l n
    (placed.2.foldl Effect.reorder order).Nodup ∧
      (∀ w ∈ windows, w ∈ placed.2.foldl Effect.reorder order) ∧
      Shows (placed.2.foldl Effect.reorder order) (placed.1.filterMap t.window?) ∧
      placed.2.filterMap (Effect.told? .nodeStack) =
        placed.2.filterMap (Effect.placement? windows) := by
  have hwindow : t.window? n = some client.window := by rw [Tree.window?, hclient, Option.map_some]
  have hmem := hwindows n client.window hwindow
  intro placed
  rcases Stack.placeLeaf_cases hclient promote autoRaise l with
    hstays | ⟨rfl, hfirst⟩ | ⟨m, w, relation, hm, hw, hmoves⟩
  · rw [show placed = (l, []) from hstays]
    exact ⟨hnodup, hpresent, hshown, rfl⟩
  · rw [show placed = ([n], []) from hfirst]
    refine ⟨hnodup, hpresent, ?_, rfl⟩
    show Shows order ([n].filterMap t.window?)
    rw [List.filterMap_cons_some hwindow, List.filterMap_nil]
    exact .singleton hnodup (hpresent _ hmem)
  · have hmn : m ≠ n := fun heq => hl.not_mem_erase (heq ▸ hm)
    have hne : client.window ≠ w := fun heq => hmn (hinj m n w hw (heq ▸ hwindow))
    have hsibling : w ∈ order := hpresent w (hwindows m w hw)
    have hothers : w ∈ order.erase client.window := (List.mem_erase_of_ne hne.symm).2 hsibling
    -- the windows of the list move as their leaves do, and so do those on the display
    have hlist : (putBeside relation n m (l.erase n)).filterMap t.window? =
        putBeside relation client.window w ((l.filterMap t.window?).erase client.window) := by
      rw [filterMap_putBeside hwindow hw fun x _ hx => hinj x m w hx hw,
        filterMap_erase hwindow (fun x _ hx => hinj x n _ hx hwindow) hl]
    have hmoved : (Stack.placementEffects client.window w relation).foldl Effect.reorder order =
        putBeside relation client.window w (order.erase client.window) := by
      cases relation <;> exact if_pos ⟨hpresent _ hmem, hsibling, hne⟩
    have htold : (Stack.placementEffects client.window w relation).filterMap
        (Effect.told? .nodeStack) = [Stack.placementMessage client.window w relation] := by
      cases relation <;> rfl
    have hplaced : (Stack.placementEffects client.window w relation).filterMap
        (Effect.placement? windows) = [Stack.placementMessage client.window w relation] := by
      cases relation <;>
        simp [Stack.placementEffects, Effect.placement?, Relation.request, hmem]
    rw [show placed = _ from hmoves]
    dsimp only
    rw [hmoved, hlist, htold, hplaced]
    refine ⟨nodup_putBeside hothers hnodup.not_mem_erase (hnodup.erase _), fun x hx => ?_, ?_, rfl⟩
    · rw [(putBeside_perm hothers).mem_iff, List.mem_cons]
      by_cases hxw : x = client.window
      · exact .inl hxw
      · exact .inr ((List.mem_erase_of_ne hxw).2 (hpresent x hx))
    · exact hshown.putBeside hnodup
        (List.mem_filterMap.2 ⟨m, List.mem_of_mem_erase hm, hw⟩) hne relation

theorem Agrees.restack {s : Stage} {initial windows : List Window} (h : s.Agrees initial windows)
    (hs : s.model.Sound) {n : NodeId} (hn : (s.model.tree.client? n).isSome) (promote : Bool) :
    (s.restack n promote).Agrees initial windows := by
  obtain ⟨shapes, hshaped⟩ := hs
  obtain ⟨l, hl, -⟩ := hshaped.stack
  obtain ⟨client, hclient⟩ := Option.isSome_iff_exists.1 hn
  have hstacked : s.stacked = l.filterMap s.model.tree.window? := hl.windows_eq _
  obtain ⟨hnodup, hpresent, hshown, htold⟩ := placeLeaf_shown hclient hshaped.windows h.managed
    h.nodup h.present hl.1 (hstacked ▸ h.shown) promote s.settings.autoRaise
  obtain ⟨hholds, hplaced⟩ := hl.restackLeaf_eq s.model.tree promote s.settings.autoRaise n
  have heq := Stack.restack_leaf (hshaped.forest.leaves_leaf hn) s.model.stack
    ((s.model.locate? n).bind s.model.root?) promote s.settings.autoRaise
  rw [hplaced] at heq
  generalize Stack.restackLeaf s.model.tree promote s.settings.autoRaise s.model.stack n = leaf at *
  generalize Stack.placeLeaf s.model.tree promote s.settings.autoRaise l n = placed at *
  have hrestack : s.restack n promote = (s.withModel { s.model with stack := leaf.1 }).emit
      (placed.2 ++ .request (.clientList (leaf.1.windows s.model.tree)) ::
        leaf.1.raiseFeedback s.model.tree ((s.model.locate? n).bind s.model.root?)) := by
    simp only [Stage.restack, heq]
  have hafter : (s.restack n promote).stacked = placed.1.filterMap s.model.tree.window? := by
    rw [hrestack]
    exact hholds.windows_eq s.model.tree
  have heffects : (s.restack n promote).effects = s.effects ++ (placed.2 ++
      .request (.clientList (s.restack n promote).stacked) ::
        leaf.1.raiseFeedback s.model.tree ((s.model.locate? n).bind s.model.root?)) := by
    rw [hrestack, effects_emit]
    rfl
  exact h.publish heffects hnodup hpresent (hafter ▸ hshown) htold
    (fun e he => (Quiet.raised he).calm h.distinct) h.managed fun w hw => hw

/-! ## Edits -/

theorem applyLayout_spec (s : Stage) (r : DesktopRef) :
    (∃ places : List (Window × Rect), (s.applyLayout r).effects =
        s.effects ++ places.map fun place => .request (.configure place.1 place.2)) ∧
      ∀ w, (s.applyLayout r).Offers w ↔ s.Offers w := by
  unfold applyLayout
  split
  · rename_i monitor d hmonitor hd
    refine ⟨⟨_, (effects_emit _ _).trans (by rw [List.map_map]; rfl)⟩, fun w => ?_⟩
    have hfeedback (n : NodeId) :
        (s.model.tree.arrange d.root monitor.rect d.layout).1.feedback? n =
          s.model.tree.feedback? n := by
      have hview (u : Tree) : u.feedback? n = ((u.get? n).map Node.feedback?).join := by
        rw [Tree.feedback?]
        cases u.get? n <;> rfl
      rw [hview, hview, Tree.map_get?_arrange fun _ _ => rfl]
    exact or_congr (exists_congr fun n => by rw [← hfeedback]; rfl) Iff.rfl
  · exact ⟨⟨[], by rw [List.map_nil, List.append_nil]⟩, fun w => Iff.rfl⟩

theorem effects_of_history {s u : Stage} {es : List Effect} (h : u.history = es ++ s.history) :
    u.effects = s.effects ++ es.reverse := by
  rw [effects, h, List.reverse_append, effects]

theorem calm_configure (windows : List Window) (w : Window) (rect : Rect) :
    Effect.Calm windows (.request (.configure w rect)) :=
  .of_silent rfl rfl rfl fun _ => rfl

section Edit

variable {s u : Stage} {r : DesktopRef} {initial windows taken : List Window}

/-- What an edit and the new layout do is calm. -/
theorem Edits.calm (h : s.Edits u r taken) (hs : s.Agrees initial windows) :
    ∃ es, (u.applyLayout r).effects = s.effects ++ es ∧ ∀ e ∈ es, Effect.Calm windows e := by
  obtain ⟨es, hes, hquiet⟩ := h.history
  obtain ⟨⟨places, hplaces⟩, -⟩ := applyLayout_spec u r
  refine ⟨es.reverse ++ places.map fun place => .request (.configure place.1 place.2), ?_,
    fun e he => ?_⟩
  · rw [hplaces, effects_of_history hes, List.append_assoc]
  · rcases List.mem_append.1 he with he | he
    · exact (hquiet e (List.mem_reverse.1 he)).calm hs.distinct
    · obtain ⟨place, -, rfl⟩ := List.mem_map.1 he
      exact calm_configure windows place.1 place.2

theorem window?_applyLayout (u : Stage) (r : DesktopRef) (n : NodeId) :
    (u.applyLayout r).model.tree.window? n = u.model.tree.window? n :=
  Tree.window?_of_standing ((Keeps.applyLayout u r).standing n)

theorem Edits.managed (h : s.Edits u r taken) (hs : s.Agrees initial windows)
    (htaken : ∀ w ∈ taken, w ∈ windows) (n : NodeId) (w : Window)
    (hw : (u.applyLayout r).model.tree.window? n = some w) : w ∈ windows := by
  rw [window?_applyLayout] at hw
  rcases h.windows n w hw with hold | ⟨-, hnew⟩
  · exact hs.managed n w hold
  · exact htaken w hnew

theorem Agrees.edit (hs : s.Agrees initial windows) (hsound : s.model.Sound)
    (h : s.Edits u r taken) (hstack : u.model.stack = s.model.stack)
    (htaken : ∀ w ∈ taken, w ∈ windows) : (u.applyLayout r).Agrees initial windows := by
  obtain ⟨es, heffects, hcalm⟩ := h.calm hs
  refine hs.calm heffects hcalm (h.managed hs htaken)
    (fun w hw => h.offers w (((applyLayout_spec u r).2 w).1 hw)) ?_
  -- the stacked windows are where they were
  obtain ⟨shapes, hshaped⟩ := hsound
  obtain ⟨shapes', hshaped'⟩ := h.sound
  obtain ⟨l, hl, hlive⟩ := hshaped.stack
  have hl' : u.model.stack.Holds l := hstack ▸ hl
  have hsame : ∀ n ∈ l, (u.applyLayout r).model.tree.window? n = s.model.tree.window? n := by
    intro n hn
    obtain ⟨w, hw⟩ := Option.isSome_iff_exists.1
      ((Model.isSome_window? _ n).trans (live_of_shaped hshaped' hl' n hn))
    rw [window?_applyLayout, hw]
    rcases h.windows n w hw with hold | ⟨hnone, -⟩
    · exact hold.symm
    · have hsome := hlive n hn
      rw [hnone] at hsome
      cases hsome
  rw [stacked, stacked, (Keeps.applyLayout u r).stack, hl'.windows_eq, hl.windows_eq]
  exact List.filterMap_congr hsame

theorem Agrees.remove (hs : s.Agrees initial windows) (hsound : s.model.Sound)
    (h : s.Edits u r taken) {n : NodeId} (hparts : s.Parts u n)
    (htaken : ∀ w ∈ taken, w ∈ windows) {v : Stage} (hv : v = u.applyLayout r) :
    (v.request (.clientList v.stacked)).Agrees initial windows := by
  subst hv
  obtain ⟨es, heffects, hcalm⟩ := h.calm hs
  obtain ⟨hnodup, hsame⟩ := display_calm hcalm hs.nodup
  obtain ⟨-, htold, hplacement⟩ := filterMap_calm hcalm
  obtain ⟨shapes, hshaped⟩ := hsound
  obtain ⟨l, hl, -⟩ := hshaped.stack
  -- the leaf is gone, and its window from the list
  have hstacked : (u.applyLayout r).stacked = (l.erase n).filterMap s.model.tree.window? := by
    rw [stacked, (Keeps.applyLayout u r).stack, (hparts.stack l hl).windows_eq]
    refine List.filterMap_congr fun m hm => ?_
    have hmn : m ≠ n := fun heq => hl.1.not_mem_erase (heq ▸ hm)
    rw [window?_applyLayout, Tree.window?_of_standing (hparts.other m hmn)]
  have hsub : (u.applyLayout r).stacked.Sublist s.stacked := by
    rw [hstacked, stacked, hl.windows_eq]
    exact List.erase_sublist.filterMap _
  have hall : ((u.applyLayout r).request (.clientList (u.applyLayout r).stacked)).effects =
      s.effects ++ (es ++ [.request (.clientList (u.applyLayout r).stacked)]) := by
    rw [request, effects_emit, heffects, List.append_assoc]
  refine hs.publish hall hnodup
    (fun w hw => mem_of_filter_mem hsame hw (hs.present w hw)) ?_ (htold.trans hplacement.symm)
    (by simp) (h.managed hs htaken)
    (fun w hw => h.offers w (((applyLayout_spec u r).2 w).1 hw))
  · exact (hs.shown.sublist hs.nodup hsub).congr hsame fun w hw => by
      obtain ⟨m, hm⟩ := mem_stacked (hsub.subset hw)
      exact hs.managed m w hm

end Edit

theorem configure_spec (s : Stage) (w : Window) (rect : Rect) :
    (∃ es, (s.configure w rect).effects = s.effects ++ es ∧
        ∀ windows, ∀ e ∈ es, Effect.Calm windows e) ∧
      ∀ v, (s.configure w rect).Offers v → s.Offers v := by
  have hsent (u : Stage) (hu : u.effects = s.effects) (place : Rect) :
      ∃ es, (u.request (.configure w place)).effects = s.effects ++ es ∧
        ∀ windows, ∀ e ∈ es, Effect.Calm windows e := by
    refine ⟨_, (effects_emit u _).trans (by rw [hu]), fun windows e he => ?_⟩
    rw [List.mem_singleton.1 he]
    exact calm_configure windows w place
  have hnone : ∃ es, s.effects = s.effects ++ es ∧ ∀ windows, ∀ e ∈ es, Effect.Calm windows e :=
    ⟨[], by rw [List.append_nil], by simp⟩
  unfold configure
  split
  · exact ⟨hsent s rfl rect, fun v hv => hv⟩
  rename_i n _
  split
  · exact ⟨hnone, fun v hv => hv⟩
  split
  · exact ⟨hnone, fun v hv => hv⟩
  · refine ⟨hsent _ rfl rect, fun v hv => hv.mono rfl fun m w hm => ?_⟩
    exact .inl ⟨m, (Tree.feedback?_modifyClient _ n m _).symm.trans hm⟩
  · exact ⟨hsent s rfl _, fun v hv => hv⟩
  · exact ⟨hsent s rfl _, fun v hv => hv⟩
  · exact ⟨hsent s rfl _, fun v hv => hv⟩

/-- Steps that change neither the stack nor the window of any leaf leave the stacked windows. -/
theorem stacked_congr {s u : Stage} (hstack : u.model.stack = s.model.stack)
    (hwindow : ∀ n, u.model.tree.window? n = s.model.tree.window? n) : u.stacked = s.stacked := by
  rw [stacked, stacked, hstack, Stack.windows, Stack.windows, funext hwindow]

/-! ## Steps and runs -/

theorem Agrees.step {initial windows taken : List Window} {s s' : Stage}
    (h : s.Agrees initial windows) (hs : s.model.Sound) (hstep : Step taken s s')
    (htaken : ∀ w ∈ taken, w ∈ windows) : s'.Agrees initial windows := by
  cases hstep with
  | quiet hquiet =>
    have hwindow (n : NodeId) : s'.model.tree.window? n = s.model.tree.window? n :=
      Tree.window?_of_place (Tree.place?_of_facet (hquiet.facet n))
    obtain ⟨es, hes, heffects⟩ := hquiet.history
    refine h.calm (effects_of_history hes)
      (fun e he => (heffects e (List.mem_reverse.1 he)).calm h.distinct) (fun n w hw => ?_)
      hquiet.offers (stacked_congr hquiet.stack hwindow)
    rw [hwindow] at hw
    exact h.managed n w hw
  | restack hn promote => exact h.restack hs hn promote
  | edit hedits hstack => exact h.edit hs hedits hstack htaken
  | remove hedits hparts => exact h.remove hs hedits hparts htaken rfl
  | configure w rect =>
    have hkeeps := keeps_configure s w rect
    have hwindow (n : NodeId) :
        (s.configure w rect).model.tree.window? n = s.model.tree.window? n :=
      Tree.window?_of_standing (hkeeps.standing n)
    obtain ⟨⟨es, heffects, hcalm⟩, hoffers⟩ := configure_spec s w rect
    refine h.calm heffects (hcalm windows) (fun n w hw => ?_) hoffers
      (stacked_congr hkeeps.stack hwindow)
    rw [hwindow] at hw
    exact h.managed n w hw

theorem Agrees.steps {initial windows taken : List Window} {s s' : Stage}
    (h : s.Agrees initial windows) (hsteps : Steps taken s s')
    (htaken : ∀ w ∈ taken, w ∈ windows) : s'.Agrees initial windows := by
  induction hsteps with
  | refl => exact h
  | tail _ hstep ih => exact ih.step hstep.1 hstep.2 htaken

theorem agrees_fresh (outputs : List (String × Rect)) (names : List String) (settings : Settings)
    (ids : FeedbackIds) {initial windows : List Window} (hnodup : initial.Nodup)
    (hpresent : ∀ w ∈ windows, w ∈ initial)
    (hdistinct : ∀ k w, ids.answer k = some w → w ∉ windows) :
    (fresh outputs names settings ids).Agrees initial windows := by
  obtain ⟨htree, hstack, -⟩ := Model.isBlank_fresh outputs names
  have hnone (n : NodeId) : (fresh outputs names settings ids).model.tree.get? n = none := by
    show (Model.fresh outputs names).tree.get? n = none
    rw [htree]
    exact Slots.get?_empty n.index
  have hempty : (fresh outputs names settings ids).stacked = [] := by
    show (Model.fresh outputs names).stack.windows _ = []
    rw [hstack, Stack.Holds.empty.windows_eq, List.filterMap_nil]
  refine ⟨hnodup, hpresent, fun n w hw => ?_, fun w hw => ?_, ?_, hempty.symm, rfl⟩
  · rw [Tree.window?, Tree.client?, hnone] at hw
    cases hw
  · rcases hw with ⟨n, hn⟩ | ⟨k, hk⟩
    · rw [Tree.feedback?, hnone] at hn
      cases hn
    · exact hdistinct k w hk
  · rw [hempty]
    exact .nil _

/-- The display, the published list and the listeners see the stack of the model.  `initial` is
the order of all windows on the display before the run, and no window that is managed in the run
is ever granted to show a preselection. -/
theorem stack_seen_run (outputs : List (String × Rect)) (names : List String) (settings : Settings)
    (ids : FeedbackIds) (ops : List Operation) (initial : List Window) (hnodup : initial.Nodup)
    (hpresent : ∀ w ∈ ops.flatMap Operation.taken, w ∈ initial)
    (hdistinct : ∀ k w, ids.answer k = some w → w ∉ ops.flatMap Operation.taken) :
    let s := (fresh outputs names settings ids).run ops
    Shows (s.display initial) (s.model.stack.windows s.model.tree) ∧
      s.published = s.model.stack.windows s.model.tree ∧
      s.effects.filterMap (Effect.told? .nodeStack) =
        s.effects.filterMap (Effect.placement? (ops.flatMap Operation.taken)) := by
  have hfresh := agrees_fresh outputs names settings ids hnodup hpresent hdistinct
  have hrun := hfresh.steps (steps_run (sound_fresh outputs names settings ids) ops) fun w hw => hw
  exact ⟨hrun.shown, hrun.published, hrun.announced⟩

/-- Three windows, one of which is brought to the front while another one has a preselection
that is shown; then the third goes. -/
theorem stack_seen_raised :
    let s := (fresh [("S", ⟨0, 0, 640, 480⟩)] ["I"] .standard (.counting 100 1 2)).run
      [.manage 1 ⟨"", ""⟩ .standard, .manage 2 ⟨"", ""⟩ .standard, .manage 3 ⟨"", ""⟩ .standard,
        .presel (.window 2) (some .north), .setLayer (.window 1) .above, .unmanage 3]
    Shows (s.display [3, 9, 1, 2]) (s.model.stack.windows s.model.tree) ∧
      s.published = s.model.stack.windows s.model.tree ∧
      s.effects.filterMap (Effect.told? .nodeStack) =
        s.effects.filterMap (Effect.placement? [1, 2, 3]) := by
  refine stack_seen_run _ _ _ _ _ _ (by decide) (by simp [Operation.taken]) fun k w hw => ?_
  obtain ⟨hk, rfl⟩ : k < 2 ∧ UInt32.ofNat (100 + k * 1) = w := by
    simpa [FeedbackIds.counting] using hw
  obtain rfl | rfl : k = 0 ∨ k = 1 := by omega
  · decide
  · decide

end Stage

end Tiling
