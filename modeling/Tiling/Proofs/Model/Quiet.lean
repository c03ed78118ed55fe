import Tiling.Proofs.Model.Run
import Tiling.Proofs.Tree.Rects
/-!
# What does not show

Many steps neither move a window nor change the order of the stack: they map and unmap windows,
give away the focus, set marks, announce things, and move the windows that show preselections.
-/

namespace Tiling

/-- Where a window is shown, as far as its client decides that. -/
def Client.place (c : Client) : Window × ClientState × Rect := (c.window, c.state, c.floatingRect)

/-- The links of a node, its rectangle and the place of its window. -/
def Node.facet (node : Node) : (Option NodeId × Option NodeId × Option NodeId) × Rect ×
    Option (Window × ClientState × Rect) :=
  (node.links, node.rect, node.client.map Client.place)

namespace Tree

def facet? (t : Tree) (n : NodeId) : Option ((Option NodeId × Option NodeId × Option NodeId) ×
    Rect × Option (Window × ClientState × Rect)) :=
  (t.get? n).map Node.facet

def place? (t : Tree) (n : NodeId) : Option (Window × ClientState × Rect) :=
  (t.client? n).map Client.place

/-- The window that shows the preselection of a node. -/
def feedback? (t : Tree) (n : NodeId) : Option Window := (t.get? n).bind Node.feedback?

theorem facet?_modify {t : Tree} (n m : NodeId) {f : Node → Node}
    (hf : ∀ node, (f node).facet = node.facet) : (t.modify n f).facet? m = t.facet? m := by
  rw [facet?, get?_modify]
  by_cases h : n = m
  · subst h
    rw [if_pos rfl, Option.map_map, facet?]
    exact congrArg (Option.map · (t.get? n)) (funext hf)
  · rw [if_neg h, facet?]

theorem feedback?_modify (t : Tree) (n m : NodeId) (f : Node → Node) :
    (t.modify n f).feedback? m =
      if n = m then (t.get? n).bind fun node => (f node).feedback? else t.feedback? m := by
  rw [feedback?, get?_modify]
  by_cases h : n = m
  · rw [if_pos h, if_pos h, Option.bind_map]
    rfl
  · rw [if_neg h, if_neg h, feedback?]

theorem feedback?_modify_of {t : Tree} (n m : NodeId) {f : Node → Node}
    (hf : ∀ node, (f node).presel = node.presel) : (t.modify n f).feedback? m = t.feedback? m := by
  rw [feedback?_modify]
  split
  · rename_i heq
    rw [← heq, feedback?]
    refine congrArg (Option.bind (t.get? n)) (funext fun node => ?_)
    rw [Node.feedback?, hf node, Node.feedback?]
  · rfl

theorem feedback?_modifyClient (t : Tree) (n m : NodeId) (f : Client → Client) :
    (t.modifyClient n f).feedback? m = t.feedback? m :=
  feedback?_modify_of n m fun _ => rfl

section Facet

variable {t t' : Tree} {n : NodeId}

theorem links?_of_facet (h : t'.facet? n = t.facet? n) : t'.links? n = t.links? n := by
  have hview (u : Tree) : u.links? n = (u.facet? n).map Prod.fst := by
    rw [links?, facet?, Option.map_map]
    rfl
  rw [hview, hview, h]

theorem rect?_of_facet (h : t'.facet? n = t.facet? n) : t'.rect? n = t.rect? n := by
  have hview (u : Tree) : u.rect? n = (u.facet? n).map (·.2.1) := by
    rw [rect?, facet?, Option.map_map]
    rfl
  rw [hview, hview, h]

theorem place?_of_facet (h : t'.facet? n = t.facet? n) : t'.place? n = t.place? n := by
  have hview (u : Tree) : u.place? n = (u.facet? n).bind (·.2.2) := by
    rw [place?, client?, facet?]
    cases u.get? n <;> rfl
  rw [hview, hview, h]

theorem window?_of_place (h : t'.place? n = t.place? n) : t'.window? n = t.window? n := by
  have hview (u : Tree) : u.window? n = (u.place? n).map Prod.fst := by
    rw [window?, place?, Option.map_map]
    rfl
  rw [hview, hview, h]

theorem facet?_eq_of (hlinks : t'.links? n = t.links? n)
    (hcontents : t'.contents? n = t.contents? n) : t'.facet? n = t.facet? n := by
  have hview (u : Tree) : u.facet? n = (u.links? n).bind fun links =>
      (u.contents? n).map fun c => (links, c.1, c.2.1.map Client.place) := by
    rw [facet?, links?, contents?]
    cases u.get? n <;> rfl
  rw [hview, hview, hlinks, hcontents]

end Facet

end Tree

/-! ## The plan of the monitors -/

namespace Model

/-- The area of each monitor, with the roots and the layouts of its desktops. -/
def plan (m : Model) : List (Rect × List (Option NodeId × Layout)) :=
  m.monitors.map fun x => (x.rect, x.desktops.map fun d => (d.root, d.layout))

/-- What a desktop is arranged by. -/
def plan? (m : Model) (r : DesktopRef) : Option (Rect × Option NodeId × Layout) :=
  (m.monitor? r).bind fun x => x.desktops[r.desktop]?.map fun d => (x.rect, d.root, d.layout)

theorem plan?_eq (m : Model) (r : DesktopRef) :
    m.plan? r = m.plan[r.monitor]?.bind fun x => x.2[r.desktop]?.map fun d => (x.1, d) := by
  rw [plan?, plan, monitor?, List.getElem?_map]
  cases m.monitors[r.monitor]? with
  | none => rfl
  | some x =>
    rw [Option.bind_some, Option.map_some, Option.bind_some, List.getElem?_map, Option.map_map]
    rfl

theorem map_modify_of {α β : Type} {f : α → α} {g : α → β} (hf : ∀ x, g (f x) = g x) (l : List α)
    (i : Nat) : (l.modify i f).map g = l.map g := by
  induction l generalizing i with
  | nil => simp
  | cons x l ih =>
    cases i with
    | zero => simp [hf]
    | succ i => simp [ih]

theorem plan_activate (m : Model) (r : DesktopRef) : (m.activate r).plan = m.plan := by
  unfold plan activate
  exact map_modify_of (by intro x; rfl) m.monitors r.monitor

theorem plan_modifyDesktop (m : Model) (r : DesktopRef) {f : Desktop → Desktop}
    (hf : ∀ d, (f d).root = d.root ∧ (f d).layout = d.layout) :
    (m.modifyDesktop r f).plan = m.plan := by
  have hdesktops (desktops : List Desktop) :
      (desktops.modify r.desktop f).map (fun d => (d.root, d.layout)) =
        desktops.map fun d => (d.root, d.layout) :=
    map_modify_of (fun d => by rw [(hf d).1, (hf d).2]) desktops r.desktop
  unfold plan modifyDesktop
  exact map_modify_of (by intro x; simp only [hdesktops]) m.monitors r.monitor

end Model

/-! ## Quiet effects -/

/-- An effect that neither places a window nor tells of the stack, except that it may be about
the windows that show preselections. -/
inductive Effect.Quiet (feedback : Window → Prop) : Effect → Prop where
  | message {m : Message} (h : m.topics ≠ .single .nodeStack) : Effect.Quiet feedback (.message m)
  | map (w : Window) : Effect.Quiet feedback (.request (.map w))
  | unmap (w : Window) : Effect.Quiet feedback (.request (.unmap w))
  | watch (w : Window) : Effect.Quiet feedback (.request (.watch w))
  | focus (w : Option Window) : Effect.Quiet feedback (.request (.focus w))
  | createFeedback (rect : Rect) (color : UInt32) {granted : Option Window}
      (h : ∀ w, granted = some w → feedback w) :
      Effect.Quiet feedback (.request (.createFeedback rect color granted))
  | destroy {w : Window} (h : feedback w) : Effect.Quiet feedback (.request (.destroy w))
  | raise {w : Window} (h : feedback w) (top : Window) :
      Effect.Quiet feedback (.request (.stackAbove w top))

theorem Effect.Quiet.mono {feedback feedback' : Window → Prop} {e : Effect}
    (h : Effect.Quiet feedback e) (hf : ∀ w, feedback w → feedback' w) :
    Effect.Quiet feedback' e := by
  cases h with
  | message h => exact .message h
  | map w => exact .map w
  | unmap w => exact .unmap w
  | watch w => exact .watch w
  | focus w => exact .focus w
  | createFeedback rect color h => exact .createFeedback rect color fun w hw => hf w (h w hw)
  | destroy h => exact .destroy (hf _ h)
  | raise h top => exact .raise (hf _ h) top

theorem Topics.single_ne_nodeStack {topic : Topic} (h : topic ≠ .nodeStack) :
    Topics.single topic ≠ Topics.single .nodeStack := by
  cases topic <;> first | decide | exact absurd rfl h

namespace Stage

/-- The window shows a preselection, or may come to do so. -/
def Offers (s : Stage) (w : Window) : Prop :=
  (∃ n, s.model.tree.feedback? n = some w) ∨ ∃ k, s.feedbackIds.answer k = some w

theorem Offers.mono {s u : Stage} {w : Window} (hw : u.Offers w)
    (hids : u.feedbackIds = s.feedbackIds)
    (h : ∀ n w, u.model.tree.feedback? n = some w → s.Offers w) : s.Offers w := by
  rcases hw with ⟨n, hn⟩ | ⟨k, hk⟩
  · exact h n w hn
  · exact .inr ⟨k, hids ▸ hk⟩

/-- From `s` to `s'` no window is placed, and the stack is left alone. -/
structure Quiet (s s' : Stage) : Prop where
  stack : s'.model.stack = s.model.stack
  facet : ∀ n, s'.model.tree.facet? n = s.model.tree.facet? n
  plan : s'.model.plan = s.model.plan
  focused : s'.model.focusedMonitor = s.model.focusedMonitor ∨
    s'.model.focusedMonitor < s.model.plan.length
  offers : ∀ w, s'.Offers w → s.Offers w
  history : ∃ es, s'.history = es ++ s.history ∧ ∀ e ∈ es, Effect.Quiet s.Offers e

/-- Strokes of these kinds neither place a window nor touch the stack. -/
def StrokeKind.isQuiet : StrokeKind → Bool
  | .configure | .arrange | .restack | .state | .float | .layout => false
  | _ => true

/-- What has been recorded on the way to `s'` and from there on is all of one kind. -/
theorem history_trans {s s' s'' : Stage} {P : Effect → Prop}
    (h : ∃ es, s'.history = es ++ s.history ∧ ∀ e ∈ es, P e)
    (h' : ∃ es, s''.history = es ++ s'.history ∧ ∀ e ∈ es, P e) :
    ∃ es, s''.history = es ++ s.history ∧ ∀ e ∈ es, P e := by
  obtain ⟨es, hes, hall⟩ := h
  obtain ⟨es', hes', hall'⟩ := h'
  refine ⟨es' ++ es, by rw [hes', hes, List.append_assoc], ?_⟩
  intro e he
  rcases List.mem_append.1 he with he | he
  · exact hall' e he
  · exact hall e he

namespace Quiet

variable {s s' s'' : Stage}

theorem trans (h : s.Quiet s') (h' : s'.Quiet s'') : s.Quiet s'' where
  stack := h'.stack.trans h.stack
  facet n := (h'.facet n).trans (h.facet n)
  plan := h'.plan.trans h.plan
  focused := by
    rcases h'.focused with heq | hlt
    · rw [heq]
      exact h.focused
    · exact .inr (h.plan ▸ hlt)
  offers w hw := h.offers w (h'.offers w hw)
  history := by
    apply history_trans h.history
    obtain ⟨es, hes, hquiet⟩ := h'.history
    exact ⟨es, hes, fun e he => (hquiet e he).mono h.offers⟩

theorem refl (s : Stage) : s.Quiet s where
  stack := rfl
  facet _ := rfl
  plan := rfl
  focused := .inl rfl
  offers _ hw := hw
  history := ⟨[], rfl, by simp⟩

theorem emit (s : Stage) {es : List Effect} (h : ∀ e ∈ es, Effect.Quiet s.Offers e) :
    s.Quiet (s.emit es) where
  stack := rfl
  facet _ := rfl
  plan := rfl
  focused := .inl rfl
  offers _ hw := hw
  history := ⟨es.reverse, rfl, fun e he => h e (List.mem_reverse.1 he)⟩

theorem emit_one (s : Stage) {e : Effect} (h : Effect.Quiet s.Offers e) : s.Quiet (s.emit [e]) :=
  emit s fun e' he => by
    rw [List.mem_singleton.1 he]
    exact h

theorem announceAt (s : Stage) {topic : Topic} (h : topic ≠ .nodeStack) (r : DesktopRef)
    (words : List String) : s.Quiet (s.announceAt topic r words) :=
  emit_one s (.message (Topics.single_ne_nodeStack h))

theorem publishReport (s : Stage) : s.Quiet s.publishReport :=
  emit_one s (.message (Topics.single_ne_nodeStack (by decide)))

/-- Another model with the same stack, where no new windows show preselections. -/
theorem withModel (s : Stage) {m : Model} (hstack : m.stack = s.model.stack)
    (hfacet : ∀ n, m.tree.facet? n = s.model.tree.facet? n) (hplan : m.plan = s.model.plan)
    (hfocused : m.focusedMonitor = s.model.focusedMonitor ∨
      m.focusedMonitor < s.model.plan.length)
    (hfeedback : ∀ n w, m.tree.feedback? n = some w → s.Offers w) : s.Quiet (s.withModel m) where
  stack := hstack
  facet := hfacet
  plan := hplan
  focused := hfocused
  offers _ hw := hw.mono rfl hfeedback
  history := ⟨[], rfl, by simp⟩

theorem withSettings (s : Stage) (new : Settings) : s.Quiet { s with settings := new } where
  stack := rfl
  facet _ := rfl
  plan := rfl
  focused := .inl rfl
  offers _ hw := hw
  history := ⟨[], rfl, by simp⟩

/-- A change of a node that touches neither its facet nor its preselection. -/
theorem modifyTree (s : Stage) (n : NodeId) {f : Node → Node}
    (hfacet : ∀ node, (f node).facet = node.facet)
    (hpresel : ∀ node, (f node).presel = node.presel) :
    s.Quiet (s.modifyTree fun t => t.modify n f) := by
  refine withModel s rfl (fun m => Tree.facet?_modify n m hfacet) rfl (.inl rfl) ?_
  intro m w hm
  exact .inl ⟨m, (Tree.feedback?_modify_of n m hpresel).symm.trans hm⟩

theorem modifyClient (s : Stage) (n : NodeId) {f : Client → Client}
    (hf : ∀ c, (f c).place = c.place) :
    s.Quiet (s.modifyTree fun t => t.modifyClient n f) := by
  refine modifyTree s n (fun node => ?_) fun _ => rfl
  rw [Node.facet, Node.facet, Option.map_map]
  exact congrArg (fun x => (node.links, node.rect, Option.map x node.client)) (funext hf)

/-- Another preselection, shown by a window that is known already or not shown. -/
theorem setPresel (s : Stage) (n : NodeId) (presel : Option Presel)
    (h : ∀ w, presel.bind Presel.feedback = some w → s.Offers w) :
    s.Quiet (s.modifyTree fun t => t.modify n fun node => { node with presel := presel }) := by
  refine withModel s rfl (fun m => Tree.facet?_modify n m fun _ => rfl) rfl (.inl rfl) ?_
  intro m w hm
  change (s.model.tree.modify n _).feedback? m = some w at hm
  rw [Tree.feedback?_modify] at hm
  split at hm
  · obtain ⟨node, -, hnode⟩ := Option.bind_eq_some_iff.1 hm
    exact h w hnode
  · exact .inl ⟨m, hm⟩

theorem modifyDesktop (s : Stage) (r : DesktopRef) {f : Desktop → Desktop}
    (hf : ∀ d, (f d).root = d.root ∧ (f d).layout = d.layout) :
    s.Quiet (s.withModel (s.model.modifyDesktop r f)) :=
  withModel s rfl (fun _ => rfl) (s.model.plan_modifyDesktop r hf) (.inl rfl)
    fun n _ hn => .inl ⟨n, hn⟩

theorem raised {s : Stage} {stack : Stack} {root : Option NodeId} {e : Effect}
    (he : e ∈ stack.raiseFeedback s.model.tree root) : Effect.Quiet s.Offers e := by
  unfold Stack.raiseFeedback at he
  split at he
  · cases he
  · obtain ⟨w, hw, rfl⟩ := List.mem_map.1 he
    obtain ⟨n, -, hn⟩ := List.mem_filterMap.1 hw
    exact .raise (.inl ⟨n, hn⟩) _

theorem setMapped (s : Stage) (r : DesktopRef) (value : Bool) : s.Quiet (s.setMapped r value) := by
  rw [setMapped_eq]
  refine emit s fun e he => ?_
  obtain ⟨w, -, rfl⟩ := List.mem_map.1 he
  cases value with
  | true => exact .map w
  | false => exact .unmap w

theorem createFeedback (s : Stage) (rect : Rect) : s.Quiet (s.createFeedback rect).1 where
  stack := rfl
  facet _ := rfl
  plan := rfl
  focused := .inl rfl
  offers _ hw := hw
  history := by
    refine ⟨[_], rfl, fun e he => ?_⟩
    rw [List.mem_singleton.1 he]
    exact .createFeedback _ _ fun w hw => .inr ⟨_, hw⟩

theorem of_stroke {k : StrokeKind} (hk : k.isQuiet = true) (h : s.Stroke k s') : s.Quiet s' := by
  cases h with
  | announce hreport hstack => exact emit_one s (.message (Topics.single_ne_nodeStack hstack))
  | report => exact publishReport s
  | focus w => exact emit_one s (.focus w)
  | map r value => exact setMapped s r value
  | destroy hw => exact emit_one s (.destroy (.inl ⟨_, hw⟩))
  | grant rect => exact createFeedback s rect
  | raise r => exact emit s fun _ he => raised he
  | layer n | urgency n => exact modifyClient s n fun _ => rfl
  | flag n => exact modifyTree s n (fun _ => rfl) fun _ => rfl
  | clear n => exact setPresel s n none fun w hw => by cases hw
  | mark n dir hgranted => exact setPresel s n _ fun w hw => .inr (hgranted w hw)
  | activate r =>
    exact withModel s rfl (fun _ => rfl) (s.model.plan_activate r) (.inl rfl)
      fun n _ hn => .inl ⟨n, hn⟩
  | monitor hthere =>
    obtain ⟨monitor, hmonitor⟩ := Option.isSome_iff_exists.1 hthere
    refine withModel s rfl (fun _ => rfl) rfl (.inr ?_) fun n _ hn => .inl ⟨n, hn⟩
    rw [Model.plan, List.length_map]
    exact (List.getElem?_eq_some_iff.1 hmonitor).1
  | choose r => exact modifyDesktop s r fun _ => ⟨rfl, rfl⟩
  | settings new => exact withSettings s new
  | _ => cases hk

theorem of_path {kinds : List StrokeKind} (h : s.Path kinds s')
    (hkinds : kinds.all StrokeKind.isQuiet = true) : s.Quiet s' :=
  h.frame hkinds refl trans of_stroke

end Quiet

end Stage

end Tiling
