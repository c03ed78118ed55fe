import Tiling.Proofs.Model.Quiet
import Tiling.Proofs.Tree.Contents
/-!
# Edits of one desktop

Taking a window in, letting one go, changing a window or a layout touches one desktop.  Nothing
is placed by that; the trees of the other desktops look as they did.
-/

namespace Tiling

open Tiling.Tree (Shape HasShape)

namespace Tree

theorem feedback?_eq (t : Tree) (n : NodeId) :
    t.feedback? n = (t.presel? n).bind Presel.feedback := by
  rw [feedback?, presel?, Option.bind_assoc]
  rfl

theorem KeepsContents.feedback? {t t' : Tree} (h : t.KeepsContents t') {n : NodeId} {w : Window}
    (hn : t'.feedback? n = some w) : t.feedback? n = some w := by
  rw [feedback?_eq] at hn ⊢
  rcases h n with heq | hnone | ⟨-, hnone⟩
  · rwa [← presel?_of_contents? heq]
  · rw [presel?, hnone] at hn
    cases hn
  · rw [hnone] at hn
    cases hn

/-- A new leaf may be changed at once. -/
theorem KeepsContents.modify {t t' : Tree} (h : t.KeepsContents t') {n : NodeId}
    (hn : t.client? n = none) (hn' : (t'.client? n).isSome) {f : Node → Node}
    (hf : ∀ node, (f node).presel = node.presel) : t.KeepsContents (t'.modify n f) := by
  intro m
  by_cases hm : n = m
  · subst hm
    have hnew : t.get? n = none ∧ t'.presel? n = none := by
      rcases h n with heq | hnone | hnew
      · rw [client?_of_contents? heq, hn] at hn'
        cases hn'
      · rw [client?, hnone] at hn'
        cases hn'
      · exact hnew
    refine .inr (.inr ⟨hnew.1, ?_⟩)
    have hpresel := hnew.2
    rw [presel?] at hpresel ⊢
    rw [get?_modify, if_pos rfl, Option.bind_map]
    rw [← hpresel]
    exact congrArg (Option.bind (t'.get? n)) (funext hf)
  · have hsame : (t'.modify n f).get? m = t'.get? m := by rw [get?_modify, if_neg hm]
    rcases h m with heq | hnone | ⟨hnone, hpresel⟩
    · exact .inl ((contents?_of_get? hsame).trans heq)
    · exact .inr (.inl (hsame.trans hnone))
    · exact .inr (.inr ⟨hnone, by rw [presel?, hsame, ← presel?, hpresel]⟩)

/-- A tree that stands before and after looks the same. -/
theorem KeepsContents.facet? {t t' : Tree} (h : t.KeepsContents t') {s : Shape}
    (hs : HasShape t none s) (hs' : HasShape t' none s) {n : NodeId} (hn : n ∈ s.preorder) :
    t'.facet? n = t.facet? n :=
  facet?_eq_of (hs.links?_eq hs' n hn)
    (h.contents?_eq (hs.isSome_get? hn) (hs'.isSome_get? hn))

end Tree

/-! ## The other desktops -/

namespace Model

/-- The area of each monitor. -/
def areas (m : Model) : List Rect := m.monitors.map Monitor.rect

theorem areas_eq (m : Model) : m.areas = m.plan.map Prod.fst := by
  rw [areas, plan, List.map_map]
  rfl

theorem areas_modifyDesktop (m : Model) (r : DesktopRef) (f : Desktop → Desktop) :
    (m.modifyDesktop r f).areas = m.areas := by
  unfold areas modifyDesktop
  exact map_modify_of (by intro x; rfl) m.monitors r.monitor

theorem plan?_modifyDesktop_other (m : Model) {r r' : DesktopRef} (hne : r' ≠ r)
    (f : Desktop → Desktop) : (m.modifyDesktop r f).plan? r' = m.plan? r' := by
  simp only [plan?, monitor?, modifyDesktop, List.getElem?_modify]
  cases m.monitors[r'.monitor]? with
  | none => rfl
  | some x =>
    simp only [Option.map_eq_map, Option.map_some, Option.bind_some]
    by_cases hmonitor : r.monitor = r'.monitor
    · have hdesktop : r.desktop ≠ r'.desktop := fun heq => hne (by cases r; cases r'; simp_all)
      rw [if_pos hmonitor]
      simp only [List.getElem?_modify, if_neg hdesktop, Option.map_eq_map, Option.map_id']
    · rw [if_neg hmonitor]

namespace Shaped

/-- The tree of another desktop is one of the others. -/
theorem mem_others {m : Model} {left right : List (Option Shape)} {o : Option Shape}
    (h : m.Shaped (left ++ o :: right)) {r r' : DesktopRef} {d d' : Desktop}
    (hd : m.desktop? r = some d) (ho : d.Owns o) (hne : r' ≠ r) (hd' : m.desktop? r' = some d')
    {s : Shape} (hroot : d'.root = some s.top) (hs : HasShape m.tree none s) :
    s ∈ (left ++ right).reduceOption := by
  obtain ⟨hmem, -⟩ := h.mem_of_root hd' hroot hs
  have hso : some s ≠ o := by
    rintro rfl
    exact hne (h.position_unique hd' hd hroot ho.1)
  rw [mem_reduceOption]
  simpa [hso] using hmem

end Shaped

end Model

namespace Stage

/-! ## Edits of one desktop -/

/-- From `s` to `u` one desktop is edited: its tree, its windows or its layout.  Nothing is
placed yet, and the other desktops stay as they are.  New windows are among those that are taken
in. -/
structure Edits (s u : Stage) (r : DesktopRef) (taken : List Window) : Prop where
  sound : u.model.Sound
  areas : u.model.areas = s.model.areas
  focused : u.model.focusedMonitor = s.model.focusedMonitor
  plan : ∀ r', r' ≠ r → u.model.plan? r' = s.model.plan? r'
  others : ∀ r' d shape, r' ≠ r → s.model.desktop? r' = some d → d.root = some shape.top →
    HasShape s.model.tree none shape → ∀ n ∈ shape.preorder,
    u.model.tree.facet? n = s.model.tree.facet? n
  windows : ∀ n w, u.model.tree.window? n = some w → s.model.tree.window? n = some w ∨
    (s.model.tree.client? n = none ∧ w ∈ taken)
  offers : ∀ w, u.Offers w → s.Offers w
  history : ∃ es, u.history = es ++ s.history ∧ ∀ e ∈ es, Effect.Quiet s.Offers e

theorem Edits.emit {s u : Stage} {r : DesktopRef} {taken : List Window} (h : s.Edits u r taken)
    {es : List Effect} (hes : ∀ e ∈ es, Effect.Quiet u.Offers e) :
    s.Edits (u.emit es) r taken :=
  { h with
    history := by
      obtain ⟨before, hbefore, hquiet⟩ := h.history
      refine ⟨es.reverse ++ before, ?_, fun e he => ?_⟩
      · show es.reverse ++ u.history = _
        rw [hbefore, List.append_assoc]
      · rcases List.mem_append.1 he with he | he
        · exact (hes e (List.mem_reverse.1 he)).mono h.offers
        · exact hquiet e he }

theorem Edits.mono {s u : Stage} {r : DesktopRef} {taken taken' : List Window}
    (h : s.Edits u r taken) (ht : ∀ w ∈ taken, w ∈ taken') : s.Edits u r taken' :=
  { h with
    windows := fun n w hw => (h.windows n w hw).imp_right fun hnew => ⟨hnew.1, ht w hnew.2⟩ }

theorem Edits.announceAt {s u : Stage} {r : DesktopRef} {taken : List Window}
    (h : s.Edits u r taken) (topic : Topic) (htopic : topic ≠ .nodeStack) (r' : DesktopRef)
    (words : List String) : s.Edits (u.announceAt topic r' words) r taken :=
  h.emit fun e he => by
    rw [List.mem_singleton.1 he]
    exact .message (Topics.single_ne_nodeStack htopic)

/-- The tree of a desktop gives way to another one. -/
theorem edits_tree {s : Stage} {left right : List (Option Shape)} {o : Option Shape}
    (o' : Option Shape) (h : s.model.Shaped (left ++ o :: right)) {r : DesktopRef} {d : Desktop}
    (hd : s.model.desktop? r = some d) (ho : d.Owns o) {t : Tree} {stack : Stack}
    {f : Desktop → Desktop} {taken : List Window}
    (hsound : (Model.modifyDesktop { s.model with tree := t, stack := stack } r f).Sound)
    (hforest : t.Forest (o'.toList ++ (left ++ right).reduceOption))
    (hkeeps : s.model.tree.KeepsContents t)
    (hwindows : ∀ n w, t.window? n = some w → s.model.tree.window? n = some w ∨
      (s.model.tree.client? n = none ∧ w ∈ taken)) :
    s.Edits (s.withModel (Model.modifyDesktop { s.model with tree := t, stack := stack } r f)) r
      taken where
  sound := hsound
  areas := Model.areas_modifyDesktop _ r f
  focused := rfl
  plan r' hne := Model.plan?_modifyDesktop_other _ hne f
  others r' d' shape hne hd' hroot hshape n hn := by
    have hmem := h.mem_others hd ho hne hd' hroot hshape
    exact hkeeps.facet? hshape (hforest.hasShape (List.mem_append_right _ hmem)) hn
  windows := hwindows
  offers _ hw := hw.mono rfl fun n _ hn => .inl ⟨n, hkeeps.feedback? hn⟩
  history := ⟨[], rfl, by simp⟩

theorem edits_insertClient {s : Stage} (hs : s.model.Sound) {r : DesktopRef} {d : Desktop}
    (hd : s.model.desktop? r = some d) (client : Client) (csq : Consequences)
    (hnew : ∀ n, s.model.tree.window? n ≠ some client.window) :
    ∃ u u' n, s.insertClient r d client csq = (u', n) ∧ u.model.Sound ∧ s.Quiet u ∧
      u.Edits u' r [client.window] ∧ u'.model.stack = u.model.stack ∧
      (u'.model.tree.client? n).isSome := by
  obtain ⟨u', n, hinsert, hjoins⟩ := joins_insertClient hs hd client csq hnew
  obtain ⟨u, presel, htaken, hbody⟩ := insertClient_eq s r d client csq
  have hu : s.Keeps u ∧ s.Quiet u := by
    rcases htaken with rfl | ⟨f, rfl⟩
    · exact ⟨Keeps.refl u, Quiet.refl u⟩
    · exact ⟨keeps_takePresel s f, Quiet.of_path (path_takePresel s f) rfl⟩
  obtain ⟨shapes, h⟩ := hs
  have h := hu.1.shaped h
  have hud := (hu.1.desktop? r).trans hd
  obtain ⟨left, o, right, rfl, howns, -⟩ := h.edit hud
  have hforest := h.forest.perm (reduceOption_perm left o right)
  obtain ⟨hroot, hnone, hsome⟩ := howns.cases
  obtain ⟨t, shape, n', hleaf, hforest', -, -, hunused, hclient, hother⟩ :=
    Tree.insertLeaf_spec hforest hnone hsome client
      (presel.any fun p => p.dir == .west || p.dir == .north)
  have hkeeps := Tree.insertLeaf_contents hforest hnone hsome client
    (presel.any fun p => p.dir == .west || p.dir == .north)
  rw [hleaf] at hkeeps
  rw [← hroot] at hleaf
  obtain ⟨rfl, rfl⟩ := Prod.mk.inj (hinsert.symm.trans (hbody t _ n' hleaf))
  have htclient (m : NodeId) :
      (t.modify n fun node => { node with flags := csq.flags }).client? m = t.client? m :=
    Tree.client?_modify_of n m fun _ => rfl
  refine ⟨u, _, n, hinsert, ⟨_, h⟩, hu.2, ?_, rfl, by rw [hjoins.client, Option.isSome_some]⟩
  refine edits_tree (some shape) h hud howns hjoins.sound ?_ ?_ fun m w hm => ?_
  · exact hforest'.modify n _ (fun _ => rfl) (fun _ => rfl) fun _ _ _ => rfl
  · exact hkeeps.modify hunused (by rw [hclient, Option.isSome_some]) fun _ => rfl
  · rw [Tree.window?, htclient] at hm
    by_cases hmn : m = n
    · subst hmn
      rw [hclient, Option.map_some] at hm
      exact .inr ⟨hunused, by rw [← Option.some.inj hm]; exact List.mem_singleton_self _⟩
    · rw [hother m hmn] at hm
      exact .inl hm

theorem edits_removeClient {s : Stage} (hs : s.model.Sound) {n : NodeId}
    (hn : (s.model.tree.client? n).isSome) {r : DesktopRef} {d : Desktop}
    (hlocate : s.model.locate? n = some r) (hd : s.model.desktop? r = some d) :
    s.Edits (s.removeClient r d n) r [] := by
  have hparts := parts_removeClient hs hn hlocate hd
  obtain ⟨shapes, h⟩ := hs
  obtain ⟨left, shape, right, rfl, hleaf, howns⟩ := h.split_client hn hlocate hd
  have hforest := h.forest.perm (reduceOption_perm left (some shape) right)
  obtain ⟨tree, -, -, hforest', hgone, hother, -⟩ := Tree.removeLeaf_spec hforest hleaf
  have hkeeps := Tree.removeLeaf_contents hforest hleaf
  rw [← howns.1] at hforest' hgone hother hkeeps
  refine edits_tree _ h hd howns hparts.sound hforest' hkeeps ?_
  intro m w (hm : (s.model.tree.removeLeaf d.root n).1.window? m = some w)
  by_cases hmn : m = n
  · rw [hmn, Tree.window?, hgone] at hm
    cases hm
  · rw [Tree.window?, hother m hmn] at hm
    exact .inl hm

/-- A window changes on the desktop where it is. -/
theorem edits_modifyClient {s : Stage} (hs : s.model.Sound) {n : NodeId}
    (hn : (s.model.tree.client? n).isSome) {r : DesktopRef} (hlocate : s.model.locate? n = some r)
    {f : Client → Client} (hf : ∀ c, (f c).window = c.window) :
    s.Edits (s.modifyTree fun t => t.modifyClient n f) r [] := by
  obtain ⟨r', d, hlocate', hd⟩ := locate_client hs hn
  obtain rfl : r' = r := Option.some.inj (hlocate'.symm.trans hlocate)
  obtain ⟨shapes, h⟩ := hs
  obtain ⟨left, shape, right, rfl, hleaf, howns⟩ := h.split_client hn hlocate hd
  exact {
    sound := ⟨_, shaped_modifyClient h n hf⟩
    areas := rfl
    focused := rfl
    plan := fun _ _ => rfl
    others := fun r' d' shape' hne hd' hroot hshape m hm => by
      have hmem := h.mem_others hd howns hne hd' hroot hshape
      -- the leaf is in the tree of its own desktop only
      have hnodup := (h.forest.perm (reduceOption_perm left (some shape) right)).nodup
      rw [Option.toList_some, List.singleton_append, List.flatMap_cons, List.nodup_append] at hnodup
      have hmn : n ≠ m := hnodup.2.2 n (Shape.mem_preorder_of_mem_leaves hleaf) m
        (List.mem_flatMap.2 ⟨shape', hmem, hm⟩)
      show (s.model.tree.modify n _).facet? m = _
      rw [Tree.facet?, Tree.get?_modify, if_neg hmn, Tree.facet?]
    windows := fun m w hm => .inl ((Tree.window?_modifyClient _ n m hf).symm.trans hm)
    offers := fun w hw => hw.mono rfl fun m v hm =>
      .inl ⟨m, (Tree.feedback?_modifyClient _ n m f).symm.trans hm⟩
    history := ⟨[], rfl, by simp⟩ }

theorem edits_withLayout {s : Stage} (hs : s.model.Sound) {r : DesktopRef} {d : Desktop}
    (hd : s.model.desktop? r = some d) (layout : Layout) :
    s.Edits (s.withModel (s.model.modifyDesktop r fun d => { d with layout := layout })) r [] where
  sound := by
    obtain ⟨shapes, h⟩ := hs
    exact ⟨shapes, shaped_withLayout h hd layout⟩
  areas := Model.areas_modifyDesktop _ r _
  focused := rfl
  plan r' hne := Model.plan?_modifyDesktop_other _ hne _
  others _ _ _ _ _ _ _ _ _ := rfl
  windows _ _ hm := .inl hm
  offers _ hw := hw
  history := ⟨[], rfl, by simp⟩

end Stage

end Tiling
