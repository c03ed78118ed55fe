import Tiling.Proofs.Model.Evolves
/-!
# Operations on windows that stay

Changing the focus, the state, the layer, the flags or the geometry of a window keeps the model
sound, keeps its windows, and moves at most the leaf of that window in the stack.
-/

namespace Tiling.Stage

open Tiling.Tree (Shape)

/-- The leaf has the focus of the desktop it is on. -/
def hasFocus (s : Stage) (n : NodeId) : Bool :=
  (s.model.locate? n).any fun r => s.isDesktopFocus r n

/-- The outcome of an operation that takes no window in and lets none go. -/
structure Stays (s s' : Stage) (placed : Option (NodeId × Bool)) : Prop where
  sound : s'.model.Sound
  window : ∀ n, s'.model.tree.window? n = s.model.tree.window? n
  evolves : s.Evolves s' none placed

theorem Keeps.stays {s s' : Stage} (h : s.Keeps s') (hs : s.model.Sound) : s.Stays s' none where
  sound := by
    obtain ⟨shapes, hs⟩ := hs
    exact ⟨shapes, h.shaped hs⟩
  window n := Tree.window?_of_standing (h.standing n)
  evolves := h.evolves

theorem Stays.keeps {s s' s'' : Stage} {placed : Option (NodeId × Bool)} (h : s.Stays s' placed)
    (h' : s'.Keeps s'') : s.Stays s'' placed where
  sound := (h'.stays h.sound).sound
  window n := (Tree.window?_of_standing (h'.standing n)).trans (h.window n)
  evolves := h.evolves.keeps h'

theorem hasFocus_eq {s u : Stage} (hdesktops : u.model.desktopLists = s.model.desktopLists)
    {n : NodeId} {r : DesktopRef} (hlocate : s.model.locate? n = some r) :
    u.isDesktopFocus r n = s.hasFocus n := by
  rw [hasFocus, hlocate, Option.any_some, isDesktopFocus, isDesktopFocus, Model.focus?,
    Model.focus?,     Model.desktop?_eq, Model.desktop?_eq, hdesktops]

theorem sound_restack {s : Stage} (hs : s.model.Sound) {n : NodeId}
    (hn : (s.model.tree.client? n).isSome) (promote : Bool) :
    (s.restack n promote).model.Sound := by
  obtain ⟨shapes, h⟩ := hs
  exact ⟨shapes, (restack_spec h hn promote).1⟩

theorem stays_focusNode {s : Stage} (hs : s.model.Sound) {n : NodeId}
    (hn : (s.model.tree.client? n).isSome) : s.Stays (s.focusNode (some n)) (some (n, true)) := by
  obtain ⟨shapes, h⟩ := hs
  obtain ⟨hshaped, hstanding, hevolves⟩ := focusNode_spec h hn
  exact ⟨⟨shapes, hshaped⟩, fun m => Tree.window?_of_standing (hstanding m), hevolves⟩

theorem locate_client {s : Stage} (hs : s.model.Sound) {n : NodeId}
    (hn : (s.model.tree.client? n).isSome) :
    ∃ r d, s.model.locate? n = some r ∧ s.model.desktop? r = some d := by
  obtain ⟨shapes, h⟩ := hs
  obtain ⟨-, r, d, -, -, hlocate, hd, -⟩ := h.locate_client hn
  exact ⟨r, d, hlocate, hd⟩

/-! ## Changes that move the leaf -/

theorem shaped_modifyClient {m : Model} {shapes : List (Option Shape)} (h : m.Shaped shapes)
    (n : NodeId) {f : Client → Client} (hf : ∀ c, (f c).window = c.window) :
    Model.Shaped { m with tree := m.tree.modifyClient n f } shapes :=
  h.withTree (h.forest.modifyClient n f) fun m => Tree.window?_modifyClient _ n m hf

section Change

variable {s : Stage} {n : NodeId} {client : Client}

/-- A change of a client, followed by steps that change nothing, and its placement. -/
theorem stays_change {u : Stage} (hs : s.model.Sound)
    (hclient : s.model.tree.client? n = some client) (f : Client → Client)
    (hf : ∀ c, (f c).window = c.window)
    (hu : (s.modifyTree fun t => t.modifyClient n f).Keeps u) (promote : Bool) :
    s.Stays (u.restack n promote) (some (n, promote)) := by
  obtain ⟨shapes, h⟩ := hs
  have hchanged (m : NodeId) : (s.model.tree.modifyClient n f).client? m =
      if n = m then (s.model.tree.client? n).map f else s.model.tree.client? m :=
    Tree.client?_modifyClient _ n m f
  have hshaped : u.model.Shaped shapes := hu.shaped (shaped_modifyClient h n hf)
  have hlive : (u.model.tree.client? n).isSome := by
    rw [Tree.isSome_client?_of_standing (hu.standing n)]
    simp [modifyTree, hchanged, hclient]
  obtain ⟨hrestacked, htree, hevolves⟩ := restack_spec hshaped hlive promote
  refine ⟨⟨shapes, hrestacked⟩, fun m => ?_,
    .of_change hu.settings hu.stack (fun m hm => ?_) hlive hevolves⟩
  · rw [htree, Tree.window?_of_standing (hu.standing m)]
    exact Tree.window?_modifyClient _ n m hf
  · rw [hu.standing m]
    refine Tree.standing?_of_client ?_
    change (s.model.tree.modifyClient n f).client? m = s.model.tree.client? m
    rw [hchanged, if_neg hm.symm]

/-- A changed client is on the desktop where it was. -/
theorem modifyClient_spec {u : Stage} (hs : s.model.Sound)
    (hclient : s.model.tree.client? n = some client) {f : Client → Client}
    (hu : u = s.modifyTree fun t => t.modifyClient n f) (hf : ∀ c, (f c).window = c.window) :
    u.model.Sound ∧ u.model.locate? n = s.model.locate? n ∧ (u.model.tree.client? n).isSome := by
  subst hu
  obtain ⟨shapes, h⟩ := hs
  have hchanged := shaped_modifyClient h n hf
  refine ⟨⟨shapes, hchanged⟩, h.locate?_congr hchanged rfl ?_, ?_⟩
  · rw [hclient, Option.isSome_some]
  · show ((s.model.tree.modifyClient n f).client? n).isSome
    rw [Tree.client?_modifyClient, if_pos rfl, hclient, Option.map_some, Option.isSome_some]

theorem stays_setState (hs : s.model.Sound) (hclient : s.model.tree.client? n = some client)
    (state : ClientState) :
    s.Stays (s.setState n state)
      (if client.state = state then none else some (n, s.hasFocus n)) := by
  obtain ⟨node, hnode, hnodeclient⟩ := Option.bind_eq_some_iff.1 hclient
  by_cases hsame : client.state = state
  · simp only [setState, hnode, hnodeclient, hsame, if_true]
    exact (Keeps.refl s).stays hs
  obtain ⟨u, hu⟩ : ∃ u, u = s.modifyTree fun t => t.modifyClient n (changeState node.rect state) :=
    ⟨_, rfl⟩
  have hstays (v : Stage) (hv : u.Keeps v) : s.Stays (v.restack n (s.hasFocus n))
      (some (n, s.hasFocus n)) :=
    stays_change hs hclient (changeState node.rect state) (fun _ => rfl) (hu ▸ hv) (s.hasFocus n)
  obtain ⟨-, hlocate, -⟩ := modifyClient_spec hs hclient hu fun _ => rfl
  have hdesktops : u.model.desktopLists = s.model.desktopLists := by rw [hu]; rfl
  obtain ⟨r, d, hr, -⟩ := locate_client hs (by rw [hclient, Option.isSome_some])
  rw [hr] at hlocate
  rw [if_neg hsame]
  simp only [setState, hnode, hnodeclient, if_neg hsame, ← hu, hlocate]
  generalize hv : Stage.applyLayout _ r = v
  have hkeeps : u.Keeps v := by
    rw [← hv]
    exact (Keeps.emit _ _).trans ((Keeps.emit _ _).trans (Keeps.applyLayout _ r))
  rw [hasFocus_eq (hkeeps.desktops.trans hdesktops) hr]
  exact (hstays v hkeeps).keeps (Keeps.emit _ _)

theorem stays_setLayer (hs : s.model.Sound) (hclient : s.model.tree.client? n = some client)
    (layer : Layer) :
    s.Stays (s.setLayer n layer)
      (if client.layer = layer then none else some (n, s.hasFocus n)) := by
  by_cases hsame : client.layer = layer
  · simp only [setLayer, hclient, hsame, if_true]
    exact (Keeps.refl s).stays hs
  obtain ⟨u, hu⟩ : ∃ u, u = s.modifyTree fun t => t.modifyClient n fun c =>
    { c with layer := layer } := ⟨_, rfl⟩
  obtain ⟨-, hlocate, -⟩ := modifyClient_spec hs hclient hu fun _ => rfl
  have hdesktops : u.model.desktopLists = s.model.desktopLists := by rw [hu]; rfl
  obtain ⟨r, d, hr, -⟩ := locate_client hs (by rw [hclient, Option.isSome_some])
  rw [hr] at hlocate
  rw [if_neg hsame]
  simp only [setLayer, hclient, if_neg hsame, ← hu, hlocate]
  generalize hv : Stage.announceAt _ _ r _ = v
  have hkeeps : u.Keeps v := hv ▸ Keeps.emit _ _
  rw [hasFocus_eq (hkeeps.desktops.trans hdesktops) hr]
  exact stays_change hs hclient (fun c => { c with layer := layer }) (fun _ => rfl) (hu ▸ hkeeps)
    (s.hasFocus n)

end Change

/-! ## Changes that move nothing -/

theorem model_takePresel (s : Stage) (n : NodeId) :
    (s.takePresel n).1.model = { s.model with
      tree := s.model.tree.modify n fun node => { node with presel := none } } := by
  unfold takePresel
  dsimp only
  split <;> rfl

theorem keeps_takePresel (s : Stage) (n : NodeId) : s.Keeps (s.takePresel n).1 :=
  Keeps.of_path (path_takePresel s n) rfl

theorem keeps_createFeedback (s : Stage) (rect : Rect) : s.Keeps (s.createFeedback rect).1 := by
  unfold createFeedback
  exact Keeps.of_model rfl rfl

theorem keeps_choosePresel (s : Stage) (r : DesktopRef) {n : NodeId}
    (hn : (s.model.tree.client? n).isSome) (rect : Rect) (dir : Direction) :
    s.Keeps (s.choosePresel r n rect dir) := by
  unfold choosePresel
  have hset (u : Stage) (hu : s.Keeps u) (feedback : Option Window) :
      s.Keeps (u.modifyTree fun t =>
        t.modify n fun node => { node with presel := some ⟨dir, feedback⟩ }) := by
    refine hu.trans (Keeps.modifyTree u n (fun shapes h => h.modify n _ (fun _ => rfl)
      (fun _ => rfl) ?_) fun _ => rfl)
    intro node hget hnone
    rw [← Tree.isSome_client?_of_standing (hu.standing n), Tree.client?, hget, Option.bind_some,
      hnone] at hn
    cases hn
  split
  rename_i u feedback hfeedback
  refine hset u ?_ feedback
  split at hfeedback
  · have hu := keeps_createFeedback s (rect.half dir)
    rwa [hfeedback] at hu
  · obtain ⟨rfl, -⟩ := Prod.mk.inj hfeedback
    exact Keeps.refl s

theorem keeps_presel (s : Stage) {n : NodeId} (hn : (s.model.tree.client? n).isSome)
    (dir : Option Direction) : s.Keeps (s.presel n dir) := by
  unfold presel
  split
  · rename_i r node hlocate hnode
    have htake := keeps_takePresel s n
    generalize s.takePresel n = taken at *
    obtain ⟨u, old⟩ := taken
    have hun : (u.model.tree.client? n).isSome := by
      rwa [Tree.isSome_client?_of_standing (htake.standing n)]
    cases dir with
    | none => exact htake.trans ((Keeps.emit _ _).trans (Keeps.emit _ _))
    | some dir =>
      exact htake.trans ((keeps_choosePresel u r hun node.rect dir).trans
        ((Keeps.emit _ _).trans (Keeps.emit _ _)))
  · exact Keeps.refl s

theorem keeps_configure (s : Stage) (window : Window) (rect : Rect) :
    s.Keeps (s.configure window rect) :=
  Keeps.of_path (path_configure s window rect) rfl

theorem shaped_withLayout {m : Model} {shapes : List (Option Shape)} (h : m.Shaped shapes)
    {r : DesktopRef} {d : Desktop} (hd : m.desktop? r = some d) (layout : Layout) :
    (m.modifyDesktop r fun d => { d with layout := layout }).Shaped shapes := by
  refine shaped_modifyDesktop h hd fun o _ ho => ?_
  cases o <;> exact ho

theorem stays_setLayout {s : Stage} (hs : s.model.Sound) (r : DesktopRef) (layout : Layout) :
    s.Stays (s.setLayout r layout) none := by
  unfold setLayout
  split
  · exact (Keeps.refl s).stays hs
  rename_i d hd
  split
  · exact (Keeps.refl s).stays hs
  obtain ⟨shapes, h⟩ := hs
  have hshaped := shaped_withLayout h hd layout
  have hlayout : s.Stays
      (s.withModel (s.model.modifyDesktop r fun d => { d with layout := layout })) none :=
    ⟨⟨shapes, hshaped⟩, fun _ => rfl, {
      settings := rfl
      standing := fun _ _ _ => rfl
      gone_client := fun _ hn => by cases hn
      placed_client := fun _ hn => by cases hn
      stack := fun l hl _ => ⟨l, hl, rfl⟩ }⟩
  exact hlayout.keeps ((Keeps.emit _ _).trans ((Keeps.applyLayout _ r).trans (Keeps.emit _ _)))

end Tiling.Stage
