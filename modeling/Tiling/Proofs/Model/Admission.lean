import Tiling.Proofs.Model.Changes
import Tiling.Proofs.Tree.Insert
import Tiling.Proofs.Tree.Remove
/-!
# Taking windows in and letting them go

Managing a window adds one leaf that holds it, letting go of a window removes its leaf.  Both
keep the model sound and all other windows where they are.
-/

namespace Tiling

open Tiling.Tree (Shape)

/-! ## Look-ups of windows -/

namespace Tree

theorem window?_of_findWindow {t : Tree} {w : Window} {n : NodeId}
    (h : t.findWindow? w = some n) : t.window? n = some w := by
  obtain ⟨i, hi, rfl⟩ := Option.map_eq_some_iff.1 h
  obtain ⟨node, hnode, hp⟩ := Slots.findIdx?_eq_some hi
  obtain ⟨client, hclient, hw⟩ := (Option.any_eq_true _ _).1 hp
  have hget : t.get? ⟨i⟩ = some node := hnode
  rw [window?, client?, hget, Option.bind_some, hclient, Option.map_some]
  simpa using hw

theorem findWindow?_eq_none_iff {t : Tree} {w : Window} :
    t.findWindow? w = none ↔ ∀ n, t.window? n ≠ some w := by
  rw [findWindow?, Option.map_eq_none_iff, Slots.findIdx?_eq_none_iff]
  constructor
  · intro hall n hn
    obtain ⟨client, hclient, hw⟩ := Option.map_eq_some_iff.1 hn
    obtain ⟨node, hnode, hnodeclient⟩ := Option.bind_eq_some_iff.1 hclient
    have hnone := hall n.index node hnode
    rw [hnodeclient] at hnone
    simp [hw] at hnone
  · intro hall i node hnode
    have hget : t.get? ⟨i⟩ = some node := hnode
    have hne := hall ⟨i⟩
    rw [window?, client?, hget, Option.bind_some] at hne
    cases hclient : node.client with
    | none => rfl
    | some client =>
      rw [hclient, Option.map_some] at hne
      simpa using hne

theorem exists_window_iff {t : Tree} {w : Window} :
    (t.findWindow? w).isSome ↔ ∃ n, t.window? n = some w := by
  constructor
  · intro hsome
    obtain ⟨n, hn⟩ := Option.isSome_iff_exists.1 hsome
    exact ⟨n, window?_of_findWindow hn⟩
  · rintro ⟨n, hn⟩
    rw [← Option.ne_none_iff_isSome]
    exact fun hnone => findWindow?_eq_none_iff.1 hnone n hn

/-- Windows stay distinct when a new one is added. -/
theorem windows_added {t u : Tree} {n : NodeId} {w : Window} (hn : t.window? n = some w)
    (hother : ∀ m, m ≠ n → t.window? m = u.window? m) (hnew : ∀ m, u.window? m ≠ some w)
    (h : ∀ a b v, u.window? a = some v → u.window? b = some v → a = b) :
    ∀ a b v, t.window? a = some v → t.window? b = some v → a = b := by
  intro a b v ha hb
  by_cases han : a = n
  · by_cases hbn : b = n
    · rw [han, hbn]
    · rw [han, hn] at ha
      rw [hother b hbn] at hb
      exact absurd (hb.trans ha.symm) (hnew b)
  · by_cases hbn : b = n
    · rw [hbn, hn] at hb
      rw [hother a han] at ha
      exact absurd (ha.trans hb.symm) (hnew a)
    · rw [hother a han] at ha
      rw [hother b hbn] at hb
      exact h a b v ha hb

/-- A leaf with a client that joins a tree, once it has its flags. -/
theorem insertLeaf_flags {t : Tree} {tree : Option Shape} {rest : List Shape}
    (h : t.Forest (tree.toList ++ rest)) {focus : Option NodeId}
    (hnone : tree = none → focus = none)
    (hsome : ∀ s, tree = some s → ∃ n ∈ s.leaves, focus = some n) (client : Client)
    (newFirst : Bool) (flags : Flags) :
    ∃ t' s' n, t.insertLeaf (tree.map Shape.top) focus client newFirst = (t', some s'.top, n) ∧
      n ∈ s'.leaves ∧ (∀ f, focus = some f → f ∈ s'.leaves) ∧ t.client? n = none ∧
      (t'.modify n fun node => { node with flags := flags }).Forest (s' :: rest) ∧
      (t'.modify n fun node => { node with flags := flags }).client? n = some client ∧
      ∀ m, m ≠ n →
        (t'.modify n fun node => { node with flags := flags }).client? m = t.client? m := by
  obtain ⟨t', s', n, hinsert, hforest, hleaf, hkept, hunused, hclient, hother⟩ :=
    insertLeaf_spec h hnone hsome client newFirst
  have hsame (m : NodeId) :
      (t'.modify n fun node => { node with flags := flags }).client? m = t'.client? m :=
    client?_modify_of n m fun _ => rfl
  refine ⟨t', s', n, hinsert, hleaf, hkept, hunused, ?_, ?_, fun m hm => ?_⟩
  · exact hforest.modify n _ (fun _ => rfl) (fun _ => rfl) fun _ _ _ => rfl
  · rw [hsame, hclient]
  · rw [hsame, hother m hm]

end Tree

theorem Model.Shaped.findWindow?_eq {m : Model} {shapes : List (Option Shape)}
    (h : m.Shaped shapes) {w : Window} {n : NodeId} (hn : m.tree.window? n = some w) :
    m.tree.findWindow? w = some n := by
  obtain ⟨n', hn'⟩ := Option.isSome_iff_exists.1 (Tree.exists_window_iff.2 ⟨n, hn⟩)
  rw [hn', h.windows n' n w (Tree.window?_of_findWindow hn') hn]

theorem reduceOption_perm (left : List (Option Shape)) (o : Option Shape)
    (right : List (Option Shape)) :
    (left ++ o :: right).reduceOption.Perm (o.toList ++ (left ++ right).reduceOption) := by
  rw [List.reduceOption_append, List.reduceOption_append]
  cases o with
  | none =>
    rw [List.reduceOption_cons_of_none, Option.toList_none, List.nil_append]
  | some s =>
    rw [List.reduceOption_cons_of_some, Option.toList_some, List.singleton_append]
    exact List.perm_middle

theorem Model.Shaped.holds_remove {m : Model} {shapes : List (Option Shape)} (h : m.Shaped shapes)
    {n : NodeId} (hn : (m.tree.client? n).isSome) {l : List NodeId} (hl : m.stack.Holds l) :
    (m.stack.remove m.tree n).Holds (l.erase n) := by
  rw [Stack.remove, h.forest.leaves_leaf hn]
  exact hl.removeNode n

namespace Stage

/-! ## Insertion -/

/-- The outcome of putting a client into the tree of a desktop. -/
structure Joins (s s' : Stage) (n : NodeId) (client : Client) : Prop where
  sound : s'.model.Sound
  settings : s'.settings = s.settings
  stack : s'.model.stack = s.model.stack
  unused : s.model.tree.client? n = none
  client : s'.model.tree.client? n = some client
  other : ∀ m, m ≠ n → s'.model.tree.standing? m = s.model.tree.standing? m

/-- Before a client is inserted, the preselection of the focused leaf is taken from it. -/
theorem insertClient_eq (s : Stage) (r : DesktopRef) (d : Desktop) (client : Client)
    (csq : Consequences) :
    ∃ (u : Stage) (presel : Option Presel), (u = s ∨ ∃ f, u = (s.takePresel f).1) ∧ ∀ t root n,
      u.model.tree.insertLeaf d.root d.focus client
        (presel.any fun p => p.dir == .west || p.dir == .north) = (t, root, n) →
      s.insertClient r d client csq = (u.withModel (Model.modifyDesktop
        { u.model with tree := t.modify n fun node => { node with flags := csq.flags } } r fun d =>
          { d with root := root, focus := d.focus.or (some n) }), n) := by
  unfold insertClient
  generalize d.focus = focus
  cases focus with
  | none =>
    refine ⟨s, none, .inl rfl, fun t root n hinsert => ?_⟩
    dsimp only
    rw [hinsert]
  | some f =>
    refine ⟨_, (s.takePresel f).2, .inr ⟨f, rfl⟩, fun t root n hinsert => ?_⟩
    dsimp only
    rw [hinsert]

theorem joins_insertClient {s : Stage} (hs : s.model.Sound) {r : DesktopRef} {d : Desktop}
    (hd : s.model.desktop? r = some d) (client : Client) (csq : Consequences)
    (hnew : ∀ n, s.model.tree.window? n ≠ some client.window) :
    ∃ s' n, s.insertClient r d client csq = (s', n) ∧ s.Joins s' n client := by
  obtain ⟨u, presel, htaken, hbody⟩ := insertClient_eq s r d client csq
  have hu : s.Keeps u := by
    rcases htaken with rfl | ⟨f, rfl⟩
    · exact Keeps.refl u
    · exact keeps_takePresel s f
  obtain ⟨shapes, h⟩ := hs
  have h := hu.shaped h
  obtain ⟨left, tree, right, rfl, howns, hedit⟩ := h.edit ((hu.desktop? r).trans hd)
  have hforest := h.forest.perm (reduceOption_perm left tree right)
  obtain ⟨hroot, hnone, hsome⟩ := howns.cases
  obtain ⟨t', shape, n, hinsert, hleaf, hkept, hunused, htforest, htn, htother⟩ :=
    Tree.insertLeaf_flags hforest hnone hsome client
      (presel.any fun p => p.dir == .west || p.dir == .north) csq.flags
  rw [← hroot] at hinsert
  obtain ⟨t, ht⟩ : ∃ t, t = t'.modify n fun node => { node with flags := csq.flags } := ⟨_, rfl⟩
  rw [← ht] at htforest htn htother
  have hwindow (m : NodeId) (hm : m ≠ n) : t.window? m = u.model.tree.window? m := by
    rw [Tree.window?, htother m hm, Tree.window?]
  have hwindown : t.window? n = some client.window := by rw [Tree.window?, htn, Option.map_some]
  have hunew (m : NodeId) : u.model.tree.window? m ≠ some client.window := by
    rw [Tree.window?_of_standing (hu.standing m)]
    exact hnew m
  have hshaped := hedit t u.model.stack
    (fun d => { d with root := some shape.top, focus := d.focus.or (some n) }) (some shape)
    (htforest.perm (reduceOption_perm left (some shape) right).symm) ?_ ?_ ?_
  · refine ⟨u.withModel (Model.modifyDesktop { u.model with tree := t } r fun d =>
      { d with root := some shape.top, focus := d.focus.or (some n) }), n, ?_, ⟨_, hshaped⟩,
      hu.settings, hu.stack, ?_, htn, fun m hm => ?_⟩
    · rw [hbody t' _ n hinsert, ht]
    · rw [← Option.isNone_iff_eq_none, ← Option.not_isSome,
        ← Tree.isSome_client?_of_standing (hu.standing n), hunused]
      rfl
    · exact (Tree.standing?_of_client (htother m hm)).trans (hu.standing m)
  · refine ⟨rfl, ?_⟩
    cases hdfocus : d.focus with
    | none => exact ⟨n, hleaf, rfl⟩
    | some f => exact ⟨f, hkept f hdfocus, rfl⟩
  · exact Tree.windows_added hwindown hwindow hunew h.windows
  · obtain ⟨l, hl, hlive⟩ := h.stack
    refine ⟨l, hl, fun m hm => ?_⟩
    by_cases hmn : m = n
    · rw [hmn, htn]
      rfl
    · rw [htother m hmn]
      exact hlive m hm

/-- The outcome of managing a window: the leaf that has been added for it, if any, is placed. -/
structure Admits (s s' : Stage) (w : Window) (added : Option NodeId) : Prop where
  sound : s'.model.Sound
  evolves : s.Evolves s' none (added.map (·, true))
  unused : ∀ n, added = some n → s.model.tree.client? n = none
  window : ∀ n, added = some n → s'.model.tree.window? n = some w

theorem Keeps.admits {s s' : Stage} (h : s.Keeps s') (hs : s.model.Sound) (w : Window) :
    s.Admits s' w none where
  sound := (h.stays hs).sound
  evolves := h.evolves
  unused n hn := by cases hn
  window n hn := by cases hn

theorem Admits.keeps {s s' s'' : Stage} {w : Window} {added : Option NodeId}
    (h : s.Admits s' w added) (h' : s'.Keeps s'') : s.Admits s'' w added where
  sound := (h'.stays h.sound).sound
  evolves := h.evolves.keeps h'
  unused := h.unused
  window n hn := (Tree.window?_of_standing (h'.standing n)).trans (h.window n hn)

theorem Joins.admits {s s' s'' : Stage} {n : NodeId} {client : Client} (h : s.Joins s' n client)
    (h' : s'.Keeps s'') : s.Admits (s''.restack n true) client.window (some n) := by
  obtain ⟨shapes, hs⟩ := (h'.stays h.sound).sound
  have hlive : (s''.model.tree.client? n).isSome := by
    rw [Tree.isSome_client?_of_standing (h'.standing n), h.client, Option.isSome_some]
  obtain ⟨hshaped, htree, hevolves⟩ := restack_spec hs hlive true
  refine ⟨⟨shapes, hshaped⟩, ?_, fun m hm => ?_, fun m hm => ?_⟩
  · exact .of_change (h'.settings.trans h.settings) (h'.stack.trans h.stack)
      (fun m hm => (h'.standing m).trans (h.other m hm)) hlive hevolves
  · rw [← Option.some.inj hm]
    exact h.unused
  · rw [← Option.some.inj hm, htree, Tree.window?_of_standing (h'.standing n), Tree.window?,
      h.client, Option.map_some]

theorem Admits.focusNode {s s' : Stage} {w : Window} {n : NodeId} (h : s.Admits s' w (some n)) :
    s.Admits (s'.focusNode (some n)) w (some n) := by
  have hlive := h.evolves.placed_client n rfl
  obtain ⟨shapes, hs⟩ := h.sound
  obtain ⟨hshaped, hstanding, hevolves⟩ := focusNode_spec hs hlive
  refine ⟨⟨shapes, hshaped⟩, ?_, h.unused, fun m hm => ?_⟩
  · exact h.evolves.again hevolves hstanding fun l hl => live_of_shaped hs hl
  · rw [Tree.window?_of_standing (hstanding m), h.window m hm]

theorem admits_manage {s : Stage} (hs : s.model.Sound) (w : Window) (named : WindowClass)
    (csq : Consequences) :
    s.Admits (s.manage w named csq).1 w (s.manage w named csq).2 := by
  unfold manage
  split
  · exact (Keeps.refl s).admits hs w
  rename_i hnew
  split
  · exact (Keeps.emit _ _).admits hs w
  rename_i r hr
  split
  · rename_i monitor d hmonitor hd
    have hnone : ∀ n, s.model.tree.window? n ≠ some w :=
      Tree.findWindow?_eq_none_iff.1 (by simpa using hnew)
    obtain ⟨u, n, hinsert, hjoins⟩ :=
      joins_insertClient hs hd (newClient w named csq monitor.rect) csq hnone
    rw [hinsert]
    dsimp only
    have hlayout (es es' : List Effect) : u.Keeps (((u.emit es).emit es').applyLayout r) :=
      (Keeps.emit u es).trans ((Keeps.emit _ es').trans (Keeps.applyLayout _ r))
    have hend (v : Stage) (hv : u.Keeps v) (focus : Bool) :
        s.Admits (if focus then (v.restack n true).focusNode (some n)
          else (v.restack n true).publishReport) w (some n) := by
      have hadmits := hjoins.admits hv
      cases focus with
      | false => exact hadmits.keeps (Keeps.emit _ _)
      | true => exact hadmits.focusNode
    split
    · exact hend _ ((hlayout _ _).trans (Keeps.emit _ _)) _
    · exact hend _ (hlayout _ _) _
  · exact (Keeps.refl s).admits hs w

/-! ## Removal -/

/-- The outcome of taking a leaf out of the stack and of its tree. -/
structure Parts (s s' : Stage) (n : NodeId) : Prop where
  sound : s'.model.Sound
  settings : s'.settings = s.settings
  stack : ∀ l, s.model.stack.Holds l → s'.model.stack.Holds (l.erase n)
  before : (s.model.tree.client? n).isSome
  after : s'.model.tree.client? n = none
  other : ∀ m, m ≠ n → s'.model.tree.standing? m = s.model.tree.standing? m

/-- The focus of a desktop stays where it is when a leaf is removed, or goes to the last leaf
that is left. -/
theorem owns_removed {t : Tree} {tree : Option Shape} {rest : List Shape}
    (h : t.Forest (tree.toList ++ rest)) {d : Desktop} {root : Option NodeId} {n f : NodeId}
    (hroot : root = tree.map Shape.top) (hfocus : d.focus = some f)
    (hkept : f ≠ n → ∃ s, tree = some s ∧ f ∈ s.leaves) :
    Desktop.Owns { d with
      root := root
      focus := if d.focus = some n then (t.leaves root).getLast? else d.focus } tree := by
  cases tree with
  | none =>
    have hfn : f = n := by
      by_contra hne
      obtain ⟨_, hnone, -⟩ := hkept hne
      cases hnone
    refine ⟨hroot, ?_⟩
    rw [if_pos (by rw [hfocus, hfn]), hroot]
    rfl
  | some s =>
    refine ⟨hroot, ?_⟩
    by_cases hfn : f = n
    · rw [if_pos (by rw [hfocus, hfn]), hroot, Option.map_some, h.leaves_eq List.mem_cons_self]
      obtain ⟨last, hlast⟩ := Option.isSome_iff_exists.1 (List.getLast?_isSome.2 s.leaves_ne_nil)
      exact ⟨last, List.mem_of_getLast? hlast, hlast⟩
    · obtain ⟨s', hs', hmem⟩ := hkept hfn
      obtain rfl := Option.some.inj hs'
      exact ⟨f, hmem, by rw [if_neg (by simpa [hfocus] using hfn), hfocus]⟩

theorem parts_removeClient {s : Stage} (hs : s.model.Sound) {n : NodeId}
    (hn : (s.model.tree.client? n).isSome) {r : DesktopRef} {d : Desktop}
    (hlocate : s.model.locate? n = some r) (hd : s.model.desktop? r = some d) :
    s.Parts (s.removeClient r d n) n := by
  obtain ⟨shapes, h⟩ := hs
  obtain ⟨shape, r', d', hmem, hleaf, hlocate', hd', howns⟩ := h.locate_client hn
  obtain rfl : r' = r := Option.some.inj (hlocate'.symm.trans hlocate)
  obtain rfl : d' = d := Option.some.inj (hd'.symm.trans hd)
  obtain ⟨left, o, right, hshapes, ho, hedit⟩ := h.edit hd
  obtain rfl : o = some shape := by
    cases o with
    | none => exact absurd (ho.1.symm.trans howns.1) (by simp)
    | some shape' => rw [h.owns_unique (by simp [hshapes]) hmem ho howns]
  subst hshapes
  have hforest := h.forest.perm (reduceOption_perm left (some shape) right)
  obtain ⟨tree, hroot, -, hforest', hgone, hother, before, after, hbefore, hafter⟩ :=
    Tree.removeLeaf_spec hforest hleaf
  obtain ⟨hdroot, f, hf, hdfocus⟩ := howns
  rw [← hdroot] at hroot hforest' hgone hother
  obtain ⟨t, root, node, hremove⟩ : ∃ t root node,
      s.model.tree.removeLeaf d'.root n = (t, root, node) := ⟨_, _, _, rfl⟩
  simp only [hremove] at hroot hforest' hgone hother
  have hwindow (m : NodeId) (w : Window) (hm : t.window? m = some w) :
      s.model.tree.window? m = some w := by
    by_cases hmn : m = n
    · rw [hmn, Tree.window?, hgone] at hm
      cases hm
    · rwa [Tree.window?, hother m hmn, ← Tree.window?] at hm
  have hholds (l : List NodeId) (hl : s.model.stack.Holds l) :
      (s.model.stack.remove s.model.tree n).Holds (l.erase n) := h.holds_remove hn hl
  have hshaped := hedit t (s.model.stack.remove s.model.tree n)
    (fun d => { d with
      root := root
      focus := if d'.focus = some n then (t.leaves root).getLast? else d'.focus }) tree
    (hforest'.perm (reduceOption_perm left tree right).symm)
    (owns_removed hforest' hroot hdfocus (Tree.exists_kept hbefore hafter hf))
    (fun a b w ha hb => h.windows a b w (hwindow a w ha) (hwindow b w hb)) ?_
  · have hresult : s.removeClient r' d' n = s.withModel (Model.modifyDesktop
        { s.model with tree := t, stack := s.model.stack.remove s.model.tree n } r' fun d =>
          { d with
            root := root
            focus := if d'.focus = some n then (t.leaves root).getLast? else d'.focus }) := by
      unfold removeClient
      rw [hremove]
    rw [hresult]
    exact ⟨⟨_, hshaped⟩, rfl, hholds, hn, hgone, fun m hm => Tree.standing?_of_client (hother m hm)⟩
  · obtain ⟨l, hl, hlive⟩ := h.stack
    refine ⟨l.erase n, hholds l hl, fun m hm => ?_⟩
    have hmn : m ≠ n := fun heq => hl.1.not_mem_erase (heq ▸ hm)
    rw [hother m hmn]
    exact hlive m (List.mem_of_mem_erase hm)

theorem Parts.evolves {s s' : Stage} {n : NodeId} (h : s.Parts s' n) :
    s.Evolves s' (some n) none where
  settings := h.settings
  standing m hg _ := h.other m fun heq => hg (heq ▸ rfl)
  gone_client m hm := by
    obtain rfl := Option.some.inj hm
    exact ⟨h.before, h.after⟩
  placed_client m hm := by cases hm
  stack l hl _ := ⟨l.erase n, h.stack l hl, rfl⟩

end Stage

end Tiling
