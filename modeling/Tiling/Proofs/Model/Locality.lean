import Tiling.Proofs.Model.Reachable
import Tiling.Proofs.Model.Turnover
import Tiling.Proofs.Tree.Gap
import Tiling.Proofs.Tree.Partition
/-!
# Changes of the layout are local

Every edit of a desktop arranges its whole tree anew.  All the same, a new window takes its room
from the leaf that has the focus, a window that goes leaves its room to the tree beside it, and
no other leaf moves.
-/

namespace Tiling

open Tiling.Tree (Shape HasShape plug pair gap)

namespace Model

theorem root?_eq (m : Model) (r : DesktopRef) : m.root? r = (m.plan? r).bind (·.2.1) := by
  rw [root?, desktop?, plan?]
  cases m.monitor? r with
  | none => rfl
  | some x => cases h : x.desktops[r.desktop]? <;> simp [h]

theorem plan?_modifyDesktop {m : Model} {r : DesktopRef} {monitor : Monitor} {d : Desktop}
    (hmonitor : m.monitor? r = some monitor) (hd : m.desktop? r = some d) (f : Desktop → Desktop) :
    (m.modifyDesktop r f).plan? r = some (monitor.rect, (f d).root, (f d).layout) := by
  rw [desktop?, hmonitor, Option.bind_some] at hd
  rw [monitor?] at hmonitor
  simp [plan?, monitor?, modifyDesktop, hmonitor, hd]

end Model

namespace Stage

variable {s s' s'' : Stage} {r r' : DesktopRef} {area rect : Rect} {shape : Shape} {layout : Layout}
  {d : Desktop} {monitor : Monitor} {n : NodeId} {w : Window}

/-! ## Trees that stay as they are -/

/-- From `s` to `s'` no tree changes, nor what it is arranged by. -/
structure Steady (s s' : Stage) : Prop where
  plan : s'.model.plan = s.model.plan
  links : ∀ n, s'.model.tree.links? n = s.model.tree.links? n

namespace Steady

theorem of_model (h : s'.model = s.model) : s.Steady s' :=
  ⟨congrArg Model.plan h, fun n => congrArg (fun m : Model => m.tree.links? n) h⟩

theorem refl (s : Stage) : s.Steady s := of_model rfl

theorem request (s : Stage) (q : Request) : s.Steady (s.request q) := of_model rfl

theorem publishReport (s : Stage) : s.Steady s.publishReport := of_model rfl

theorem trans (h : s.Steady s') (h' : s'.Steady s'') : s.Steady s'' :=
  ⟨h'.plan.trans h.plan, fun n => (h'.links n).trans (h.links n)⟩

theorem of_quiet (h : s.Quiet s') : s.Steady s' :=
  ⟨h.plan, fun n => Tree.links?_of_facet (h.facet n)⟩

theorem plan?_eq (h : s.Steady s') (r : DesktopRef) : s'.model.plan? r = s.model.plan? r := by
  rw [Model.plan?_eq, Model.plan?_eq, h.plan]

theorem applyLayout (s : Stage) (r : DesktopRef) : s.Steady (s.applyLayout r) := by
  unfold Stage.applyLayout
  split
  · exact ⟨rfl, fun n => Tree.map_get?_arrange (fun _ _ => rfl) _ _ _ _ n⟩
  · exact refl s

theorem restack (s : Stage) (n : NodeId) (promote : Bool) : s.Steady (s.restack n promote) :=
  ⟨rfl, fun _ => rfl⟩

theorem focusNode (s : Stage) (n : Option NodeId) : s.Steady (s.focusNode n) := by
  cases n with
  | none => exact of_model rfl
  | some n =>
    cases hlocate : s.model.locate? n with
    | none =>
      simp only [Stage.focusNode, hlocate]
      exact refl s
    | some r =>
      obtain ⟨words, heq⟩ := focusNode_eq hlocate
      rw [heq]
      have hchosen := of_quiet (Steps.quiet_choose s r n)
      exact hchosen.trans ((restack _ n true).trans (of_model rfl))

end Steady

/-- A desktop has an area, a tree of some shape and a layout. -/
structure Bears (s : Stage) (r : DesktopRef) (area : Rect) (shape : Shape) (layout : Layout) :
    Prop where
  plan : s.model.plan? r = some (area, some shape.top, layout)
  shape : HasShape s.model.tree none shape

namespace Bears

theorem congr (h : s.Bears r area shape layout) (hplan : s'.model.plan? r = s.model.plan? r)
    (hlinks : ∀ n ∈ shape.preorder, s'.model.tree.links? n = s.model.tree.links? n) :
    s'.Bears r area shape layout :=
  ⟨hplan.trans h.plan, h.shape.congr hlinks⟩

theorem steady (h : s.Bears r area shape layout) (hsteady : s.Steady s') :
    s'.Bears r area shape layout :=
  h.congr (hsteady.plan?_eq r) fun n _ => hsteady.links n

/-- An edit of one desktop leaves the trees of the others alone. -/
theorem edits {taken : List Window} (h : s.Bears r' area shape layout)
    (hedits : s.Edits s' r taken) (hne : r' ≠ r) : s'.Bears r' area shape layout := by
  obtain ⟨monitor, d, -, hd, -, hroot, -⟩ := Model.plan?_eq_some.1 h.plan
  exact h.congr (hedits.plan r' hne) fun n hn =>
    Tree.links?_of_facet (hedits.others r' d shape hne hd hroot h.shape n hn)

/-- The nodes of a settled desktop have the rectangles that its shape shares out. -/
theorem rect?_eq (h : s.Bears r area shape layout) (hsettled : s.Settled r)
    (hn : (n, rect) ∈ shape.rects layout area) : s.model.tree.rect? n = some rect := by
  obtain ⟨monitor, d, hmonitor, hd, rfl, hroot, rfl⟩ := Model.plan?_eq_some.1 h.plan
  exact (hsettled monitor d shape hmonitor hd hroot h.shape n rect hn).placed

theorem nodup (h : s.Bears r area shape layout) (hs : s.model.Sound) : shape.preorder.Nodup := by
  obtain ⟨monitor, d, -, hd, -, hroot, -⟩ := Model.plan?_eq_some.1 h.plan
  obtain ⟨shapes, hm⟩ := hs
  exact hm.forest.nodup_of_mem (Model.Shaped.mem_reduceOption.2 (hm.mem_of_root hd hroot h.shape).1)

theorem root?_eq (h : s.Bears r area shape layout) : s.model.root? r = some shape.top := by
  rw [Model.root?_eq, h.plan, Option.bind_some]

theorem leaves_eq (h : s.Bears r area shape layout) (hs : s.model.Sound) :
    s.model.tree.leaves (s.model.root? r) = shape.leaves := by
  rw [h.root?_eq, Tree.leaves_top h.shape (h.nodup hs)]

theorem locate?_eq (h : s.Bears r area shape layout) (hs : s.model.Sound)
    (hn : n ∈ shape.preorder) : s.model.locate? n = some r := by
  obtain ⟨monitor, d, -, hd, -, hroot, -⟩ := Model.plan?_eq_some.1 h.plan
  obtain ⟨shapes, hm⟩ := hs
  exact hm.locate?_of_root hd hroot h.shape hn

end Bears

theorem exists_bears (hs : s.model.Sound) (hmonitor : s.model.monitor? r = some monitor)
    (hd : s.model.desktop? r = some d) (hroot : d.root ≠ none) :
    ∃ shape, s.Bears r monitor.rect shape d.layout := by
  obtain ⟨shapes, hm⟩ := hs
  obtain ⟨x, hx⟩ := Option.ne_none_iff_exists'.1 hroot
  obtain ⟨shape, hmem, -, rfl⟩ := hm.exists_of_root hd hx
  exact ⟨shape, Model.plan?_eq_some.2 ⟨monitor, d, hmonitor, hd, rfl, hx, rfl⟩,
    hm.forest.hasShape (Model.Shaped.mem_reduceOption.2 hmem)⟩

/-! ## The rectangles of a desktop -/

/-- The nodes of a desktop, parents first, with their rectangles. -/
def rects (s : Stage) (r : DesktopRef) : List (NodeId × Option Rect) :=
  (s.model.tree.preorder (s.model.root? r)).map fun n => (n, s.model.tree.rect? n)

theorem Bears.rects_eq (h : s.Bears r area shape layout) (hs : s.model.Sound)
    (hsettled : s.Settled r) :
    s.rects r = (shape.rects layout area).map fun place => (place.1, some place.2) := by
  rw [rects, h.root?_eq, Tree.preorder_top h.shape (h.nodup hs), ← shape.map_fst_rects layout area,
    List.map_map]
  refine List.map_congr_left fun place hplace => ?_
  exact Prod.ext rfl (h.rect?_eq hsettled hplace)

theorem rects_of_root?_none (h : s.model.root? r = none) : s.rects r = [] := by
  rw [rects, h, Tree.preorder_none, List.map_nil]

/-- A desktop whose tree and layout stay the same keeps its rectangles. -/
theorem rects_eq_of_bears (hs : s.model.Sound) (hs' : s'.model.Sound) (hsettled : s.Settled r)
    (hsettled' : s'.Settled r) (hplan : s'.model.plan? r = s.model.plan? r)
    (hbears : ∀ area shape layout, s.Bears r area shape layout → s'.Bears r area shape layout) :
    s'.rects r = s.rects r := by
  cases hroot : s.model.root? r with
  | none =>
    have hroot' : s'.model.root? r = none := by rw [Model.root?_eq, hplan, ← Model.root?_eq, hroot]
    rw [rects_of_root?_none hroot, rects_of_root?_none hroot']
  | some x =>
    obtain ⟨d, hd, hdroot⟩ := Option.bind_eq_some_iff.1 hroot
    obtain ⟨monitor, hmonitor, -⟩ := Model.exists_of_desktop? hd
    obtain ⟨shape, h⟩ := exists_bears hs hmonitor hd (hdroot ▸ Option.some_ne_none x)
    rw [h.rects_eq hs hsettled, (hbears _ _ _ h).rects_eq hs' hsettled']

/-! ## A window that comes -/

/-- A window that goes beside the node comes before it. -/
def opensFirst (s : Stage) (n : NodeId) : Bool :=
  (s.model.tree.presel? n).any fun p => p.dir == .west || p.dir == .north

/-- A window on an empty desktop is its tree. -/
theorem bears_insertClient_alone (hs : s.model.Sound) (hmonitor : s.model.monitor? r = some monitor)
    (hd : s.model.desktop? r = some d) (hroot : d.root = none) (client : Client)
    (csq : Consequences) :
    (s.insertClient r d client csq).1.Bears r monitor.rect
      (.leaf (s.insertClient r d client csq).2) d.layout := by
  obtain ⟨shapes, hm⟩ := hs
  have hfocus : d.focus = none := by
    obtain ⟨o, -, howns⟩ := hm.owns_of_desktop? hd
    cases o with
    | none => exact howns.2
    | some shape =>
      rw [howns.1] at hroot
      cases hroot
  obtain ⟨t, n, hinsert, -, hforest, -⟩ := Tree.insertLeaf_first hm.forest client false
  have heq : s.insertClient r d client csq = (s.withModel (Model.modifyDesktop
      { s.model with tree := t.modify n fun node => { node with flags := csq.flags } } r fun d =>
        { d with root := some n, focus := d.focus.or (some n) }), n) := by
    simp only [insertClient, hfocus, hroot, Option.any_none, hinsert]
  rw [heq]
  refine ⟨Model.plan?_modifyDesktop hmonitor hd _, ?_⟩
  exact (hforest.hasShape List.mem_cons_self).congr fun m _ =>
    Tree.links?_modify t n m _ fun _ => rfl

/-- A window on another desktop splits the leaf that has the focus. -/
theorem bears_insertClient_beside (hs : s.model.Sound)
    (hmonitor : s.model.monitor? r = some monitor) (hd : s.model.desktop? r = some d)
    (hroot : d.root ≠ none) (client : Client) (csq : Consequences) :
    ∃ f frames up, d.focus = some f ∧ s.Bears r monitor.rect (plug frames (.leaf f)) d.layout ∧
      (s.insertClient r d client csq).1.Bears r monitor.rect
        (plug frames (pair up f (s.insertClient r d client csq).2 (s.opensFirst f))) d.layout := by
  obtain ⟨shapes, hm⟩ := hs
  obtain ⟨left, o, right, rfl, howns, -⟩ := hm.edit hd
  cases o with
  | none => exact absurd howns.1 hroot
  | some shape =>
    obtain ⟨hdroot, f, hf, hfocus⟩ := howns
    obtain ⟨frames, rfl⟩ := Tree.exists_plug_leaf hf
    have hperm := reduceOption_perm left (some (plug frames (.leaf f))) right
    have hforest := hm.forest.perm hperm
    have hold : s.Bears r monitor.rect (plug frames (.leaf f)) d.layout :=
      ⟨Model.plan?_eq_some.2 ⟨monitor, d, hmonitor, hd, rfl, hdroot, rfl⟩,
        hforest.hasShape List.mem_cons_self⟩
    -- the preselection of the leaf goes first
    obtain ⟨u, presel, htake⟩ : ∃ u presel, s.takePresel f = (u, presel) := ⟨_, _, rfl⟩
    have hpresel : s.model.tree.presel? f = presel := congrArg Prod.snd htake
    have hkeeps : s.Keeps u := by
      have hkeeps := keeps_takePresel s f
      rwa [htake] at hkeeps
    have humonitors : u.model.monitors = s.model.monitors := by
      have hmonitors := congrArg Model.monitors (model_takePresel s f)
      rwa [htake] at hmonitors
    obtain ⟨t, n, up, hinsert, hinserted⟩ := Tree.insertLeaf_plug
      (hkeeps.forest _ hm.forest |>.perm hperm) client (s.opensFirst f)
    have heq : s.insertClient r d client csq = (u.withModel (Model.modifyDesktop
        { u.model with tree := t.modify n fun node => { node with flags := csq.flags } } r fun d =>
          { d with
            root := some (plug frames (pair up f n (s.opensFirst f))).top
            focus := d.focus.or (some n) }), n) := by
      rw [opensFirst, hpresel] at hinsert ⊢
      simp only [insertClient, hfocus, htake, hdroot, hinsert]
    rw [heq]
    refine ⟨f, frames, up, hfocus, hold, Model.plan?_modifyDesktop ?_ ?_ _, ?_⟩
    · show u.model.monitors[r.monitor]? = _
      rw [humonitors]
      exact hmonitor
    · exact (hkeeps.desktop? r).trans hd
    · exact (hinserted.forest.hasShape List.mem_cons_self).congr
        fun m _ => Tree.links?_modify t n m _ fun _ => rfl

/-- Once a window is in the tree of its desktop, managing it changes no tree. -/
theorem steady_manage {u : Stage} {named : WindowClass} {csq : Consequences}
    (hnew : ¬ s.model.Manages w) (htarget : s.targetDesktop? csq = some r)
    (hmonitor : s.model.monitor? r = some monitor) (hd : s.model.desktop? r = some d)
    (hinsert : s.insertClient r d (newClient w named csq monitor.rect) csq = (u, n)) :
    (s.manage w named csq).2 = some n ∧ u.Steady (s.manage w named csq).1 := by
  rw [Model.Manages] at hnew
  simp only [manage, if_neg hnew, htarget, hmonitor, hd, hinsert]
  generalize [Numeral.hex8 ((d.focus.bind u.model.tree.window?).getD 0), Numeral.hex8 w] = words
  refine ⟨trivial, ?_⟩
  have hlaid : u.Steady (((u.announceAt .nodeAdd r words).request (.watch w)).applyLayout r) :=
    have hadded : u.Steady (u.announceAt .nodeAdd r words) := .of_model rfl
    hadded.trans ((Steady.request _ (.watch w)).trans (.applyLayout _ r))
  generalize ((u.announceAt .nodeAdd r words).request (.watch w)).applyLayout r = v at *
  have hrest (y : Stage) (hy : v.Steady y) (focus : Bool) : u.Steady (if focus = true
      then (y.restack n true).focusNode (some n) else (y.restack n true).publishReport) := by
    refine hlaid.trans (hy.trans (.trans (.restack y n true) ?_))
    split
    · exact .focusNode _ _
    · exact .publishReport _
  split
  · exact hrest _ (.request v _) _
  · exact hrest _ (.refl v) _

/-- What the arrival of a window owes to the rectangles of the tiled desktop where it goes. -/
structure MakesRoom (s s' : Stage) (r : DesktopRef) (d : Desktop) (area : Rect) (n : NodeId) :
    Prop where
  leaves : (s'.model.tree.leaves (s'.model.root? r)).Perm (n :: s.model.tree.leaves d.root)
  /-- The other leaves stay where they are. -/
  kept : ∀ m ∈ s.model.tree.leaves d.root, d.focus ≠ some m →
    s'.model.tree.rect? m = s.model.tree.rect? m
  /-- On an empty desktop the new leaf has all of the monitor. -/
  alone : d.root = none → s'.model.tree.rect? n = some area
  /-- On another one it has half of what the leaf with the focus had, which keeps the other
  half. -/
  beside : d.root ≠ none → ∃ f rect, d.focus = some f ∧ s.model.tree.rect? f = some rect ∧
    s'.model.tree.rect? n = some (if s.opensFirst f then rect.split.1 else rect.split.2) ∧
    s'.model.tree.rect? f = some (if s.opensFirst f then rect.split.2 else rect.split.1)

/-- The leaf that is split has the room of both halves. -/
theorem makesRoom_split {frames : List Tree.Frame} {f up : NodeId} (hs : s.model.Sound)
    (hs' : s'.model.Sound) (hsettled : s.Settled r) (hsettled' : s'.Settled r)
    (hroot : s.model.root? r = d.root) (hfocus : d.focus = some f)
    (hold : s.Bears r area (plug frames (.leaf f)) .tiled)
    (hnew : s'.Bears r area (plug frames (pair up f n (s.opensFirst f))) .tiled) :
    s.MakesRoom s' r d area n := by
  have hleaves := hold.leaves_eq hs
  have hsome := hold.root?_eq
  rw [hroot] at hleaves hsome
  obtain ⟨hfresh, hleft⟩ := Tree.mem_rects_pair up f n (s.opensFirst f) (gap .tiled frames area)
  refine ⟨?_, fun m hm hne => ?_, fun hnone => ?_, fun _ => ?_⟩
  · rw [hnew.leaves_eq hs', hleaves]
    exact Tree.leaves_plug_pair frames up f n (s.opensFirst f)
  · rw [hleaves] at hm
    have hmf : m ∉ (Shape.leaf f).preorder := by
      rw [Shape.preorder_leaf, List.mem_singleton]
      rintro rfl
      exact hne hfocus
    obtain ⟨rect, hrect⟩ :=
      Shape.exists_mem_rects (Shape.mem_preorder_of_mem_leaves hm) .tiled area
    rw [hold.rect?_eq hsettled hrect,
      hnew.rect?_eq hsettled' (Tree.mem_rects_plug_of_not_mem hmf hrect)]
  · rw [hnone] at hsome
    cases hsome
  · exact ⟨f, gap .tiled frames area, hfocus,
      hold.rect?_eq hsettled (Tree.mem_rects_plug.2 (.inl (by simp [Shape.rects]))),
      hnew.rect?_eq hsettled' (Tree.mem_rects_plug.2 (.inl hfresh)),
      hnew.rect?_eq hsettled' (Tree.mem_rects_plug.2 (.inl hleft))⟩

theorem makesRoom_manage (hs : s.model.Sound) (hsettled : ∀ r, s.Settled r) {named : WindowClass}
    {csq : Consequences} (hnew : ¬ s.model.Manages w) (htarget : s.targetDesktop? csq = some r)
    (hmonitor : s.model.monitor? r = some monitor) (hd : s.model.desktop? r = some d)
    (htiled : d.layout = .tiled) (hn : (s.manage w named csq).2 = some n) :
    s.MakesRoom (s.manage w named csq).1 r d monitor.rect n := by
  obtain ⟨u, m, hinsert⟩ : ∃ u m,
      s.insertClient r d (newClient w named csq monitor.rect) csq = (u, m) := ⟨_, _, rfl⟩
  obtain ⟨hm, hsteady⟩ := steady_manage hnew htarget hmonitor hd hinsert
  obtain rfl := Option.some.inj (hm.symm.trans hn)
  have hs' := (admits_manage hs w named csq).sound
  have hsettled' := (Steps.manage hs w named csq).settled hsettled r
  have hroot : s.model.root? r = d.root := by rw [Model.root?, hd, Option.bind_some]
  by_cases hempty : d.root = none
  · have hbears := bears_insertClient_alone hs hmonitor hd hempty
      (newClient w named csq monitor.rect) csq
    rw [hinsert] at hbears
    have hnew := hbears.steady hsteady
    have hold : s.model.tree.leaves d.root = [] := by rw [hempty]; rfl
    refine ⟨?_, fun m hm => ?_, fun _ => ?_, fun hne => absurd hempty hne⟩
    · rw [hnew.leaves_eq hs', hold, Shape.leaves_leaf]
    · rw [hold] at hm
      cases hm
    · exact hnew.rect?_eq hsettled' (by simp [Shape.rects])
  · obtain ⟨f, frames, up, hfocus, hold, hbears⟩ := bears_insertClient_beside hs hmonitor hd hempty
      (newClient w named csq monitor.rect) csq
    rw [hinsert, htiled] at hbears
    rw [htiled] at hold
    exact makesRoom_split hs hs' (hsettled r) hsettled' hroot hfocus hold (hbears.steady hsteady)

theorem rects_manage_other (hs : s.model.Sound) (hsettled : ∀ r, s.Settled r) {named : WindowClass}
    {csq : Consequences} (hnew : ¬ s.model.Manages w) (htarget : s.targetDesktop? csq = some r)
    (hmonitor : s.model.monitor? r = some monitor) (hd : s.model.desktop? r = some d)
    (hne : r' ≠ r) : (s.manage w named csq).1.rects r' = s.rects r' := by
  have hnone (n : NodeId) : s.model.tree.window? n ≠ some w := fun hn =>
    hnew (Model.manages_iff.2 ⟨n, hn⟩)
  obtain ⟨u, v, n, hinsert, -, hquiet, hedits, -⟩ :=
    edits_insertClient hs hd (newClient w named csq monitor.rect) csq hnone
  obtain ⟨-, hsteady⟩ := steady_manage hnew htarget hmonitor hd hinsert
  have hfirst := Steady.of_quiet hquiet
  refine rects_eq_of_bears hs (admits_manage hs w named csq).sound (hsettled r')
    ((Steps.manage hs w named csq).settled hsettled r') ?_ fun area shape layout h => ?_
  · rw [hsteady.plan?_eq, hedits.plan r' hne, hfirst.plan?_eq]
  · exact ((h.steady hfirst).edits hedits hne).steady hsteady

/-! ## A window that goes -/

/-- A leaf that goes was alone on its desktop, or leaves the place of its parent to its sibling. -/
theorem bears_removeClient (hs : s.model.Sound) (hn : (s.model.tree.client? n).isSome)
    (hlocate : s.model.locate? n = some r) (hmonitor : s.model.monitor? r = some monitor)
    (hd : s.model.desktop? r = some d) :
    (s.Bears r monitor.rect (.leaf n) d.layout ∧ (s.removeClient r d n).model.root? r = none) ∨
      ∃ f frames, s.Bears r monitor.rect (plug (f :: frames) (.leaf n)) d.layout ∧
        (s.removeClient r d n).Bears r monitor.rect (plug frames f.sibling) d.layout := by
  obtain ⟨shapes, hm⟩ := hs
  obtain ⟨left, shape, right, rfl, hleaf, hroot, -⟩ := hm.split_client hn hlocate hd
  have hforest := hm.forest.perm (reduceOption_perm left (some shape) right)
  have hold : s.Bears r monitor.rect shape d.layout :=
    ⟨Model.plan?_eq_some.2 ⟨monitor, d, hmonitor, hd, rfl, hroot, rfl⟩,
      hforest.hasShape List.mem_cons_self⟩
  have hplan : (s.removeClient r d n).model.plan? r = some (monitor.rect,
      (s.model.tree.removeLeaf d.root n).2.1, d.layout) :=
    Model.plan?_modifyDesktop hmonitor hd _
  rw [hroot] at hplan
  obtain ⟨frames, rfl⟩ := Tree.exists_plug_leaf hleaf
  cases frames with
  | nil =>
    obtain ⟨hgone, -⟩ := Tree.removeLeaf_only hforest
    refine .inl ⟨hold, ?_⟩
    rw [Model.root?_eq, hplan, Option.bind_some]
    exact hgone
  | cons f frames =>
    obtain ⟨hgone, -, hforest', -⟩ :=
      Tree.removeLeaf_sibling hforest (some (plug (f :: frames) (.leaf n)).top)
    refine .inr ⟨f, frames, hold, ?_, ?_⟩
    · rw [hplan, hgone, plug, Tree.root_plug]
    · have htree : (s.removeClient r d n).model.tree = (s.model.tree.removeLeaf d.root n).1 := rfl
      rw [htree, hroot]
      exact hforest'.hasShape List.mem_cons_self

/-- Once a leaf is out of the tree of its desktop, letting go of its window changes no tree. -/
theorem steady_unmanage (hn : s.model.tree.findWindow? w = some n)
    (hlocate : s.model.locate? n = some r) (hd : s.model.desktop? r = some d) :
    (s.unmanage w).2 = true ∧ (s.removeClient r d n).Steady (s.unmanage w).1 := by
  have hrest (u : Stage) (hu : u.model = s.model) (ws : List Window) (p : Prop) [Decidable p]
      (f : Option NodeId) : (s.removeClient r d n).Steady (if p
        then (((u.removeClient r d n).applyLayout r).request (.clientList ws)).focusNode f
        else (((u.removeClient r d n).applyLayout r).request (.clientList ws)).publishReport) := by
    have hremoved : (s.removeClient r d n).Steady (u.removeClient r d n) :=
      .of_model (model_removeClient hu r d n)
    refine hremoved.trans ((Steady.applyLayout _ r).trans (.trans (.request _ (.clientList ws)) ?_))
    split
    · exact .focusNode _ f
    · exact .publishReport _
  have hpair (p : Prop) [Decidable p] (x y : Stage) :
      (if p then (x, true) else (y, true)) = (if p then x else y, true) := by
    split <;> rfl
  obtain ⟨u, hu⟩ : ∃ u, u = s.announceAt .nodeRemove r [Numeral.hex8 w] := ⟨_, rfl⟩
  have humodel : u.model = s.model := hu ▸ rfl
  have hdestroy (feedback : Window) : (u.request (.destroy feedback)).model = s.model := humodel
  unfold unmanage
  simp only [hn, hlocate, ← hu, humodel]
  cases (s.model.tree.get? n).bind Node.feedback? with
  | none =>
    simp only [humodel, hd, hpair]
    exact ⟨trivial, hrest u humodel _ _ _⟩
  | some feedback =>
    simp only [hdestroy, hd, hpair]
    exact ⟨trivial, hrest (u.request (.destroy feedback)) (hdestroy feedback) _ _ _⟩

/-- What the departure of a leaf owes to the rectangles of its tiled desktop. -/
structure ClosesGap (s s' : Stage) (r : DesktopRef) (d : Desktop) (n : NodeId) : Prop where
  leaves : (s.model.tree.leaves d.root).Perm (n :: s'.model.tree.leaves (s'.model.root? r))
  /-- The leaves that are not below the sibling stay where they are. -/
  kept : ∀ m ∈ s.model.tree.leaves d.root, m ≠ n →
    (∀ p q, s.model.tree.Siblings p n q → m ∉ s.model.tree.preorder (some q)) →
    s'.model.tree.rect? m = s.model.tree.rect? m
  /-- The tree of the sibling is arranged anew over what the parent had. -/
  retiled : ∀ p q, s.model.tree.Siblings p n q → ∃ rect, s.model.tree.rect? p = some rect ∧
    ∀ m ∈ s.model.tree.preorder (some q),
      s'.model.tree.rect? m = (s.model.tree.arrange (some q) rect .tiled).1.rect? m

/-- The sibling has the room of the leaf that has gone. -/
theorem closesGap_sibling {f : Tree.Frame} {frames : List Tree.Frame} (hs : s.model.Sound)
    (hs' : s'.model.Sound) (hsettled : s.Settled r) (hsettled' : s'.Settled r)
    (hroot : s.model.root? r = d.root)
    (hold : s.Bears r area (plug (f :: frames) (.leaf n)) .tiled)
    (hnew : s'.Bears r area (plug frames f.sibling) .tiled) : s.ClosesGap s' r d n := by
  have hleaves := hold.leaves_eq hs
  rw [hroot] at hleaves
  have hnodup := hold.nodup hs
  have hsibling : HasShape s.model.tree (some f.node) f.sibling :=
    (Tree.hasShape_plug.1 hold.shape).1.2.1
  have hapart := Tree.nodup_sibling hnodup
  have hsiblings {p q : NodeId} := Tree.siblings_iff (p := p) (q := q) hold.shape hapart.2
  have hpreorder := Tree.preorder_top hsibling hapart.1
  refine ⟨?_, fun m hm hne hout => ?_, fun p q hpq => ?_⟩
  · rw [hleaves, hnew.leaves_eq hs']
    exact Tree.leaves_plug_sibling f frames n
  · have hout := hout f.node f.sibling.top (hsiblings.2 ⟨rfl, rfl⟩)
    rw [hpreorder] at hout
    rw [hleaves] at hm
    obtain ⟨rect, hrect⟩ :=
      Shape.exists_mem_rects (Shape.mem_preorder_of_mem_leaves hm) .tiled area
    rw [hold.rect?_eq hsettled hrect, hnew.rect?_eq hsettled'
      (Tree.mem_rects_plug_of_not_mem (Tree.not_mem_fill hnodup hm hne hout) hrect)]
  · obtain ⟨rfl, rfl⟩ := hsiblings.1 hpq
    refine ⟨gap .tiled frames area, hold.rect?_eq hsettled (Tree.mem_rects_node f), fun m hm => ?_⟩
    rw [hpreorder] at hm
    obtain ⟨rect, hrect⟩ := Shape.exists_mem_rects hm .tiled (gap .tiled frames area)
    rw [hnew.rect?_eq hsettled' (Tree.mem_rects_plug.2 (.inl hrect)),
      Tree.rect?_arrange hsibling hapart.1 hrect]

theorem closesGap_unmanage (hs : s.model.Sound) (hsettled : ∀ r, s.Settled r)
    (hn : s.model.tree.findWindow? w = some n) (hlocate : s.model.locate? n = some r)
    (hd : s.model.desktop? r = some d) (htiled : d.layout = .tiled) :
    s.ClosesGap (s.unmanage w).1 r d n := by
  have hlive : (s.model.tree.client? n).isSome := by
    rw [← Model.isSome_window?, Tree.window?_of_findWindow hn, Option.isSome_some]
  obtain ⟨monitor, hmonitor, -⟩ := Model.exists_of_desktop? hd
  obtain ⟨-, hsteady⟩ := steady_unmanage hn hlocate hd
  have hs' := (releases_unmanage hs hn).2.sound
  have hsettled' := (Steps.unmanage hs w : Steps [] s _).settled hsettled r
  have hroot : s.model.root? r = d.root := by rw [Model.root?, hd, Option.bind_some]
  rcases bears_removeClient hs hlive hlocate hmonitor hd with
    ⟨hold, hgone⟩ | ⟨f, frames, hold, hremoved⟩
  · have hleaves := hold.leaves_eq hs
    rw [hroot, Shape.leaves_leaf] at hleaves
    have hroot' : (s.unmanage w).1.model.root? r = none := by
      rw [Model.root?_eq, hsteady.plan?_eq, ← Model.root?_eq, hgone]
    refine ⟨?_, fun m hm hne => ?_, fun p q hsiblings => ?_⟩
    · rw [hleaves, hroot']
      exact .refl _
    · rw [hleaves, List.mem_singleton] at hm
      exact absurd hm hne
    · -- a leaf that is alone has no parent
      have hparent := Tree.parent?_of_links? (Tree.hasShape_leaf.1 hold.shape)
      rw [hsiblings.1] at hparent
      cases hparent
  · rw [htiled] at hold hremoved
    exact closesGap_sibling hs hs' (hsettled r) hsettled' hroot hold (hremoved.steady hsteady)

theorem rects_unmanage_other (hs : s.model.Sound) (hsettled : ∀ r, s.Settled r)
    (hn : s.model.tree.findWindow? w = some n) (hlocate : s.model.locate? n = some r)
    (hd : s.model.desktop? r = some d) (hne : r' ≠ r) : (s.unmanage w).1.rects r' = s.rects r' := by
  have hlive : (s.model.tree.client? n).isSome := by
    rw [← Model.isSome_window?, Tree.window?_of_findWindow hn, Option.isSome_some]
  have hedits := edits_removeClient hs hlive hlocate hd
  obtain ⟨-, hsteady⟩ := steady_unmanage hn hlocate hd
  refine rects_eq_of_bears hs (releases_unmanage hs hn).2.sound (hsettled r')
    ((Steps.unmanage hs w : Steps [] s _).settled hsettled r') ?_ fun area shape layout h => ?_
  · rw [hsteady.plan?_eq, hedits.plan r' hne]
  · exact (h.edits hedits hne).steady hsteady

/-! ## Both -/

/-- Wherever a window is taken in or let go of, on a tiled desktop only the leaf that makes room
for it or fills its gap moves, and on no other desktop anything moves. -/
theorem layout_local (h : s.Reachable) :
    (∀ w named csq r d monitor, ¬ s.model.Manages w → s.targetDesktop? csq = some r →
      s.model.desktop? r = some d → s.model.monitor? r = some monitor →
      ∃ n, (s.manage w named csq).2 = some n ∧
        (d.layout = .tiled → s.MakesRoom (s.manage w named csq).1 r d monitor.rect n) ∧
        ∀ r', r' ≠ r → (s.manage w named csq).1.rects r' = s.rects r') ∧
    ∀ w n r d, s.model.tree.findWindow? w = some n → s.model.locate? n = some r →
      s.model.desktop? r = some d →
      (s.unmanage w).2 = true ∧
        (d.layout = .tiled → s.ClosesGap (s.unmanage w).1 r d n) ∧
        ∀ r', r' ≠ r → (s.unmanage w).1.rects r' = s.rects r' := by
  have hs := h.sound
  have hsettled := h.settled
  constructor
  · intro w named csq r d monitor hnew htarget hd hmonitor
    obtain ⟨hn, -⟩ := steady_manage hnew htarget hmonitor hd rfl
    exact ⟨_, hn, fun htiled => makesRoom_manage hs hsettled hnew htarget hmonitor hd htiled hn,
      fun r' hne => rects_manage_other hs hsettled hnew htarget hmonitor hd hne⟩
  · intro w n r d hn hlocate hd
    exact ⟨(steady_unmanage hn hlocate hd).1, closesGap_unmanage hs hsettled hn hlocate hd,
      fun r' hne => rects_unmanage_other hs hsettled hn hlocate hd hne⟩

/-- Two windows side by side, with a preselection above the second one. -/
def sideBySide : Stage :=
  (fresh [("screen0", ⟨0, 0, 1919, 1080⟩)] ["I", "II"] .standard (.counting 100 1 1)).run
    [.manage 1 .unknown .standard, .manage 2 .unknown .standard, .presel .focused (some .north)]

theorem layout_local_sideBySide :
    let d : Desktop := ⟨2097154, "I", .tiled, some ⟨2⟩, some ⟨1⟩⟩
    (∃ n, (sideBySide.manage 3 .unknown .standard).2 = some n ∧
      sideBySide.MakesRoom (sideBySide.manage 3 .unknown .standard).1 ⟨0, 0⟩ d
        ⟨0, 0, 1919, 1080⟩ n ∧
      (sideBySide.manage 3 .unknown .standard).1.rects ⟨0, 1⟩ = sideBySide.rects ⟨0, 1⟩) ∧
    sideBySide.ClosesGap (sideBySide.unmanage 1).1 ⟨0, 0⟩ d ⟨0⟩ := by
  intro d
  have hreachable : sideBySide.Reachable := ⟨_, _, _, _, [], _, rfl⟩
  obtain ⟨hmanage, hunmanage⟩ := layout_local hreachable
  have hd : sideBySide.model.desktop? ⟨0, 0⟩ = some d := by decide +kernel
  obtain ⟨monitor, hmonitor, hrect⟩ := Option.map_eq_some_iff.1
    (show (sideBySide.model.monitor? ⟨0, 0⟩).map Monitor.rect = some ⟨0, 0, 1919, 1080⟩ by
      decide +kernel)
  obtain ⟨n, hn, hroom, hothers⟩ := hmanage 3 .unknown .standard ⟨0, 0⟩ d monitor
    (by decide +kernel) (by decide +kernel) hd hmonitor
  obtain ⟨-, hgap, -⟩ := hunmanage 1 ⟨0⟩ ⟨0, 0⟩ d (by decide +kernel) (by decide +kernel) hd
  exact ⟨⟨n, hn, hrect ▸ hroom rfl, hothers ⟨0, 1⟩ (by decide)⟩, hgap rfl⟩

end Stage

end Tiling
