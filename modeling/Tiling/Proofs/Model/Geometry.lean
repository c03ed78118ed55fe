import Tiling.Proofs.Model.Steps
import Tiling.Proofs.Tree.Rects
/-!
# Geometry

Every node has the rectangle that the layout of its desktop shares out for it, and every window
was last sent to the place where it belongs: with its node while the layout places it, where it
floats, or all over the monitor.  An edit of a desktop sends all its windows there anew; the
other desktops keep what they have, since neither nodes nor windows are on two of them.
-/

namespace Tiling

open Tiling.Tree (Shape HasShape)

/-- Where a window belongs, by the area of its monitor and the rectangle of its node. -/
def Client.intended (c : Client) (area rect : Rect) : Rect :=
  match c.state with
  | .tiled | .pseudoTiled => rect
  | .floating => c.floatingRect
  | .fullscreen => area

theorem Client.intended_of_place {c c' : Client} (h : c'.place = c.place) (area rect : Rect) :
    c'.intended area rect = c.intended area rect := by
  simp only [place, Prod.mk.injEq] at h
  rw [intended, intended, h.2.1, h.2.2]

/-- The place that a window is sent to. -/
def Effect.sends? (w : Window) : Effect → Option Rect
  | .request (.configure w' rect) => if w' = w then some rect else none
  | _ => none

theorem Effect.Quiet.sends?_eq {feedback : Window → Prop} {e : Effect} (h : e.Quiet feedback)
    (w : Window) : e.sends? w = none := by
  cases h <;> rfl

theorem Effect.sends?_configure {w w' : Window} {rect place : Rect} :
    (Effect.request (.configure w' place)).sends? w = some rect ↔ w' = w ∧ place = rect := by
  rw [sends?]
  split <;> simp_all

namespace Tree

theorem modifyClient_id (t : Tree) (n : NodeId) : t.modifyClient n id = t :=
  congrArg Tree.mk (Slots.modify_eq_self fun node _ => by rw [Option.map_id, id])

/-! ## The two lists of places -/

theorem placement?_eq_some {node : Node} {rect place : Rect} {w : Window} :
    placement? node rect = some (w, place) ↔
      ∃ c, node.client = some c ∧ c.state.isTiled = true ∧ c.window = w ∧ rect = place := by
  simp [placement?, Option.filter_eq_some_iff, and_assoc]

end Tree

theorem Stage.freeRect?_eq_some {c : Client} {area place rect : Rect} :
    freeRect? area c = some place ↔ c.state.isTiled = false ∧ c.intended area rect = place := by
  unfold freeRect? Client.intended
  cases c.state <;> simp [ClientState.isTiled]

theorem Client.intended_of_isTiled {c : Client} (h : c.state.isTiled = true) (area rect : Rect) :
    c.intended area rect = rect := by
  unfold intended
  cases hstate : c.state <;> simp_all [ClientState.isTiled]

theorem Model.plan?_eq_some {m : Model} {r : DesktopRef} {area : Rect} {root : Option NodeId}
    {layout : Layout} : m.plan? r = some (area, root, layout) ↔
      ∃ monitor d, m.monitor? r = some monitor ∧ m.desktop? r = some d ∧ monitor.rect = area ∧
        d.root = root ∧ d.layout = layout := by
  rw [plan?, desktop?]
  cases m.monitor? r <;> simp

namespace Stage

/-- The place that a window was last sent to. -/
def sent? (s : Stage) (w : Window) : Option Rect := s.history.findSome? (Effect.sends? w)

theorem sent?_of_history {s s' : Stage} {es : List Effect} (h : s'.history = es ++ s.history)
    {w : Window} (hes : ∀ e ∈ es, e.sends? w = none) : s'.sent? w = s.sent? w := by
  rw [sent?, h, List.findSome?_append, List.findSome?_eq_none_iff.2 hes, Option.none_or, sent?]

section Places

variable {s : Stage} {places : List (Window × Rect)} {w : Window}

theorem history_places (s : Stage) (places : List (Window × Rect)) :
    (s.requests (places.map fun (w, rect) => .configure w rect)).history =
      (places.map fun (w, rect) => .request (.configure w rect)).reverse ++ s.history := by
  rw [requests, List.map_map]
  rfl

theorem sent?_places_other (h : ∀ rect, (w, rect) ∉ places) :
    (s.requests (places.map fun (w, rect) => .configure w rect)).sent? w = s.sent? w := by
  apply sent?_of_history (history_places s places)
  intro e he
  obtain ⟨⟨w', place⟩, hmem, rfl⟩ := List.mem_map.1 (List.mem_reverse.1 he)
  cases hsends : Effect.sends? w (.request (.configure w' place)) with
  | none => rfl
  | some rect =>
    obtain ⟨rfl, -⟩ := Effect.sends?_configure.1 hsends
    exact absurd hmem (h place)

theorem sent?_places {rect : Rect} (h : (w, rect) ∈ places)
    (hunique : ∀ place, (w, place) ∈ places → place = rect) :
    (s.requests (places.map fun (w, rect) => .configure w rect)).sent? w = some rect := by
  rw [sent?, history_places, List.findSome?_append]
  generalize hes : (places.map fun (w, rect) => Effect.request (.configure w rect)).reverse = es
  cases hfind : es.findSome? (Effect.sends? w) with
  | none =>
    rw [← hes] at hfind
    have hnone := List.findSome?_eq_none_iff.1 hfind (.request (.configure w rect))
      (List.mem_reverse.2 (List.mem_map.2 ⟨(w, rect), h, rfl⟩))
    rw [Effect.sends?_configure.2 ⟨rfl, rfl⟩] at hnone
    cases hnone
  | some place =>
    obtain ⟨e, he, hsends⟩ := List.exists_of_findSome?_eq_some hfind
    rw [← hes] at he
    obtain ⟨⟨w', place'⟩, hmem, rfl⟩ := List.mem_map.1 (List.mem_reverse.1 he)
    obtain ⟨rfl, rfl⟩ := Effect.sends?_configure.1 hsends
    rw [hunique place' hmem, Option.some_or]

end Places

/-! ## Settled desktops -/

/-- A node has its rectangle, and its window was last sent where it belongs. -/
structure Rests (s : Stage) (area : Rect) (n : NodeId) (rect : Rect) : Prop where
  placed : s.model.tree.rect? n = some rect
  sent : ∀ c, s.model.tree.client? n = some c → s.sent? c.window = some (c.intended area rect)

theorem Rests.congr {s s' : Stage} {area rect : Rect} {n : NodeId} (h : s.Rests area n rect)
    (hfacet : s'.model.tree.facet? n = s.model.tree.facet? n)
    (hsent : ∀ w, s.model.tree.window? n = some w → s'.sent? w = s.sent? w) :
    s'.Rests area n rect where
  placed := (Tree.rect?_of_facet hfacet).trans h.placed
  sent c hc := by
    have hplace := Tree.place?_of_facet hfacet
    rw [Tree.place?, hc, Option.map_some] at hplace
    obtain ⟨old, hold, hplace⟩ := Option.map_eq_some_iff.1 hplace.symm
    have hwindow : c.window = old.window := (congrArg Prod.fst hplace).symm
    have holdsent : s'.sent? old.window = s.sent? old.window :=
      hsent _ (by rw [Tree.window?, hold, Option.map_some])
    rw [hwindow, holdsent, h.sent old hold, Client.intended_of_place hplace]

/-- Every node of a desktop rests where the layout puts it. -/
def Settled (s : Stage) (r : DesktopRef) : Prop :=
  ∀ monitor d shape, s.model.monitor? r = some monitor → s.model.desktop? r = some d →
    d.root = some shape.top → HasShape s.model.tree none shape →
    ∀ n rect, (n, rect) ∈ shape.rects d.layout monitor.rect → s.Rests monitor.rect n rect

/-- A desktop with the same tree and the same layout stays settled if its nodes keep resting. -/
theorem Settled.transfer {s s' : Stage} {r : DesktopRef} (h : s.Settled r) (hs : s.model.Sound)
    (hplan : s'.model.plan? r = s.model.plan? r)
    (hrests : ∀ monitor d shape, s.model.monitor? r = some monitor → s.model.desktop? r = some d →
      d.root = some shape.top → HasShape s.model.tree none shape → ∀ n ∈ shape.preorder,
      s'.model.tree.links? n = s.model.tree.links? n ∧
        ∀ rect, s.Rests monitor.rect n rect → s'.Rests monitor.rect n rect) : s'.Settled r := by
  intro monitor' d' shape hmonitor' hd' hroot' hshape' n rect hmem
  obtain ⟨monitor, d, hmonitor, hd, hrect, hroot, hlayout⟩ := Model.plan?_eq_some.1
    (hplan.symm.trans (Model.plan?_eq_some.2 ⟨monitor', d', hmonitor', hd', rfl, hroot', rfl⟩))
  obtain ⟨shapes, hm⟩ := hs
  obtain ⟨old, hold, howns, htop⟩ := hm.exists_of_root hd hroot
  have hshape := hm.forest.hasShape (Model.Shaped.mem_reduceOption.2 hold)
  have hnodes := hrests monitor d old hmonitor hd howns.1 hshape
  -- links that stay the same span the same shape
  obtain rfl := (hshape.congr fun m hm => (hnodes m hm).1).unique hshape' htop
  rw [← hrect, ← hlayout] at hmem
  rw [← hrect]
  exact (hnodes n (Shape.mem_of_mem_rects hmem)).2 rect
    (h monitor d old hmonitor hd howns.1 hshape n rect hmem)

theorem Settled.congr {s s' : Stage} {r : DesktopRef} (h : s.Settled r) (hs : s.model.Sound)
    (hplan : s'.model.plan? r = s.model.plan? r)
    (hfacet : ∀ d shape, s.model.desktop? r = some d → d.root = some shape.top →
      HasShape s.model.tree none shape → ∀ n ∈ shape.preorder,
      s'.model.tree.facet? n = s.model.tree.facet? n ∧
        ∀ w, s.model.tree.window? n = some w → s'.sent? w = s.sent? w) : s'.Settled r := by
  apply h.transfer hs hplan
  intro monitor d shape hmonitor hd hroot hshape n hn
  obtain ⟨hsame, hsent⟩ := hfacet d shape hd hroot hshape n hn
  exact ⟨Tree.links?_of_facet hsame, fun rect hrests => hrests.congr hsame hsent⟩

/-! ## The layout of a desktop -/

section Layout

variable {s : Stage} {shapes : List (Option Shape)} {r : DesktopRef} {monitor : Monitor}
  {d : Desktop} {shape : Shape}

/-- A layout writes down the rectangles and sends every window where it belongs. -/
theorem applyLayout_eq (h : s.model.Shaped shapes) (hmonitor : s.model.monitor? r = some monitor)
    (hd : s.model.desktop? r = some d) (hmem : some shape ∈ shapes)
    (hroot : d.root = some shape.top) :
    ∃ places : List (Window × Rect),
      s.applyLayout r =
          (s.modifyTree fun t => t.assign (shape.rects d.layout monitor.rect)).requests
            (places.map fun (w, rect) => .configure w rect) ∧
        ∀ w place, (w, place) ∈ places ↔
          ∃ n rect c, (n, rect) ∈ shape.rects d.layout monitor.rect ∧
            s.model.tree.client? n = some c ∧ c.window = w ∧
            c.intended monitor.rect rect = place := by
  have hstands := h.forest.stands shape (Model.Shaped.mem_reduceOption.2 hmem)
  have hnodup := h.forest.nodup_of_mem (Model.Shaped.mem_reduceOption.2 hmem)
  generalize hrects : shape.rects d.layout monitor.rect = rects
  have harrange := Tree.arrange_rects hstands.hasShape hnodup monitor.rect d.layout
  rw [hrects] at harrange
  have hleaves : (s.model.tree.assign rects).leaves (some shape.top) = shape.leaves :=
    Tree.leaves_top (hstands.hasShape.assign rects) hnodup
  refine ⟨_, by simp only [applyLayout, hmonitor, hd, hroot, harrange]; rfl, fun w place => ?_⟩
  rw [hleaves, funext (Tree.client?_assign _ rects), List.mem_append]
  simp only [List.mem_filterMap]
  constructor
  -- tiled windows are placed with their nodes, the others one by one
  · rintro (⟨⟨n, rect⟩, hn, hplaced⟩ | ⟨c, ⟨n, hn, hc⟩, hfree⟩)
    · obtain ⟨node, hnode, hplaced⟩ := Option.bind_eq_some_iff.1 hplaced
      obtain ⟨c, hc, htiled, hw, rfl⟩ := Tree.placement?_eq_some.1 hplaced
      refine ⟨n, rect, c, hn, ?_, hw, c.intended_of_isTiled htiled _ _⟩
      rw [Tree.client?, hnode, Option.bind_some, hc]
    · obtain ⟨place', hplace', hpair⟩ := Option.map_eq_some_iff.1 hfree
      obtain ⟨rfl, rfl⟩ := Prod.mk.inj hpair
      have hnode := Shape.mem_preorder_of_mem_leaves hn
      obtain ⟨rect, hrect⟩ := Shape.exists_mem_rects hnode d.layout monitor.rect
      exact ⟨n, rect, c, hrects ▸ hrect, hc, rfl, (freeRect?_eq_some.1 hplace').2⟩
  · rintro ⟨n, rect, c, hn, hc, rfl, rfl⟩
    cases htiled : c.state.isTiled with
    | true =>
      obtain ⟨node, hnode, hnodeclient⟩ := Option.bind_eq_some_iff.1 hc
      refine .inl ⟨(n, rect), hn, Option.bind_eq_some_iff.2 ⟨node, hnode, ?_⟩⟩
      exact Tree.placement?_eq_some.2 ⟨c, hnodeclient, htiled, rfl,
        (c.intended_of_isTiled htiled _ _).symm⟩
    | false =>
      have hleaf : n ∈ shape.leaves := by
        rcases Shape.mem_preorder_iff.1 (Shape.mem_of_mem_rects (hrects ▸ hn)) with hleaf | hinner
        · exact hleaf
        · rw [hstands.inner_client n hinner] at hc
          cases hc
      refine .inr ⟨c, ⟨n, hleaf, hc⟩, Option.map_eq_some_iff.2 ⟨_, ?_, rfl⟩⟩
      exact freeRect?_eq_some.2 ⟨htiled, rfl⟩

/-- Without a tree there is nothing to lay out. -/
theorem applyLayout_of_root?_none (hroot : s.model.root? r = none) : s.applyLayout r = s := by
  unfold applyLayout
  split
  · rename_i monitor d hmonitor hd
    rw [Model.root?, hd, Option.bind_some] at hroot
    rw [hroot, Tree.arrange_none]
    rfl
  · rfl

theorem settled_of_root?_none (hroot : s.model.root? r = none) : s.Settled r := by
  intro monitor d shape hmonitor hd hsome
  rw [Model.root?, hd, Option.bind_some, hsome] at hroot
  cases hroot

/-- A leaf gives its window one place, and no other leaf does. -/
theorem applyLayout_places (h : s.model.Shaped shapes)
    (hmonitor : s.model.monitor? r = some monitor) (hd : s.model.desktop? r = some d)
    (hmem : some shape ∈ shapes) (hroot : d.root = some shape.top) :
    ∃ places : List (Window × Rect),
      s.applyLayout r =
          (s.modifyTree fun t => t.assign (shape.rects d.layout monitor.rect)).requests
            (places.map fun (w, rect) => .configure w rect) ∧
        ∀ n c, s.model.tree.client? n = some c → ∀ place, (c.window, place) ∈ places ↔
          ∃ rect, (n, rect) ∈ shape.rects d.layout monitor.rect ∧
            c.intended monitor.rect rect = place := by
  obtain ⟨places, heq, hplaces⟩ := applyLayout_eq h hmonitor hd hmem hroot
  refine ⟨places, heq, fun n c hc place => (hplaces _ _).trans ⟨?_, ?_⟩⟩
  · rintro ⟨m, rect, c', hm, hc', hwindow, hintended⟩
    have hmn : m = n := h.windows m n c.window (by rw [Tree.window?, hc', Option.map_some, hwindow])
      (by rw [Tree.window?, hc, Option.map_some])
    subst hmn
    obtain rfl := Option.some.inj (hc'.symm.trans hc)
    exact ⟨rect, hm, hintended⟩
  · rintro ⟨rect, hm, hintended⟩
    exact ⟨n, rect, c, hm, hc, rfl, hintended⟩

/-- A layout settles its desktop. -/
theorem settled_applyLayout (hs : s.model.Sound) (r : DesktopRef) :
    (s.applyLayout r).Settled r := by
  cases hsome : s.model.root? r with
  | none =>
    rw [applyLayout_of_root?_none hsome]
    exact settled_of_root?_none hsome
  | some x =>
    obtain ⟨d, hd, hdroot⟩ := Option.bind_eq_some_iff.1 hsome
    obtain ⟨monitor, hmonitor, -⟩ := Model.exists_of_desktop? hd
    obtain ⟨shapes, h⟩ := id hs
    obtain ⟨shape, hmem, ⟨hroot, -⟩, -⟩ := h.exists_of_root hd hdroot
    have hshape := h.forest.hasShape (Model.Shaped.mem_reduceOption.2 hmem)
    have hkeys : ((shape.rects d.layout monitor.rect).map Prod.fst).Nodup := by
      rw [Shape.map_fst_rects]
      exact h.forest.nodup_of_mem (Model.Shaped.mem_reduceOption.2 hmem)
    obtain ⟨places, heq, hplaces⟩ := applyLayout_places h hmonitor hd hmem hroot
    rw [heq]
    intro monitor' d' shape' hmonitor' hd' hroot' hshape' n rect hn
    obtain rfl : monitor = monitor' := Option.some.inj (hmonitor.symm.trans hmonitor')
    obtain rfl : d = d' := Option.some.inj (hd.symm.trans hd')
    obtain rfl : shape = shape' := (hshape.assign _).unique hshape'
      (Option.some.inj (hroot.symm.trans hroot'))
    constructor
    · obtain ⟨node, hnode⟩ := Option.isSome_iff_exists.1
        (hshape.isSome_get? (Shape.mem_of_mem_rects hn))
      show (s.model.tree.assign _).rect? n = _
      rw [Tree.rect?, Tree.rect_assign _ hkeys hn, hnode, Option.map_some]
    · intro c hc
      change (s.model.tree.assign _).client? n = some c at hc
      rw [Tree.client?_assign] at hc
      apply sent?_places ((hplaces n c hc _).2 ⟨rect, hn, rfl⟩)
      intro place hmem
      obtain ⟨rect', hn', rfl⟩ := (hplaces n c hc place).1 hmem
      rw [(Prod.mk.inj (List.inj_on_of_nodup_map hkeys hn hn' rfl)).2]

/-- A layout leaves the other desktops alone. -/
theorem Settled.applyLayout {r' : DesktopRef} (hsettled : s.Settled r') (hs : s.model.Sound)
    (hne : r' ≠ r) : (s.applyLayout r).Settled r' := by
  cases hsome : s.model.root? r with
  | none =>
    rw [applyLayout_of_root?_none hsome]
    exact hsettled
  | some x =>
    obtain ⟨d, hd, hdroot⟩ := Option.bind_eq_some_iff.1 hsome
    obtain ⟨monitor, hmonitor, -⟩ := Model.exists_of_desktop? hd
    obtain ⟨shapes, h⟩ := id hs
    obtain ⟨shape, hmem, ⟨hroot, -⟩, -⟩ := h.exists_of_root hd hdroot
    have hshape := h.forest.hasShape (Model.Shaped.mem_reduceOption.2 hmem)
    obtain ⟨places, heq, hplaces⟩ := applyLayout_places h hmonitor hd hmem hroot
    rw [heq]
    refine hsettled.congr hs rfl ?_
    intro d' shape' hd' hroot' hshape' n hn
    have hout : n ∉ shape.preorder := by
      intro hin
      have hthere := h.locate?_of_root hd' hroot' hshape' hn
      have hhere := h.locate?_of_root hd hroot hshape hin
      exact hne (Option.some.inj (hthere.symm.trans hhere))
    constructor
    · show (s.model.tree.assign _).facet? n = _
      rw [Tree.facet?, Tree.get?_assign_other _ (by rwa [Shape.map_fst_rects]), Tree.facet?]
    · intro w hw
      obtain ⟨c, hc, rfl⟩ := Option.map_eq_some_iff.1 hw
      apply sent?_places_other
      intro place hmem
      obtain ⟨rect, hrect, -⟩ := (hplaces n c hc place).1 hmem
      exact hout (Shape.mem_of_mem_rects hrect)

end Layout

/-! ## Steps -/

section Steps

variable {s s' : Stage} {taken : List Window}

theorem Settled.quiet {r : DesktopRef} (h : s.Settled r) (hs : s.model.Sound)
    (hquiet : s.Quiet s') : s'.Settled r := by
  obtain ⟨es, hes, heffects⟩ := hquiet.history
  refine h.congr hs ?_ fun d shape _ _ _ n _ => ⟨hquiet.facet n, fun w _ => ?_⟩
  · rw [Model.plan?_eq, Model.plan?_eq, hquiet.plan]
  · exact sent?_of_history hes fun e he => (heffects e he).sends?_eq w

theorem sent?_restack (s : Stage) (n : NodeId) (promote : Bool) (w : Window) :
    (s.restack n promote).sent? w = s.sent? w := by
  refine sent?_of_history rfl ?_
  intro e he
  cases Stack.mem_restack (List.mem_reverse.1 he) with
  | beside relation v other => cases relation <;> rfl
  | told => rfl
  | listed => rfl

theorem settled_edit {u : Stage} {r : DesktopRef} (hs : s.model.Sound)
    (hsettled : ∀ r, s.Settled r) (h : s.Edits u r taken) (r' : DesktopRef) :
    (u.applyLayout r).Settled r' := by
  by_cases hr : r' = r
  · rw [hr]
    exact settled_applyLayout h.sound r
  obtain ⟨es, hes, hquiet⟩ := h.history
  have hu : u.Settled r' := by
    apply (hsettled r').congr hs (h.plan r' hr)
    intro d shape hd hroot hshape n hn
    refine ⟨h.others r' d shape hr hd hroot hshape n hn, fun w _ => ?_⟩
    exact sent?_of_history hes fun e he => (hquiet e he).sends?_eq w
  exact hu.applyLayout h.sound hr

theorem sent?_configure (s : Stage) (w v : Window) (place : Rect) :
    (s.request (.configure w place)).sent? v = if w = v then some place else s.sent? v := by
  show List.findSome? _ (_ :: s.history) = _
  rw [List.findSome?_cons, Effect.sends?]
  by_cases h : w = v
  · rw [if_pos h, if_pos h]
  · rw [if_neg h, if_neg h, sent?]

/-- A window whose client changes is sent to the place where it belongs then. -/
theorem settled_send (hs : s.model.Sound) (hsettled : ∀ r, s.Settled r) {n : NodeId}
    {client : Client} (hclient : s.model.tree.client? n = some client) {f : Client → Client}
    (hf : ∀ c, (f c).window = c.window) {place : Rect}
    (hplace : ∀ r monitor rect, s.model.locate? n = some r → s.model.monitor? r = some monitor →
      s.model.tree.rect? n = some rect → (f client).intended monitor.rect rect = place)
    (r : DesktopRef) :
    ((s.modifyTree fun t => t.modifyClient n f).request
      (.configure client.window place)).Settled r := by
  refine (hsettled r).transfer hs rfl ?_
  intro monitor d shape hmonitor hd hroot hshape m hm
  refine ⟨Tree.links?_modify _ n m _ fun _ => rfl, fun rect hrests => ?_⟩
  obtain ⟨shapes, h⟩ := hs
  by_cases hnm : n = m
  · subst hnm
    constructor
    · show ((s.model.tree.modifyClient n f).get? n).map Node.rect = _
      rw [Tree.modifyClient, Tree.get?_modify, if_pos rfl, Option.map_map]
      exact hrests.placed
    · intro c hc
      change (s.model.tree.modifyClient n f).client? n = some c at hc
      rw [Tree.client?_modifyClient, if_pos rfl, hclient, Option.map_some] at hc
      obtain rfl := Option.some.inj hc
      rw [sent?_configure, if_pos (hf client).symm,
        hplace r monitor rect (h.locate?_of_root hd hroot hshape hm) hmonitor hrests.placed]
  · apply hrests.congr
    · show ((s.model.tree.modifyClient n f).get? m).map Node.facet = _
      rw [Tree.modifyClient, Tree.get?_modify, if_neg hnm, Tree.facet?]
    · intro w hw
      rw [sent?_configure, if_neg]
      · rfl
      · rintro rfl
        exact hnm (h.windows n m _ (by rw [Tree.window?, hclient, Option.map_some]) hw)

theorem settled_configure (hs : s.model.Sound) (hsettled : ∀ r, s.Settled r) (w : Window)
    (rect : Rect) (r : DesktopRef) : (s.configure w rect).Settled r := by
  unfold configure
  split
  · rename_i hnone
    refine (hsettled r).congr hs rfl ?_
    intro d shape _ _ _ n _
    refine ⟨rfl, fun v hv => ?_⟩
    rw [sent?_configure, if_neg]
    rintro rfl
    exact Tree.findWindow?_eq_none_iff.1 hnone n hv
  rename_i n hn
  split
  · exact hsettled r
  rename_i node hnode
  cases hnodeclient : node.client with
  | none => exact hsettled r
  | some client =>
    have hclient : s.model.tree.client? n = some client := by
      rw [Tree.client?, hnode, Option.bind_some, hnodeclient]
    obtain rfl : client.window = w := by
      have hw := Tree.window?_of_findWindow hn
      rw [Tree.window?, hclient] at hw
      exact Option.some.inj hw
    -- without a change of the client, the window is only sent to its place again
    have hsend {place : Rect} (hplace : ∀ r monitor, s.model.locate? n = some r →
        s.model.monitor? r = some monitor → client.intended monitor.rect node.rect = place) :
        (s.request (.configure client.window place)).Settled r := by
      have hsame : (s.modifyTree fun t => t.modifyClient n id) = s := by
        rw [modifyTree, Tree.modifyClient_id]
        rfl
      rw [← hsame]
      apply settled_send hs hsettled hclient (fun _ => rfl)
      intro r monitor rect hr hmonitor hrect
      rw [Tree.rect?, hnode] at hrect
      rw [← Option.some.inj hrect]
      exact hplace r monitor hr hmonitor
    rw [Option.map_some]
    cases hstate : client.state with
    | floating =>
      apply settled_send hs hsettled hclient (f := fun c => { c with floatingRect := rect })
        (fun _ => rfl)
      intro _ _ _ _ _ _
      rw [Client.intended, hstate]
    | fullscreen =>
      apply hsend
      intro r monitor hr hmonitor
      rw [Client.intended, hstate, hr, Option.bind_some, hmonitor]
      rfl
    | tiled => exact hsend fun _ _ _ _ => by rw [Client.intended, hstate]
    | pseudoTiled => exact hsend fun _ _ _ _ => by rw [Client.intended, hstate]

theorem Step.settled (h : Step taken s s') (hs : s.model.Sound) (hsettled : ∀ r, s.Settled r)
    (r : DesktopRef) : s'.Settled r := by
  cases h with
  | quiet h => exact (hsettled r).quiet hs h
  | restack hn promote =>
    exact (hsettled r).congr hs rfl fun _ _ _ _ _ _ _ => ⟨rfl, fun w _ => sent?_restack s _ _ w⟩
  | @edit u r' h hstack => exact settled_edit hs hsettled h r
  | @remove u r' n h hparts =>
    have hsound := ((Keeps.applyLayout u r').stays h.sound).sound
    exact (settled_edit hs hsettled h r).congr hsound rfl fun _ _ _ _ _ _ _ =>
      ⟨rfl, fun w _ => rfl⟩
  | configure w rect => exact settled_configure hs hsettled w rect r

theorem Steps.settled (h : Steps taken s s') (hsettled : ∀ r, s.Settled r) (r : DesktopRef) :
    s'.Settled r := by
  induction h generalizing r with
  | refl => exact hsettled r
  | tail _ hstep ih => exact hstep.2.settled hstep.1 ih r

end Steps

/-! ## Runs -/

theorem settled_fresh (outputs : List (String × Rect)) (names : List String) (settings : Settings)
    (ids : FeedbackIds) (r : DesktopRef) : (fresh outputs names settings ids).Settled r := by
  apply settled_of_root?_none
  cases hd : (fresh outputs names settings ids).model.desktop? r with
  | none => rw [Model.root?, hd, Option.bind_none]
  | some d =>
    obtain ⟨-, -, -, hdesktops⟩ := Model.isBlank_fresh outputs names
    rw [Model.root?, hd, Option.bind_some, (hdesktops d (Model.mem_desktops hd)).1]

/-- Arranging a desktop anew would change nothing, every node has the rectangle that its desktop
shares out for it, and every managed window was last sent where it belongs. -/
structure Placed (s : Stage) : Prop where
  arranged : ∀ r monitor d, s.model.monitor? r = some monitor → s.model.desktop? r = some d →
    (s.model.tree.arrange d.root monitor.rect d.layout).1 = s.model.tree
  rect : ∀ n node, s.model.tree.get? n = some node → ∃ r monitor d shape,
    s.model.locate? n = some r ∧ s.model.monitor? r = some monitor ∧
      s.model.desktop? r = some d ∧ d.root = some shape.top ∧ HasShape s.model.tree none shape ∧
      (n, node.rect) ∈ shape.rects d.layout monitor.rect
  sent : ∀ n node c, s.model.tree.get? n = some node → node.client = some c → ∃ r monitor,
    s.model.locate? n = some r ∧ s.model.monitor? r = some monitor ∧
      s.sent? c.window = some (c.intended monitor.rect node.rect)

/-- A live node rests on the desktop where it is found. -/
theorem rests_of_settled {s : Stage} (hs : s.model.Sound) (hsettled : ∀ r, s.Settled r) {n : NodeId}
    {node : Node} (hnode : s.model.tree.get? n = some node) :
    ∃ r monitor d shape, s.model.locate? n = some r ∧ s.model.monitor? r = some monitor ∧
      s.model.desktop? r = some d ∧ d.root = some shape.top ∧ HasShape s.model.tree none shape ∧
      (n, node.rect) ∈ shape.rects d.layout monitor.rect ∧ s.Rests monitor.rect n node.rect := by
  obtain ⟨shapes, h⟩ := hs
  have hlive : (s.model.tree.get? n).isSome := by rw [hnode, Option.isSome_some]
  obtain ⟨shape, hmem, hn⟩ := List.mem_flatMap.1 (h.forest.covers n hlive)
  have hshape := h.forest.hasShape hmem
  obtain ⟨r, d, hr, hd, hroot, -⟩ := h.locate (Model.Shaped.mem_reduceOption.1 hmem) hn
  obtain ⟨monitor, hmonitor, -⟩ := Model.exists_of_desktop? hd
  obtain ⟨rect, hrect⟩ := Shape.exists_mem_rects hn d.layout monitor.rect
  have hrests := hsettled r monitor d shape hmonitor hd hroot hshape n rect hrect
  have hplaced := hrests.placed
  rw [Tree.rect?, hnode, Option.map_some] at hplaced
  obtain rfl := Option.some.inj hplaced
  exact ⟨r, monitor, d, shape, hr, hmonitor, hd, hroot, hshape, hrect, hrests⟩

theorem Placed.of_settled {s : Stage} (hs : s.model.Sound) (hsettled : ∀ r, s.Settled r) :
    s.Placed where
  arranged r monitor d hmonitor hd := by
    cases hroot : d.root with
    | none => rw [Tree.arrange_none]
    | some x =>
      obtain ⟨shapes, h⟩ := hs
      obtain ⟨shape, hmem, ⟨hshaperoot, -⟩, rfl⟩ := h.exists_of_root hd hroot
      have hmem := Model.Shaped.mem_reduceOption.2 hmem
      have hshape := h.forest.hasShape hmem
      rw [Tree.arrange_rects hshape (h.forest.nodup_of_mem hmem)]
      exact Tree.assign_eq_self fun place hplace =>
        (hsettled r monitor d shape hmonitor hd hroot hshape place.1 place.2 hplace).placed
  rect n node hnode := by
    obtain ⟨r, monitor, d, shape, hr, hmonitor, hd, hroot, hshape, hrect, -⟩ :=
      rests_of_settled hs hsettled hnode
    exact ⟨r, monitor, d, shape, hr, hmonitor, hd, hroot, hshape, hrect⟩
  sent n node c hnode hc := by
    obtain ⟨r, monitor, -, -, hr, hmonitor, -, -, -, -, hrests⟩ :=
      rests_of_settled hs hsettled hnode
    have hclient : s.model.tree.client? n = some c := by
      rw [Tree.client?, hnode, Option.bind_some, hc]
    exact ⟨r, monitor, hr, hmonitor, hrests.sent c hclient⟩

/-- In every run from a model without windows, geometry is never stale. -/
theorem placed_run (outputs : List (String × Rect)) (names : List String) (settings : Settings)
    (ids : FeedbackIds) (ops : List Operation) :
    ((fresh outputs names settings ids).run ops).Placed := by
  have hfresh := sound_fresh outputs names settings ids
  have hsettled := settled_fresh outputs names settings ids
  exact .of_settled (sound_run hfresh ops) ((steps_run hfresh ops).settled hsettled)

end Stage

end Tiling
