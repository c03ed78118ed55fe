import Tiling.Proofs.Geometry
import Tiling.Proofs.Tree.Rects
/-!
# Exact tilings

Tiled, the leaves of a tree divide its area: every point is in one of them, none reaches
outside, and no coordinate overflows on the way.  The windows that the layout places are listed
from left to right.
-/

namespace Tiling.Tree

namespace Shape

variable {s a b : Shape} {m n : NodeId} {area q r : Rect} {p : Point} {layout : Layout}

theorem mem_rects_fork {place : NodeId × Rect} : place ∈ (fork n a b).rects layout area ↔
    place = (n, area) ∨ place ∈ a.rects layout (layout.share area).1 ∨
      place ∈ b.rects layout (layout.share area).2 := by
  rw [rects, List.mem_cons, List.mem_append]

theorem mem_rects_first (hnodup : (fork m a b).preorder.Nodup) (hn : n ∈ a.preorder)
    (h : (n, r) ∈ (fork m a b).rects layout area) :
    (n, r) ∈ a.rects layout (layout.share area).1 := by
  obtain ⟨⟨hm, -⟩, -, -, hdisjoint⟩ := nodup_fork.1 hnodup
  rcases mem_rects_fork.1 h with heq | h | h
  · obtain rfl := congrArg Prod.fst heq
    exact absurd hn hm
  · exact h
  · exact absurd (mem_of_mem_rects h) (hdisjoint n hn)

theorem mem_rects_second (hnodup : (fork m a b).preorder.Nodup) (hn : n ∈ b.preorder)
    (h : (n, r) ∈ (fork m a b).rects layout area) :
    (n, r) ∈ b.rects layout (layout.share area).2 := by
  obtain ⟨⟨-, hm⟩, -, -, hdisjoint⟩ := nodup_fork.1 hnodup
  rcases mem_rects_fork.1 h with heq | h | h
  · obtain rfl := congrArg Prod.fst heq
    exact absurd hn hm
  · exact absurd hn (hdisjoint n (mem_of_mem_rects h))
  · exact h

theorem rects_monocle (h : (n, r) ∈ s.rects .monocle area) : r = area := by
  induction s generalizing area with
  | leaf m => exact congrArg Prod.snd (List.mem_singleton.1 h)
  | fork m a b iha ihb =>
    rcases mem_rects_fork.1 h with heq | h | h
    · exact congrArg Prod.snd heq
    · exact iha h
    · exact ihb h

/-! ## Tiled rectangles -/

/-- No node reaches outside the area. -/
theorem contains_of_mem_rects (hfits : area.Fits) (h : (n, r) ∈ s.rects .tiled area) :
    area.contains r = true := by
  induction s generalizing area with
  | leaf m =>
    obtain rfl := congrArg Prod.snd (List.mem_singleton.1 h)
    exact r.contains_refl
  | fork m a b iha ihb =>
    obtain ⟨hfirst, hsecond⟩ := (Rect.divides_split hfits).contains
    rcases mem_rects_fork.1 h with heq | h | h
    · obtain rfl := congrArg Prod.snd heq
      exact r.contains_refl
    · exact Rect.contains_trans hfirst (iha (hfits.of_contains hfirst) h)
    · exact Rect.contains_trans hsecond (ihb (hfits.of_contains hsecond) h)

/-- Every point of the area is in a leaf. -/
theorem exists_leaf_covers (s : Shape) (hfits : area.Fits) (hp : area.covers p = true) :
    ∃ n ∈ s.leaves, ∃ r, (n, r) ∈ s.rects .tiled area ∧ r.covers p = true := by
  induction s generalizing area with
  | leaf n => exact ⟨n, by simp, area, by simp [rects], hp⟩
  | fork m a b iha ihb =>
    have hdivides := Rect.divides_split hfits
    obtain ⟨hfirst, hsecond⟩ := hdivides.contains
    rcases hdivides.covers_iff.1 hp with hp | hp
    · obtain ⟨n, hn, r, hr, hcovers⟩ := iha (hfits.of_contains hfirst) hp
      exact ⟨n, List.mem_append_left _ hn, r, mem_rects_fork.2 (.inr (.inl hr)), hcovers⟩
    · obtain ⟨n, hn, r, hr, hcovers⟩ := ihb (hfits.of_contains hsecond) hp
      exact ⟨n, List.mem_append_right _ hn, r, mem_rects_fork.2 (.inr (.inr hr)), hcovers⟩

/-- No point is in two leaves. -/
theorem leaf_unique (hnodup : s.preorder.Nodup) (hfits : area.Fits) (hm : m ∈ s.leaves)
    (hn : n ∈ s.leaves) (hq : (m, q) ∈ s.rects .tiled area) (hr : (n, r) ∈ s.rects .tiled area)
    (hqp : q.covers p = true) (hrp : r.covers p = true) : m = n := by
  induction s generalizing area with
  | leaf k => rw [List.mem_singleton.1 hm, List.mem_singleton.1 hn]
  | fork k a b iha ihb =>
    have hdivides := Rect.divides_split hfits
    obtain ⟨hfirst, hsecond⟩ := hdivides.contains
    have hfitsa := hfits.of_contains hfirst
    have hfitsb := hfits.of_contains hsecond
    obtain ⟨-, hnodupa, hnodupb, -⟩ := nodup_fork.1 hnodup
    -- the halves have no point in common, so both leaves are on one side
    have hacross {i j : NodeId} {u v : Rect} (hi : i ∈ a.leaves) (hj : j ∈ b.leaves)
        (hu : (i, u) ∈ (fork k a b).rects .tiled area)
        (hv : (j, v) ∈ (fork k a b).rects .tiled area) (hup : u.covers p = true)
        (hvp : v.covers p = true) : i = j := by
      have hu := mem_rects_first hnodup (mem_preorder_of_mem_leaves hi) hu
      have hv := mem_rects_second hnodup (mem_preorder_of_mem_leaves hj) hv
      have hleft := Rect.covers_of_contains (contains_of_mem_rects hfitsa hu) hup
      have hright := Rect.covers_of_contains (contains_of_mem_rects hfitsb hv) hvp
      rw [hdivides.disjoint p hleft] at hright
      cases hright
    rcases List.mem_append.1 hm with hma | hmb <;> rcases List.mem_append.1 hn with hna | hnb
    · exact iha hnodupa hfitsa hma hna
        (mem_rects_first hnodup (mem_preorder_of_mem_leaves hma) hq)
        (mem_rects_first hnodup (mem_preorder_of_mem_leaves hna) hr)
    · exact hacross hma hnb hq hr hqp hrp
    · exact (hacross hna hmb hr hq hrp hqp).symm
    · exact ihb hnodupb hfitsb hmb hnb
        (mem_rects_second hnodup (mem_preorder_of_mem_leaves hmb) hq)
        (mem_rects_second hnodup (mem_preorder_of_mem_leaves hnb) hr)

end Shape

/-- A node below the top has its rectangle within that of its parent. -/
theorem HasShape.within_parent {t : Tree} {parent : Option NodeId} {s : Shape}
    (h : HasShape t parent s) {area : Rect} (hfits : area.Fits) {n : NodeId} {r : Rect}
    (hr : (n, r) ∈ s.rects .tiled area) : (n = s.top ∧ r = area) ∨
      ∃ up q, t.parent? n = some up ∧ (up, q) ∈ s.rects .tiled area ∧ q.contains r = true := by
  induction s generalizing parent area with
  | leaf m => exact .inl (Prod.mk.inj (List.mem_singleton.1 hr))
  | fork m a b iha ihb =>
    obtain ⟨-, ha, hb⟩ := hasShape_fork.1 h
    obtain ⟨hfirst, hsecond⟩ := (Rect.divides_split hfits).contains
    rcases Shape.mem_rects_fork.1 hr with heq | hr | hr
    · exact .inl (Prod.mk.inj heq)
    · refine .inr ?_
      rcases iha ha (hfits.of_contains hfirst) hr with ⟨rfl, rfl⟩ | ⟨up, q, hup, hq, hcontains⟩
      · exact ⟨m, area, ha.parent?_top, Shape.mem_rects_fork.2 (.inl rfl), hfirst⟩
      · exact ⟨up, q, hup, Shape.mem_rects_fork.2 (.inr (.inl hq)), hcontains⟩
    · refine .inr ?_
      rcases ihb hb (hfits.of_contains hsecond) hr with ⟨rfl, rfl⟩ | ⟨up, q, hup, hq, hcontains⟩
      · exact ⟨m, area, hb.parent?_top, Shape.mem_rects_fork.2 (.inl rfl), hsecond⟩
      · exact ⟨up, q, hup, Shape.mem_rects_fork.2 (.inr (.inr hq)), hcontains⟩

/-! ## Windows that the layout places -/

/-- The window of a node, with the rectangle of the node, if the layout places it. -/
def tenant? (t : Tree) (n : NodeId) : Option (Window × Rect) :=
  (t.get? n).bind fun node => node.client.bind fun c =>
    match c.state with
    | .tiled | .pseudoTiled => some (c.window, node.rect)
    | .floating | .fullscreen => none

theorem exists_of_tenant {t : Tree} {n : NodeId} {w : Window} {r : Rect}
    (h : t.tenant? n = some (w, r)) : ∃ node c, t.get? n = some node ∧ node.client = some c ∧
      c.state.isTiled = true ∧ c.window = w ∧ node.rect = r := by
  obtain ⟨node, hnode, h⟩ := Option.bind_eq_some_iff.1 h
  obtain ⟨c, hc, h⟩ := Option.bind_eq_some_iff.1 h
  refine ⟨node, c, hnode, hc, ?_⟩
  cases hstate : c.state <;> simp_all [ClientState.isTiled]

theorem window?_of_tenant {t : Tree} {n : NodeId} {w : Window} {r : Rect}
    (h : t.tenant? n = some (w, r)) : t.window? n = some w := by
  obtain ⟨node, c, hnode, hc, -, rfl, -⟩ := exists_of_tenant h
  rw [window?, client?, hnode, Option.bind_some, hc, Option.map_some]

theorem rect?_of_tenant {t : Tree} {n : NodeId} {w : Window} {r : Rect}
    (h : t.tenant? n = some (w, r)) : t.rect? n = some r := by
  obtain ⟨node, c, hnode, -, -, -, rfl⟩ := exists_of_tenant h
  rw [rect?, hnode, Option.map_some]

theorem placedAt?_eq_tenant? {t : Tree} {n : NodeId} {r : Rect} (h : t.rect? n = some r) :
    t.placedAt? (n, r) = t.tenant? n := by
  obtain ⟨node, hnode, rfl⟩ := Option.map_eq_some_iff.1 h
  rw [placedAt?, tenant?, hnode, Option.bind_some, Option.bind_some, placement?]
  cases node.client with
  | none => rfl
  | some c => cases hstate : c.state <;> simp [Option.filter, ClientState.isTiled, hstate]

/-- What is placed are the tenants of the leaves. -/
theorem filterMap_placedAt? {t : Tree} {s : Shape} {layout : Layout} {area : Rect}
    (hinner : ∀ n ∈ s.inner, t.client? n = none)
    (hrect : ∀ place ∈ s.rects layout area, t.rect? place.1 = some place.2) :
    (s.rects layout area).filterMap t.placedAt? = s.leaves.filterMap t.tenant? := by
  induction s generalizing area with
  | leaf n =>
    have hn := placedAt?_eq_tenant? (hrect (n, area) List.mem_cons_self)
    rw [Shape.rects, Shape.leaves_leaf, List.filterMap_cons, List.filterMap_cons, hn]
    rfl
  | fork n a b iha ihb =>
    have hnone : t.placedAt? (n, area) = none := by
      rw [placedAt?_eq_tenant? (hrect (n, area) List.mem_cons_self)]
      cases hn : t.tenant? n with
      | none => rfl
      | some place =>
        have hwindow := window?_of_tenant hn
        rw [window?, hinner n List.mem_cons_self] at hwindow
        cases hwindow
    rw [Shape.rects, List.filterMap_cons_none hnone, List.filterMap_append, Shape.leaves_fork,
      List.filterMap_append, iha, ihb]
    · exact fun m hm => hinner m (List.mem_cons_of_mem _ (List.mem_append_right _ hm))
    · exact fun place h => hrect place (Shape.mem_rects_fork.2 (.inr (.inr h)))
    · exact fun m hm => hinner m (List.mem_cons_of_mem _ (List.mem_append_left _ hm))
    · exact fun place h => hrect place (Shape.mem_rects_fork.2 (.inr (.inl h)))

/-! ## Arranged trees -/

/-- The rectangles in the nodes of a tree divide an area among its leaves. -/
structure Divided (t : Tree) (s : Shape) (area : Rect) : Prop where
  /-- Every node has a rectangle within the area, and splitting it does not overflow. -/
  rect : ∀ n ∈ s.preorder, ∃ r, t.rect? n = some r ∧ area.contains r = true ∧
    r.splitOverflows = false
  within_parent : ∀ n ∈ s.preorder, ∀ up, t.parent? n = some up →
    ∃ q r, t.rect? up = some q ∧ t.rect? n = some r ∧ q.contains r = true
  /-- Every point of the area is in one leaf. -/
  exact : ∀ p, area.covers p = true →
    ∃! n, n ∈ s.leaves ∧ ∃ r, t.rect? n = some r ∧ r.covers p = true

namespace Divided

variable {t : Tree} {s : Shape} {area q r : Rect} {m n : NodeId} {p : Point}

theorem contains (h : t.Divided s area) (hn : n ∈ s.leaves) (hr : t.rect? n = some r) :
    area.contains r = true := by
  obtain ⟨r', hr', hcontains, -⟩ := h.rect n (Shape.mem_preorder_of_mem_leaves hn)
  obtain rfl := Option.some.inj (hr'.symm.trans hr)
  exact hcontains

theorem disjoint (h : t.Divided s area) (hm : m ∈ s.leaves) (hn : n ∈ s.leaves) (hne : m ≠ n)
    (hq : t.rect? m = some q) (hr : t.rect? n = some r) : q.Disjoint r := by
  intro p hqp
  rw [← Bool.not_eq_true]
  intro hrp
  have hp := Rect.covers_of_contains (h.contains hm hq) hqp
  exact hne ((h.exact p hp).unique ⟨hm, q, hq, hqp⟩ ⟨hn, r, hr, hrp⟩)

end Divided

/-- The list has the windows of a tree that the layout places, from left to right. -/
structure PlacesTenants (t : Tree) (s : Shape) (places : List (Window × Rect)) : Prop where
  eq : places = s.leaves.filterMap t.tenant?
  once : (∀ m n w, t.window? m = some w → t.window? n = some w → m = n) →
    (places.map Prod.fst).Nodup

section Arranged

variable {t : Tree} {s : Shape} {area : Rect}

/-- A node has the rectangle that its shape shares out for it. -/
theorem rect?_arrange {parent : Option NodeId} (h : HasShape t parent s)
    (hnodup : s.preorder.Nodup) {layout : Layout} {n : NodeId} {r : Rect}
    (hr : (n, r) ∈ s.rects layout area) :
    (t.arrange (some s.top) area layout).1.rect? n = some r := by
  obtain ⟨node, hnode⟩ := Option.isSome_iff_exists.1 (h.isSome_get? (Shape.mem_of_mem_rects hr))
  have hkeys : ((s.rects layout area).map Prod.fst).Nodup := by rwa [Shape.map_fst_rects]
  rw [arrange_rects h hnodup, rect?, rect_assign t hkeys hr, hnode, Option.map_some]

/-- A tree whose nodes have the rectangles that its shape shares out. -/
theorem divided_of_rects (h : HasShape t none s) (hnodup : s.preorder.Nodup) (hfits : area.Fits)
    (hrect : ∀ {n r}, (n, r) ∈ s.rects .tiled area → t.rect? n = some r) : t.Divided s area := by
  refine ⟨fun n hn => ?_, fun n hn up hup => ?_, fun p hp => ?_⟩
  · obtain ⟨r, hr⟩ := Shape.exists_mem_rects hn .tiled area
    have hcontains := Shape.contains_of_mem_rects hfits hr
    exact ⟨r, hrect hr, hcontains, Rect.splitOverflows_of_fits (hfits.of_contains hcontains)⟩
  · obtain ⟨r, hr⟩ := Shape.exists_mem_rects hn .tiled area
    rcases h.within_parent hfits hr with ⟨rfl, -⟩ | ⟨up', q, hup', hq, hcontains⟩
    · rw [h.parent?_top] at hup
      cases hup
    · obtain rfl := Option.some.inj (hup'.symm.trans hup)
      exact ⟨q, r, hrect hq, hrect hr, hcontains⟩
  · obtain ⟨n, hn, r, hr, hcovers⟩ := s.exists_leaf_covers hfits hp
    refine ⟨n, ⟨hn, r, hrect hr, hcovers⟩, ?_⟩
    rintro m ⟨hm, q, hq, hqcovers⟩
    obtain ⟨q', hq'⟩ := Shape.exists_mem_rects (Shape.mem_preorder_of_mem_leaves hm) .tiled area
    obtain rfl := Option.some.inj (hq.symm.trans (hrect hq'))
    exact Shape.leaf_unique hnodup hfits hm hn hq' hr hqcovers hcovers

theorem divided_arrange (h : HasShape t none s) (hnodup : s.preorder.Nodup) (hfits : area.Fits) :
    (t.arrange (some s.top) area .tiled).1.Divided s area := by
  have harranged : HasShape (t.arrange (some s.top) area .tiled).1 none s := by
    rw [arrange_rects h hnodup]
    exact h.assign _
  exact divided_of_rects harranged hnodup hfits (rect?_arrange h hnodup)

theorem placesTenants_arrange (h : t.Stands s) (hnodup : s.preorder.Nodup) (layout : Layout) :
    (t.arrange (some s.top) area layout).1.PlacesTenants s
      (t.arrange (some s.top) area layout).2 := by
  have hall : (s.rects layout area).filterMap (t.arrange (some s.top) area layout).1.placedAt? =
      s.leaves.filterMap (t.arrange (some s.top) area layout).1.tenant? :=
    filterMap_placedAt? (fun n hn => (client?_arrange _ _ _ _ n).trans (h.inner_client n hn))
      fun _ hplace => rect?_arrange h.hasShape hnodup hplace
  have hplaces : (t.arrange (some s.top) area layout).2 =
      s.leaves.filterMap (t.arrange (some s.top) area layout).1.tenant? := by
    rw [← hall, arrange_rects h.hasShape hnodup, placedAt?_assign]
  refine ⟨hplaces, fun hwindows => ?_⟩
  have hleaves : s.leaves.Nodup := s.leaves_sublist_preorder.nodup hnodup
  rw [hplaces, List.map_filterMap]
  refine hleaves.filterMap fun m n w hm hn => ?_
  obtain ⟨⟨u, q⟩, hmplace, rfl⟩ := Option.map_eq_some_iff.1 hm
  obtain ⟨⟨v, r⟩, hnplace, heq⟩ := Option.map_eq_some_iff.1 hn
  obtain rfl : v = u := heq
  exact hwindows m n v (window?_of_tenant hmplace) (window?_of_tenant hnplace)

end Arranged

/-- Arranging a tree divides an area that ends within the range of coordinates among the leaves,
or gives all of it to every node, and lists the windows that it places. -/
theorem arrange_spec {t : Tree} {shapes : List Shape} (h : t.Forest shapes) {s : Shape}
    (hs : s ∈ shapes) (area : Rect) :
    (area.Fits → (t.arrange (some s.top) area .tiled).1.Divided s area) ∧
      (∀ n ∈ s.preorder, (t.arrange (some s.top) area .monocle).1.rect? n = some area) ∧
      ∀ layout, (t.arrange (some s.top) area layout).1.PlacesTenants s
        (t.arrange (some s.top) area layout).2 := by
  have hnodup := h.nodup_of_mem hs
  refine ⟨divided_arrange (h.hasShape hs) hnodup, fun n hn => ?_,
    placesTenants_arrange (h.stands s hs) hnodup⟩
  obtain ⟨r, hr⟩ := Shape.exists_mem_rects hn .monocle area
  obtain rfl := Shape.rects_monocle hr
  exact rect?_arrange (h.hasShape hs) hnodup hr

/-- A tiled leaf beside a floating one over a pseudo-tiled one. -/
def trellis : Tree :=
  ⟨⟨#[some { Node.leaf (.plain 1) with parent := some ⟨3⟩ },
    some { Node.leaf { Client.plain 2 with state := .floating } with parent := some ⟨4⟩ },
    some { Node.leaf { Client.plain 3 with state := .pseudoTiled } with parent := some ⟨4⟩ },
    some (.inner none ⟨0⟩ ⟨4⟩), some (.inner (some ⟨3⟩) ⟨1⟩ ⟨2⟩)], []⟩⟩

/-- An area of odd size, left of the origin, with its corner at the largest coordinate. -/
theorem arrange_trellis :
    let s := Shape.fork ⟨3⟩ (.leaf ⟨0⟩) (.fork ⟨4⟩ (.leaf ⟨1⟩) (.leaf ⟨2⟩))
    let area : Rect := ⟨-3, 2147483642, 7, 5⟩
    (trellis.arrange (some ⟨3⟩) area .tiled).1.Divided s area ∧
      (∀ n ∈ s.preorder, (trellis.arrange (some ⟨3⟩) area .monocle).1.rect? n = some area) ∧
      (trellis.arrange (some ⟨3⟩) area .tiled).2 =
        [(1, ⟨-3, 2147483642, 3, 5⟩), (3, ⟨0, 2147483644, 4, 3⟩)] := by
  intro s area
  have hforest : trellis.Forest [s] := by decide
  obtain ⟨htiled, hmonocle, hplaces⟩ := arrange_spec hforest List.mem_cons_self area
  exact ⟨htiled (by decide), hmonocle, (hplaces .tiled).eq.trans (by decide)⟩

end Tiling.Tree
