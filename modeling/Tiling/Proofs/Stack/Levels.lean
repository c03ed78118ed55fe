import Tiling.Proofs.Stack.Beside
import Tiling.Proofs.Tree.Links
/-!
# Restacking by level

Among leaves that ascend by level, a restacked leaf comes to stand at one end of its level.  The
leaves of a subtree are placed one after the other, and a leaf that still waits for its turn may
stand anywhere: the list ascends afterwards unless such a leaf stops the search for the place of
an earlier one too soon.
-/

namespace Tiling.Stack

/-! ## One leaf -/

/-- The others with a leaf among them: promoted, in front of everything of its level; else behind
it. -/
def inPlace (level : NodeId → Nat) (promote : Bool) (n : NodeId) (others : List NodeId) :
    List NodeId :=
  if promote then
    (others.filter fun m => level m ≤ level n) ++ n :: others.filter fun m => level n < level m
  else
    (others.filter fun m => level m < level n) ++ n :: others.filter fun m => level n ≤ level m

section Settles

variable {level : NodeId → Nat} {n : NodeId} {promote : Bool} {others l left right : List NodeId}

theorem filter_append_left {p : NodeId → Bool} (hleft : ∀ m ∈ left, p m = true)
    (hright : ∀ m ∈ right, ¬ p m = true) : (left ++ right).filter p = left := by
  rw [List.filter_append, List.filter_eq_self.2 hleft, List.filter_eq_nil_iff.2 hright,
    List.append_nil]

theorem filter_append_right {p : NodeId → Bool} (hleft : ∀ m ∈ left, ¬ p m = true)
    (hright : ∀ m ∈ right, p m = true) : (left ++ right).filter p = right := by
  rw [List.filter_append, List.filter_eq_nil_iff.2 hleft, List.filter_eq_self.2 hright,
    List.nil_append]

/-- Where the others ascend, the place of a leaf is at an end of its level. -/
theorem Settles.eq_inPlace (h : Settles level n promote others l) (hothers : Ascends level others) :
    l = inPlace level promote n others := by
  cases h with
  | @front left right hleft hright =>
    have habove : ∀ m ∈ right, level n < level m := by
      intro m hm
      cases right with
      | nil => cases hm
      | cons y right =>
        have hy : level n < level y := hright y rfl
        rcases List.mem_cons.1 hm with rfl | hm
        · exact hy
        · have hle := List.rel_of_pairwise_cons (List.pairwise_append.1 hothers).2.1 hm
          exact hy.trans_le hle
    rw [inPlace, if_pos rfl, filter_append_left (by simpa using hleft) (by simpa using habove),
      filter_append_right (by simpa using hleft) (by simpa using habove)]
  | @back left right hleft hright =>
    have hbelow : ∀ m ∈ left, level m < level n := by
      intro m hm
      cases left using List.reverseRecOn with
      | nil => cases hm
      | append_singleton left y =>
        have hy : level y < level n := hleft y (by simp)
        rcases List.mem_append.1 hm with hm | hm
        · have hle :=
            (List.pairwise_append.1 (List.pairwise_append.1 hothers).1).2.2 m hm y (by simp)
          exact hle.trans_lt hy
        · rwa [List.mem_singleton.1 hm]
    rw [inPlace, if_neg (by simp),
      filter_append_left (by simpa using hbelow) (by simpa using hright),
      filter_append_right (by simpa using hbelow) (by simpa using hright)]

end Settles

/-- A leaf that is restacked is in the list once, and the others keep their order; it stands at
the wanted end of its level if the others ascend. -/
theorem restack_inPlace {s : Stack} {l : List NodeId} (h : s.Holds l) {t : Tree} {n : NodeId}
    {node : Node} {client : Client} (hget : t.get? n = some node) (hleaf : node.isLeaf = true)
    (hclient : node.client = some client) {autoRaise : Bool}
    (hmoves : client.state = .floating → autoRaise = true)
    (hlive : ∀ m ∈ l, (t.client? m).isSome) (root : Option NodeId) (promote : Bool) :
    ∃ l', (s.restack t root n promote autoRaise).1.Holds l' ∧ n ∈ l' ∧ l'.erase n = l.erase n ∧
      (Ascends t.level (l.erase n) → l' = inPlace t.level promote n (l.erase n)) := by
  have hclient' : t.client? n = some client := by rw [Tree.client?, hget, Option.bind_some, hclient]
  obtain ⟨l', hl', hsettles⟩ := h.restackLeaf promote hclient' hmoves hlive
  refine ⟨l', ?_, hsettles.perm.mem_iff.2 List.mem_cons_self,
    hsettles.erase h.1.not_mem_erase, hsettles.eq_inPlace⟩
  rwa [restack_leaf (Tree.leaves_of_isLeaf hget hleaf)]

/-- Three windows, the latter two below a joint of their own, with rising levels. -/
def rising : Tree :=
  ⟨⟨#[some { Node.leaf (.plain 1) with parent := some ⟨2⟩ },
    some { Node.leaf { Client.plain 2 with state := .fullscreen } with parent := some ⟨4⟩ },
    some (.inner none ⟨0⟩ ⟨4⟩),
    some { Node.leaf { Client.plain 3 with layer := .above } with parent := some ⟨4⟩ },
    some (.inner (some ⟨2⟩) ⟨1⟩ ⟨3⟩)], []⟩⟩

/-- The middle one of three levels comes from the bottom to its place. -/
theorem restack_inPlace_rising :
    ((Stack.ofList [⟨1⟩, ⟨0⟩, ⟨3⟩]).restack rising (some ⟨2⟩) ⟨1⟩ true false).1.Holds
      [⟨0⟩, ⟨1⟩, ⟨3⟩] := by
  obtain ⟨l', hl', -, -, hplace⟩ := restack_inPlace (t := rising) (n := ⟨1⟩)
    (Holds.ofList (l := [⟨1⟩, ⟨0⟩, ⟨3⟩]) (by decide)) rfl rfl rfl
    (by intro hfloating; cases hfloating) (by decide) (some ⟨2⟩) true
  rwa [hplace (by decide)] at hl'

/-! ## The leaves of a subtree -/

/-- Leaves settle one after the other, each among all the others as they stand by then. -/
inductive SettlesAll (level : NodeId → Nat) (promote : Bool) :
    List NodeId → List NodeId → List NodeId → Prop where
  | nil (l : List NodeId) : SettlesAll level promote [] l l
  | cons {n : NodeId} {rest l l₁ l₂ : List NodeId} (first : Settles level n promote (l.erase n) l₁)
      (others : SettlesAll level promote rest l₁ l₂) : SettlesAll level promote (n :: rest) l l₂

theorem Settles.nodup {level : NodeId → Nat} {n : NodeId} {promote : Bool} {l l' : List NodeId}
    (h : Settles level n promote (l.erase n) l') (hl : l.Nodup) : l'.Nodup := by
  rw [h.perm.nodup_iff, List.nodup_cons]
  exact ⟨hl.not_mem_erase, hl.erase n⟩

theorem Holds.restackLeaves {s : Stack} {l ns : List NodeId} (h : s.Holds l) {t : Tree}
    (hlive : ∀ m ∈ l, (t.client? m).isSome) (hns : ∀ n ∈ ns, (t.client? n).isSome)
    (promote : Bool) : ∃ l', (Stack.restackLeaves t promote true s ns).1.Holds l' ∧
      SettlesAll t.level promote ns l l' := by
  induction ns generalizing s l with
  | nil => exact ⟨l, h, .nil l⟩
  | cons n ns ih =>
    obtain ⟨client, hclient⟩ := Option.isSome_iff_exists.1 (hns n List.mem_cons_self)
    obtain ⟨l₁, hl₁, hsettles⟩ := h.restackLeaf promote hclient (fun _ => Eq.refl true) hlive
    have hlive₁ : ∀ m ∈ l₁, (t.client? m).isSome := by
      intro m hm
      rcases List.mem_cons.1 (hsettles.perm.mem_iff.1 hm) with rfl | hm
      · rw [hclient, Option.isSome_some]
      · exact hlive m (List.mem_of_mem_erase hm)
    obtain ⟨l', hl', hall⟩ := ih hl₁ hlive₁ fun m hm => hns m (List.mem_cons_of_mem n hm)
    exact ⟨l', hl', .cons hsettles hall⟩

section Strays

variable {level : NodeId → Nat} {promote : Bool}

/-- The search for a place comes to one leaf before another: it goes up the list for a promoted
leaf, and down otherwise. -/
def MeetsFirst (promote : Bool) (l : List NodeId) (x a : NodeId) : Prop :=
  if promote then [x, a].Sublist l else [a, x].Sublist l

/-- The search for the place of a leaf has to go past `a` and stops at `x`. -/
def Between (level : NodeId → Nat) (promote : Bool) (a n x : NodeId) : Prop :=
  if promote then level a < level n ∧ level n < level x else level x < level n ∧ level n < level a

instance (promote : Bool) (l : List NodeId) (x a : NodeId) : Decidable (MeetsFirst promote l x a) :=
  inferInstanceAs (Decidable (ite ..))

instance (level : NodeId → Nat) (promote : Bool) (a n x : NodeId) :
    Decidable (Between level promote a n x) :=
  inferInstanceAs (Decidable (ite ..))

/-- A leaf goes astray: a later one, still out of its place, stops the search before a leaf that
is not to be placed at all. -/
def Strays (level : NodeId → Nat) (promote : Bool) (ns l : List NodeId) : Prop :=
  ∃ f ∈ ns, ∃ g ∈ ns, ∃ a ∈ l, a ∉ ns ∧ [f, g].Sublist ns ∧ MeetsFirst promote l g a ∧
    Between level promote a f g

instance (level : NodeId → Nat) (promote : Bool) (ns l : List NodeId) :
    Decidable (Strays level promote ns l) :=
  inferInstanceAs (Decidable (∃ f ∈ ns, ∃ g ∈ ns, ∃ a ∈ l, _))

theorem misleads_iff {exempt : NodeId → Bool} {n : NodeId} {others : List NodeId} :
    Misleads level exempt n promote others ↔ ∃ x a, exempt x = true ∧ exempt a = false ∧
      MeetsFirst promote others x a ∧ Between level promote a n x := by
  cases promote <;> simp [Misleads, MeetsFirst, Between]

theorem MeetsFirst.mem {l : List NodeId} {x a : NodeId} (h : MeetsFirst promote l x a) :
    x ∈ l ∧ a ∈ l := by
  cases promote with
  | true => exact ⟨h.subset (by simp), h.subset (by simp)⟩
  | false => exact ⟨h.subset (by simp), h.subset (by simp)⟩

theorem meetsFirst_erase_iff {l : List NodeId} {x a n : NodeId} (hx : x ≠ n) (ha : a ≠ n) :
    MeetsFirst promote (l.erase n) x a ↔ MeetsFirst promote l x a := by
  cases promote with
  | true => exact pair_sublist_erase_iff hx ha
  | false => exact pair_sublist_erase_iff ha hx

theorem Between.ne {a n x : NodeId} (h : Between level promote a n x) : x ≠ n := by
  rintro rfl
  cases promote with
  | true => exact Nat.lt_irrefl _ h.2
  | false => exact Nat.lt_irrefl _ h.1

/-- No leaf that the search for a settled one came to first stands beyond that one. -/
theorem Settles.not_between {n f x : NodeId} {others l : List NodeId}
    (h : Settles level n promote others l) (hl : l.Nodup) (hmeets : MeetsFirst promote l x n) :
    ¬ Between level promote n f x := by
  intro hbetween
  cases h with
  | @front left right hleft hright =>
    obtain ⟨hnf, hfx⟩ := hbetween
    have hsub : [x, n].Sublist ((left ++ [n]) ++ right) := by rwa [← List.append_cons]
    rw [List.append_cons, List.nodup_append] at hl
    have hmem := mem_left_of_sublist hsub fun hn => hl.2.2 n (by simp) n hn rfl
    rcases List.mem_append.1 hmem with hx | hx
    · have hle := hleft x hx
      omega
    · rw [List.mem_singleton.1 hx] at hfx
      omega
  | @back left right hleft hright =>
    obtain ⟨hxf, hfn⟩ := hbetween
    rw [List.nodup_append] at hl
    have hmem := mem_right_of_sublist hmeets fun hn => hl.2.2 n hn n List.mem_cons_self rfl
    rcases List.mem_cons.1 hmem with rfl | hx
    · omega
    · have hle := hright x hx
      omega

/-- A leaf goes astray when it is the first one and is misled, or is one of the others. -/
theorem Settles.strays_cons_iff {n : NodeId} {rest l l₁ : List NodeId}
    (h : Settles level n promote (l.erase n) l₁) (hl : l.Nodup) (hn : n ∉ rest) :
    Strays level promote (n :: rest) l ↔
      Misleads level (fun m => m ∈ rest) n promote (l.erase n) ∨ Strays level promote rest l₁ := by
  have hnodup := h.nodup hl
  have hmeets {x a : NodeId} (hx : x ≠ n) (ha : a ≠ n) :
      MeetsFirst promote l₁ x a ↔ MeetsFirst promote l x a := by
    rw [← meetsFirst_erase_iff hx ha, h.erase hl.not_mem_erase, meetsFirst_erase_iff hx ha]
  rw [misleads_iff]
  constructor
  · rintro ⟨f, hf, g, hg, a, ha, hnot, hsub, hfirst, hbetween⟩
    rw [List.mem_cons, not_or] at hnot
    obtain ⟨hne, hnot⟩ := hnot
    rcases List.mem_cons.1 hf with rfl | hf
    · have hgf := hbetween.ne
      exact .inl ⟨g, a, by simpa [hgf] using hg, by simpa using hnot,
        (meetsFirst_erase_iff hgf hne).2 hfirst, hbetween⟩
    · have hfn : f ≠ n := fun heq => hn (heq ▸ hf)
      have hsub : [f, g].Sublist rest :=
        (List.sublist_cons_iff.1 hsub).resolve_right fun hhead => by
          obtain ⟨r, heq, -⟩ := hhead
          exact hfn (List.cons.inj heq).1
      have hgn : g ≠ n := fun heq => hn (heq ▸ hsub.subset (by simp))
      exact .inr ⟨f, hf, g, hsub.subset (by simp), a, ((hmeets hgn hne).2 hfirst).mem.2, hnot, hsub,
        (hmeets hgn hne).2 hfirst, hbetween⟩
  · rintro (⟨x, a, hx, hnot, hfirst, hbetween⟩ | ⟨f, hf, g, hg, a, -, hnot, hsub, hfirst, hbetween⟩)
    · have hx : x ∈ rest := by simpa using hx
      have hne : a ≠ n := ne_of_mem_of_not_mem hfirst.mem.2 hl.not_mem_erase
      have hfirst' := (meetsFirst_erase_iff hbetween.ne hne).1 hfirst
      exact ⟨n, List.mem_cons_self, x, List.mem_cons_of_mem n hx, a, hfirst'.mem.2,
        by simpa [hne] using hnot, (List.singleton_sublist.2 hx).cons_cons n, hfirst', hbetween⟩
    · have hgn : g ≠ n := fun heq => hn (heq ▸ hg)
      have hne : a ≠ n := by
        rintro rfl
        exact h.not_between hnodup hfirst hbetween
      have hfirst' := (hmeets hgn hne).1 hfirst
      exact ⟨f, List.mem_cons_of_mem n hf, g, List.mem_cons_of_mem n hg, a, hfirst'.mem.2,
        by simp [hne, hnot], hsub.cons n, hfirst', hbetween⟩

end Strays

namespace SettlesAll

variable {level : NodeId → Nat} {promote : Bool} {ns l l' : List NodeId}

theorem mem_iff (h : SettlesAll level promote ns l l') {m : NodeId} :
    m ∈ l' ↔ m ∈ l ∨ m ∈ ns := by
  induction h with
  | nil l => simp
  | @cons n rest l l₁ l₂ first others ih =>
    rw [ih, first.perm.mem_iff, List.mem_cons, List.mem_cons]
    by_cases hm : m = n
    · simp [hm]
    · simp [hm, List.mem_erase_of_ne hm]

/-- The leaves that are not to be placed keep their order. -/
theorem filter_eq (h : SettlesAll level promote ns l l') {p : NodeId → Bool}
    (hp : ∀ n ∈ ns, p n = false) : l'.filter p = l.filter p := by
  induction h with
  | nil l => rfl
  | @cons n rest l l₁ l₂ first others ih =>
    have hn := hp n List.mem_cons_self
    rw [ih fun m hm => hp m (List.mem_cons_of_mem n hm), first.filter_eq hn,
      filter_erase_of_not (by simp [hn])]

/-- Where the leaves that are not to be placed ascend, all do in the end if and only if none goes
astray. -/
theorem ascends_iff (h : SettlesAll level promote ns l l') (hl : l.Nodup) (hns : ns.Nodup)
    (hothers : Ascends level (l.filter fun m => m ∉ ns)) :
    Ascends level l' ↔ ¬ Strays level promote ns l := by
  induction h with
  | nil l =>
    refine ⟨fun _ => ?_, fun _ => by simpa using hothers⟩
    rintro ⟨f, hf, -⟩
    cases hf
  | @cons n rest l l₁ l₂ first others ih =>
    obtain ⟨hn, hrest⟩ := List.nodup_cons.1 hns
    have hwaiting : Ascends level ((l.erase n).filter fun m => !decide (m ∈ rest)) := by
      rw [hl.erase_eq_filter, List.filter_filter]
      refine (List.filter_congr fun m _ => ?_) ▸ hothers
      by_cases hm : m = n <;> simp [hm]
    have hiff : Ascends level (l₁.filter fun m => !decide (m ∈ rest)) ↔
        ¬ Misleads level (fun m => m ∈ rest) n promote (l.erase n) :=
      first.ascends_iff (by simpa using hn) hwaiting
    simp only [← decide_not] at hiff
    rw [first.strays_cons_iff hl hn]
    by_cases hmisled : Misleads level (fun m => m ∈ rest) n promote (l.erase n)
    · -- neither the leaf nor the one that it passed over is placed again
      refine ⟨fun hascends => absurd hmisled (hiff.1 ?_), fun hnone => absurd (.inl hmisled) hnone⟩
      rw [← others.filter_eq fun m hm => by simpa using hm]
      exact hascends.filter _
    · rw [ih (first.nodup hl) hrest (hiff.2 hmisled), or_iff_right hmisled]

end SettlesAll

/-- When a subtree is restacked among leaves that ascend by level, all leaves ascend afterwards
if and only if none of the subtree goes astray. -/
theorem restack_ascends_iff {t : Tree} {shapes : List Tree.Shape} (ht : t.Forest shapes)
    {s : Stack} {l : List NodeId} (h : s.Holds l) (hlive : ∀ m ∈ l, (t.client? m).isSome)
    {n : NodeId} (hn : (t.get? n).isSome)
    (hothers : Ascends t.level (l.filter fun m => m ∉ t.leaves (some n)))
    (root : Option NodeId) (promote : Bool) :
    ∃ l', (s.restack t root n promote true).1.Holds l' ∧
      (∀ m, m ∈ l' ↔ m ∈ l ∨ m ∈ t.leaves (some n)) ∧
      (l'.filter fun m => m ∉ t.leaves (some n)) = (l.filter fun m => m ∉ t.leaves (some n)) ∧
      (Ascends t.level l' ↔ ¬ Strays t.level promote (t.leaves (some n)) l) := by
  obtain ⟨node, hget⟩ := Option.isSome_iff_exists.1 hn
  obtain ⟨hnodup, hclients⟩ := ht.leaves_spec hget
  obtain ⟨l', hl', hall⟩ := h.restackLeaves hlive hclients promote
  exact ⟨l', hl', fun m => hall.mem_iff, hall.filter_eq fun m hm => by simpa using hm,
    hall.ascends_iff h.1 hnodup hothers⟩

/-- Two of three windows come down from the top of the stack, the one that was missing first. -/
theorem restack_ascends_rising :
    ∃ l', ((Stack.ofList [⟨3⟩, ⟨0⟩]).restack rising (some ⟨2⟩) ⟨4⟩ false true).1.Holds l' ∧
      Ascends rising.level l' := by
  have hforest : rising.Forest [.fork ⟨2⟩ (.leaf ⟨0⟩) (.fork ⟨4⟩ (.leaf ⟨1⟩) (.leaf ⟨3⟩))] := by
    decide
  have hholds : (Stack.ofList [⟨3⟩, ⟨0⟩]).Holds [⟨3⟩, ⟨0⟩] := Holds.ofList (by decide)
  obtain ⟨l', hl', -, -, hiff⟩ :=
    restack_ascends_iff hforest hholds (by decide) (n := ⟨4⟩) (by decide) (by decide)
      (some ⟨2⟩) false
  exact ⟨l', hl', hiff.2 (by decide)⟩

/-- Two windows of a subtree that are promoted together from below a third one: the first goes
astray at the second, which still stands at the bottom. -/
theorem not_restack_ascends :
    ¬ ∀ (t : Tree) (shapes : List Tree.Shape) (s : Stack) (l : List NodeId) (n : NodeId)
      (root : Option NodeId) (promote : Bool), t.Forest shapes → s.Holds l →
      (∀ m ∈ l, (t.client? m).isSome) → (t.get? n).isSome →
      Ascends t.level (l.filter fun m => m ∉ t.leaves (some n)) →
      Ascends t.level (s.restack t root n promote true).1.toList := by
  intro hall
  have hascends := hall rising [.fork ⟨2⟩ (.leaf ⟨0⟩) (.fork ⟨4⟩ (.leaf ⟨1⟩) (.leaf ⟨3⟩))]
    (Stack.ofList [⟨1⟩, ⟨3⟩, ⟨0⟩]) [⟨1⟩, ⟨3⟩, ⟨0⟩] ⟨4⟩ (some ⟨2⟩) true (by decide)
    (Holds.ofList (by decide)) (by decide) (by decide) (by decide)
  exact absurd hascends (by decide)

end Tiling.Stack
