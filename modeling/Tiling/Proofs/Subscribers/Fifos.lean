import Mathlib.Data.List.Nodup
import Tiling.Proofs.Subscribers.Registry
/-!
# FIFO files

The file of a FIFO is there exactly as long as its subscriber is a member. A name is chosen by
looking at the files alone, so this is also what keeps two members from sharing one.
-/

namespace Tiling

namespace FifoDirectory

theorem has_remove_iff (d : FifoDirectory) (path other : String) :
    (d.remove path).has other = true ↔ d.has other = true ∧ other ≠ path := by
  by_cases h : other = path
  · rw [h, has_remove_same]
    simp
  · rw [has_remove_other d h]
    simp [h]

/-- The name of a new FIFO was free. -/
theorem fresh_of_make {d d' : FifoDirectory} {stem path : String}
    (h : d.make stem = .ok (d', path)) :
    d.has path = false ∧ d' = { d with paths := path :: d.paths } := by
  unfold make at h
  split at h
  · cases h
  · split at h
    · cases h
    · rename_i n hnumber
      split at h
      · cases h
      · cases h
        have hfree := List.find?_some hnumber
        exact ⟨by simpa using hfree, rfl⟩

end FifoDirectory

/-- Paths of the FIFOs of some subscribers. -/
def fifosOf (subs : List Subscriber) : List String := subs.filterMap Subscriber.fifo

theorem fifosOf_append (subs others : List Subscriber) :
    fifosOf (subs ++ others) = fifosOf subs ++ fifosOf others :=
  List.filterMap_append

/-- The FIFO that a newcomer brings. -/
def Traffic.fifo? : Traffic → Option String
  | .register sub _ => sub.fifo
  | .publish _ | .prune | .reader .. => none

namespace Subscriber

@[simp] theorem fifo_meet (sub : Subscriber) (t : Traffic) : (sub.meet t).1.fifo = sub.fifo := by
  cases t with
  | register other report => rfl
  | prune => rfl
  | reader descriptor channel script =>
    rw [meet, rewire]
    split <;> rfl
  | publish m =>
    rw [meet, deliver]
    split
    · show sub.spend.fifo = sub.fifo
      rw [spend]
      split <;> rfl
    · rfl

end Subscriber

namespace Subscribers

/-- Paths of the members' FIFOs. -/
def fifos (s : Subscribers) : List String := fifosOf s.members

/-- What a step does to the members and to the newcomer. -/
def marks (s : Subscribers) (t : Traffic) : List (Subscriber × Bool) :=
  s.members.map (·.meet t) ++ (entrant? t).toList

theorem members_handle (s : Subscribers) (t : Traffic) :
    (s.handle t).members = stayers (s.marks t) :=
  (s.handle_spec t).1

/-- A step changes no path. -/
theorem fifosOf_marks (s : Subscribers) (t : Traffic) :
    fifosOf ((s.marks t).map Prod.fst) = s.fifos ++ t.fifo?.toList := by
  have hmembers : fifosOf ((s.members.map (·.meet t)).map Prod.fst) = s.fifos := by
    rw [fifosOf, List.map_map, List.filterMap_map]
    exact List.filterMap_congr fun sub _ => sub.fifo_meet t
  have hentrant : fifosOf ((entrant? t).toList.map Prod.fst) = t.fifo?.toList := by
    cases t with
    | register sub report =>
      show fifosOf [(sub.meet (.greeting report)).1] = sub.fifo.toList
      rw [fifosOf, List.filterMap_cons, Subscriber.fifo_meet]
      cases sub.fifo <;> rfl
    | publish _ | prune | reader _ _ _ => rfl
  rw [marks, List.map_append, fifosOf_append, hmembers, hentrant]

theorem mem_fifosOf_stayers {marked : List (Subscriber × Bool)} {sub : Subscriber} {path : String}
    (h : (sub, true) ∈ marked) (hpath : sub.fifo = some path) :
    path ∈ fifosOf (stayers marked) :=
  have hstays : sub ∈ stayers marked := List.mem_map_of_mem (List.mem_filter.2 ⟨h, rfl⟩)
  List.mem_filterMap.2 ⟨sub, hstays, hpath⟩

theorem mem_fifosOf_leavers {marked : List (Subscriber × Bool)} {sub : Subscriber} {path : String}
    (h : (sub, false) ∈ marked) (hpath : sub.fifo = some path) :
    path ∈ fifosOf (leavers marked) :=
  have hleaves : sub ∈ leavers marked := List.mem_map_of_mem (List.mem_filter.2 ⟨h, rfl⟩)
  List.mem_filterMap.2 ⟨sub, hleaves, hpath⟩

/-- Everybody stays or leaves. -/
theorem fifosOf_perm (marked : List (Subscriber × Bool)) :
    (fifosOf (stayers marked) ++ fifosOf (leavers marked)).Perm
      (fifosOf (marked.map Prod.fst)) := by
  rw [← fifosOf_append, stayers, leavers, ← List.map_append]
  exact ((List.filter_append_perm Prod.snd marked).map Prod.fst).filterMap Subscriber.fifo

/-! ## Letting go -/

/-- Exactly the files of those who are let go of are deleted. -/
theorem files_disposeAll (gone : List Subscriber) {s : Subscribers} (h : s.restarting = false) :
    (gone.foldl dispose s).restarting = false ∧ (gone.foldl dispose s).members = s.members ∧
      ∀ path, (gone.foldl dispose s).files.has path = true ↔
        s.files.has path = true ∧ path ∉ fifosOf gone := by
  induction gone generalizing s with
  | nil => exact ⟨h, rfl, fun path => by simp [fifosOf]⟩
  | cons sub gone ih =>
    have hrestarting : (s.dispose sub).restarting = false := by
      simp [dispose, h]
    have hfiles (path : String) : (s.dispose sub).files.has path = true ↔
        s.files.has path = true ∧ path ∉ sub.fifo.toList := by
      cases hfifo : sub.fifo with
      | none => simp [dispose, h, hfifo]
      | some own => simp [dispose, h, hfifo, FifoDirectory.has_remove_iff]
    obtain ⟨hrestarting', hmembers', hfiles'⟩ := ih hrestarting
    refine ⟨hrestarting', hmembers'.trans (s.dispose_spec sub).1, fun path => ?_⟩
    have hgone : fifosOf (sub :: gone) = sub.fifo.toList ++ fifosOf gone := by
      rw [fifosOf, List.filterMap_cons]
      cases sub.fifo <;> rfl
    rw [List.foldl_cons, hfiles', hfiles, hgone, List.mem_append, not_or, and_assoc]

theorem files_handle {s : Subscribers} (h : s.restarting = false) (t : Traffic) :
    (s.handle t).restarting = false ∧
      ∀ path, (s.handle t).files.has path = true ↔
        s.files.has path = true ∧ path ∉ fifosOf (leavers (s.marks t)) := by
  have hkeep (marked : List (Subscriber × Bool)) : (s.keep marked).restarting = false ∧
      ∀ path, (s.keep marked).files.has path = true ↔
        s.files.has path = true ∧ path ∉ fifosOf (leavers marked) := by
    obtain ⟨hrestarting, -, hfiles⟩ :=
      files_disposeAll (leavers marked) (s := { s with members := stayers marked }) h
    exact ⟨hrestarting, hfiles⟩
  cases t with
  | publish m =>
    rw [marks, entrant?, Option.toList_none, List.append_nil]
    exact hkeep _
  | prune =>
    rw [marks, entrant?, Option.toList_none, List.append_nil]
    exact hkeep _
  | reader descriptor channel script =>
    have hleave : leavers (s.marks (.reader descriptor channel script)) = [] := by
      rw [marks, entrant?, Option.toList_none, List.append_nil]
      exact (stayers_of_all s.members fun _ _ => rfl).2
    rw [hleave]
    exact ⟨h, fun path => by simp [fifosOf, handle, modifyStream]⟩
  | register sub report =>
    have hleave : leavers (s.marks (.register sub report)) =
        leavers [sub.meet (.greeting report)] := by
      rw [marks, leavers_append, (stayers_of_all s.members fun _ _ => rfl).2]
      rfl
    rw [hleave, handle, register_eq]
    generalize sub.meet (.greeting report) = mark
    obtain ⟨sub', stays⟩ := mark
    cases stays with
    | true => exact ⟨h, fun path => by simp [add, leavers, fifosOf]⟩
    | false =>
      obtain ⟨hrestarting, -, hfiles⟩ := files_disposeAll [sub'] h
      exact ⟨hrestarting, hfiles⟩

/-! ## One file for each FIFO -/

/-- The files are the members' FIFOs, no two of which are the same, and some files of others. -/
structure Tidy (s : Subscribers) (foreign : List String) : Prop where
  lasting : s.restarting = false
  distinct : s.fifos.Nodup
  apart : ∀ path ∈ s.fifos, path ∉ foreign
  files : ∀ path, s.files.has path = true ↔ path ∈ s.fifos ∨ path ∈ foreign

variable {s : Subscribers} {foreign : List String}

/-- Of the files that are there before a step those of the leavers are deleted, and what is left
is tidy, also if the newcomer has a file already. -/
theorem tidy_handle {t : Traffic} (hlasting : s.restarting = false)
    (hdistinct : (s.fifos ++ t.fifo?.toList).Nodup)
    (hapart : ∀ path ∈ s.fifos ++ t.fifo?.toList, path ∉ foreign)
    (hfiles : ∀ path, s.files.has path = true ↔
      path ∈ s.fifos ++ t.fifo?.toList ∨ path ∈ foreign) :
    (s.handle t).Tidy foreign := by
  obtain ⟨hlasting', hfiles'⟩ := files_handle hlasting t
  have hperm := fifosOf_perm (s.marks t)
  rw [fifosOf_marks] at hperm
  have hsplit := hperm.nodup_iff.2 hdistinct
  have hfifos : (s.handle t).fifos = fifosOf (stayers (s.marks t)) := by
    rw [fifos, members_handle]
  refine ⟨hlasting', ?_, fun path hpath => ?_, fun path => ?_⟩
  · rw [hfifos]
    exact (List.nodup_append.1 hsplit).1
  · rw [hfifos] at hpath
    exact hapart path (hperm.mem_iff.1 (List.mem_append_left _ hpath))
  · have hmem : path ∈ s.fifos ++ t.fifo?.toList ↔
        path ∈ fifosOf (stayers (s.marks t)) ∨ path ∈ fifosOf (leavers (s.marks t)) := by
      rw [← hperm.mem_iff, List.mem_append]
    have hdisjoint := List.disjoint_of_nodup_append hsplit
    rw [hfiles', hfiles, hmem, hfifos]
    constructor
    · rintro ⟨(hstays | hleaves) | hforeign, hgone⟩
      · exact .inl hstays
      · exact absurd hleaves hgone
      · exact .inr hforeign
    · rintro (hstays | hforeign)
      · exact ⟨.inl (.inl hstays), fun hleaves => hdisjoint hstays hleaves⟩
      · exact ⟨.inr hforeign, fun hleaves => hapart path (hmem.2 (.inr hleaves)) hforeign⟩

theorem Tidy.handle {t : Traffic} (h : s.Tidy foreign) (hbare : t.fifo? = none) :
    (s.handle t).Tidy foreign := by
  have hsame : s.fifos ++ t.fifo?.toList = s.fifos := by
    rw [hbare, Option.toList_none, List.append_nil]
  apply tidy_handle h.lasting
  · rw [hsame]
    exact h.distinct
  · rw [hsame]
    exact h.apart
  · rw [hsame]
    exact h.files

/-- Makes a FIFO for a subscriber to come. -/
def equip (s : Subscribers) (stem : String) (sub : Subscriber) :
    Except FifoError (Subscribers × Subscriber) :=
  match s.files.make stem with
  | .ok (files, path) => .ok ({ s with files := files }, { sub with fifo := some path })
  | .error e => .error e

theorem equip_spec {s' : Subscribers} {sub sub' : Subscriber} {stem : String}
    (h : s.equip stem sub = .ok (s', sub')) :
    ∃ path, s.files.has path = false ∧
      s' = { s with files := { s.files with paths := path :: s.files.paths } } ∧
      sub' = { sub with fifo := some path } := by
  rw [equip] at h
  cases hmake : s.files.make stem with
  | error e =>
    rw [hmake] at h
    cases h
  | ok made =>
    obtain ⟨files, path⟩ := made
    rw [hmake] at h
    cases h
    obtain ⟨hfree, rfl⟩ := FifoDirectory.fresh_of_make hmake
    exact ⟨path, hfree, rfl, rfl⟩

/-- The subscriber of a new FIFO may leave at once, and then the file is gone again. -/
theorem Tidy.handle_equipped {s' : Subscribers} {sub sub' : Subscriber} {stem : String}
    (h : s.Tidy foreign) (hequip : s.equip stem sub = .ok (s', sub')) (report : String) :
    (s'.handle (.register sub' report)).Tidy foreign := by
  obtain ⟨path, hfree, rfl, rfl⟩ := equip_spec hequip
  have hnew : ¬(path ∈ s.fifos ∨ path ∈ foreign) := by
    rw [← h.files, hfree]
    exact Bool.false_ne_true
  rw [not_or] at hnew
  apply tidy_handle
  · exact h.lasting
  · show (s.fifos ++ [path]).Nodup
    rw [List.nodup_append]
    refine ⟨h.distinct, List.nodup_singleton path, fun own hown other hother => ?_⟩
    rw [List.mem_singleton.1 hother]
    exact fun heq => hnew.1 (heq ▸ hown)
  · show ∀ other ∈ s.fifos ++ [path], other ∉ foreign
    intro other hother
    rcases List.mem_append.1 hother with hown | hmade
    · exact h.apart other hown
    · rw [List.mem_singleton.1 hmade]
      exact hnew.2
  · intro other
    show (path :: s.files.paths).contains other = true ↔ other ∈ s.fifos ++ [path] ∨ _
    have hother := h.files other
    rw [FifoDirectory.has] at hother
    rw [List.contains_cons, Bool.or_eq_true, hother, beq_iff_eq, List.mem_append,
      List.mem_singleton]
    tauto

/-- At the end only the files of others are left. -/
theorem Tidy.drop (h : s.Tidy foreign) :
    s.drop.members = [] ∧ ∀ path, s.drop.files.has path = true ↔ path ∈ foreign := by
  obtain ⟨-, hmembers, hfiles⟩ :=
    files_disposeAll s.members (s := { s with members := [] }) h.lasting
  refine ⟨hmembers, fun path => (hfiles path).trans ?_⟩
  rw [h.files]
  show (path ∈ s.fifos ∨ path ∈ foreign) ∧ path ∉ s.fifos ↔ path ∈ foreign
  constructor
  · rintro ⟨hown | hforeign, hnone⟩
    · exact absurd hown hnone
    · exact hforeign
  · exact fun hforeign => ⟨.inr hforeign, fun hown => h.apart path hown hforeign⟩

end Subscribers

/-! ## The life of a FIFO -/

/-- The registry, and the files in its directory that are not its own. -/
structure Premises where
  registry : Subscribers
  foreign : List String

/-- What happens to the registry and around it. -/
inductive Affair where
  /-- A FIFO is made for a new subscriber. -/
  | fifo (stem : String) (sub : Subscriber) (report : String)
  /-- Anything else at the registry, where newcomers come with sockets. -/
  | call (t : Traffic) (bare : t.fifo? = none)
  /-- Somebody else makes a file. -/
  | appears (path : String)
  /-- Somebody else deletes a file, which is no FIFO of the registry. -/
  | vanishes (path : String)

namespace Premises

def start (files : FifoDirectory) : Premises := ⟨.empty files, files.paths⟩

def step (p : Premises) : Affair → Premises
  | .fifo stem sub report =>
    match p.registry.equip stem sub with
    | .ok (registry, sub) => { p with registry := registry.handle (.register sub report) }
    | .error _ => p
  | .call t _ => { p with registry := p.registry.handle t }
  | .appears path =>
    let files := p.registry.files
    if files.has path then p
    else
      ⟨{ p.registry with files := { files with paths := path :: files.paths } }, path :: p.foreign⟩
  | .vanishes path =>
    if path ∈ p.foreign then
      ⟨{ p.registry with files := p.registry.files.remove path }, p.foreign.filter (· != path)⟩
    else p

def run (p : Premises) (affairs : List Affair) : Premises := affairs.foldl step p

/-- What an affair does to the members and to the newcomer. -/
def outcome (p : Premises) : Affair → List (Subscriber × Bool)
  | .fifo stem sub report =>
    match p.registry.equip stem sub with
    | .ok (registry, sub) => registry.marks (.register sub report)
    | .error _ => p.registry.members.map (·, true)
  | .call t _ => p.registry.marks t
  | .appears _ | .vanishes _ => p.registry.members.map (·, true)

def Tidy (p : Premises) : Prop := p.registry.Tidy p.foreign

variable {p : Premises}

theorem tidy_start (files : FifoDirectory) : (start files).Tidy :=
  ⟨rfl, List.nodup_nil, nofun, fun path => by
    simp [start, Subscribers.empty, FifoDirectory.has, Subscribers.fifos, fifosOf]⟩

theorem Tidy.step (h : p.Tidy) (affair : Affair) : (p.step affair).Tidy := by
  cases affair with
  | fifo stem sub report =>
    rw [Premises.step]
    cases hequip : p.registry.equip stem sub with
    | error e => exact h
    | ok equipped => exact h.handle_equipped hequip report
  | call t bare => exact h.handle bare
  | appears path =>
    rw [Premises.step]
    split
    · exact h
    · rename_i hfree
      rw [h.files, not_or] at hfree
      refine ⟨h.lasting, h.distinct, fun own hown => ?_, fun other => ?_⟩
      · rw [List.mem_cons, not_or]
        exact ⟨fun heq => hfree.1 (heq ▸ hown), h.apart own hown⟩
      · have hother := h.files other
        rw [FifoDirectory.has] at hother
        show (path :: p.registry.files.paths).contains other = true ↔
          other ∈ p.registry.fifos ∨ other ∈ path :: p.foreign
        rw [List.contains_cons, Bool.or_eq_true, hother, beq_iff_eq, List.mem_cons]
        tauto
  | vanishes path =>
    rw [Premises.step]
    split
    · rename_i hforeign
      refine ⟨h.lasting, h.distinct, fun own hown hmem => ?_, fun other => ?_⟩
      · exact h.apart own hown (List.mem_of_mem_filter hmem)
      · show (p.registry.files.remove path).has other = true ↔
          other ∈ p.registry.fifos ∨ other ∈ p.foreign.filter (· != path)
        have hown : other ∈ p.registry.fifos → other ≠ path :=
          fun hown heq => h.apart other hown (heq ▸ hforeign)
        rw [FifoDirectory.has_remove_iff, h.files, List.mem_filter, bne_iff_ne]
        tauto
    · exact h

theorem Tidy.run (h : p.Tidy) (affairs : List Affair) : (p.run affairs).Tidy := by
  induction affairs generalizing p with
  | nil => exact h
  | cons affair rest ih => exact ih (h.step affair)

theorem members_step (p : Premises) (affair : Affair) :
    (p.step affair).registry.members = Subscribers.stayers (p.outcome affair) := by
  have hidle : p.registry.members = Subscribers.stayers (p.registry.members.map (·, true)) := by
    rw [(Subscribers.stayers_of_all p.registry.members fun _ _ => rfl).1, List.map_id']
  cases affair with
  | fifo stem sub report =>
    rw [step, outcome]
    cases p.registry.equip stem sub with
    | error e => exact hidle
    | ok equipped => exact Subscribers.members_handle _ _
  | call t bare => exact Subscribers.members_handle _ _
  | appears path =>
    rw [step]
    split <;> exact hidle
  | vanishes path =>
    rw [step]
    split <;> exact hidle

/-- The file of somebody who leaves is deleted at once. -/
theorem Tidy.files_leaver (h : p.Tidy) {affair : Affair} {sub : Subscriber} {path : String}
    (hleaves : (sub, false) ∈ p.outcome affair) (hpath : sub.fifo = some path) :
    (p.step affair).registry.files.has path = false := by
  have hidle : (sub, false) ∉ p.registry.members.map (·, true) := by
    simp
  have hcall {s : Subscribers} {t : Traffic} (hs : s.restarting = false)
      (hleaves : (sub, false) ∈ s.marks t) : (s.handle t).files.has path = false := by
    rw [Bool.eq_false_iff, ne_eq, (Subscribers.files_handle hs t).2]
    exact fun hstays => hstays.2 (Subscribers.mem_fifosOf_leavers hleaves hpath)
  cases affair with
  | fifo stem sub' report =>
    rw [outcome] at hleaves
    rw [Premises.step]
    cases hequip : p.registry.equip stem sub' with
    | error e =>
      rw [hequip] at hleaves
      exact absurd hleaves hidle
    | ok equipped =>
      rw [hequip] at hleaves
      obtain ⟨own, -, hregistry, -⟩ := Subscribers.equip_spec hequip
      exact hcall (hregistry ▸ h.lasting) hleaves
  | call t bare => exact hcall h.lasting hleaves
  | appears _ | vanishes _ => exact absurd hleaves hidle

/-- The file of a FIFO is there exactly as long as its subscriber is a member. At any time the
members have different FIFOs, and these and the files of others make up the directory. Whatever
happens next, the members afterwards are those who stay, whose files are there, and the files of
those who leave are gone. At the end nobody is left, and of the files only those of others. -/
theorem fifos_run (files : FifoDirectory) (affairs : List Affair) :
    let p := (start files).run affairs
    (p.registry.fifos.Nodup ∧ (∀ path ∈ p.registry.fifos, path ∉ p.foreign) ∧
      ∀ path, p.registry.files.has path = true ↔ path ∈ p.registry.fifos ∨ path ∈ p.foreign) ∧
    (∀ affair,
      (p.step affair).registry.members = Subscribers.stayers (p.outcome affair) ∧
      ∀ mark ∈ p.outcome affair, ∀ path, mark.1.fifo = some path →
        (p.step affair).registry.files.has path = mark.2) ∧
    p.registry.drop.members = [] ∧
      ∀ path, p.registry.drop.files.has path = true ↔ path ∈ p.foreign := by
  intro p
  have htidy : p.Tidy := (tidy_start files).run affairs
  refine ⟨⟨htidy.distinct, htidy.apart, htidy.files⟩, fun affair => ⟨p.members_step affair, ?_⟩,
    htidy.drop⟩
  rintro ⟨sub, stays⟩ hmark path hpath
  cases stays with
  | false => exact htidy.files_leaver hmark hpath
  | true =>
    rw [(htidy.step affair).files, Subscribers.fifos, p.members_step]
    exact .inl (Subscribers.mem_fifosOf_stayers hmark hpath)

end Premises

end Tiling
