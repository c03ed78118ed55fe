import Mathlib.Data.List.Basic
import Tiling.Proofs.Subscribers.Sending
import Tiling.Subscribers
/-!
# Traffic

What goes on at the subscribers, one thing after the other, and what it means to a single one.
What becomes of a subscriber depends on the traffic and on its own stream alone: the members at
the end are those whose fate it is to stay, in the order in which they came.
-/

namespace Tiling

def Message.bytes (m : Message) : Bytes := Text.encode m.text

/-- What happens at the subscribers. -/
inductive Traffic where
  | register (sub : Subscriber) (report : String)
  | publish (m : Message)
  | prune
  /-- A stream changes at its other end. What it has taken stays on record. -/
  | reader (descriptor : Nat) (channel : Channel) (script : List WriteAnswer)

namespace Traffic

def registered? : Traffic → Option Nat
  | .register sub _ => some sub.descriptor
  | .publish _ | .prune | .reader .. => none

/-- The traffic without the registrations. -/
def ongoing (traffic : List Traffic) : List Traffic := traffic.filter (·.registered?.isNone)

/-- The message, if it is for one of the topics. -/
def addressed? (topics : Topics) : Traffic → Option Message
  | .publish m => if topics.meets m.topics then some m else none
  | .register .. | .prune | .reader .. => none

def addressed (topics : Topics) (traffic : List Traffic) : List Message :=
  traffic.filterMap (addressed? topics)

theorem addressed_cons (topics : Topics) (t : Traffic) (rest : List Traffic) :
    addressed topics (t :: rest) = (t.addressed? topics).toList ++ addressed topics rest := by
  rw [addressed, List.filterMap_cons, addressed]
  cases t.addressed? topics <;> rfl

/-- What a newcomer is met with. -/
def greeting (report : String) : Traffic := .publish ⟨.single .report, report⟩

end Traffic

namespace Subscriber

def rewire (sub : Subscriber) (descriptor : Nat) (channel : Channel) (script : List WriteAnswer) :
    Subscriber :=
  if sub.descriptor = descriptor then
    { sub with stream := { sub.stream with channel := channel, script := script } }
  else sub

/-- What the traffic does to a subscriber; says whether it stays. -/
def meet (sub : Subscriber) : Traffic → Subscriber × Bool
  | .register .. => (sub, true)
  | .publish m => sub.deliver m.topics m.bytes
  | .prune => (sub, sub.stream.isAlive)
  | .reader descriptor channel script => (sub.rewire descriptor channel script, true)

/-- What becomes of a subscriber: as it stays, or as it leaves. -/
def fate (sub : Subscriber) : List Traffic → Subscriber × Bool
  | [] => (sub, true)
  | t :: rest => if (sub.meet t).2 then (sub.meet t).1.fate rest else sub.meet t

/-- What its stream has taken. -/
def received (sub : Subscriber) : Nat × Bytes := (sub.descriptor, sub.stream.waiting)

theorem received_rewire (sub : Subscriber) (descriptor : Nat) (channel : Channel)
    (script : List WriteAnswer) :
    (sub.rewire descriptor channel script).received = sub.received := by
  unfold rewire
  split <;> rfl

end Subscriber

namespace Subscribers

def handle (s : Subscribers) : Traffic → Subscribers
  | .register sub report => s.register sub report
  | .publish m => s.publish m.topics m.text
  | .prune => s.prune
  | .reader descriptor channel script =>
    s.modifyStream descriptor fun stream => { stream with channel := channel, script := script }

def run (s : Subscribers) (traffic : List Traffic) : Subscribers := traffic.foldl handle s

def stayers (marked : List (Subscriber × Bool)) : List Subscriber :=
  (marked.filter Prod.snd).map Prod.fst

def leavers (marked : List (Subscriber × Bool)) : List Subscriber :=
  (marked.filter fun m => !m.2).map Prod.fst

/-- What becomes of the newcomers. -/
def entries : List Traffic → List (Subscriber × Bool)
  | [] => []
  | .register sub report :: rest => sub.fate (.greeting report :: rest) :: entries rest
  | _ :: rest => entries rest

/-- What becomes of the members, and of the newcomers after them. -/
def fates (s : Subscribers) (traffic : List Traffic) : List (Subscriber × Bool) :=
  s.members.map (·.fate traffic) ++ entries traffic

/-! ## Those who stay and those who leave -/

theorem stayers_cons (mark : Subscriber × Bool) (marked : List (Subscriber × Bool)) :
    stayers (mark :: marked) = (if mark.2 then [mark.1] else []) ++ stayers marked := by
  obtain ⟨sub, stays⟩ := mark
  cases stays <;> rfl

theorem stayers_append (marked others : List (Subscriber × Bool)) :
    stayers (marked ++ others) = stayers marked ++ stayers others := by
  rw [stayers, List.filter_append, List.map_append, stayers, stayers]

theorem leavers_append (marked others : List (Subscriber × Bool)) :
    leavers (marked ++ others) = leavers marked ++ leavers others := by
  rw [leavers, List.filter_append, List.map_append, leavers, leavers]

/-- Nobody leaves when all are marked to stay. -/
theorem stayers_of_all (subs : List Subscriber) {f : Subscriber → Subscriber × Bool}
    (h : ∀ sub ∈ subs, (f sub).2 = true) :
    stayers (subs.map f) = subs.map (f · |>.1) ∧ leavers (subs.map f) = [] := by
  have hall : ∀ m ∈ subs.map f, m.2 = true := List.forall_mem_map.2 h
  rw [stayers, leavers, List.filter_eq_self.2 hall, List.map_map]
  refine ⟨rfl, List.map_eq_nil_iff.2 (List.filter_eq_nil_iff.2 fun m hm => ?_)⟩
  rw [hall m hm]
  exact nofun

/-! ## One step -/

theorem dispose_spec (s : Subscribers) (sub : Subscriber) :
    (s.dispose sub).members = s.members ∧
      (s.dispose sub).departed.map Subscriber.received =
        s.departed.map Subscriber.received ++ [sub.received] := by
  unfold dispose
  split <;> exact ⟨rfl, List.map_append⟩

theorem keep_spec (s : Subscribers) (marked : List (Subscriber × Bool)) :
    (s.keep marked).members = stayers marked ∧
      (s.keep marked).departed.map Subscriber.received =
        s.departed.map Subscriber.received ++ (leavers marked).map Subscriber.received := by
  have hall (gone : List Subscriber) (s : Subscribers) :
      (gone.foldl dispose s).members = s.members ∧
        (gone.foldl dispose s).departed.map Subscriber.received =
          s.departed.map Subscriber.received ++ gone.map Subscriber.received := by
    induction gone generalizing s with
    | nil => exact ⟨rfl, (List.append_nil _).symm⟩
    | cons sub gone ih =>
      obtain ⟨hmembers, hdeparted⟩ := dispose_spec s sub
      obtain ⟨hmembers', hdeparted'⟩ := ih (s.dispose sub)
      refine ⟨hmembers'.trans hmembers, ?_⟩
      rw [List.foldl_cons, hdeparted', hdeparted, List.append_assoc, List.map_cons,
        List.singleton_append]
  exact hall _ _

end Subscribers

theorem Topics.meets_single (topics : Topics) (t : Topic) :
    topics.meets (.single t) = topics.has t := by
  rw [meets, single, BitVec.and_twoPow, has]
  cases topics.getLsbD t.bit with
  | true => cases t <;> decide
  | false => rfl

namespace Subscribers

theorem register_eq (s : Subscribers) (sub : Subscriber) (report : String) :
    s.register sub report =
      if (sub.meet (.greeting report)).2 then s.add (sub.meet (.greeting report)).1
      else s.dispose (sub.meet (.greeting report)).1 := by
  simp only [register, Subscriber.meet, Traffic.greeting, Subscriber.deliver, Topics.meets_single,
    Message.bytes]
  cases sub.topics.has .report with
  | false => rfl
  | true =>
    cases hleaves : (sub.send (Text.encode report)).1.leaves (sub.send (Text.encode report)).2 with
    | false => simp
    | true => simp

/-- What a step does to the newcomer, if it brings one. -/
def entrant? : Traffic → Option (Subscriber × Bool)
  | .register sub report => some (sub.meet (.greeting report))
  | .publish _ | .prune | .reader .. => none

/-- The members after a step are those who stay, and what those who leave have taken is on
record. -/
theorem handle_spec (s : Subscribers) (t : Traffic) :
    (s.handle t).members = stayers (s.members.map (·.meet t) ++ (entrant? t).toList) ∧
      (s.handle t).departed.map Subscriber.received = s.departed.map Subscriber.received ++
        (leavers (s.members.map (·.meet t) ++ (entrant? t).toList)).map Subscriber.received := by
  cases t with
  | publish m =>
    rw [entrant?, Option.toList_none, List.append_nil]
    exact s.keep_spec _
  | prune =>
    rw [entrant?, Option.toList_none, List.append_nil]
    exact s.keep_spec _
  | register sub report =>
    obtain ⟨hstay, hleave⟩ := stayers_of_all s.members
      (f := (·.meet (.register sub report))) fun _ _ => rfl
    rw [stayers_append, leavers_append, hstay, hleave, handle, register_eq, entrant?]
    generalize sub.meet (.greeting report) = mark
    obtain ⟨sub', stays⟩ := mark
    cases stays with
    | true => simp [Subscriber.meet, add, stayers, leavers]
    | false =>
      obtain ⟨hmembers, hdeparted⟩ := s.dispose_spec sub'
      simp [Subscriber.meet, stayers, leavers, hmembers, hdeparted]
  | reader descriptor channel script =>
    obtain ⟨hstay, hleave⟩ := stayers_of_all s.members
      (f := (·.meet (.reader descriptor channel script))) fun _ _ => rfl
    rw [entrant?, Option.toList_none, List.append_nil, hstay, hleave, List.map_nil, List.append_nil]
    refine ⟨rfl, ?_⟩
    show (s.departed.map (·.rewire descriptor channel script)).map Subscriber.received = _
    rw [List.map_map]
    exact List.map_congr_left fun sub _ => sub.received_rewire descriptor channel script

/-! ## A run -/

/-- What becomes of somebody after a step: one who has left has left. -/
def onward (rest : List Traffic) (mark : Subscriber × Bool) : Subscriber × Bool :=
  if mark.2 then mark.1.fate rest else mark

theorem fates_cons (s : Subscribers) (t : Traffic) (rest : List Traffic) :
    s.fates (t :: rest) =
      (s.members.map (·.meet t) ++ (entrant? t).toList).map (onward rest) ++ entries rest := by
  have hentries : entries (t :: rest) = (entrant? t).toList.map (onward rest) ++ entries rest := by
    cases t <;> rfl
  rw [fates, hentries, List.map_append, List.map_map, List.append_assoc]
  rfl

/-- Those who stay in the end have stayed before, and those who leave have left before or leave
later. -/
theorem onward_spec (rest : List Traffic) (marked : List (Subscriber × Bool)) :
    stayers (marked.map (onward rest)) = stayers ((stayers marked).map (·.fate rest)) ∧
      (leavers (marked.map (onward rest))).Perm
        (leavers marked ++ leavers ((stayers marked).map (·.fate rest))) := by
  induction marked with
  | nil => exact ⟨rfl, .refl _⟩
  | cons mark marked ih =>
    obtain ⟨hstayers, hleavers⟩ := ih
    obtain ⟨sub, stays⟩ := mark
    rw [List.map_cons, ← List.singleton_append, stayers_append, leavers_append, hstayers]
    cases stays with
    | true =>
      have hon : (stayers ((sub, true) :: marked)).map (·.fate rest) =
          [sub.fate rest] ++ (stayers marked).map (·.fate rest) := rfl
      rw [hon, stayers_append, leavers_append]
      exact ⟨rfl, (hleavers.append_left _).trans (List.perm_append_comm_assoc _ _ _)⟩
    | false => exact ⟨rfl, hleavers.cons sub⟩

/-- The members at the end are those whose fate it is to stay, in order; what the others have
taken is on record. -/
theorem run_spec (s : Subscribers) (traffic : List Traffic) :
    (s.run traffic).members = stayers (s.fates traffic) ∧
      ((s.run traffic).departed.map Subscriber.received).Perm
        (s.departed.map Subscriber.received ++
          (leavers (s.fates traffic)).map Subscriber.received) := by
  induction traffic generalizing s with
  | nil =>
    obtain ⟨hstay, hleave⟩ := stayers_of_all s.members (f := (·.fate [])) fun _ _ => rfl
    rw [fates, entries, List.append_nil, hstay, hleave, List.map_nil, List.append_nil]
    exact ⟨(List.map_id _).symm, .refl _⟩
  | cons t rest ih =>
    -- members and newcomer of the first step are marked, and those who stay go on to their fates
    obtain ⟨hmembers, hdeparted⟩ := ih (s.handle t)
    obtain ⟨hmembers', hdeparted'⟩ := s.handle_spec t
    rw [fates_cons]
    generalize s.members.map (·.meet t) ++ (entrant? t).toList = marked at *
    obtain ⟨hstayers, hleavers⟩ := onward_spec rest marked
    rw [fates, hmembers', stayers_append] at hmembers
    rw [fates, hmembers', leavers_append, List.map_append] at hdeparted
    rw [stayers_append, leavers_append, List.map_append, hstayers]
    refine ⟨hmembers, hdeparted.trans ?_⟩
    rw [hdeparted', List.append_assoc,
      ← List.append_assoc _ _ (List.map _ (leavers (entries rest))), ← List.map_append]
    exact ((hleavers.symm.map _).append_right _).append_left _

theorem run_append (s : Subscribers) (before after : List Traffic) :
    s.run (before ++ after) = (s.run before).run after :=
  List.foldl_append

theorem departed_run (s : Subscribers) (traffic : List Traffic) :
    s.departed.map Subscriber.received <+: (s.run traffic).departed.map Subscriber.received := by
  induction traffic generalizing s with
  | nil => exact List.prefix_refl _
  | cons t rest ih =>
    refine List.IsPrefix.trans ?_ (ih (s.handle t))
    rw [(s.handle_spec t).2]
    exact List.prefix_append _ _

theorem exists_of_mem_entries {traffic : List Traffic} {mark : Subscriber × Bool}
    (h : mark ∈ entries traffic) : ∃ before origin report after,
      traffic = before ++ .register origin report :: after ∧
        mark = origin.fate (.greeting report :: after) := by
  induction traffic with
  | nil => cases h
  | cons t rest ih =>
    have hlater (h : mark ∈ entries rest) : ∃ before origin report after,
        t :: rest = before ++ .register origin report :: after ∧
          mark = origin.fate (.greeting report :: after) := by
      obtain ⟨before, origin, report, after, hrest, hmark⟩ := ih h
      exact ⟨t :: before, origin, report, after, congrArg (t :: ·) hrest, hmark⟩
    cases t with
    | register sub report =>
      rcases List.mem_cons.1 h with rfl | h
      · exact ⟨[], sub, report, rest, rfl, rfl⟩
      · exact hlater h
    | publish _ | prune | reader _ _ _ => exact hlater h

/-! ## Without newcomers -/

end Subscribers

/-- A subscriber does not notice who comes after it. -/
theorem Subscriber.fate_ongoing (sub : Subscriber) (traffic : List Traffic) :
    sub.fate (Traffic.ongoing traffic) = sub.fate traffic := by
  induction traffic generalizing sub with
  | nil => rfl
  | cons t rest ih =>
    have hkept : sub.fate (t :: Traffic.ongoing rest) = sub.fate (t :: rest) := by
      rw [Subscriber.fate, ih, Subscriber.fate]
    cases t with
    | register other report => exact ih sub
    | publish _ | prune | reader _ _ _ => exact hkept

theorem Subscribers.entries_ongoing (traffic : List Traffic) :
    entries (Traffic.ongoing traffic) = [] := by
  induction traffic with
  | nil => rfl
  | cons t rest ih => cases t <;> exact ih

end Tiling
