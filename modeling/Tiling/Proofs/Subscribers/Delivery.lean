import Tiling.Proofs.Subscribers.Registry
/-!
# Delivery

What a subscriber gets.  Whatever its stream does, it has taken whole messages, and a part of one
only if that was the last.  A subscriber whose stream takes everything gets every message for its
topics in order, until its budget is spent, whoever else is there.
-/

namespace Tiling

open Traffic (addressed)

theorem Traffic.addressed_greeting (topics : Topics) (report : String) (after : List Traffic) :
    addressed topics (.greeting report :: after) =
      (if topics.has .report then [⟨.single .report, report⟩] else []) ++
        addressed topics after := by
  rw [addressed_cons, greeting, addressed?, Topics.meets_single]
  cases topics.has .report <;> rfl

namespace Subscriber

variable {sub : Subscriber}

/-! ## One message -/

/-- The stream has taken a part of the message, if anything. -/
def Breaks (part : Bytes) (m : Message) : Prop := part <+: m.bytes ∧ part ≠ m.bytes

@[simp] theorem descriptor_spend (sub : Subscriber) : sub.spend.descriptor = sub.descriptor := by
  unfold spend
  split <;> rfl

@[simp] theorem topics_spend (sub : Subscriber) : sub.spend.topics = sub.topics := by
  unfold spend
  split <;> rfl

@[simp] theorem stream_spend (sub : Subscriber) : sub.spend.stream = sub.stream := by
  unfold spend
  split <;> rfl

/-- A message that is not for a subscriber leaves it as it is.  After any other the stream has
taken the message, or nothing, or a part of it, after which the subscriber leaves. -/
theorem meet_spec (sub : Subscriber) (t : Traffic) :
    (sub.meet t).1.descriptor = sub.descriptor ∧ (sub.meet t).1.topics = sub.topics ∧
      ((sub.meet t).1.stream.waiting = sub.stream.waiting ∨
        ∃ m, t.addressed? sub.topics = some m ∧
          ((sub.meet t).1.stream.waiting = sub.stream.waiting ++ m.bytes ∨
            (sub.meet t).2 = false ∧ ∃ part, Breaks part m ∧
              (sub.meet t).1.stream.waiting = sub.stream.waiting ++ part)) := by
  cases t with
  | register other report => exact ⟨rfl, rfl, .inl rfl⟩
  | prune => exact ⟨rfl, rfl, .inl rfl⟩
  | reader descriptor channel script =>
    rw [meet, rewire]
    split <;> exact ⟨rfl, rfl, .inl rfl⟩
  | publish m =>
    rw [meet, deliver, Traffic.addressed?]
    cases sub.topics.meets m.topics with
    | false => exact ⟨rfl, rfl, .inl rfl⟩
    | true =>
      have hsend := sub.stream.send_spec m.bytes
      simp only [if_true, send, descriptor_spend, topics_spend, stream_spend, true_and]
      generalize sub.stream.send m.bytes = outcome at *
      obtain ⟨stream, delivery⟩ := outcome
      rcases hsend with ⟨-, hwaiting⟩ | ⟨-, hwaiting⟩ | ⟨hbroken, part, hbegins, hne, hwaiting⟩
      · exact .inr ⟨m, rfl, .inl hwaiting⟩
      · exact .inl hwaiting
      · obtain rfl : delivery = .broken := hbroken
        exact .inr ⟨m, rfl, .inr ⟨rfl, part, ⟨hbegins, hne⟩, hwaiting⟩⟩

/-! ## Whole messages -/

/-- The stream has taken some of the messages, in order, and perhaps a part of a later one. -/
structure Took (sub final : Subscriber) (mail got : List Message) (part : Bytes) : Prop where
  descriptor : final.descriptor = sub.descriptor
  waiting : final.stream.waiting = sub.stream.waiting ++ got.flatMap Message.bytes ++ part
  inOrder : got.Sublist mail
  torn : part = [] ∨ ∃ m, Breaks part m ∧ (got ++ [m]).Sublist mail

theorem Took.mono {final : Subscriber} {mail mail' got : List Message} {part : Bytes}
    (h : Took sub final mail got part) (hmail : mail.Sublist mail') :
    Took sub final mail' got part :=
  ⟨h.descriptor, h.waiting, h.inOrder.trans hmail,
    h.torn.imp_right fun ⟨m, hm, hgot⟩ => ⟨m, hm, hgot.trans hmail⟩⟩

theorem Took.congr {final final' : Subscriber} {mail got : List Message} {part : Bytes}
    (h : Took sub final mail got part) (hfinal : final.received = final'.received) :
    Took sub final' mail got part := by
  obtain ⟨hdescriptor, hwaiting⟩ := Prod.mk.inj hfinal
  exact ⟨hdescriptor.symm.trans h.descriptor, hwaiting.symm.trans h.waiting, h.inOrder, h.torn⟩

/-- Only the stream of a subscriber that leaves can have taken a part of a message. -/
theorem took_fate (sub : Subscriber) (traffic : List Traffic) :
    ∃ got part, Took sub (sub.fate traffic).1 (addressed sub.topics traffic) got part ∧
      ((sub.fate traffic).2 = true → part = []) := by
  induction traffic generalizing sub with
  | nil => exact ⟨[], [], ⟨rfl, by simp [fate], .refl _, .inl rfl⟩, fun _ => rfl⟩
  | cons t rest ih =>
    obtain ⟨hdescriptor, htopics, hmeet⟩ := sub.meet_spec t
    rw [Traffic.addressed_cons, fate]
    cases hstays : (sub.meet t).2 with
    | true =>
      obtain ⟨got, part, htook, hwhole⟩ := ih (sub.meet t).1
      rw [htopics] at htook
      rw [if_pos rfl]
      -- a torn message is ruled out here, as it makes the subscriber leave
      rcases hmeet with hwaiting | ⟨m, hm, hwaiting | ⟨hleaves, -⟩⟩
      · refine ⟨got, part, ?_, hwhole⟩
        have hsame : Took sub _ _ got part :=
          ⟨htook.descriptor.trans hdescriptor, hwaiting ▸ htook.waiting, htook.inOrder, htook.torn⟩
        exact hsame.mono (List.sublist_append_right _ _)
      · rw [hm]
        refine ⟨m :: got, part,
          ⟨htook.descriptor.trans hdescriptor, ?_, htook.inOrder.cons_cons m, ?_⟩, hwhole⟩
        · rw [htook.waiting, hwaiting, List.flatMap_cons]
          simp only [List.append_assoc]
        · rcases htook.torn with hnone | ⟨m', hm', hgot⟩
          · exact .inl hnone
          · exact .inr ⟨m', hm', hgot.cons_cons m⟩
      · rw [hstays] at hleaves
        cases hleaves
    | false =>
      rw [if_neg Bool.false_ne_true, hstays]
      have hleft (part : Bytes) : false = true → part = [] := fun h => absurd h Bool.false_ne_true
      rcases hmeet with hwaiting | ⟨m, hm, hwaiting | ⟨-, part, hpart, hwaiting⟩⟩
      · exact ⟨[], [], ⟨hdescriptor, by simpa using hwaiting, List.nil_sublist _, .inl rfl⟩,
          hleft []⟩
      · rw [hm]
        exact ⟨[m], [], ⟨hdescriptor, by simpa using hwaiting, List.sublist_append_left _ _,
          .inl rfl⟩, hleft []⟩
      · rw [hm]
        exact ⟨[], part, ⟨hdescriptor, by simpa using hwaiting, List.nil_sublist _,
          .inr ⟨m, hpart, List.sublist_append_left _ _⟩⟩, hleft part⟩

/-! ## Budgets -/

/-- The messages that a budget pays for. -/
def portion (budget : Int32) (mail : List Message) : List Message :=
  if 0 < budget then mail.take budget.toInt.toNat else mail

/-- After some messages a part of the budget is left, or there is no bound. -/
def lasts (budget : Int32) (mail : List Message) : Bool :=
  !decide (0 < budget) || decide (mail.length < budget.toInt.toNat)

theorem portion_nil (budget : Int32) : portion budget [] = [] := by
  rw [portion, List.take_nil, ite_self]

theorem lasts_nil (budget : Int32) : lasts budget [] = true := by
  simp [lasts]

/-- A budget without a bound stays as it is, the last message of a bounded one spends it, and any
other leaves one less. -/
theorem spend_cases (h : sub.budget ≠ 0) :
    (¬0 < sub.budget ∧ sub.spend = sub ∧ sub.spend.isSpent = false) ∨
    (0 < sub.budget ∧ sub.budget.toInt.toNat = 1 ∧ sub.spend.isSpent = true) ∨
    (0 < sub.budget ∧ 0 < sub.spend.budget ∧ sub.spend.isSpent = false ∧
      sub.budget.toInt.toNat = sub.spend.budget.toInt.toNat + 1) := by
  by_cases hpos : 0 < sub.budget
  · have hlower : 0 < sub.budget.toInt := Int32.lt_iff_toInt_lt.1 hpos
    have hupper := sub.budget.toInt_lt
    have hspend : sub.spend.budget = sub.budget - 1 := by rw [spend, if_pos hpos]
    have hpred : sub.spend.budget.toInt = sub.budget.toInt - 1 := by
      have hone : (1 : Int32).toInt = 1 := rfl
      rw [hspend, Int32.toInt_sub, hone, Int.bmod_eq_of_le] <;> omega
    by_cases hlast : sub.spend.budget = 0
    · have hzero : sub.spend.budget.toInt = 0 := congrArg Int32.toInt hlast
      exact .inr (.inl ⟨hpos, by omega, beq_iff_eq.2 hlast⟩)
    · have hne : sub.spend.budget.toInt ≠ 0 := fun heq => hlast (Int32.toInt_inj.1 heq)
      refine .inr (.inr ⟨hpos, Int32.lt_iff_toInt_lt.2 ?_, beq_eq_false_iff_ne.2 hlast, by omega⟩)
      show 0 < sub.spend.budget.toInt
      omega
  · have hspend : sub.spend = sub := if_neg hpos
    exact .inl ⟨hpos, hspend, by rw [hspend]; exact beq_eq_false_iff_ne.2 h⟩

/-- One message is paid for, and of the following ones as many as what it leaves of the budget
pays for. -/
theorem portion_cons (h : sub.budget ≠ 0) (m : Message) (mail : List Message) :
    portion sub.budget (m :: mail) =
      m :: if sub.spend.isSpent then [] else portion sub.spend.budget mail := by
  rcases spend_cases h with ⟨hpos, hspend, hspent⟩ | ⟨hpos, hone, hspent⟩ |
    ⟨hpos, hpos', hspent, hsucc⟩
  · rw [hspent, hspend, portion, if_neg hpos, portion, if_neg hpos, if_neg Bool.false_ne_true]
  · rw [hspent, if_pos rfl, portion, if_pos hpos, hone, List.take_succ_cons, List.take_zero]
  · rw [hspent, if_neg Bool.false_ne_true, portion, if_pos hpos, hsucc, List.take_succ_cons,
      portion, if_pos hpos']

theorem lasts_cons (h : sub.budget ≠ 0) (m : Message) (mail : List Message) :
    lasts sub.budget (m :: mail) = (!sub.spend.isSpent && lasts sub.spend.budget mail) := by
  rcases spend_cases h with ⟨hpos, hspend, hspent⟩ | ⟨hpos, hone, hspent⟩ |
    ⟨hpos, hpos', hspent, hsucc⟩
  · rw [hspent, hspend]
    simp [lasts, hpos]
  · rw [hspent]
    simp [lasts, hpos, hone]
  · rw [hspent]
    simp [lasts, hpos, hpos', hsucc]

/-! ## Streams that take everything -/

/-- The stream takes the message that is for the subscriber, and its reader is there when it is
looked for. -/
def Bears (sub : Subscriber) : Traffic → Prop
  | .publish m => sub.topics.meets m.topics = true → sub.stream.Accepts m.bytes
  | .prune => sub.stream.isAlive = true
  | .register .. | .reader .. => True

/-- As long as the subscriber is there, its stream takes everything. -/
def Willing (sub : Subscriber) : List Traffic → Prop
  | [] => True
  | t :: rest => sub.Bears t ∧ ((sub.meet t).2 = true → (sub.meet t).1.Willing rest)

theorem meet_of_addressed?_eq_none {t : Traffic} (h : t.addressed? sub.topics = none)
    (hbears : sub.Bears t) :
    (sub.meet t).2 = true ∧ (sub.meet t).1.received = sub.received ∧
      (sub.meet t).1.topics = sub.topics ∧ (sub.meet t).1.budget = sub.budget := by
  cases t with
  | register other report => exact ⟨rfl, rfl, rfl, rfl⟩
  | prune => exact ⟨hbears, rfl, rfl, rfl⟩
  | reader descriptor channel script =>
    rw [meet, rewire]
    split <;> exact ⟨rfl, rfl, rfl, rfl⟩
  | publish m =>
    have hmeets : sub.topics.meets m.topics = false := by
      rw [← Bool.not_eq_true]
      intro hmeets
      rw [Traffic.addressed?, if_pos hmeets] at h
      cases h
    rw [meet, deliver, hmeets]
    exact ⟨rfl, rfl, rfl, rfl⟩

/-- A message that is for a subscriber arrives, and the subscriber stays unless its budget is
spent. -/
theorem meet_of_addressed? {t : Traffic} {m : Message} (h : t.addressed? sub.topics = some m)
    (hbears : sub.Bears t) :
    (sub.meet t).2 = !sub.spend.isSpent ∧
      (sub.meet t).1.received = (sub.descriptor, sub.stream.waiting ++ m.bytes) ∧
      (sub.meet t).1.topics = sub.topics ∧ (sub.meet t).1.budget = sub.spend.budget := by
  cases t with
  | register other report => cases h
  | prune => cases h
  | reader descriptor channel script => cases h
  | publish m' =>
    obtain ⟨hmeets, hm⟩ : sub.topics.meets m'.topics = true ∧ m' = m := by
      simpa [Traffic.addressed?] using h
    subst hm
    have hsent := (hbears hmeets).send
    have hsend := sub.stream.send_spec m'.bytes
    rw [meet, deliver, if_pos hmeets, send, stream_spend]
    generalize sub.stream.send m'.bytes = outcome at *
    obtain ⟨stream, delivery⟩ := outcome
    obtain rfl : delivery = .sent := hsent
    have hwaiting : stream.waiting = sub.stream.waiting ++ m'.bytes := by simpa using hsend
    refine ⟨rfl, ?_, sub.topics_spend, rfl⟩
    rw [received, hwaiting, descriptor_spend]

theorem fate_of_willing (hbudget : sub.budget ≠ 0) {traffic : List Traffic}
    (h : sub.Willing traffic) :
    (sub.fate traffic).1.received = (sub.descriptor,
        sub.stream.waiting ++
          (portion sub.budget (addressed sub.topics traffic)).flatMap Message.bytes) ∧
      (sub.fate traffic).2 = lasts sub.budget (addressed sub.topics traffic) := by
  induction traffic generalizing sub with
  | nil =>
    rw [addressed, List.filterMap_nil, portion_nil, lasts_nil, List.flatMap_nil, List.append_nil]
    exact ⟨rfl, rfl⟩
  | cons t rest ih =>
    obtain ⟨hbears, hrest⟩ := h
    rw [Traffic.addressed_cons]
    cases hm : t.addressed? sub.topics with
    | none =>
      obtain ⟨hstays, hreceived, htopics, hsame⟩ := meet_of_addressed?_eq_none hm hbears
      obtain ⟨hdescriptor, hwaiting⟩ := Prod.mk.inj hreceived
      have hfate := ih (hsame ▸ hbudget) (hrest hstays)
      rw [hdescriptor, hwaiting, htopics, hsame] at hfate
      rw [fate, if_pos hstays]
      exact hfate
    | some m =>
      obtain ⟨hstays, hreceived, htopics, hspend⟩ := meet_of_addressed? hm hbears
      obtain ⟨hdescriptor, hwaiting⟩ := Prod.mk.inj hreceived
      rw [Option.toList_some, List.singleton_append, portion_cons hbudget, lasts_cons hbudget, fate,
        hstays]
      cases hspent : sub.spend.isSpent with
      | true =>
        rw [Bool.not_true, if_neg Bool.false_ne_true, if_pos rfl, hreceived, List.flatMap_singleton,
          hstays, hspent]
        exact ⟨rfl, rfl⟩
      | false =>
        rw [hspent] at hstays
        have hleft : (sub.meet t).1.budget ≠ 0 := hspend ▸ beq_eq_false_iff_ne.1 hspent
        have hfate := ih hleft (hrest hstays)
        rw [hdescriptor, hwaiting, htopics, hspend, List.append_assoc] at hfate
        exact hfate

/-- A socket takes everything as long as its reader is there. -/
theorem willing_of_open (hopen : sub.stream.channel = .socket true)
    (hscript : sub.stream.script = []) {traffic : List Traffic}
    (h : ∀ channel script, .reader sub.descriptor channel script ∉ traffic) :
    sub.Willing traffic := by
  induction traffic generalizing sub with
  | nil => trivial
  | cons t rest ih =>
    have hrest (channel : Channel) (script : List WriteAnswer) :
        .reader sub.descriptor channel script ∉ rest :=
      fun hmem => h channel script (List.mem_cons_of_mem t hmem)
    cases t with
    | register other report => exact ⟨trivial, fun _ => ih hopen hscript hrest⟩
    | prune =>
      refine ⟨?_, fun _ => ih hopen hscript hrest⟩
      rw [Bears, Stream.isAlive, hopen]
    | reader descriptor channel script =>
      have hne : sub.descriptor ≠ descriptor := fun heq =>
        h channel script (heq ▸ List.mem_cons_self)
      rw [Willing, meet, rewire, if_neg hne]
      exact ⟨trivial, fun _ => ih hopen hscript hrest⟩
    | publish m =>
      obtain ⟨haccepts, hopen', hscript'⟩ := Stream.accepts_of_open hopen hscript m.bytes
      refine ⟨fun _ => haccepts, ?_⟩
      rw [meet, deliver]
      split
      · rw [← sub.stream_spend] at hopen' hscript'
        refine fun _ => ih hopen' hscript' ?_
        rw [← sub.descriptor_spend] at hrest
        exact hrest
      · exact fun _ => ih hopen hscript hrest

end Subscriber

namespace Subscribers

open Subscriber (Took)

/-- What the stream of a member has taken are whole messages out of those for it, in order.  The
stream of one who has left may have taken a part of one more, and takes nothing afterwards. -/
theorem whole_messages (files : FifoDirectory) (traffic : List Traffic) :
    (∀ sub ∈ ((empty files).run traffic).members, ∃ before origin report after got,
      traffic = before ++ .register origin report :: after ∧
        Took origin sub (addressed origin.topics (.greeting report :: after)) got []) ∧
    (∀ sub ∈ ((empty files).run traffic).departed, ∃ before origin report after got part,
      traffic = before ++ .register origin report :: after ∧
        Took origin sub (addressed origin.topics (.greeting report :: after)) got part) ∧
    ∀ later, ((empty files).run traffic).departed.map Subscriber.received <+:
      ((empty files).run (traffic ++ later)).departed.map Subscriber.received := by
  obtain ⟨hmembers, hdeparted⟩ := (empty files).run_spec traffic
  refine ⟨fun sub hsub => ?_, fun sub hsub => ?_, fun later => ?_⟩
  · rw [hmembers] at hsub
    obtain ⟨mark, hmark, rfl⟩ := List.mem_map.1 hsub
    obtain ⟨hentry, hstays⟩ := List.mem_filter.1 hmark
    obtain ⟨before, origin, report, after, htraffic, rfl⟩ := exists_of_mem_entries hentry
    obtain ⟨got, part, htook, hwhole⟩ := origin.took_fate (.greeting report :: after)
    obtain rfl := hwhole hstays
    exact ⟨before, origin, report, after, got, htraffic, htook⟩
  · have hleft := hdeparted.mem_iff.1 (List.mem_map.2 ⟨sub, hsub, rfl⟩)
    obtain ⟨gone, hgone, hreceived⟩ := List.mem_map.1 hleft
    obtain ⟨mark, hmark, rfl⟩ := List.mem_map.1 hgone
    obtain ⟨before, origin, report, after, htraffic, rfl⟩ :=
      exists_of_mem_entries (List.mem_filter.1 hmark).1
    obtain ⟨got, part, htook, -⟩ := origin.took_fate (.greeting report :: after)
    exact ⟨before, origin, report, after, got, part, htraffic, htook.congr hreceived⟩
  · rw [run_append]
    exact departed_run _ _

theorem members_ongoing (s : Subscribers) (traffic : List Traffic) :
    (s.run (Traffic.ongoing traffic)).members = stayers (s.members.map (·.fate traffic)) := by
  rw [(s.run_spec _).1, fates, entries_ongoing, List.append_nil]
  exact congrArg stayers (List.map_congr_left fun sub _ => sub.fate_ongoing traffic)

theorem order_run (s : Subscribers) (traffic : List Traffic) :
    ((s.run traffic).members.map Subscriber.descriptor).Sublist
      (s.members.map Subscriber.descriptor ++ traffic.filterMap Traffic.registered?) := by
  have hfate (sub : Subscriber) (traffic : List Traffic) :
      (sub.fate traffic).1.descriptor = sub.descriptor := by
    obtain ⟨got, part, htook, -⟩ := sub.took_fate traffic
    exact htook.descriptor
  have hentries : (entries traffic).map (·.1.descriptor) =
      traffic.filterMap Traffic.registered? := by
    induction traffic with
    | nil => rfl
    | cons t rest ih =>
      cases t with
      | register sub report => exact congrArg₂ List.cons (hfate sub _) ih
      | publish _ | prune | reader _ _ _ => exact ih
  have hmembers : (s.members.map (·.fate traffic)).map (·.1.descriptor) =
      s.members.map Subscriber.descriptor := by
    rw [List.map_map]
    exact List.map_congr_left fun sub _ => hfate sub traffic
  rw [(s.run_spec traffic).1, stayers, List.map_map, ← hentries, ← hmembers, ← List.map_append]
  exact List.filter_sublist.map _

/-- A subscriber without a bound whose stream takes everything stays and gets every message for
it. -/
theorem stays_endless (s : Subscribers) (sub : Subscriber) {report : String} {after : List Traffic}
    (hbudget : sub.budget < 0) (hwilling : sub.Willing (.greeting report :: after)) :
    ∃ final ∈ (s.run (.register sub report :: after)).members,
      final.descriptor = sub.descriptor ∧
        final.stream.waiting = sub.stream.waiting ++
          (addressed sub.topics (.greeting report :: after)).flatMap Message.bytes := by
  have hbound : ¬0 < sub.budget := Int32.lt_asymm hbudget
  have hne : sub.budget ≠ 0 := fun heq => Int32.lt_irrefl (heq ▸ hbudget)
  obtain ⟨hreceived, hstays⟩ := Subscriber.fate_of_willing hne hwilling
  rw [Subscriber.portion, if_neg hbound] at hreceived
  rw [Subscriber.lasts, decide_eq_false hbound] at hstays
  obtain ⟨hdescriptor, hwaiting⟩ := Prod.mk.inj hreceived
  refine ⟨_, ?_, hdescriptor, hwaiting⟩
  rw [(s.run_spec _).1, fates, entries, stayers_append, stayers_cons, hstays]
  simp

/-- A subscriber whose stream takes everything gets the report if it listens to it, and then
every message for it in order, as many as its budget pays for, and stays until the budget is
spent.  So it is among any others: those who came before and after it are the same without it,
and all who stay keep their order. -/
theorem delivered_run {sub : Subscriber} (report : String) {after : List Traffic}
    (hbudget : sub.budget ≠ 0) (hwilling : sub.Willing (.greeting report :: after)) :
    let mail := (if sub.topics.has .report then [⟨.single .report, report⟩] else []) ++
      addressed sub.topics after
    ∃ final : Subscriber, final.descriptor = sub.descriptor ∧
      final.stream.waiting =
        sub.stream.waiting ++ (Subscriber.portion sub.budget mail).flatMap Message.bytes ∧
      ∀ (s : Subscribers) (files : FifoDirectory),
        (s.run (.register sub report :: after)).members =
          (s.run (Traffic.ongoing after)).members ++
            (if Subscriber.lasts sub.budget mail then [final] else []) ++
            ((empty files).run after).members ∧
        (Subscriber.lasts sub.budget mail = false →
          final.received ∈
            (s.run (.register sub report :: after)).departed.map Subscriber.received) ∧
        ((s.run (.register sub report :: after)).members.map Subscriber.descriptor).Sublist
          (s.members.map Subscriber.descriptor ++
            sub.descriptor :: after.filterMap Traffic.registered?) := by
  intro mail
  have hmail := Traffic.addressed_greeting sub.topics report after
  obtain ⟨hreceived, hstays⟩ := Subscriber.fate_of_willing hbudget hwilling
  rw [hmail] at hreceived hstays
  obtain ⟨hdescriptor, hwaiting⟩ := Prod.mk.inj hreceived
  refine ⟨(sub.fate (.greeting report :: after)).1, hdescriptor, hwaiting, fun s files => ?_⟩
  obtain ⟨hmembers, hdeparted⟩ := s.run_spec (.register sub report :: after)
  refine ⟨?_, fun hleaves => ?_, order_run s _⟩
  · have hnewer : ((empty files).run after).members = stayers (entries after) :=
      ((empty files).run_spec after).1
    rw [hmembers, fates, entries, members_ongoing, hnewer, stayers_append, stayers_cons,
      hstays, List.append_assoc]
    rfl
  · refine hdeparted.mem_iff.2 (List.mem_append_right _ (List.mem_map.2 ⟨_, ?_, rfl⟩))
    have hentry := List.mem_append_right (s.members.map (·.fate (.register sub report :: after)))
      (List.mem_cons_self (a := sub.fate (.greeting report :: after)) (l := entries after))
    refine List.mem_map.2 ⟨_, List.mem_filter.2 ⟨hentry, ?_⟩, rfl⟩
    rw [hstays, hleaves]
    rfl

/-- A reader for two messages, whose stream is interrupted at first and then takes a byte at a
time. -/
def shortStay : Subscriber :=
  ⟨7, ⟨.socket true, [.interrupted, .accepted 1, .accepted 1], true, []⟩, none,
    .ofList [.report, .nodeAdd], 2⟩

def shortTraffic : List Traffic :=
  [.publish ⟨.single .nodeFocus, "f\n"⟩, .prune, .publish ⟨.single .nodeAdd, "a\n"⟩,
    .publish ⟨.single .nodeAdd, "b\n"⟩]

theorem willing_shortStay : shortStay.Willing (.greeting "W\n" :: shortTraffic) := by
  refine ⟨fun _ => ?_, fun _ => ⟨fun h => ?_, fun _ => ⟨?_, fun _ => ⟨fun _ => ?_, fun h => ?_⟩⟩⟩⟩
  · exact .interrupted rfl (.taken rfl (.taken rfl (.nil _)))
  · exact absurd h (by decide)
  · rfl
  · exact .taken rfl (.nil _)
  · exact absurd h (by decide)

/-- Among any others it gets the report and the first of two messages, and is gone before the
second. -/
theorem delivered_shortStay :
    shortStay.budget ≠ 0 ∧ shortStay.Willing (.greeting "W\n" :: shortTraffic) ∧
      ∃ final : Subscriber, final.descriptor = 7 ∧
        final.stream.waiting = Text.encode "W\na\n" ∧
        ∀ (s : Subscribers) (files : FifoDirectory),
          (s.run (.register shortStay "W\n" :: shortTraffic)).members =
            (s.run (Traffic.ongoing shortTraffic)).members ++ [] ++
              ((empty files).run shortTraffic).members ∧
          final.received ∈ (s.run (.register shortStay "W\n" :: shortTraffic)).departed.map
            Subscriber.received ∧
          ((s.run (.register shortStay "W\n" :: shortTraffic)).members.map
            Subscriber.descriptor).Sublist (s.members.map Subscriber.descriptor ++ [7]) := by
  have hbudget : shortStay.budget ≠ 0 := by decide
  obtain ⟨final, hdescriptor, hwaiting, hall⟩ :=
    delivered_run "W\n" hbudget willing_shortStay
  refine ⟨hbudget, willing_shortStay, final, hdescriptor, hwaiting.trans (by decide), ?_⟩
  intro s files
  obtain ⟨hmembers, hdeparted, horder⟩ := hall s files
  exact ⟨hmembers, hdeparted rfl, horder⟩

end Subscribers

end Tiling
