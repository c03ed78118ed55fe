import Tiling.Daemon.Control
import Tiling.Proofs.Model.InputFocus
import Tiling.Proofs.Model.Reporting
import Tiling.Proofs.Subscribers.Delivery
/-!
# Reports are up to date

Operations on the model go on, and subscribers come and go.  Whoever listens to the report,
without a bound and with a stream that takes everything, has the report of the model as it is
for its last.
-/

namespace Tiling

open Traffic (addressed)

theorem Topics.meets_of_has {a b : Topics} {t : Topic} (ha : a.has t = true) (hb : b.has t = true) :
    a.meets b = true := by
  rw [meets, bne_iff_ne]
  intro hzero
  have hbit : (a &&& b).getLsbD t.bit = true := by
    rw [BitVec.getLsbD_and, Bool.and_eq_true]
    exact ⟨ha, hb⟩
  rw [hzero] at hbit
  exact absurd hbit (Bool.eq_false_iff.1 BitVec.getLsbD_zero)

/-- The texts of the reports among some messages. -/
def Message.reports (mail : List Message) : List String :=
  (mail.filter (·.topics.has .report)).map Message.text

namespace Daemon

/-- What happens to the model and to the subscribers. -/
inductive Activity where
  | operate (op : Operation)
  | subscribe (stream : Stream) (fifo : Option String) (topics : Topics) (budget : Int32)
  | prune
  /-- A stream changes at its other end. -/
  | reader (descriptor : Nat) (channel : Channel) (script : List WriteAnswer)

def act (d : Daemon) : Activity → Daemon
  | .operate op => d.perform (·.perform op)
  | .subscribe stream fifo topics budget => d.subscribe stream fifo topics budget
  | .prune => { d with subscribers := d.subscribers.prune }
  | .reader descriptor channel script =>
    { d with subscribers := d.subscribers.handle (.reader descriptor channel script) }

def actAll (d : Daemon) (activities : List Activity) : Daemon := activities.foldl act d

/-- What an activity comes to at the subscribers. -/
def traffic (d : Daemon) : Activity → List Traffic
  | .operate op => ((d.quietStage.perform op).effects.filterMap Effect.message?).map .publish
  | .subscribe stream fifo topics budget =>
    [.register ⟨d.nextDescriptor, stream, fifo, topics, budget⟩ d.report]
  | .prune => [.prune]
  | .reader descriptor channel script => [.reader descriptor channel script]

def trafficAll : Daemon → List Activity → List Traffic
  | _, [] => []
  | d, a :: rest => d.traffic a ++ trafficAll (d.act a) rest

/-- The messages from `d` to `d'`. -/
def told (d d' : Daemon) : List Message := (d.stage.since d'.stage).filterMap Effect.message?

variable {d : Daemon}

theorem subscribers_act (d : Daemon) (a : Activity) :
    (d.act a).subscribers = d.subscribers.run (d.traffic a) := by
  cases a with
  | operate op =>
    show d.subscribers.publishAll _ = _
    rw [traffic, Subscribers.run, List.foldl_map]
    rfl
  | subscribe stream fifo topics budget => rfl
  | prune => rfl
  | reader descriptor channel script => rfl

theorem subscribers_actAll (d : Daemon) (activities : List Activity) :
    (d.actAll activities).subscribers = d.subscribers.run (d.trafficAll activities) := by
  induction activities generalizing d with
  | nil => rfl
  | cons a rest ih =>
    rw [trafficAll, Subscribers.run_append, ← subscribers_act]
    exact ih (d.act a)

/-! ## Messages -/

theorem suffix_act (d : Daemon) (a : Activity) : d.stage.history <:+ (d.act a).stage.history := by
  cases a with
  | operate op => exact List.suffix_append _ _
  | subscribe stream fifo topics budget => exact List.suffix_rfl
  | prune => exact List.suffix_rfl
  | reader descriptor channel script => exact List.suffix_rfl

theorem suffix_actAll (d : Daemon) (activities : List Activity) :
    d.stage.history <:+ (d.actAll activities).stage.history := by
  induction activities generalizing d with
  | nil => exact List.suffix_rfl
  | cons a rest ih => exact (d.suffix_act a).trans (ih (d.act a))

theorem told_eq {d' : Daemon} {es : List Effect} (h : d'.stage.history = es ++ d.stage.history) :
    d.told d' = es.reverse.filterMap Effect.message? := by
  rw [told, Stage.since_eq h]

theorem told_of_same {d' : Daemon} (h : d'.stage.history = d.stage.history) : d.told d' = [] := by
  have hnone : d'.stage.history = [] ++ d.stage.history := h
  rw [told_eq hnone]
  rfl

theorem told_trans {d' d'' : Daemon} (h : d.stage.history <:+ d'.stage.history)
    (h' : d'.stage.history <:+ d''.stage.history) : d.told d'' = d.told d' ++ d'.told d'' := by
  rw [told, Stage.since_trans h h', List.filterMap_append, told, told]

theorem addressed_publish (topics : Topics) (mail : List Message) :
    addressed topics (mail.map .publish) = mail.filter fun m => topics.meets m.topics := by
  rw [addressed, List.filterMap_map, ← List.filterMap_eq_filter]
  rfl

theorem addressed_traffic (d : Daemon) (a : Activity) (topics : Topics) :
    addressed topics (d.traffic a) =
      (d.told (d.act a)).filter fun m => topics.meets m.topics := by
  cases a with
  | operate op =>
    have hhistory : (d.act (.operate op)).stage.history =
      (d.quietStage.perform op).history ++ d.stage.history := rfl
    rw [traffic, addressed_publish, told_eq hhistory]
    rfl
  | subscribe stream fifo topics' budget => exact (congrArg (List.filter _) (told_of_same rfl)).symm
  | prune => exact (congrArg (List.filter _) (told_of_same rfl)).symm
  | reader descriptor channel script => exact (congrArg (List.filter _) (told_of_same rfl)).symm

/-- The messages for some topics are those that were told since. -/
theorem addressed_trafficAll (d : Daemon) (activities : List Activity) (topics : Topics) :
    addressed topics (d.trafficAll activities) =
      (d.told (d.actAll activities)).filter fun m => topics.meets m.topics := by
  induction activities generalizing d with
  | nil => exact (congrArg (List.filter _) (told_of_same rfl)).symm
  | cons a rest ih =>
    have htold := told_trans (d.suffix_act a) ((d.act a).suffix_actAll rest)
    have hgo : d.actAll (a :: rest) = (d.act a).actAll rest := rfl
    rw [trafficAll, addressed, List.filterMap_append, hgo, htold, List.filter_append, ← ih,
      ← addressed_traffic]
    rfl

/-! ## Reports -/

/-- The program has gone on to `d'`, and the last report since, or else the one at first, is that
of the model. -/
structure Informs (d d' : Daemon) : Prop where
  sound : d'.model.Sound
  settings : d'.settings.statusPrefix = d.settings.statusPrefix
  history : ∃ es, d'.stage.history = es ++ d.stage.history ∧
    (es.findSome? Effect.report?).getD d.report = d'.report

theorem Informs.refl (hs : d.model.Sound) : d.Informs d where
  sound := hs
  settings := rfl
  history := ⟨[], rfl, rfl⟩

theorem Informs.trans {d' d'' : Daemon} (h : d.Informs d') (h' : d'.Informs d'') :
    d.Informs d'' where
  sound := h'.sound
  settings := h'.settings.trans h.settings
  history := by
    obtain ⟨es, hes, hreport⟩ := h.history
    obtain ⟨es', hes', hreport'⟩ := h'.history
    refine ⟨es' ++ es, by rw [hes', hes, List.append_assoc], ?_⟩
    rw [List.findSome?_append, ← hreport', ← hreport]
    cases es'.findSome? Effect.report? <;> rfl

/-- An operation with the report that it publishes last. -/
theorem informs_operate (hs : d.model.Sound) {op : Operation}
    (hstatus : ∀ new, op = .settings new → new.statusPrefix = d.settings.statusPrefix) :
    d.Informs (d.act (.operate op)) := by
  have hquiet : d.quietStage.model.Sound := hs
  obtain ⟨hsound, hrest⟩ := Stage.perform_spec hquiet op
  refine ⟨hsound, ?_, (d.quietStage.perform op).history, rfl, ?_⟩
  · rcases hrest with ⟨new, rfl⟩ | hevolves
    · exact hstatus new rfl
    · exact congrArg Settings.statusPrefix hevolves.settings
  by_cases hop : ∃ new, op = .settings new
  · obtain ⟨new, rfl⟩ := hop
    show d.model.report d.settings.statusPrefix = d.model.report new.statusPrefix
    rw [hstatus new rfl]
  · have htells := Stage.tells_perform hquiet fun new heq => hop ⟨new, heq⟩
    have hfirst : d.quietStage.lastReport?.getD d.report = d.quietStage.report := rfl
    exact htells.reported hquiet hfirst

theorem informs_act (hs : d.model.Sound) {a : Activity}
    (hstatus : ∀ new, a = .operate (.settings new) →
      new.statusPrefix = d.settings.statusPrefix) : d.Informs (d.act a) := by
  cases a with
  | operate op => exact informs_operate hs fun new heq => hstatus new (heq ▸ rfl)
  | subscribe stream fifo topics budget => exact ⟨hs, rfl, [], rfl, rfl⟩
  | prune => exact ⟨hs, rfl, [], rfl, rfl⟩
  | reader descriptor channel script => exact ⟨hs, rfl, [], rfl, rfl⟩

theorem informs_actAll (hs : d.model.Sound) {activities : List Activity}
    (hstatus : ∀ new, .operate (.settings new) ∈ activities →
      new.statusPrefix = d.settings.statusPrefix) : d.Informs (d.actAll activities) := by
  induction activities generalizing d with
  | nil => exact Informs.refl hs
  | cons a rest ih =>
    have hfirst := informs_act hs fun new heq => hstatus new (heq ▸ List.mem_cons_self)
    refine hfirst.trans (ih hfirst.sound fun new hnew => ?_)
    rw [hfirst.settings]
    exact hstatus new (List.mem_cons_of_mem a hnew)

theorem sound_actAll (hs : d.model.Sound) (activities : List Activity) :
    (d.actAll activities).model.Sound := by
  induction activities generalizing d with
  | nil => exact hs
  | cons a rest ih =>
    refine ih ?_
    cases a with
    | operate op => exact (Stage.perform_spec (s := d.quietStage) hs op).1
    | subscribe stream fifo topics budget => exact hs
    | prune => exact hs
    | reader descriptor channel script => exact hs

theorem getLast?_reports {d' : Daemon} {es : List Effect}
    (h : d'.stage.history = es ++ d.stage.history) :
    (Message.reports (d.told d')).getLast? = es.findSome? Effect.report? := by
  have hlatest (es : List Effect) : (Message.reports (es.filterMap Effect.message?)).head? =
      es.findSome? Effect.report? := by
    induction es with
    | nil => rfl
    | cons e es ih =>
      cases e with
      | request r => exact ih
      | message m =>
        have hcons : (Effect.message m :: es).filterMap Effect.message? =
            m :: es.filterMap Effect.message? := rfl
        rw [List.findSome?_cons, Effect.report?, hcons, Message.reports, List.filter_cons]
        cases hhas : m.topics.has .report with
        | true => rfl
        | false => exact ih
  rw [told_eq h, ← hlatest, Message.reports, List.filterMap_reverse, List.filter_reverse,
    List.map_reverse, List.getLast?_reverse]
  rfl

theorem reports_greeting (report : String) (mail : List Message) :
    Message.reports (⟨.single .report, report⟩ :: mail) = report :: Message.reports mail := by
  have hhas : (Topics.single .report).has .report = true := by decide
  rw [Message.reports, List.filter_cons, if_pos hhas, List.map_cons, Message.reports]

/-- Whoever listens to the report gets every report. -/
theorem reports_filter {topics : Topics} (h : topics.has .report = true) (mail : List Message) :
    Message.reports (mail.filter fun m => topics.meets m.topics) = Message.reports mail := by
  rw [Message.reports, List.filter_filter, Message.reports]
  refine congrArg _ (List.filter_congr fun m _ => ?_)
  cases hhas : m.topics.has .report with
  | true => rw [Topics.meets_of_has h hhas, Bool.and_true]
  | false => rfl

/-- Whoever listens to the report without a bound is there, has got all messages for it since it
was registered, and the last report among them is that of the model. -/
theorem reported_last (outputs : List (String × Rect)) (config : Config) (ids : FeedbackIds)
    (files : FifoDirectory) (before : List Activity) {after : List Activity} {stream : Stream}
    {fifo : Option String} {topics : Topics} {budget : Int32}
    (htopics : topics.has .report = true) (hbudget : budget < 0) {d e d' : Daemon}
    (hd : d = (start outputs config ids files).actAll before)
    (he : e = d.act (.subscribe stream fifo topics budget)) (hd' : d' = e.actAll after)
    (hstatus : ∀ new, .operate (.settings new) ∈ after →
      new.statusPrefix = d.settings.statusPrefix)
    (hwilling : Subscriber.Willing ⟨d.nextDescriptor, stream, fifo, topics, budget⟩
      (.greeting d.report :: e.trafficAll after)) :
    ∃ mail : List Message, mail = ⟨.single .report, d.report⟩ ::
        ((d.told d').filter fun m => topics.meets m.topics) ∧
      (∃ sub ∈ d'.subscribers.members, sub.descriptor = d.nextDescriptor ∧
        sub.stream.waiting = stream.waiting ++ mail.flatMap Message.bytes) ∧
      (Message.reports mail).getLast? = some d'.report := by
  -- a registration leaves the model alone, so what is told since is told after it
  have hstage : e.stage = d.stage := by rw [he]; rfl
  have hmail : addressed topics (.greeting d.report :: e.trafficAll after) =
      ⟨.single .report, d.report⟩ :: ((d.told d').filter fun m => topics.meets m.topics) := by
    rw [Traffic.addressed_greeting, if_pos htopics, addressed_trafficAll, ← hd', told, hstage, told]
    rfl
  refine ⟨_, rfl, ?_, ?_⟩
  · obtain ⟨sub, hsub, hdescriptor, hwaiting⟩ :=
      d.subscribers.stays_endless ⟨d.nextDescriptor, stream, fifo, topics, budget⟩ hbudget hwilling
    rw [hmail] at hwaiting
    refine ⟨sub, ?_, hdescriptor, hwaiting⟩
    rw [hd', subscribers_actAll, he, subscribers_act]
    rwa [he] at hsub
  · have hstart : (start outputs config ids files).model.Sound :=
      Stage.sound_fresh outputs config.desktopNames config.settings ids
    have hsound : d.model.Sound := hd ▸ sound_actAll hstart before
    have hinforms : e.Informs d' := by
      rw [hd']
      refine informs_actAll (by rwa [model, hstage]) ?_
      rwa [settings, hstage]
    obtain ⟨es, hes, hreport⟩ := hinforms.history
    have hsame : e.report = d.report := by
      rw [report, model, settings, hstage]
      rfl
    rw [hstage] at hes
    rw [reports_greeting, reports_filter htopics, List.getLast?_cons, getLast?_reports hes,
      ← hreport, hsame]

/-- A window is managed while somebody listens who has hung up. -/
def overheard : List Activity :=
  [.subscribe (.through (.socket false)) none .all (-1),
    .operate (.manage 1 ⟨"a", "a"⟩ .standard)]

/-- Another window comes, the first one becomes urgent, and the other is raised. -/
def roused : List Activity :=
  [.operate (.manage 2 ⟨"b", "b"⟩ .standard), .prune, .operate (.setUrgency 1 true),
    .operate (.setLayer (.window 2) .above)]

theorem reported_roused :
    let d := (start [("S", ⟨0, 0, 640, 480⟩)] .standard .unavailable ⟨"/tmp", true, []⟩).actAll
      overheard
    let e := d.act (.subscribe (.through (.socket true)) none .all (-1))
    let sub : Subscriber := ⟨d.nextDescriptor, .through (.socket true), none, .all, -1⟩
    (∀ new, .operate (.settings new) ∉ roused) ∧
      sub.Willing (.greeting d.report :: e.trafficAll roused) ∧
      ∃ mail : List Message, mail = ⟨.single .report, d.report⟩ ::
          ((d.told (e.actAll roused)).filter fun m => Topics.all.meets m.topics) ∧
        (∃ sub ∈ (e.actAll roused).subscribers.members, sub.descriptor = 1 ∧
          sub.stream.waiting = mail.flatMap Message.bytes) ∧
        (Message.reports mail).getLast? = some "WMS:UI:fII:fIII:fIV:LT:TT:G\n" := by
  intro d e sub
  have hreport : (e.actAll roused).report = "WMS:UI:fII:fIII:fIV:LT:TT:G\n" := by decide +kernel
  have hsettings : ∀ new, .operate (.settings new) ∉ roused := by simp [roused]
  have hwilling : sub.Willing (.greeting d.report :: e.trafficAll roused) := by
    refine Subscriber.willing_of_open rfl rfl fun channel script => ?_
    simp [roused, trafficAll, traffic, Traffic.greeting]
  have hlast := reported_last _ _ _ _ overheard (by decide) (by decide) rfl rfl rfl
    (fun new hnew => absurd hnew (hsettings new)) hwilling
  exact ⟨hsettings, hwilling, hreport ▸ hlast⟩

end Daemon

end Tiling
