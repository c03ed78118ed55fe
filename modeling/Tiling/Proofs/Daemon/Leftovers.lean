import Tiling.Session
import Tiling.Proofs.Daemon.FifoAnswers
import Tiling.Proofs.Daemon.Ghosts
/-!
# Files left behind

Which FIFOs outlive the program that made them.  Until it is about to be replaced, the program
has a subscriber for each of them, and it deletes the file when it lets go of the subscriber, at
the latest at the end.  A program that hands over lets nobody go: where no successor takes over
after all, the files of those who were handed over stay.
-/

namespace Tiling

namespace Subscribers

variable {s s' : Subscribers}

/-- What the program does to its subscribers: it deals with traffic in which nobody brings a
FIFO, or it makes a FIFO for a newcomer. -/
inductive Moves : Subscribers → Subscribers → Prop where
  | traffic (s : Subscribers) (t : Traffic) (bare : t.fifo? = none) : Moves s (s.handle t)
  | fifo (s : Subscribers) {files : FifoDirectory} {stem path : String} {sub : Subscriber}
      (report : String) (made : s.files.make stem = .ok (files, path))
      (brings : sub.fifo = some path) :
      Moves s ({ s with files := files }.handle (.register sub report))

/-- Unless a successor is about to follow, a FIFO whose file lasts keeps its subscriber, and a
file that is new has one. -/
def Tends (s s' : Subscribers) : Prop :=
  s.restarting = false → s'.restarting = false ∧
    ∀ path, s'.files.has path = true → path ∈ s.fifos ∨ s.files.has path = false → path ∈ s'.fifos

theorem Tends.refl (s : Subscribers) : s.Tends s := by
  refine fun hlasting => ⟨hlasting, fun path hfile hknown => ?_⟩
  rcases hknown with hown | hnone
  · exact hown
  · rw [hfile] at hnone
    cases hnone

theorem Tends.trans {s'' : Subscribers} (h : s.Tends s') (h' : s'.Tends s'') : s.Tends s'' := by
  intro hlasting
  obtain ⟨hlasting', htended⟩ := h hlasting
  obtain ⟨hlasting'', htended'⟩ := h' hlasting'
  refine ⟨hlasting'', fun path hfile hknown => htended' path hfile ?_⟩
  cases hfile' : s'.files.has path with
  | false => exact .inr rfl
  | true => exact .inl (htended path hfile' hknown)

/-- A file that is there after a step was there before, and if it is a FIFO its subscriber has
stayed. -/
theorem stays_handle (hlasting : s.restarting = false) (t : Traffic) :
    (s.handle t).restarting = false ∧ ∀ path, (s.handle t).files.has path = true →
      s.files.has path = true ∧
        (path ∈ s.fifos ++ t.fifo?.toList → path ∈ (s.handle t).fifos) := by
  obtain ⟨hlasting', hfiles⟩ := files_handle hlasting t
  refine ⟨hlasting', fun path hfile => ?_⟩
  obtain ⟨hold, hstays⟩ := (hfiles path).1 hfile
  refine ⟨hold, fun hpath => ?_⟩
  rw [← fifosOf_marks, ← (fifosOf_perm (s.marks t)).mem_iff, List.mem_append] at hpath
  rw [fifos, members_handle]
  exact hpath.resolve_right hstays

theorem Moves.tends (h : s.Moves s') : s.Tends s' := by
  intro hlasting
  cases h with
  | traffic t bare =>
    obtain ⟨hlasting', hstays⟩ := stays_handle hlasting t
    refine ⟨hlasting', fun path hfile hknown => ?_⟩
    obtain ⟨hold, hkept⟩ := hstays path hfile
    rcases hknown with hown | hnone
    · exact hkept (List.mem_append_left _ hown)
    · rw [hold] at hnone
      cases hnone
  | @fifo files stem made sub report hmake hbrings =>
    obtain ⟨-, rfl⟩ := FifoDirectory.fresh_of_make hmake
    -- once the file is made, this is traffic in which the newcomer brings a FIFO
    have hequipped : ({ s with files := { s.files with paths := made :: s.files.paths } } :
        Subscribers).restarting = false := hlasting
    obtain ⟨hlasting', hstays⟩ := stays_handle hequipped (.register sub report)
    refine ⟨hlasting', fun path hfile hknown => ?_⟩
    obtain ⟨hold, hkept⟩ := hstays path hfile
    apply hkept
    rw [Traffic.fifo?, hbrings, Option.toList_some, List.mem_append, List.mem_singleton]
    refine hknown.imp_right fun hnone => ?_
    rw [FifoDirectory.has, List.contains_cons, ← FifoDirectory.has, hnone] at hold
    simpa using hold

theorem tends_of_moves (h : Relation.ReflTransGen Moves s s') : s.Tends s' := by
  induction h with
  | refl => exact .refl s
  | tail _ hmove ih => exact ih.trans hmove.tends

theorem moves_publishAll (s : Subscribers) (effects : List Effect) :
    Relation.ReflTransGen Moves s (s.publishAll effects) := by
  rw [publishAll]
  induction effects.filterMap Effect.message? generalizing s with
  | nil => exact .refl
  | cons m rest ih => exact .head (.traffic s (.publish m) rfl) (ih _)

theorem fifos_modifyStream (s : Subscribers) (descriptor : Nat) (f : Stream → Stream) :
    (s.modifyStream descriptor f).fifos = s.fifos := by
  rw [fifos, modifyStream, fifosOf, List.filterMap_map]
  refine List.filterMap_congr fun sub _ => ?_
  simp only [Function.comp_apply]
  split <;> rfl

end Subscribers

namespace Daemon

/-- What the program does to its subscribers, in some number of moves. -/
def Moves (d d' : Daemon) : Prop :=
  Relation.ReflTransGen Subscribers.Moves d.subscribers d'.subscribers

theorem Moves.refl (d : Daemon) : d.Moves d := Relation.ReflTransGen.refl

theorem Moves.trans {d d' d'' : Daemon} (h : d.Moves d') (h' : d'.Moves d'') : d.Moves d'' :=
  Relation.ReflTransGen.trans h h'

theorem moves_foldl {α : Type} {f : Daemon → α → Daemon} (hf : ∀ (d : Daemon) a, d.Moves (f d a))
    (l : List α) (d : Daemon) : d.Moves (l.foldl f d) := by
  induction l generalizing d with
  | nil => exact .refl d
  | cons a rest ih => exact (hf d a).trans (ih (f d a))

/-! ## Operations on the model -/

theorem moves_adopt (d : Daemon) (stage : Stage) : d.Moves (d.adopt stage) :=
  d.subscribers.moves_publishAll stage.effects

theorem moves_perform (d : Daemon) (operation : Stage → Stage) : d.Moves (d.perform operation) :=
  d.moves_adopt _

theorem moves_configure (d : Daemon) : d.Moves d.configure := by
  have hlayout := d.moves_perform fun s => (shownDesktops s.model).foldl Stage.applyLayout s
  exact Relation.ReflTransGen.trans hlayout (Subscribers.moves_publishAll _ _)

theorem moves_manage (d : Daemon) (env : Surroundings) (window : Window) (csq : Consequences) :
    d.Moves (d.manage env window csq) :=
  (d.moves_perform _).trans (moves_perform _ _)

theorem moves_schedule (d : Daemon) (env : Surroundings) (window : Window) (sequence : UInt16) :
    d.Moves (d.schedule env window sequence) := by
  have hask := d.moves_perform fun s => s.request (.readClass window)
  rw [schedule]
  split
  · exact .refl d
  · dsimp only
    split
    · exact hask
    · exact hask.trans (moves_manage _ env window .standard)

theorem moves_handleEvent (env : Surroundings) (d : Daemon) (e : DisplayEvent) :
    d.Moves (handleEvent env d e) := by
  cases e with
  | mapRequest window sequence => exact d.moves_schedule env window sequence
  | unmapped _ | destroyed _ | configureRequest _ _ => exact d.moves_perform _
  | hintsChanged _ => exact (d.moves_perform _).trans (moves_perform _ _)

theorem moves_receive (env : Surroundings) (d : Daemon) (e : DisplayEvent) :
    d.Moves (receive env d e) := by
  rw [receive]
  split
  · exact .refl d
  · exact moves_handleEvent env d e

theorem moves_resolve (env : Surroundings) (d : Daemon) (rule : PendingRule)
    (answer : Option String) : d.Moves (resolve env d rule answer) :=
  (d.moves_manage env rule.window _).trans (moves_foldl (moves_handleEvent env) rule.events _)

theorem moves_resolveNext (env : Surroundings) (d : Daemon) : d.Moves (resolveNext env d) := by
  rw [resolveNext]
  split
  · rename_i rule answer pending _
    exact moves_resolve env { d with pending := pending } rule answer
  · exact .refl d

theorem moves_settlePending (env : Surroundings) (d : Daemon) : d.Moves (settlePending env d) :=
  moves_foldl (fun u rule => moves_resolve env u rule none) d.pending.drain.1
    { d with pending := d.pending.drain.2 }

/-! ## Requests -/

theorem moves_subscribe (d : Daemon) (stream : Stream) (topics : Topics) (budget : Int32) :
    d.Moves (d.subscribe stream none topics budget) :=
  .single (.traffic d.subscribers (.register _ d.report) rfl)

theorem moves_subscribeFifo (d : Daemon) (topics : Topics) (budget : Int32) :
    d.Moves (d.subscribeFifo topics budget).1 := by
  rw [subscribeFifo]
  cases hmake : d.subscribers.files.make fifoStem with
  | error e => exact .refl d
  | ok made => exact .single (.fifo d.subscribers d.report hmake rfl)

theorem moves_handle (d : Daemon) (arguments : List String) : d.Moves (d.handle arguments).1 := by
  rw [handle]
  cases Command.ofArguments arguments with
  | error e => exact .refl d
  | ok command =>
    cases command with
    | query what => exact .refl d
    | subscribe fifo budget topics =>
      cases fifo with
      | false => exact .refl d
      | true => exact d.moves_subscribeFifo topics budget
    | wm what => cases what <;> exact .refl d
    | quit status => exact .refl d
    | config key value =>
      dsimp only [execute]
      unfold runConfig
      split <;> split <;> exact .refl d
    | node target steps =>
      dsimp only [execute]
      rw [runNode]
      split
      · exact .refl d
      · exact d.moves_adopt _
    | desktop name steps =>
      dsimp only [execute]
      rw [runDesktop]
      split
      · exact .refl d
      · exact d.moves_perform _

theorem moves_serve (d : Daemon) (connection : Stream) (request : Bytes) :
    d.Moves (d.serve connection request).1 := by
  have hhandle := d.moves_handle (Wire.decodeRequest (request.take Wire.capacity))
  rw [serve]
  split <;> rename_i heq <;> rw [heq] at hhandle
  · exact hhandle
  · exact hhandle.trans (moves_subscribe _ connection _ _)
  · exact hhandle

/-! ## Turns -/

theorem moves_attend (env : Surroundings) (d : Daemon) (cause : Cause) :
    d.Moves (attend env d cause).1 := by
  cases cause with
  | classified => exact moves_resolveNext env d
  | connection connection request => exact d.moves_serve connection request
  | display | signal => exact .refl d

theorem moves_noticeLoss (d : Daemon) (lost : Bool) : d.Moves (d.noticeLoss lost) := by
  rw [noticeLoss]
  split <;> exact .refl d

theorem moves_wakeUp (env : Surroundings) (d : Daemon) (cause : Cause) (events : List DisplayEvent)
    (lost : Bool) : d.Moves (d.wakeUp env cause events lost).1 := by
  have hevents := (moves_attend env d cause).trans (moves_foldl (moves_receive env) events _)
  have hloss := hevents.trans (moves_noticeLoss _ lost)
  exact hloss.trans (.single (.traffic _ .prune rfl))

/-! ## Files that the program has made -/

/-- The program comes up, with what a predecessor left, if there is one. -/
def comeUp (outputs : List (String × Rect)) (config : Config) (ids : FeedbackIds)
    (files : FifoDirectory) (nextDescriptor : Nat) (snapshot : Option Snapshot)
    (stream? : Int32 → Option Stream) : Daemon :=
  let fresh : Daemon := { start outputs config ids files with nextDescriptor := nextDescriptor }
  ((Session.start fresh).configure snapshot stream?).daemon.enter

/-- The program, and the FIFO files that it has made or taken over, as far as they are there. -/
structure Estate where
  daemon : Daemon
  made : List String

/-- What happens to the program and around it. -/
inductive Episode where
  /-- The program wakes up. -/
  | turn (env : Surroundings) (cause : Cause) (events : List DisplayEvent) (lost : Bool)
  /-- The classifier of a window ends. -/
  | classified (window : Window) (answer : Option String)
  /-- A stream changes at its other end. -/
  | stream (descriptor : Nat) (f : Stream → Stream)
  /-- Others make and delete files, also those that the program has made. -/
  | others (files : FifoDirectory)

namespace Estate

def start (d : Daemon) : Estate := ⟨d, d.subscribers.fifos.filter d.subscribers.files.has⟩

/-- After steps of its own: a file that was not there before is one that the program has made. -/
def after (e : Estate) (d : Daemon) : Estate :=
  ⟨d, d.subscribers.files.paths.filter fun path =>
    e.made.contains path || !e.daemon.subscribers.files.has path⟩

def step (e : Estate) : Episode → Estate
  | .turn env cause events lost => e.after (e.daemon.wakeUp env cause events lost).1
  | .classified window answer => { e with daemon := e.daemon.occur (.classified window answer) }
  | .stream descriptor f =>
    { e with daemon :=
      { e.daemon with subscribers := e.daemon.subscribers.modifyStream descriptor f } }
  | .others files =>
    ⟨{ e.daemon with subscribers := { e.daemon.subscribers with files := files } },
      e.made.filter files.has⟩

def run (e : Estate) (episodes : List Episode) : Estate := episodes.foldl step e

/-- Every waiting window is managed, which is what a program does first that hands over. -/
def settle (env : Surroundings) (e : Estate) : Estate := e.after (settlePending env e.daemon)

/-- The end of a run whose program is not replaced: all subscribers that are left are let go of. -/
def finish (env : Surroundings) (e : Estate) : Estate :=
  let d := (e.daemon.leave env).1
  e.after { d with subscribers := d.subscribers.drop }

/-- The program has a subscriber for each of its files. -/
structure Minded (e : Estate) : Prop where
  lasting : e.daemon.subscribers.restarting = false
  minded : ∀ path ∈ e.made, path ∈ e.daemon.subscribers.fifos

variable {e : Estate}

theorem mem_made_after {d : Daemon} {path : String} : path ∈ (e.after d).made ↔
    d.subscribers.files.has path = true ∧
      (path ∈ e.made ∨ e.daemon.subscribers.files.has path = false) := by
  simp [after, FifoDirectory.has]

namespace Minded

theorem moved (h : e.Minded) {d : Daemon} (hmoves : e.daemon.Moves d) : (e.after d).Minded := by
  obtain ⟨hlasting, htended⟩ := Subscribers.tends_of_moves hmoves h.lasting
  refine ⟨hlasting, fun path hpath => ?_⟩
  obtain ⟨hfile, hknown⟩ := mem_made_after.1 hpath
  exact htended path hfile (hknown.imp_left (h.minded path))

theorem start {d : Daemon} (h : d.subscribers.restarting = false) : (start d).Minded :=
  ⟨h, fun _ hpath => List.mem_of_mem_filter hpath⟩

theorem step (h : e.Minded) (episode : Episode) : (e.step episode).Minded := by
  cases episode with
  | turn env cause events lost => exact h.moved (moves_wakeUp env e.daemon cause events lost)
  | classified window answer =>
    have hsame : (e.daemon.occur (.classified window answer)).subscribers =
        e.daemon.subscribers := by
      rw [occur]
      split <;> rfl
    refine ⟨(congrArg Subscribers.restarting hsame).trans h.lasting, fun path hpath => ?_⟩
    rw [Estate.step, hsame]
    exact h.minded path hpath
  | stream descriptor f =>
    refine ⟨h.lasting, fun path hpath => ?_⟩
    rw [Estate.step, Subscribers.fifos_modifyStream]
    exact h.minded path hpath
  | others files =>
    exact ⟨h.lasting, fun path hpath => h.minded path (List.mem_of_mem_filter hpath)⟩

theorem run (h : e.Minded) (episodes : List Episode) : (e.run episodes).Minded := by
  induction episodes generalizing e with
  | nil => exact h
  | cons episode rest ih => exact ih (h.step episode)

/-- A program that is not about to be replaced deletes its files at the end. -/
theorem finish_of_ne (h : e.Minded) (env : Surroundings)
    (hstate : e.daemon.runState ≠ .restarting) : (e.finish env).made = [] := by
  rw [List.eq_nil_iff_forall_not_mem]
  intro path hpath
  obtain ⟨hfile, hknown⟩ := mem_made_after.1 hpath
  rw [leave, if_neg hstate] at hfile
  obtain ⟨-, -, hfiles⟩ := Subscribers.files_disposeAll e.daemon.subscribers.members
    (s := { e.daemon.subscribers with members := [] }) h.lasting
  obtain ⟨hbefore, hgone⟩ := (hfiles path).1 hfile
  rcases hknown with hmade | hnone
  · exact hgone (h.minded path hmade)
  · exact absurd hbefore (by simpa using hnone)

/-- What a program has made that was about to be replaced stays, and belongs to those whom it has
handed over. -/
theorem mem_finish_of_eq (h : e.Minded) (env : Surroundings)
    (hstate : e.daemon.runState = .restarting) (path : String) :
    path ∈ (e.finish env).made ↔ path ∈ (e.settle env).made ∧
      ∃ sub ∈ (handOver env e.daemon).2.streams, sub.fifo = some path := by
  have hfiles : (e.daemon.leave env).1.subscribers.drop.files =
      (settlePending env e.daemon).subscribers.files := by
    rw [leave, if_pos hstate]
    rfl
  have hminded := (h.moved (moves_settlePending env e.daemon)).minded path
  have hsame : path ∈ (e.finish env).made ↔ path ∈ (e.settle env).made := by
    rw [finish, mem_made_after, settle, mem_made_after, hfiles]
  rw [hsame, iff_self_and]
  exact fun hmade => List.mem_filterMap.1 (hminded hmade)

end Minded

end Estate

theorem lasting_restore (d : Daemon) (snapshot : Snapshot) (stream? : Int32 → Option Stream) :
    (d.restore snapshot stream?).subscribers.restarting = d.subscribers.restarting := by
  have hadd (subs : List Subscriber) (s : Subscribers) :
      (subs.foldl Subscribers.add s).restarting = s.restarting := by
    induction subs generalizing s with
    | nil => rfl
    | cons sub rest ih => exact ih (s.add sub)
  exact hadd _ _

theorem lasting_comeUp (outputs : List (String × Rect)) (config : Config) (ids : FeedbackIds)
    (files : FifoDirectory) (nextDescriptor : Nat) (snapshot : Option Snapshot)
    (stream? : Int32 → Option Stream) :
    (comeUp outputs config ids files nextDescriptor snapshot stream?).subscribers.restarting =
      false := by
  have hconfigure {d : Daemon} (hlasting : d.subscribers.restarting = false) :
      d.configure.subscribers.restarting = false :=
    (Subscribers.tends_of_moves d.moves_configure hlasting).1
  cases snapshot with
  | none => exact hconfigure rfl
  | some snapshot => exact hconfigure (lasting_restore _ snapshot stream?)

/-- A FIFO file that a run of the program has made, or has taken over from a predecessor,
outlives the run if and only if the program was about to be replaced, and by then the file was
there; it belongs to a subscriber who has been handed over.  However else a run ends, nothing is
left. -/
theorem left_behind_iff (outputs : List (String × Rect)) (config : Config) (ids : FeedbackIds)
    (files : FifoDirectory) (nextDescriptor : Nat) (snapshot : Option Snapshot)
    (stream? : Int32 → Option Stream) (episodes : List Episode) (env : Surroundings)
    (path : String) :
    let e := (Estate.start
      (comeUp outputs config ids files nextDescriptor snapshot stream?)).run episodes
    path ∈ (e.finish env).made ↔
      e.daemon.runState = .restarting ∧ path ∈ (e.settle env).made ∧
        ∃ sub ∈ (handOver env e.daemon).2.streams, sub.fifo = some path := by
  intro e
  have hminded : e.Minded := (Estate.Minded.start (lasting_comeUp outputs config ids files
    nextDescriptor snapshot stream?)).run episodes
  by_cases hstate : e.daemon.runState = .restarting
  · rw [hminded.mem_finish_of_eq env hstate path, and_iff_right hstate]
  · rw [hminded.finish_of_ne env hstate]
    exact iff_of_false List.not_mem_nil fun h => hstate h.1

/-- A subscriber gets a FIFO, and then the program is to be replaced, which fails. -/
def unreplaced : List Episode :=
  let ask (request : String) : Episode :=
    .turn silent (.connection (.through (.socket true)) (Text.encode request)) [] false
  [ask "subscribe\x00-f\x00", ask "wm\x00-r\x00"]

/-- The FIFO of the last subscriber is left behind when nothing takes the program's place. -/
theorem not_all_deleted :
    ¬ ∀ (outputs : List (String × Rect)) (config : Config) (ids : FeedbackIds)
      (files : FifoDirectory) (nextDescriptor : Nat) (snapshot : Option Snapshot)
      (stream? : Int32 → Option Stream) (episodes : List Episode) (env : Surroundings),
      (((Estate.start (comeUp outputs config ids files nextDescriptor snapshot
        stream?)).run episodes).finish env).made = [] := by
  intro hall
  have hcommand : Command.ofArguments ["subscribe", "-f"] =
      .ok (.subscribe true (-1) (.single .report)) := by
    decide +kernel
  have hrequest : Wire.decodeRequest ((Text.encode "subscribe\x00-f\x00").take Wire.capacity) =
      ["subscribe", "-f"] := by
    decide +kernel
  have hserve : idle.serve (.through (.socket true)) (Text.encode "subscribe\x00-f\x00") =
      (asked (.single .report) (-1), some (Text.encode "/tmp/splitwm_fifo-0\n")) := by
    rw [serve, hrequest, handle_idle hcommand]
  have hnone := hall [("S", ⟨0, 0, 640, 480⟩)] ⟨Settings.standard, ["I"]⟩ .unavailable
    ⟨"/tmp/", true, []⟩ 0 none (fun _ => none) unreplaced silent
  -- the first turn is rewritten, for the search for a free name does not evaluate
  have hturn : (idle.wakeUp silent
      (.connection (.through (.socket true)) (Text.encode "subscribe\x00-f\x00")) [] false).1 =
      { asked (.single .report) (-1) with
        subscribers := (asked (.single .report) (-1)).subscribers.prune } := by
    rw [wakeUp, attend, hserve]
    rfl
  rw [unreplaced, Estate.run, List.foldl_cons, Estate.step] at hnone
  change ((([_].foldl Estate.step ((Estate.start idle).after (idle.wakeUp _ _ _ _).1)).finish
    silent).made = []) at hnone
  rw [hturn] at hnone
  revert hnone
  decide +kernel

end Daemon

end Tiling
