import Tiling.Proofs.CommandLine
import Tiling.Successor
/-!
# Successors

A successor gets the arguments of the program that come before the word `-s`, then its snapshot
and the control socket. Cut there, the arguments of a program that was started are always
understood. The successor understands its own as the same autostart script and settings file if
and only if the ones it gets name these two and no more.
-/

namespace Tiling

open CommandLine CommandLine.Program

/-- The arguments that a program passes on to its successor. -/
def inherited (arguments : List String) : List String := arguments.takeWhile (· != "-s")

namespace Options

variable {arguments kept : List String} {path : String} {descriptor : Int32} {k q : Reading}

theorem ofArguments_eq_ok_iff {o : Options} :
    ofArguments arguments = .ok o ↔
      ∃ r, program.read .empty arguments = .ok r ∧ ofReading r = o := by
  unfold ofArguments
  cases program.read .empty arguments with
  | error stop => exact iff_of_false nofun nofun
  | ok r => exact ⟨fun h => ⟨r, rfl, Except.ok.inj h⟩, fun ⟨_, rfl, h⟩ => congrArg _ h⟩

theorem valueError?_snapshot : Reading.valueError? snapshotSwitch path = none ↔ path ≠ "" := by
  simp [Reading.valueError?, snapshotSwitch]

theorem valueError?_socket (n : Int32) :
    Reading.valueError? socketSwitch (Numeral.decimal n.toInt) = none := by
  simp [Reading.valueError?, socketSwitch, number_decimal]

/-- A descriptor that was accepted is a number. -/
theorem socket_eq_none_iff (h : k.Proper) :
    (ofReading k).socket = none ↔ socketSwitch ∉ k.switches := by
  rw [← Reading.value?_eq_none_iff]
  refine Option.bind_eq_none_iff.trans ⟨fun hnumber => ?_, fun hnone => by simp [hnone]⟩
  cases hvalue : k.value? socketSwitch with
  | none => rfl
  | some text =>
    obtain ⟨before, after, hgiven, -⟩ := List.lookup_eq_some_iff.1 hvalue
    have hright := h.values (socketSwitch, text) (by simp [hgiven])
    have hwrong := hnumber text hvalue
    simp only [Reading.valueError?, socketSwitch] at hright
    cases hread : number text with
    | ok n => simp [hread, Except.toOption] at hwrong
    | error fault => simp [hread] at hright

theorem ofReading_give (hsnapshot : snapshotSwitch ∉ k.switches)
    (hsocket : socketSwitch ∉ k.switches) (path : String) (descriptor : Int32) :
    ofReading ((k.give snapshotSwitch path).give socketSwitch
        (Numeral.decimal descriptor.toInt)) =
      ⟨(ofReading k).autostart, some path, some descriptor, (ofReading k).settings⟩ := by
  have hs := Reading.value?_eq_none_iff.2 hsnapshot
  have ho := Reading.value?_eq_none_iff.2 hsocket
  have hnumber : (number (Numeral.decimal descriptor.toInt)).toOption = some descriptor := by
    rw [number_decimal]
    rfl
  simp only [ofReading, Reading.value?_give, hs, ho]
  simp +decide [hnumber]

theorem read_snapshot_iff :
    program.read .empty (kept ++ ["-s", path]) = .ok q ↔ "--" ∉ kept ∧ Form.of path = .plain ∧
      ∃ k, program.read .empty kept = .ok k ∧ snapshotSwitch ∉ k.switches ∧ path ≠ "" ∧
        q = k.give snapshotSwitch path := by
  have hform : Form.of "-s" = .letters ['s'] := by decide
  have hfound : program.ofLetter? 's' = some snapshotSwitch := by decide
  rw [read_append_option_iff rfl hform hfound rfl .empty, valueError?_snapshot]

theorem read_socket_iff :
    program.read .empty (kept ++ ["-o", Numeral.decimal descriptor.toInt]) = .ok q ↔
      "--" ∉ kept ∧ 0 ≤ descriptor.toInt ∧
        ∃ k, program.read .empty kept = .ok k ∧ socketSwitch ∉ k.switches ∧
          q = k.give socketSwitch (Numeral.decimal descriptor.toInt) := by
  have hform : Form.of "-o" = .letters ['o'] := by decide
  have hfound : program.ofLetter? 'o' = some socketSwitch := by decide
  rw [read_append_option_iff rfl hform hfound rfl .empty, form_decimal_iff, valueError?_socket,
    eq_self_iff_true]
  simp only [true_and]

theorem divider_notMem_iff (hpath : Form.of path = .plain) :
    "--" ∉ kept ++ ["-s", path] ↔ "--" ∉ kept := by
  have hne : path ≠ "--" := by
    rintro rfl
    rw [form_eq_divider_iff.2 rfl] at hpath
    cases hpath
  simp [Ne.symm hne]

/-- Arguments that end as those of a successor do. -/
theorem read_successor_iff :
    program.read .empty (kept ++
        ["-s", path, "-o", Numeral.decimal descriptor.toInt]) = .ok q ↔
      "--" ∉ kept ∧ Form.of path = .plain ∧ path ≠ "" ∧ 0 ≤ descriptor.toInt ∧
        ∃ k, program.read .empty kept = .ok k ∧ snapshotSwitch ∉ k.switches ∧
          socketSwitch ∉ k.switches ∧ q = (k.give snapshotSwitch path).give socketSwitch
            (Numeral.decimal descriptor.toInt) := by
  have hsplit : kept ++ ["-s", path, "-o", Numeral.decimal descriptor.toInt] =
      kept ++ ["-s", path] ++ ["-o", Numeral.decimal descriptor.toInt] := by simp
  have hsocket (k : Reading) : socketSwitch ∉ (k.give snapshotSwitch path).switches ↔
      socketSwitch ∉ k.switches := by
    rw [Reading.switches_give, List.mem_append, List.mem_singleton, not_or]
    exact and_iff_left (by decide)
  rw [hsplit, read_socket_iff]
  constructor
  · rintro ⟨hdivider, hnumber, k', hk', hsocket', rfl⟩
    obtain ⟨hkept, hplain, k, hk, hsnapshot, hpath, rfl⟩ := read_snapshot_iff.1 hk'
    exact ⟨hkept, hplain, hpath, hnumber, k, hk, hsnapshot, (hsocket k).1 hsocket', rfl⟩
  · rintro ⟨hkept, hplain, hpath, hnumber, k, hk, hsnapshot, hsocket', rfl⟩
    have hk' := read_snapshot_iff.2 ⟨hkept, hplain, k, hk, hsnapshot, hpath, rfl⟩
    exact ⟨(divider_notMem_iff hplain).2 hkept, hnumber, _, hk', (hsocket k).2 hsocket', rfl⟩

/-- What comes before the word `-s` is understood if the whole is. -/
theorem read_inherited (h : program.read .empty arguments = .ok q) :
    ∃ k, program.read .empty (inherited arguments) = .ok k := by
  have hsplit : inherited arguments ++ arguments.dropWhile (· != "-s") = arguments :=
    List.takeWhile_append_dropWhile
  cases hrest : arguments.dropWhile (· != "-s") with
  | nil =>
    rw [hrest, List.append_nil] at hsplit
    exact ⟨q, hsplit.symm ▸ h⟩
  | cons a rest =>
    have ha : a = "-s" := by
      have hhead := List.head?_dropWhile_not (· != "-s") arguments
      rw [hrest] at hhead
      exact bne_eq_false_iff_eq.1 hhead
    have hform : Form.of a = .letters ['s'] := by rw [ha]; decide
    have hfound : program.ofLetter? 's' = some snapshotSwitch := by decide
    rw [← hsplit, hrest, read_append_letter_iff rfl hform hfound rfl .empty] at h
    obtain ⟨-, k, hk, -⟩ := h
    exact ⟨k, hk⟩

theorem ofArguments_successor_iff {autostart settings : Option String} :
    ofArguments (kept ++ ["-s", path, "-o", Numeral.decimal descriptor.toInt]) =
        .ok ⟨autostart, some path, some descriptor, settings⟩ ↔
      "--" ∉ kept ∧ Form.of path = .plain ∧ path ≠ "" ∧ 0 ≤ descriptor.toInt ∧
        ofArguments kept = .ok ⟨autostart, none, none, settings⟩ := by
  simp only [ofArguments_eq_ok_iff, read_successor_iff]
  constructor
  · rintro ⟨q, ⟨hkept, hplain, hpath, hnumber, k, hk, hsnapshot, hsocket, rfl⟩, hq⟩
    rw [ofReading_give hsnapshot hsocket, Options.mk.injEq] at hq
    have hproper := (read_spec rfl .empty hkept hk).1
    have hnone := (socket_eq_none_iff hproper).2 hsocket
    refine ⟨hkept, hplain, hpath, hnumber, k, hk, ?_⟩
    rw [Options.mk.injEq]
    exact ⟨hq.1, Reading.value?_eq_none_iff.2 hsnapshot, hnone, hq.2.2.2⟩
  · rintro ⟨hkept, hplain, hpath, hnumber, k, hk, hread⟩
    obtain ⟨hautostart, hsnapshot, hsocket, hsettings⟩ := Options.mk.inj hread
    have hproper := (read_spec rfl .empty hkept hk).1
    have hsnapshot := Reading.value?_eq_none_iff.1 hsnapshot
    have hsocket := (socket_eq_none_iff hproper).1 hsocket
    refine ⟨_, ⟨hkept, hplain, hpath, hnumber, k, hk, hsnapshot, hsocket, rfl⟩, ?_⟩
    rw [ofReading_give hsnapshot hsocket, ← hautostart, ← hsettings]
    rfl

end Options

/-! ## Restarts -/

section Restarts

variable {program : String} {arguments : List String} {path : String} {descriptor : Int32}

theorem tail_successorArguments (hprogram : program ≠ "-s") :
    (successorArguments (program :: arguments) path descriptor).tail =
      inherited arguments ++ ["-s", path, "-o", Numeral.decimal descriptor.toInt] := by
  have hkept : (program != "-s") = true := bne_iff_ne.2 hprogram
  rw [successorArguments, List.takeWhile_cons, hkept]
  rfl

/-- A successor passes on what it was passed on. -/
theorem successorArguments_again (arguments : List String) (path path' : String)
    (descriptor descriptor' : Int32) :
    successorArguments (successorArguments arguments path descriptor) path' descriptor' =
      successorArguments arguments path' descriptor' := by
  have hkept : ∀ a ∈ arguments.takeWhile (· != "-s"), (a != "-s") = true :=
    List.all_eq_true.1 List.all_takeWhile
  rw [successorArguments, successorArguments, List.takeWhile_append_of_pos hkept,
    List.takeWhile_cons_of_neg (by simp), List.append_nil]
  rfl

/-- However often it was done before, a restart passes on what the first one would have. -/
theorem successorArguments_restarts (arguments : List String) (earlier : List (String × Int32))
    (path : String) (descriptor : Int32) :
    successorArguments
        (earlier.foldl (fun passed x => successorArguments passed x.1 x.2) arguments)
        path descriptor = successorArguments arguments path descriptor := by
  induction earlier generalizing arguments with
  | nil => rfl
  | cons x earlier ih => rw [List.foldl_cons, ih, successorArguments_again]

/-- A program that was started has a successor that starts, with the same autostart script and
settings file, if and only if the arguments that it passes on name just these two. -/
theorem successor_starts_iff {o : Options} (hprogram : program ≠ "-s")
    (ho : Options.ofArguments arguments = .ok o) (path : String) (descriptor : Int32) :
    ∃ k, Options.ofArguments (inherited arguments) = .ok k ∧
      (Options.ofArguments (successorArguments (program :: arguments) path descriptor).tail =
          .ok ⟨o.autostart, some path, some descriptor, o.settings⟩ ↔
        "--" ∉ inherited arguments ∧ Form.of path = .plain ∧ path ≠ "" ∧
          0 ≤ descriptor.toInt ∧ k = ⟨o.autostart, none, none, o.settings⟩) := by
  obtain ⟨q, hq, -⟩ := Options.ofArguments_eq_ok_iff.1 ho
  obtain ⟨r, hr⟩ := Options.read_inherited hq
  have hk := Options.ofArguments_eq_ok_iff.2 ⟨r, hr, rfl⟩
  refine ⟨Options.ofReading r, hk, ?_⟩
  rw [tail_successorArguments hprogram, Options.ofArguments_successor_iff, hk, Except.ok.injEq]

example : Options.ofArguments (successorArguments
    ["splitwm", "-c/etc/rc", "--config-file=/etc/settings"] "/run/state" 7).tail =
      .ok ⟨some "/etc/rc", some "/run/state", some 7, some "/etc/settings"⟩ := by
  rfl

theorem successor_starts_configured :
    "splitwm" ≠ "-s" ∧ Options.ofArguments ["-c/etc/rc", "--config-file=/etc/settings"] =
        .ok ⟨some "/etc/rc", none, none, some "/etc/settings"⟩ ∧
      ∃ k, Options.ofArguments (inherited ["-c/etc/rc", "--config-file=/etc/settings"]) = .ok k ∧
        (Options.ofArguments (successorArguments
            ["splitwm", "-c/etc/rc", "--config-file=/etc/settings"] "/run/state" 7).tail =
              .ok ⟨some "/etc/rc", some "/run/state", some 7, some "/etc/settings"⟩ ↔
          "--" ∉ inherited ["-c/etc/rc", "--config-file=/etc/settings"] ∧
            Form.of "/run/state" = .plain ∧ "/run/state" ≠ "" ∧ 0 ≤ (7 : Int32).toInt ∧
              k = ⟨some "/etc/rc", none, none, some "/etc/settings"⟩) := by
  have ho : Options.ofArguments ["-c/etc/rc", "--config-file=/etc/settings"] =
      .ok ⟨some "/etc/rc", none, none, some "/etc/settings"⟩ := by rfl
  have hprogram : "splitwm" ≠ "-s" := by decide
  exact ⟨hprogram, ho, successor_starts_iff hprogram ho "/run/state" 7⟩

/-- The descriptor of a socket that was inherited without a snapshot is passed on twice. -/
theorem not_successor_starts :
    Options.ofArguments ["-o", "3"] = .ok ⟨none, none, some 3, none⟩ ∧
      Options.ofArguments (successorArguments ["splitwm", "-o", "3"] "/run/state" 7).tail =
        .error (.usage (.repeated Options.socketSwitch)) := by
  exact ⟨by rfl, by rfl⟩

end Restarts

end Tiling
