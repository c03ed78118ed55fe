import Tiling.Stream
/-!
# Sending

What a stream has taken of a message when sending it ends: all of it, nothing because the reader
is stalled, or a part of it, after which the stream cannot be used any more.
-/

namespace Tiling

theorem Pipe.write_ne_interrupted (p : Pipe) (n : Nat) : (p.write n).2 ≠ .interrupted := by
  unfold Pipe.write
  simp only
  split <;> exact nofun

namespace Stream

/-- The bytes of a write that its answer says were taken. -/
def taken (bytes : Bytes) : WriteAnswer → Bytes
  | .accepted n => bytes.take n
  | .interrupted | .wouldBlock | .failed => []

theorem waiting_take (s : Stream) (n : Nat) (bytes : Bytes) :
    (s.take n bytes).waiting = s.waiting ++ bytes.take n := by
  simp [waiting, take]

/-! ## One write -/

/-- A write puts the bytes that it says were taken after those that wait, and uses up one
scripted answer; only a scripted answer can be an interruption. -/
theorem write_spec (s : Stream) (bytes : Bytes) :
    (s.write bytes).1.waiting = s.waiting ++ taken bytes (s.write bytes).2 ∧
      (s.write bytes).1.script = s.script.tail ∧
      ((s.write bytes).2 = .interrupted → s.script ≠ []) := by
  obtain ⟨channel, script, isOpen, unread⟩ := s
  cases script with
  | cons answer rest =>
    cases answer with
    | accepted n => exact ⟨waiting_take _ _ _, rfl, nofun⟩
    | interrupted | wouldBlock | failed => exact ⟨(List.append_nil _).symm, rfl, nofun⟩
  | nil =>
    cases channel with
    | socket readerOpen =>
      cases readerOpen with
      | true => exact ⟨waiting_take _ _ _, rfl, nofun⟩
      | false => exact ⟨(List.append_nil _).symm, rfl, nofun⟩
    | fifo pipe =>
      have hpipe := pipe.write_ne_interrupted bytes.length
      simp only [write]
      generalize pipe.write bytes.length = outcome at *
      obtain ⟨pipe', answer⟩ := outcome
      cases answer with
      | accepted n => exact ⟨waiting_take _ _ _, rfl, nofun⟩
      | interrupted => exact absurd rfl hpipe
      | wouldBlock | failed => exact ⟨(List.append_nil _).symm, rfl, nofun⟩

theorem waiting_of_write {s s' : Stream} {bytes : Bytes} {answer : WriteAnswer}
    (h : s.write bytes = (s', answer)) : s'.waiting = s.waiting ++ taken bytes answer := by
  have hwaiting := (write_spec s bytes).1
  rwa [h] at hwaiting

/-! ## Enough writes

Each write shortens what is left or uses up a scripted answer. -/

theorem lt_of_accepted {s s' : Stream} {b : UInt8} {bytes : Bytes} {n : Nat}
    (h : s.write (b :: bytes) = (s', .accepted (n + 1))) :
    s'.script.length + ((b :: bytes).drop (n + 1)).length <
      s.script.length + (b :: bytes).length := by
  obtain ⟨-, hscript, -⟩ := write_spec s (b :: bytes)
  rw [h] at hscript
  rw [hscript, List.length_tail, List.length_drop, List.length_cons]
  omega

theorem lt_of_interrupted {s s' : Stream} {bytes : Bytes}
    (h : s.write bytes = (s', .interrupted)) :
    s'.script.length + bytes.length < s.script.length + bytes.length := by
  obtain ⟨-, hscript, hscripted⟩ := write_spec s bytes
  rw [h] at hscript hscripted
  have hlength := List.length_pos_iff.2 (hscripted rfl)
  rw [hscript, List.length_tail]
  omega

/-- No message is given up for want of writes: with enough of them the number is irrelevant. -/
theorem sendFrom_congr {fuel fuel' : Nat} {s : Stream} {bytes : Bytes}
    (hfuel : s.script.length + bytes.length ≤ fuel)
    (hfuel' : s.script.length + bytes.length ≤ fuel') (begun : Bool) :
    sendFrom fuel begun s bytes = sendFrom fuel' begun s bytes := by
  induction fuel generalizing fuel' begun s bytes with
  | zero =>
    have hnil : bytes = [] := List.eq_nil_of_length_eq_zero (by omega)
    rw [hnil, sendFrom, sendFrom]
  | succ fuel ih =>
    cases bytes with
    | nil => rw [sendFrom, sendFrom]
    | cons b bytes =>
      have hpos : 1 ≤ fuel' := by
        rw [List.length_cons] at hfuel'
        omega
      obtain ⟨fuel', rfl⟩ := Nat.exists_eq_add_of_le' hpos
      cases hwrite : s.write (b :: bytes) with
      | mk s' answer =>
        simp only [sendFrom, hwrite]
        cases answer with
        | accepted n =>
          cases n with
          | zero => rfl
          | succ n =>
            have hlt := lt_of_accepted hwrite
            exact ih (by omega) (by omega) true
        | interrupted =>
          have hlt := lt_of_interrupted hwrite
          exact ih (by omega) (by omega) begun
        | wouldBlock | failed => rfl

/-! ## A message -/

/-- Of what is written some was taken and the rest is left: nothing is left just when it is sent,
and nothing was taken when the reader is stalled. -/
theorem sendFrom_spec (fuel : Nat) (begun : Bool) (s : Stream) (bytes : Bytes) :
    ∃ took left, took ++ left = bytes ∧
      (sendFrom fuel begun s bytes).1.waiting = s.waiting ++ took ∧
      ((sendFrom fuel begun s bytes).2 = .sent ↔ left = []) ∧
      ((sendFrom fuel begun s bytes).2 = .stalled → begun = false ∧ took = []) := by
  fun_induction sendFrom fuel begun s bytes with
  | case1 => exact ⟨[], [], by simp⟩
  | case2 begun s bytes hbytes => exact ⟨[], bytes, by simpa using hbytes⟩
  | case3 fuel begun s bytes hbytes s' hwrite =>
    exact ⟨[], bytes, rfl, waiting_of_write hwrite, ⟨nofun, fun h => (hbytes h).elim⟩, nofun⟩
  | case4 fuel begun s bytes hbytes s' n hn hwrite ih =>
    -- some of it is taken now, so a stall later on is a break
    obtain ⟨took, left, hbytes', hwaiting, hsent, hstalled⟩ := ih
    refine ⟨bytes.take n ++ took, left, ?_, ?_, hsent, fun h => nomatch (hstalled h).1⟩
    · rw [List.append_assoc, hbytes', List.take_append_drop]
    · rw [hwaiting, waiting_of_write hwrite, taken, List.append_assoc]
  | case5 fuel begun s bytes hbytes s' hwrite ih =>
    obtain ⟨took, left, hbytes', hwaiting, hrest⟩ := ih
    refine ⟨took, left, hbytes', ?_, hrest⟩
    rw [hwaiting, waiting_of_write hwrite, taken, List.append_nil]
  | case6 fuel begun s bytes hbytes s' hwrite =>
    refine ⟨[], bytes, rfl, waiting_of_write hwrite, ⟨?_, fun h => (hbytes h).elim⟩, ?_⟩
    · cases begun <;> exact nofun
    · cases begun with
      | true => exact nofun
      | false => exact fun _ => ⟨rfl, rfl⟩
  | case7 fuel begun s bytes hbytes s' hwrite =>
    exact ⟨[], bytes, rfl, waiting_of_write hwrite, ⟨nofun, fun h => (hbytes h).elim⟩, nofun⟩

/-- What a stream has taken of a message in each of the three ways that sending it can end. -/
theorem send_spec (s : Stream) (message : Bytes) :
    ((s.send message).2 = .sent ∧ (s.send message).1.waiting = s.waiting ++ message) ∨
    ((s.send message).2 = .stalled ∧ (s.send message).1.waiting = s.waiting) ∨
    ((s.send message).2 = .broken ∧ ∃ part, part <+: message ∧ part ≠ message ∧
      (s.send message).1.waiting = s.waiting ++ part) := by
  obtain ⟨took, left, rfl, hwaiting, hsent, hstalled⟩ :=
    sendFrom_spec (s.script.length + message.length) false s message
  unfold send
  generalize sendFrom _ _ _ _ = outcome at *
  obtain ⟨s', delivery⟩ := outcome
  cases delivery with
  | sent =>
    left
    rw [hsent.1 rfl, List.append_nil]
    exact ⟨rfl, hwaiting⟩
  | stalled =>
    right; left
    rw [(hstalled rfl).2, List.append_nil] at hwaiting
    exact ⟨rfl, hwaiting⟩
  | broken =>
    right; right
    refine ⟨rfl, took, List.prefix_append took left, fun hall => ?_, hwaiting⟩
    exact nomatch hsent.2 (List.self_eq_append_right.1 hall)

/-! ## Streams that take everything -/

/-- Every write of some bytes is taken, in part at least; one that is interrupted is tried
again. -/
inductive Accepts : Stream → Bytes → Prop where
  | nil (s : Stream) : Accepts s []
  | taken {s s' : Stream} {bytes : Bytes} {n : Nat} (h : s.write bytes = (s', .accepted (n + 1)))
      (rest : Accepts s' (bytes.drop (n + 1))) : Accepts s bytes
  | interrupted {s s' : Stream} {bytes : Bytes} (h : s.write bytes = (s', .interrupted))
      (again : Accepts s' bytes) : Accepts s bytes

theorem Accepts.sendFrom {s : Stream} {bytes : Bytes} (h : s.Accepts bytes) {fuel : Nat}
    (hfuel : s.script.length + bytes.length ≤ fuel) (begun : Bool) :
    (sendFrom fuel begun s bytes).2 = .sent := by
  induction h generalizing fuel begun with
  | nil s => rw [Stream.sendFrom]
  | @taken s s' bytes n hwrite rest ih =>
    cases bytes with
    | nil => rw [Stream.sendFrom]
    | cons b bytes =>
      have hlt := lt_of_accepted hwrite
      obtain ⟨fuel, rfl⟩ := Nat.exists_eq_add_of_le' (by omega : 1 ≤ fuel)
      simp only [Stream.sendFrom, hwrite]
      apply ih
      omega
  | @interrupted s s' bytes hwrite again ih =>
    cases bytes with
    | nil => rw [Stream.sendFrom]
    | cons b bytes =>
      have hlt := lt_of_interrupted hwrite
      obtain ⟨fuel, rfl⟩ := Nat.exists_eq_add_of_le' (by omega : 1 ≤ fuel)
      simp only [Stream.sendFrom, hwrite]
      apply ih
      omega

/-- A socket takes everything at once while its reader is there, and goes on to do so. -/
theorem accepts_of_open {s : Stream} (hopen : s.channel = .socket true) (hscript : s.script = [])
    (message : Bytes) : s.Accepts message ∧ (s.send message).1.channel = .socket true ∧
      (s.send message).1.script = [] := by
  cases message with
  | nil =>
    have hsent : s.send [] = (s, .sent) := by rw [send, sendFrom]
    rw [hsent]
    exact ⟨.nil s, hopen, hscript⟩
  | cons b bytes =>
    have hwrite : s.write (b :: bytes) =
        (s.take (bytes.length + 1) (b :: bytes), .accepted (bytes.length + 1)) := by
      rw [write, hscript, hopen]
      rfl
    have hrest : (b :: bytes).drop (bytes.length + 1) = [] := List.drop_length
    have hsent : s.send (b :: bytes) = (s.take (bytes.length + 1) (b :: bytes), .sent) := by
      simp only [send, hscript, List.length_nil, Nat.zero_add, List.length_cons, sendFrom, hwrite,
        hrest]
    rw [hsent]
    exact ⟨.taken hwrite (hrest ▸ .nil _), hopen, hscript⟩

theorem Accepts.send {s : Stream} {message : Bytes} (h : s.Accepts message) :
    (s.send message).2 = .sent :=
  h.sendFrom (Nat.le_refl _) false

end Stream

/-! ## New FIFOs -/

namespace Pipe

/-- Bytes for which there is room in an empty FIFO. -/
def capacity : Nat := drained.freePages * pageSize

def full : Pipe := ⟨0, 0⟩

/-- Without room on the last page a write takes what fits on new ones. -/
theorem write_of_tail {p : Pipe} (h : p.tail = 0) (n : Nat) :
    p.write n = ((p.fill n).1,
      if (p.fill n).2 = 0 then .wouldBlock else .accepted (p.fill n).2) := by
  have hmerged : p.merged n = 0 := by
    rw [merged, h]
    split
    · exact Nat.le_zero.1 ‹_›
    · rfl
  simp only [write, hmerged, Nat.sub_zero, Nat.zero_add]

theorem write_full (n : Nat) : full.write n = (full, .wouldBlock) := by
  have hfill : full.fill n = (full, 0) := by
    rw [fill, full, Nat.zero_min, if_pos rfl]
  rw [write_of_tail rfl, hfill, if_pos rfl]

/-- What fits goes into an empty FIFO in one write, and if that was not all then nothing fits
afterwards. -/
theorem write_drained {n : Nat} (hpos : 0 < n) :
    (drained.write n).2 = .accepted (min n capacity) ∧
      (capacity < n → (drained.write n).1 = full) := by
  have hpages : min 16 ((n + 4096 - 1) / 4096) ≠ 0 := by omega
  have htaken : min n (min 16 ((n + 4096 - 1) / 4096) * 4096) = min n capacity := by
    show _ = min n (16 * 4096)
    omega
  have hfill : drained.fill n =
      (⟨16 - min 16 ((n + 4096 - 1) / 4096),
        min 16 ((n + 4096 - 1) / 4096) * 4096 - min n capacity⟩, min n capacity) := by
    rw [fill, drained]
    simp only [pageSize, if_neg hpages, htaken]
  have hsome : min n capacity ≠ 0 := by
    show min n (16 * 4096) ≠ 0
    omega
  rw [write_of_tail rfl, hfill, if_neg hsome]
  refine ⟨rfl, fun hmore => ?_⟩
  change 16 * 4096 < n at hmore
  have hnone : min 16 ((n + 4096 - 1) / 4096) * 4096 - min n (16 * 4096) = 0 := by omega
  have hall : 16 - min 16 ((n + 4096 - 1) / 4096) = 0 := by omega
  exact (Pipe.mk.injEq _ _ _ _).mpr ⟨hall, hnone⟩

end Pipe

namespace Stream

/-- A FIFO that nothing was written to. -/
def newFifo : Stream := through (.fifo .drained)

theorem write_newFifo {message : Bytes} (h : message ≠ []) :
    ∃ pipe, newFifo.write message = (⟨.fifo pipe, [], true, [message.take Pipe.capacity]⟩,
        .accepted (min message.length Pipe.capacity)) ∧
      (Pipe.capacity < message.length → pipe = .full) := by
  obtain ⟨htaken, hfull⟩ := Pipe.write_drained (List.length_pos_iff.2 h)
  have htake : message.take (min message.length Pipe.capacity) = message.take Pipe.capacity := by
    rw [Nat.min_comm, ← List.take_take, List.take_length]
  rcases hpipe : Pipe.drained.write message.length with ⟨pipe, answer⟩
  rw [hpipe] at htaken hfull
  obtain rfl : answer = .accepted (min message.length Pipe.capacity) := htaken
  refine ⟨pipe, ?_, hfull⟩
  simp only [write, newFifo, through, hpipe, take, htake]

theorem write_of_full {s : Stream} (hfull : s.channel = .fifo .full) (hscript : s.script = [])
    (bytes : Bytes) : s.write bytes = (s, .wouldBlock) := by
  simp only [write, hscript, hfull, Pipe.write_full]

/-- A new FIFO takes a message that fits, and breaks in a longer one. -/
theorem send_newFifo (message : Bytes) :
    (newFifo.send message).1.isOpen = true ∧
      (newFifo.send message).1.waiting = message.take Pipe.capacity ∧
      ((newFifo.send message).2 = .broken ↔ Pipe.capacity < message.length) := by
  cases message with
  | nil =>
    have hsent : newFifo.send [] = (newFifo, .sent) := by rw [send, sendFrom]
    rw [hsent]
    exact ⟨rfl, rfl, ⟨nofun, nofun⟩⟩
  | cons b bytes =>
    obtain ⟨pipe, hwrite, hfull⟩ := write_newFifo (List.cons_ne_nil b bytes)
    have hcount : min (b :: bytes).length Pipe.capacity =
        min bytes.length (Pipe.capacity - 1) + 1 := by
      show min (bytes.length + 1) (16 * 4096) = min bytes.length (16 * 4096 - 1) + 1
      omega
    have hsend : newFifo.send (b :: bytes) = sendFrom bytes.length true
        ⟨.fifo pipe, [], true, [(b :: bytes).take Pipe.capacity]⟩
        ((b :: bytes).drop (min (b :: bytes).length Pipe.capacity)) := by
      have hfuel : newFifo.script.length + (b :: bytes).length = bytes.length + 1 := Nat.zero_add _
      rw [hcount] at hwrite ⊢
      simp only [send, hfuel, sendFrom, hwrite]
    rw [hsend]
    by_cases hfits : (b :: bytes).length ≤ Pipe.capacity
    · rw [Nat.min_eq_left hfits, List.drop_length, sendFrom]
      exact ⟨rfl, List.append_nil _, ⟨nofun, fun hmore => absurd hfits (Nat.not_le.2 hmore)⟩⟩
    · -- the rest finds no room
      have hmore := Nat.not_le.1 hfits
      obtain rfl := hfull hmore
      rw [Nat.min_eq_right (Nat.le_of_lt hmore)]
      cases hrest : (b :: bytes).drop Pipe.capacity with
      | nil => exact absurd (List.drop_eq_nil_iff.1 hrest) hfits
      | cons c rest =>
        have hfuel : bytes.length = bytes.length - 1 + 1 := by
          change 16 * 4096 < bytes.length + 1 at hmore
          omega
        rw [hfuel, sendFrom, write_of_full rfl rfl]
        · exact ⟨rfl, List.append_nil _, ⟨fun _ => hmore, fun _ => rfl⟩⟩
        · exact nofun

end Stream

end Tiling
