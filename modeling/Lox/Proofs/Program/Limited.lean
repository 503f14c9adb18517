/-
Output that is cut short. A sink that takes so many bytes and no more makes no difference to a program until a line does
not fit. With that line the program fails, and what it has written is the beginning of what it writes without a limit
(`runStatements_limited`).
-/
import Lox.Proofs.Machine.Atop
import Lox.Proofs.Program.Run

namespace Lox

namespace Sink

/-- A sink that takes `n` bytes in all, and can be flushed. -/
def limited (n : Nat) : Sink := ⟨.empty, some n, true⟩

/-- A sink with a limit. -/
def withLimit (s : Sink) (n : Nat) : Sink := { s with limit := some n }

variable {s : Sink} {bytes : ByteArray} {n : Nat}

theorem write_unlimited (h : s.limit = none) (bytes : ByteArray) :
    s.write bytes = ({ s with written := s.written ++ bytes }, true) := by
  simp [write, room, h]

theorem write_fits (fits : (s.written ++ bytes).size ≤ n) :
    (s.withLimit n).write bytes = ({ s with written := s.written ++ bytes }.withLimit n, true) := by
  have room : (s.withLimit n).room bytes.size = bytes.size := by
    rw [ByteArray.size_append] at fits
    show min bytes.size (n - s.written.size) = bytes.size
    omega
  rw [write, room, if_pos rfl]
  rfl

/-- What was written is kept, and of the bytes there is the part that there was room for. -/
theorem extract_append_of_le {written : ByteArray} (h : written.size ≤ n) (bytes : ByteArray) :
    (written ++ bytes).extract 0 n = written ++ bytes.extract 0 (n - written.size) := by
  have whole : written.extract 0 n = written := by
    rw [← Nat.max_eq_left h, ByteArray.extract_zero_max_size]
  rw [ByteArray.extract_append, whole, Nat.zero_sub]

theorem write_full (before : s.written.size ≤ n) (full : n < (s.written ++ bytes).size) :
    (s.withLimit n).write bytes = ({ s with written := (s.written ++ bytes).extract 0 n }.withLimit n, false) := by
  rw [ByteArray.size_append] at full
  have room : (s.withLimit n).room bytes.size = n - s.written.size := by
    show min bytes.size (n - s.written.size) = n - s.written.size
    omega
  have short : n - s.written.size ≠ bytes.size := by omega
  rw [extract_append_of_le before, write, room]
  exact if_neg short

end Sink

namespace Machine

/-! ## With a limit and without -/

/-- A machine without a limit on the left, and on the right the same with a limit that was not reached. -/
structure Within (n : Nat) (m m' : Machine) : Prop where
  same : m' = m.atop [] (m.sink.withLimit n)
  unlimited : m.sink.limit = none
  fits : m.sink.written.size ≤ n

/-- The machine on the left has written more than the limit, and that on the right has failed at it. -/
structure Cut (n : Nat) (m m' : Machine) : Prop where
  failed : m'.control = .failed (.sink .full)
  written : m'.sink.written = m.sink.written.extract 0 n
  beyond : n < m.sink.written.size

variable {n : Nat} {m m' : Machine} {place : UseId → Place}

theorem printValue_of_write {v : Value} {s : Sink} {complete : Bool}
    (h : m.sink.write (m.store.display v ++ "\n").toUTF8 = (s, complete)) :
    m.printValue v =
      if complete then { m with sink := s }.finish .normal
      else { m with sink := s, control := .failed (.sink .full) } := by
  unfold printValue
  dsimp only
  rw [h]

/-- A line that fits is written on both sides, and the first that does not fit makes the right side fail. -/
theorem Within.print (h : Within n m m') (v : Value) :
    Within n (m.printValue v) (m'.printValue v) ∨ Cut n (m.printValue v) (m'.printValue v) := by
  obtain ⟨rfl, unlimited, before⟩ := h
  rw [printValue_of_write (Sink.write_unlimited unlimited _)]
  by_cases fits : (m.sink.written ++ (m.store.display v ++ "\n").toUTF8).size ≤ n
  · left
    rw [printValue_of_write (m := m.atop [] (m.sink.withLimit n)) (Sink.write_fits fits)]
    exact ⟨rfl, unlimited, fits⟩
  · have beyond := Nat.lt_of_not_le fits
    right
    rw [printValue_of_write (m := m.atop [] (m.sink.withLimit n)) (Sink.write_full before beyond)]
    exact ⟨rfl, rfl, beyond⟩

theorem Within.next (h : Within n m m') :
    Within n (m.step place) (m'.step place) ∨ Cut n (m.step place) (m'.step place) := by
  cases printing : m.printing? with
  | none =>
    left
    have sink := sink_step place printing
    obtain ⟨rfl, unlimited, fits⟩ := h
    refine ⟨?_, by rw [sink]; exact unlimited, by rw [sink]; exact fits⟩
    rw [sink]
    -- a machine that has its result stands still, and `step_atop` does not say so
    by_cases back : m.IsBack []
    · have back' : (m.atop [] (m.sink.withLimit n)).IsBack [] := ⟨(List.append_nil _).trans back.1, back.2⟩
      rw [step_of_isBack place back, step_of_isBack place back']
    · exact step_atop _ _ place back printing
  | some v =>
    obtain ⟨rest, hm⟩ := exists_of_printing printing
    obtain ⟨rfl, unlimited, fits⟩ := h
    rw [hm]
    have within : Within n ⟨.value v, rest, m.scope, m.depth, m.store, m.sink⟩
        ⟨.value v, rest, m.scope, m.depth, m.store, m.sink.withLimit n⟩ :=
      ⟨by rw [atop, List.append_nil], unlimited, fits⟩
    have printed := within.print v
    rw [atop, List.append_nil]
    exact printed

/-- Up to any moment the limit was not reached, or at some moment before it was. -/
theorem Within.iterate (h : Within n m m') (place : UseId → Place) (k : Nat) :
    Within n ((step place)^[k] m) ((step place)^[k] m') ∨
      ∃ j ≤ k, Cut n ((step place)^[j] m) ((step place)^[j] m') := by
  induction k with
  | zero => exact .inl h
  | succ k ih =>
    rcases ih with within | ⟨j, le, cut⟩
    · rcases within.next with within | cut
      · left
        rwa [Function.iterate_succ_apply', Function.iterate_succ_apply']
      · right
        refine ⟨k + 1, Nat.le_refl _, ?_⟩
        rwa [Function.iterate_succ_apply', Function.iterate_succ_apply']
    · exact .inr ⟨j, Nat.le_succ_of_le le, cut⟩

/-- What was written by a moment is the beginning of what is written later. -/
theorem extract_written_iterate {j k : Nat} (le : j ≤ k) (beyond : n < ((step place)^[j] m).sink.written.size) :
    ((step place)^[k] m).sink.written.extract 0 n = ((step place)^[j] m).sink.written.extract 0 n ∧
      n < ((step place)^[k] m).sink.written.size := by
  obtain ⟨d, rfl⟩ := Nat.exists_eq_add_of_le le
  obtain ⟨more, hw⟩ := (extends_iterate place ((step place)^[j] m) d).written
  rw [← Function.iterate_add_apply, Nat.add_comm] at hw
  rw [hw, ByteArray.extract_append, ByteArray.size_append]
  have none : more.extract (0 - ((step place)^[j] m).sink.written.size) (n - ((step place)^[j] m).sink.written.size) =
      .empty := by
    rw [ByteArray.extract_eq_empty_iff]
    omega
  rw [none, ByteArray.append_empty]
  exact ⟨rfl, by omega⟩

/-- A machine that fails for want of room comes to its end without writing any more. -/
theorem Cut.exists_halted (h : Cut n m m') (place : UseId → Place) :
    ∃ k, ((step place)^[k] m').halted = true ∧
      ((step place)^[k] m').outcome = ⟨m.sink.written.extract 0 n, .failed (.sink .full)⟩ := by
  obtain ⟨control, frames, scope, depth, store, sink⟩ := m'
  obtain ⟨rfl, written, -⟩ := h
  obtain ⟨k, frames', control', sink'⟩ := exists_iterate_failed place (.sink .full) frames scope depth store sink
  refine ⟨k, halted_of_failed frames' control', ?_⟩
  rw [outcome, verdict, failure?, control', sink']
  exact congrArg (Outcome.mk · _) written

theorem Within.outcome (h : Within n m m') : m'.halted = m.halted ∧ m'.outcome = m.outcome := by
  obtain ⟨rfl, -, -⟩ := h
  have frames : (m.atop [] (m.sink.withLimit n)).frames = m.frames := List.append_nil _
  refine ⟨?_, rfl⟩
  unfold halted
  rw [frames]
  rfl

end Machine

/-! ## Programs -/

/-- Let a program end without a limit to its output. On a sink that takes `n` bytes it ends in the same way if what it
writes is no more than that; otherwise it writes the first `n` bytes of it, and fails because the sink is full, however
it ended without a limit. -/
theorem runStatements_limited {place : UseId → Place} {statements : List Stmt} {fuel : Nat} {o : Outcome}
    (ends : runStatements place fuel statements .unlimited = some o) (n : Nat) :
    ∃ fuel', runStatements place fuel' statements (.limited n) =
      some (if o.printed.size ≤ n then o else ⟨o.printed.extract 0 n, .failed (.sink .full)⟩) := by
  obtain ⟨halted, rfl⟩ := Machine.runStatements_eq_some_iff.1 ends
  have printed (m : Machine) : m.outcome.printed = m.sink.written := by
    unfold Machine.outcome
    split <;> rfl
  have start : Machine.Within n (.start .unlimited statements) (.start (.limited n) statements) :=
    ⟨rfl, rfl, Nat.zero_le n⟩
  rw [printed]
  rcases start.iterate place fuel with within | ⟨j, le, cut⟩
  · rw [if_pos within.fits]
    obtain ⟨halted', same⟩ := within.outcome
    exact ⟨fuel, Machine.runStatements_eq_some_iff.2 ⟨halted'.trans halted, same⟩⟩
  · obtain ⟨first, beyond⟩ := Machine.extract_written_iterate le cut.beyond
    rw [if_neg (Nat.not_le_of_lt beyond), first]
    obtain ⟨k, halted', out⟩ := cut.exists_halted place
    rw [← Function.iterate_add_apply] at halted' out
    exact ⟨k + j, Machine.runStatements_eq_some_iff.2 ⟨halted', out⟩⟩

/-- The second call prints half of its line, and the program never comes to its own error. -/
theorem runStatements_limited_call :
    ∃ program fuel o fuel',
      Program.ofSource "fun f() \x7b print true; \x7d f(); f(); -f();" = .ok program ∧
        runStatements program.table.place fuel program.statements .unlimited = some o ∧
        o.printed = "true\ntrue\ntrue\n".toUTF8 ∧
        runStatements program.table.place fuel' program.statements (.limited 7) =
          some ⟨"true\ntr".toUTF8, .failed (.sink .full)⟩ := by
  have ran : (Program.ofSource "fun f() \x7b print true; \x7d f(); f(); -f();").toOption.any
      (fun p : Program => decide (∃ o ∈ runStatements p.table.place 100 p.statements .unlimited,
        o.printed = "true\ntrue\ntrue\n".toUTF8)) = true := by decide +kernel
  obtain ⟨program, accepted, ran⟩ := Program.exists_ofSource ran
  obtain ⟨o, ho, printed⟩ := of_decide_eq_true ran
  obtain ⟨fuel', ho'⟩ := runStatements_limited ho 7
  have more : ¬ o.printed.size ≤ 7 := by
    rw [printed]
    decide +kernel
  have first : o.printed.extract 0 7 = "true\ntr".toUTF8 := by
    rw [printed]
    decide +kernel
  rw [if_neg more, first] at ho'
  exact ⟨program, 100, o, fuel', accepted, ho, printed, ho'⟩

end Lox
