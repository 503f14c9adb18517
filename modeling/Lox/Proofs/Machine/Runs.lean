/-
Runs of a machine as so many steps. A run ends where nothing is left to do, and from there on the machine stays as it
is; a machine that fails gives up its frames and comes to such an end.
-/
import Lox.Program
import Mathlib.Logic.Function.Iterate

namespace Lox

/-! ## Systems that stand still -/

section

variable {α : Type} {f : α → α} (stop : α → Prop)

/-- A system that stands still stays where it is. -/
theorem iterate_eq_of_stop (still : ∀ a, stop a → f a = a) {a : α} {n k : Nat} (hn : stop (f^[n] a)) (hk : n ≤ k) :
    f^[k] a = f^[n] a := by
  obtain ⟨d, rfl⟩ := Nat.exists_eq_add_of_le hk
  rw [Nat.add_comm, Function.iterate_add_apply, Function.iterate_fixed (still _ hn)]

end

namespace Machine

variable {m : Machine} {place : UseId → Place} {statements : List Stmt}

/-! ## The end of a run -/

theorem step_of_halted (h : m.halted = true) : m.step place = m := by
  obtain ⟨control, frames, scope, depth, store, sink⟩ := m
  cases frames with
  | cons f rest => cases control <;> cases h
  | nil =>
    cases control with
    | finished c => rfl
    | failed e => rfl
    | exec _ | eval _ | value _ => cases h

theorem run_eq_some_iff {fuel : Nat} {r : Machine} :
    run place fuel m = some r ↔ (step place)^[fuel] m = r ∧ r.halted = true := by
  induction fuel generalizing m with
  | zero =>
    unfold run
    split
    · next h =>
      constructor
      · rintro ⟨⟩
        exact ⟨rfl, h⟩
      · rintro ⟨rfl, -⟩
        rfl
    · next h =>
      constructor
      · rintro ⟨⟩
      · rintro ⟨rfl, halted⟩
        exact absurd halted h
  | succ fuel ih =>
    unfold run
    split
    · next h =>
      rw [Function.iterate_fixed (step_of_halted h)]
      constructor
      · rintro ⟨⟩
        exact ⟨rfl, h⟩
      · rintro ⟨rfl, -⟩
        rfl
    · exact ih

/-- Whether a machine comes to an end as another one. -/
def RunsTo (place : UseId → Place) (m r : Machine) : Prop := ∃ fuel, run place fuel m = some r

theorem runsTo_iff {r : Machine} : RunsTo place m r ↔ ∃ n, (step place)^[n] m = r ∧ r.halted = true := by
  unfold RunsTo
  simp only [run_eq_some_iff]

/-- Steps that have been taken make no difference to the end. -/
theorem runsTo_iterate_iff {r : Machine} (n : Nat) : RunsTo place ((step place)^[n] m) r ↔ RunsTo place m r := by
  rw [runsTo_iff, runsTo_iff]
  constructor
  · rintro ⟨k, hk, halted⟩
    rw [← Function.iterate_add_apply] at hk
    exact ⟨k + n, hk, halted⟩
  · rintro ⟨k, hk, halted⟩
    refine ⟨k, ?_, halted⟩
    rw [← Function.iterate_add_apply, Nat.add_comm, Function.iterate_add_apply, hk,
      Function.iterate_fixed (step_of_halted halted)]

theorem runsTo_of_halted_iff {r : Machine} (h : m.halted = true) : RunsTo place m r ↔ r = m := by
  rw [runsTo_iff]
  constructor
  · rintro ⟨n, hn, -⟩
    rw [← hn, Function.iterate_fixed (step_of_halted h)]
  · rintro rfl
    exact ⟨0, rfl, h⟩

/-- A failed machine gives up all its frames. -/
theorem exists_iterate_failed (place : UseId → Place) (e : Failure) (frames : List Frame) (scope depth : Nat)
    (store : Store) (sink : Sink) :
    ∃ n, ((step place)^[n] ⟨.failed e, frames, scope, depth, store, sink⟩).frames = [] ∧
      ((step place)^[n] ⟨.failed e, frames, scope, depth, store, sink⟩).control = .failed e ∧
      ((step place)^[n] ⟨.failed e, frames, scope, depth, store, sink⟩).sink = sink := by
  induction frames generalizing scope depth with
  | nil => exact ⟨0, rfl, rfl, rfl⟩
  | cons f rest ih =>
    have next : ∃ scope' depth', step place ⟨.failed e, f :: rest, scope, depth, store, sink⟩ =
        ⟨.failed e, rest, scope', depth', store, sink⟩ := by
      show ∃ scope' depth', unwind _ e f = _
      unfold unwind
      split
      all_goals exact ⟨_, _, rfl⟩
    obtain ⟨scope', depth', next⟩ := next
    obtain ⟨n, h⟩ := ih scope' depth'
    refine ⟨n + 1, ?_⟩
    rw [Function.iterate_succ_apply, next]
    exact h

theorem halted_of_failed {e : Failure} (hf : m.frames = []) (hc : m.control = .failed e) : m.halted = true := by
  unfold halted
  rw [hf, hc]

/-! ## Outcomes -/

/-- The machine on which a program starts. -/
def start (sink : Sink) (statements : List Stmt) : Machine := (initial sink).load statements

/-- What a program has printed on a machine that has halted, and how it has ended. -/
def outcome (m : Machine) : Outcome :=
  match m.verdict with
  | none => ⟨m.sink.written, .success⟩
  | some e => ⟨m.sink.written, .failed e⟩

/-- The outcome of a program is that of the machine it has run on. -/
theorem runStatements_eq (place : UseId → Place) (fuel : Nat) (statements : List Stmt) (sink : Sink) :
    runStatements place fuel statements sink = (run place fuel (start sink statements)).map outcome := by
  unfold runStatements interpret
  rw [Option.map_map]
  congr 1
  funext m
  rw [Function.comp_apply]
  unfold outcome
  cases m.verdict <;> rfl

theorem runStatements_eq_some_iff {place : UseId → Place} {fuel : Nat} {sink : Sink} {o : Outcome} :
    runStatements place fuel statements sink = some o ↔
      ((step place)^[fuel] (start sink statements)).halted = true ∧
        ((step place)^[fuel] (start sink statements)).outcome = o := by
  rw [runStatements_eq, Option.map_eq_some_iff]
  constructor
  · rintro ⟨m, hm, rfl⟩
    obtain ⟨rfl, halted⟩ := run_eq_some_iff.1 hm
    exact ⟨halted, rfl⟩
  · rintro ⟨halted, rfl⟩
    exact ⟨_, run_eq_some_iff.2 ⟨rfl, halted⟩, rfl⟩

theorem outcome_congr {m m' : Machine} (control : m'.control = m.control) (sink : m'.sink = m.sink) :
    m'.outcome = m.outcome := by
  have failure : m'.failure? = m.failure? := by rw [failure?, failure?, control]
  rw [outcome, outcome, verdict, verdict, failure, sink]

/-- A machine that has nothing left to do stays as it is. -/
theorem outcome_iterate {place : UseId → Place} {n k : Nat} (hn : ((step place)^[n] m).halted = true)
    (hk : ((step place)^[k] m).halted = true) : ((step place)^[n] m).outcome = ((step place)^[k] m).outcome := by
  rcases Nat.le_total n k with le | le
  · rw [iterate_eq_of_stop (·.halted = true) (fun _ => step_of_halted) hn le]
  · rw [iterate_eq_of_stop (·.halted = true) (fun _ => step_of_halted) hk le]

end Machine

end Lox
