/-
Runs of programs that are accepted. The machine after so many steps conforms, and where it stands in the program
is a stop of the walk, with the scopes that are planned for the current scope open.
-/
import Lox.Proofs.Grammar.Statement
import Lox.Proofs.Machine.Steps

namespace Lox

/-- The machine after `n` steps of a program. -/
def Program.after (p : Program) (sink : Sink) (n : Nat) : Machine :=
  (Machine.step p.table.place)^[n] (Machine.start sink p.statements)

theorem Program.after_succ (p : Program) (sink : Sink) (n : Nat) :
    p.after sink (n + 1) = (p.after sink n).step p.table.place :=
  Function.iterate_succ_apply' ..

theorem Program.after_add (p : Program) (sink : Sink) (k n : Nat) :
    p.after sink (k + n) = (Machine.step p.table.place)^[n] (p.after sink k) := by
  unfold after
  rw [Nat.add_comm, Function.iterate_add_apply]

/-- The part of the program that starts just now, if one does. -/
def Control.code? : Control → Option Code
  | exec s => some (.stmt s)
  | eval e => some (.expr e)
  | value _ | finished _ | failed _ => none

/-- The number and the name of the use of a variable that is evaluated just now, if one is. -/
def Control.use? : Control → Option (UseId × String)
  | eval e => e.use?
  | exec _ | value _ | finished _ | failed _ => none

/-- The assignment that has just got its value, if one has: the number of the use, the name and the value. -/
def Machine.assigning? (m : Machine) : Option (UseId × Token × Value) :=
  match m.control, m.frames with
  | .value v, .assign use name :: _ => some (use, name, v)
  | _, _ => none

theorem Control.use?_eq {control : Control} {use : UseId} {name : String} (h : control.use? = some (use, name)) :
    ∃ e, control = .eval e ∧ e.use? = some (use, name) := by
  cases control with
  | eval e => exact ⟨e, rfl, h⟩
  | exec _ | value _ | finished _ | failed _ => cases h

theorem Machine.assigning?_eq {m : Machine} {use : UseId} {name : Token} {v : Value}
    (h : m.assigning? = some (use, name, v)) : m.control = .value v ∧ ∃ rest, m.frames = .assign use name :: rest := by
  unfold assigning? at h
  split at h
  · next hc hf =>
    cases h
    exact ⟨hc, _, hf⟩
  · cases h

/-- A text that is accepted as a program with a property. -/
theorem Program.exists_ofSource {source : String} {property : Program → Bool}
    (h : (Program.ofSource source).toOption.any property = true) :
    ∃ program, Program.ofSource source = .ok program ∧ property program = true := by
  cases hs : Program.ofSource source with
  | error _ =>
    rw [hs] at h
    cases h
  | ok program =>
    rw [hs] at h
    exact ⟨program, rfl, h⟩

variable {source : String} {program : Program}

/-- However far an accepted program has run, the machine conforms. -/
theorem Program.conforms_after (accepted : Program.ofSource source = .ok program) (sink : Sink) (n : Nat) :
    (program.after sink n).Conforms program.statements :=
  Machine.conforms_iterate (resolved_of_ofSource accepted) sink n

/-- The superclass of a class has a stop of its own, in the scopes of the class. -/
theorem Stop.Evaluates.exists_stop {statements : List Stmt} {x : Stop} {e : Expr} (h : x.Evaluates e)
    (visits : Visits statements x) : ∃ y, Visits statements y ∧ y.code = .expr e ∧ y.whole = x.whole := by
  rcases h with hc | ⟨name, rs, hc⟩
  · exact ⟨x, visits, hc, rfl⟩
  · obtain ⟨code, a, w, d⟩ := x
    cases hc
    exact ⟨_, visits.part List.mem_cons_self, rfl, rfl⟩

/-- The part of the program that starts has a stop in the scopes that are planned for the current scope. -/
theorem World.Gives.exists_stop {statements : List Stmt} {w : World} {d : Demand} {id : ScopeId} {control : Control}
    (h : Gives statements w d id control) {code : Code} (hc : control.code? = some code) :
    ∃ x, Visits statements x ∧ x.code = code ∧ w.plan[id]? = some x.whole := by
  cases control with
  | exec s =>
    cases hc
    obtain ⟨x, place, hx, -⟩ := h
    exact ⟨x, place.visits, hx, place.planned⟩
  | eval e =>
    cases hc
    obtain ⟨-, x, place, he⟩ := h
    obtain ⟨y, visits, hy, whole⟩ := he.exists_stop place.visits
    exact ⟨y, visits, hy, whole ▸ place.planned⟩
  | value _ | finished _ | failed _ => cases hc

end Lox
