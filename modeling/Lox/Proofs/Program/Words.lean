/-
A program that is accepted declares and assigns no variable under one of the words of classes. So what `this` and `super`
stand for in a scope, they stand for as long as the program runs (`Program.writes_after`), and a function that was bound to
an instance remains bound to it.
-/
import Lox.Proofs.Machine.Nested
import Lox.Proofs.Program.Rooted
import Lox.Proofs.Super.Births

namespace Lox

/-! ## Steps -/

namespace Machine.Conforms

variable {statements : List Stmt} {table : Table} {m : Machine}

/-- What is declared in a step can be the name of a variable. -/
theorem nameable_declaring (resolved : Resolved statements table) (h : m.Conforms statements) {n : String}
    (hn : n ∈ m.declaring) : Nameable n := by
  obtain ⟨control, frames, scope, depth, store, sink⟩ := m
  obtain ⟨plan, d, ⟨-, stacked⟩, gives⟩ := h
  cases control with
  | exec s =>
    obtain ⟨x, place, hc, -⟩ := gives
    exact resolved.nameable place.visits hc hn
  | value v =>
    cases frames with
    | nil => cases hn
    | cons frame frames =>
      obtain ⟨d', id', takes, -⟩ := stacked.top
      cases takes with
      | define place hc | inherit place hc => exact resolved.nameable place.visits hc hn
      | _ => cases hn
  | eval _ | finished _ | failed _ => cases hn

/-- What is assigned in a step as well. -/
theorem nameable_assigning (resolved : Resolved statements table) (h : m.Conforms statements) {use : UseId}
    {name : Token} {v : Value} (assigning : m.assigning? = some (use, name, v)) : Nameable name.lexeme := by
  obtain ⟨-, rest, frames⟩ := assigning?_eq assigning
  obtain ⟨plan, d, ⟨-, stacked⟩, -⟩ := h
  rw [frames] at stacked
  obtain ⟨d', id', takes, -⟩ := stacked.top
  obtain ⟨x, e, place, hc⟩ := takes.at_assign
  have formed := (resolved.checked place.visits).formed
  rw [hc] at formed
  exact formed.1

theorem writes_step (resolved : Resolved statements table) (h : m.Conforms statements)
    (inside : m.scope < m.store.scopes.size) : m.store.Writes (fun _ n => Nameable n) (m.step table.place).store :=
  (goes_step_of inside (fun _ => h.nameable_declaring resolved)
    fun _ _ _ _ assigning _ => h.nameable_assigning resolved assigning).writes

end Machine.Conforms

/-! ## Runs -/

/-- Whatever an accepted program does, the words of classes stand for what they stood for. -/
theorem Program.writes_after {source : String} {program : Program} (accepted : Program.ofSource source = .ok program)
    (sink : Sink) {i j : Nat} (le : i ≤ j) :
    (program.after sink i).store.Writes (fun _ n => Nameable n) (program.after sink j).store := by
  induction le with
  | refl => exact .refl _
  | @step j _ ih =>
    rw [Nat.succ_eq_add_one, after_succ]
    have conforms := program.conforms_after accepted sink j
    exact ih.trans (conforms.writes_step (resolved_of_ofSource accepted) (program.grounded_after sink j).scope)

/-! ## Functions that are bound -/

namespace Store

/-- Whether a function is an initializer that is bound to an instance. -/
def Initializes (s : Store) (f : Closure) (object : InstanceId) : Prop :=
  f.initializer = true ∧ s.valueIn? f.scope thisName = some (.object object)

variable {s s' : Store} {f : Closure} {object : InstanceId}

/-- A method that is bound to an instance has `this` in the scope around it. -/
theorem initializes_boundTo (h : f.initializer = true) :
    (s.boundTo f object).1.Initializes (s.boundTo f object).2 object := by
  refine ⟨h, ?_⟩
  show (s.addScope _).valueIn? s.nextScope thisName = _
  rw [valueIn?_addScope, if_pos rfl, Bindings.get?_set, if_pos rfl]

theorem Initializes.later (h : s.Initializes f object) (writes : s.Writes (fun _ n => Nameable n) s') :
    s'.Initializes f object := by
  have inside : f.scope < s.scopes.size := lt_size_of_binds ((binds_iff _ _ _).2 ⟨_, h.2⟩)
  exact ⟨h.1, (writes.value _ inside _ not_nameable_this).trans h.2⟩

/-- However its body ends, the call of an initializer gives the instance to which it is bound. -/
theorem Initializes.bodyValue (h : s.Initializes f object) (c : Completion) :
    Machine.bodyValue s f c = .object object := by
  unfold Machine.bodyValue
  rw [if_pos h.1, h.2]
  rfl

end Store

end Lox
