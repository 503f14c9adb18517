/-
The body of a function stays under way until it ends: its frame stays where it is, with whatever is done above it. If less
is left to do than when the body began, then it has ended in between, once, and the frames below have been given
the value of the call or the failure of the body (`exists_end_of_enter`).
-/
import Lox.Proofs.Machine.Active
import Lox.Proofs.Machine.Caller
import Mathlib.Data.Nat.Find

namespace Lox

theorem Caller.Stacked.suffix {caller : Caller} {d : Awaited} {scope : ScopeId} {depth : Nat} {frames : List Frame}
    (h : caller.Stacked d scope depth frames) : caller.frames <:+ frames := by
  induction h with
  | nil => exact List.suffix_refl _
  | cons takes below ih => exact ih.trans (List.suffix_cons _ _)

namespace Machine

variable {place : UseId → Place} {m r : Machine} {caller : Caller} {closure : Closure} {frames : List Frame} {n : Nat}

/-- Whether a machine has a value or a failure for its first frame. -/
def Answers (m : Machine) : Prop := (∃ v, m.control = .value v) ∨ ∃ e, m.control = .failed e

theorem Answers.hasResult (h : m.Answers) : m.hasResult = true := by
  unfold Machine.hasResult
  obtain ⟨v, control⟩ | ⟨e, control⟩ := h
  · rw [control]
  · rw [control]

/-! ## Coming back -/

/-- Who has fewer frames than the caller of a run must have come by the caller. -/
theorem RunsFor.exists_back (h : m.RunsFor caller) (gone : ((step place)^[n] m).frames.length < caller.frames.length) :
    ∃ k < n, ((step place)^[k] m).IsBack caller.frames ∧ ∀ j < k, ¬ ((step place)^[j] m).IsBack caller.frames := by
  have back : ∃ k, k < n ∧ ((step place)^[k] m).IsBack caller.frames := by
    by_contra never
    obtain ⟨d, owed, -⟩ := runsFor_iterate h fun k hk back => never ⟨k, hk, back⟩
    have le : caller.frames.length ≤ ((step place)^[n] m).frames.length := owed.length_le
    omega
  classical
  obtain ⟨lt, first⟩ := Nat.find_spec back
  exact ⟨Nat.find back, lt, first, fun j hj again => Nat.find_min back hj ⟨Nat.lt_trans hj lt, again⟩⟩

/-- As long as a caller waits, its frames stay where they are. -/
theorem RunsFor.suffix (h : m.RunsFor caller) (busy : ∀ k < n, ¬ ((step place)^[k] m).IsBack caller.frames) :
    caller.frames <:+ ((step place)^[n] m).frames := by
  obtain ⟨d, owed, -⟩ := runsFor_iterate h busy
  exact owed.suffix

/-- With as many frames as the caller has left, and a result for them, a call is back. -/
theorem isBack_of_length {call : Token × Value × List Value} (calling : m.calling? = some call)
    (busy : ∀ k < n, ¬ ((step place)^[k] (m.step place)).IsBack m.frames.tail)
    (length : ((step place)^[n] (m.step place)).frames.length = m.frames.tail.length)
    (result : ((step place)^[n] (m.step place)).hasResult = true) :
    ((step place)^[n] (m.step place)).IsBack m.frames.tail := by
  obtain ⟨paren, callee, arguments⟩ := call
  have step : m.step place = m.popped.call paren callee arguments := step_calling calling
  rw [step] at busy length result ⊢
  let caller : Caller := ⟨.value, m.frames.tail, m.scope, m.depth⟩
  have owed : caller.Owed .value m.popped := .nil
  exact ⟨(((runsFor_call owed paren callee arguments).suffix busy).eq_of_length length.symm).symm, result⟩

theorem not_isBack_of_length (h : m.hasResult = true → frames.length < m.frames.length) : ¬ m.IsBack frames :=
  fun back => absurd (congrArg List.length back.1) (Nat.ne_of_gt (h back.2))

/-! ## Ends of bodies -/

/-- The frame of a body that has ended gives the value of the call, and that of one that has failed the failure. -/
theorem step_of_body (back : m.IsBack (.body closure r.scope :: r.frames)) (gives : m.control.Gives (.ending true)) :
    (∃ c, m.step place = { m with control := .value (bodyValue m.store closure c), frames := r.frames, scope := r.scope }) ∨
      ∃ e, m.step place = { m with control := .failed e, frames := r.frames, scope := r.scope } := by
  obtain ⟨control, _, scope, depth, store, sink⟩ := m
  obtain ⟨rfl, done⟩ := back
  cases control with
  | exec _ | eval _ => cases done
  | value _ => cases gives
  | finished c => exact .inl ⟨c, rfl⟩
  | failed e => exact .inr ⟨e, rfl⟩

/-- Until a body has ended its frame stays where it is. Then the frames below get the value of the call, or the body
has failed. -/
theorem exists_end_of_enter (m : Machine) (closure : Closure) (arguments : List Value)
    (gone : ((step place)^[n] (m.enter closure arguments)).frames.length ≤ m.frames.length) :
    ∃ k < n, (∀ j ≤ k, .body closure m.scope :: m.frames <:+ ((step place)^[j] (m.enter closure arguments)).frames) ∧
      ∃ r, r = (step place)^[k] (m.enter closure arguments) ∧ r.frames = .body closure m.scope :: m.frames ∧
        ((∃ c, r.step place = { r with control := .value (bodyValue r.store closure c), frames := m.frames, scope := m.scope }) ∨
          ∃ e, r.step place = { r with control := .failed e, frames := m.frames, scope := m.scope }) := by
  let caller : Caller := ⟨.ending true, .body closure m.scope :: m.frames, m.store.nextScope, m.depth⟩
  have runs : (m.enter closure arguments).RunsFor caller :=
    ⟨.ending true, .cons (.sequence (Stmt.endsAll_true _)) .nil, .inr rfl⟩
  obtain ⟨k, lt, back, busy⟩ := runs.exists_back (Nat.lt_succ_of_le gone)
  have gives := ((runsFor_iterate runs busy).at_caller back.1).2.2
  exact ⟨k, lt, fun j le => runs.suffix fun i hi => busy i (Nat.lt_of_lt_of_le hi le), _, rfl, back.1,
    step_of_body back gives⟩

/-! ## What is below bodies -/

/-- The frame of a call passes on what it is given. -/
theorem step_of_leave (first : m.frames = .leave :: frames) (answers : m.Answers) :
    m.step place = { m with frames, depth := m.depth - 1 } := by
  obtain ⟨control, _, scope, depth, store, sink⟩ := m
  cases first
  rcases answers with ⟨v, rfl⟩ | ⟨e, rfl⟩
  · rfl
  · rfl

/-- The frame of a new instance gives the instance, unless the initializer has failed. -/
theorem step_of_construct {object : InstanceId} (first : m.frames = .construct object :: frames) (answers : m.Answers) :
    (∃ e, m.control = .failed e ∧ m.step place = { m with frames }) ∨
      m.step place = { m with control := .value (.object object), frames } := by
  obtain ⟨control, _, scope, depth, store, sink⟩ := m
  cases first
  rcases answers with ⟨v, rfl⟩ | ⟨e, rfl⟩
  · exact .inr rfl
  · exact .inl ⟨e, rfl, rfl⟩

end Machine

end Lox
