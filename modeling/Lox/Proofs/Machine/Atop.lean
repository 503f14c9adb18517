/-
What a step does not look at. Below the frames of a machine there may be others, and its text may go to another sink: as
long as the machine has something to do and does not print, it takes the same steps (`step_atop`). Nothing is taken back
of what was written (`extends_step`).
-/
import Lox.Machine.Step
import Mathlib.Logic.Function.Iterate

namespace Lox

namespace Sink

/-- From a sink to what it is later: bytes may have been added, and nothing else is different. -/
structure Extends (s s' : Sink) : Prop where
  limit : s'.limit = s.limit
  flushes : s'.flushes = s.flushes
  written : ∃ more, s'.written = s.written ++ more

theorem Extends.refl (s : Sink) : Extends s s := ⟨rfl, rfl, .empty, ByteArray.append_empty.symm⟩

theorem Extends.trans {s t u : Sink} (h : Extends s t) (h' : Extends t u) : Extends s u := by
  obtain ⟨more, hm⟩ := h.written
  obtain ⟨more', hm'⟩ := h'.written
  exact ⟨h'.limit.trans h.limit, h'.flushes.trans h.flushes, more ++ more', by rw [hm', hm, ByteArray.append_assoc]⟩

theorem extends_write (s : Sink) (bytes : ByteArray) : s.Extends (s.write bytes).1 := by
  unfold write
  dsimp only
  split
  · exact ⟨rfl, rfl, bytes, rfl⟩
  · exact ⟨rfl, rfl, _, rfl⟩

end Sink

namespace Machine

/-- A machine with more frames below its own, and with another sink. -/
def atop (m : Machine) (base : List Frame) (sink : Sink) : Machine := { m with frames := m.frames ++ base, sink }

/-- The value that is printed in the next step, if one is. -/
def printing? (m : Machine) : Option Value :=
  match m.control, m.frames with
  | .value v, .print :: _ => some v
  | _, _ => none

/-- Whether what a machine does just now has come to its end, so that the first frame goes on with it. -/
def hasResult (m : Machine) : Bool :=
  match m.control with
  | .exec _ | .eval _ => false
  | .value _ | .finished _ | .failed _ => true

/-- Whether a machine has a result for the frames that have waited. -/
def IsBack (frames : List Frame) (m : Machine) : Prop := m.frames = frames ∧ m.hasResult = true

variable (m : Machine) (base : List Frame) (sink : Sink)

@[simp] theorem atop_nil : m.atop [] m.sink = m := by
  rw [atop, List.append_nil]

/-! ## Small moves -/

theorem giveResult_atop (result : Except RuntimeFault Value) (site : Token) :
    (m.atop base sink).giveResult result site = (m.giveResult result site).atop base sink := by
  cases result <;> rfl

theorem giveVariable_atop (place : Place) (name : Token) :
    (m.atop base sink).giveVariable place name = (m.giveVariable place name).atop base sink := by
  simp only [giveVariable, atop]
  split <;> rfl

theorem assignVariable_atop (place : Place) (name : Token) (v : Value) :
    (m.atop base sink).assignVariable place name v = (m.assignVariable place name v).atop base sink := by
  simp only [assignVariable, atop]
  split <;> rfl

theorem declareClass_atop (name : Token) (superclass : Option ClassId) (methods : List (Routine Stmt)) :
    (m.atop base sink).declareClass name superclass methods =
      (m.declareClass name superclass methods).atop base sink := by
  simp only [declareClass, atop]
  split <;> rfl

theorem branch_atop (condition : Value) (yes : Stmt) (no : Option Stmt) :
    (m.atop base sink).branch condition yes no = (m.branch condition yes no).atop base sink := by
  unfold branch
  split
  · rfl
  · cases no <;> rfl

theorem printValue_above (v : Value) :
    (m.atop base m.sink).printValue v = (m.printValue v).atop base (m.printValue v).sink := by
  unfold printValue
  dsimp only [atop]
  split <;> rfl

/-! ## Calls and properties -/

theorem construct_atop (cls : ClassId) (arguments : List Value) :
    (m.atop base sink).construct cls arguments = (m.construct cls arguments).atop base sink := by
  simp only [construct, atop]
  split <;> rfl

theorem guardCall_atop (paren : Token) (arity given : Nat) (run : Machine → Machine)
    (h : run (m.activate.atop base sink) = (run m.activate).atop base sink) :
    (m.atop base sink).guardCall paren arity given run = (m.guardCall paren arity given run).atop base sink := by
  have active : (m.atop base sink).activate = m.activate.atop base sink := rfl
  have depth : (m.atop base sink).depth = m.depth := rfl
  simp only [guardCall, active, depth, h]
  split
  · rfl
  · split <;> rfl

theorem call_atop (paren : Token) (callee : Value) (arguments : List Value) :
    (m.atop base sink).call paren callee arguments = (m.call paren callee arguments).atop base sink := by
  cases callee with
  | closure id =>
    have store : (m.atop base sink).store = m.store := rfl
    simp only [call, store]
    split
    · exact m.guardCall_atop base sink paren _ _ _ rfl
    · rfl
  | cls id =>
    exact m.guardCall_atop base sink paren _ _ (·.construct id arguments)
      (m.activate.construct_atop base sink id arguments)
  | nil | bool _ | number _ | string _ | object _ => rfl

theorem nextArgument_atop (paren : Token) (callee : Value) (values : List Value) (arguments : List Expr) :
    (m.atop base sink).nextArgument paren callee values arguments =
      (m.nextArgument paren callee values arguments).atop base sink := by
  cases arguments with
  | nil => exact m.call_atop base sink paren callee values.reverse
  | cons e rest => rfl

theorem giveMethod_atop (method : ClosureId) (object : InstanceId) (name : Token) :
    (m.atop base sink).giveMethod method object name = (m.giveMethod method object name).atop base sink := by
  simp only [giveMethod, atop]
  split <;> rfl

theorem giveProperty_atop (object : InstanceId) (name : Token) :
    (m.atop base sink).giveProperty object name = (m.giveProperty object name).atop base sink := by
  have store : (m.atop base sink).store = m.store := rfl
  simp only [giveProperty, store, giveMethod_atop]
  split
  · rfl
  · split
    · rfl
    · split <;> rfl

theorem giveSuper_atop (place : Place) (keyword method : Token) :
    (m.atop base sink).giveSuper place keyword method = (m.giveSuper place keyword method).atop base sink := by
  have store : (m.atop base sink).store = m.store := rfl
  have parts : (m.atop base sink).superParts? place = m.superParts? place := rfl
  simp only [giveSuper, parts, store, giveMethod_atop]
  split
  · rfl
  · split <;> rfl

/-! ## Steps -/

theorem execute_atop (s : Stmt) : (m.atop base sink).execute s = (m.execute s).atop base sink := by
  cases s with
  | expression _ | print _ | block _ | ifElse _ _ _ | whileDo _ _ | funDecl _ => rfl
  | varDecl name initial => cases initial <;> rfl
  | ret keyword value => cases value <;> rfl
  | classDecl name superclass methods =>
    cases superclass with
    | none => exact m.declareClass_atop base sink name none methods
    | some e => rfl

variable (place : UseId → Place)

theorem evaluate_atop (e : Expr) : (m.atop base sink).evaluate place e = (m.evaluate place e).atop base sink := by
  cases e with
  | ref use name => exact m.giveVariable_atop base sink (place use) name
  | self use keyword => exact m.giveVariable_atop base sink (place use) keyword
  | super use keyword method => exact m.giveSuper_atop base sink (place use) keyword method
  | literal _ | group _ | unary _ _ | binary _ _ _ | logical _ _ _ | assign _ _ _ | call _ _ _ | get _ _ | set _ _ _ =>
    rfl

theorem receive_atop (v : Value) {frame : Frame} (h : frame ≠ .print) :
    (m.atop base sink).receive place v frame = (m.receive place v frame).atop base sink := by
  cases frame with
  | print => exact absurd rfl h
  | discard | define _ | giveBack | left _ _ | «store» _ _ | construct _ | leave | sequence _ | again _ _ | leaveScope _
  | body _ _ => rfl
  | choose yes no => exact m.branch_atop base sink v yes no
  | test condition body =>
    simp only [receive]
    split <;> rfl
  | inherit name superclass methods =>
    cases v with
    | cls id => exact m.declareClass_atop base sink name (some id) methods
    | nil | bool _ | number _ | string _ | closure _ | object _ => rfl
  | unary operator => exact m.giveResult_atop base sink _ operator
  | right operator left => exact m.giveResult_atop base sink _ operator
  | logical operator right =>
    simp only [receive]
    split <;> rfl
  | assign use name => exact m.assignVariable_atop base sink (place use) name v
  | callee paren arguments => exact m.nextArgument_atop base sink paren v [] arguments
  | argument paren callee values arguments => exact m.nextArgument_atop base sink paren callee (v :: values) arguments
  | property name =>
    cases v with
    | object id => exact m.giveProperty_atop base sink id name
    | nil | bool _ | number _ | string _ | closure _ | cls _ => rfl
  | target name value => cases v <;> rfl

theorem resume_atop (c : Completion) (frame : Frame) :
    (m.atop base sink).resume c frame = (m.resume c frame).atop base sink := by
  cases frame with
  | sequence rest => cases c <;> cases rest <;> rfl
  | again condition body => cases c <;> rfl
  | _ => rfl

theorem unwind_atop (e : Failure) (frame : Frame) :
    (m.atop base sink).unwind e frame = (m.unwind e frame).atop base sink := by
  cases frame <;> rfl

variable {m}

/-- Unless a machine has its result or prints, its step is the same over other frames and with another sink. -/
theorem step_atop (busy : ¬ m.IsBack []) (silent : m.printing? = none) :
    (m.atop base sink).step place = (m.step place).atop base sink := by
  obtain ⟨control, frames, scope, depth, store, out⟩ := m
  cases control with
  | exec s => exact execute_atop ⟨.exec s, frames, scope, depth, store, out⟩ base sink s
  | eval e => exact evaluate_atop ⟨.eval e, frames, scope, depth, store, out⟩ base sink place e
  | value v =>
    cases frames with
    | nil => exact absurd ⟨rfl, rfl⟩ busy
    | cons frame rest =>
      refine receive_atop ⟨.value v, rest, scope, depth, store, out⟩ base sink place v ?_
      rintro rfl
      cases silent
  | finished c =>
    cases frames with
    | nil => exact absurd ⟨rfl, rfl⟩ busy
    | cons frame rest => exact resume_atop ⟨.finished c, rest, scope, depth, store, out⟩ base sink c frame
  | failed e =>
    cases frames with
    | nil => exact absurd ⟨rfl, rfl⟩ busy
    | cons frame rest => exact unwind_atop ⟨.failed e, rest, scope, depth, store, out⟩ base sink e frame

/-- A machine with its result and without frames stays as it is. -/
theorem step_of_isBack (h : m.IsBack []) : m.step place = m := by
  obtain ⟨control, frames, scope, depth, store, out⟩ := m
  obtain ⟨rfl, done⟩ := h
  cases control with
  | exec _ | eval _ => cases done
  | value _ | finished _ | failed _ => rfl

theorem exists_of_printing {v : Value} (h : m.printing? = some v) :
    ∃ rest, m = ⟨.value v, .print :: rest, m.scope, m.depth, m.store, m.sink⟩ := by
  obtain ⟨control, frames, scope, depth, store, out⟩ := m
  unfold printing? at h
  split at h
  · next hc hf =>
    cases h
    cases hc
    cases hf
    exact ⟨_, rfl⟩
  · cases h

/-! ## What is written -/

/-- Only printing writes to the sink. -/
theorem sink_step (silent : m.printing? = none) : (m.step place).sink = m.sink := by
  by_cases back : m.IsBack []
  · rw [step_of_isBack place back]
  · have same := step_atop [] m.sink place back silent
    rw [atop_nil] at same
    rw [same]
    rfl

/-- Over other frames, and with the sink that it has, a machine takes the same steps until it has its result. -/
theorem step_above (busy : ¬ m.IsBack []) :
    (m.atop base m.sink).step place = (m.step place).atop base (m.step place).sink := by
  cases printing : m.printing? with
  | none => rw [step_atop base m.sink place busy printing, sink_step place printing]
  | some v =>
    obtain ⟨rest, hm⟩ := exists_of_printing printing
    rw [hm]
    exact printValue_above ⟨.value v, rest, m.scope, m.depth, m.store, m.sink⟩ base v

theorem iterate_above {n : Nat} (busy : ∀ k < n, ¬ ((step place)^[k] m).IsBack []) :
    (step place)^[n] (m.atop base m.sink) = ((step place)^[n] m).atop base ((step place)^[n] m).sink := by
  induction n with
  | zero => rfl
  | succ n ih =>
    have along := ih fun k hk => busy k (Nat.lt_succ_of_lt hk)
    rw [Function.iterate_succ_apply', Function.iterate_succ_apply', along]
    exact step_above base place (busy n (Nat.lt_succ_self n))

theorem step_of_printing {v : Value} (h : m.printing? = some v) :
    ∃ rest, m.step place = { m with control := .value v, frames := rest }.printValue v := by
  obtain ⟨rest, hm⟩ := exists_of_printing h
  refine ⟨rest, ?_⟩
  rw [hm]
  rfl

/-- A step adds to what was written, or leaves it as it is. -/
theorem extends_step (m : Machine) : m.sink.Extends (m.step place).sink := by
  cases h : m.printing? with
  | none =>
    rw [sink_step place h]
    exact .refl _
  | some v =>
    obtain ⟨rest, hs⟩ := step_of_printing place h
    rw [hs]
    unfold printValue
    dsimp only
    split
    all_goals exact m.sink.extends_write _

theorem extends_iterate (m : Machine) (n : Nat) : m.sink.Extends ((step place)^[n] m).sink := by
  induction n with
  | zero => exact .refl _
  | succ n ih =>
    rw [Function.iterate_succ_apply']
    exact ih.trans (extends_step place _)

end Machine

end Lox
