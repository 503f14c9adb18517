/-
Every part of a program runs for a caller, who waits in the frames below for a value or for the end of a statement. A
part leaves its scopes and ends its calls before the caller goes on, whether it succeeds, returns or fails: each frame
that opens a scope or a call has what is current after it, and every step keeps that in order (`runsFor_step`).
-/
import Lox.Proofs.Machine.Atop
import Lox.Proofs.Tree.Ends

namespace Lox

/-- What is awaited of a part of a program. -/
inductive Awaited
  | value
  /-- The end of a statement, which may be a return only if `returns` says so. -/
  | ending (returns : Bool)

/-! ## Frames -/

/-- The scope that is current when a frame is off the stack, if this one was before. -/
def Frame.outer (id : ScopeId) : Frame → ScopeId
  | .leaveScope before => before
  | .body _ caller => caller
  | _ => id

/-- How many calls are active when a frame is off the stack, if these were before. -/
def Frame.release (depth : Nat) : Frame → Nat
  | .leave => depth - 1
  | _ => depth

/-- `Takes d f d'` says that the frame `f` takes what `d` awaits, and that afterwards it gives what `d'` awaits. -/
inductive Frame.Takes : Awaited → Frame → Awaited → Prop
  | discard {b} : Takes .value .discard (.ending b)
  | print {b} : Takes .value .print (.ending b)
  | define {b name} : Takes .value (.define name) (.ending b)
  | choose {b yes no} (hy : yes.Ends b) (hn : ∀ s ∈ no, s.Ends b) : Takes .value (.choose yes no) (.ending b)
  | test {b condition body} (h : body.Ends b) : Takes .value (.test condition body) (.ending b)
  | giveBack : Takes .value .giveBack (.ending true)
  | inherit {b name superclass methods} : Takes .value (.inherit name superclass methods) (.ending b)
  | unary {operator} : Takes .value (.unary operator) .value
  | left {operator e} : Takes .value (.left operator e) .value
  | right {operator v} : Takes .value (.right operator v) .value
  | logical {operator e} : Takes .value (.logical operator e) .value
  | assign {use name} : Takes .value (.assign use name) .value
  | callee {paren arguments} : Takes .value (.callee paren arguments) .value
  | argument {paren callee values arguments} : Takes .value (.argument paren callee values arguments) .value
  | property {name} : Takes .value (.property name) .value
  | target {name e} : Takes .value (.target name e) .value
  | store {object name} : Takes .value (.store object name) .value
  | construct {object} : Takes .value (.construct object) .value
  | leave : Takes .value .leave .value
  | sequence {b rest} (h : Stmt.EndsAll b rest) : Takes (.ending b) (.sequence rest) (.ending b)
  | again {b condition body} (h : body.Ends b) : Takes (.ending b) (.again condition body) (.ending b)
  | leaveScope {b outer} : Takes (.ending b) (.leaveScope outer) (.ending b)
  | body {closure caller} : Takes (.ending true) (.body closure caller) .value

/-- Whether what a machine does gives what is awaited. -/
def Control.Gives : Awaited → Control → Prop
  | .value, .eval _ | .value, .value _ => True
  | .ending returns, .exec s => s.Ends returns
  | .ending returns, .finished c => returns = true ∨ c = .normal
  | _, .failed _ => True
  | _, _ => False

/-! ## Callers -/

/-- One for whom a part of a program runs: what is awaited, the frames that go on with it, and the scope and the number
of active calls, which are to be current then. -/
structure Caller where
  awaited : Awaited
  frames : List Frame
  scope : ScopeId
  depth : Nat

/-- Whether frames lead back to a caller: each takes what the one above it gives, and gives back its scope or call. -/
inductive Caller.Stacked (caller : Caller) : Awaited → ScopeId → Nat → List Frame → Prop
  | nil : Stacked caller caller.awaited caller.scope caller.depth caller.frames
  | cons {d f d' scope depth frames} (takes : f.Takes d d')
    (below : Stacked caller d' (f.outer scope) (f.release depth) frames) : Stacked caller d scope depth (f :: frames)

theorem Caller.Stacked.length_le {caller : Caller} {d : Awaited} {scope : ScopeId} {depth : Nat} {frames : List Frame}
    (h : caller.Stacked d scope depth frames) : caller.frames.length ≤ frames.length := by
  induction h with
  | nil => exact Nat.le_refl _
  | cons takes below ih => exact Nat.le_succ_of_le ih

/-- Above the frames of the caller there is a first one that takes what is owed. -/
theorem Caller.Stacked.at_or_above {caller : Caller} {d : Awaited} {scope : ScopeId} {depth : Nat} {frames : List Frame}
    (h : caller.Stacked d scope depth frames) :
    frames = caller.frames ∨
      ∃ f rest d', frames = f :: rest ∧ f.Takes d d' ∧ caller.Stacked d' (f.outer scope) (f.release depth) rest := by
  cases h with
  | nil => exact .inl rfl
  | cons takes below => exact .inr ⟨_, _, _, rfl, takes, below⟩

/-- On the frames of the caller nothing else is left to do. -/
theorem Caller.Stacked.at_caller {caller : Caller} {d : Awaited} {scope : ScopeId} {depth : Nat}
    (h : caller.Stacked d scope depth caller.frames) :
    d = caller.awaited ∧ scope = caller.scope ∧ depth = caller.depth := by
  obtain ⟨awaited, frames, outer, calls⟩ := caller
  generalize hf : (Caller.mk awaited frames outer calls).frames = here at h
  cases h with
  | nil => exact ⟨rfl, rfl, rfl⟩
  | cons takes below =>
    -- with a frame above those of the caller there would be one more than there are
    have le := below.length_le
    rw [hf, List.length_cons] at le
    omega

/-- Whether something is owed to the frames of a machine, and they lead back to a caller. -/
def Caller.Owed (caller : Caller) (d : Awaited) (m : Machine) : Prop := caller.Stacked d m.scope m.depth m.frames

namespace Machine

/-- Whether a machine runs for a caller, and gives what is owed. -/
def RunsFor (caller : Caller) (m : Machine) : Prop := ∃ d, caller.Owed d m ∧ m.control.Gives d

variable {caller : Caller} {m : Machine} {d : Awaited} {b : Bool}

/-! ## Small moves -/

theorem runsFor_give (owes : caller.Owed .value m) (v : Value) : (m.give v).RunsFor caller := ⟨.value, owes, trivial⟩

theorem runsFor_finish (owes : caller.Owed (.ending b) m) {c : Completion} (h : b = true ∨ c = .normal) :
    (m.finish c).RunsFor caller :=
  ⟨.ending b, owes, h⟩

theorem runsFor_failed (owes : caller.Owed d m) (e : Failure) : { m with control := .failed e }.RunsFor caller := by
  refine ⟨d, owes, ?_⟩
  cases d <;> trivial

theorem runsFor_fail (owes : caller.Owed d m) (fault : RuntimeFault) (site : Token) :
    (m.fail fault site).RunsFor caller :=
  runsFor_failed owes _

theorem runsFor_eval (owes : caller.Owed .value m) (e : Expr) : { m with control := .eval e }.RunsFor caller :=
  ⟨.value, owes, trivial⟩

theorem runsFor_exec (owes : caller.Owed (.ending b) m) {s : Stmt} (h : s.Ends b) :
    { m with control := .exec s }.RunsFor caller :=
  ⟨.ending b, owes, h⟩

theorem runsFor_await {f : Frame} (takes : f.Takes .value d)
    (owes : caller.Stacked d (f.outer m.scope) (f.release m.depth) m.frames) (e : Expr) :
    (m.await e f).RunsFor caller :=
  ⟨.value, .cons takes owes, trivial⟩

theorem runsFor_perform {f : Frame} (takes : f.Takes (.ending b) d)
    (owes : caller.Stacked d (f.outer m.scope) (f.release m.depth) m.frames) {s : Stmt} (h : s.Ends b) :
    (m.perform s f).RunsFor caller :=
  ⟨.ending b, .cons takes owes, h⟩

theorem runsFor_giveResult (owes : caller.Owed .value m) (result : Except RuntimeFault Value) (site : Token) :
    (m.giveResult result site).RunsFor caller := by
  cases result with
  | ok v => exact runsFor_give owes v
  | error fault => exact runsFor_fail owes fault site

theorem runsFor_giveVariable (owes : caller.Owed .value m) (place : Place) (name : Token) :
    (m.giveVariable place name).RunsFor caller := by
  unfold giveVariable
  split
  · exact runsFor_give owes _
  · exact runsFor_fail owes _ _

theorem runsFor_assignVariable (owes : caller.Owed .value m) (place : Place) (name : Token) (v : Value) :
    (m.assignVariable place name v).RunsFor caller := by
  unfold assignVariable
  split
  · exact ⟨.value, owes, trivial⟩
  · exact runsFor_fail owes _ _

theorem runsFor_declareClass (owes : caller.Owed (.ending b) m) (name : Token) (superclass : Option ClassId)
    (methods : List (Routine Stmt)) : (m.declareClass name superclass methods).RunsFor caller := by
  unfold declareClass
  dsimp only
  split
  · exact ⟨.ending b, owes, .inr rfl⟩
  · exact runsFor_fail owes _ _

theorem runsFor_printValue (owes : caller.Owed (.ending b) m) (v : Value) : (m.printValue v).RunsFor caller := by
  unfold printValue
  dsimp only
  split
  · exact ⟨.ending b, owes, .inr rfl⟩
  · exact ⟨.ending b, owes, trivial⟩

theorem runsFor_branch (owes : caller.Owed (.ending b) m) (condition : Value) {yes : Stmt} {no : Option Stmt}
    (hy : yes.Ends b) (hn : ∀ s ∈ no, s.Ends b) : (m.branch condition yes no).RunsFor caller := by
  unfold branch
  split
  · exact runsFor_exec owes hy
  · cases no with
    | none => exact runsFor_finish owes (.inr rfl)
    | some s => exact runsFor_exec owes (hn s rfl)

/-! ## Scopes and calls -/

/-- A block has a frame below its statements that goes back to the scope around it. -/
theorem runsFor_openBlock (owes : caller.Owed (.ending b) m) {body : List Stmt} (h : Stmt.EndsAll b body) :
    (m.openBlock body).RunsFor caller :=
  ⟨.ending b, .cons (.sequence h) (.cons .leaveScope owes), .inr rfl⟩

/-- The body of a function has a frame below it that goes back to the scope of the call. -/
theorem runsFor_enter (owes : caller.Owed .value m) (closure : Closure) (arguments : List Value) :
    (m.enter closure arguments).RunsFor caller :=
  ⟨.ending true, .cons (.sequence (Stmt.endsAll_true _)) (.cons .body owes), .inr rfl⟩

theorem runsFor_construct (owes : caller.Owed .value m) (cls : ClassId) (arguments : List Value) :
    (m.construct cls arguments).RunsFor caller := by
  unfold construct
  dsimp only
  split
  · exact ⟨.value, owes, trivial⟩
  · exact ⟨.ending true, .cons (.sequence (Stmt.endsAll_true _)) (.cons .body (.cons .construct owes)), .inr rfl⟩

/-- A call that is active has a frame that ends it. -/
theorem owed_activate (owes : caller.Owed .value m) : caller.Owed .value m.activate := .cons .leave owes

theorem runsFor_guardCall (owes : caller.Owed .value m) (paren : Token) (arity given : Nat) {run : Machine → Machine}
    (h : (run m.activate).RunsFor caller) : (m.guardCall paren arity given run).RunsFor caller := by
  unfold guardCall
  split
  · exact runsFor_fail owes _ _
  · split
    · exact runsFor_fail owes _ _
    · exact h

theorem runsFor_call (owes : caller.Owed .value m) (paren : Token) (callee : Value) (arguments : List Value) :
    (m.call paren callee arguments).RunsFor caller := by
  cases callee with
  | closure id =>
    unfold call
    dsimp only
    split
    · exact runsFor_guardCall owes _ _ _ (runsFor_enter (owed_activate owes) _ _)
    · exact runsFor_fail owes _ _
  | cls id => exact runsFor_guardCall owes _ _ _ (runsFor_construct (owed_activate owes) _ _)
  | nil | bool _ | number _ | string _ | object _ => exact runsFor_fail owes _ _

theorem runsFor_nextArgument (owes : caller.Owed .value m) (paren : Token) (callee : Value) (values : List Value)
    (arguments : List Expr) : (m.nextArgument paren callee values arguments).RunsFor caller := by
  cases arguments with
  | nil => exact runsFor_call owes _ _ _
  | cons e rest => exact runsFor_await .argument owes e

/-! ## Properties -/

theorem runsFor_giveMethod (owes : caller.Owed .value m) (method : ClosureId) (object : InstanceId) (name : Token) :
    (m.giveMethod method object name).RunsFor caller := by
  unfold giveMethod
  split
  · exact runsFor_fail owes _ _
  · exact ⟨.value, owes, trivial⟩

theorem runsFor_giveProperty (owes : caller.Owed .value m) (object : InstanceId) (name : Token) :
    (m.giveProperty object name).RunsFor caller := by
  unfold giveProperty
  split
  · exact runsFor_fail owes _ _
  · split
    · exact runsFor_give owes _
    · split
      · exact runsFor_giveMethod owes _ _ _
      · exact runsFor_fail owes _ _

theorem runsFor_giveSuper (owes : caller.Owed .value m) (place : Place) (keyword method : Token) :
    (m.giveSuper place keyword method).RunsFor caller := by
  unfold giveSuper
  split
  · exact runsFor_fail owes _ _
  · split
    · exact runsFor_giveMethod owes _ _ _
    · exact runsFor_fail owes _ _

/-! ## Steps -/

theorem runsFor_execute (owes : caller.Owed (.ending b) m) {s : Stmt} (h : s.Ends b) :
    (m.execute s).RunsFor caller := by
  cases s with
  | expression e => exact runsFor_await .discard owes e
  | print e => exact runsFor_await .print owes e
  | varDecl name initial =>
    cases initial with
    | none => exact ⟨.ending b, owes, .inr rfl⟩
    | some e => exact runsFor_await .define owes e
  | block body => exact runsFor_openBlock owes h
  | ifElse condition yes no =>
    cases no with
    | none =>
      have ends : yes.Ends b := h
      exact runsFor_await (.choose ends (by simp)) owes condition
    | some no =>
      obtain ⟨hy, hn⟩ : yes.Ends b ∧ no.Ends b := h
      exact runsFor_await (.choose hy (by simpa using hn)) owes condition
  | whileDo condition body =>
    have ends : body.Ends b := h
    exact runsFor_await (.test ends) owes condition
  | funDecl routine => exact ⟨.ending b, owes, .inr rfl⟩
  | ret keyword value =>
    obtain rfl : b = true := h
    cases value with
    | none => exact runsFor_finish owes (.inl rfl)
    | some e => exact runsFor_await .giveBack owes e
  | classDecl name superclass methods =>
    cases superclass with
    | none => exact runsFor_declareClass owes name none methods
    | some e => exact runsFor_await .inherit owes e

variable (place : UseId → Place)

theorem runsFor_evaluate (owes : caller.Owed .value m) (e : Expr) : (m.evaluate place e).RunsFor caller := by
  cases e with
  | literal value => exact runsFor_give owes _
  | group inner => exact runsFor_eval owes inner
  | unary operator e => exact runsFor_await .unary owes e
  | binary operator l r => exact runsFor_await .left owes l
  | logical operator l r => exact runsFor_await .logical owes l
  | ref use name => exact runsFor_giveVariable owes _ _
  | assign use name e => exact runsFor_await .assign owes e
  | call callee paren arguments => exact runsFor_await .callee owes callee
  | get object name => exact runsFor_await .property owes object
  | set object name e => exact runsFor_await .target owes object
  | self use keyword => exact runsFor_giveVariable owes _ _
  | super use keyword method => exact runsFor_giveSuper owes _ _ _

/-- A frame that takes a value goes on for the same caller. -/
theorem runsFor_receive {frame : Frame} (takes : frame.Takes .value d)
    (owes : caller.Stacked d (frame.outer m.scope) (frame.release m.depth) m.frames) (v : Value) :
    (m.receive place v frame).RunsFor caller := by
  cases takes with
  | discard => exact runsFor_finish owes (.inr rfl)
  | print => exact runsFor_printValue owes v
  | define => exact ⟨_, owes, .inr rfl⟩
  | choose hy hn => exact runsFor_branch owes v hy hn
  | test h =>
    simp only [receive]
    split
    · exact runsFor_perform (.again h) owes h
    · exact runsFor_finish owes (.inr rfl)
  | giveBack => exact runsFor_finish owes (.inl rfl)
  | @inherit _ name superclass methods =>
    cases v with
    | cls id => exact runsFor_declareClass owes name (some id) methods
    | nil | bool _ | number _ | string _ | closure _ | object _ => exact runsFor_fail owes _ _
  | unary | right => exact runsFor_giveResult owes _ _
  | left => exact runsFor_await .right owes _
  | logical =>
    simp only [receive]
    split
    · exact runsFor_give owes v
    · exact runsFor_eval owes _
  | assign => exact runsFor_assignVariable owes _ _ v
  | callee => exact runsFor_nextArgument owes _ v [] _
  | argument => exact runsFor_nextArgument owes _ _ _ _
  | property =>
    cases v with
    | object id => exact runsFor_giveProperty owes id _
    | nil | bool _ | number _ | string _ | closure _ | cls _ => exact runsFor_fail owes _ _
  | target =>
    cases v with
    | object id => exact runsFor_await .store owes _
    | nil | bool _ | number _ | string _ | closure _ | cls _ => exact runsFor_fail owes _ _
  | store | construct | leave => exact ⟨.value, owes, trivial⟩

/-- A frame that takes the end of a statement goes on for the same caller. -/
theorem runsFor_resume {frame : Frame} (takes : frame.Takes (.ending b) d)
    (owes : caller.Stacked d (frame.outer m.scope) (frame.release m.depth) m.frames) {c : Completion}
    (h : b = true ∨ c = .normal) : (m.resume c frame).RunsFor caller := by
  cases takes with
  | @sequence _ rest ends =>
    cases c with
    | returned v => exact runsFor_finish owes h
    | normal =>
      cases rest with
      | nil => exact runsFor_finish owes h
      | cons s rest => exact runsFor_perform (.sequence ends.2) owes ends.1
  | again body =>
    cases c with
    | returned v => exact runsFor_finish owes h
    | normal => exact runsFor_await (.test body) owes _
  | leaveScope => exact ⟨.ending b, owes, h⟩
  | body => exact ⟨.value, owes, trivial⟩

/-- A frame that a failed machine gives up leaves what it should be for the frames below. -/
theorem runsFor_unwind {frame : Frame} (owes : caller.Stacked d (frame.outer m.scope) (frame.release m.depth) m.frames)
    (e : Failure) : (m.unwind e frame).RunsFor caller := by
  have gives : (Control.failed e).Gives d := by cases d <;> trivial
  cases frame
  all_goals exact ⟨d, owes, gives⟩

variable {place}

/-- As long as a caller has not been given what it awaits, a step goes on for it. -/
theorem runsFor_step (h : m.RunsFor caller) (busy : ¬ m.IsBack caller.frames) :
    (m.step place).RunsFor caller := by
  obtain ⟨control, frames, scope, depth, store, sink⟩ := m
  obtain ⟨d, owes, gives⟩ := h
  cases control with
  | exec s =>
    cases d with
    | ending b => exact runsFor_execute owes gives
    | value => cases gives
  | eval e =>
    cases d with
    | value => exact runsFor_evaluate place owes e
    | ending b => cases gives
  | value v =>
    cases d with
    | ending b => cases gives
    | value =>
      -- the caller has no result yet, so there is a frame above it that takes this one
      rcases owes.at_or_above with back | ⟨f, rest, d', rfl, takes, below⟩
      · exact absurd ⟨back, rfl⟩ busy
      · exact runsFor_receive place takes below v
  | finished c =>
    cases d with
    | value => cases gives
    | ending b =>
      rcases owes.at_or_above with back | ⟨f, rest, d', rfl, takes, below⟩
      · exact absurd ⟨back, rfl⟩ busy
      · exact runsFor_resume takes below gives
  | failed e =>
    rcases owes.at_or_above with back | ⟨f, rest, d', rfl, -, below⟩
    · exact absurd ⟨back, rfl⟩ busy
    · exact runsFor_unwind below e

/-- A machine that has a result for its caller is where the caller was. -/
theorem RunsFor.at_caller (h : m.RunsFor caller) (back : m.frames = caller.frames) :
    m.scope = caller.scope ∧ m.depth = caller.depth ∧ m.control.Gives caller.awaited := by
  obtain ⟨d, owes, gives⟩ := h
  unfold Caller.Owed at owes
  rw [back] at owes
  obtain ⟨rfl, scope, depth⟩ := owes.at_caller
  exact ⟨scope, depth, gives⟩

/-- Up to the first moment when a caller is given a result, a machine runs for it. -/
theorem runsFor_iterate (h : m.RunsFor caller) {n : Nat} (busy : ∀ k < n, ¬ ((step place)^[k] m).IsBack caller.frames) :
    ((step place)^[n] m).RunsFor caller := by
  induction n with
  | zero => exact h
  | succ n ih =>
    rw [Function.iterate_succ_apply']
    exact runsFor_step (ih fun k hk => busy k (Nat.lt_succ_of_lt hk)) (busy n (Nat.lt_succ_self n))

end Machine

end Lox
