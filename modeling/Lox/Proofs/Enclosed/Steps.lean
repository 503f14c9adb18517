/-
A machine in one more scope takes the steps of the machine without it (`step_lift`), if it sends the uses of variables
to the same scopes and the machine without the scope has something left to do.
-/
import Lox.Proofs.Enclosed.Lift
import Lox.Proofs.Program.Run

namespace Lox

namespace Machine

variable {m : Machine} {place place' : UseId → Place}

/-- What a machine needs for a step to be the same in one more scope: a value that it has is awaited, a class is
declared in a scope that is there, and the variables that it looks for are in the same scopes with and without the scope
around everything. The words of classes are found at a distance. -/
structure Liftable (place place' : UseId → Place) (m : Machine) : Prop where
  awaited : ∀ v, m.control = .value v → m.frames ≠ []
  exec : ∀ s, m.control = .exec s → m.scope < m.store.scopes.size
  inherit : ∀ name superclass methods rest, m.frames = .inherit name superclass methods :: rest →
    m.scope < m.store.scopes.size
  ref : ∀ use name, m.control = .eval (.ref use name) →
    m.store.SameTarget m.scope name.lexeme (place use) (place' use)
  self : ∀ use keyword, m.control = .eval (.self use keyword) → ∃ d, place use = .hops d ∧ place' use = .hops d
  super : ∀ use keyword method, m.control = .eval (.super use keyword method) →
    ∃ d, place use = .hops d ∧ place' use = .hops d
  assign : ∀ use name v, m.assigning? = some (use, name, v) →
    m.store.SameTarget m.scope name.lexeme (place use) (place' use)

/-! ## Small moves -/

theorem giveResult_lift (m : Machine) (result : Except RuntimeFault Value) (site : Token) :
    m.lift.giveResult result site = (m.giveResult result site).lift := by
  cases result <;> rfl

theorem defineHere_lift (m : Machine) (name : String) (v : Value) :
    m.lift.defineHere name v = (m.defineHere name v).lift := by
  rw [defineHere, defineHere, lift, lift, Store.define_lift]

theorem giveVariable_lift (m : Machine) {p p' : Place} {name : Token}
    (h : m.store.SameTarget m.scope name.lexeme p p') :
    m.lift.giveVariable p' name = (m.giveVariable p name).lift := by
  have read : m.lift.store.read? m.lift.scope p' name.lexeme = m.store.read? m.scope p name.lexeme := Store.read?_lift h
  rw [giveVariable, giveVariable, read]
  cases m.store.read? m.scope p name.lexeme <;> rfl

theorem assignVariable_lift (m : Machine) {p p' : Place} {name : Token}
    (h : m.store.SameTarget m.scope name.lexeme p p') (v : Value) :
    m.lift.assignVariable p' name v = (m.assignVariable p name v).lift := by
  have written : m.lift.store.write? m.lift.scope p' name.lexeme v =
      (m.store.write? m.scope p name.lexeme v).map Store.lift := Store.write?_lift h v
  rw [assignVariable, assignVariable, written]
  cases m.store.write? m.scope p name.lexeme v <;> rfl

theorem printValue_lift (m : Machine) (v : Value) : m.lift.printValue v = (m.printValue v).lift := by
  have text : m.lift.store.display v = m.store.display v := m.store.display_lift v
  have same : m.lift.sink = m.sink := rfl
  simp only [printValue, text, same]
  split <;> rfl

theorem branch_lift (m : Machine) (condition : Value) (yes : Stmt) (no : Option Stmt) :
    m.lift.branch condition yes no = (m.branch condition yes no).lift := by
  unfold branch
  split
  · rfl
  · cases no <;> rfl

theorem openBlock_lift (m : Machine) (body : List Stmt) : m.lift.openBlock body = (m.openBlock body).lift := by
  simp [openBlock, lift, Store.addScope_lift, Scope.lift, Frame.lift]

theorem declareRoutine_lift (m : Machine) (routine : Routine Stmt) :
    m.lift.declareRoutine routine = (m.declareRoutine routine).lift := by
  simp [declareRoutine, defineHere, finish, lift, Store.addClosure_lift, Store.define_lift, Closure.lift]

/-! ## Calls and methods -/

theorem enter_lift (m : Machine) (closure : Closure) (arguments : List Value) :
    m.lift.enter closure.lift arguments = (m.enter closure arguments).lift := by
  simp [enter, lift, Store.addScope_lift, Scope.lift, Closure.lift, Frame.lift]

theorem construct_lift (m : Machine) (cls : ClassId) (arguments : List Value) :
    m.lift.construct cls arguments = (m.construct cls arguments).lift := by
  have initializer : (m.lift.store.findInitializer? cls).bind (m.lift.store.closures[·]?) =
      ((m.store.findInitializer? cls).bind (m.store.closures[·]?)).map Closure.lift := m.store.initializer_lift cls
  simp only [construct, initializer]
  cases (m.store.findInitializer? cls).bind (m.store.closures[·]?) with
  | none => rfl
  | some closure =>
    have bound := (m.store.addInstance ⟨cls, .empty⟩).boundTo_lift closure m.store.nextInstance
    have added : m.lift.store.addInstance ⟨cls, .empty⟩ = (m.store.addInstance ⟨cls, .empty⟩).lift := rfl
    have object : m.lift.store.nextInstance = m.store.nextInstance := rfl
    simp only [Option.map_some, added, object, bound]
    rw [← enter_lift]
    rfl

theorem guardCall_lift (m : Machine) (paren : Token) (arity given : Nat) {run run' : Machine → Machine}
    (h : run' m.activate.lift = (run m.activate).lift) :
    m.lift.guardCall paren arity given run' = (m.guardCall paren arity given run).lift := by
  have depth : m.lift.depth = m.depth := rfl
  have active : m.lift.activate = m.activate.lift := rfl
  simp only [guardCall, depth, active, h]
  split
  · rfl
  · split <;> rfl

theorem call_lift (m : Machine) (paren : Token) (callee : Value) (arguments : List Value) :
    m.lift.call paren callee arguments = (m.call paren callee arguments).lift := by
  cases callee with
  | closure id =>
    have found : m.lift.store.closures[id]? = m.store.closures[id]?.map Closure.lift :=
      m.store.getElem?_closures_lift id
    simp only [call, found]
    cases m.store.closures[id]? with
    | none => rfl
    | some closure => exact m.guardCall_lift paren _ _ (m.activate.enter_lift closure arguments)
  | cls id =>
    have arity : m.lift.store.classArity id = m.store.classArity id := m.store.classArity_lift id
    simp only [call, arity]
    exact m.guardCall_lift paren _ _ (m.activate.construct_lift id arguments)
  | nil | bool _ | number _ | string _ | object _ => rfl

theorem nextArgument_lift (m : Machine) (paren : Token) (callee : Value) (values : List Value)
    (arguments : List Expr) :
    m.lift.nextArgument paren callee values arguments = (m.nextArgument paren callee values arguments).lift := by
  cases arguments with
  | nil => exact m.call_lift paren callee values.reverse
  | cons e rest => rfl

theorem giveMethod_lift (m : Machine) (method : ClosureId) (object : InstanceId) (name : Token) :
    m.lift.giveMethod method object name = (m.giveMethod method object name).lift := by
  have found : m.lift.store.closures[method]? = m.store.closures[method]?.map Closure.lift :=
    m.store.getElem?_closures_lift method
  simp only [giveMethod, found]
  cases m.store.closures[method]? with
  | none => rfl
  | some closure =>
    have bound : m.lift.store.boundTo closure.lift object = _ := m.store.boundTo_lift closure object
    simp only [Option.map_some, bound, ← Store.addClosure_lift, Store.nextClosure_lift]
    rfl

theorem giveProperty_lift (m : Machine) (object : InstanceId) (name : Token) :
    m.lift.giveProperty object name = (m.giveProperty object name).lift := by
  have objects : m.lift.store.instances = m.store.instances := rfl
  have methods (cls : ClassId) : m.lift.store.findMethod? cls name.lexeme = m.store.findMethod? cls name.lexeme :=
    m.store.findMethod?_lift cls
  simp only [giveProperty, objects, methods, giveMethod_lift]
  split
  · rfl
  · split
    · rfl
    · split <;> rfl

theorem giveSuper_lift (m : Machine) (d : Nat) (keyword method : Token) :
    m.lift.giveSuper (.hops d) keyword method = (m.giveSuper (.hops d) keyword method).lift := by
  have parts : m.lift.superParts? (.hops d) = m.superParts? (.hops d) := by
    have super : m.lift.store.read? m.lift.scope (.hops d) superName = _ := Store.read?_lift (Store.sameTarget_hops d)
    have this : m.lift.store.read? m.lift.scope (.hops (d - 1)) thisName = _ :=
      Store.read?_lift (Store.sameTarget_hops (d - 1))
    simp only [superParts?, thisPlace, super, this]
  have methods (cls : ClassId) : m.lift.store.findMethod? cls method.lexeme = m.store.findMethod? cls method.lexeme :=
    m.store.findMethod?_lift cls
  simp only [giveSuper, parts, methods, giveMethod_lift]
  split
  · rfl
  · split <;> rfl

/-! ## Steps -/

theorem execute_lift (m : Machine) (h : m.scope < m.store.scopes.size) (s : Stmt) :
    m.lift.execute s = (m.execute s).lift := by
  cases s with
  | expression e | print e | ifElse e _ _ | whileDo e _ => rfl
  | varDecl name initial =>
    cases initial with
    | none => exact congrArg (finish · .normal) (m.defineHere_lift name.lexeme .nil)
    | some e => rfl
  | block body => exact m.openBlock_lift body
  | funDecl routine => exact m.declareRoutine_lift routine
  | ret keyword value => cases value <;> rfl
  | classDecl name superclass methods =>
    cases superclass with
    | none => exact (m.declareClass_lift h name none methods).symm
    | some e => rfl

theorem evaluate_lift (e : Expr) (hc : m.control = .eval e) (same : m.Liftable place place') :
    m.lift.evaluate place' e = (m.evaluate place e).lift := by
  cases e with
  | literal _ | group _ | unary _ _ | binary _ _ _ | logical _ _ _ | assign _ _ _ | call _ _ _ | get _ _ | set _ _ _ =>
    rfl
  | ref use name => exact m.giveVariable_lift (same.ref use name hc)
  | self use keyword =>
    obtain ⟨d, hp, hp'⟩ := same.self use keyword hc
    simp only [evaluate, hp, hp']
    exact m.giveVariable_lift (Store.sameTarget_hops d)
  | super use keyword method =>
    obtain ⟨d, hp, hp'⟩ := same.super use keyword method hc
    simp only [evaluate, hp, hp']
    exact m.giveSuper_lift d keyword method

theorem receive_lift (m : Machine) (v : Value) (frame : Frame)
    (inherits : ∀ name superclass methods, frame = .inherit name superclass methods → m.scope < m.store.scopes.size)
    (same : ∀ use name, frame = .assign use name → m.store.SameTarget m.scope name.lexeme (place use) (place' use)) :
    m.lift.receive place' v frame.lift = (m.receive place v frame).lift := by
  cases frame with
  | discard | giveBack | «store» _ _ | construct _ | leave | sequence _ | again _ _ | leaveScope _
  | body _ _ | left _ _ => rfl
  | print => exact m.printValue_lift v
  | define name => exact congrArg (finish · .normal) (m.defineHere_lift name.lexeme v)
  | choose yes no => exact m.branch_lift v yes no
  | test condition body =>
    simp only [Frame.lift, receive]
    split <;> rfl
  | inherit name superclass methods =>
    cases v with
    | cls id => exact (m.declareClass_lift (inherits name superclass methods rfl) name (some id) methods).symm
    | _ => rfl
  | unary operator => exact m.giveResult_lift _ operator
  | right operator left => exact m.giveResult_lift _ operator
  | logical operator right =>
    simp only [Frame.lift, receive]
    split <;> rfl
  | assign use name => exact m.assignVariable_lift (same use name rfl) v
  | callee paren arguments => exact m.nextArgument_lift paren v [] arguments
  | argument paren callee values arguments => exact m.nextArgument_lift paren callee (v :: values) arguments
  | property name =>
    cases v with
    | object id => exact m.giveProperty_lift id name
    | _ => rfl
  | target name value => cases v <;> rfl

theorem resume_lift (m : Machine) (c : Completion) (frame : Frame) :
    m.lift.resume c frame.lift = (m.resume c frame).lift := by
  cases frame with
  | sequence rest => cases c <;> cases rest <;> rfl
  | again condition body => cases c <;> rfl
  | body closure caller =>
    have value : bodyValue m.store.lift closure.lift c = bodyValue m.store closure c := by
      simp [bodyValue, Closure.lift]
    show { m.lift with scope := caller + 1 }.give (bodyValue m.store.lift closure.lift c) = _
    rw [value]
    rfl
  | _ => rfl

theorem unwind_lift (m : Machine) (e : Failure) (frame : Frame) :
    m.lift.unwind e frame.lift = (m.unwind e frame).lift := by
  cases frame <;> rfl

theorem step_lift (m : Machine) (active : m.halted = false) (same : m.Liftable place place') :
    m.lift.step place' = (m.step place).lift := by
  obtain ⟨control, frames, id, depth, store, sink⟩ := m
  cases control with
  | exec s => exact execute_lift ⟨.exec s, frames, id, depth, store, sink⟩ (same.exec s rfl) s
  | eval e => exact evaluate_lift e rfl same
  | value v =>
    cases frames with
    | nil => exact absurd rfl (same.awaited v rfl)
    | cons frame rest =>
      refine receive_lift ⟨.value v, rest, id, depth, store, sink⟩ v frame ?_ ?_
      · rintro name superclass methods rfl
        exact same.inherit name superclass methods rest rfl
      · rintro use name rfl
        exact same.assign use name v rfl
  | finished c =>
    cases frames with
    | nil => cases active
    | cons frame rest => exact resume_lift ⟨.finished c, rest, id, depth, store, sink⟩ c frame
  | failed e =>
    cases frames with
    | nil => cases active
    | cons frame rest => exact unwind_lift ⟨.failed e, rest, id, depth, store, sink⟩ e frame

/-- A machine with nothing left to do leaves the scope around everything, and then has nothing left to do either. -/
theorem halted_lift (h : m.halted = true) (place : UseId → Place) :
    ((step place)^[2] m.lift).halted = true ∧ ((step place)^[2] m.lift).control = m.control ∧
      ((step place)^[2] m.lift).sink = m.sink := by
  obtain ⟨control, frames, id, depth, store, sink⟩ := m
  cases frames with
  | cons f rest => cases control <;> cases h
  | nil =>
    cases control with
    | finished c => cases c <;> exact ⟨rfl, rfl, rfl⟩
    | failed e => exact ⟨rfl, rfl, rfl⟩
    | exec _ | eval _ | value _ => cases h

/-- Statements in a block start as they do on their own, in one more scope. -/
theorem start_block (sink : Sink) (statements : List Stmt) (place : UseId → Place) :
    (step place)^[2] (start sink [.block statements]) = (start sink statements).lift := by
  have store : Store.initial.lift = Store.initial.addScope ⟨some Store.globalScope, .empty⟩ := by
    simp [Store.initial, Store.lift, Store.addScope, Store.empty, Scope.lift]
  rw [lift, show (start sink statements).store = Store.initial from rfl, store]
  rfl

end Machine

end Lox
