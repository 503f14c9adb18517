/-
A running program does not look at lines: without the lines in what it runs, in its functions and in its frames, a
machine takes the same steps (`step_lineless`).
-/
import Lox.Machine.Step
import Lox.Proofs.Lines.Tree

namespace Lox

/-! ## The store -/

/-- A function whose code has its tokens on no line. -/
def Closure.lineless (closure : Closure) : Closure := { closure with routine := routineLineless closure.routine }

theorem Closure.arity_lineless (closure : Closure) : closure.lineless.arity = closure.arity := by
  rw [arity, lineless, parameters_routineLineless, List.length_map, arity]

namespace Store

/-- A store in whose functions all tokens are on no line. -/
def lineless (s : Store) : Store := { s with closures := s.closures.map Closure.lineless }

variable (s : Store) (id : ScopeId) (name : String)

theorem getElem?_closures_lineless (id : ClosureId) :
    s.lineless.closures[id]? = s.closures[id]?.map Closure.lineless :=
  Array.getElem?_map

theorem nextClosure_lineless : s.lineless.nextClosure = s.nextClosure := Array.size_map

theorem addClosure_lineless (closure : Closure) :
    s.lineless.addClosure closure.lineless = (s.addClosure closure).lineless := by
  simp [addClosure, lineless]

/-! ### Looking up -/

theorem ancestor?_lineless (n : Nat) : s.lineless.ancestor? id n = s.ancestor? id n := by
  induction n generalizing id with
  | zero => rfl
  | succ n ih =>
    have parent : s.lineless.parent? id = s.parent? id := rfl
    simp only [ancestor?, parent, ih]

theorem holderFrom?_lineless (fuel : Nat) : s.lineless.holderFrom? name fuel id = s.holderFrom? name fuel id := by
  induction fuel generalizing id with
  | zero => rfl
  | succ fuel ih =>
    have parent : s.lineless.parent? id = s.parent? id := rfl
    have binds : s.lineless.binds id name = s.binds id name := rfl
    have above : s.lineless.holderFrom? name fuel = s.holderFrom? name fuel := funext ih
    simp only [holderFrom?, parent, binds, above]

theorem target?_lineless (place : Place) : s.lineless.target? id place name = s.target? id place name := by
  cases place with
  | hops n =>
    have binds : (s.lineless.binds · name) = (s.binds · name) := rfl
    simp only [target?, ancestor?_lineless, binds]
  | globals | nearest => exact holderFrom?_lineless s _ name _

theorem read?_lineless (place : Place) : s.lineless.read? id place name = s.read? id place name := by
  have value : (s.lineless.valueIn? · name) = (s.valueIn? · name) := rfl
  rw [read?, target?_lineless, value, read?]

theorem write?_lineless (place : Place) (v : Value) :
    s.lineless.write? id place name v = (s.write? id place name v).map lineless := by
  unfold write?
  rw [target?_lineless]
  cases s.target? id place name <;> rfl

theorem findMethodFrom?_lineless (fuel : Nat) (id : ClassId) :
    s.lineless.findMethodFrom? name fuel id = s.findMethodFrom? name fuel id := by
  induction fuel generalizing id with
  | zero => rfl
  | succ fuel ih =>
    have classes : s.lineless.classes = s.classes := rfl
    have above : s.lineless.findMethodFrom? name fuel = s.findMethodFrom? name fuel := funext ih
    simp only [findMethodFrom?, classes, above]

theorem findMethod?_lineless (id : ClassId) : s.lineless.findMethod? id name = s.findMethod? id name :=
  s.findMethodFrom?_lineless name _ id

theorem initializer_lineless (id : ClassId) :
    (s.lineless.findInitializer? id).bind (s.lineless.closures[·]?) =
      ((s.findInitializer? id).bind (s.closures[·]?)).map Closure.lineless := by
  have found : s.lineless.findInitializer? id = s.findInitializer? id := s.findMethod?_lineless initializerName id
  rw [found]
  cases s.findInitializer? id with
  | none => rfl
  | some method => exact s.getElem?_closures_lineless method

theorem classArity_lineless (id : ClassId) : s.lineless.classArity id = s.classArity id := by
  unfold classArity
  rw [initializer_lineless]
  cases (s.findInitializer? id).bind (s.closures[·]?) with
  | none => rfl
  | some closure => exact closure.arity_lineless

/-- The text of a value has no line in it. -/
theorem display_lineless (v : Value) : s.lineless.display v = s.display v := by
  cases v with
  | closure id =>
    simp only [display, getElem?_closures_lineless]
    cases s.closures[id]? with
    | none => rfl
    | some closure =>
      have lexeme : closure.lineless.routine.name.lexeme = closure.routine.name.lexeme :=
        lexeme_routineLineless closure.routine
      simp only [Option.map_some, lexeme]
  | nil | bool _ | number _ | string _ | cls _ | object _ => rfl

end Store

/-! ## Machines -/

/-- What stopped a program, without its line. -/
def Failure.lineless : Failure → Failure
  | runtime e => runtime { e with site := e.site.lineless }
  | sink fault => sink fault

/-- What a machine does just now, with its tokens on no line. -/
def Control.lineless : Control → Control
  | exec s => exec s.lineless
  | eval e => eval e.lineless
  | value v => value v
  | finished c => finished c
  | failed e => failed e.lineless

/-- A frame with its tokens on no line. -/
def Frame.lineless : Frame → Frame
  | .discard => .discard
  | .print => .print
  | .define name => .define name.lineless
  | .choose yes no => .choose yes.lineless (no.map Stmt.lineless)
  | .test condition inner => .test condition.lineless inner.lineless
  | .giveBack => .giveBack
  | .inherit name superclass methods => .inherit name.lineless superclass.lineless (methodsLineless methods)
  | .unary operator => .unary operator.lineless
  | .left operator e => .left operator.lineless e.lineless
  | .right operator v => .right operator.lineless v
  | .logical operator e => .logical operator.lineless e.lineless
  | .assign id name => .assign id name.lineless
  | .callee paren arguments => .callee paren.lineless (Expr.linelessAll arguments)
  | .argument paren function values arguments => .argument paren.lineless function values (Expr.linelessAll arguments)
  | .property name => .property name.lineless
  | .target name e => .target name.lineless e.lineless
  | .store object name => .store object name.lineless
  | .construct object => .construct object
  | .leave => .leave
  | .sequence rest => .sequence (Stmt.linelessAll rest)
  | .again condition inner => .again condition.lineless inner.lineless
  | .leaveScope outer => .leaveScope outer
  | .body closure caller => .body closure.lineless caller

namespace Machine

/-- A machine with its tokens on no line. -/
def lineless (m : Machine) : Machine :=
  { m with control := m.control.lineless, frames := m.frames.map Frame.lineless, store := m.store.lineless }

variable (m : Machine)

/-! ### Small moves -/

theorem giveResult_lineless (result : Except RuntimeFault Value) (site : Token) :
    m.lineless.giveResult result site.lineless = (m.giveResult result site).lineless := by
  cases result <;> rfl

theorem giveVariable_lineless (place : Place) (name : Token) :
    m.lineless.giveVariable place name.lineless = (m.giveVariable place name).lineless := by
  have read : m.lineless.store.read? m.lineless.scope place name.lineless.lexeme =
      m.store.read? m.scope place name.lexeme := m.store.read?_lineless m.scope name.lexeme place
  unfold giveVariable
  rw [read]
  split <;> rfl

theorem assignVariable_lineless (place : Place) (name : Token) (v : Value) :
    m.lineless.assignVariable place name.lineless v = (m.assignVariable place name v).lineless := by
  have written : m.lineless.store.write? m.lineless.scope place name.lineless.lexeme v =
      (m.store.write? m.scope place name.lexeme v).map Store.lineless :=
    m.store.write?_lineless m.scope name.lexeme place v
  unfold assignVariable
  rw [written]
  cases m.store.write? m.scope place name.lexeme v <;> rfl

theorem printValue_lineless (v : Value) : m.lineless.printValue v = (m.printValue v).lineless := by
  have text : m.lineless.store.display v = m.store.display v := m.store.display_lineless v
  have sink : m.lineless.sink = m.sink := rfl
  simp only [printValue, text, sink]
  split <;> rfl

theorem declareRoutine_lineless (routine : Routine Stmt) :
    m.lineless.declareRoutine (routineLineless routine) = (m.declareRoutine routine).lineless := by
  have added : m.lineless.store.addClosure ⟨routineLineless routine, m.lineless.scope, false⟩ =
      (m.store.addClosure ⟨routine, m.scope, false⟩).lineless := m.store.addClosure_lineless ⟨routine, m.scope, false⟩
  have next : m.lineless.store.nextClosure = m.store.nextClosure := m.store.nextClosure_lineless
  simp only [declareRoutine, added, next, lexeme_routineLineless]
  rfl

theorem branch_lineless (condition : Value) (yes : Stmt) (no : Option Stmt) :
    m.lineless.branch condition yes.lineless (no.map Stmt.lineless) = (m.branch condition yes no).lineless := by
  unfold branch
  split
  · rfl
  · cases no <;> rfl

/-! ### Classes -/

theorem addMethods_lineless (scope : ScopeId) (methods : List (Routine Stmt)) (s : Store) :
    addMethods scope (methodsLineless methods) s.lineless =
      ((addMethods scope methods s).1.lineless, (addMethods scope methods s).2) := by
  induction methods generalizing s with
  | nil => rfl
  | cons r rest ih =>
    have added := s.addClosure_lineless ⟨r, scope, r.isInitializer⟩
    unfold Closure.lineless at added
    simp only [methodsLineless, addMethods, isInitializer_routineLineless, added, ih, s.nextClosure_lineless,
      lexeme_routineLineless]

theorem methodScope_lineless (scope : ScopeId) (superclass : Option ClassId) (s : Store) :
    methodScope scope superclass s.lineless =
      ((methodScope scope superclass s).1.lineless, (methodScope scope superclass s).2) := by
  cases superclass <;> rfl

theorem declareClass_lineless (name : Token) (superclass : Option ClassId) (methods : List (Routine Stmt)) :
    m.lineless.declareClass name.lineless superclass (methodsLineless methods) =
      (m.declareClass name superclass methods).lineless := by
  have bound : m.lineless.store.define m.scope name.lexeme .nil =
      (m.store.define m.scope name.lexeme .nil).lineless := rfl
  have scope : m.lineless.scope = m.scope := rfl
  have lexeme : name.lineless.lexeme = name.lexeme := rfl
  have classes (s : Store) : s.lineless.nextClass = s.nextClass := rfl
  have added (s : Store) (cls : Class) : s.lineless.addClass cls = (s.addClass cls).lineless := rfl
  simp only [declareClass, bound, scope, lexeme, methodScope_lineless, addMethods_lineless, classes, added,
    Store.write?_lineless]
  generalize Store.write? _ _ _ _ _ = written
  cases written <;> rfl

/-! ### Calls and properties -/

theorem parameterBindings_lineless (parameters : List Token) (arguments : List Value) :
    parameterBindings (parameters.map Token.lineless) arguments = parameterBindings parameters arguments := by
  rw [parameterBindings, List.zipWith_map_left]
  rfl

theorem enter_lineless (closure : Closure) (arguments : List Value) :
    m.lineless.enter closure.lineless arguments = (m.enter closure arguments).lineless := by
  have parameters : closure.lineless.routine.parameters = closure.routine.parameters.map Token.lineless :=
    parameters_routineLineless closure.routine
  have body : closure.lineless.routine.body = Stmt.linelessAll closure.routine.body :=
    body_routineLineless closure.routine
  simp only [enter, parameters, body, parameterBindings_lineless]
  rfl

theorem construct_lineless (cls : ClassId) (arguments : List Value) :
    m.lineless.construct cls arguments = (m.construct cls arguments).lineless := by
  have initializer : (m.lineless.store.findInitializer? cls).bind (m.lineless.store.closures[·]?) =
      ((m.store.findInitializer? cls).bind (m.store.closures[·]?)).map Closure.lineless :=
    m.store.initializer_lineless cls
  simp only [construct, initializer]
  cases (m.store.findInitializer? cls).bind (m.store.closures[·]?) with
  | none => rfl
  | some closure =>
    let bound := (m.store.addInstance ⟨cls, .empty⟩).boundTo closure m.store.nextInstance
    exact enter_lineless { m with store := bound.1, frames := .construct m.store.nextInstance :: m.frames } bound.2
      arguments

theorem guardCall_lineless (paren : Token) (arity given : Nat) {run run' : Machine → Machine}
    (h : run' m.activate.lineless = (run m.activate).lineless) :
    m.lineless.guardCall paren.lineless arity given run' = (m.guardCall paren arity given run).lineless := by
  have active : m.lineless.activate = m.activate.lineless := rfl
  have depth : m.lineless.depth = m.depth := rfl
  simp only [guardCall, active, depth, h]
  split
  · rfl
  · split <;> rfl

theorem call_lineless (paren : Token) (callee : Value) (arguments : List Value) :
    m.lineless.call paren.lineless callee arguments = (m.call paren callee arguments).lineless := by
  cases callee with
  | closure id =>
    have found : m.lineless.store.closures[id]? = m.store.closures[id]?.map Closure.lineless :=
      m.store.getElem?_closures_lineless id
    simp only [call, found]
    cases m.store.closures[id]? with
    | none => rfl
    | some closure =>
      simp only [Option.map_some, closure.arity_lineless]
      exact m.guardCall_lineless paren _ _ (m.activate.enter_lineless closure arguments)
  | cls id =>
    have arity : m.lineless.store.classArity id = m.store.classArity id := m.store.classArity_lineless id
    simp only [call, arity]
    exact m.guardCall_lineless paren _ _ (m.activate.construct_lineless id arguments)
  | nil | bool _ | number _ | string _ | object _ => rfl

theorem nextArgument_lineless (paren : Token) (callee : Value) (values : List Value) (arguments : List Expr) :
    m.lineless.nextArgument paren.lineless callee values (Expr.linelessAll arguments) =
      (m.nextArgument paren callee values arguments).lineless := by
  cases arguments with
  | nil => exact m.call_lineless paren callee values.reverse
  | cons e rest => rfl

theorem giveMethod_lineless (method : ClosureId) (object : InstanceId) (name : Token) :
    m.lineless.giveMethod method object name.lineless = (m.giveMethod method object name).lineless := by
  have found : m.lineless.store.closures[method]? = m.store.closures[method]?.map Closure.lineless :=
    m.store.getElem?_closures_lineless method
  simp only [giveMethod, found]
  cases m.store.closures[method]? with
  | none => rfl
  | some closure =>
    have bound : m.lineless.store.boundTo closure.lineless object =
        ((m.store.boundTo closure object).1.lineless, (m.store.boundTo closure object).2.lineless) := rfl
    simp only [Option.map_some, bound, Store.addClosure_lineless, Store.nextClosure_lineless]
    rfl

theorem giveProperty_lineless (object : InstanceId) (name : Token) :
    m.lineless.giveProperty object name.lineless = (m.giveProperty object name).lineless := by
  have instances : m.lineless.store.instances = m.store.instances := rfl
  have lexeme : name.lineless.lexeme = name.lexeme := rfl
  have found (id : ClassId) : m.lineless.store.findMethod? id name.lexeme = m.store.findMethod? id name.lexeme :=
    m.store.findMethod?_lineless name.lexeme id
  simp only [giveProperty, instances, lexeme, found, giveMethod_lineless]
  split
  · rfl
  · split
    · rfl
    · split <;> rfl

theorem giveSuper_lineless (place : Place) (keyword method : Token) :
    m.lineless.giveSuper place keyword.lineless method.lineless = (m.giveSuper place keyword method).lineless := by
  have parts : m.lineless.superParts? place = m.superParts? place := by
    unfold superParts?
    have read (place : Place) (name : String) :
        m.lineless.store.read? m.lineless.scope place name = m.store.read? m.scope place name :=
      m.store.read?_lineless m.scope name place
    simp only [read]
  have lexeme : method.lineless.lexeme = method.lexeme := rfl
  have found (id : ClassId) : m.lineless.store.findMethod? id method.lexeme = m.store.findMethod? id method.lexeme :=
    m.store.findMethod?_lineless method.lexeme id
  simp only [giveSuper, parts, lexeme, found, giveMethod_lineless]
  split
  · rfl
  · split <;> rfl

/-! ### Steps -/

theorem execute_lineless (s : Stmt) : m.lineless.execute s.lineless = (m.execute s).lineless := by
  cases s with
  | expression _ | print _ | block _ | whileDo _ _ => rfl
  | ifElse condition yes no => cases no <;> rfl
  | varDecl name initial => cases initial <;> rfl
  | ret keyword value => cases value <;> rfl
  | funDecl routine => exact m.declareRoutine_lineless routine
  | classDecl name superclass methods =>
    cases superclass with
    | none => exact m.declareClass_lineless name none methods
    | some e => rfl

variable (place : UseId → Place)

theorem evaluate_lineless (e : Expr) : m.lineless.evaluate place e.lineless = (m.evaluate place e).lineless := by
  cases e with
  | ref use name => exact m.giveVariable_lineless (place use) name
  | self use keyword => exact m.giveVariable_lineless (place use) keyword
  | super use keyword method => exact m.giveSuper_lineless (place use) keyword method
  | literal _ | group _ | unary _ _ | binary _ _ _ | logical _ _ _ | assign _ _ _ | call _ _ _ | get _ _ | set _ _ _ =>
    rfl

/-- The token at which a superclass is reported that is no class goes to no line with the others. -/
theorem superclassSite_lineless (name : Token) (superclass : Expr) :
    superclassSite name.lineless superclass.lineless = (superclassSite name superclass).lineless := by
  cases superclass <;> rfl

theorem receive_lineless (v : Value) (frame : Frame) :
    m.lineless.receive place v frame.lineless = (m.receive place v frame).lineless := by
  cases frame with
  | print => exact m.printValue_lineless v
  | discard | define _ | giveBack | left _ _ | «store» _ _ | construct _ | leave | sequence _ | again _ _ | leaveScope _
  | body _ _ => rfl
  | choose yes no => exact m.branch_lineless v yes no
  | test condition body =>
    simp only [Frame.lineless, receive]
    split <;> rfl
  | inherit name superclass methods =>
    cases v with
    | cls id => exact m.declareClass_lineless name (some id) methods
    | nil | bool _ | number _ | string _ | closure _ | object _ =>
      simp only [Frame.lineless, receive, superclassSite_lineless]
      rfl
  | unary operator => exact m.giveResult_lineless _ operator
  | right operator left => exact m.giveResult_lineless _ operator
  | logical operator right =>
    have decides : Operator.decides operator.lineless v = Operator.decides operator v := rfl
    simp only [Frame.lineless, receive, decides]
    split <;> rfl
  | assign use name => exact m.assignVariable_lineless (place use) name v
  | callee paren arguments => exact m.nextArgument_lineless paren v [] arguments
  | argument paren callee values arguments => exact m.nextArgument_lineless paren callee (v :: values) arguments
  | property name =>
    cases v with
    | object id => exact m.giveProperty_lineless id name
    | nil | bool _ | number _ | string _ | closure _ | cls _ => rfl
  | target name value => cases v <;> rfl

theorem resume_lineless (c : Completion) (frame : Frame) :
    m.lineless.resume c frame.lineless = (m.resume c frame).lineless := by
  cases frame with
  | sequence rest => cases c <;> cases rest <;> rfl
  | again condition body => cases c <;> rfl
  | _ => rfl

theorem unwind_lineless (e : Failure) (frame : Frame) :
    m.lineless.unwind e.lineless frame.lineless = (m.unwind e frame).lineless := by
  cases frame <;> rfl

/-- Without lines a machine takes the same steps. -/
theorem step_lineless : m.lineless.step place = (m.step place).lineless := by
  obtain ⟨control, frames, scope, depth, store, sink⟩ := m
  cases control with
  | exec s => exact execute_lineless ⟨.exec s, frames, scope, depth, store, sink⟩ s
  | eval e => exact evaluate_lineless ⟨.eval e, frames, scope, depth, store, sink⟩ place e
  | value v =>
    cases frames with
    | nil => rfl
    | cons frame rest => exact receive_lineless ⟨.value v, rest, scope, depth, store, sink⟩ place v frame
  | finished c =>
    cases frames with
    | nil => rfl
    | cons frame rest => exact resume_lineless ⟨.finished c, rest, scope, depth, store, sink⟩ c frame
  | failed e =>
    cases frames with
    | nil => rfl
    | cons frame rest => exact unwind_lineless ⟨.failed e, rest, scope, depth, store, sink⟩ e frame

end Machine

end Lox
