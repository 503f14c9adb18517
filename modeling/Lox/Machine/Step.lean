/-
The steps of a running program. A step looks at what is being done and at the first frame, and at nothing
deeper in the stack. Where a variable is found is a parameter: a function gives every use its place.
-/
import Lox.Machine.Operator
import Lox.Machine.State

namespace Lox

/-- The most calls that can be active at once. -/
def callLimit : Nat := 2048

namespace Machine

/-! ## Small moves -/

/-- Goes on with a value. -/
def give (m : Machine) (v : Value) : Machine := { m with control := .value v }

/-- Goes on after a statement. -/
def finish (m : Machine) (c : Completion) : Machine := { m with control := .finished c }

/-- Fails at a token. -/
def fail (m : Machine) (fault : RuntimeFault) (site : Token) : Machine :=
  { m with control := .failed (.runtime ⟨fault, site⟩) }

/-- Starts an expression whose value a frame awaits. -/
def await (m : Machine) (e : Expr) (frame : Frame) : Machine :=
  { m with control := .eval e, frames := frame :: m.frames }

/-- Starts a statement whose end a frame awaits. -/
def perform (m : Machine) (s : Stmt) (frame : Frame) : Machine :=
  { m with control := .exec s, frames := frame :: m.frames }

/-- Goes on with what an operator gives. -/
def giveResult (m : Machine) (result : Except RuntimeFault Value) (site : Token) : Machine :=
  match result with
  | .ok v => m.give v
  | .error fault => m.fail fault site

/-- Gives the current scope a variable. -/
def defineHere (m : Machine) (name : String) (v : Value) : Machine :=
  { m with store := m.store.define m.scope name v }

/-! ## Classes -/

/-- The functions of methods that are declared in a scope, each under its name. -/
def addMethods (scope : ScopeId) (methods : List (Routine Stmt)) (s : Store) :
    Store × List (String × ClosureId) :=
  match methods with
  | [] => (s, [])
  | r :: rest =>
    let id := s.nextClosure
    let (s, entries) := addMethods scope rest (s.addClosure ⟨r, scope, r.isInitializer⟩)
    (s, (r.name.lexeme, id) :: entries)

/-- The scope in which the methods of a class are declared: with a superclass it is a scope that binds `super`. -/
def methodScope (scope : ScopeId) (superclass : Option ClassId) (s : Store) : Store × ScopeId :=
  match superclass with
  | none => (s, scope)
  | some parent => (s.addScope ⟨some scope, Bindings.empty.set superName (.cls parent)⟩, s.nextScope)

/-- Declares a class: its name is bound first, then its methods are made, then the name gets the class. -/
def declareClass (m : Machine) (name : Token) (superclass : Option ClassId)
    (methods : List (Routine Stmt)) : Machine :=
  let store := m.store.define m.scope name.lexeme .nil
  let (store, scope) := methodScope m.scope superclass store
  let (store, entries) := addMethods scope methods store
  let id := store.nextClass
  let store := store.addClass ⟨name.lexeme, superclass, .ofList entries⟩
  match store.write? m.scope .nearest name.lexeme (.cls id) with
  | some store => { m with store }.finish .normal
  | none => m.fail (.undefinedVariable name.lexeme) name

/-- The token at which a superclass that is no class is reported: its name, or else the name of the class. -/
def superclassSite (name : Token) : Expr → Token
  | .ref _ parent => parent
  | _ => name

/-! ## Calls -/

/-- Binds parameters to arguments; of two parameters of one name the later counts. -/
def parameterBindings (parameters : List Token) (arguments : List Value) : Bindings Value :=
  .ofList (parameters.zipWith (fun name v => (name.lexeme, v)) arguments)

/-- Starts the body of a function in a new scope. -/
def enter (m : Machine) (closure : Closure) (arguments : List Value) : Machine :=
  let bindings := parameterBindings closure.routine.parameters arguments
  { m with
    control := .finished .normal
    frames := .sequence closure.routine.body :: .body closure m.scope :: m.frames
    scope := m.store.nextScope
    store := m.store.addScope ⟨some closure.scope, bindings⟩ }

/-- Starts a call that may be made: a call is active from now on. -/
def activate (m : Machine) : Machine := { m with frames := .leave :: m.frames, depth := m.depth + 1 }

/-- Makes a call if the arguments are as many as expected and not too many calls are active. -/
def guardCall (m : Machine) (paren : Token) (arity given : Nat) (run : Machine → Machine) : Machine :=
  if given ≠ arity then m.fail (.wrongArgumentCount arity given) paren
  else if callLimit ≤ m.depth then m.fail .stackOverflow paren
  else run m.activate

/-- Makes an instance of a class and runs the initializer, if the class has one, on it. -/
def construct (m : Machine) (cls : ClassId) (arguments : List Value) : Machine :=
  let object := m.store.nextInstance
  let initializer := (m.store.findInitializer? cls).bind (m.store.closures[·]?)
  let m := { m with store := m.store.addInstance ⟨cls, .empty⟩ }
  match initializer with
  | none => m.give (.object object)
  | some closure =>
    let (store, closure) := m.store.boundTo closure object
    { m with store, frames := .construct object :: m.frames }.enter closure arguments

/-- Calls a value. -/
def call (m : Machine) (paren : Token) (callee : Value) (arguments : List Value) : Machine :=
  match callee with
  | .closure id =>
    match m.store.closures[id]? with
    | some closure => m.guardCall paren closure.arity arguments.length (·.enter closure arguments)
    | none => m.fail .notCallable paren
  | .cls id =>
    m.guardCall paren (m.store.classArity id) arguments.length (·.construct id arguments)
  | _ => m.fail .notCallable paren

/-- Goes on with the next argument of a call, or with the call if all have a value. -/
def nextArgument (m : Machine) (paren : Token) (callee : Value) (values : List Value) :
    List Expr → Machine
  | [] => m.call paren callee values.reverse
  | e :: rest => m.await e (.argument paren callee values rest)

/-- The value of a call whose body has ended: an initializer gives its instance. -/
def bodyValue (s : Store) (closure : Closure) (c : Completion) : Value :=
  if closure.initializer then (s.valueIn? closure.scope thisName).getD .nil
  else
    match c with
    | .returned v => v
    | .normal => .nil

/-! ## Properties -/

/-- Gives a method as a function of one instance. -/
def giveMethod (m : Machine) (method : ClosureId) (object : InstanceId) (name : Token) : Machine :=
  match m.store.closures[method]? with
  | none => m.fail (.undefinedProperty name.lexeme) name
  | some closure =>
    let (store, closure) := m.store.boundTo closure object
    let id := store.nextClosure
    { m with store := store.addClosure closure }.give (.closure id)

/-- Gives the property of an instance: a field, or else a method of its class. -/
def giveProperty (m : Machine) (object : InstanceId) (name : Token) : Machine :=
  match m.store.instances[object]? with
  | none => m.fail .noProperties name
  | some found =>
    match found.fields.get? name.lexeme with
    | some v => m.give v
    | none =>
      match m.store.findMethod? found.cls name.lexeme with
      | some method => m.giveMethod method object name
      | none => m.fail (.undefinedProperty name.lexeme) name

/-- The place in which a method finds `this` if it finds `super` in the given one: one scope further in. -/
def thisPlace : Place → Place
  | .hops distance => .hops (distance - 1)
  | place => place

/-- The superclass and the instance of the method that is running, if the place has them; they are never looked for
among the global variables. -/
def superParts? (m : Machine) (place : Place) : Option (ClassId × InstanceId) :=
  match place with
  | .globals => none
  | place =>
    match m.store.read? m.scope place superName, m.store.read? m.scope (thisPlace place) thisName with
    | some (.cls superclass), some (.object object) => some (superclass, object)
    | _, _ => none

/-- Gives a method of the superclass as a function of the instance whose method is running. -/
def giveSuper (m : Machine) (place : Place) (keyword method : Token) : Machine :=
  match m.superParts? place with
  | none => m.fail .superOutsideClass keyword
  | some (superclass, object) =>
    match m.store.findMethod? superclass method.lexeme with
    | some found => m.giveMethod found object method
    | none => m.fail (.undefinedProperty method.lexeme) method

/-! ## Variables -/

/-- Gives the value of a variable. -/
def giveVariable (m : Machine) (place : Place) (name : Token) : Machine :=
  match m.store.read? m.scope place name.lexeme with
  | some v => m.give v
  | none => m.fail (.undefinedVariable name.lexeme) name

/-- Gives a variable a value, and goes on with that. -/
def assignVariable (m : Machine) (place : Place) (name : Token) (v : Value) : Machine :=
  match m.store.write? m.scope place name.lexeme v with
  | some store => { m with store }.give v
  | none => m.fail (.undefinedVariable name.lexeme) name

/-! ## Statements -/

/-- Prints a value on a line of its own. -/
def printValue (m : Machine) (v : Value) : Machine :=
  let text := m.store.display v ++ "\n"
  let (sink, complete) := m.sink.write text.toUTF8
  let m := { m with sink }
  if complete then m.finish .normal else { m with control := .failed (.sink .full) }

/-- Declares a function in the current scope. -/
def declareRoutine (m : Machine) (routine : Routine Stmt) : Machine :=
  let id := m.store.nextClosure
  let m := { m with store := m.store.addClosure ⟨routine, m.scope, false⟩ }
  (m.defineHere routine.name.lexeme (.closure id)).finish .normal

/-- Opens a scope in the current one and starts statements there. -/
def openBlock (m : Machine) (body : List Stmt) : Machine :=
  { m with
    control := .finished .normal
    frames := .sequence body :: .leaveScope m.scope :: m.frames
    scope := m.store.nextScope
    store := m.store.addScope ⟨some m.scope, .empty⟩ }

/-- Starts a statement. -/
def execute (m : Machine) : Stmt → Machine
  | .expression e => m.await e .discard
  | .print e => m.await e .print
  | .varDecl name none => (m.defineHere name.lexeme .nil).finish .normal
  | .varDecl name (some e) => m.await e (.define name)
  | .block body => m.openBlock body
  | .ifElse condition yes no => m.await condition (.choose yes no)
  | .whileDo condition body => m.await condition (.test condition body)
  | .funDecl routine => m.declareRoutine routine
  | .ret _ none => m.finish (.returned .nil)
  | .ret _ (some e) => m.await e .giveBack
  | .classDecl name none methods => m.declareClass name none methods
  | .classDecl name (some e) methods => m.await e (.inherit name e methods)

/-- Starts an expression. -/
def evaluate (place : UseId → Place) (m : Machine) : Expr → Machine
  | .literal value => m.give (.ofLiteral value)
  | .group inner => { m with control := .eval inner }
  | .unary operator operand => m.await operand (.unary operator)
  | .binary operator left right => m.await left (.left operator right)
  | .logical operator left right => m.await left (.logical operator right)
  | .ref id name => m.giveVariable (place id) name
  | .assign id name value => m.await value (.assign id name)
  | .call callee paren arguments => m.await callee (.callee paren arguments)
  | .get object name => m.await object (.property name)
  | .set object name value => m.await object (.target name value)
  | .self id keyword => m.giveVariable (place id) keyword
  | .super id keyword method => m.giveSuper (place id) keyword method

/-! ## Frames -/

/-- Takes one of two branches. -/
def branch (m : Machine) (condition : Value) (yes : Stmt) (no : Option Stmt) : Machine :=
  if condition.isTruthy then { m with control := .exec yes }
  else
    match no with
    | some s => { m with control := .exec s }
    | none => m.finish .normal

/-- Hands a value to the frame that awaits it, which is on the stack no more. -/
def receive (place : UseId → Place) (m : Machine) (v : Value) : Frame → Machine
  | .discard => m.finish .normal
  | .print => m.printValue v
  | .define name => (m.defineHere name.lexeme v).finish .normal
  | .choose yes no => m.branch v yes no
  | .test condition body =>
    if v.isTruthy then m.perform body (.again condition body) else m.finish .normal
  | .giveBack => m.finish (.returned v)
  | .inherit name superclass methods =>
    match v with
    | .cls id => m.declareClass name (some id) methods
    | _ => m.fail .superclassNotClass (superclassSite name superclass)
  | .unary operator => m.giveResult (Operator.unary operator v) operator
  | .left operator right => m.await right (.right operator v)
  | .right operator left => m.giveResult (Operator.binary operator left v) operator
  | .logical operator right =>
    if Operator.decides operator v then m.give v else { m with control := .eval right }
  | .assign id name => m.assignVariable (place id) name v
  | .callee paren arguments => m.nextArgument paren v [] arguments
  | .argument paren callee values arguments => m.nextArgument paren callee (v :: values) arguments
  | .property name =>
    match v with
    | .object id => m.giveProperty id name
    | _ => m.fail .noProperties name
  | .target name value =>
    match v with
    | .object id => m.await value (.store id name)
    | _ => m.fail .noFields name
  | .store object name => { m with store := m.store.setField object name.lexeme v }.give v
  | .construct object => m.give (.object object)
  | .leave => { m with depth := m.depth - 1 }.give v
  | frame => { m with control := .value v, frames := frame :: m.frames }

/-- Hands the end of a statement to the frame that awaits it, which is on the stack no more. -/
def resume (m : Machine) (c : Completion) : Frame → Machine
  | .sequence rest =>
    match c, rest with
    | .normal, s :: rest => m.perform s (.sequence rest)
    | c, _ => m.finish c
  | .again condition body =>
    match c with
    | .normal => m.await condition (.test condition body)
    | c => m.finish c
  | .leaveScope outer => { m with scope := outer }.finish c
  | .body closure caller => { m with scope := caller }.give (bodyValue m.store closure c)
  | frame => { m with control := .finished c, frames := frame :: m.frames }

/-- Takes a frame off a failed machine, and gives back the scope and the call that the frame stands for. -/
def unwind (m : Machine) (e : Failure) (frame : Frame) : Machine :=
  let m := { m with control := .failed e }
  match frame with
  | .leaveScope outer => { m with scope := outer }
  | .body _ caller => { m with scope := caller }
  | .leave => { m with depth := m.depth - 1 }
  | _ => m

/-! ## Steps and runs -/

/-- One step; a machine with nothing left to do stays as it is. -/
def step (place : UseId → Place) (m : Machine) : Machine :=
  match m with
  | ⟨.exec s, frames, scope, depth, store, sink⟩ =>
    execute ⟨.exec s, frames, scope, depth, store, sink⟩ s
  | ⟨.eval e, frames, scope, depth, store, sink⟩ =>
    evaluate place ⟨.eval e, frames, scope, depth, store, sink⟩ e
  | ⟨control, [], scope, depth, store, sink⟩ => ⟨control, [], scope, depth, store, sink⟩
  | ⟨.value v, frame :: frames, scope, depth, store, sink⟩ =>
    receive place ⟨.value v, frames, scope, depth, store, sink⟩ v frame
  | ⟨.finished c, frame :: frames, scope, depth, store, sink⟩ =>
    resume ⟨.finished c, frames, scope, depth, store, sink⟩ c frame
  | ⟨.failed e, frame :: frames, scope, depth, store, sink⟩ =>
    unwind ⟨.failed e, frames, scope, depth, store, sink⟩ e frame

/-- The machine when it has nothing left to do, if it gets there within `fuel` steps. -/
def run (place : UseId → Place) : Nat → Machine → Option Machine
  | 0, m => if m.halted then some m else none
  | fuel + 1, m => if m.halted then some m else run place fuel (m.step place)

end Machine

end Lox
