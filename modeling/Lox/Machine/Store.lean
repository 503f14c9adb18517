/-
The store: scopes, functions, classes and instances, each with a number that it keeps. Scopes form chains
from the inside outwards, classes form chains to their superclasses, and both chains lead to smaller
numbers.
-/
import Lox.Binding.Table
import Lox.Bindings
import Lox.Machine.Value

namespace Lox

/-! ## What is stored -/

/-- The variables of a scope and the scope around it. -/
structure Scope where
  parent : Option ScopeId
  bindings : Bindings Value
  deriving Inhabited

/-- A function or method with the scope in which its body's scope is opened. -/
structure Closure where
  routine : Routine Stmt
  scope : ScopeId
  initializer : Bool
  deriving Inhabited

/-- The number of parameters of a function. -/
def Closure.arity (closure : Closure) : Nat := closure.routine.parameters.length

/-- A class. -/
structure Class where
  name : String
  superclass : Option ClassId
  methods : Bindings ClosureId
  deriving Inhabited

/-- An instance of a class. -/
structure Instance where
  cls : ClassId
  fields : Bindings Value
  deriving Inhabited

/-- Everything that outlives the code that made it. -/
structure Store where
  scopes : Array Scope
  closures : Array Closure
  classes : Array Class
  instances : Array Instance
  deriving Inhabited

namespace Store

/-- The store without anything in it. -/
def empty : Store := ⟨#[], #[], #[], #[]⟩

/-! ## Scopes -/

/-- The store with a new scope, whose number is that of scopes before. -/
def addScope (s : Store) (scope : Scope) : Store := { s with scopes := s.scopes.push scope }

/-- The number of the next scope. -/
def nextScope (s : Store) : ScopeId := s.scopes.size

/-- The scope of the global variables, the first of every store that a program runs on. -/
def globalScope : ScopeId := 0

/-- The store on which a program starts: global variables, of which there are none yet. -/
def initial : Store := empty.addScope ⟨none, .empty⟩

/-- The scope around a scope. -/
def parent? (s : Store) (id : ScopeId) : Option ScopeId := s.scopes[id]?.bind (·.parent)

/-- The scope this many steps out. -/
def ancestor? (s : Store) : ScopeId → Nat → Option ScopeId
  | id, 0 => some id
  | id, n + 1 => (s.parent? id).bind fun outer => s.ancestor? outer n

/-- The value of a variable of this very scope. -/
def valueIn? (s : Store) (id : ScopeId) (name : String) : Option Value :=
  s.scopes[id]?.bind (·.bindings.get? name)

/-- Whether a variable belongs to this very scope. -/
def binds (s : Store) (id : ScopeId) (name : String) : Bool := (s.valueIn? id name).isSome

/-- The first of at most `fuel` scopes of a chain that has a variable of the name. -/
def holderFrom? (s : Store) (name : String) : Nat → ScopeId → Option ScopeId
  | 0, _ => none
  | fuel + 1, id =>
    if s.binds id name then some id else (s.parent? id).bind (s.holderFrom? name fuel)

/-- The nearest scope, from `id` outwards, that has a variable of the name. -/
def holder? (s : Store) (id : ScopeId) (name : String) : Option ScopeId :=
  s.holderFrom? name (id + 1) id

/-- Gives a scope a variable, or an old one of that name a new value. -/
def define (s : Store) (id : ScopeId) (name : String) (v : Value) : Store :=
  { s with
    scopes := s.scopes.modify id fun scope => { scope with bindings := scope.bindings.set name v } }

/-! ## Variables by place -/

/-- The scope in which a place finds a variable, seen from the scope `current`. -/
def target? (s : Store) (current : ScopeId) (place : Place) (name : String) : Option ScopeId :=
  match place with
  | .hops distance => (s.ancestor? current distance).filter (s.binds · name)
  | .globals => s.holder? globalScope name
  | .nearest => s.holder? current name

/-- The value of a variable. -/
def read? (s : Store) (current : ScopeId) (place : Place) (name : String) : Option Value :=
  (s.target? current place name).bind (s.valueIn? · name)

/-- Gives a variable a value; there must be such a variable already. -/
def write? (s : Store) (current : ScopeId) (place : Place) (name : String) (v : Value) :
    Option Store :=
  match s.target? current place name with
  | some id => some (s.define id name v)
  | none => none

/-! ## Functions and classes -/

/-- The store with a new function. -/
def addClosure (s : Store) (closure : Closure) : Store := { s with closures := s.closures.push closure }

/-- The number of the next function. -/
def nextClosure (s : Store) : ClosureId := s.closures.size

/-- The store with a new class. -/
def addClass (s : Store) (cls : Class) : Store := { s with classes := s.classes.push cls }

/-- The number of the next class. -/
def nextClass (s : Store) : ClassId := s.classes.size

/-- The method that the first of at most `fuel` classes of a chain has under the name. -/
def findMethodFrom? (s : Store) (name : String) : Nat → ClassId → Option ClosureId
  | 0, _ => none
  | fuel + 1, id =>
    match s.classes[id]? with
    | none => none
    | some cls =>
      match cls.methods.get? name with
      | some method => some method
      | none => cls.superclass.bind (s.findMethodFrom? name fuel)

/-- The method that a class has under the name, its own or else the nearest superclass's. -/
def findMethod? (s : Store) (id : ClassId) (name : String) : Option ClosureId :=
  s.findMethodFrom? name (id + 1) id

/-- The method that sets up the instances of a class. -/
def findInitializer? (s : Store) (id : ClassId) : Option ClosureId :=
  s.findMethod? id initializerName

/-- The number of arguments that a class takes when it is called. -/
def classArity (s : Store) (id : ClassId) : Nat :=
  match (s.findInitializer? id).bind (s.closures[·]?) with
  | some closure => closure.arity
  | none => 0

/-! ## Instances -/

/-- The store with a new instance. -/
def addInstance (s : Store) (instance_ : Instance) : Store :=
  { s with instances := s.instances.push instance_ }

/-- The number of the next instance. -/
def nextInstance (s : Store) : InstanceId := s.instances.size

/-- Gives an instance a field, or an old one of that name a new value. -/
def setField (s : Store) (id : InstanceId) (name : String) (v : Value) : Store :=
  { s with
    instances := s.instances.modify id fun object => { object with fields := object.fields.set name v } }

/-- A method as a function of one instance: the name `this` stands for the instance around its body. -/
def boundTo (s : Store) (method : Closure) (object : InstanceId) : Store × Closure :=
  let scope := s.nextScope
  (s.addScope ⟨some method.scope, Bindings.empty.set thisName (.object object)⟩, { method with scope })

/-! ## Text -/

/-- The name of a class. -/
def className (s : Store) (id : ClassId) : String := (s.classes[id]?.map (·.name)).getD ""

/-- The text of a value, as a program prints it. -/
def display (s : Store) : Value → String
  | .nil => "nil"
  | .bool b => if b then "true" else "false"
  | .number x => Number.display x
  | .string text => text
  | .closure id => "<fn " ++ ((s.closures[id]?.map (·.routine.name.lexeme)).getD "") ++ ">"
  | .cls id => s.className id
  | .object id => ((s.instances[id]?.map (s.className ·.cls)).getD "") ++ " instance"

end Store

end Lox
