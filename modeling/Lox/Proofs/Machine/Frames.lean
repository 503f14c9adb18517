/-
What a running program keeps true of its frames. The part that is running owes something to the frame on top,
the value of an expression or the end of a statement (`Demand`), and each frame in turn owes something to the
one below. Every frame that runs on in the program has a stop where its part of the program stands, and the
scope that will be current then is one in which that part can run.
-/
import Lox.Machine.Step
import Lox.Proofs.Machine.Growth

namespace Lox

/-- What a frame waits for. -/
inductive Demand
  | value
  /-- The end of a statement in this kind of code, with the scopes that are open after it. -/
  | ending (body : Body) (scopes : List Declarations)

/-- The end of the statement at a stop. -/
def Stop.ending (x : Stop) : Demand := .ending x.around.body x.after.scopes

/-- Whether the expression is evaluated at the stop: it stands there, or it is the superclass of the class that
is declared there, whose name is not bound yet. -/
def Stop.Evaluates (x : Stop) (e : Expr) : Prop :=
  x.code = .expr e ∨ ∃ name methods, x.code = .stmt (.classDecl name (some e) methods)

/-- What is no name of a class is evaluated where it stands. -/
theorem Stop.Evaluates.code_eq {x : Stop} {e : Expr} {table : Table} (h : x.Evaluates e) (checked : x.Checked table)
    (he : ∀ id name, e ≠ .ref id name) : x.code = .expr e := by
  refine h.resolve_right ?_
  rintro ⟨cls, rs, hc⟩
  obtain ⟨id, name, same, -⟩ := checked.namesClass hc
  exact he id name same

/-- A failure for which there was no reason to look before the run. -/
def Failure.Possible : Failure → Prop
  | .runtime e => e.fault ≠ .superOutsideClass ∧ ∀ lexeme, e.fault ≠ .unknownOperator lexeme
  | .sink _ => True

namespace World

section

variable (statements : List Stmt) (w : World)

/-- `Takes d id f d' id'` says that the frame `f` takes what `d` demands when the scope `id` is current, and that
afterwards it owes what `d'` demands, with `id'` as the current scope. -/
inductive Takes : Demand → ScopeId → Frame → Demand → ScopeId → Prop
  | discard {id x e} (place : At statements w id x) (code : x.code = .stmt (.expression e)) :
    Takes .value id .discard x.ending id
  | print {id x e} (place : At statements w id x) (code : x.code = .stmt (.print e)) :
    Takes .value id .print x.ending id
  | define {id x name e} (place : At statements w id x) (code : x.code = .stmt (.varDecl name (some e))) :
    Takes .value id (.define name) x.ending id
  | choose {id x condition yes no} (place : At statements w id x)
      (code : x.code = .stmt (.ifElse condition yes no)) :
    Takes .value id (.choose yes no) x.ending id
  | test {id x condition body} (place : At statements w id x) (code : x.code = .stmt (.whileDo condition body)) :
    Takes .value id (.test condition body) x.ending id
  | giveBack {id x keyword e} (place : At statements w id x) (code : x.code = .stmt (.ret keyword (some e))) :
    Takes .value id .giveBack x.ending id
  | inherit {id x name superclass methods} (place : At statements w id x)
      (code : x.code = .stmt (.classDecl name (some superclass) methods)) :
    Takes .value id (.inherit name superclass methods) x.ending id
  | unary {id x operator e} (place : At statements w id x) (code : x.code = .expr (.unary operator e)) :
    Takes .value id (.unary operator) .value id
  | left {id x operator l r} (place : At statements w id x) (code : x.code = .expr (.binary operator l r)) :
    Takes .value id (.left operator r) .value id
  | right {id x operator l r v} (place : At statements w id x) (code : x.code = .expr (.binary operator l r)) :
    Takes .value id (.right operator v) .value id
  | logical {id x operator l r} (place : At statements w id x) (code : x.code = .expr (.logical operator l r)) :
    Takes .value id (.logical operator r) .value id
  | assign {id x use name e} (place : At statements w id x) (code : x.code = .expr (.assign use name e)) :
    Takes .value id (.assign use name) .value id
  | callee {id x f paren arguments} (place : At statements w id x)
      (code : x.code = .expr (.call f paren arguments)) :
    Takes .value id (.callee paren arguments) .value id
  | argument {id x e rest paren callee values} (place : At statements w id x) (code : x.code = .exprs (e :: rest))
      (holds : Holds statements w callee) (given : ∀ v ∈ values, Holds statements w v) :
    Takes .value id (.argument paren callee values rest) .value id
  | property {id name} : Takes .value id (.property name) .value id
  | target {id x o name e} (place : At statements w id x) (code : x.code = .expr (.set o name e)) :
    Takes .value id (.target name e) .value id
  | store {id object name} : Takes .value id (.store object name) .value id
  | construct {id object} : Takes .value id (.construct object) .value id
  | leave {id} : Takes .value id .leave .value id
  | sequence {id x rest} (visits : Visits statements x) (planned : w.plan[id]? = some x.whole)
      (code : x.code = .stmts rest) :
    Takes (.ending x.around.body x.walk.scopes) id (.sequence rest) x.ending id
  | again {id x condition body scopes} (place : At statements w id x)
      (code : x.code = .stmt (.whileDo condition body)) :
    Takes (.ending x.around.body scopes) id (.again condition body) x.ending id
  | leaveScope {id outer x body scopes} (place : At statements w outer x) (code : x.code = .stmt (.block body)) :
    Takes (.ending x.around.body scopes) id (.leaveScope outer) x.ending outer
  | body {id c x scopes caller} (callable : Callable statements w c x) :
    Takes (.ending x.around.body scopes) id (.body c caller) .value caller

/-- Whether the frames fit one on the other, and the first takes what is demanded. -/
inductive Stacked : Demand → ScopeId → List Frame → Prop
  | nil : Stacked (.ending .top []) Store.globalScope []
  | cons {d id f d' id' frames} (takes : Takes statements w d id f d' id') (below : Stacked d' id' frames) :
    Stacked d id (f :: frames)

/-- Whether a completion is one with which a statement can end: what it declares is ready, or it stands in a
routine and gives back a value, which in an initializer is none. -/
def Ends (body : Body) (scopes : List Declarations) (id : ScopeId) : Completion → Prop
  | .normal => w.store.Ready id scopes
  | .returned v => Holds statements w v ∧ body ≠ .top ∧ (body = .initializer → v = .nil)

/-- Whether what a machine does will give what is demanded. -/
def Gives (d : Demand) (id : ScopeId) : Control → Prop
  | .exec s => ∃ x, At statements w id x ∧ x.code = .stmt s ∧ d = x.ending
  | .eval e => d = .value ∧ ∃ x, At statements w id x ∧ x.Evaluates e
  | .value v => d = .value ∧ Holds statements w v
  | .finished c => ∃ body scopes, d = .ending body scopes ∧ Ends statements w body scopes id c
  | .failed e => e.Possible

end

variable {statements : List Stmt} {w w' : World}

theorem Stacked.top {d : Demand} {id : ScopeId} {f : Frame} {frames : List Frame}
    (h : Stacked statements w d id (f :: frames)) :
    ∃ d' id', Takes statements w d id f d' id' ∧ Stacked statements w d' id' frames := by
  cases h with
  | cons takes below => exact ⟨_, _, takes, below⟩

/-- The value of an assignment is awaited in the scopes of the assignment. -/
theorem Takes.at_assign {d d' : Demand} {id id' : ScopeId} {use : UseId} {name : Token}
    (h : Takes statements w d id (.assign use name) d' id') :
    ∃ x e, At statements w id x ∧ x.code = .expr (.assign use name e) := by
  cases h with
  | assign place code => exact ⟨_, _, place, code⟩

theorem Grows.takes (h : Grows w w') {d d' : Demand} {id id' : ScopeId} {f : Frame}
    (ht : Takes statements w d id f d' id') : Takes statements w' d id f d' id' := by
  cases ht with
  | discard p c => exact .discard (h.at p) c
  | print p c => exact .print (h.at p) c
  | define p c => exact .define (h.at p) c
  | choose p c => exact .choose (h.at p) c
  | test p c => exact .test (h.at p) c
  | giveBack p c => exact .giveBack (h.at p) c
  | inherit p c => exact .inherit (h.at p) c
  | unary p c => exact .unary (h.at p) c
  | left p c => exact .left (h.at p) c
  | right p c => exact .right (h.at p) c
  | logical p c => exact .logical (h.at p) c
  | assign p c => exact .assign (h.at p) c
  | callee p c => exact .callee (h.at p) c
  | argument p c holds given => exact .argument (h.at p) c (h.holds holds) fun v hv => h.holds (given v hv)
  | property => exact .property
  | target p c => exact .target (h.at p) c
  | store => exact .store
  | construct => exact .construct
  | leave => exact .leave
  | sequence v p c => exact .sequence v (h.plan _ _ p) c
  | again p c => exact .again (h.at p) c
  | leaveScope p c => exact .leaveScope (h.at p) c
  | body c => exact .body (h.callable c)

theorem Grows.stacked (h : Grows w w') {d : Demand} {id : ScopeId} {frames : List Frame}
    (hs : Stacked statements w d id frames) : Stacked statements w' d id frames := by
  induction hs with
  | nil => exact .nil
  | cons takes _ ih => exact .cons (h.takes takes) ih

end World

namespace Machine

/-- A machine whose frames wait for what is demanded. -/
structure Owes (statements : List Stmt) (plan : List (List Declarations)) (d : Demand) (m : Machine) : Prop where
  sound : World.Sound statements ⟨plan, m.store⟩
  stacked : World.Stacked statements ⟨plan, m.store⟩ d m.scope m.frames

/-- A machine that does what its frames wait for. -/
def Conforms (statements : List Stmt) (m : Machine) : Prop :=
  ∃ plan d, Owes statements plan d m ∧ World.Gives statements ⟨plan, m.store⟩ d m.scope m.control

end Machine

end Lox
