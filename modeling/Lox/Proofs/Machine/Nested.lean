/-
The frames of a machine lead outwards: that of a block goes back to the scope around the current one, and the scope in
which the body of a function runs is in that of the function (`Nested`). Every step keeps this, and of the variables that
there are it writes at most the one that it declares in the current scope, or the one that an assignment finds
(`goes_step_of`).
-/
import Lox.Proofs.Machine.Active
import Lox.Proofs.Machine.Caller
import Lox.Proofs.Machine.NewClass
import Lox.Proofs.Program.Bound
import Lox.Proofs.Store.Writes

namespace Lox

/-! ## Frames -/

/-- Whether a frame goes on in the scope that is current. -/
def Frame.Inner : Frame → Prop
  | .leaveScope _ | .body _ _ => False
  | _ => True

/-- The names that a frame declares in the scope that is current. -/
def Frame.declared : Frame → List String
  | .define name | .inherit name _ _ => [name.lexeme]
  | _ => []

/-- Whether the scope that is current above a frame is in the one that the frame stands for. -/
def Frame.Linked (s : Store) (id : ScopeId) : Frame → Prop
  | .leaveScope outer => s.parent? id = some outer
  | .body closure _ => s.parent? id = some closure.scope
  | _ => True

/-- Whether frames lead outwards from a scope. -/
def Store.Nests (s : Store) : ScopeId → List Frame → Prop
  | _, [] => True
  | id, f :: frames => f.Linked s id ∧ s.Nests (f.outer id) frames

namespace Store

variable {s s' : Store} {id : ScopeId} {f : Frame} {frames : List Frame}

theorem Later.linked (h : s.Later s') (linked : f.Linked s id) : f.Linked s' id := by
  cases f with
  | leaveScope _ | body _ _ => exact h.parent _ _ linked
  | _ => trivial

theorem Later.nests (h : s.Later s') : ∀ {frames : List Frame} {id : ScopeId}, s.Nests id frames → s'.Nests id frames
  | [], _, _ => trivial
  | _ :: _, _, ⟨first, rest⟩ => ⟨h.linked first, h.nests rest⟩

theorem nests_cons (inner : f.Inner) : s.Nests id (f :: frames) ↔ s.Nests id frames := by
  cases f with
  | leaveScope _ | body _ _ => cases inner
  | _ => exact and_iff_right trivial

/-- While a body runs, the scope of its function is around the current one. -/
theorem Nests.exists_ancestor? {closure : Closure} {caller : ScopeId} {below : List Frame} :
    ∀ {above : List Frame} {id : ScopeId}, s.Nests id (above ++ .body closure caller :: below) →
      (∀ f ∈ above, f.isBody = false) → ∃ n, s.ancestor? id (n + 1) = some closure.scope
  | [], _, h, _ => ⟨0, ancestor?_one h.1⟩
  | f :: above, id, ⟨linked, rest⟩, quiet => by
    obtain ⟨own, others⟩ := List.forall_mem_cons.1 quiet
    obtain ⟨n, reach⟩ := Nests.exists_ancestor? rest others
    cases f with
    | leaveScope outer => exact ⟨n + 1, ancestor?_next linked reach⟩
    | body _ _ => cases own
    | _ => exact ⟨n, reach⟩

end Store

namespace Machine

variable {m m' m'' : Machine} {written : ScopeId → String → Prop} {place : UseId → Place}

/-- Whether the frames of a machine lead outwards from the current scope. -/
def Nested (m : Machine) : Prop := m.store.Nests m.scope m.frames

/-- From one machine to a later one: only these variables are written, and the frames lead outwards as before. -/
structure Goes (written : ScopeId → String → Prop) (m m' : Machine) : Prop where
  writes : m.store.Writes written m'.store
  nested : m.Nested → m'.Nested

theorem Goes.trans (h : m.Goes written m') (h' : m'.Goes written m'') : m.Goes written m'' :=
  ⟨h.writes.trans h'.writes, fun nested => h'.nested (h.nested nested)⟩

/-! ## Small moves -/

theorem goes_store (writes : m.store.Writes written m'.store) (scope : m'.scope = m.scope)
    (frames : m'.frames = m.frames) : m.Goes written m' := by
  refine ⟨writes, fun nested => ?_⟩
  unfold Nested
  rw [scope, frames]
  exact writes.nests nested

theorem goes_same (store : m'.store = m.store) (scope : m'.scope = m.scope) (frames : m'.frames = m.frames) :
    m.Goes written m' :=
  goes_store (store ▸ .refl _) scope frames

theorem goes_push {f : Frame} (inner : f.Inner) (store : m'.store = m.store) (scope : m'.scope = m.scope)
    (frames : m'.frames = f :: m.frames) : m.Goes written m' := by
  refine ⟨store ▸ .refl _, fun nested => ?_⟩
  unfold Nested
  rw [store, scope, frames]
  exact (Store.nests_cons inner).2 nested

/-- A frame that goes on in the current scope may be taken off the stack first. -/
theorem goes_pop {f : Frame} (inner : f.Inner) (h : m.Goes written m') :
    { m with frames := f :: m.frames }.Goes written m' :=
  ⟨h.writes, fun nested => h.nested ((Store.nests_cons inner).1 nested)⟩

theorem goes_give (v : Value) : m.Goes written (m.give v) := goes_same rfl rfl rfl

theorem goes_finish (c : Completion) : m.Goes written (m.finish c) := goes_same rfl rfl rfl

theorem goes_fail (fault : RuntimeFault) (site : Token) : m.Goes written (m.fail fault site) := goes_same rfl rfl rfl

theorem goes_await (e : Expr) {f : Frame} (inner : f.Inner) : m.Goes written (m.await e f) := goes_push inner rfl rfl rfl

theorem goes_perform (s : Stmt) {f : Frame} (inner : f.Inner) : m.Goes written (m.perform s f) :=
  goes_push inner rfl rfl rfl

theorem goes_giveResult (result : Except RuntimeFault Value) (site : Token) :
    m.Goes written (m.giveResult result site) := by
  cases result with
  | ok v => exact goes_give v
  | error fault => exact goes_fail fault site

theorem goes_giveVariable (place : Place) (name : Token) : m.Goes written (m.giveVariable place name) := by
  unfold giveVariable
  split
  · exact goes_give _
  · exact goes_fail _ _

theorem goes_assignVariable {place : Place} {name : Token} (v : Value)
    (there : ∀ id, m.store.target? m.scope place name.lexeme = some id → written id name.lexeme) :
    m.Goes written (m.assignVariable place name v) := by
  cases ht : m.store.target? m.scope place name.lexeme with
  | none =>
    rw [assignVariable, Store.write?, ht]
    exact goes_fail _ _
  | some id =>
    rw [assignVariable_eq ht]
    have bound := Store.lt_size_of_binds (Store.binds_of_target? ht)
    exact goes_store (m.store.writes_define bound v (there id ht)) rfl rfl

theorem goes_branch (condition : Value) (yes : Stmt) (no : Option Stmt) :
    m.Goes written (m.branch condition yes no) := by
  unfold branch
  split
  · exact goes_same rfl rfl rfl
  · cases no with
    | none => exact goes_finish _
    | some s => exact goes_same rfl rfl rfl

theorem goes_printValue (v : Value) : m.Goes written (m.printValue v) := by
  unfold printValue
  dsimp only
  split
  · exact goes_same rfl rfl rfl
  · exact goes_same rfl rfl rfl

/-! ## Declarations -/

section

variable (inside : m.scope < m.store.scopes.size)
include inside

theorem goes_defineHere {name : String} (here : written m.scope name) (v : Value) :
    m.Goes written (m.defineHere name v) :=
  goes_store (m.store.writes_define inside v here) rfl rfl

theorem goes_declareRoutine {routine : Routine Stmt} (here : written m.scope routine.name.lexeme) :
    m.Goes written (m.declareRoutine routine) := by
  have added : m.Goes written { m with store := m.store.addClosure ⟨routine, m.scope, false⟩ } :=
    goes_store (m.store.writes_addClosure _) rfl rfl
  have named := goes_defineHere (m := { m with store := m.store.addClosure ⟨routine, m.scope, false⟩ }) inside here
    (.closure m.store.nextClosure)
  exact (added.trans named).trans (goes_finish .normal)

/-- The new class comes into the store, and its name gets it. -/
theorem goes_declareClass {name : Token} (here : written m.scope name.lexeme) (superclass : Option ClassId)
    (methods : List (Routine Stmt)) : m.Goes written (m.declareClass name superclass methods) := by
  rw [declareClass_eq inside]
  let bound := m.store.define m.scope name.lexeme .nil
  have scope : bound.Writes written (methodScope m.scope superclass bound).1 := by
    cases superclass with
    | none => exact .refl _
    | some parent => exact bound.writes_addScope _
  have made : (methodScope m.scope superclass bound).1.Writes written
      (withClass m.scope name.lexeme superclass methods m.store) := by
    refine Store.writes_of_scopes_eq (scopes_withClass ..) ?_
    exact (keepsWords_addMethods _ methods _).closures
  have class_ := ((m.store.writes_define inside .nil here).trans scope).trans made
  exact goes_store (class_.trans (Store.writes_define (Nat.lt_of_lt_of_le inside class_.size) _ here)) rfl rfl

end

/-! ## Scopes and calls -/

/-- A new scope becomes current, and there is a frame that goes back from it. -/
theorem goes_inside {scope : Scope} {f : Frame} {body : List Stmt} (store : m'.store = m.store.addScope scope)
    (current : m'.scope = m.store.nextScope) (frames : m'.frames = .sequence body :: f :: m.frames)
    (linked : f.Linked (m.store.addScope scope) m.store.nextScope) (back : f.outer m.store.nextScope = m.scope) :
    m.Goes written m' := by
  have writes : m.store.Writes written (m.store.addScope scope) := m.store.writes_addScope scope
  refine ⟨store ▸ writes, fun nested => ?_⟩
  unfold Nested
  rw [store, current, frames]
  refine ⟨trivial, linked, ?_⟩
  show (m.store.addScope scope).Nests (f.outer m.store.nextScope) m.frames
  rw [back]
  exact writes.nests nested

theorem goes_openBlock (body : List Stmt) : m.Goes written (m.openBlock body) :=
  goes_inside (f := .leaveScope m.scope) rfl rfl rfl ((m.store.parent?_addScope _ _).trans (if_pos rfl)) rfl

theorem goes_enter (closure : Closure) (arguments : List Value) : m.Goes written (m.enter closure arguments) :=
  goes_inside (f := .body closure m.scope) rfl rfl rfl ((m.store.parent?_addScope _ _).trans (if_pos rfl)) rfl

theorem goes_activate : m.Goes written m.activate := goes_push (f := .leave) trivial rfl rfl rfl

theorem goes_construct (cls : ClassId) (arguments : List Value) : m.Goes written (m.construct cls arguments) := by
  have added : m.store.Writes written (m.store.addInstance ⟨cls, .empty⟩) := m.store.writes_addInstance _
  unfold construct
  dsimp only
  split
  · exact goes_store added rfl rfl
  · next closure _ =>
    have bound := added.trans ((m.store.addInstance ⟨cls, .empty⟩).writes_boundTo closure m.store.nextInstance)
    refine Goes.trans ⟨bound, fun nested => ?_⟩ (goes_enter _ arguments)
    exact (Store.nests_cons (f := .construct m.store.nextInstance) trivial).2 (bound.nests nested)

theorem goes_guardCall (paren : Token) (arity given : Nat) {run : Machine → Machine}
    (h : m.activate.Goes written (run m.activate)) : m.Goes written (m.guardCall paren arity given run) := by
  unfold guardCall
  split
  · exact goes_fail _ _
  · split
    · exact goes_fail _ _
    · exact goes_activate.trans h

theorem goes_call (paren : Token) (callee : Value) (arguments : List Value) :
    m.Goes written (m.call paren callee arguments) := by
  unfold call
  split
  · split
    · exact goes_guardCall _ _ _ (goes_enter _ arguments)
    · exact goes_fail _ _
  · exact goes_guardCall _ _ _ (goes_construct _ arguments)
  · exact goes_fail _ _

theorem goes_nextArgument (paren : Token) (callee : Value) (values : List Value) (arguments : List Expr) :
    m.Goes written (m.nextArgument paren callee values arguments) := by
  cases arguments with
  | nil => exact goes_call paren callee values.reverse
  | cons e rest => exact goes_await e trivial

/-! ## Properties -/

theorem goes_giveMethod (method : ClosureId) (object : InstanceId) (name : Token) :
    m.Goes written (m.giveMethod method object name) := by
  unfold giveMethod
  split
  · exact goes_fail _ _
  · next closure _ =>
    exact goes_store ((m.store.writes_boundTo closure object).trans (Store.writes_addClosure _ _)) rfl rfl

theorem goes_giveProperty (object : InstanceId) (name : Token) : m.Goes written (m.giveProperty object name) := by
  unfold giveProperty
  split
  · exact goes_fail _ _
  · split
    · exact goes_give _
    · split
      · exact goes_giveMethod _ _ _
      · exact goes_fail _ _

theorem goes_giveSuper (place : Place) (keyword method : Token) :
    m.Goes written (m.giveSuper place keyword method) := by
  unfold giveSuper
  split
  · exact goes_fail _ _
  · split
    · exact goes_giveMethod _ _ _
    · exact goes_fail _ _

/-! ## Steps -/

theorem goes_execute (inside : m.scope < m.store.scopes.size) {s : Stmt} (here : ∀ n ∈ s.declared, written m.scope n) :
    m.Goes written (m.execute s) := by
  cases s with
  | expression e | print e | whileDo e _ => exact goes_await e trivial
  | ifElse condition yes no => exact goes_await condition trivial
  | varDecl name initial =>
    cases initial with
    | none => exact (goes_defineHere inside (here _ (List.mem_singleton_self _)) .nil).trans (goes_finish .normal)
    | some e => exact goes_await e trivial
  | block body => exact goes_openBlock body
  | funDecl routine => exact goes_declareRoutine inside (here _ (List.mem_singleton_self _))
  | ret keyword value =>
    cases value with
    | none => exact goes_finish _
    | some e => exact goes_await e trivial
  | classDecl name superclass methods =>
    cases superclass with
    | none => exact goes_declareClass inside (here _ (List.mem_singleton_self _)) none methods
    | some e => exact goes_await e trivial

theorem goes_evaluate (place : UseId → Place) (e : Expr) : m.Goes written (m.evaluate place e) := by
  cases e with
  | literal value => exact goes_give _
  | group inner => exact goes_same rfl rfl rfl
  | unary _ e | binary _ e _ | logical _ e _ | assign _ _ e | call e _ _ | get e _ | set e _ _ =>
    exact goes_await e trivial
  | ref id name => exact goes_giveVariable _ _
  | self id keyword => exact goes_giveVariable _ _
  | super id keyword method => exact goes_giveSuper _ _ _

/-- A value is handed to the first frame. -/
theorem goes_receive (inside : m.scope < m.store.scopes.size) (v : Value) {frame : Frame}
    (here : ∀ n ∈ frame.declared, written m.scope n) (there : ∀ use name id, frame = .assign use name →
      m.store.target? m.scope (place use) name.lexeme = some id → written id name.lexeme) :
    { m with frames := frame :: m.frames }.Goes written (receive place m v frame) := by
  cases frame with
  | discard => exact goes_pop trivial (goes_finish _)
  | print => exact goes_pop trivial (goes_printValue v)
  | define name =>
    have own : written m.scope name.lexeme := here _ (List.mem_singleton_self _)
    exact goes_pop trivial ((goes_defineHere inside own v).trans (goes_finish .normal))
  | choose yes no => exact goes_pop trivial (goes_branch v yes no)
  | test condition body =>
    refine goes_pop trivial ?_
    show m.Goes written (if v.isTruthy then m.perform body (.again condition body) else m.finish .normal)
    split
    · exact goes_perform body trivial
    · exact goes_finish _
  | giveBack => exact goes_pop trivial (goes_finish _)
  | inherit name superclass methods =>
    refine goes_pop trivial ?_
    cases v with
    | cls id => exact goes_declareClass inside (here _ (List.mem_singleton_self _)) (some id) methods
    | nil | bool _ | number _ | string _ | closure _ | object _ => exact goes_fail _ _
  | unary operator => exact goes_pop trivial (goes_giveResult _ _)
  | left operator right => exact goes_pop trivial (goes_await right trivial)
  | right operator left => exact goes_pop trivial (goes_giveResult _ _)
  | logical operator right =>
    refine goes_pop trivial ?_
    show m.Goes written (if Operator.decides operator v then m.give v else { m with control := .eval right })
    split
    · exact goes_give v
    · exact goes_same rfl rfl rfl
  | assign use name => exact goes_pop trivial (goes_assignVariable v fun id => there use name id rfl)
  | callee paren arguments => exact goes_pop trivial (goes_nextArgument paren v [] arguments)
  | argument paren callee values arguments =>
    exact goes_pop trivial (goes_nextArgument paren callee (v :: values) arguments)
  | property name =>
    refine goes_pop trivial ?_
    cases v with
    | object id => exact goes_giveProperty id name
    | nil | bool _ | number _ | string _ | closure _ | cls _ => exact goes_fail _ _
  | target name value =>
    refine goes_pop trivial ?_
    cases v with
    | object id => exact goes_await value trivial
    | nil | bool _ | number _ | string _ | closure _ | cls _ => exact goes_fail _ _
  | store object name => exact goes_pop trivial (goes_store (m.store.writes_setField object name.lexeme v) rfl rfl)
  | construct object => exact goes_pop trivial (goes_give _)
  | leave => exact goes_pop trivial (goes_same rfl rfl rfl)
  | sequence _ | again _ _ | leaveScope _ | body _ _ => exact goes_same rfl rfl rfl

/-- The end of a statement is handed to the first frame. -/
theorem goes_resume (c : Completion) (frame : Frame) :
    { m with frames := frame :: m.frames }.Goes written (resume m c frame) := by
  cases frame with
  | sequence rest =>
    refine goes_pop trivial ?_
    cases c with
    | returned v => exact goes_finish _
    | normal =>
      cases rest with
      | nil => exact goes_finish _
      | cons s rest => exact goes_perform s trivial
  | again condition body =>
    refine goes_pop trivial ?_
    cases c with
    | returned v => exact goes_finish _
    | normal => exact goes_await condition trivial
  | leaveScope outer => exact ⟨.refl _, fun nested => nested.2⟩
  | body closure caller => exact ⟨.refl _, fun nested => nested.2⟩
  | _ => exact goes_same rfl rfl rfl

theorem goes_unwind (e : Failure) (frame : Frame) :
    { m with frames := frame :: m.frames }.Goes written (unwind m e frame) := by
  cases frame with
  | leaveScope outer => exact ⟨.refl _, fun nested => nested.2⟩
  | body closure caller => exact ⟨.refl _, fun nested => nested.2⟩
  | leave => exact goes_pop trivial (goes_same rfl rfl rfl)
  | _ => exact goes_pop trivial (goes_same rfl rfl rfl)

/-- The names that a step may declare in the current scope. -/
def declaring (m : Machine) : List String :=
  match m.control, m.frames with
  | .exec s, _ => s.declared
  | .value _, frame :: _ => frame.declared
  | _, _ => []

/-- A step writes what it declares in the current scope, and what an assignment finds. -/
theorem goes_step_of (inside : m.scope < m.store.scopes.size) (here : ∀ n ∈ m.declaring, written m.scope n)
    (there : ∀ use name v id, m.assigning? = some (use, name, v) →
      m.store.target? m.scope (place use) name.lexeme = some id → written id name.lexeme) :
    m.Goes written (m.step place) := by
  obtain ⟨control, frames, scope, depth, store, sink⟩ := m
  cases control with
  | exec s => exact goes_execute inside here
  | eval e => exact goes_evaluate place e
  | value v =>
    cases frames with
    | nil => exact goes_same rfl rfl rfl
    | cons frame frames =>
      refine goes_receive (m := ⟨.value v, frames, scope, depth, store, sink⟩) inside v here ?_
      rintro use name id rfl found
      exact there use name v id rfl found
  | finished c =>
    cases frames with
    | nil => exact goes_same rfl rfl rfl
    | cons frame frames => exact goes_resume (m := ⟨.finished c, frames, scope, depth, store, sink⟩) c frame
  | failed e =>
    cases frames with
    | nil => exact goes_same rfl rfl rfl
    | cons frame frames => exact goes_unwind (m := ⟨.failed e, frames, scope, depth, store, sink⟩) e frame

/-- The variables that a step may write: those of the current scope, and the one that an assignment finds. -/
def Writing (place : UseId → Place) (m : Machine) (id : ScopeId) (n : String) : Prop :=
  id = m.scope ∨ ∃ use name v, m.assigning? = some (use, name, v) ∧ name.lexeme = n ∧
    m.store.target? m.scope (place use) n = some id

/-- A step leaves all other variables as they are. -/
theorem goes_step (place : UseId → Place) (inside : m.scope < m.store.scopes.size) :
    m.Goes (m.Writing place) (m.step place) :=
  goes_step_of inside (fun _ _ => .inl rfl) fun use name v _ assigning found =>
    .inr ⟨use, name, v, assigning, rfl, found⟩

end Machine

end Lox
