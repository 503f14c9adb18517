/-
What a step does to classes and to the fields of instances. A step may store a field or declare a class, and it can be seen
before the step whether it does (`setting?`, `declaring?`). Every other step leaves classes and fields as they are
(`keepsObjects_step`).
-/
import Lox.Proofs.Machine.Grounded
import Lox.Proofs.Program.Bound
import Lox.Proofs.Store.Declared
import Lox.Proofs.Store.Fields

namespace Lox

namespace Machine

/-! ## Steps that change objects -/

/-- The field that the next step stores, if it stores one, and its value. -/
def setting? (m : Machine) : Option (InstanceId × String × Value) :=
  match m.control, m.frames with
  | .value v, .store object name :: _ => some (object, name.lexeme, v)
  | _, _ => none

/-- The value that the next step stores in this field, if it does. -/
def stores? (object : InstanceId) (name : String) (m : Machine) : Option Value :=
  match m.setting? with
  | some (target, field, v) => if target = object ∧ field = name then some v else none
  | none => none

/-- The class that the next step declares, if it declares one. -/
def declaring? (m : Machine) : Option ClassDeclaration :=
  match m.control, m.frames with
  | .exec (.classDecl _ none methods), _ => some ⟨none, methods, m.scope⟩
  | .value (.cls parent), .inherit _ _ methods :: _ => some ⟨some parent, methods, m.store.nextScope⟩
  | _, _ => none

variable {m : Machine} {object : InstanceId} {name : String} {v : Value}

theorem step_setting (place : UseId → Place) (h : m.setting? = some (object, name, v)) :
    ∃ frames, m.step place = { m with store := m.store.setField object name v, frames } := by
  obtain ⟨control, frames, scope, depth, store, sink⟩ := m
  unfold setting? at h
  split at h
  · next control frames =>
    cases control
    cases frames
    cases h
    exact ⟨_, rfl⟩
  · cases h

/-- The instance of which a field is stored is there. -/
theorem Based.lt_of_setting (based : m.Based) (h : m.setting? = some (object, name, v)) :
    object < m.store.instances.size := by
  unfold setting? at h
  split at h
  · next frames =>
    cases h
    exact based.frames _ (frames ▸ List.mem_cons_self)
  · cases h

theorem step_declaring (place : UseId → Place) {d : ClassDeclaration} (h : m.declaring? = some d) :
    ∃ name frames, m.step place = { m with frames }.declareClass name d.superclass d.methods ∧
      d.scope = memberScope m.scope d.superclass m.store := by
  unfold declaring? at h
  split at h
  · next name methods control =>
    cases h
    exact ⟨name, m.frames, step_exec control, rfl⟩
  · next name _ methods rest control frames =>
    cases h
    refine ⟨name, rest, ?_, rfl⟩
    rw [step_value control frames]
    rfl
  · cases h

/-! ## Small moves -/

theorem keepsObjects_giveResult (result : Except RuntimeFault Value) (site : Token) :
    m.store.KeepsObjects (m.giveResult result site).store := by
  cases result with
  | ok v => exact .refl _
  | error fault => exact .refl _

theorem keepsObjects_giveVariable (place : Place) (name : Token) :
    m.store.KeepsObjects (m.giveVariable place name).store := by
  unfold giveVariable
  split
  · exact .refl _
  · exact .refl _

theorem keepsObjects_assignVariable (place : Place) (name : Token) (v : Value) :
    m.store.KeepsObjects (m.assignVariable place name v).store := by
  unfold assignVariable
  split
  · next written => exact .write? written
  · exact .refl _

theorem keepsObjects_branch (condition : Value) (yes : Stmt) (no : Option Stmt) :
    m.store.KeepsObjects (m.branch condition yes no).store := by
  unfold branch
  split
  · exact .refl _
  · cases no with
    | none => exact .refl _
    | some s => exact .refl _

theorem keepsObjects_printValue (v : Value) : m.store.KeepsObjects (m.printValue v).store := by
  unfold printValue
  dsimp only
  split
  · exact .refl _
  · exact .refl _

/-! ## Calls -/

theorem keepsObjects_construct (cls : ClassId) (arguments : List Value) :
    m.store.KeepsObjects (m.construct cls arguments).store := by
  unfold construct
  dsimp only
  split
  · exact .addInstance _ cls
  · exact (Store.KeepsObjects.addInstance _ cls).trans (.of_eq rfl rfl)

theorem keepsObjects_guardCall (paren : Token) (arity given : Nat) {run : Machine → Machine}
    (h : m.store.KeepsObjects (run m.activate).store) :
    m.store.KeepsObjects (m.guardCall paren arity given run).store := by
  unfold guardCall
  split
  · exact .refl _
  · split
    · exact .refl _
    · exact h

theorem keepsObjects_call (paren : Token) (callee : Value) (arguments : List Value) :
    m.store.KeepsObjects (m.call paren callee arguments).store := by
  unfold call
  split
  · split
    · exact keepsObjects_guardCall _ _ _ (.of_eq rfl rfl)
    · exact .refl _
  · exact keepsObjects_guardCall _ _ _ (keepsObjects_construct (m := m.activate) _ arguments)
  · exact .refl _

theorem keepsObjects_nextArgument (paren : Token) (callee : Value) (values : List Value) (arguments : List Expr) :
    m.store.KeepsObjects (m.nextArgument paren callee values arguments).store := by
  cases arguments with
  | nil => exact keepsObjects_call paren callee values.reverse
  | cons e rest => exact .refl _

/-! ## Properties -/

theorem keepsObjects_giveMethod (method : ClosureId) (object : InstanceId) (name : Token) :
    m.store.KeepsObjects (m.giveMethod method object name).store := by
  unfold giveMethod
  split
  · exact .refl _
  · exact .of_eq rfl rfl

theorem keepsObjects_giveProperty (object : InstanceId) (name : Token) :
    m.store.KeepsObjects (m.giveProperty object name).store := by
  unfold giveProperty
  split
  · exact .refl _
  · split
    · exact .refl _
    · split
      · exact keepsObjects_giveMethod _ object name
      · exact .refl _

theorem keepsObjects_giveSuper (place : Place) (keyword method : Token) :
    m.store.KeepsObjects (m.giveSuper place keyword method).store := by
  unfold giveSuper
  split
  · exact .refl _
  · split
    · exact keepsObjects_giveMethod _ _ method
    · exact .refl _

/-! ## Steps that leave objects alone -/

theorem keepsObjects_execute {s : Stmt} (noClass : ∀ name methods, s ≠ .classDecl name none methods) :
    m.store.KeepsObjects (m.execute s).store := by
  cases s with
  | expression _ | print _ | ifElse _ _ _ | whileDo _ _ => exact .refl _
  | varDecl name initial =>
    cases initial with
    | none => exact .of_eq rfl rfl
    | some e => exact .refl _
  | block _ | funDecl _ => exact .of_eq rfl rfl
  | ret keyword value =>
    cases value with
    | none => exact .refl _
    | some e => exact .refl _
  | classDecl name superclass methods =>
    cases superclass with
    | none => exact absurd rfl (noClass name methods)
    | some e => exact .refl _

theorem keepsObjects_evaluate (place : UseId → Place) (e : Expr) :
    m.store.KeepsObjects (m.evaluate place e).store := by
  cases e with
  | literal _ | group _ | unary _ _ | binary _ _ _ | logical _ _ _ | assign _ _ _ | call _ _ _ | get _ _ | set _ _ _ =>
    exact .refl _
  | ref id name => exact keepsObjects_giveVariable _ name
  | self id keyword => exact keepsObjects_giveVariable _ keyword
  | super id keyword method => exact keepsObjects_giveSuper _ keyword method

theorem keepsObjects_receive (place : UseId → Place) {v : Value} {frame : Frame}
    (noField : ∀ object name, frame ≠ .store object name)
    (noClass : ∀ parent name e methods, v = .cls parent → frame ≠ .inherit name e methods) :
    m.store.KeepsObjects (receive place m v frame).store := by
  cases frame with
  | discard | giveBack | left _ _ | construct _ | leave | sequence _ | again _ _ | leaveScope _ | body _ _ =>
    exact .refl _
  | define name => exact .of_eq rfl rfl
  | print => exact keepsObjects_printValue v
  | choose yes no => exact keepsObjects_branch v yes no
  | test condition body =>
    unfold receive
    dsimp only
    split
    · exact .refl _
    · exact .refl _
  | inherit name e methods =>
    cases v with
    | cls id => exact absurd rfl (noClass id name e methods rfl)
    | nil | bool _ | number _ | string _ | closure _ | object _ => exact .refl _
  | unary operator => exact keepsObjects_giveResult _ operator
  | right operator left => exact keepsObjects_giveResult _ operator
  | logical operator right =>
    unfold receive
    dsimp only
    split
    · exact .refl _
    · exact .refl _
  | assign id name => exact keepsObjects_assignVariable _ name v
  | callee paren arguments => exact keepsObjects_nextArgument paren v [] arguments
  | argument paren callee values arguments => exact keepsObjects_nextArgument paren callee (v :: values) arguments
  | property name =>
    cases v with
    | object id => exact keepsObjects_giveProperty id name
    | nil | bool _ | number _ | string _ | closure _ | cls _ => exact .refl _
  | target name value =>
    cases v with
    | object id => exact .refl _
    | nil | bool _ | number _ | string _ | closure _ | cls _ => exact .refl _
  | store object name => exact absurd rfl (noField object name)

theorem keepsObjects_resume (c : Completion) (frame : Frame) : m.store.KeepsObjects (m.resume c frame).store := by
  cases frame with
  | sequence rest =>
    unfold resume
    dsimp only
    split
    · exact .refl _
    · exact .refl _
  | again condition body =>
    cases c with
    | normal => exact .refl _
    | returned v => exact .refl _
  | _ => exact .refl _

theorem keepsObjects_unwind (e : Failure) (frame : Frame) : m.store.KeepsObjects (m.unwind e frame).store := by
  cases frame <;> exact .refl _

/-- A step that stores no field and declares no class leaves classes and fields as they are. -/
theorem keepsObjects_step (place : UseId → Place) (noField : m.setting? = none) (noClass : m.declaring? = none) :
    m.store.KeepsObjects (m.step place).store := by
  obtain ⟨control, frames, scope, depth, store, sink⟩ := m
  cases control with
  | exec s =>
    refine keepsObjects_execute fun name methods h => ?_
    subst h
    cases noClass
  | eval e => exact keepsObjects_evaluate place e
  | value v =>
    cases frames with
    | nil => exact .refl _
    | cons frame rest =>
      refine keepsObjects_receive (m := ⟨.value v, rest, scope, depth, store, sink⟩) place (fun object name h => ?_)
        fun parent name e methods hv h => ?_
      · subst h
        cases noField
      · subst hv h
        cases noClass
  | finished c =>
    cases frames with
    | nil => exact .refl _
    | cons frame rest => exact keepsObjects_resume (m := ⟨.finished c, rest, scope, depth, store, sink⟩) c frame
  | failed e =>
    cases frames with
    | nil => exact .refl _
    | cons frame rest => exact keepsObjects_unwind (m := ⟨.failed e, rest, scope, depth, store, sink⟩) e frame

/-! ## What a step makes of objects -/

/-- After a step a field has the value that the step has stored, or else the value from before. -/
theorem Based.field?_step (based : m.Based) (place : UseId → Place) (object : InstanceId) (name : String) :
    (m.step place).store.field? object name = (m.stores? object name).or (m.store.field? object name) := by
  unfold stores?
  cases setting : m.setting? with
  | some x =>
    obtain ⟨target, field, v⟩ := x
    obtain ⟨frames, step⟩ := step_setting place setting
    rw [step]
    refine (Store.field?_setField (based.lt_of_setting setting) field v object name).trans ?_
    dsimp only
    split
    · rfl
    · rfl
  | none =>
    rw [Option.none_or]
    cases declaring : m.declaring? with
    | none => exact (keepsObjects_step place setting declaring).fields object name
    | some d =>
      -- the declaration of a class leaves the instances alone
      obtain ⟨title, frames, step, -⟩ := step_declaring place declaring
      rw [step, declareClass_eq (m := { m with frames }) based.scope]
      exact Store.field?_congr (instances_withClass ..) object name

/-- After a step the declarations are those from before, and the one that the step has carried out. -/
theorem Based.declared_step (based : m.Based) (place : UseId → Place) {declared : List ClassDeclaration}
    (h : m.store.Declared declared) : (m.step place).store.Declared (declared ++ m.declaring?.toList) := by
  have closures := (ages_iterate place m 1).closures
  cases declaring : m.declaring? with
  | none =>
    rw [Option.toList_none, List.append_nil]
    cases setting : m.setting? with
    | none => exact h.later (keepsObjects_step place setting declaring).classes closures
    | some x =>
      -- what is stored in an instance leaves the classes alone
      obtain ⟨frames, step⟩ := step_setting place setting
      refine h.later ?_ closures
      rw [step]
      rfl
  | some d =>
    obtain ⟨title, frames, step, scope⟩ := step_declaring place declaring
    rw [declareClass_eq (m := { m with frames }) based.scope] at step
    obtain ⟨cls, classes, own⟩ := isDeclared_withClass m.scope title.lexeme d.superclass d.methods m.store
    rw [← scope] at own
    refine h.push ?_ closures (own.later ?_)
    · rw [step]
      exact classes
    · rw [step]
      exact fun _ _ there => there

end Machine

end Lox
