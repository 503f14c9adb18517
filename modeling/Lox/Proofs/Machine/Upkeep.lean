/-
A running program keeps up what every operation of its store keeps up: whoever starts on a store in order, with fit things
in hand, comes to stores in order, and what it gets hold of is fit (`Upkeep.leads_step`). This holds of a part of a program
on its own, up to the frames that wait for it, of which nothing is asked.
-/
import Lox.Proofs.Machine.Atop
import Lox.Proofs.Machine.Calls
import Lox.Proofs.Store.Upkeep
import Mathlib.Logic.Function.Iterate

namespace Lox

/-! ## Operators -/

/-- Whether a value stands for itself and names nothing in a store. -/
def Value.Bare : Value → Prop
  | .closure _ | .cls _ | .object _ => False
  | _ => True

theorem Value.all_of_bare {v : Value} (h : v.Bare) (p : Thing → Prop) : v.All p := by
  cases v with
  | closure _ | cls _ | object _ => cases h
  | nil | bool _ | number _ | string _ => trivial

namespace Operator

/-- Whether an operator gives a value that stands for itself, if it gives one. -/
def GivesBare : Except RuntimeFault Value → Prop
  | .ok v => v.Bare
  | .error _ => True

theorem givesBare_arithmetic (f : Float → Float → Float) (a b : Value) : GivesBare (arithmetic f a b) := by
  unfold arithmetic
  split <;> trivial

theorem givesBare_comparison (f : Float → Float → Bool) (a b : Value) : GivesBare (comparison f a b) := by
  unfold comparison
  split <;> trivial

theorem givesBare_add (a b : Value) : GivesBare (add a b) := by
  unfold add
  split <;> trivial

theorem givesBare_binary (operator : Token) (a b : Value) : GivesBare (binary operator a b) := by
  unfold binary
  split
  · exact givesBare_add a b
  any_goals exact givesBare_arithmetic _ a b
  any_goals exact givesBare_comparison _ a b
  all_goals trivial

theorem givesBare_unary (operator : Token) (v : Value) : GivesBare (unary operator v) := by
  unfold unary
  split
  · unfold negate
    split <;> trivial
  all_goals trivial

end Operator

/-! ## What a machine has in hand -/

/-- What the scopes and values of a frame are. -/
def Frame.Names : Frame → Thing → Prop
  | .right _ v, x => v.thing? = some x
  | .argument _ v values _, x => v.thing? = some x ∨ ∃ v ∈ values, v.thing? = some x
  | .store id _, x | .construct id, x => x = .object id
  | .leaveScope id, x => x = .scope id
  | .body f id, x => x = .scope f.scope ∨ x = .scope id
  | _, _ => False

/-- What the value of a machine is, if it has one. -/
def Control.Names : Control → Thing → Prop
  | .value v, x | .finished (.returned v), x => v.thing? = some x
  | _, _ => False

/-- Whether something holds of the scopes and values of a frame. -/
def Frame.All (p : Thing → Prop) : Frame → Prop
  | .right _ v => v.All p
  | .argument _ v values _ => v.All p ∧ ∀ v ∈ values, v.All p
  | .store id _ | .construct id => p (.object id)
  | .leaveScope id => p (.scope id)
  | .body f id => p (.scope f.scope) ∧ p (.scope id)
  | _ => True

/-- Whether something holds of the value that a machine has, if it has one. -/
def Control.All (p : Thing → Prop) : Control → Prop
  | .value v | .finished (.returned v) => v.All p
  | _ => True

theorem Frame.all_iff {p : Thing → Prop} {f : Frame} : f.All p ↔ ∀ x, f.Names x → p x := by
  cases f with
  | right _ v => exact Value.all_iff
  | argument _ v values _ =>
    simp only [All, Names, Value.all_iff]
    constructor
    · rintro ⟨callee, before⟩ x (hx | ⟨v, hv, hx⟩)
      · exact callee x hx
      · exact before v hv x hx
    · exact fun h => ⟨fun x hx => h x (.inl hx), fun v hv x hx => h x (.inr ⟨v, hv, hx⟩)⟩
  | body f id => simp only [All, Names, forall_eq_or_imp, forall_eq]
  | _ => simp [All, Names]

theorem Control.all_iff {p : Thing → Prop} {c : Control} : c.All p ↔ ∀ x, c.Names x → p x := by
  cases c with
  | value v => exact Value.all_iff
  | finished c =>
    cases c with
    | normal => simp [All, Names]
    | returned v => exact Value.all_iff
  | exec _ | eval _ | failed _ => simp [All, Names]

theorem Frame.All.imp {p q : Thing → Prop} {f : Frame} (h : f.All p) (hpq : ∀ x, p x → q x) : f.All q :=
  Frame.all_iff.2 fun x hx => hpq x (Frame.all_iff.1 h x hx)

/-- Frames on top of others, where something holds of those on top. -/
inductive Frame.Above (p : Thing → Prop) (base : List Frame) : List Frame → Prop
  | base : Above p base base
  | cons {f : Frame} {frames : List Frame} (own : f.All p) (below : Above p base frames) : Above p base (f :: frames)

namespace Frame.Above

variable {p q : Thing → Prop} {base frames : List Frame}

theorem imp (h : Above p base frames) (hpq : ∀ x, p x → q x) : Above q base frames := by
  induction h with
  | base => exact .base
  | cons own _ ih => exact .cons (own.imp hpq) ih

theorem nil_iff : Above p [] frames ↔ ∀ f ∈ frames, f.All p := by
  constructor
  · intro h
    induction h with
    | base => exact List.forall_mem_nil _
    | cons own _ ih => exact List.forall_mem_cons.2 ⟨own, ih⟩
  · intro h
    induction frames with
    | nil => exact .base
    | cons f frames ih =>
      obtain ⟨own, below⟩ := List.forall_mem_cons.1 h
      exact .cons own (ih below)

end Frame.Above

namespace Upkeep

/-- Whether a machine has its store in order and only fit things in hand, whatever it does just now; the frames of the
`base` may have anything. -/
structure Stands (u : Upkeep) (base : List Frame) (m : Machine) : Prop where
  order : u.order m.store
  scope : u.fit m.store (.scope m.scope)
  frames : Frame.Above (u.fit m.store) base m.frames

/-- Whether a machine has its store in order and only fit things in hand, the value that it has included. -/
structure Kept (u : Upkeep) (base : List Frame) (m : Machine) : Prop extends Stands u base m where
  control : m.control.All (u.fit m.store)

/-- From one machine to a later one, which is kept. -/
def Leads (u : Upkeep) (base : List Frame) (m m' : Machine) : Prop := u.later m.store m'.store ∧ u.Kept base m'

variable {u : Upkeep} {base : List Frame} {m : Machine} {v : Value}

theorem Stands.move (h : u.Stands base m) {s : Store} (later : u.later m.store s) (order : u.order s) :
    u.Stands base { m with store := s } :=
  ⟨order, u.stays later h.scope, h.frames.imp fun _ => u.stays later⟩

theorem Stands.push (h : u.Stands base m) {f : Frame} (own : f.All (u.fit m.store)) :
    u.Stands base { m with frames := f :: m.frames } :=
  ⟨h.order, h.scope, .cons own h.frames⟩

/-! ## Small moves -/

theorem leads_later {m' : Machine} (later : u.later m.store m'.store) (stands : u.Stands base m') {c : Control}
    (hc : c.All (u.fit m'.store)) : u.Leads base m { m' with control := c } :=
  ⟨later, ⟨⟨stands.order, stands.scope, stands.frames⟩, hc⟩⟩

theorem leads_of_stands (h : u.Stands base m) {control : Control} (hc : control.All (u.fit m.store)) :
    u.Leads base m { m with control } :=
  leads_later (u.refl _) h hc

theorem leads_give (h : u.Stands base m) (hv : v.All (u.fit m.store)) : u.Leads base m (m.give v) := leads_of_stands h hv

theorem leads_finish (h : u.Stands base m) {c : Completion} (hc : (Control.finished c).All (u.fit m.store)) :
    u.Leads base m (m.finish c) :=
  leads_of_stands h hc

theorem leads_fail (h : u.Stands base m) (fault : RuntimeFault) (site : Token) : u.Leads base m (m.fail fault site) :=
  leads_of_stands h trivial

theorem leads_await (h : u.Stands base m) (e : Expr) {f : Frame} (own : f.All (u.fit m.store)) :
    u.Leads base m (m.await e f) :=
  leads_later (u.refl _) (h.push own) trivial

theorem leads_perform (h : u.Stands base m) (s : Stmt) {f : Frame} (own : f.All (u.fit m.store)) :
    u.Leads base m (m.perform s f) :=
  leads_later (u.refl _) (h.push own) trivial

theorem leads_giveResult (h : u.Stands base m) {result : Except RuntimeFault Value} (bare : Operator.GivesBare result)
    (site : Token) : u.Leads base m (m.giveResult result site) := by
  cases result with
  | ok v => exact leads_give h (Value.all_of_bare bare _)
  | error fault => exact leads_fail h fault site

theorem leads_printValue (h : u.Stands base m) (v : Value) : u.Leads base m (m.printValue v) := by
  unfold Machine.printValue
  dsimp only
  split
  · exact ⟨u.refl _, ⟨⟨h.order, h.scope, h.frames⟩, trivial⟩⟩
  · exact ⟨u.refl _, ⟨⟨h.order, h.scope, h.frames⟩, trivial⟩⟩

theorem leads_branch (h : u.Stands base m) (condition : Value) (yes : Stmt) (no : Option Stmt) :
    u.Leads base m (m.branch condition yes no) := by
  unfold Machine.branch
  split
  · exact leads_of_stands h trivial
  · cases no with
    | none => exact leads_finish h trivial
    | some s => exact leads_of_stands h trivial

/-! ## Variables -/

theorem leads_defineHere (h : u.Stands base m) (name : String) (hv : v.All (u.fit m.store)) :
    u.later m.store (m.defineHere name v).store ∧ u.Stands base (m.defineHere name v) := by
  obtain ⟨later, order⟩ := u.define name h.order h.scope hv
  exact ⟨later, h.move later order⟩

theorem leads_giveVariable (h : u.Stands base m) (place : Place) (name : Token) :
    u.Leads base m (m.giveVariable place name) := by
  unfold Machine.giveVariable
  split
  · next found => exact leads_give h (all_read? h.order h.scope found)
  · exact leads_fail h _ _

theorem leads_assignVariable (h : u.Stands base m) (place : Place) (name : Token) (hv : v.All (u.fit m.store)) :
    u.Leads base m (m.assignVariable place name v) := by
  unfold Machine.assignVariable
  split
  · next store written =>
    obtain ⟨later, order⟩ := write? h.order h.scope hv written
    exact leads_later later (h.move later order) (all_later later hv)
  · exact leads_fail h _ _

/-! ## Classes -/

/-- A class leads to a superclass and to functions that were fit before it. -/
theorem leads_declareClass (h : u.Stands base m) (name : Token) {superclass : Option ClassId}
    (parent : ∀ parent ∈ superclass, u.fit m.store (.cls parent)) (methods : List (Routine Stmt)) :
    u.Leads base m (m.declareClass name superclass methods) := by
  have nil : Value.nil.All (u.fit m.store) := trivial
  obtain ⟨later₁, order₁⟩ := u.define name.lexeme h.order h.scope nil
  obtain ⟨later₂, order₂, scope⟩ := methodScope order₁ (u.stays later₁ h.scope) fun id hid => u.stays later₁ (parent id hid)
  obtain ⟨later₃, order₃, entries⟩ := addMethods methods order₂ scope
  have later := u.trans (u.trans later₁ later₂) later₃
  unfold Machine.declareClass
  dsimp only
  split
  · next store written =>
    obtain ⟨later₄, order₄, own⟩ := @Upkeep.addClass u _ ⟨name.lexeme, superclass, .ofList _⟩ order₃
      (fun id hid => u.stays later (parent id hid)) fun n f hf =>
        ⟨entries _ (Bindings.mem_of_get?_ofList hf), isMethod_addMethods _ methods _ _ (Bindings.mem_of_get?_ofList hf)⟩
    have later := u.trans later later₄
    obtain ⟨later₅, order₅⟩ := write? order₄ (u.stays later h.scope) (v := .cls _) own written
    have later := u.trans later later₅
    exact leads_later later (h.move later order₅) trivial
  · exact leads_fail h _ _

/-! ## Calls -/

theorem leads_enter (h : u.Stands base m) {closure : Closure} (scope : u.fit m.store (.scope closure.scope))
    {arguments : List Value} (values : ∀ v ∈ arguments, v.All (u.fit m.store)) :
    u.Leads base m (m.enter closure arguments) := by
  have vars : (Machine.parameterBindings closure.routine.parameters arguments).All (u.fit m.store) :=
    fun _ v hv => values v (Machine.mem_of_parameterBindings hv).2
  obtain ⟨later, order, own⟩ := u.addScope h.order scope vars
  have stands := h.move later order
  have body : (Frame.body closure m.scope).All (u.fit (m.enter closure arguments).store) :=
    ⟨u.stays later scope, u.stays later h.scope⟩
  exact ⟨later, ⟨⟨order, own, .cons trivial (.cons body stands.frames)⟩, trivial⟩⟩

theorem leads_construct (h : u.Stands base m) {cls : ClassId} (fit : u.fit m.store (.cls cls)) {arguments : List Value}
    (values : ∀ v ∈ arguments, v.All (u.fit m.store)) : u.Leads base m (m.construct cls arguments) := by
  obtain ⟨later₁, order₁, own⟩ := u.addInstance h.order fit
  have stands₁ := h.move later₁ order₁
  unfold Machine.construct
  dsimp only
  split
  · exact leads_later later₁ stands₁ (c := .value (.object _)) own
  · next closure found =>
    obtain ⟨id, method, hf⟩ := Option.bind_eq_some_iff.1 found
    have scope := u.found h.order (fit_findMethod? h.order fit method) (.closure hf)
    obtain ⟨later₂, order₂, inside⟩ := boundTo order₁ (u.stays later₁ scope) own
    have waits : (Frame.construct m.store.nextInstance).All (u.fit (m.store.addInstance ⟨cls, .empty⟩)) := own
    have stands₂ := (stands₁.push waits).move later₂ order₂
    have later := u.trans later₁ later₂
    obtain ⟨later₃, kept⟩ := leads_enter stands₂ inside fun v hv => all_later later (values v hv)
    exact ⟨u.trans later later₃, kept⟩

theorem leads_guardCall (h : u.Stands base m) (paren : Token) (arity given : Nat) {run : Machine → Machine}
    (hr : u.Stands base m.activate → u.Leads base m.activate (run m.activate)) :
    u.Leads base m (m.guardCall paren arity given run) := by
  unfold Machine.guardCall
  split
  · exact leads_fail h _ _
  · split
    · exact leads_fail h _ _
    · exact hr ⟨h.order, h.scope, .cons trivial h.frames⟩

theorem leads_call (h : u.Stands base m) (paren : Token) {callee : Value} (hc : callee.All (u.fit m.store))
    {arguments : List Value} (values : ∀ v ∈ arguments, v.All (u.fit m.store)) :
    u.Leads base m (m.call paren callee arguments) := by
  cases callee with
  | closure id =>
    unfold Machine.call
    dsimp only
    split
    · next closure found =>
      exact leads_guardCall h _ _ _ fun active => leads_enter active (u.found h.order hc (.closure found)) values
    · exact leads_fail h _ _
  | cls id => exact leads_guardCall h _ _ _ fun active => leads_construct active hc values
  | nil | bool _ | number _ | string _ | object _ => exact leads_fail h _ _

theorem leads_nextArgument (h : u.Stands base m) (paren : Token) {callee : Value} (hc : callee.All (u.fit m.store))
    {values : List Value} (hv : ∀ v ∈ values, v.All (u.fit m.store)) (arguments : List Expr) :
    u.Leads base m (m.nextArgument paren callee values arguments) := by
  cases arguments with
  | nil => exact leads_call h paren hc fun v hm => hv v (List.mem_reverse.1 hm)
  | cons e rest =>
    have waits : (Frame.argument paren callee values rest).All (u.fit m.store) := ⟨hc, hv⟩
    exact leads_await h e waits

/-! ## Properties -/

theorem leads_giveMethod (h : u.Stands base m) {method : ClosureId} (fit : u.fit m.store (.closure method))
    {object : InstanceId} (ho : u.fit m.store (.object object)) (name : Token) :
    u.Leads base m (m.giveMethod method object name) := by
  unfold Machine.giveMethod
  split
  · exact leads_fail h _ _
  · next closure found =>
    obtain ⟨later₁, order₁, inside⟩ := boundTo h.order (u.found h.order fit (.closure found)) ho
    obtain ⟨later₂, order₂, own⟩ := u.addClosure order₁ inside
    have later := u.trans later₁ later₂
    exact leads_later later (h.move later order₂) (c := .value (.closure _)) own

theorem leads_giveProperty (h : u.Stands base m) {object : InstanceId} (ho : u.fit m.store (.object object))
    (name : Token) : u.Leads base m (m.giveProperty object name) := by
  unfold Machine.giveProperty
  split
  · exact leads_fail h _ _
  · next found hf =>
    split
    · next v field => exact leads_give h (Value.all_iff.2 fun x hx => u.found h.order ho (.field hf field hx))
    · split
      · next method hm => exact leads_giveMethod h (fit_findMethod? h.order (u.found h.order ho (.cls hf)) hm) ho name
      · exact leads_fail h _ _

theorem leads_giveSuper (h : u.Stands base m) (place : Place) (keyword method : Token) :
    u.Leads base m (m.giveSuper place keyword method) := by
  unfold Machine.giveSuper
  split
  · exact leads_fail h _ _
  · next superclass object parts =>
    have own : u.fit m.store (.cls superclass) ∧ u.fit m.store (.object object) := by
      unfold Machine.superParts? at parts
      split at parts
      · cases parts
      · split at parts
        · next super this =>
          cases parts
          exact ⟨all_read? h.order h.scope super, all_read? h.order h.scope this⟩
        · cases parts
    split
    · next found hf => exact leads_giveMethod h (fit_findMethod? h.order own.1 hf) own.2 method
    · exact leads_fail h _ _

/-! ## Steps -/

theorem leads_execute (h : u.Stands base m) (s : Stmt) : u.Leads base m (m.execute s) := by
  have nil : Value.nil.All (u.fit m.store) := trivial
  cases s with
  | expression e => exact leads_await h e (f := .discard) trivial
  | print e => exact leads_await h e (f := .print) trivial
  | varDecl name initial =>
    cases initial with
    | none =>
      obtain ⟨later, stands⟩ := leads_defineHere h name.lexeme nil
      exact leads_later later stands trivial
    | some e => exact leads_await h e (f := .define name) trivial
  | block body =>
    obtain ⟨later, order, own⟩ := u.addScope h.order h.scope (Bindings.all_empty _)
    have stands := h.move later order
    have outer : (Frame.leaveScope m.scope).All (u.fit (m.openBlock body).store) := u.stays later h.scope
    exact ⟨later, ⟨⟨order, own, .cons trivial (.cons outer stands.frames)⟩, trivial⟩⟩
  | ifElse condition yes no => exact leads_await h condition (f := .choose yes no) trivial
  | whileDo condition body => exact leads_await h condition (f := .test condition body) trivial
  | funDecl routine =>
    obtain ⟨later₁, order₁, own⟩ := u.addClosure (f := ⟨routine, m.scope, false⟩) h.order h.scope
    obtain ⟨later₂, stands₂⟩ := leads_defineHere (h.move later₁ order₁) routine.name.lexeme (v := .closure _) own
    exact leads_later (u.trans later₁ later₂) stands₂ trivial
  | ret keyword value =>
    cases value with
    | none => exact leads_finish h trivial
    | some e => exact leads_await h e (f := .giveBack) trivial
  | classDecl name superclass methods =>
    cases superclass with
    | none =>
      have nothing : ∀ parent ∈ (none : Option ClassId), u.fit m.store (.cls parent) := by simp
      exact leads_declareClass h name nothing methods
    | some e => exact leads_await h e (f := .inherit name e methods) trivial

variable (place : UseId → Place)

theorem leads_evaluate (h : u.Stands base m) (e : Expr) : u.Leads base m (m.evaluate place e) := by
  cases e with
  | literal value => exact leads_give h (Value.all_ofLiteral _ value)
  | group inner => exact leads_of_stands h trivial
  | unary operator operand => exact leads_await h operand (f := .unary operator) trivial
  | binary operator l r => exact leads_await h l (f := .left operator r) trivial
  | logical operator l r => exact leads_await h l (f := .logical operator r) trivial
  | ref id name => exact leads_giveVariable h _ _
  | assign id name value => exact leads_await h value (f := .assign id name) trivial
  | call callee paren arguments => exact leads_await h callee (f := .callee paren arguments) trivial
  | get object name => exact leads_await h object (f := .property name) trivial
  | set object name value => exact leads_await h object (f := .target name value) trivial
  | self id keyword => exact leads_giveVariable h _ _
  | super id keyword method => exact leads_giveSuper h _ _ _

theorem leads_receive (h : u.Stands base m) (hv : v.All (u.fit m.store)) {frame : Frame}
    (own : frame.All (u.fit m.store)) : u.Leads base m (m.receive place v frame) := by
  cases frame with
  | discard => exact leads_finish h trivial
  | print => exact leads_printValue h v
  | define name =>
    obtain ⟨later, stands⟩ := leads_defineHere h name.lexeme hv
    exact leads_later later stands trivial
  | choose yes no => exact leads_branch h v yes no
  | test condition body =>
    simp only [Machine.receive]
    split
    · exact leads_perform h body (f := .again condition body) trivial
    · exact leads_finish h trivial
  | giveBack => exact leads_finish h hv
  | inherit name superclass methods =>
    cases v with
    | cls id =>
      have parent : ∀ parent ∈ some id, u.fit m.store (.cls parent) := by
        rintro _ ⟨⟩
        exact hv
      exact leads_declareClass h name parent methods
    | nil | bool _ | number _ | string _ | closure _ | object _ => exact leads_fail h _ _
  | unary operator => exact leads_giveResult h (Operator.givesBare_unary operator v) operator
  | left operator e => exact leads_await h e (f := .right operator v) hv
  | right operator operand => exact leads_giveResult h (Operator.givesBare_binary operator operand v) operator
  | logical operator e =>
    simp only [Machine.receive]
    split
    · exact leads_give h hv
    · exact leads_of_stands h trivial
  | assign id name => exact leads_assignVariable h _ name hv
  | callee paren arguments => exact leads_nextArgument h paren hv (by simp) arguments
  | argument paren callee values arguments =>
    exact leads_nextArgument h paren own.1 (List.forall_mem_cons.2 ⟨hv, own.2⟩) arguments
  | property name =>
    cases v with
    | object id => exact leads_giveProperty h hv name
    | nil | bool _ | number _ | string _ | closure _ | cls _ => exact leads_fail h _ _
  | target name e =>
    cases v with
    | object id => exact leads_await h e (f := .store id name) hv
    | nil | bool _ | number _ | string _ | closure _ | cls _ => exact leads_fail h _ _
  | store object name =>
    obtain ⟨later, order⟩ := u.setField name.lexeme h.order own hv
    exact leads_later later (h.move later order) (all_later later hv)
  | construct object => exact leads_give h own
  | leave => exact ⟨u.refl _, ⟨⟨h.order, h.scope, h.frames⟩, hv⟩⟩
  | sequence _ | again _ _ | leaveScope _ | body _ _ => exact leads_later (u.refl _) (h.push own) hv

theorem all_bodyValue {s : Store} (order : u.order s) {closure : Closure} (scope : u.fit s (.scope closure.scope))
    {c : Completion} (hc : (Control.finished c).All (u.fit s)) : (Machine.bodyValue s closure c).All (u.fit s) := by
  unfold Machine.bodyValue
  split
  · cases hv : s.valueIn? closure.scope thisName with
    | none => trivial
    | some v => exact all_valueIn? order scope hv
  · cases c with
    | normal => trivial
    | returned v => exact hc

theorem leads_resume (h : u.Stands base m) {c : Completion} (hc : (Control.finished c).All (u.fit m.store)) {frame : Frame}
    (own : frame.All (u.fit m.store)) : u.Leads base m (m.resume c frame) := by
  cases frame with
  | sequence rest =>
    cases c with
    | returned v => exact leads_finish h hc
    | normal =>
      cases rest with
      | nil => exact leads_finish h trivial
      | cons s rest => exact leads_perform h s (f := .sequence rest) trivial
  | again condition body =>
    cases c with
    | returned v => exact leads_finish h hc
    | normal => exact leads_await h condition (f := .test condition body) trivial
  | leaveScope outer => exact ⟨u.refl _, ⟨⟨h.order, own, h.frames⟩, hc⟩⟩
  | body closure caller => exact ⟨u.refl _, ⟨⟨h.order, own.2, h.frames⟩, all_bodyValue h.order own.1 hc⟩⟩
  | _ => exact leads_later (u.refl _) (h.push own) hc

theorem leads_unwind (h : u.Stands base m) (e : Failure) {frame : Frame} (own : frame.All (u.fit m.store)) :
    u.Leads base m (m.unwind e frame) := by
  cases frame with
  | leaveScope outer => exact ⟨u.refl _, ⟨⟨h.order, own, h.frames⟩, trivial⟩⟩
  | body closure caller => exact ⟨u.refl _, ⟨⟨h.order, own.2, h.frames⟩, trivial⟩⟩
  | _ => exact ⟨u.refl _, ⟨⟨h.order, h.scope, h.frames⟩, trivial⟩⟩

/-- Every step keeps a machine, as long as the frames of the base wait for a result. -/
theorem leads_step (h : u.Kept base m) (busy : ¬ m.IsBack base) : u.Leads base m (m.step place) := by
  obtain ⟨control, frames, scope, depth, store, sink⟩ := m
  obtain ⟨⟨order, fit, above⟩, hc⟩ := h
  cases control with
  | exec s => exact leads_execute ⟨order, fit, above⟩ s
  | eval e => exact leads_evaluate place ⟨order, fit, above⟩ e
  | value v =>
    cases above with
    | base => exact absurd ⟨rfl, rfl⟩ busy
    | @cons frame frames own below =>
      exact leads_receive (m := ⟨.value v, frames, scope, depth, store, sink⟩) place ⟨order, fit, below⟩ hc own
  | finished c =>
    cases above with
    | base => exact absurd ⟨rfl, rfl⟩ busy
    | @cons frame frames own below =>
      exact leads_resume (m := ⟨.finished c, frames, scope, depth, store, sink⟩) ⟨order, fit, below⟩ hc own
  | failed e =>
    cases above with
    | base => exact absurd ⟨rfl, rfl⟩ busy
    | @cons frame frames own below =>
      exact leads_unwind (m := ⟨.failed e, frames, scope, depth, store, sink⟩) ⟨order, fit, below⟩ e own

theorem leads_iterate (h : u.Kept base m) {n : Nat} (busy : ∀ k < n, ¬ ((Machine.step place)^[k] m).IsBack base) :
    u.Leads base m ((Machine.step place)^[n] m) := by
  induction n with
  | zero => exact ⟨u.refl _, h⟩
  | succ n ih =>
    rw [Function.iterate_succ_apply']
    obtain ⟨later, kept⟩ := ih fun k hk => busy k (Nat.lt_succ_of_lt hk)
    have next := leads_step place kept (busy n (Nat.lt_succ_self n))
    exact ⟨u.trans later next.1, next.2⟩

/-- With no frames below there is nothing that could wait for a result, and the machine is kept forever. -/
theorem leads_iterate_nil (h : u.Kept [] m) (n : Nat) : u.Leads [] m ((Machine.step place)^[n] m) := by
  induction n with
  | zero => exact ⟨u.refl _, h⟩
  | succ n ih =>
    rw [Function.iterate_succ_apply']
    by_cases back : ((Machine.step place)^[n] m).IsBack []
    · rwa [Machine.step_of_isBack place back]
    · have next := leads_step place ih.2 back
      exact ⟨u.trans ih.1 next.1, next.2⟩

/-- What asks nothing of things is kept up by every machine that has its store in order. -/
theorem kept_of_forall (order : u.order m.store) (fit : ∀ s x, u.fit s x) : u.Kept [] m where
  order := order
  scope := fit _ _
  frames := Frame.Above.nil_iff.2 fun _ _ => Frame.all_iff.2 fun x _ => fit _ x
  control := Control.all_iff.2 fun x _ => fit _ x

end Upkeep

end Lox
