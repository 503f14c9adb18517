/-
Where a running program fails. If all code that a machine holds, in what it does just now, in its frames and in the
functions of its store, fails at tokens of some kind only, then a step that fails fails at such a token, and the code
that is held after a step is of that kind again (`sited_step`). For that the slots of loops have to be found wherever
they are used.
-/
import Lox.Proofs.Machine.NewClass
import Lox.Proofs.Tree.Sited

namespace Lox

variable {site : Token → Prop}

/-! ## Code that is held -/

theorem Code.Sited.body {r : Routine Stmt} (h : (Code.routine r).Sited site) : (Code.stmts r.body).Sited site := by
  obtain ⟨name, parameters, body⟩ := r
  exact fun x hx => h x (.tail _ hx)

/-- Whether the functions of a store fail at tokens of this kind only. -/
def Store.Sited (site : Token → Prop) (s : Store) : Prop := ∀ f ∈ s.closures, (Code.stmts f.routine.body).Sited site

/-- Whether what a frame goes on with fails at tokens of this kind only. -/
def Frame.Sited (site : Token → Prop) : Frame → Prop
  | .choose yes no => (Code.stmt yes).Sited site ∧ ∀ s ∈ no, (Code.stmt s).Sited site
  | .test condition loop | .again condition loop => (Code.expr condition).Sited site ∧ (Code.stmt loop).Sited site
  | .inherit name superclass methods =>
    site name ∧ site (Machine.superclassSite name superclass) ∧ (Code.methods methods).Sited site
  | .unary operator | .right operator _ => site operator
  | .left operator e => site operator ∧ (Code.expr e).Sited site
  | .logical _ e => (Code.expr e).Sited site
  | .assign _ name => site name ∨ name.lexeme = ForLoop.slotName
  | .callee paren arguments | .argument paren _ _ arguments => site paren ∧ (Code.exprs arguments).Sited site
  | .property name => site name
  | .target name e => site name ∧ (Code.expr e).Sited site
  | .sequence rest => (Code.stmts rest).Sited site
  | _ => True

/-- Whether what a machine does just now fails at tokens of this kind only, or has failed at one. -/
def Control.Sited (site : Token → Prop) : Control → Prop
  | .exec s => (Code.stmt s).Sited site
  | .eval e => (Code.expr e).Sited site
  | .failed (.runtime e) => site e.site
  | _ => True

namespace Machine

/-- Whether all code that a machine has still to go on with fails at tokens of this kind only. -/
structure SitedBelow (site : Token → Prop) (m : Machine) : Prop where
  store : m.store.Sited site
  frames : ∀ f ∈ m.frames, f.Sited site

/-- Whether all code that a machine holds fails at tokens of this kind only. -/
structure Sited (site : Token → Prop) (m : Machine) : Prop extends SitedBelow site m where
  control : m.control.Sited site

/-- Whether the slot of a loop is found by what a machine does just now, if that uses one. -/
structure FindsSlot (place : UseId → Place) (m : Machine) : Prop where
  read : ∀ use name, m.control = .eval (.ref use name) → name.lexeme = ForLoop.slotName →
    ∃ v, m.store.read? m.scope (place use) name.lexeme = some v
  write : ∀ use name v rest, m.control = .value v → m.frames = .assign use name :: rest →
    name.lexeme = ForLoop.slotName → ∃ found, m.store.target? m.scope (place use) name.lexeme = some found

variable {m : Machine}

theorem SitedBelow.push (h : m.SitedBelow site) {f : Frame} (hf : f.Sited site) :
    SitedBelow site { m with frames := f :: m.frames } :=
  ⟨h.store, List.forall_mem_cons.2 ⟨hf, h.frames⟩⟩

/-- Functions are only added, and each has the code of one that is there or that is declared. -/
theorem sited_addClosure {s : Store} (h : s.Sited site) {f : Closure} (hf : (Code.stmts f.routine.body).Sited site) :
    (s.addClosure f).Sited site := by
  intro g hg
  rcases Array.mem_push.1 hg with hg | rfl
  · exact h g hg
  · exact hf

theorem sited_addMethods {scope : ScopeId} {methods : List (Routine Stmt)} {s : Store} (h : s.Sited site)
    (hm : (Code.methods methods).Sited site) : (addMethods scope methods s).1.Sited site := by
  induction methods generalizing s with
  | nil => exact h
  | cons r rest ih =>
    obtain ⟨first, later⟩ := List.forall_mem_append.1 hm
    have own : (Code.routine r).Sited site := first
    exact ih (sited_addClosure h own.body) later

/-! ## Small moves -/

theorem sited_give (h : m.SitedBelow site) (v : Value) : (m.give v).Sited site := ⟨⟨h.store, h.frames⟩, trivial⟩

theorem sited_finish (h : m.SitedBelow site) (c : Completion) : (m.finish c).Sited site :=
  ⟨⟨h.store, h.frames⟩, trivial⟩

theorem sited_fail (h : m.SitedBelow site) (fault : RuntimeFault) {t : Token} (ht : site t) :
    (m.fail fault t).Sited site :=
  ⟨⟨h.store, h.frames⟩, ht⟩

theorem sited_await (h : m.SitedBelow site) {e : Expr} (he : (Code.expr e).Sited site) {f : Frame} (hf : f.Sited site) :
    (m.await e f).Sited site :=
  ⟨⟨h.store, (h.push hf).frames⟩, he⟩

theorem sited_perform (h : m.SitedBelow site) {s : Stmt} (hs : (Code.stmt s).Sited site) {f : Frame}
    (hf : f.Sited site) : (m.perform s f).Sited site :=
  ⟨⟨h.store, (h.push hf).frames⟩, hs⟩

theorem sited_giveResult (h : m.SitedBelow site) (result : Except RuntimeFault Value) {t : Token} (ht : site t) :
    (m.giveResult result t).Sited site := by
  cases result with
  | ok v => exact sited_give h v
  | error fault => exact sited_fail h fault ht

theorem sited_printValue (h : m.SitedBelow site) (v : Value) : (m.printValue v).Sited site := by
  unfold printValue
  dsimp only
  split
  · exact ⟨⟨h.store, h.frames⟩, trivial⟩
  · exact ⟨⟨h.store, h.frames⟩, trivial⟩

theorem sited_branch (h : m.SitedBelow site) (condition : Value) {yes : Stmt} {no : Option Stmt}
    (hy : (Code.stmt yes).Sited site) (hn : ∀ s ∈ no, (Code.stmt s).Sited site) :
    (m.branch condition yes no).Sited site := by
  unfold branch
  split
  · exact ⟨⟨h.store, h.frames⟩, hy⟩
  · cases no with
    | none => exact sited_finish h .normal
    | some s => exact ⟨⟨h.store, h.frames⟩, hn s rfl⟩

/-! ## Variables and classes -/

/-- Reading a variable fails at its name, and not if that is found. -/
theorem sited_giveVariable (h : m.SitedBelow site) {place : Place} {name : Token}
    (hn : site name ∨ ∃ v, m.store.read? m.scope place name.lexeme = some v) :
    (m.giveVariable place name).Sited site := by
  unfold giveVariable
  split
  · exact sited_give h _
  · next none =>
    rcases hn with hn | ⟨v, found⟩
    · exact sited_fail h _ hn
    · rw [none] at found
      cases found

theorem sited_assignVariable (h : m.SitedBelow site) {place : Place} {name : Token} (v : Value)
    (hn : site name ∨ ∃ found, m.store.target? m.scope place name.lexeme = some found) :
    (m.assignVariable place name v).Sited site := by
  unfold assignVariable Store.write?
  split
  · next store written =>
    split at written
    · cases written
      exact ⟨⟨h.store, h.frames⟩, trivial⟩
    · cases written
  · next missing =>
    split at missing
    · cases missing
    · next none =>
      rcases hn with hn | ⟨found, there⟩
      · exact sited_fail h _ hn
      · rw [none] at there
        cases there

theorem sited_declareClass (h : m.SitedBelow site) {name : Token} (own : site name) (superclass : Option ClassId)
    {methods : List (Routine Stmt)} (hm : (Code.methods methods).Sited site) :
    (m.declareClass name superclass methods).Sited site := by
  -- the scopes for the methods come with no functions
  have inside : (methodScope m.scope superclass (m.store.define m.scope name.lexeme .nil)).1.Sited site := by
    unfold Store.Sited
    rw [closures_methodScope]
    exact h.store
  unfold declareClass Store.write?
  dsimp only
  generalize methodScope m.scope superclass (m.store.define m.scope name.lexeme .nil) = inner at inside ⊢
  have made : (addMethods inner.2 methods inner.1).1.Sited site := sited_addMethods inside hm
  split
  · next store written =>
    split at written
    · cases written
      exact ⟨⟨made, h.frames⟩, trivial⟩
    · cases written
  · exact sited_fail h _ own

/-! ## Calls -/

theorem sited_enter (h : m.SitedBelow site) {closure : Closure} (hc : (Code.stmts closure.routine.body).Sited site)
    (arguments : List Value) : (m.enter closure arguments).Sited site :=
  ⟨⟨h.store, List.forall_mem_cons.2 ⟨hc, List.forall_mem_cons.2 ⟨trivial, h.frames⟩⟩⟩, trivial⟩

theorem sited_construct (h : m.SitedBelow site) (cls : ClassId) (arguments : List Value) :
    (m.construct cls arguments).Sited site := by
  unfold construct
  dsimp only
  split
  · exact ⟨⟨h.store, h.frames⟩, trivial⟩
  · next closure found =>
    obtain ⟨id, -, hf⟩ := Option.bind_eq_some_iff.1 found
    have body := h.store closure (Array.mem_of_getElem? hf)
    have bound := h.push (f := .construct m.store.nextInstance) trivial
    exact ⟨⟨h.store, List.forall_mem_cons.2 ⟨body, List.forall_mem_cons.2 ⟨trivial, bound.frames⟩⟩⟩, trivial⟩

theorem sited_guardCall (h : m.SitedBelow site) {paren : Token} (own : site paren) (arity given : Nat)
    {run : Machine → Machine} (hr : m.activate.SitedBelow site → (run m.activate).Sited site) :
    (m.guardCall paren arity given run).Sited site := by
  unfold guardCall
  split
  · exact sited_fail h _ own
  · split
    · exact sited_fail h _ own
    · exact hr ⟨h.store, List.forall_mem_cons.2 ⟨trivial, h.frames⟩⟩

theorem sited_call (h : m.SitedBelow site) {paren : Token} (own : site paren) (callee : Value)
    (arguments : List Value) : (m.call paren callee arguments).Sited site := by
  cases callee with
  | closure id =>
    unfold call
    dsimp only
    split
    · next closure found =>
      have body := h.store closure (Array.mem_of_getElem? found)
      exact sited_guardCall h own _ _ fun active => sited_enter active body arguments
    · exact sited_fail h _ own
  | cls id =>
    unfold call
    exact sited_guardCall h own _ _ fun active => sited_construct active id arguments
  | nil | bool _ | number _ | string _ | object _ => exact sited_fail h _ own

theorem sited_nextArgument (h : m.SitedBelow site) {paren : Token} (own : site paren) (callee : Value)
    (values : List Value) {arguments : List Expr} (ha : (Code.exprs arguments).Sited site) :
    (m.nextArgument paren callee values arguments).Sited site := by
  cases arguments with
  | nil => exact sited_call h own callee _
  | cons e rest =>
    obtain ⟨first, later⟩ := List.forall_mem_append.1 ha
    exact sited_await (f := .argument paren callee values rest) h first ⟨own, later⟩

/-! ## Properties -/

theorem sited_giveMethod (h : m.SitedBelow site) (method : ClosureId) (object : InstanceId) {name : Token}
    (own : site name) : (m.giveMethod method object name).Sited site := by
  unfold giveMethod
  split
  · exact sited_fail h _ own
  · next closure found =>
    have body := h.store closure (Array.mem_of_getElem? found)
    have added : ((m.store.boundTo closure object).1.addClosure (m.store.boundTo closure object).2).Sited site :=
      sited_addClosure h.store body
    exact ⟨⟨added, h.frames⟩, trivial⟩

theorem sited_giveProperty (h : m.SitedBelow site) (object : InstanceId) {name : Token} (own : site name) :
    (m.giveProperty object name).Sited site := by
  unfold giveProperty
  split
  · exact sited_fail h _ own
  · split
    · exact sited_give h _
    · split
      · exact sited_giveMethod h _ object own
      · exact sited_fail h _ own

theorem sited_giveSuper (h : m.SitedBelow site) (place : Place) {keyword method : Token} (hk : site keyword)
    (hm : site method) : (m.giveSuper place keyword method).Sited site := by
  unfold giveSuper
  split
  · exact sited_fail h _ hk
  · split
    · exact sited_giveMethod h _ _ hm
    · exact sited_fail h _ hm

/-! ## Steps -/

theorem sited_execute (h : m.SitedBelow site) {s : Stmt} (hs : (Code.stmt s).Sited site) :
    (m.execute s).Sited site := by
  cases s with
  | expression e | print e =>
    obtain ⟨-, inner⟩ := List.forall_mem_cons.1 hs
    exact sited_await h inner trivial
  | varDecl name initial =>
    cases initial with
    | none => exact ⟨⟨h.store, h.frames⟩, trivial⟩
    | some e =>
      obtain ⟨-, inner⟩ := List.forall_mem_cons.1 hs
      exact sited_await h inner trivial
  | block body =>
    obtain ⟨-, inner⟩ := List.forall_mem_cons.1 hs
    exact ⟨⟨h.store, List.forall_mem_cons.2 ⟨inner, List.forall_mem_cons.2 ⟨trivial, h.frames⟩⟩⟩, trivial⟩
  | ifElse condition yes no =>
    cases no with
    | none =>
      obtain ⟨-, parts⟩ := List.forall_mem_cons.1 hs
      obtain ⟨first, second⟩ := List.forall_mem_append.1 parts
      exact sited_await (f := .choose yes none) h first ⟨second, nofun⟩
    | some no =>
      obtain ⟨-, parts⟩ := List.forall_mem_cons.1 hs
      obtain ⟨first, branches⟩ := List.forall_mem_append.1 parts
      obtain ⟨second, third⟩ := List.forall_mem_append.1 branches
      refine sited_await (f := .choose yes (some no)) h first ⟨second, ?_⟩
      rintro _ ⟨⟩
      exact third
  | whileDo condition body =>
    obtain ⟨-, parts⟩ := List.forall_mem_cons.1 hs
    obtain ⟨first, second⟩ := List.forall_mem_append.1 parts
    exact sited_await (f := .test condition body) h first ⟨first, second⟩
  | funDecl routine =>
    obtain ⟨-, inner⟩ := List.forall_mem_cons.1 hs
    have own : (Code.routine routine).Sited site := inner
    exact ⟨⟨sited_addClosure h.store own.body, h.frames⟩, trivial⟩
  | ret keyword value =>
    cases value with
    | none => exact sited_finish h _
    | some e =>
      obtain ⟨-, inner⟩ := List.forall_mem_cons.1 hs
      exact sited_await h inner trivial
  | classDecl name superclass methods =>
    cases superclass with
    | none =>
      obtain ⟨own, inner⟩ := List.forall_mem_cons.1 hs
      exact sited_declareClass h own.1 none inner
    | some e =>
      obtain ⟨own, parts⟩ := List.forall_mem_cons.1 hs
      obtain ⟨first, second⟩ := List.forall_mem_append.1 parts
      exact sited_await (f := .inherit name e methods) h first ⟨own.1, own.2 e rfl, second⟩

variable {place : UseId → Place}

theorem sited_evaluate (h : m.SitedBelow site) {e : Expr} (he : (Code.expr e).Sited site)
    (slot : ∀ use name, e = .ref use name → name.lexeme = ForLoop.slotName →
      ∃ v, m.store.read? m.scope (place use) name.lexeme = some v) : (m.evaluate place e).Sited site := by
  cases e with
  | literal value => exact sited_give h _
  | group inner =>
    obtain ⟨-, inner⟩ := List.forall_mem_cons.1 he
    exact ⟨⟨h.store, h.frames⟩, inner⟩
  | unary operator operand =>
    obtain ⟨own, inner⟩ := List.forall_mem_cons.1 he
    exact sited_await (f := .unary operator) h inner own
  | binary operator l r =>
    obtain ⟨own, parts⟩ := List.forall_mem_cons.1 he
    obtain ⟨first, second⟩ := List.forall_mem_append.1 parts
    exact sited_await (f := .left operator r) h first ⟨own, second⟩
  | logical operator l r =>
    obtain ⟨-, parts⟩ := List.forall_mem_cons.1 he
    obtain ⟨first, second⟩ := List.forall_mem_append.1 parts
    exact sited_await (f := .logical operator r) h first second
  | ref use name =>
    obtain ⟨own, -⟩ := List.forall_mem_cons.1 he
    exact sited_giveVariable h (Or.imp_right (slot use name rfl) own)
  | assign use name value =>
    obtain ⟨own, inner⟩ := List.forall_mem_cons.1 he
    exact sited_await (f := .assign use name) h inner own
  | call callee paren arguments =>
    obtain ⟨own, parts⟩ := List.forall_mem_cons.1 he
    obtain ⟨first, second⟩ := List.forall_mem_append.1 parts
    exact sited_await (f := .callee paren arguments) h first ⟨own, second⟩
  | get object name =>
    obtain ⟨own, inner⟩ := List.forall_mem_cons.1 he
    exact sited_await (f := .property name) h inner own
  | set object name value =>
    obtain ⟨own, parts⟩ := List.forall_mem_cons.1 he
    obtain ⟨first, second⟩ := List.forall_mem_append.1 parts
    exact sited_await (f := .target name value) h second ⟨own, first⟩
  | self use keyword =>
    obtain ⟨own, -⟩ := List.forall_mem_cons.1 he
    exact sited_giveVariable h (.inl own)
  | super use keyword method =>
    obtain ⟨own, -⟩ := List.forall_mem_cons.1 he
    exact sited_giveSuper h _ own.1 own.2

theorem sited_receive (h : m.SitedBelow site) (v : Value) {frame : Frame} (hf : frame.Sited site)
    (slot : ∀ use name, frame = .assign use name → name.lexeme = ForLoop.slotName →
      ∃ found, m.store.target? m.scope (place use) name.lexeme = some found) :
    (m.receive place v frame).Sited site := by
  cases frame with
  | discard => exact sited_finish h _
  | print => exact sited_printValue h v
  | define name => exact ⟨⟨h.store, h.frames⟩, trivial⟩
  | choose yes no => exact sited_branch h v hf.1 hf.2
  | test condition body =>
    simp only [receive]
    split
    · exact sited_perform (f := .again condition body) h hf.2 hf
    · exact sited_finish h _
  | giveBack => exact sited_finish h _
  | inherit name superclass methods =>
    cases v with
    | cls id => exact sited_declareClass h hf.1 (some id) hf.2.2
    | nil | bool _ | number _ | string _ | closure _ | object _ => exact sited_fail h _ hf.2.1
  | unary operator => exact sited_giveResult h _ hf
  | left operator r => exact sited_await (f := .right operator v) h hf.2 hf.1
  | right operator l => exact sited_giveResult h _ hf
  | logical operator r =>
    simp only [receive]
    split
    · exact sited_give h v
    · exact ⟨⟨h.store, h.frames⟩, hf⟩
  | assign use name => exact sited_assignVariable h v (Or.imp_right (slot use name rfl) hf)
  | callee paren arguments => exact sited_nextArgument h hf.1 v [] hf.2
  | argument paren callee values arguments => exact sited_nextArgument h hf.1 callee _ hf.2
  | property name =>
    cases v with
    | object id => exact sited_giveProperty h id hf
    | nil | bool _ | number _ | string _ | closure _ | cls _ => exact sited_fail h _ hf
  | target name value =>
    cases v with
    | object id => exact sited_await (f := .store id name) h hf.2 trivial
    | nil | bool _ | number _ | string _ | closure _ | cls _ => exact sited_fail h _ hf.1
  | store object name => exact ⟨⟨h.store, h.frames⟩, trivial⟩
  | construct object | leave => exact ⟨⟨h.store, h.frames⟩, trivial⟩
  | sequence _ | again _ _ | leaveScope _ | body _ _ =>
    exact ⟨⟨h.store, List.forall_mem_cons.2 ⟨hf, h.frames⟩⟩, trivial⟩

theorem sited_resume (h : m.SitedBelow site) (c : Completion) {frame : Frame} (hf : frame.Sited site) :
    (m.resume c frame).Sited site := by
  cases frame with
  | sequence rest =>
    cases c with
    | returned v => exact sited_finish h _
    | normal =>
      cases rest with
      | nil => exact sited_finish h _
      | cons s rest =>
        obtain ⟨first, later⟩ := List.forall_mem_append.1 hf
        exact sited_perform (f := .sequence rest) h first later
  | again condition body =>
    cases c with
    | returned v => exact sited_finish h _
    | normal => exact sited_await (f := .test condition body) h hf.1 hf
  | leaveScope _ | body _ _ => exact ⟨⟨h.store, h.frames⟩, trivial⟩
  | _ => exact ⟨⟨h.store, List.forall_mem_cons.2 ⟨hf, h.frames⟩⟩, trivial⟩

/-- A step that fails fails at a token of the kind, and what is held after a step fails at such tokens only. -/
theorem sited_step (h : m.Sited site) (finds : m.FindsSlot place) : (m.step place).Sited site := by
  obtain ⟨control, frames, scope, depth, store, sink⟩ := m
  obtain ⟨below, held⟩ := h
  cases control with
  | exec s => exact sited_execute below held
  | eval e =>
    refine sited_evaluate below held ?_
    rintro use name rfl
    exact finds.read use name rfl
  | value v =>
    cases frames with
    | nil => exact ⟨below, held⟩
    | cons frame frames =>
      obtain ⟨first, rest⟩ := List.forall_mem_cons.1 below.frames
      refine sited_receive (m := ⟨.value v, frames, scope, depth, store, sink⟩) ⟨below.store, rest⟩ v first ?_
      rintro use name rfl
      exact finds.write use name v frames rfl rfl
  | finished c =>
    cases frames with
    | nil => exact ⟨below, held⟩
    | cons frame frames =>
      obtain ⟨first, rest⟩ := List.forall_mem_cons.1 below.frames
      exact sited_resume (m := ⟨.finished c, frames, scope, depth, store, sink⟩) ⟨below.store, rest⟩ c first
  | failed e =>
    cases frames with
    | nil => exact ⟨below, held⟩
    | cons frame frames =>
      -- the frame is given up, and the failure stays what it is
      obtain ⟨-, rest⟩ := List.forall_mem_cons.1 below.frames
      cases frame <;> exact ⟨⟨below.store, rest⟩, held⟩

end Machine

end Lox
