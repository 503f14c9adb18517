/-
The frames of two programs that run side by side. Frame by frame they wait for the same, with parts of the programs
that are alike; only in a pass of a loop over a variable the left side has frames of its own, which copy the variable
back. While they wait, the tie of the variable is with its copy, and the frames below them belong together once it is
handed back. The frames below a call belong together as they did when the call was made, for none of the ties that
changed since then is older than the call.
-/
import Lox.Machine.Step
import Lox.Proofs.Machine.Passes
import Lox.Proofs.Pair.Stores

namespace Lox

/-- What a frame waits for. -/
inductive Awaits
  /-- The value of an expression. -/
  | value
  /-- The end of a statement. -/
  | ending

namespace Sides

/-- Parts that are alike in these scopes. -/
def At (p : Pairing) (s : Sides) (since i i' : ScopeId) (code code' : Code) : Prop :=
  ∃ links, Stands s since links i i' ∧ p.Alike links code code'

section

variable (p : Pairing) (s : Sides) (since : ScopeId)

/-- `Takes p s since a i i' f f' b j j'` says that the frames `f` and `f'` wait for `a` when the scopes `i` and `i'` are
current, and that afterwards `b` is awaited from them, with `j` and `j'` as the current scopes. -/
inductive Takes : Awaits → ScopeId → ScopeId → Frame → Frame → Awaits → ScopeId → ScopeId → Prop
  | discard {i i'} : Takes .value i i' .discard .discard .ending i i'
  | print {i i'} : Takes .value i i' .print .print .ending i i'
  | define {i i'} {name name' : Token} (shares : Shares p s i i' name.lexeme name'.lexeme) :
    Takes .value i i' (.define name) (.define name') .ending i i'
  | choose {i i' e e' yes yes' no no'}
      (place : At p s since i i' (.stmt (.ifElse e yes no)) (.stmt (.ifElse e' yes' no'))) :
    Takes .value i i' (.choose yes no) (.choose yes' no') .ending i i'
  | test {i i' e e' body body'} (place : At p s since i i' (.stmt (.whileDo e body)) (.stmt (.whileDo e' body'))) :
    Takes .value i i' (.test e body) (.test e' body') .ending i i'
  | giveBack {i i'} : Takes .value i i' .giveBack .giveBack .ending i i'
  | inherit {i i' name e e' methods methods'}
      (place : At p s since i i' (.stmt (.classDecl name (some e) methods)) (.stmt (.classDecl name (some e') methods'))) :
    Takes .value i i' (.inherit name e methods) (.inherit name e' methods') .ending i i'
  | unary {i i' operator} : Takes .value i i' (.unary operator) (.unary operator) .value i i'
  | left {i i' operator r r'} (place : At p s since i i' (.expr r) (.expr r')) :
    Takes .value i i' (.left operator r) (.left operator r') .value i i'
  | right {i i' operator v} : Takes .value i i' (.right operator v) (.right operator v) .value i i'
  | logical {i i' operator r r'} (place : At p s since i i' (.expr r) (.expr r')) :
    Takes .value i i' (.logical operator r) (.logical operator r') .value i i'
  | assign {i i' id e e' name name'}
      (place : At p s since i i' (.expr (.assign id name e)) (.expr (.assign id name' e'))) :
    Takes .value i i' (.assign id name) (.assign id name') .value i i'
  | callee {i i' paren es es'} (place : At p s since i i' (.exprs es) (.exprs es')) :
    Takes .value i i' (.callee paren es) (.callee paren es') .value i i'
  | argument {i i' es es' paren callee values} (place : At p s since i i' (.exprs es) (.exprs es'))
      (holds : Holds p s callee) (given : ∀ v ∈ values, Holds p s v) :
    Takes .value i i' (.argument paren callee values es) (.argument paren callee values es') .value i i'
  | property {i i' name} : Takes .value i i' (.property name) (.property name) .value i i'
  | target {i i' name e e'} (place : At p s since i i' (.expr e) (.expr e')) :
    Takes .value i i' (.target name e) (.target name e') .value i i'
  | store {i i' object name} : Takes .value i i' (.store object name) (.store object name) .value i i'
  | construct {i i' object} : Takes .value i i' (.construct object) (.construct object) .value i i'
  | leave {i i'} : Takes .value i i' .leave .leave .value i i'
  | sequence {i i' rest rest'} (place : At p s since i i' (.stmts rest) (.stmts rest')) :
    Takes .ending i i' (.sequence rest) (.sequence rest') .ending i i'
  | again {i i' e e' body body'} (place : At p s since i i' (.stmt (.whileDo e body)) (.stmt (.whileDo e' body'))) :
    Takes .ending i i' (.again e body) (.again e' body') .ending i i'
  | leaveScope {i i' j j'} : Takes .ending i i' (.leaveScope j) (.leaveScope j') .ending j j'

/-- The scopes on the left in a pass of a loop: `copy` has the copy of the variable, and it is in the scope of the slot,
in the scope `outer` where the pass started; the scope of the variable is around that. -/
structure Pass (id : UseId) (name : Token) (copy slot outer var var' : ScopeId) : Prop where
  other : name.lexeme ≠ ForLoop.slotName
  tied : s.tie copy = some (var', .only name.lexeme)
  slotAlone : s.tie slot = none
  varAlone : s.tie var = none
  inSlot : s.left.parent? copy = some slot
  around : s.left.parent? slot = some outer
  toVar : ∃ far, Copies p.table id (some far) ∧ s.left.ancestor? outer far = some var
  hasCopy : s.left.binds copy name.lexeme = true
  hasSlot : s.left.binds slot ForLoop.slotName = true
  hasVar : s.left.binds var name.lexeme = true
  /-- The scopes of the loop are none of an earlier call. -/
  young : since ≤ copy ∧ since ≤ var
  inside : 0 < var

end

/-- Whether the frames of both sides fit, frame on frame, when this is awaited and these scopes are current. -/
inductive Frames (p : Pairing) : Sides → ScopeId → Awaits → ScopeId → ScopeId → List Frame → List Frame → Prop
  | nil {s since} : Frames p s since .ending Store.globalScope Store.globalScope [] []
  | cons {s since a i i' f f' b j j' frames frames'} (takes : Takes p s since a i i' f f' b j j')
      (below : Frames p s since b j j' frames frames') : Frames p s since a i i' (f :: frames) (f' :: frames')
  /-- The end of a call that was made when the stores were `earlier`. -/
  | body {s earlier since since₀ i i' f f' caller caller' frames frames'} (grows : Grows earlier s)
      (bound : ∀ i, since ≤ i → earlier.tie i = none) (size : earlier.left.scopes.size ≤ since)
      (young : since₀ ≤ earlier.left.scopes.size) (initializer : f'.initializer = f.initializer)
      (word : f.initializer = true → Shares p earlier f.scope f'.scope thisName thisName)
      (below : Frames p earlier since₀ .value caller caller' frames frames') :
      Frames p s since .ending i i' (.body f caller :: frames) (.body f' caller' :: frames')
  /-- The end of a pass of a loop, in which nothing comes after the body on the right. -/
  | pass {s since id name i i' slot var var' frames frames'} (pass : Pass p s since id name i slot var var var')
      (below : Frames p (s.hand i var) since .ending var var' frames frames') :
      Frames p s since .ending i i' (ForLoop.copyingBack id name slot var ++ frames)
        (.sequence [] :: .leaveScope var' :: frames')
  /-- The end of a pass of a loop, after which the last clause comes. -/
  | clause {s since id name i i' slot outer var var' rest rest' frames frames'}
      (pass : Pass p s since id name i slot outer var var')
      (place : At p (s.hand i var) since outer i' (.stmts rest) (.stmts rest'))
      (below : Frames p (s.hand i var) since .ending outer i' frames frames') :
      Frames p s since .ending i i' (ForLoop.copyingBack id name slot outer ++ .sequence rest :: frames)
        (.sequence rest' :: frames')

/-- Whether both sides do what the frames wait for. -/
inductive Gives (p : Pairing) (s : Sides) (since i i' : ScopeId) : Awaits → Control → Control → Prop
  | exec {t t'} (place : At p s since i i' (.stmt t) (.stmt t')) : Gives p s since i i' .ending (.exec t) (.exec t')
  | eval {e e'} (place : At p s since i i' (.expr e) (.expr e')) : Gives p s since i i' .value (.eval e) (.eval e')
  | value {v} (holds : Holds p s v) : Gives p s since i i' .value (.value v) (.value v)
  | finished (c : Completion) (holds : ∀ v, c = .returned v → Holds p s v) :
    Gives p s since i i' .ending (.finished c) (.finished c)

/-! ## Growth -/

variable {p : Pairing} {s s' : Sides} {since i i' : ScopeId}

theorem Grows.at (h : Grows s s') {code code' : Code} (place : At p s since i i' code code') :
    At p s' since i i' code code' := by
  obtain ⟨links, stands, alike⟩ := place
  exact ⟨links, h.stands stands, alike⟩

theorem Grows.shares (h : Grows s s') {n n' : String} (hs : Shares p s i i' n n') : Shares p s' i i' n n' := by
  rcases hs with global | ⟨t, ht, names⟩
  · exact .inl global
  · exact .inr ⟨t, h.tied _ _ ht, names⟩

theorem Grows.holds (h : Grows s s') {v : Value} (hv : Holds p s v) : Holds p s' v := h.keeps.holds hv

theorem Grows.takes (h : Grows s s') {a b : Awaits} {j j' : ScopeId} {f f' : Frame}
    (ht : Takes p s since a i i' f f' b j j') : Takes p s' since a i i' f f' b j j' := by
  cases ht with
  | discard => exact .discard
  | print => exact .print
  | define shares => exact .define (h.shares shares)
  | choose place => exact .choose (h.at place)
  | test place => exact .test (h.at place)
  | giveBack => exact .giveBack
  | inherit place => exact .inherit (h.at place)
  | unary => exact .unary
  | left place => exact .left (h.at place)
  | right => exact .right
  | logical place => exact .logical (h.at place)
  | assign place => exact .assign (h.at place)
  | callee place => exact .callee (h.at place)
  | argument place holds given => exact .argument (h.at place) (h.holds holds) fun v hv => h.holds (given v hv)
  | property => exact .property
  | target place => exact .target (h.at place)
  | store => exact .store
  | construct => exact .construct
  | leave => exact .leave
  | sequence place => exact .sequence (h.at place)
  | again place => exact .again (h.at place)
  | leaveScope => exact .leaveScope

namespace Pass

variable {id : UseId} {name : Token} {slot outer var var' : ScopeId}

theorem copy_lt (h : Pass p s since id name i slot outer var var') : i < s.left.scopes.size :=
  Store.lt_size_of_binds h.hasCopy

theorem slot_lt (h : Pass p s since id name i slot outer var var') : slot < s.left.scopes.size :=
  Store.lt_size_of_binds h.hasSlot

theorem var_lt (h : Pass p s since id name i slot outer var var') : var < s.left.scopes.size :=
  Store.lt_size_of_binds h.hasVar

theorem var_ne_copy (h : Pass p s since id name i slot outer var var') : i ≠ var := by
  rintro rfl
  cases h.varAlone.symm.trans h.tied

end Pass

theorem Grows.pass (h : Grows s s') {id : UseId} {name : Token} {slot outer var var' : ScopeId}
    (hp : Pass p s since id name i slot outer var var') : Pass p s' since id name i slot outer var var' where
  other := hp.other
  tied := h.tied _ _ hp.tied
  slotAlone := h.untied _ hp.slot_lt hp.slotAlone
  varAlone := h.untied _ hp.var_lt hp.varAlone
  inSlot := h.left.parent _ _ hp.inSlot
  around := h.left.parent _ _ hp.around
  toVar := by
    obtain ⟨far, copies, hv⟩ := hp.toVar
    exact ⟨far, copies, h.left.ancestor hv⟩
  hasCopy := h.left.binds _ _ hp.hasCopy
  hasSlot := h.left.binds _ _ hp.hasSlot
  hasVar := h.left.binds _ _ hp.hasVar
  young := hp.young
  inside := hp.inside

/-- A frame that waits for a value leaves the scopes as they are. -/
theorem Takes.same_scopes {a : Awaits} {j j' : ScopeId} {f f' : Frame}
    (h : Takes p s since .value i i' f f' a j j') : j = i ∧ j' = i' := by
  cases h
  all_goals exact ⟨rfl, rfl⟩

/-- Frames fit as long as no tie of an older scope changes. -/
theorem Grows.frames (h : Grows s s') {a : Awaits} {frames frames' : List Frame}
    (hf : Frames p s since a i i' frames frames') : Frames p s' since a i i' frames frames' := by
  induction hf generalizing s' with
  | nil => exact .nil
  | cons takes _ ih => exact .cons (h.takes takes) (ih h)
  | body grows bound size young initializer word below _ =>
    exact .body (grows.trans h) bound size young initializer word below
  | pass pass _ ih => exact .pass (h.pass pass) (ih (h.hand pass.copy_lt))
  | @clause _ _ _ _ copy _ _ _ var _ _ _ _ _ pass place _ ih =>
    have handed := h.hand (i := copy) (j := var) pass.copy_lt
    exact .clause (h.pass pass) (handed.at place) (ih handed)

end Sides

end Lox
