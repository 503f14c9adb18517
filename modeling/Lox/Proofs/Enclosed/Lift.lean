/-
A machine in one more scope. Around everything that a machine has in its store there is a new scope without variables,
the global one from now on, so that every other scope has the next number; and when nothing is left to do, the new
scope becomes current again. Such a machine takes the same steps (`step_lift`), as long as uses are sent to the same
scopes.
-/
import Lox.Proofs.Machine.NewClass

namespace Lox

/-! ## Scopes and functions -/

/-- A scope with one more scope around the outermost one. -/
def Scope.lift (scope : Scope) : Scope :=
  { scope with parent := some (scope.parent.elim Store.globalScope (· + 1)) }

/-- A function in one more scope. -/
def Closure.lift (closure : Closure) : Closure := { closure with scope := closure.scope + 1 }

namespace Store

/-- A store with one more scope around everything. -/
def lift (s : Store) : Store :=
  { s with scopes := #[⟨none, .empty⟩] ++ s.scopes.map Scope.lift, closures := s.closures.map Closure.lift }

variable (s : Store) (id : ScopeId) (name : String)

theorem getElem?_append_succ {α : Type} (x : α) (xs : Array α) (i : Nat) : (#[x] ++ xs)[i + 1]? = xs[i]? := by
  simp [Array.getElem?_append]

theorem getElem?_lift_zero : s.lift.scopes[globalScope]? = some ⟨none, .empty⟩ :=
  Array.getElem?_append_left Nat.zero_lt_one

theorem getElem?_lift_succ : s.lift.scopes[id + 1]? = s.scopes[id]?.map Scope.lift :=
  (getElem?_append_succ _ _ _).trans Array.getElem?_map

theorem getElem?_closures_lift (id : ClosureId) : s.lift.closures[id]? = s.closures[id]?.map Closure.lift := by
  simp [lift]

@[simp] theorem nextScope_lift : s.lift.nextScope = s.nextScope + 1 := by
  simp [lift, nextScope, Nat.add_comm]

@[simp] theorem nextClosure_lift : s.lift.nextClosure = s.nextClosure := by
  simp [lift, nextClosure]

/-! ## Changes -/

theorem addScope_lift (scope : Scope) : (s.addScope scope).lift = s.lift.addScope scope.lift := by
  simp [lift, addScope]

theorem addClosure_lift (closure : Closure) : (s.addClosure closure).lift = s.lift.addClosure closure.lift := by
  simp [lift, addClosure]

theorem define_lift (v : Value) : (s.define id name v).lift = s.lift.define (id + 1) name v := by
  unfold define lift
  congr 1
  refine Array.ext_getElem? fun i => ?_
  cases i with
  | zero =>
    rw [Array.getElem?_modify, if_neg (Nat.succ_ne_zero id), Array.getElem?_append_left Nat.zero_lt_one,
      Array.getElem?_append_left Nat.zero_lt_one]
  | succ i =>
    rw [Array.getElem?_modify, getElem?_append_succ, getElem?_append_succ, Array.getElem?_map, Array.getElem?_map,
      Array.getElem?_modify]
    by_cases same : id = i
    · rw [if_pos same, if_pos (congrArg Nat.succ same)]
      cases s.scopes[i]? <;> rfl
    · rw [if_neg same, if_neg fun e => same (Nat.succ.inj e)]

theorem addClass_lift (cls : Class) : (s.addClass cls).lift = s.lift.addClass cls := rfl

theorem boundTo_lift (method : Closure) (object : InstanceId) :
    s.lift.boundTo method.lift object = ((s.boundTo method object).1.lift, (s.boundTo method object).2.lift) := by
  simp [boundTo, addScope_lift, Scope.lift, Closure.lift]

/-! ## Looking up -/

theorem valueIn?_lift_zero : s.lift.valueIn? globalScope name = none := by
  rw [valueIn?, getElem?_lift_zero]
  rfl

@[simp] theorem valueIn?_lift_succ : s.lift.valueIn? (id + 1) name = s.valueIn? id name := by
  rw [valueIn?, valueIn?, getElem?_lift_succ]
  cases s.scopes[id]? <;> rfl

theorem binds_lift_zero : s.lift.binds globalScope name = false := by
  rw [binds, valueIn?_lift_zero]
  rfl

@[simp] theorem binds_lift_succ : s.lift.binds (id + 1) name = s.binds id name := by
  rw [binds, binds, valueIn?_lift_succ]

theorem parent?_lift_zero : s.lift.parent? globalScope = none := by
  rw [parent?, getElem?_lift_zero]
  rfl

theorem parent?_lift_succ :
    s.lift.parent? (id + 1) = s.scopes[id]?.map fun scope => scope.parent.elim globalScope (· + 1) := by
  rw [parent?, getElem?_lift_succ]
  cases s.scopes[id]? <;> rfl

/-- A use is sent to the same scope with and without the scope around everything. -/
def SameTarget (place place' : Place) : Prop :=
  s.lift.target? (id + 1) place' name = (s.target? id place name).map (· + 1)

variable {s id name} {place place' : Place}

/-- The new scope has no variables, and there is nothing around it. -/
theorem target?_lift_zero (d : Nat) : s.lift.target? globalScope (.hops d) name = none := by
  cases d with
  | zero => simp [target?, ancestor?, Option.filter, binds_lift_zero]
  | succ d => simp [target?, ancestor?_succ, parent?_lift_zero]

theorem target?_lift_globals : s.lift.target? (id + 1) .globals name = none := by
  rw [target?, holder?, holderFrom?, binds_lift_zero, parent?_lift_zero]
  rfl

theorem sameTarget_hops (d : Nat) : s.SameTarget id name (.hops d) (.hops d) := by
  unfold SameTarget
  induction d generalizing id with
  | zero =>
    simp only [target?, ancestor?, Option.filter, binds_lift_succ]
    split <;> rfl
  | succ d ih =>
    simp only [target?, ancestor?_succ, parent?_lift_succ] at ih ⊢
    rw [parent?]
    cases s.scopes[id]? with
    | none => rfl
    | some scope =>
      obtain ⟨outer, bindings⟩ := scope
      cases outer with
      | none => exact target?_lift_zero d
      | some outer => exact ih

theorem read?_lift (h : s.SameTarget id name place place') :
    s.lift.read? (id + 1) place' name = s.read? id place name := by
  rw [read?, read?, h]
  cases s.target? id place name with
  | none => rfl
  | some found => exact valueIn?_lift_succ s found name

theorem write?_lift (h : s.SameTarget id name place place') (v : Value) :
    s.lift.write? (id + 1) place' name v = (s.write? id place name v).map lift := by
  rw [write?, write?, h]
  cases s.target? id place name with
  | none => rfl
  | some found => exact congrArg some (define_lift s found name v).symm

variable (s)

@[simp] theorem findMethod?_lift (id : ClassId) : s.lift.findMethod? id name = s.findMethod? id name := by
  have same (fuel : Nat) (id : ClassId) : s.lift.findMethodFrom? name fuel id = s.findMethodFrom? name fuel id := by
    induction fuel generalizing id with
    | zero => rfl
    | succ fuel ih =>
      have ih : s.lift.findMethodFrom? name fuel = s.findMethodFrom? name fuel := funext ih
      rw [findMethodFrom?, findMethodFrom?, ih]
      rfl
  exact same _ id

theorem initializer_lift (id : ClassId) : (s.lift.findInitializer? id).bind (s.lift.closures[·]?) =
    ((s.findInitializer? id).bind (s.closures[·]?)).map Closure.lift := by
  rw [findInitializer?, findInitializer?, findMethod?_lift]
  cases s.findMethod? id initializerName with
  | none => rfl
  | some found => exact getElem?_closures_lift s found

@[simp] theorem classArity_lift (id : ClassId) : s.lift.classArity id = s.classArity id := by
  rw [classArity, classArity, initializer_lift]
  cases (s.findInitializer? id).bind (s.closures[·]?) <;> rfl

@[simp] theorem display_lift (v : Value) : s.lift.display v = s.display v := by
  cases v with
  | closure id =>
    simp only [display, getElem?_closures_lift]
    cases s.closures[id]? <;> rfl
  | nil | bool _ | number _ | string _ | cls _ | object _ => rfl

end Store

/-! ## Machines -/

/-- A frame in one more scope. -/
def Frame.lift : Frame → Frame
  | .leaveScope outer => .leaveScope (outer + 1)
  | .body closure caller => .body closure.lift (caller + 1)
  | frame => frame

namespace Machine

/-- A machine in one more scope, which it leaves when nothing is left to do. -/
def lift (m : Machine) : Machine :=
  ⟨m.control, m.frames.map Frame.lift ++ [.leaveScope Store.globalScope, .sequence []], m.scope + 1, m.depth,
    m.store.lift, m.sink⟩

variable (m : Machine)

/-! ## Classes -/

theorem addMethods_lift (scope : ScopeId) : ∀ (methods : List (Routine Stmt)) (s : Store),
    addMethods (scope + 1) methods s.lift =
      ((addMethods scope methods s).1.lift, (addMethods scope methods s).2)
  | [], _ => rfl
  | r :: rest, s => by
    have added : s.lift.addClosure ⟨r, scope + 1, r.isInitializer⟩ = (s.addClosure ⟨r, scope, r.isInitializer⟩).lift :=
      (s.addClosure_lift ⟨r, scope, r.isInitializer⟩).symm
    simp only [addMethods, added, addMethods_lift scope rest, Store.nextClosure_lift]

theorem methodScope_lift (scope : ScopeId) (superclass : Option ClassId) (s : Store) :
    methodScope (scope + 1) superclass s.lift =
      ((methodScope scope superclass s).1.lift, (methodScope scope superclass s).2 + 1) := by
  cases superclass with
  | none => rfl
  | some parent => simp [methodScope, Store.addScope_lift, Scope.lift]

theorem withClass_lift (scope : ScopeId) (name : String) (superclass : Option ClassId) (methods : List (Routine Stmt))
    (s : Store) :
    withClass (scope + 1) name superclass methods s.lift = (withClass scope name superclass methods s).lift := by
  simp only [withClass, ← Store.define_lift, methodScope_lift, addMethods_lift, Store.addClass_lift]

theorem declareClass_lift (h : m.scope < m.store.scopes.size) (name : Token) (superclass : Option ClassId)
    (methods : List (Routine Stmt)) :
    (m.declareClass name superclass methods).lift = m.lift.declareClass name superclass methods := by
  have h' : m.lift.scope < m.lift.store.scopes.size := by
    rw [show m.lift.store.scopes.size = m.store.nextScope + 1 from m.store.nextScope_lift]
    exact Nat.succ_lt_succ h
  rw [declareClass_eq h, declareClass_eq h', show m.lift.store = m.store.lift from rfl,
    show m.lift.scope = m.scope + 1 from rfl, withClass_lift, ← Store.define_lift]
  rfl

end Machine

end Lox
