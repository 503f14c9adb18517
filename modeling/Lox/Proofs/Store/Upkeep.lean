/-
What a running program keeps up in its store. A store has scopes, functions, classes and instances, and each of them leads
to others (`Store.Links`). An upkeep says which of them a program may have in its hands, and what is to hold of the store; it
holds then along all links, and after every operation that is given nothing else (`Upkeep`). What follows here are the
larger operations that are made of these: variables that are looked up, methods that are found and bound, and
the parts of a class.
-/
import Lox.Proofs.Machine.NewClass

namespace Lox

/-! ## Things -/

/-- Something that is in a store, by its number. -/
inductive Thing
  | scope (id : ScopeId)
  | closure (id : ClosureId)
  | cls (id : ClassId)
  | object (id : InstanceId)
  deriving DecidableEq

namespace Value

/-- What a value names, if it does not stand for itself. -/
def thing? : Value → Option Thing
  | .closure id => some (.closure id)
  | .cls id => some (.cls id)
  | .object id => some (.object id)
  | _ => none

/-- Whether something holds of what a value names. -/
def All (p : Thing → Prop) : Value → Prop
  | .closure id => p (.closure id)
  | .cls id => p (.cls id)
  | .object id => p (.object id)
  | _ => True

variable {p q : Thing → Prop} {v : Value}

theorem all_iff : v.All p ↔ ∀ x, v.thing? = some x → p x := by
  cases v <;> simp [All, thing?]

/-- No value is a scope. -/
theorem thing?_ne_scope (v : Value) (id : ScopeId) : v.thing? ≠ some (.scope id) := by
  cases v <;> simp [thing?]

theorem All.imp (h : v.All p) (hpq : ∀ x, p x → q x) : v.All q :=
  all_iff.2 fun x hx => hpq x (all_iff.1 h x hx)

theorem all_ofLiteral (p : Thing → Prop) (value : Literal) : (ofLiteral value).All p := by
  cases value <;> trivial

end Value

/-- Whether something holds of all that names are bound to. -/
def Bindings.All (p : Thing → Prop) (vars : Bindings Value) : Prop :=
  ∀ name v, vars.get? name = some v → v.All p

theorem Bindings.all_empty (p : Thing → Prop) : Bindings.empty.All p := nofun

theorem Bindings.All.set {p : Thing → Prop} {vars : Bindings Value} (h : vars.All p) (name : String) {v : Value}
    (hv : v.All p) : (vars.set name v).All p := by
  intro other x hx
  rw [Bindings.get?_set] at hx
  split at hx
  · cases hx
    exact hv
  · exact h other x hx

namespace Store

/-- Whether something is in a store. -/
def Contains (s : Store) : Thing → Prop
  | .scope id => id < s.scopes.size
  | .closure id => id < s.closures.size
  | .cls id => id < s.classes.size
  | .object id => id < s.instances.size

/-- Whether a function was declared as a method of this name. -/
def IsMethod (s : Store) (name : String) (id : ClosureId) : Prop :=
  ∃ r scope, s.closures[id]? = some ⟨r, scope, r.isInitializer⟩ ∧ r.name.lexeme = name

/-- Whether one thing leads to another at once. -/
inductive Links (s : Store) : Thing → Thing → Prop
  | enclosing {id outer : ScopeId} (h : s.parent? id = some outer) : Links s (.scope id) (.scope outer)
  | bound {id : ScopeId} {name : String} {v : Value} {x : Thing} (h : s.valueIn? id name = some v)
    (hx : v.thing? = some x) : Links s (.scope id) x
  | closure {id : ClosureId} {f : Closure} (h : s.closures[id]? = some f) : Links s (.closure id) (.scope f.scope)
  | method {id : ClassId} {cls : Class} {name : String} {f : ClosureId} (h : s.classes[id]? = some cls)
    (hf : cls.methods.get? name = some f) : Links s (.cls id) (.closure f)
  | superclass {id parent : ClassId} {cls : Class} (h : s.classes[id]? = some cls)
    (hp : cls.superclass = some parent) : Links s (.cls id) (.cls parent)
  | cls {id : InstanceId} {object : Instance} (h : s.instances[id]? = some object) : Links s (.object id) (.cls object.cls)
  | field {id : InstanceId} {object : Instance} {name : String} {v : Value} {x : Thing}
    (h : s.instances[id]? = some object) (hv : object.fields.get? name = some v) (hx : v.thing? = some x) :
    Links s (.object id) x

end Store

/-! ## Upkeep -/

/-- Something that every operation of a program keeps up: an `order` in the store, as long as no operation is given
anything that is not `fit`, and how a `later` store has come from one before. Who starts with fit things finds no others. -/
structure Upkeep where
  order : Store → Prop
  fit : Store → Thing → Prop
  later : Store → Store → Prop
  refl (s : Store) : later s s
  trans {s s' s'' : Store} : later s s' → later s' s'' → later s s''
  stays {s s' : Store} {x : Thing} : later s s' → fit s x → fit s' x
  globals {s : Store} : order s → fit s (.scope Store.globalScope)
  found {s : Store} {x y : Thing} : order s → fit s x → s.Links x y → fit s y
  define {s : Store} {id : ScopeId} {v : Value} (name : String) : order s → fit s (.scope id) → v.All (fit s) →
    later s (s.define id name v) ∧ order (s.define id name v)
  addScope {s : Store} {outer : ScopeId} {vars : Bindings Value} : order s → fit s (.scope outer) → vars.All (fit s) →
    later s (s.addScope ⟨some outer, vars⟩) ∧ order (s.addScope ⟨some outer, vars⟩) ∧
      fit (s.addScope ⟨some outer, vars⟩) (.scope s.nextScope)
  addClosure {s : Store} {f : Closure} : order s → fit s (.scope f.scope) →
    later s (s.addClosure f) ∧ order (s.addClosure f) ∧ fit (s.addClosure f) (.closure s.nextClosure)
  addClass {s : Store} {cls : Class} : order s → (∀ parent ∈ cls.superclass, fit s (.cls parent)) →
    (∀ name f, cls.methods.get? name = some f → fit s (.closure f) ∧ s.IsMethod name f) →
    later s (s.addClass cls) ∧ order (s.addClass cls) ∧ fit (s.addClass cls) (.cls s.nextClass)
  addInstance {s : Store} {cls : ClassId} : order s → fit s (.cls cls) →
    later s (s.addInstance ⟨cls, .empty⟩) ∧ order (s.addInstance ⟨cls, .empty⟩) ∧
      fit (s.addInstance ⟨cls, .empty⟩) (.object s.nextInstance)
  setField {s : Store} {object : InstanceId} {v : Value} (name : String) : order s → fit s (.object object) →
    v.All (fit s) → later s (s.setField object name v) ∧ order (s.setField object name v)

namespace Upkeep

variable {u : Upkeep} {s s' : Store} {id found current : ScopeId} {name : String} {v : Value} {place : Place}

theorem all_later (later : u.later s s') (hv : v.All (u.fit s)) : v.All (u.fit s') := hv.imp fun _ => u.stays later

/-! ## Variables -/

theorem fit_ancestor? (order : u.order s) : ∀ (n : Nat) {id : ScopeId}, u.fit s (.scope id) →
    s.ancestor? id n = some found → u.fit s (.scope found)
  | 0, _, fit, h => by
    cases h
    exact fit
  | n + 1, _, fit, h => by
    obtain ⟨outer, link, h⟩ := Option.bind_eq_some_iff.1 h
    exact fit_ancestor? order n (u.found order fit (.enclosing link)) h

theorem fit_holderFrom? (order : u.order s) : ∀ (fuel : Nat) {id : ScopeId}, u.fit s (.scope id) →
    s.holderFrom? name fuel id = some found → u.fit s (.scope found)
  | fuel + 1, _, fit, h => by
    rw [Store.holderFrom?] at h
    split at h
    · cases h
      exact fit
    · obtain ⟨outer, link, h⟩ := Option.bind_eq_some_iff.1 h
      exact fit_holderFrom? order fuel (u.found order fit (.enclosing link)) h

/-- A place leads from a scope to scopes around it, or to those around the global one. -/
theorem fit_target? (order : u.order s) (fit : u.fit s (.scope current)) (h : s.target? current place name = some found) :
    u.fit s (.scope found) := by
  cases place with
  | hops distance => exact fit_ancestor? order distance fit (Option.filter_eq_some_iff.1 h).1
  | globals => exact fit_holderFrom? order _ (u.globals order) h
  | nearest => exact fit_holderFrom? order _ fit h

theorem all_valueIn? (order : u.order s) (fit : u.fit s (.scope id)) (h : s.valueIn? id name = some v) :
    v.All (u.fit s) :=
  Value.all_iff.2 fun _ hx => u.found order fit (.bound h hx)

theorem all_read? (order : u.order s) (fit : u.fit s (.scope current)) (h : s.read? current place name = some v) :
    v.All (u.fit s) := by
  obtain ⟨found, target, h⟩ := Option.bind_eq_some_iff.1 h
  exact all_valueIn? order (fit_target? order fit target) h

theorem write? (order : u.order s) (fit : u.fit s (.scope current)) (hv : v.All (u.fit s))
    (h : s.write? current place name v = some s') : u.later s s' ∧ u.order s' := by
  unfold Store.write? at h
  split at h
  · next found target =>
    cases h
    exact u.define name order (fit_target? order fit target) hv
  · cases h

/-! ## Methods -/

theorem fit_findMethodFrom? (order : u.order s) {method : ClosureId} : ∀ (fuel : Nat) {id : ClassId}, u.fit s (.cls id) →
    s.findMethodFrom? name fuel id = some method → u.fit s (.closure method)
  | fuel + 1, _, fit, h => by
    rw [Store.findMethodFrom?] at h
    split at h
    · cases h
    · next cls hc =>
      split at h
      · next method hm =>
        cases h
        exact u.found order fit (.method hc hm)
      · obtain ⟨parent, hp, h⟩ := Option.bind_eq_some_iff.1 h
        exact fit_findMethodFrom? order fuel (u.found order fit (.superclass hc hp)) h

theorem fit_findMethod? (order : u.order s) {cls : ClassId} {method : ClosureId} (fit : u.fit s (.cls cls))
    (h : s.findMethod? cls name = some method) : u.fit s (.closure method) :=
  fit_findMethodFrom? order _ fit h

/-- A method that is bound to an instance has a new scope around it. -/
theorem boundTo (order : u.order s) {method : Closure} {object : InstanceId} (fit : u.fit s (.scope method.scope))
    (own : u.fit s (.object object)) : u.later s (s.boundTo method object).1 ∧ u.order (s.boundTo method object).1 ∧
      u.fit (s.boundTo method object).1 (.scope (s.boundTo method object).2.scope) := by
  have this : (Value.object object).All (u.fit s) := own
  exact u.addScope order fit ((Bindings.all_empty _).set thisName this)

/-! ## Classes -/

/-- The functions of methods are added to a store, each under its name. -/
theorem addMethods {scope : ScopeId} : ∀ (methods : List (Routine Stmt)) {s : Store}, u.order s →
    u.fit s (.scope scope) → u.later s (Machine.addMethods scope methods s).1 ∧
      u.order (Machine.addMethods scope methods s).1 ∧ ∀ entry ∈ (Machine.addMethods scope methods s).2,
        u.fit (Machine.addMethods scope methods s).1 (.closure entry.2)
  | [], s, order, _ => ⟨u.refl s, order, nofun⟩
  | r :: rest, s, order, fit => by
    obtain ⟨later₁, order₁, own⟩ := u.addClosure (f := ⟨r, scope, r.isInitializer⟩) order fit
    obtain ⟨later₂, order₂, entries⟩ := addMethods rest order₁ (u.stays later₁ fit)
    exact ⟨u.trans later₁ later₂, order₂, List.forall_mem_cons.2 ⟨u.stays later₂ own, entries⟩⟩

theorem isMethod_addMethods (scope : ScopeId) (methods : List (Routine Stmt)) (s : Store) :
    ∀ entry ∈ (Machine.addMethods scope methods s).2, (Machine.addMethods scope methods s).1.IsMethod entry.1 entry.2 := by
  rintro ⟨name, id⟩ hmem
  obtain ⟨r, -, named, hf⟩ := Machine.exists_of_mem_addMethods hmem
  exact ⟨r, scope, hf, named⟩

theorem methodScope (order : u.order s) (fit : u.fit s (.scope current)) {superclass : Option ClassId}
    (parent : ∀ parent ∈ superclass, u.fit s (.cls parent)) :
    u.later s (Machine.methodScope current superclass s).1 ∧ u.order (Machine.methodScope current superclass s).1 ∧
      u.fit (Machine.methodScope current superclass s).1 (.scope (Machine.methodScope current superclass s).2) := by
  cases superclass with
  | none => exact ⟨u.refl s, order, fit⟩
  | some id =>
    have super : (Value.cls id).All (u.fit s) := parent id rfl
    exact u.addScope order fit ((Bindings.all_empty _).set superName super)

end Upkeep

end Lox
