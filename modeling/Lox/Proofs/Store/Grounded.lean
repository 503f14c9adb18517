/-
Stores in which every number leads somewhere. A scope leads outwards to an older one, up to that of the global
variables, a class to an older superclass, and values, functions, methods and fields to things that are there
(`Grounded`). From one store to a later one (`Ages`) nothing goes away and no link is changed. The operations of a store
keep both.
-/
import Lox.Proofs.Store.Chain
import Lox.Proofs.Store.Upkeep

namespace Lox

namespace Store

/-! ## What is there -/

/-- Whether what a value names is in the store. -/
def Has (s : Store) : Value → Prop
  | .closure id => id < s.closures.size
  | .cls id => id < s.classes.size
  | .object id => id < s.instances.size
  | _ => True

/-- Whether what names are bound to is in the store. -/
def Holds (s : Store) (vars : Bindings Value) : Prop := ∀ name v, vars.get? name = some v → s.Has v

/-- A store in which every number leads somewhere, that of a scope or of a class to an older one. -/
structure Grounded (s : Store) : Prop where
  globals : ∃ vars, s.scopes[globalScope]? = some ⟨none, vars⟩
  parents : ∀ (id : ScopeId) scope, s.scopes[id]? = some scope → id ≠ globalScope →
    ∃ outer < id, scope.parent = some outer
  bindings : ∀ (id : ScopeId) scope, s.scopes[id]? = some scope → s.Holds scope.bindings
  closures : ∀ (id : ClosureId) f, s.closures[id]? = some f → f.scope < s.scopes.size
  superclasses : ∀ (id : ClassId) cls, s.classes[id]? = some cls → ∀ parent ∈ cls.superclass, parent < id
  methods : ∀ (id : ClassId) cls, s.classes[id]? = some cls →
    ∀ name f, cls.methods.get? name = some f → f < s.closures.size
  instances : ∀ (id : InstanceId) object, s.instances[id]? = some object →
    object.cls < s.classes.size ∧ s.Holds object.fields

/-- From one store to a later one: what there is stays, with the links that it has. -/
structure Ages (s s' : Store) : Prop where
  scopes : ∀ (id : ScopeId) scope, s.scopes[id]? = some scope → ∃ vars, s'.scopes[id]? = some ⟨scope.parent, vars⟩
  closures : ∀ (id : ClosureId) f, s.closures[id]? = some f → s'.closures[id]? = some f
  classes : ∀ (id : ClassId) cls, s.classes[id]? = some cls → s'.classes[id]? = some cls
  instances : ∀ (id : InstanceId) object, s.instances[id]? = some object →
    ∃ fields, s'.instances[id]? = some ⟨object.cls, fields⟩

variable {s s' s'' : Store} {id : Nat} {v : Value} {vars : Bindings Value} {name : String}

theorem holds_empty (s : Store) : s.Holds .empty := nofun

theorem Holds.set (h : s.Holds vars) (name : String) (hv : s.Has v) : s.Holds (vars.set name v) := by
  intro other x hx
  rw [Bindings.get?_set] at hx
  split at hx
  · cases hx
    exact hv
  · exact h other x hx

theorem lt_size_iff {α : Type} {xs : Array α} {i : Nat} : i < xs.size ↔ ∃ x, xs[i]? = some x := by
  constructor
  · exact fun h => ⟨_, Array.getElem?_eq_getElem h⟩
  · rintro ⟨x, hx⟩
    exact (Array.getElem?_eq_some_iff.1 hx).1

theorem getElem?_push_of_lt {α : Type} {xs : Array α} {i : Nat} (h : i < xs.size) (y : α) : (xs.push y)[i]? = xs[i]? := by
  rw [Array.getElem?_push, if_neg (Nat.ne_of_lt h)]

/-- What stands in an array stays where it is if something is added. -/
theorem getElem?_push_of_some {α : Type} {xs : Array α} {i : Nat} {x : α} (h : xs[i]? = some x) (y : α) :
    (xs.push y)[i]? = some x :=
  (getElem?_push_of_lt (lt_size_iff.2 ⟨x, h⟩) y).trans h

/-- In an array to which something was added stands that, or what stood there before. -/
theorem of_getElem?_push {α : Type} {xs : Array α} {i : Nat} {x y : α} (h : (xs.push y)[i]? = some x) :
    i = xs.size ∧ x = y ∨ xs[i]? = some x := by
  rw [Array.getElem?_push] at h
  split at h
  · next new =>
    cases h
    exact .inl ⟨new, rfl⟩
  · exact .inr h

/-! ## Later stores -/

namespace Ages

theorem refl (s : Store) : s.Ages s :=
  ⟨fun _ scope h => ⟨scope.bindings, h⟩, fun _ _ h => h, fun _ _ h => h, fun _ object h => ⟨object.fields, h⟩⟩

theorem trans (h : s.Ages s') (h' : s'.Ages s'') : s.Ages s'' where
  scopes id scope hs := by
    obtain ⟨vars, hs'⟩ := h.scopes id scope hs
    have later := h'.scopes id _ hs'
    exact later
  closures id f hf := h'.closures id f (h.closures id f hf)
  classes id cls hc := h'.classes id cls (h.classes id cls hc)
  instances id object ho := by
    obtain ⟨fields, ho'⟩ := h.instances id object ho
    have later := h'.instances id _ ho'
    exact later

theorem scope (h : s.Ages s') (hid : id < s.scopes.size) : id < s'.scopes.size := by
  obtain ⟨scope, hs⟩ := lt_size_iff.1 hid
  obtain ⟨vars, hs'⟩ := h.scopes id scope hs
  exact lt_size_iff.2 ⟨_, hs'⟩

theorem size (h : s.Ages s') : s.scopes.size ≤ s'.scopes.size :=
  Nat.le_of_not_lt fun lt => Nat.lt_irrefl _ (h.scope lt)

theorem closure (h : s.Ages s') (hid : id < s.closures.size) : id < s'.closures.size := by
  obtain ⟨f, hf⟩ := lt_size_iff.1 hid
  exact lt_size_iff.2 ⟨f, h.closures id f hf⟩

theorem cls (h : s.Ages s') (hid : id < s.classes.size) : id < s'.classes.size := by
  obtain ⟨cls, hc⟩ := lt_size_iff.1 hid
  exact lt_size_iff.2 ⟨cls, h.classes id cls hc⟩

theorem has (h : s.Ages s') (hv : s.Has v) : s'.Has v := by
  cases v with
  | closure id => exact h.closure hv
  | cls id => exact h.cls hv
  | object id =>
    obtain ⟨object, ho⟩ := lt_size_iff.1 hv
    obtain ⟨fields, ho'⟩ := h.instances id object ho
    exact lt_size_iff.2 ⟨_, ho'⟩
  | nil | bool _ | number _ | string _ => exact hv

theorem holds (h : s.Ages s') (hv : s.Holds vars) : s'.Holds vars := fun name v hx => h.has (hv name v hx)

end Ages

/-! ## Variables -/

theorem getElem?_define {other : ScopeId} {scope : Scope}
    (h : (s.define other name v).scopes[id]? = some scope) :
    ∃ before, s.scopes[id]? = some before ∧ scope.parent = before.parent ∧
      (scope.bindings = before.bindings ∨ scope.bindings = before.bindings.set name v) := by
  unfold define at h
  rw [Array.getElem?_modify] at h
  split at h
  · obtain ⟨before, hb, rfl⟩ := Option.map_eq_some_iff.1 h
    exact ⟨before, hb, rfl, .inr rfl⟩
  · exact ⟨scope, h, rfl, .inl rfl⟩

theorem ages_define (s : Store) (other : ScopeId) (name : String) (v : Value) : s.Ages (s.define other name v) := by
  refine ⟨fun id scope hs => ?_, fun _ _ h => h, fun _ _ h => h, fun _ object h => ⟨object.fields, h⟩⟩
  unfold define
  rw [Array.getElem?_modify, hs]
  split
  · exact ⟨_, rfl⟩
  · exact ⟨scope.bindings, rfl⟩

theorem Grounded.define (h : s.Grounded) (other : ScopeId) (name : String) (hv : s.Has v) :
    (s.define other name v).Grounded := by
  have ages := ages_define s other name v
  refine ⟨?_, fun id scope hs => ?_, fun id scope hs => ?_, ?_, h.superclasses, h.methods, ?_⟩
  · obtain ⟨vars, hg⟩ := h.globals
    exact ages.scopes _ _ hg
  · obtain ⟨before, hb, parent, -⟩ := getElem?_define hs
    rw [parent]
    exact h.parents id before hb
  · obtain ⟨before, hb, -, same | set⟩ := getElem?_define hs
    · rw [same]
      exact ages.holds (h.bindings id before hb)
    · rw [set]
      exact ages.holds ((h.bindings id before hb).set name hv)
  · exact fun id f hf => ages.scope (h.closures id f hf)
  · exact fun id object ho => ⟨(h.instances id object ho).1, ages.holds (h.instances id object ho).2⟩

/-! ## New things -/

theorem ages_addScope (s : Store) (scope : Scope) : s.Ages (s.addScope scope) :=
  ⟨fun _ old hs => ⟨old.bindings, getElem?_push_of_some hs scope⟩, fun _ _ h => h, fun _ _ h => h,
    fun _ object h => ⟨object.fields, h⟩⟩

theorem Grounded.addScope (h : s.Grounded) {outer : ScopeId} (ho : outer < s.scopes.size) (hv : s.Holds vars) :
    (s.addScope ⟨some outer, vars⟩).Grounded := by
  have ages := ages_addScope s ⟨some outer, vars⟩
  refine ⟨?_, fun id scope hs other => ?_, fun id scope hs => ?_, ?_, h.superclasses, h.methods, ?_⟩
  · obtain ⟨vars, hg⟩ := h.globals
    exact ages.scopes _ _ hg
  · rcases of_getElem?_push hs with ⟨rfl, rfl⟩ | hs
    · exact ⟨outer, ho, rfl⟩
    · exact h.parents id scope hs other
  · rcases of_getElem?_push hs with ⟨rfl, rfl⟩ | hs
    · exact hv
    · exact h.bindings id scope hs
  · exact fun id f hf => ages.scope (h.closures id f hf)
  · exact h.instances

theorem nextScope_lt (s : Store) (scope : Scope) : s.nextScope < (s.addScope scope).scopes.size := by
  rw [scopes_size_addScope]
  exact Nat.lt_succ_self _

theorem ages_addClosure (s : Store) (f : Closure) : s.Ages (s.addClosure f) :=
  ⟨fun _ scope h => ⟨scope.bindings, h⟩, fun _ _ h => getElem?_push_of_some h f, fun _ _ h => h,
    fun _ object h => ⟨object.fields, h⟩⟩

theorem has_nextClosure (s : Store) (f : Closure) : (s.addClosure f).Has (.closure s.nextClosure) := by
  show s.closures.size < (s.closures.push f).size
  rw [Array.size_push]
  exact Nat.lt_succ_self _

theorem Grounded.addClosure (h : s.Grounded) {f : Closure} (hf : f.scope < s.scopes.size) :
    (s.addClosure f).Grounded := by
  have ages := ages_addClosure s f
  refine ⟨h.globals, h.parents, fun id scope hs => ages.holds (h.bindings id scope hs), fun id g hg => ?_,
    h.superclasses, fun id cls hc name g hg => ages.closure (h.methods id cls hc name g hg), fun id object ho => ?_⟩
  · rcases of_getElem?_push hg with ⟨-, rfl⟩ | hg
    · exact hf
    · exact h.closures id g hg
  · exact ⟨(h.instances id object ho).1, ages.holds (h.instances id object ho).2⟩

theorem ages_addClass (s : Store) (cls : Class) : s.Ages (s.addClass cls) :=
  ⟨fun _ scope h => ⟨scope.bindings, h⟩, fun _ _ h => h, fun _ _ h => getElem?_push_of_some h cls,
    fun _ object h => ⟨object.fields, h⟩⟩

theorem Grounded.addClass (h : s.Grounded) {cls : Class} (hs : ∀ parent ∈ cls.superclass, s.Has (.cls parent))
    (hm : ∀ name f, cls.methods.get? name = some f → f < s.closures.size) : (s.addClass cls).Grounded := by
  have ages := ages_addClass s cls
  refine ⟨h.globals, h.parents, fun id scope hs => ages.holds (h.bindings id scope hs), h.closures,
    fun id c hc => ?_, fun id c hc => ?_, fun id object ho => ?_⟩
  · rcases of_getElem?_push hc with ⟨rfl, rfl⟩ | hc
    · exact hs
    · exact h.superclasses id c hc
  · rcases of_getElem?_push hc with ⟨-, rfl⟩ | hc
    · exact hm
    · exact h.methods id c hc
  · exact ⟨ages.cls (h.instances id object ho).1, ages.holds (h.instances id object ho).2⟩

theorem ages_addInstance (s : Store) (object : Instance) : s.Ages (s.addInstance object) :=
  ⟨fun _ scope h => ⟨scope.bindings, h⟩, fun _ _ h => h, fun _ _ h => h,
    fun _ old h => ⟨old.fields, getElem?_push_of_some h object⟩⟩

theorem has_nextInstance (s : Store) (object : Instance) : (s.addInstance object).Has (.object s.nextInstance) := by
  show s.instances.size < (s.instances.push object).size
  rw [Array.size_push]
  exact Nat.lt_succ_self _

theorem Grounded.addInstance (h : s.Grounded) {cls : ClassId} (hc : s.Has (.cls cls)) :
    (s.addInstance ⟨cls, .empty⟩).Grounded := by
  have ages := ages_addInstance s ⟨cls, .empty⟩
  refine ⟨h.globals, h.parents, fun id scope hs => ages.holds (h.bindings id scope hs), h.closures, h.superclasses,
    h.methods, fun id object ho => ?_⟩
  rcases of_getElem?_push ho with ⟨-, rfl⟩ | ho
  · exact ⟨hc, holds_empty _⟩
  · exact ⟨(h.instances id object ho).1, ages.holds (h.instances id object ho).2⟩

/-! ## Fields -/

theorem getElem?_setField {other : InstanceId} {object : Instance}
    (h : (s.setField other name v).instances[id]? = some object) :
    ∃ before, s.instances[id]? = some before ∧ object.cls = before.cls ∧
      (object.fields = before.fields ∨ object.fields = before.fields.set name v) := by
  unfold setField at h
  rw [Array.getElem?_modify] at h
  split at h
  · obtain ⟨before, hb, rfl⟩ := Option.map_eq_some_iff.1 h
    exact ⟨before, hb, rfl, .inr rfl⟩
  · exact ⟨object, h, rfl, .inl rfl⟩

theorem ages_setField (s : Store) (other : InstanceId) (name : String) (v : Value) :
    s.Ages (s.setField other name v) := by
  refine ⟨fun _ scope h => ⟨scope.bindings, h⟩, fun _ _ h => h, fun _ _ h => h, fun id object ho => ?_⟩
  unfold setField
  rw [Array.getElem?_modify, ho]
  split
  · exact ⟨_, rfl⟩
  · exact ⟨object.fields, rfl⟩

theorem Grounded.setField (h : s.Grounded) (other : InstanceId) (name : String) (hv : s.Has v) :
    (s.setField other name v).Grounded := by
  have ages := ages_setField s other name v
  refine ⟨h.globals, h.parents, fun id scope hs => ages.holds (h.bindings id scope hs), h.closures, h.superclasses,
    h.methods, fun id object ho => ?_⟩
  obtain ⟨before, hb, cls, same | set⟩ := getElem?_setField ho
  · rw [cls, same]
    exact ⟨(h.instances id before hb).1, ages.holds (h.instances id before hb).2⟩
  · rw [cls, set]
    exact ⟨(h.instances id before hb).1, ages.holds ((h.instances id before hb).2.set name hv)⟩

/-! ## Reading -/

theorem Grounded.has_valueIn? (h : s.Grounded) (hv : s.valueIn? id name = some v) : s.Has v := by
  obtain ⟨scope, hs, hx⟩ := Option.bind_eq_some_iff.1 hv
  exact h.bindings id scope hs name v hx

/-! ## Thing by thing -/

variable {x y : Thing}

theorem has_iff : s.Has v ↔ v.All s.Contains := by
  cases v <;> exact Iff.rfl

theorem holds_iff : s.Holds vars ↔ vars.All s.Contains :=
  forall₃_congr fun _ _ _ => has_iff

theorem Has.contains (h : s.Has v) (hx : v.thing? = some x) : s.Contains x := Value.all_iff.1 (has_iff.1 h) x hx

theorem Ages.contains (ages : s.Ages s') (h : s.Contains x) : s'.Contains x := by
  cases x with
  | scope id => exact ages.scope h
  | closure id => exact ages.closure h
  | cls id => exact ages.cls h
  | object id =>
    have h : s.Has (.object id) := h
    exact ages.has h

/-- In a grounded store what is there leads to what is there. -/
theorem Grounded.contains (h : s.Grounded) (links : s.Links x y) : s.Contains y := by
  cases links with
  | @enclosing id outer link =>
    obtain ⟨scope, hs, parent⟩ := Option.bind_eq_some_iff.1 link
    by_cases outermost : id = globalScope
    · obtain ⟨vars, hg⟩ := h.globals
      rw [outermost, hg] at hs
      cases hs
      cases parent
    · obtain ⟨older, lt, hp⟩ := h.parents id scope hs outermost
      cases hp.symm.trans parent
      exact Nat.lt_trans lt (lt_size_of_parent? link)
  | bound hv hx => exact (h.has_valueIn? hv).contains hx
  | closure hf => exact h.closures _ _ hf
  | method hc hf => exact h.methods _ _ hc _ _ hf
  | superclass hc hp => exact Nat.lt_trans (h.superclasses _ _ hc _ hp) (lt_size_iff.2 ⟨_, hc⟩)
  | cls ho => exact (h.instances _ _ ho).1
  | field ho hv hx => exact ((h.instances _ _ ho).2 _ _ hv).contains hx

theorem contains_nextClass (s : Store) (cls : Class) : (s.addClass cls).Contains (.cls s.nextClass) := by
  show s.classes.size < (s.classes.push cls).size
  rw [Array.size_push]
  exact Nat.lt_succ_self _

/-- Whatever a program does, nothing goes away and no link is changed. -/
def aging : Upkeep where
  order _ := True
  fit _ _ := True
  later := Ages
  refl := .refl
  trans := .trans
  stays _ _ := trivial
  globals _ := trivial
  found _ _ _ := trivial
  define name _ _ _ := ⟨ages_define _ _ name _, trivial⟩
  addScope _ _ _ := ⟨ages_addScope _ _, trivial, trivial⟩
  addClosure _ _ := ⟨ages_addClosure _ _, trivial, trivial⟩
  addClass _ _ _ := ⟨ages_addClass _ _, trivial, trivial⟩
  addInstance _ _ := ⟨ages_addInstance _ _, trivial, trivial⟩
  setField name _ _ _ := ⟨ages_setField _ _ name _, trivial⟩

/-- Who holds only what is in a grounded store finds only what is in it. -/
def grounding : Upkeep where
  order := Grounded
  fit := Contains
  later := Ages
  refl := .refl
  trans := .trans
  stays ages := ages.contains
  globals h := lt_size_iff.2 (h.globals.elim fun _ hg => ⟨_, hg⟩)
  found h _ links := h.contains links
  define name h _ hv := ⟨ages_define _ _ name _, h.define _ name (has_iff.2 hv)⟩
  addScope h outer vars := ⟨ages_addScope _ _, h.addScope outer (holds_iff.2 vars), nextScope_lt _ _⟩
  addClosure {s f} h scope := ⟨ages_addClosure _ _, h.addClosure scope, has_nextClosure s f⟩
  addClass {s cls} h parent methods :=
    ⟨ages_addClass _ _, h.addClass parent fun name f hf => (methods name f hf).1, contains_nextClass s cls⟩
  addInstance {s cls} h own := ⟨ages_addInstance _ _, h.addInstance own, has_nextInstance s ⟨cls, .empty⟩⟩
  setField name h _ hv := ⟨ages_setField _ _ name _, h.setField _ name (has_iff.2 hv)⟩

end Store

end Lox
