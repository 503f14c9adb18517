/-
The declaration of a class as one change of the store: the name is bound, a scope for `super` is made if there is a
superclass, then the methods and the class, and the name gets the class. The name is in the current scope by then, so
that this does not fail (`declareClass_eq`).
-/
import Lox.Machine.Step
import Lox.Proofs.Store.Words

namespace Lox

namespace Machine

/-- The store with a new class, before the name of the class gets it. -/
def withClass (scope : ScopeId) (name : String) (superclass : Option ClassId) (methods : List (Routine Stmt))
    (s : Store) : Store :=
  let inside := methodScope scope superclass (s.define scope name .nil)
  let made := addMethods inside.2 methods inside.1
  made.1.addClass ⟨name, superclass, .ofList made.2⟩

/-! ## Methods -/

/-- Methods are only added to the functions. -/
theorem addMethods_eq (scope : ScopeId) : ∀ (methods : List (Routine Stmt)) (s : Store),
    ∃ closures, (addMethods scope methods s).1 = { s with closures }
  | [], s => ⟨s.closures, rfl⟩
  | r :: rest, s => by
    obtain ⟨closures, h⟩ := addMethods_eq scope rest (s.addClosure ⟨r, scope, r.isInitializer⟩)
    exact ⟨closures, h⟩

theorem classes_addMethods (scope : ScopeId) (methods : List (Routine Stmt)) (s : Store) :
    (addMethods scope methods s).1.classes = s.classes := by
  obtain ⟨closures, made⟩ := addMethods_eq scope methods s
  rw [made]

theorem instances_addMethods (scope : ScopeId) (methods : List (Routine Stmt)) (s : Store) :
    (addMethods scope methods s).1.instances = s.instances := by
  obtain ⟨closures, made⟩ := addMethods_eq scope methods s
  rw [made]

theorem keepsWords_addMethods (scope : ScopeId) : ∀ (methods : List (Routine Stmt)) (s : Store),
    s.KeepsWords (addMethods scope methods s).1
  | [], s => .refl s
  | r :: rest, s => (s.keepsWords_addClosure ⟨r, scope, r.isInitializer⟩).trans (keepsWords_addMethods scope rest _)

/-- A function is one of the methods, or it was there before. -/
theorem getElem?_addMethods {scope : ScopeId} {id : ClosureId} {f : Closure} :
    ∀ {methods : List (Routine Stmt)} {s : Store}, (addMethods scope methods s).1.closures[id]? = some f →
      s.closures.size ≤ id → ∃ r ∈ methods, f = ⟨r, scope, r.isInitializer⟩
  | [], s, h, hid => by
    have := (Array.getElem?_eq_some_iff.1 h).1
    exact absurd this (Nat.not_lt_of_le hid)
  | r :: rest, s, h, hid => by
    rcases Nat.eq_or_lt_of_le hid with rfl | hid
    · have own : (s.addClosure ⟨r, scope, r.isInitializer⟩).closures[s.closures.size]? =
          some ⟨r, scope, r.isInitializer⟩ := by
        simp [Store.addClosure]
      cases ((keepsWords_addMethods scope rest _).closures _ _ own).symm.trans h
      exact ⟨r, List.mem_cons_self, rfl⟩
    · have later : (s.addClosure ⟨r, scope, r.isInitializer⟩).closures.size ≤ id := by
        rw [Store.addClosure, Array.size_push]
        exact hid
      have h : (addMethods scope rest (s.addClosure ⟨r, scope, r.isInitializer⟩)).1.closures[id]? = some f := h
      obtain ⟨r', hr, rfl⟩ := getElem?_addMethods h later
      exact ⟨r', List.mem_cons_of_mem _ hr, rfl⟩

/-- Under the name of a method stands a function made of one of the methods that have the name. -/
theorem exists_of_mem_addMethods {scope : ScopeId} {name : String} {id : ClosureId} :
    ∀ {methods : List (Routine Stmt)} {s : Store}, (name, id) ∈ (addMethods scope methods s).2 →
      ∃ r ∈ methods, r.name.lexeme = name ∧
        (addMethods scope methods s).1.closures[id]? = some ⟨r, scope, r.isInitializer⟩
  | r :: rest, s, h => by
    rcases List.mem_cons.1 h with e | h
    · cases e
      refine ⟨r, List.mem_cons_self, rfl, (keepsWords_addMethods scope rest _).closures _ _ ?_⟩
      simp [Store.addClosure, Store.nextClosure]
    · obtain ⟨r', hr, named, hf⟩ := exists_of_mem_addMethods h
      exact ⟨r', List.mem_cons_of_mem _ hr, named, hf⟩

/-! ## The scope of the methods -/

/-- The scope in which the methods of a new class are declared: with a superclass it is new. -/
def memberScope (scope : ScopeId) (superclass : Option ClassId) (s : Store) : ScopeId :=
  match superclass with
  | none => scope
  | some _ => s.nextScope

theorem snd_methodScope (scope : ScopeId) (superclass : Option ClassId) (s : Store) :
    (methodScope scope superclass s).2 = memberScope scope superclass s := by
  cases superclass <;> rfl

theorem memberScope_define (scope : ScopeId) (superclass : Option ClassId) (s : Store) (id : ScopeId) (name : String)
    (v : Value) : memberScope scope superclass (s.define id name v) = memberScope scope superclass s := by
  cases superclass with
  | none => rfl
  | some parent => exact Store.scopes_size_define s id name v

theorem classes_methodScope (scope : ScopeId) (superclass : Option ClassId) (s : Store) :
    (methodScope scope superclass s).1.classes = s.classes := by
  cases superclass <;> rfl

theorem instances_methodScope (scope : ScopeId) (superclass : Option ClassId) (s : Store) :
    (methodScope scope superclass s).1.instances = s.instances := by
  cases superclass <;> rfl

theorem closures_methodScope (scope : ScopeId) (superclass : Option ClassId) (s : Store) :
    (methodScope scope superclass s).1.closures = s.closures := by
  cases superclass <;> rfl

theorem keepsWords_methodScope (scope : ScopeId) (superclass : Option ClassId) (s : Store) :
    s.KeepsWords (methodScope scope superclass s).1 := by
  cases superclass with
  | none => exact .refl s
  | some parent => exact s.keepsWords_addScope _

theorem binds_methodScope {scope id : ScopeId} {s : Store} {name : String} (h : s.binds id name = true)
    (superclass : Option ClassId) : (methodScope scope superclass s).1.binds id name = true := by
  cases superclass with
  | none => exact h
  | some parent =>
    show (s.addScope _).binds id name = true
    have other : id ≠ s.nextScope := Nat.ne_of_lt (Store.lt_size_of_binds h)
    rw [Store.binds, Store.valueIn?_addScope, if_neg other]
    exact h

/-! ## The class -/

variable {scope id : ScopeId} {s : Store} {name n : String} {superclass : Option ClassId}
  {methods : List (Routine Stmt)}

theorem keepsWords_withClass (h : scope < s.scopes.size) (hn : Nameable name) (superclass : Option ClassId)
    (methods : List (Routine Stmt)) : s.KeepsWords (withClass scope name superclass methods s) :=
  (((Store.keepsWords_define .nil h hn).trans (keepsWords_methodScope scope superclass _)).trans
    (keepsWords_addMethods _ methods _)).trans (Store.keepsWords_addClass _ _)

theorem scopes_withClass (scope : ScopeId) (name : String) (superclass : Option ClassId)
    (methods : List (Routine Stmt)) (s : Store) :
    (withClass scope name superclass methods s).scopes =
      (methodScope scope superclass (s.define scope name .nil)).1.scopes := by
  obtain ⟨closures, made⟩ := addMethods_eq (methodScope scope superclass (s.define scope name .nil)).2 methods
    (methodScope scope superclass (s.define scope name .nil)).1
  show (addMethods _ _ _).1.scopes = _
  rw [made]

/-- The new scope is that for `super`. -/
theorem scopes_withClass_some (scope : ScopeId) (name : String) (parent : ClassId) (methods : List (Routine Stmt))
    (s : Store) :
    (withClass scope name (some parent) methods s).scopes =
      ((s.define scope name .nil).addScope ⟨some scope, Bindings.empty.set superName (.cls parent)⟩).scopes :=
  scopes_withClass scope name (some parent) methods s

theorem valueIn?_withClass (scope : ScopeId) (name n : String) (parent : ClassId) (methods : List (Routine Stmt))
    (s : Store) :
    (withClass scope name (some parent) methods s).valueIn? s.nextScope n =
      if n = superName then some (.cls parent) else none := by
  have next : s.nextScope = (s.define scope name .nil).nextScope := (Store.scopes_size_define s scope name .nil).symm
  rw [Store.valueIn?_congr (scopes_withClass_some scope name parent methods s), Store.valueIn?_addScope, if_pos next]
  simp

theorem parent?_withClass (scope : ScopeId) (name : String) (parent : ClassId) (methods : List (Routine Stmt))
    (s : Store) : (withClass scope name (some parent) methods s).parent? s.nextScope = some scope := by
  have next : s.nextScope = (s.define scope name .nil).nextScope := (Store.scopes_size_define s scope name .nil).symm
  rw [Store.parent?_congr (scopes_withClass_some scope name parent methods s), Store.parent?_addScope, if_pos next]

/-- Whatever is new among the variables of scopes is a `super`. -/
theorem eq_of_binds_withClass (young : s.scopes.size ≤ id)
    (hb : (withClass scope name superclass methods s).binds id n = true) :
    ∃ parent, superclass = some parent ∧ id = s.nextScope ∧ n = superName := by
  have size : (s.define scope name .nil).scopes.size = s.scopes.size := Store.scopes_size_define s scope name .nil
  cases superclass with
  | none =>
    rw [Store.binds_congr (scopes_withClass scope name none methods s)] at hb
    have lt : id < (s.define scope name .nil).scopes.size := Store.lt_size_of_binds hb
    exact absurd (size ▸ lt) (Nat.not_lt_of_le young)
  | some parent =>
    have lt := Store.lt_size_of_binds hb
    rw [scopes_withClass_some, Store.scopes_size_addScope, size] at lt
    obtain rfl : id = s.nextScope := Nat.le_antisymm (Nat.le_of_lt_succ lt) young
    rw [Store.binds, valueIn?_withClass] at hb
    split at hb
    · next word => exact ⟨parent, rfl, rfl, word⟩
    · cases hb

theorem outward_withClass (outward : s.Outward) (h : scope < s.scopes.size) (name : String)
    (superclass : Option ClassId) (methods : List (Routine Stmt)) :
    (withClass scope name superclass methods s).Outward := by
  have bound := outward.define scope name .nil
  cases superclass with
  | none => exact bound.congr (scopes_withClass ..)
  | some parent =>
    exact (bound.addScope (by rw [Store.scopes_size_define]; exact h) _).congr (scopes_withClass_some ..)

theorem memberScope_lt (h : scope < s.scopes.size) (hn : Nameable name) :
    memberScope scope superclass s < (withClass scope name superclass methods s).scopes.size := by
  cases superclass with
  | none => exact Nat.lt_of_lt_of_le h (keepsWords_withClass h hn none methods).size
  | some parent => exact Store.lt_size_of_parent? (parent?_withClass scope name parent methods s)

/-- From the scope of the methods outwards come the scopes that were there before. -/
theorem ancestor?_withClass (outward : s.Outward) (h : scope < s.scopes.size) (hn : Nameable name) (k : Nat) :
    (withClass scope name superclass methods s).ancestor? (memberScope scope superclass s)
      (k + superclass.toList.length) = s.ancestor? scope k := by
  have before := (keepsWords_withClass h hn superclass methods).ancestor? outward k h
  cases superclass with
  | none => exact before
  | some parent =>
    show (withClass scope name (some parent) methods s).ancestor? s.nextScope (k + 1) = _
    rw [Store.ancestor?_succ, parent?_withClass, Option.bind_some, before]

theorem instances_withClass (scope : ScopeId) (name : String) (superclass : Option ClassId)
    (methods : List (Routine Stmt)) (s : Store) :
    (withClass scope name superclass methods s).instances = s.instances :=
  (instances_addMethods _ methods _).trans (instances_methodScope scope superclass _)

/-- The new class has each of its methods under the name of that. -/
theorem classes_withClass_eq (scope : ScopeId) (name : String) (superclass : Option ClassId)
    (methods : List (Routine Stmt)) (s : Store) :
    let inside := methodScope scope superclass (s.define scope name .nil)
    (withClass scope name superclass methods s).classes =
      s.classes.push ⟨name, superclass, .ofList (addMethods inside.2 methods inside.1).2⟩ := by
  intro inside
  have before : (addMethods inside.2 methods inside.1).1.classes = s.classes :=
    (classes_addMethods inside.2 methods inside.1).trans (classes_methodScope scope superclass _)
  show (addMethods inside.2 methods inside.1).1.classes.push _ = _
  rw [before]

/-- There is one class more. -/
theorem classes_withClass (scope : ScopeId) (name : String) (superclass : Option ClassId)
    (methods : List (Routine Stmt)) (s : Store) :
    ∃ entries, (withClass scope name superclass methods s).classes =
        s.classes.push ⟨name, superclass, .ofList entries⟩ ∧
      ∀ n id, (n, id) ∈ entries → ∃ r ∈ methods, (withClass scope name superclass methods s).closures[id]? =
        some ⟨r, memberScope scope superclass s, r.isInitializer⟩ := by
  refine ⟨_, classes_withClass_eq scope name superclass methods s, fun n id hmem => ?_⟩
  rw [← memberScope_define scope superclass s scope name .nil, ← snd_methodScope]
  obtain ⟨r, hr, -, hf⟩ := exists_of_mem_addMethods hmem
  exact ⟨r, hr, hf⟩

/-- A new function is one of the methods. -/
theorem eq_of_closures_withClass {id : ClosureId} {f : Closure}
    (hf : (withClass scope name superclass methods s).closures[id]? = some f) (young : s.closures.size ≤ id) :
    ∃ r ∈ methods, f = ⟨r, memberScope scope superclass s, r.isInitializer⟩ := by
  rw [← memberScope_define scope superclass s scope name .nil, ← snd_methodScope]
  exact getElem?_addMethods hf (by rw [closures_methodScope]; exact young)

/-- The name of the class is a variable of the scope in which the class is declared. -/
theorem binds_withClass (h : scope < s.scopes.size) (name : String) (superclass : Option ClassId)
    (methods : List (Routine Stmt)) : (withClass scope name superclass methods s).binds scope name = true := by
  have bound : (s.define scope name .nil).binds scope name = true := by
    rw [Store.binds_define _ _ _ _ _ _ h]
    simp
  rw [Store.binds_congr (scopes_withClass scope name superclass methods s)]
  exact binds_methodScope bound superclass

theorem declareClass_eq {m : Machine} (h : m.scope < m.store.scopes.size) (name : Token) (superclass : Option ClassId)
    (methods : List (Routine Stmt)) :
    m.declareClass name superclass methods =
      { m with
        store := (withClass m.scope name.lexeme superclass methods m.store).define m.scope name.lexeme
          (.cls m.store.nextClass) }.finish .normal := by
  have found := Store.holder?_self (binds_withClass h name.lexeme superclass methods)
  let inside := methodScope m.scope superclass (m.store.define m.scope name.lexeme .nil)
  have next : (addMethods inside.2 methods inside.1).1.nextClass = m.store.nextClass :=
    congrArg Array.size ((classes_addMethods inside.2 methods inside.1).trans (classes_methodScope _ _ _))
  rw [← next]
  unfold withClass at found
  simp only [declareClass, Store.write?, Store.target?, found]
  rfl

end Machine

end Lox
