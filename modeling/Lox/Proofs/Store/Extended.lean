/-
Stores that only grow. From one store to a later one (`Extends`) what there is stays with the links that it has, no scope
loses a variable, and no instance a field. The operations of a store do no more than that. So who goes so many scopes out
comes to the same variable ever after, and a class has the same methods.
-/
import Lox.Proofs.Store.Fields
import Lox.Proofs.Store.Grounded
import Lox.Proofs.Store.Later

namespace Lox

namespace Store

/-- From one store to a later one: what there is stays with the links that it has, and scopes and instances have all the
names that they had, though maybe with other values. -/
structure Extends (s s' : Store) : Prop extends Ages s s' where
  binds : ∀ id name, s.binds id name = true → s'.binds id name = true
  fields : ∀ id name, (s.field? id name).isSome = true → (s'.field? id name).isSome = true

variable {s s' s'' : Store} {id : Nat} {name : String} {v : Value}

namespace Extends

theorem refl (s : Store) : s.Extends s := ⟨.refl s, fun _ _ h => h, fun _ _ h => h⟩

theorem trans (h : s.Extends s') (h' : s'.Extends s'') : s.Extends s'' where
  toAges := h.toAges.trans h'.toAges
  binds id name hb := h'.binds id name (h.binds id name hb)
  fields id name hf := h'.fields id name (h.fields id name hf)

end Extends

/-! ## Operations -/

/-- A scope that gets a variable keeps those that it has, and a scope that is not there gets none. -/
theorem binds_define_of_binds (h : s.binds id name = true) (other : ScopeId) (n : String) (v : Value) :
    (s.define other n v).binds id name = true := by
  by_cases inside : other < s.scopes.size
  · rw [binds_define _ _ _ _ _ _ inside, h, Bool.or_true]
  · have ne : other ≠ id := by
      rintro rfl
      exact inside (lt_size_of_binds h)
    unfold binds valueIn? define
    rw [Array.getElem?_modify, if_neg ne]
    exact h

theorem lt_size_of_field? (h : (s.field? id name).isSome = true) : id < s.instances.size := by
  refine Nat.lt_of_not_le fun hge => ?_
  rw [field?_eq_none hge] at h
  cases h

theorem extends_define (s : Store) (other : ScopeId) (name : String) (v : Value) : s.Extends (s.define other name v) where
  toAges := ages_define s other name v
  binds _ _ h := binds_define_of_binds h other name v
  fields _ _ h := h

theorem extends_addScope (s : Store) (scope : Scope) : s.Extends (s.addScope scope) where
  toAges := ages_addScope s scope
  binds := (later_addScope s scope).binds
  fields _ _ h := h

theorem extends_addClosure (s : Store) (f : Closure) : s.Extends (s.addClosure f) where
  toAges := ages_addClosure s f
  binds _ _ h := h
  fields _ _ h := h

theorem extends_addClass (s : Store) (cls : Class) : s.Extends (s.addClass cls) where
  toAges := ages_addClass s cls
  binds _ _ h := h
  fields _ _ h := h

theorem extends_addInstance (s : Store) (cls : ClassId) : s.Extends (s.addInstance ⟨cls, .empty⟩) where
  toAges := ages_addInstance s ⟨cls, .empty⟩
  binds _ _ h := h
  fields id name h := by
    rw [field?_addInstance]
    exact h

theorem extends_setField (s : Store) (other : InstanceId) (name : String) (v : Value) :
    s.Extends (s.setField other name v) where
  toAges := ages_setField s other name v
  binds _ _ h := h
  fields id n h := by
    by_cases same : other = id
    · subst same
      rw [field?_setField (lt_size_of_field? h)]
      split
      · rfl
      · exact h
    · unfold field?
      rw [getElem?_setField_of_ne (Ne.symm same)]
      exact h

/-- Whatever a program does, its store only grows. -/
def extending : Upkeep where
  order _ := True
  fit _ _ := True
  later := Extends
  refl := .refl
  trans := .trans
  stays _ _ := trivial
  globals _ := trivial
  found _ _ _ := trivial
  define name _ _ _ := ⟨extends_define _ _ name _, trivial⟩
  addScope _ _ _ := ⟨extends_addScope _ _, trivial, trivial⟩
  addClosure _ _ := ⟨extends_addClosure _ _, trivial, trivial⟩
  addClass _ _ _ := ⟨extends_addClass _ _, trivial, trivial⟩
  addInstance _ _ := ⟨extends_addInstance _ _, trivial, trivial⟩
  setField name _ _ _ := ⟨extends_setField _ _ name _, trivial⟩

/-! ## What is found -/

namespace Extends

theorem later (h : s.Extends s') : s.Later s' where
  parent i j link := by
    obtain ⟨scope, hs, parent⟩ := Option.bind_eq_some_iff.1 link
    obtain ⟨vars, hs'⟩ := h.scopes i scope hs
    rw [parent?, hs']
    exact parent
  binds := h.binds
  closures := h.closures
  size := h.size

/-- The variable so many scopes out is found in the same scope. -/
theorem target?_hops (h : s.Extends s') {current : ScopeId} {distance : Nat}
    (found : s.target? current (.hops distance) name = some id) : s'.target? current (.hops distance) name = some id := by
  obtain ⟨reach, bound⟩ := Option.filter_eq_some_iff.1 found
  exact Option.filter_eq_some_iff.2 ⟨h.later.ancestor reach, h.binds id name bound⟩

theorem findMethodFrom? (h : s.Extends s') {method : ClosureId} : ∀ {fuel : Nat} {id : ClassId},
    s.findMethodFrom? name fuel id = some method → s'.findMethodFrom? name fuel id = some method
  | fuel + 1, id, found => by
    unfold Store.findMethodFrom? at found ⊢
    cases hc : s.classes[id]? with
    | none => simp only [hc, reduceCtorEq] at found
    | some cls =>
      simp only [hc] at found
      simp only [h.classes id cls hc]
      cases own : cls.methods.get? name with
      | some f =>
        simp only [own] at found ⊢
        exact found
      | none =>
        simp only [own] at found ⊢
        obtain ⟨parent, hp, found⟩ := Option.bind_eq_some_iff.1 found
        exact Option.bind_eq_some_iff.2 ⟨parent, hp, h.findMethodFrom? found⟩

/-- What a class has under a name, its own or inherited, it keeps. -/
theorem findMethod? (h : s.Extends s') {cls : ClassId} {method : ClosureId} (found : s.findMethod? cls name = some method) :
    s'.findMethod? cls name = some method :=
  h.findMethodFrom? found

end Extends

end Store

end Lox
