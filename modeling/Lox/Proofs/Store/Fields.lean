/-
The fields of instances. A field that is stored is there afterwards, and every other field of every instance is as it was
(`field?_setField`); what a program does otherwise leaves all fields alone, as a new instance has none, and but for the
declaration of classes it leaves the classes alone as well (`KeepsObjects`).
-/
import Lox.Proofs.Store.Chain

namespace Lox

namespace Store

/-- The value of a field of an instance. -/
def field? (s : Store) (id : InstanceId) (name : String) : Option Value :=
  s.instances[id]?.bind (·.fields.get? name)

variable {s s' s'' : Store} {id other : InstanceId} {name n : String} {v : Value}

/-- An instance that is not there has no fields. -/
theorem field?_eq_none (h : s.instances.size ≤ id) (name : String) : s.field? id name = none := by
  rw [field?, Array.getElem?_eq_none h]
  rfl

theorem field?_congr (h : s'.instances = s.instances) (id : InstanceId) (name : String) :
    s'.field? id name = s.field? id name := by
  rw [field?, h]
  rfl

/-- A new instance has no fields. -/
theorem field?_addInstance (s : Store) (cls : ClassId) (id : InstanceId) (name : String) :
    (s.addInstance ⟨cls, .empty⟩).field? id name = s.field? id name := by
  unfold field? addInstance
  rw [Array.getElem?_push]
  split
  · next new =>
    rw [new, Array.getElem?_eq_none (Nat.le_refl _)]
    rfl
  · rfl

/-- A field that is stored is there, and all others are as they were. -/
theorem field?_setField (h : id < s.instances.size) (name : String) (v : Value) (other : InstanceId) (n : String) :
    (s.setField id name v).field? other n = if id = other ∧ name = n then some v else s.field? other n := by
  unfold field? setField
  rw [Array.getElem?_modify]
  by_cases same : id = other
  · subst same
    obtain ⟨object, there⟩ : ∃ object, s.instances[id]? = some object := ⟨_, Array.getElem?_eq_getElem h⟩
    rw [if_pos rfl, there, Option.map_some, Option.bind_some, Bindings.get?_set]
    simp [eq_comm]
  · simp [same]

/-- What is stored in an instance is no concern of another one. -/
theorem getElem?_setField_of_ne (h : other ≠ id) (s : Store) (name : String) (v : Value) :
    (s.setField id name v).instances[other]? = s.instances[other]? := by
  unfold setField
  rw [Array.getElem?_modify, if_neg h.symm]

/-! ## What leaves objects alone -/

/-- What is found for a class under a name depends on nothing but the classes. -/
theorem findMethod?_congr (h : s'.classes = s.classes) (id : ClassId) (name : String) :
    s'.findMethod? id name = s.findMethod? id name := by
  have same : ∀ fuel id, s'.findMethodFrom? name fuel id = s.findMethodFrom? name fuel id := by
    intro fuel
    induction fuel with
    | zero => exact fun _ => rfl
    | succ fuel ih =>
      intro id
      unfold findMethodFrom?
      rw [h, show s'.findMethodFrom? name fuel = s.findMethodFrom? name fuel from funext ih]
  exact same _ _

/-- From one store to a later one: classes are the same and instances have the same fields. -/
structure KeepsObjects (s s' : Store) : Prop where
  classes : s'.classes = s.classes
  fields : ∀ id name, s'.field? id name = s.field? id name

namespace KeepsObjects

theorem of_eq (classes : s'.classes = s.classes) (instances : s'.instances = s.instances) : s.KeepsObjects s' :=
  ⟨classes, field?_congr instances⟩

theorem refl (s : Store) : s.KeepsObjects s := of_eq rfl rfl

theorem trans (h : s.KeepsObjects s') (h' : s'.KeepsObjects s'') : s.KeepsObjects s'' :=
  ⟨h'.classes.trans h.classes, fun id name => (h'.fields id name).trans (h.fields id name)⟩

theorem addInstance (s : Store) (cls : ClassId) : s.KeepsObjects (s.addInstance ⟨cls, .empty⟩) :=
  ⟨rfl, s.field?_addInstance cls⟩

theorem write? {current : ScopeId} {place : Place} (h : s.write? current place name v = some s') : s.KeepsObjects s' := by
  unfold Store.write? at h
  split at h
  · cases h
    exact of_eq rfl rfl
  · cases h

end KeepsObjects

end Store

end Lox
