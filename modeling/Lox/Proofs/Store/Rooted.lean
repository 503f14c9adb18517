/-
What the links of a store come to where each leads to something older (`Grounded.rooted`). No scope is around itself and
no class is above itself, every chain of scopes ends at the global variables, and a search along a chain comes to an
end: what the store finds within a bound is what is found without one.
-/
import Lox.Proofs.Store.Grounded
import Mathlib.Logic.Relation

namespace Lox

namespace Store

/-- The superclass of a class. -/
def superclass? (s : Store) (id : ClassId) : Option ClassId := s.classes[id]?.bind (·.superclass)

/-- The search for a variable from scope to scope outwards, and what it comes to. -/
inductive Searches (s : Store) (name : String) : ScopeId → Option ScopeId → Prop
  | found {id} : s.binds id name = true → Searches s name id (some id)
  | outward {id outer result} : s.binds id name = false → s.parent? id = some outer → Searches s name outer result →
    Searches s name id result
  | nowhere {id} : s.binds id name = false → s.parent? id = none → Searches s name id none

/-- The search for a method from class to class upwards, and what it comes to. -/
inductive Seeks (s : Store) (name : String) : ClassId → Option ClosureId → Prop
  | own {id cls method} : s.classes[id]? = some cls → cls.methods.get? name = some method → Seeks s name id (some method)
  | inherited {id cls parent result} : s.classes[id]? = some cls → cls.methods.get? name = none →
    cls.superclass = some parent → Seeks s name parent result → Seeks s name id result
  | nowhere {id cls} : s.classes[id]? = some cls → cls.methods.get? name = none → cls.superclass = none →
    Seeks s name id none

/-- A store whose links lead to older things, and what follows for those who go along them. -/
structure Rooted (s : Store) : Prop where
  /-- The scope around a scope was made before it. -/
  outward : ∀ id outer, s.parent? id = some outer → outer < id ∧ id < s.scopes.size
  /-- The superclass of a class was made before it. -/
  upward : ∀ id parent, s.superclass? id = some parent → parent < id ∧ id < s.classes.size
  noScopeCycle : ∀ id, ¬ Relation.TransGen (fun inner outer => s.parent? inner = some outer) id id
  noClassCycle : ∀ id, ¬ Relation.TransGen (fun cls parent => s.superclass? cls = some parent) id id
  /-- Every chain of scopes ends at the global variables. -/
  ends : ∀ id < s.scopes.size, ∃ steps ≤ id,
    s.ancestor? id steps = some globalScope ∧ s.ancestor? id (steps + 1) = none
  /-- So many steps out there is an older scope, if there is one. -/
  ancestors : ∀ id steps outer : Nat, s.ancestor? id steps = some outer → outer + steps ≤ id
  searches : ∀ id < s.scopes.size, ∀ name, s.Searches name id (s.holder? id name)
  seeks : ∀ id < s.classes.size, ∀ name, s.Seeks name id (s.findMethod? id name)

variable {s : Store} {id : Nat} {name : String}

/-- Who goes along links that lead to smaller numbers does not come back. -/
theorem lt_of_transGen {r : Nat → Nat → Prop} (h : ∀ a b, r a b → b < a) {a b : Nat} (go : Relation.TransGen r a b) :
    b < a := by
  induction go with
  | single step => exact h _ _ step
  | tail _ step ih => exact Nat.lt_trans (h _ _ step) ih

namespace Grounded

variable (h : s.Grounded)
include h

theorem parent?_globalScope : s.parent? globalScope = none := by
  obtain ⟨vars, hg⟩ := h.globals
  rw [parent?, hg]
  rfl

theorem exists_parent? (hid : id < s.scopes.size) (other : id ≠ globalScope) :
    ∃ outer < id, s.parent? id = some outer := by
  obtain ⟨scope, hs⟩ := lt_size_iff.1 hid
  obtain ⟨outer, lt, parent⟩ := h.parents id scope hs other
  refine ⟨outer, lt, ?_⟩
  rw [parent?, hs]
  exact parent

theorem outward : s.Outward := by
  intro id outer link
  have hid := lt_size_of_parent? link
  by_cases other : id = globalScope
  · rw [other, h.parent?_globalScope] at link
    cases link
  · obtain ⟨outer', lt, link'⟩ := h.exists_parent? hid other
    cases link.symm.trans link'
    exact lt

theorem upward {parent : ClassId} (link : s.superclass? id = some parent) : parent < id ∧ id < s.classes.size := by
  obtain ⟨cls, hc, hp⟩ := Option.bind_eq_some_iff.1 link
  exact ⟨h.superclasses id cls hc parent hp, lt_size_iff.2 ⟨cls, hc⟩⟩

/-- From every scope the global variables are so many steps out. -/
theorem exists_ancestor?_globalScope : ∀ id < s.scopes.size, ∃ steps ≤ id, s.ancestor? id steps = some globalScope := by
  intro id
  induction id using Nat.strongRecOn with
  | _ id ih =>
    intro hid
    by_cases other : id = globalScope
    · exact ⟨0, Nat.zero_le _, congrArg some other⟩
    · obtain ⟨outer, lt, link⟩ := h.exists_parent? hid other
      obtain ⟨steps, le, reach⟩ := ih outer lt (Nat.lt_trans lt hid)
      refine ⟨steps + 1, by omega, ?_⟩
      rw [ancestor?_succ, link]
      exact reach

theorem ancestor?_le {steps outer : Nat} (reach : s.ancestor? id steps = some outer) :
    outer + steps ≤ id := by
  induction steps generalizing id with
  | zero =>
    cases reach
    exact Nat.le_refl _
  | succ steps ih =>
    rw [ancestor?_succ] at reach
    obtain ⟨next, link, reach⟩ := Option.bind_eq_some_iff.1 reach
    exact Nat.le_trans (Nat.succ_le_succ (ih reach)) (h.outward id next link)

theorem searches : ∀ id < s.scopes.size, s.Searches name id (s.holder? id name) := by
  intro id
  induction id using Nat.strongRecOn with
  | _ id ih =>
    intro hid
    rw [holder?_eq h.outward]
    split
    · next here => exact .found here
    · next away =>
      have away := Bool.eq_false_iff.2 away
      cases link : s.parent? id with
      | none => exact .nowhere away link
      | some outer =>
        have lt := h.outward id outer link
        exact .outward away link (ih outer lt (Nat.lt_trans lt hid))

/-- Any bound on the search for a method will do that is beyond the number of the class. -/
theorem findMethodFrom?_eq : ∀ (id fuel : Nat), id < fuel → s.findMethodFrom? name fuel id = s.findMethod? id name := by
  intro id
  induction id using Nat.strongRecOn with
  | _ id ih =>
    intro fuel hf
    obtain ⟨fuel, rfl⟩ : ∃ k, fuel = k + 1 := ⟨fuel - 1, by omega⟩
    unfold findMethod? findMethodFrom?
    cases hc : s.classes[id]? with
    | none => rfl
    | some cls =>
      cases own : cls.methods.get? name with
      | some method => simp only [own]
      | none =>
        cases hp : cls.superclass with
        | none => simp only [own, hp, Option.bind_none]
        | some parent =>
          have lt : parent < id := h.superclasses id cls hc parent hp
          simp only [own, hp, Option.bind_some]
          rw [ih parent lt fuel (Nat.lt_of_lt_of_le lt (Nat.le_of_lt_succ hf)), ih parent lt id lt]

theorem seeks : ∀ id < s.classes.size, s.Seeks name id (s.findMethod? id name) := by
  intro id
  induction id using Nat.strongRecOn with
  | _ id ih =>
    intro hid
    obtain ⟨cls, hc⟩ := lt_size_iff.1 hid
    unfold findMethod? findMethodFrom?
    rw [hc]
    cases own : cls.methods.get? name with
    | some method =>
      simp only [own]
      exact .own hc own
    | none =>
      cases hp : cls.superclass with
      | none =>
        simp only [own, hp, Option.bind_none]
        exact .nowhere hc own hp
      | some parent =>
        have lt : parent < id := h.superclasses id cls hc parent hp
        simp only [own, hp, Option.bind_some]
        rw [h.findMethodFrom?_eq parent id lt]
        exact .inherited hc own hp (ih parent lt (Nat.lt_trans lt hid))

/-- Links to older things make no cycle, and everyone who goes along them comes to an end. -/
theorem rooted : s.Rooted where
  outward id outer link := ⟨h.outward id outer link, lt_size_of_parent? link⟩
  upward _ _ link := h.upward link
  noScopeCycle id cycle := Nat.lt_irrefl id (lt_of_transGen h.outward cycle)
  noClassCycle id cycle := Nat.lt_irrefl id (lt_of_transGen (fun _ _ link => (h.upward link).1) cycle)
  ends id hid := by
    obtain ⟨steps, le, reach⟩ := h.exists_ancestor?_globalScope id hid
    refine ⟨steps, le, reach, ?_⟩
    rw [ancestor?_add, reach]
    exact ancestor?_outermost h.parent?_globalScope 0
  ancestors _ _ _ reach := h.ancestor?_le reach
  searches id hid _ := h.searches id hid
  seeks id hid _ := h.seeks id hid

end Grounded

end Store

end Lox
