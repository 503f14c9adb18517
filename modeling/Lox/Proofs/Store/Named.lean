/-
Every class has its methods under their own names, so that what is found for a class under a name, along its superclasses,
was declared as a method of that name (`Named.isMethod_of_findMethod?`). What sets up the instances of a class is
therefore an initializer, and gives its instance when it is called.
-/
import Lox.Proofs.Store.Grounded

namespace Lox

namespace Store

/-- Whether every class has its methods under their own names. -/
def Named (s : Store) : Prop :=
  ∀ (id : ClassId) cls, s.classes[id]? = some cls → ∀ name f, cls.methods.get? name = some f → s.IsMethod name f

variable {s s' : Store} {name : String} {id : ClassId} {f : ClosureId} {c : Closure}

theorem Ages.isMethod (ages : s.Ages s') (h : s.IsMethod name f) : s'.IsMethod name f := by
  obtain ⟨r, scope, found, named⟩ := h
  exact ⟨r, scope, ages.closures _ _ found, named⟩

/-- Functions and classes that there were before have their names as before. -/
theorem Named.ages (h : s.Named) (ages : s.Ages s') (classes : s'.classes = s.classes) : s'.Named := by
  intro id cls hc name f hf
  rw [classes] at hc
  exact ages.isMethod (h id cls hc name f hf)

theorem Named.addClass (h : s.Named) {cls : Class}
    (methods : ∀ name f, cls.methods.get? name = some f → s.IsMethod name f) : (s.addClass cls).Named := by
  intro id c hc name f hf
  rcases of_getElem?_push hc with ⟨-, rfl⟩ | hc
  · exact (ages_addClass s _).isMethod (methods name f hf)
  · exact (ages_addClass s _).isMethod (h id c hc name f hf)

theorem named_initial : Store.initial.Named := nofun

/-- Whatever a program does, classes have their methods under their own names. -/
def naming : Upkeep where
  order := Named
  fit _ _ := True
  later := Ages
  refl := .refl
  trans := .trans
  stays _ _ := trivial
  globals _ := trivial
  found _ _ _ := trivial
  define name h _ _ := ⟨ages_define _ _ name _, h.ages (ages_define _ _ name _) rfl⟩
  addScope h _ _ := ⟨ages_addScope _ _, h.ages (ages_addScope _ _) rfl, trivial⟩
  addClosure h _ := ⟨ages_addClosure _ _, h.ages (ages_addClosure _ _) rfl, trivial⟩
  addClass h _ methods := ⟨ages_addClass _ _, h.addClass fun name f hf => (methods name f hf).2, trivial⟩
  addInstance h _ := ⟨ages_addInstance _ _, h.ages (ages_addInstance _ _) rfl, trivial⟩
  setField name h _ _ := ⟨ages_setField _ _ name _, h.ages (ages_setField _ _ name _) rfl⟩

/-! ## Methods that are found -/

theorem Named.isMethod_of_findMethodFrom? (h : s.Named) :
    ∀ {fuel : Nat} {id : ClassId}, s.findMethodFrom? name fuel id = some f → s.IsMethod name f
  | fuel + 1, id, hf => by
    rw [findMethodFrom?] at hf
    split at hf
    · cases hf
    · next cls hc =>
      split at hf
      · next own hm =>
        cases hf
        exact h id cls hc name _ hm
      · obtain ⟨parent, -, hf⟩ := Option.bind_eq_some_iff.1 hf
        exact h.isMethod_of_findMethodFrom? hf

/-- A method that is found for a class has the name under which it is found. -/
theorem Named.isMethod_of_findMethod? (h : s.Named) (hf : s.findMethod? id name = some f) : s.IsMethod name f :=
  h.isMethod_of_findMethodFrom? hf

/-- What was declared as a method is an initializer exactly if it has the name of one. -/
theorem IsMethod.initializer_iff (h : s.IsMethod name f) (hc : s.closures[f]? = some c) :
    c.initializer = true ↔ name = initializerName := by
  obtain ⟨r, scope, found, rfl⟩ := h
  cases found.symm.trans hc
  exact beq_iff_eq

end Store

end Lox
