/-
The declarations of functions and classes on both sides. They stand where all variables belong together, and so they can
be called wherever they are found.
-/
import Lox.Proofs.Pair.Calls

namespace Lox

theorem Store.write?_nearest {s : Store} {id : ScopeId} {name : String} (h : s.binds id name = true) (v : Value) :
    s.write? id .nearest name v = some (s.define id name v) := by
  simp only [write?, target?, holder?_self h]

/-- The link to the scope for `super`, if a class has a superclass. -/
def superLinks : Option ClassId → List Link
  | none => []
  | some _ => [.scope .same]

namespace Sides

variable {p : Pairing} {s : Sides} {since : ScopeId} {links : List Link} {i i' : ScopeId}

/-! ## Methods -/

/-- The scopes in which methods are declared. -/
theorem Sound.methodScope (h : Sound p s) (stands : Stands s since links i i') (plain : ∀ link ∈ links, link.Plain)
    (superclass : Option ClassId) :
    ∃ tie, Grows s ⟨tie, (Machine.methodScope i superclass s.left).1, (Machine.methodScope i' superclass s.right).1⟩ ∧
      Sound p ⟨tie, (Machine.methodScope i superclass s.left).1, (Machine.methodScope i' superclass s.right).1⟩ ∧
      Stands ⟨tie, (Machine.methodScope i superclass s.left).1, (Machine.methodScope i' superclass s.right).1⟩ 0
        (superLinks superclass ++ links) (Machine.methodScope i superclass s.left).2
        (Machine.methodScope i' superclass s.right).2 := by
  cases superclass with
  | none => exact ⟨s.tie, .refl s, h, (Keeps.refl s).stands plain stands 0⟩
  | some parent =>
    obtain ⟨grows, sound, inner⟩ := h.openWord stands plain superName (v := .cls parent) fun _ e => by cases e
    exact ⟨_, grows, sound, inner⟩

/-- Methods are made on both sides, with the same numbers. -/
theorem Sound.addMethods (plain : ∀ link ∈ links, link.Plain) :
    ∀ {rs rs' : List (Routine Stmt)}, p.Alike (.scope .same :: links) (.methods rs) (.methods rs') →
      ∀ {s : Sides}, Sound p s → Stands s 0 links i i' →
        (Machine.addMethods i' rs' s.right).2 = (Machine.addMethods i rs s.left).2 ∧
          Grows s ⟨s.tie, (Machine.addMethods i rs s.left).1, (Machine.addMethods i' rs' s.right).1⟩ ∧
          Sound p ⟨s.tie, (Machine.addMethods i rs s.left).1, (Machine.addMethods i' rs' s.right).1⟩ ∧
          ∀ n m, (n, m) ∈ (Machine.addMethods i rs s.left).2 →
            ∃ f f', (Machine.addMethods i rs s.left).1.closures[m]? = some f ∧
              (Machine.addMethods i' rs' s.right).1.closures[m]? = some f' ∧
              Method p ⟨s.tie, (Machine.addMethods i rs s.left).1, (Machine.addMethods i' rs' s.right).1⟩ f f'
  | [], rs', alike, s, h, _ => by
    cases alike
    exact ⟨rfl, .refl s, h, fun n m hm => by cases hm⟩
  | r :: rest, rs', alike, s, h, stands => by
    cases alike with
    | @moreMethods _ _ r' _ rest' first more =>
    have name : r'.name = r.name := first.routine_eq.1
    have initializer : r'.isInitializer = r.isInitializer := by rw [Routine.isInitializer, Routine.isInitializer, name]
    obtain ⟨grows, sound⟩ := h.addClosure ⟨r, i, r.isInitializer⟩ ⟨r', i', r'.isInitializer⟩
    obtain ⟨entries, grows', sound', methods⟩ := sound.addMethods plain more (grows.stands stands)
    refine ⟨?_, grows.trans grows', sound', fun n m hm => ?_⟩
    · simp only [Machine.addMethods, entries, name]
      rw [show s.right.nextClosure = s.left.nextClosure from h.closures]
    · rcases List.mem_cons.1 hm with e | hm
      · cases e
        have method : Method p s ⟨r, i, r.isInitializer⟩ ⟨r', i', r'.isInitializer⟩ :=
          ⟨⟨links, plain, stands, first⟩, initializer⟩
        have here : s.right.nextClosure = s.left.nextClosure := h.closures
        refine ⟨_, _, grows'.left.closures _ _ (closures_nextClosure _ _), grows'.right.closures _ _ ?_,
          (grows.trans grows').keeps.method method⟩
        exact here ▸ closures_nextClosure _ _
      · exact methods n m hm

end Sides

namespace Machine.Twins

open Sides

variable {p : Pairing} {tie : ScopeId → Option (ScopeId × Tie)} {since : ScopeId} {m m' : Machine} {links : List Link}

/-! ## Declarations -/

theorem declareRoutine (h : Twins p tie since .ending m m')
    (stands : Stands ⟨tie, m.store, m'.store⟩ since links m.scope m'.scope) (plain : ∀ link ∈ links, link.Plain)
    {r r' : Routine Stmt} (declares : Declares p.change links r.name.lexeme r.name.lexeme)
    (alike : p.Alike links (.routine r) (.routine r')) : Next p (m.declareRoutine r) (m'.declareRoutine r') := by
  have grown := h.sound.addClosure ⟨r, m.scope, false⟩ ⟨r', m'.scope, false⟩
  have callable : Callable p ⟨tie, m.store, m'.store⟩ ⟨r, m.scope, false⟩ ⟨r', m'.scope, false⟩ :=
    ⟨⟨links, plain, (Keeps.refl _).stands plain stands 0, alike⟩, rfl⟩
  have number : m'.store.nextClosure = m.store.nextClosure := h.sound.closures
  unfold Machine.declareRoutine
  dsimp only
  rw [number, Alike.routine_eq alike |>.1]
  refine (h.grow grown).declare (grown.1.shares (stands.shares_declared declares)) fun id e => ?_
  cases e
  exact ⟨_, _, closures_nextClosure _ _, number ▸ closures_nextClosure _ _, grown.1.keeps.callable callable⟩

theorem declareClass (h : Twins p tie since .ending m m')
    (stands : Stands ⟨tie, m.store, m'.store⟩ since links m.scope m'.scope) (plain : ∀ link ∈ links, link.Plain)
    {name : Token} (declares : Declares p.change links name.lexeme name.lexeme) (superclass : Option ClassId)
    {rs rs' : List (Routine Stmt)}
    (alike : p.Alike (.scope .same :: (superLinks superclass ++ links)) (.methods rs) (.methods rs')) :
    Next p (m.declareClass name superclass rs) (m'.declareClass name superclass rs') := by
  have plain' : ∀ link ∈ superLinks superclass ++ links, link.Plain := fun link hl => by
    rcases List.mem_append.1 hl with hl | hl
    · cases superclass with
      | none => cases hl
      | some _ =>
        cases List.mem_singleton.1 hl
        trivial
    · exact plain link hl
  -- the name is bound
  have shares := stands.shares_declared (p := p) declares
  obtain ⟨lt, lt'⟩ := h.sound.shares_lt shares
  obtain ⟨grows, sound⟩ := h.sound.define shares (v := .nil) (holds_of_ne fun _ e => by cases e)
  have binds : (m.store.define m.scope name.lexeme .nil).binds m.scope name.lexeme = true := by
    rw [Store.binds_define _ _ _ _ _ _ lt]
    simp
  have binds' : (m'.store.define m'.scope name.lexeme .nil).binds m'.scope name.lexeme = true := by
    rw [Store.binds_define _ _ _ _ _ _ lt']
    simp
  -- the methods are made in their scope, and then the class
  obtain ⟨tie', grows₁, sound₁, inner⟩ := sound.methodScope (grows.stands stands) plain superclass
  obtain ⟨entries, grows₂, sound₂, methods⟩ := sound₁.addMethods plain' alike inner
  obtain ⟨grows₃, sound₃⟩ := sound₂.addClass ⟨name.lexeme, superclass, .ofList _⟩
    fun n k hk => methods n k (Bindings.mem_of_get?_ofList hk)
  have later := (grows₁.trans grows₂).trans grows₃
  -- the name gets the class
  have found := Store.write?_nearest (later.left.binds _ _ binds)
  have found' := Store.write?_nearest (later.right.binds _ _ binds')
  have whole := grows.trans later
  have number : Store.nextClass _ = Store.nextClass _ := congrArg Array.size sound₂.classes
  have given := fun id => sound₃.define (whole.shares shares) (v := .cls id) (holds_of_ne fun _ e => by cases e)
  simp only [Machine.declareClass]
  rw [entries, number, found, found']
  exact (h.grow ⟨whole.trans (given _).1, (given _).2⟩).done

end Machine.Twins

end Lox
