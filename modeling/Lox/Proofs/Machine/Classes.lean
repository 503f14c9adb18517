/-
The declaration of a class keeps a machine conforming. Its methods stand in a scope for `this`, which is not
there before a method is taken from an instance, and with a superclass in a scope for `super` around that one,
which is made with the class.
-/
import Lox.Proofs.Machine.Variables

namespace Lox

variable {statements : List Stmt} {table : Table} {plan : List (List Declarations)} {m : Machine} {x y : Stop}

/-! ## Where methods stand -/

/-- The scope for `super`, if a class has a superclass. -/
def superScopes (inherits : Bool) : List Declarations :=
  if inherits then [Bindings.empty.set superName true] else []

/-- The stop at the methods of a class. -/
theorem Stop.exists_methods {name : Token} {e : Option Expr} {rs : List (Routine Stmt)}
    (hc : x.code = .stmt (.classDecl name e rs)) :
    ∃ y ∈ x.parts, y.code = .methods rs ∧
      y.walk.scopes =
        Bindings.empty.set thisName true :: (superScopes e.isSome ++ settle [name.lexeme] x.walk.scopes) ∧
      ∃ own, y.whole = own :: (superScopes e.isSome ++ x.whole) := by
  obtain ⟨code, a, w, d⟩ := x
  cases hc
  cases e with
  | none =>
    refine ⟨_, List.mem_singleton_self _, rfl, ?_, _, rfl⟩
    simp [superScopes]
  | some e =>
    refine ⟨_, List.mem_cons_of_mem _ (List.mem_singleton_self _), rfl, ?_, _, List.cons_eq_cons.2 ⟨rfl, ?_⟩⟩
    · simp [superScopes]
    · simp [superScopes, Walk.innermost, scopes_walkMethods]

/-- The stop at one of the methods of a class. -/
theorem Visits.exists_method {r : Routine Stmt} {rs : List (Routine Stmt)} (hy : Visits statements y)
    (hc : y.code = .methods rs) (hr : r ∈ rs) :
    ∃ z, Visits statements z ∧ z.code = .routine r ∧ z.walk.scopes = y.walk.scopes ∧ z.whole = y.whole ∧
      z.around.body = r.methodBody := by
  induction rs generalizing y with
  | nil => exact absurd hr List.not_mem_nil
  | cons first rest ih =>
    obtain ⟨code, a, w, d⟩ := y
    cases hc
    rcases List.mem_cons.1 hr with rfl | hr
    · exact ⟨_, hy.part List.mem_cons_self, rfl, rfl, rfl, rfl⟩
    · have next := hy.part (List.mem_cons_of_mem _ (List.mem_singleton_self _))
      obtain ⟨z, hz, hc, hs, hw, hb⟩ := ih next rfl hr
      exact ⟨z, hz, hc, by rw [hs]; exact scopes_walkRoutine _ first w, hw, hb⟩

theorem Routine.methodBody_ne_top (r : Routine Stmt) : r.methodBody ≠ .top := by
  unfold methodBody
  split <;> nofun

theorem Routine.methodBody_eq_initializer (r : Routine Stmt) :
    r.methodBody = .initializer ↔ r.isInitializer = true := by
  unfold methodBody
  split <;> simp [*]

namespace World

variable {w : World} {scope : ScopeId}

/-- The functions of a class's methods, in the scope in which they are declared. -/
theorem method_of_routine (hy : Visits statements y) {rs : List (Routine Stmt)} (hc : y.code = .methods rs)
    {own : Declarations} {outer scopes : List Declarations} (hw : y.whole = own :: outer)
    (hs : y.walk.scopes = Bindings.empty.set thisName true :: scopes) (planned : w.plan[scope]? = some outer)
    (ready : w.store.Ready scope scopes) {r : Routine Stmt} (hr : r ∈ rs) :
    ∃ z, Method statements w ⟨r, scope, r.isInitializer⟩ z := by
  obtain ⟨z, hz, code, scopes', whole, body⟩ := hy.exists_method hc hr
  exact ⟨z, ⟨hz, code, body ▸ r.methodBody_ne_top, body ▸ r.methodBody_eq_initializer⟩,
    own, outer, scopes, whole.trans hw, scopes'.trans hs, planned, ready⟩

/-! ## Steps of the declaration -/

theorem Sound.methodScope (h : Sound statements w) {d scopes : List Declarations}
    (planned : w.plan[scope]? = some d) (ready : w.store.Ready scope scopes) (superclass : Option ClassId) :
    ∃ plan, Grows w ⟨plan, (Machine.methodScope scope superclass w.store).1⟩ ∧
      Sound statements ⟨plan, (Machine.methodScope scope superclass w.store).1⟩ ∧
      plan[(Machine.methodScope scope superclass w.store).2]? = some (superScopes superclass.isSome ++ d) ∧
      (Machine.methodScope scope superclass w.store).1.Ready (Machine.methodScope scope superclass w.store).2
        (superScopes superclass.isSome ++ scopes) := by
  cases superclass with
  | none => exact ⟨w.plan, .refl w, h, planned, ready⟩
  | some parent =>
    let own : Declarations := Bindings.empty.set superName true
    let inner : Scope := ⟨some scope, Bindings.empty.set superName (.cls parent)⟩
    have names : ∀ n, inner.bindings.contains n = true → own.contains n = true := fun n hn => by
      have hn : n = superName := by simpa [inner, Bindings.contains] using hn
      simp [own, hn]
    have values : ∀ n v, inner.bindings.get? n = some v → Holds statements w v ∧ v.FitsWord n := fun n v hv => by
      have hv : n = superName ∧ .cls parent = v := by simpa [inner] using hv
      obtain ⟨rfl, rfl⟩ := hv
      exact ⟨holds_of_ne fun _ h => (by cases h), fun h => absurd h (by decide), fun _ => ⟨parent, rfl⟩⟩
    have grows := w.grows_addScope (own :: d) inner
    refine ⟨w.plan ++ [own :: d], grows, h.addScope own _ planned names values, h.planned_addScope (own :: d) inner,
      fun n hn => ?_, scope, ?_, grows.ready ready⟩
    · have hn : n = superName := by simpa using hn
      show (w.store.addScope inner).binds w.store.nextScope n = true
      rw [Store.binds, Store.valueIn?_addScope, if_pos rfl]
      simp [inner, hn]
    · show (w.store.addScope inner).parent? w.store.nextScope = _
      rw [Store.parent?_addScope, if_pos rfl]

theorem Sound.addMethods :
    ∀ (methods : List (Routine Stmt)) {w : World}, Sound statements w →
      (∀ r ∈ methods, ∃ z, Method statements w ⟨r, scope, r.isInitializer⟩ z) →
      Grows w ⟨w.plan, (Machine.addMethods scope methods w.store).1⟩ ∧
        Sound statements ⟨w.plan, (Machine.addMethods scope methods w.store).1⟩ ∧
        ∀ n m, (n, m) ∈ (Machine.addMethods scope methods w.store).2 →
          ∃ c z, (Machine.addMethods scope methods w.store).1.closures[m]? = some c ∧
            Method statements ⟨w.plan, (Machine.addMethods scope methods w.store).1⟩ c z
  | [], w, h, _ => ⟨.refl w, h, nofun⟩
  | r :: rest, w, h, hm => by
    obtain ⟨grows, sound⟩ := h.addClosure ⟨r, scope, r.isInitializer⟩
    have later := sound.addMethods rest fun r' hr' => by
      obtain ⟨z, hz⟩ := hm r' (List.mem_cons_of_mem _ hr')
      exact ⟨z, grows.method hz⟩
    obtain ⟨grows', sound', entries⟩ := later
    refine ⟨grows.trans grows', sound', fun n m hmem => ?_⟩
    rcases List.mem_cons.1 hmem with e | hmem
    · cases e
      obtain ⟨z, hz⟩ := hm r List.mem_cons_self
      refine ⟨_, z, grows'.closures _ _ ?_, grows'.method (grows.method hz)⟩
      simp [Store.addClosure, Store.nextClosure]
    · exact entries n m hmem

end World

/-! ## The declaration -/

namespace Machine

open World

theorem Owes.declareClass (h : Owes statements plan x.ending m) (resolved : Resolved statements table)
    (place : At statements ⟨plan, m.store⟩ m.scope x) {name : Token} {e : Option Expr} {rs : List (Routine Stmt)}
    (hc : x.code = .stmt (.classDecl name e rs)) {superclass : Option ClassId}
    (hs : superclass.isSome = e.isSome) : Conforms statements (m.declareClass name superclass rs) := by
  have checked := resolved.checked place.visits
  have declared : x.code.declared = [name.lexeme] := by rw [hc]; rfl
  have mem : name.lexeme ∈ x.code.declared := by rw [declared]; exact List.mem_singleton_self _
  have nameable := checked.formed.declared _ mem
  obtain ⟨y, hy, code, scopes, own, whole⟩ := Stop.exists_methods hc
  rw [← hs] at scopes whole
  -- the name is bound
  have bound := h.sound.define place.planned (fun _ _ hw => checked.fits.declared mem hw) (v := .nil)
    (holds_of_ne nofun) (Value.fitsWord_of_nameable nameable _)
  have binds : (m.store.define m.scope name.lexeme .nil).binds m.scope name.lexeme = true := by
    rw [Store.binds_define _ _ _ _ _ _ (h.sound.lt_size place.planned)]
    simp
  have ready : (m.store.define m.scope name.lexeme .nil).Ready m.scope (settle [name.lexeme] x.walk.scopes) :=
    (bound.1.at place).ready.settle fun n hn => by cases List.mem_singleton.1 hn; exact binds
  -- the methods are made in their scope, and then the class
  obtain ⟨plan₁, grows₁, sound₁, planned, readyM⟩ := bound.2.methodScope place.planned ready superclass
  obtain ⟨grows₂, sound₂, entries⟩ := sound₁.addMethods rs
    fun r hr => method_of_routine (place.visits.part hy) code whole scopes planned readyM hr
  obtain ⟨grows₃, sound₃⟩ := sound₂.addClass ⟨name.lexeme, superclass, .ofList _⟩
    fun n k hk => entries n k (Bindings.mem_of_get?_ofList hk)
  have grows := ((bound.1.trans grows₁).trans grows₂).trans grows₃
  -- the name gets the class
  have found := Store.holder?_self (grows₃.binds _ _ (grows₂.binds _ _ (grows₁.binds _ _ binds)))
  have given := fun id => sound₃.define (grows.at place).planned (fun _ _ hw => checked.fits.declared mem hw)
    (v := .cls id) (holds_of_ne nofun) (Value.fitsWord_of_nameable nameable _)
  simp only [Machine.declareClass, Store.write?, Store.target?]
  rw [found]
  refine Owes.finish (h.grow ⟨grows.trans (given _).1, (given _).2⟩) ?_
  show Store.Ready _ m.scope x.after.scopes
  rw [Stop.scopes_after, declared]
  exact ((grows₁.trans grows₂).trans (grows₃.trans (given _).1)).ready ready

end Machine

end Lox
