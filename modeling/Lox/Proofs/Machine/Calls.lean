/-
Calls keep a machine conforming. A function's body runs in a new scope inside the scope of the function, with
its parameters for variables; a method taken from an instance is a function with a new scope for `this` around
it; and making an instance of a class runs the method that sets it up.
-/
import Lox.Proofs.Machine.Variables

namespace Lox

variable {statements : List Stmt} {table : Table} {plan : List (List Declarations)} {m : Machine}

/-! ## Parameters -/

namespace Machine

theorem mem_of_parameterEntries {parameters : List Token} {arguments : List Value} {name : String} {v : Value}
    (h : (name, v) ∈ parameters.zipWith (fun name v => (name.lexeme, v)) arguments) :
    name ∈ parameters.map (·.lexeme) ∧ v ∈ arguments := by
  rw [← List.map_uncurry_zip_eq_zipWith] at h
  obtain ⟨⟨p, u⟩, hz, e⟩ := List.mem_map.1 h
  cases e
  have := List.of_mem_zip hz
  exact ⟨List.mem_map.2 ⟨p, this.1, rfl⟩, this.2⟩

/-- The name is that of a parameter, and the value one of the arguments. -/
theorem mem_of_parameterBindings {parameters : List Token} {arguments : List Value} {name : String}
    {v : Value} (h : (parameterBindings parameters arguments).get? name = some v) :
    name ∈ parameters.map (·.lexeme) ∧ v ∈ arguments := mem_of_parameterEntries (Bindings.mem_of_get?_ofList h)

/-- With as many arguments as parameters every parameter is bound. -/
theorem contains_parameterBindings {parameters : List Token} {arguments : List Value}
    (hlen : arguments.length = parameters.length) {name : String} (h : name ∈ parameters.map (·.lexeme)) :
    (parameterBindings parameters arguments).contains name = true := by
  rw [parameterBindings, Bindings.contains_ofList, List.map_zipWith]
  rwa [← List.map_fst_zip (Nat.le_of_eq hlen.symm), List.map_map, List.map_zip_eq_zipWith] at h

open World

/-! ## Bodies -/

/-- The body of a function starts. -/
theorem Owes.enter (h : Owes statements plan .value m) (resolved : Resolved statements table) {c : Closure}
    {x : Stop} (callable : Callable statements ⟨plan, m.store⟩ c x) {arguments : List Value}
    (holds : ∀ v ∈ arguments, Holds statements ⟨plan, m.store⟩ v) (hlen : arguments.length = c.arity) :
    Conforms statements (m.enter c arguments) := by
  obtain ⟨⟨rname, parameters, body⟩, cscope, init⟩ := c
  obtain ⟨code, around, walk, whole⟩ := x
  cases callable.declares.code
  have checked := resolved.checked callable.declares.visits
  -- the stop at the body
  let inside := parameters.foldl Walk.introduce walk.openScope
  let own := (Stmt.walkAll around body inside).innermost
  let y : Stop := ⟨.stmts body, around, inside, own :: whole⟩
  have hy : y ∈ Stop.parts ⟨.routine ⟨rname, parameters, body⟩, around, walk, whole⟩ := List.mem_singleton_self y
  have scopes : y.walk.scopes = Declarations.complete (parameters.map (·.lexeme)) .empty :: walk.scopes := by
    simp [y, inside, settle]
  have within := (checked.part hy).fits.before
  rw [scopes] at within
  -- the new scope
  let scope : Scope := ⟨some cscope, parameterBindings parameters arguments⟩
  have planned : ∀ n, scope.bindings.contains n = true → own.contains n = true := fun n hn => by
    obtain ⟨v, hv⟩ := (Bindings.contains_iff _ _).1 hn
    cases within with
    | cons head _ =>
      exact head n ((Declarations.contains_complete _ _ _).2 (.inl (mem_of_parameterBindings hv).1))
  have values : ∀ n v, scope.bindings.get? n = some v → Holds statements ⟨plan, m.store⟩ v ∧ v.FitsWord n :=
    fun n v hv => by
      obtain ⟨bound, given⟩ := mem_of_parameterBindings hv
      obtain ⟨p, hp, rfl⟩ := List.mem_map.1 bound
      exact ⟨holds v given, Value.fitsWord_of_nameable (checked.formed.1 p hp) v⟩
  -- its parameters are the names that the walk had completed before the body
  have grows := World.grows_addScope ⟨plan, m.store⟩ (own :: whole) scope
  have sound := h.sound.addScope own _ callable.place.planned planned values
  have new := h.sound.planned_addScope (own :: whole) scope
  refine ⟨plan ++ [own :: whole], .ending around.body y.walk.scopes, ⟨sound, ?_⟩, around.body, _, rfl, ?_⟩
  · refine .cons (.sequence (callable.declares.visits.part hy) new rfl) ?_
    exact .cons (.body (x := ⟨_, around, walk, whole⟩) (grows.callable callable)) (grows.stacked h.stacked)
  · show (m.store.addScope scope).Ready m.store.nextScope y.walk.scopes
    rw [scopes]
    refine ⟨fun n hn => ?_, cscope, ?_, grows.ready callable.place.ready⟩
    · rw [Declarations.get?_complete, Bindings.get?_empty] at hn
      split at hn
      · next hmem =>
        rw [Store.binds, Store.valueIn?_addScope, if_pos rfl]
        exact contains_parameterBindings hlen hmem
      · cases hn
    · rw [Store.parent?_addScope, if_pos rfl]

end Machine

namespace World

variable {w : World}

/-- A method of an instance can be called. -/
theorem Sound.boundTo (h : Sound statements w) (resolved : Resolved statements table) {c : Closure} {x : Stop}
    (method : Method statements w c x) (object : InstanceId) :
    ∃ plan, Grows w ⟨plan, (w.store.boundTo c object).1⟩ ∧ Sound statements ⟨plan, (w.store.boundTo c object).1⟩ ∧
      Callable statements ⟨plan, (w.store.boundTo c object).1⟩ (w.store.boundTo c object).2 x := by
  obtain ⟨own, outer, scopes, hw, hs, hp, hr⟩ := method.place
  have within := (resolved.checked method.declares.visits).fits.before
  rw [hw, hs] at within
  let scope : Scope := ⟨some c.scope, Bindings.empty.set thisName (.object object)⟩
  have planned : ∀ n, scope.bindings.contains n = true → own.contains n = true := fun n hn => by
    have hn : n = thisName := by simpa [scope, Bindings.contains] using hn
    cases within with
    | cons head _ => exact head n (by simp [hn])
  have values : ∀ n v, scope.bindings.get? n = some v → Holds statements w v ∧ v.FitsWord n := fun n v hv => by
    have hv : n = thisName ∧ .object object = v := by simpa [scope] using hv
    obtain ⟨rfl, rfl⟩ := hv
    exact ⟨holds_of_ne fun _ h => (by cases h), fun _ => ⟨object, rfl⟩, fun h => absurd h (by decide)⟩
  have grows := w.grows_addScope (own :: outer) scope
  have this : (w.store.addScope scope).binds w.store.nextScope thisName = true := by
    rw [Store.binds, Store.valueIn?_addScope, if_pos rfl]
    simp [scope]
  refine ⟨w.plan ++ [own :: outer], grows, h.addScope own _ hp planned values, ?_⟩
  refine ⟨⟨method.declares.visits, method.declares.code, method.declares.inside, method.declares.initializer⟩,
    ⟨method.declares.visits, ?_, ?_⟩, fun _ => this⟩
  · rw [hw]
    exact h.planned_addScope (own :: outer) scope
  · rw [hs]
    refine ⟨fun n hn => ?_, c.scope, ?_, grows.ready hr⟩
    · have hn : n = thisName := by simpa using hn
      exact hn ▸ this
    · show (w.store.addScope scope).parent? w.store.nextScope = _
      rw [Store.parent?_addScope, if_pos rfl]

theorem Sound.findMethodFrom? (h : Sound statements w) {name : String} {found : ClosureId} :
    ∀ {fuel : Nat} {id : ClassId}, w.store.findMethodFrom? name fuel id = some found →
      ∃ c x, w.store.closures[found]? = some c ∧ Method statements w c x
  | 0, _, hf => by cases hf
  | fuel + 1, id, hf => by
    unfold Store.findMethodFrom? at hf
    cases hc : w.store.classes[id]? with
    | none => simp [hc] at hf
    | some cls =>
      cases hm : cls.methods.get? name with
      | some method =>
        simp only [hc, hm, Option.some.injEq] at hf
        subst hf
        exact h.methods id cls hc name method hm
      | none =>
        simp only [hc, hm] at hf
        obtain ⟨next, -, hf⟩ := Option.bind_eq_some_iff.1 hf
        exact h.findMethodFrom? hf

/-- What a class has under a name is a method. -/
theorem Sound.findMethod? (h : Sound statements w) {id : ClassId} {name : String} {found : ClosureId}
    (hf : w.store.findMethod? id name = some found) :
    ∃ c x, w.store.closures[found]? = some c ∧ Method statements w c x := h.findMethodFrom? hf

end World

namespace Machine

open World

/-! ## Methods -/

theorem Owes.giveMethod (h : Owes statements plan .value m) (resolved : Resolved statements table)
    {found : ClosureId} {c : Closure} {x : Stop} (hc : m.store.closures[found]? = some c)
    (method : Method statements ⟨plan, m.store⟩ c x) (object : InstanceId) (name : Token) :
    Conforms statements (m.giveMethod found object name) := by
  obtain ⟨plan', grows, sound, callable⟩ := h.sound.boundTo resolved method object
  obtain ⟨grows', sound'⟩ := sound.addClosure (m.store.boundTo c object).2
  simp only [Machine.giveMethod, hc]
  refine Owes.give (h.grow ⟨grows.trans grows', sound'⟩) fun id e => ?_
  cases e
  refine ⟨_, x, ?_, grows'.callable callable⟩
  simp [Store.addClosure, Store.nextClosure]

theorem Owes.giveProperty (h : Owes statements plan .value m) (resolved : Resolved statements table)
    (object : InstanceId) (name : Token) : Conforms statements (m.giveProperty object name) := by
  unfold Machine.giveProperty
  split
  · exact h.fail name nofun nofun
  · next i hi =>
    split
    · next v hv => exact h.give (h.sound.fields object i hi name.lexeme v hv)
    · split
      · next found hf =>
        obtain ⟨c, x, hc, method⟩ := h.sound.findMethod? hf
        exact h.giveMethod resolved hc method object name
      · exact h.fail name nofun nofun

theorem Owes.giveSuper (h : Owes statements plan .value m) (resolved : Resolved statements table) {x : Stop}
    (place : At statements ⟨plan, m.store⟩ m.scope x) {use : UseId} {keyword method : Token}
    (hc : x.code = .expr (.super use keyword method)) :
    Conforms statements (m.giveSuper (table.place use) keyword method) := by
  have checked := resolved.checked place.visits
  obtain ⟨cls, object, hp⟩ := superParts?_isSome h.sound place checked hc
  simp only [Machine.giveSuper, hp]
  split
  · next found hf =>
    obtain ⟨c, y, hcl, hm⟩ := h.sound.findMethod? hf
    exact h.giveMethod resolved hcl hm object method
  · exact h.fail method nofun nofun

/-! ## Calls -/

theorem Owes.activate (h : Owes statements plan .value m) : Owes statements plan .value m.activate :=
  ⟨h.sound, .cons .leave h.stacked⟩

theorem Owes.guardCall (h : Owes statements plan .value m) {paren : Token} {arity given : Nat}
    {run : Machine → Machine} (hrun : given = arity → Conforms statements (run m.activate)) :
    Conforms statements (m.guardCall paren arity given run) := by
  unfold Machine.guardCall
  split
  · exact h.fail paren nofun nofun
  · next hn =>
    split
    · exact h.fail paren nofun nofun
    · exact hrun (Decidable.of_not_not hn)

theorem Owes.construct (h : Owes statements plan .value m) (resolved : Resolved statements table) {cls : ClassId}
    {arguments : List Value} (holds : ∀ v ∈ arguments, Holds statements ⟨plan, m.store⟩ v)
    (hlen : arguments.length = m.store.classArity cls) : Conforms statements (m.construct cls arguments) := by
  have added := h.sound.addInstance cls
  have h' := h.grow added
  cases hc : (m.store.findInitializer? cls).bind (m.store.closures[·]?) with
  | none =>
    simp only [Machine.construct, hc]
    exact h'.give (holds_of_ne nofun)
  | some c =>
    simp only [Store.classArity, hc] at hlen
    simp only [Machine.construct, hc]
    obtain ⟨found, hf, hc⟩ := Option.bind_eq_some_iff.1 hc
    obtain ⟨c', x, hc', method⟩ := h.sound.findMethod? hf
    cases hc.symm.trans hc'
    -- the initializer is bound to the new instance, in a scope of its own
    obtain ⟨plan', grows, sound, callable⟩ :=
      added.2.boundTo resolved (added.1.method method) m.store.nextInstance
    have ready := (h'.grow ⟨grows, sound⟩).push (.construct m.store.nextInstance) .construct
    exact Owes.enter ready resolved callable (fun v hv => grows.holds (added.1.holds (holds v hv))) hlen

theorem Owes.call (h : Owes statements plan .value m) (resolved : Resolved statements table) {paren : Token}
    {callee : Value} {arguments : List Value} (hc : Holds statements ⟨plan, m.store⟩ callee)
    (holds : ∀ v ∈ arguments, Holds statements ⟨plan, m.store⟩ v) :
    Conforms statements (m.call paren callee arguments) := by
  unfold Machine.call
  split
  · next id =>
    split
    · next c hid =>
      obtain ⟨c', x, hc', callable⟩ := hc id rfl
      cases hid.symm.trans hc'
      exact h.guardCall fun hlen => h.activate.enter resolved callable holds hlen
    · exact h.fail paren nofun nofun
  · exact h.guardCall fun hlen => h.activate.construct resolved holds hlen
  · exact h.fail paren nofun nofun

theorem Owes.nextArgument (h : Owes statements plan .value m) (resolved : Resolved statements table)
    {paren : Token} {callee : Value} {values : List Value} {arguments : List Expr} {x : Stop}
    (place : At statements ⟨plan, m.store⟩ m.scope x) (code : x.code = .exprs arguments)
    (hc : Holds statements ⟨plan, m.store⟩ callee) (holds : ∀ v ∈ values, Holds statements ⟨plan, m.store⟩ v) :
    Conforms statements (m.nextArgument paren callee values arguments) := by
  cases arguments with
  | nil => exact h.call resolved hc fun v hv => holds v (List.mem_reverse.1 hv)
  | cons e rest =>
    obtain ⟨c, a, w, d⟩ := x
    cases code
    exact h.await (place.part List.mem_cons_self rfl rfl) (.inl rfl) (.argument place rfl hc holds)

end Machine

end Lox
