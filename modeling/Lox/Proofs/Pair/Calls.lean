/-
Calls on both sides. Functions with the same number are called with the same values, and their bodies start in new
scopes; methods are taken from the same instances. Ties change from then on only between scopes that are not older than
the call.
-/
import Lox.Proofs.Machine.Calls
import Lox.Proofs.Pair.Moves
import Lox.Proofs.Store.Fields

namespace Lox

/-! ## Methods of classes -/

namespace Sides

variable {p : Pairing} {s : Sides} {since : ScopeId} {links : List Link} {i i' : ScopeId}

/-- What a class has under a name is a method on both sides. -/
theorem Sound.findMethod? (h : Sound p s) {id : ClassId} {name : String} {found : ClosureId}
    (hf : s.left.findMethod? id name = some found) :
    ∃ f f', s.left.closures[found]? = some f ∧ s.right.closures[found]? = some f' ∧ Method p s f f' := by
  have all : ∀ fuel id, s.left.findMethodFrom? name fuel id = some found →
      ∃ f f', s.left.closures[found]? = some f ∧ s.right.closures[found]? = some f' ∧ Method p s f f' := by
    intro fuel
    induction fuel with
    | zero =>
      intro _ hf
      cases hf
    | succ fuel ih =>
      intro id hf
      unfold Store.findMethodFrom? at hf
      cases hc : s.left.classes[id]? with
      | none => simp [hc] at hf
      | some cls =>
        cases hm : cls.methods.get? name with
        | some method =>
          simp only [hc, hm, Option.some.injEq] at hf
          exact hf ▸ h.methods id cls hc name method hm
        | none =>
          simp only [hc, hm] at hf
          obtain ⟨next, -, hf⟩ := Option.bind_eq_some_iff.1 hf
          exact ih next hf
  exact all _ _ hf

theorem Method.arity_eq {f f' : Closure} (h : Method p s f f') : f'.arity = f.arity := by
  obtain ⟨links, -, -, alike⟩ := h.place
  exact alike.routine_eq.2

theorem Callable.arity_eq {f f' : Closure} (h : Callable p s f f') : f'.arity = f.arity := by
  obtain ⟨links, -, -, alike⟩ := h.place
  exact alike.routine_eq.2

theorem Sound.classArity (h : Sound p s) (id : ClassId) : s.right.classArity id = s.left.classArity id := by
  unfold Store.classArity Store.findInitializer?
  rw [Store.findMethod?_congr h.classes]
  cases hf : s.left.findMethod? id initializerName with
  | none => rfl
  | some found =>
    obtain ⟨f, f', hf, hf', method⟩ := h.findMethod? hf
    simp only [Option.bind_some, hf, hf', method.arity_eq]

/-! ## New scopes -/

/-- A word of classes has the same value in new scopes on both sides. -/
theorem Sound.openWord (h : Sound p s) (hs : Stands s since links i i') (plain : ∀ link ∈ links, link.Plain)
    (word : String) {v : Value} (hv : ∀ id, v ≠ .closure id) :
    Grows s (s.openScope .same ⟨some i, Bindings.empty.set word v⟩ ⟨some i', Bindings.empty.set word v⟩) ∧
      Sound p (s.openScope .same ⟨some i, Bindings.empty.set word v⟩ ⟨some i', Bindings.empty.set word v⟩) ∧
      Stands (s.openScope .same ⟨some i, Bindings.empty.set word v⟩ ⟨some i', Bindings.empty.set word v⟩) 0
        (.scope .same :: links) s.left.nextScope s.right.nextScope := by
  refine ⟨h.toOrdered.grows_openScope .same _ _, h.openScope .same _ _ _ _ fun n n' names => ?_, ?_⟩
  · cases names.1
    refine ⟨rfl, fun x hx => ?_⟩
    rw [Bindings.get?_set] at hx
    split at hx
    · cases hx
      exact holds_of_ne hv
    · cases hx
  · exact ((Keeps.refl s).stands plain hs 0).openScope h.toOrdered .same (Nat.zero_le _) _ _

/-- A method that is taken from an instance can be called. -/
theorem Sound.boundTo (h : Sound p s) {f f' : Closure} (method : Method p s f f') (object : InstanceId) :
    ∃ tie, Grows s ⟨tie, (s.left.boundTo f object).1, (s.right.boundTo f' object).1⟩ ∧
      Sound p ⟨tie, (s.left.boundTo f object).1, (s.right.boundTo f' object).1⟩ ∧
      Callable p ⟨tie, (s.left.boundTo f object).1, (s.right.boundTo f' object).1⟩ (s.left.boundTo f object).2
        (s.right.boundTo f' object).2 := by
  obtain ⟨links, plain, stands, alike⟩ := method.place
  obtain ⟨grows, sound, inner⟩ := h.openWord stands plain thisName (v := .object object) fun _ e => by cases e
  have plain' : ∀ link ∈ Link.scope .same :: links, link.Plain := List.forall_mem_cons.2 ⟨trivial, plain⟩
  exact ⟨_, grows, sound, ⟨⟨_, plain', inner, alike⟩, method.initializer⟩⟩

/-- Parameters whose names belong together are bound to the same values. -/
theorem parameterBindings_get? {t : Tie} {ps ps' : List Token}
    (h : List.Forall₂ (fun q q' : Token => t.Names p.change q.lexeme q'.lexeme) ps ps') (arguments : List Value)
    {n n' : String} (names : t.Names p.change n n') :
    (Machine.parameterBindings ps' arguments).get? n' = (Machine.parameterBindings ps arguments).get? n := by
  -- the parameters are bound one after another, on both sides to the same values
  have all : ∀ (arguments : List Value) (b b' : Bindings Value), b'.get? n' = b.get? n →
      ((ps'.zipWith (fun name v => (name.lexeme, v)) arguments).foldl (fun b (name, x) => b.set name x) b').get? n' =
        ((ps.zipWith (fun name v => (name.lexeme, v)) arguments).foldl (fun b (name, x) => b.set name x) b).get? n := by
    induction h with
    | nil => exact fun _ _ _ same => same
    | cons hd _ ih =>
      intro arguments b b' same
      cases arguments with
      | nil => exact same
      | cons v rest =>
        refine ih rest _ _ ?_
        simp only [Bindings.get?_set, hd.eq_iff names, same]
  exact all arguments .empty .empty rfl

end Sides

namespace Machine.Twins

open Sides

variable {p : Pairing} {tie : ScopeId → Option (ScopeId × Tie)} {since : ScopeId} {m m' : Machine}

/-! ## Bodies -/

/-- The bodies of functions start. -/
theorem enter (h : Twins p tie since .value m m') {f f' : Closure}
    (callable : Callable p ⟨tie, m.store, m'.store⟩ f f') {arguments : List Value}
    (holds : ∀ v ∈ arguments, Holds p ⟨tie, m.store, m'.store⟩ v) : Next p (m.enter f arguments) (m'.enter f' arguments) := by
  obtain ⟨links, plain, stands, alike⟩ := callable.place
  obtain ⟨r, scope, initializer⟩ := f
  obtain ⟨r', scope', initializer'⟩ := f'
  cases alike with
  | @routine _ ps ps' ss ss' name t own parameters body =>
  have ordered := h.sound.toOrdered
  have grows := ordered.grows_openScope t ⟨some scope, parameterBindings ps arguments⟩
    ⟨some scope', parameterBindings ps' arguments⟩
  have sound := h.sound.openScope t scope scope' _ _ fun n n' names =>
    ⟨parameterBindings_get? parameters arguments names, fun v hv => holds v (mem_of_parameterBindings hv).2⟩
  have inner := ((Keeps.refl _).stands plain stands m.store.scopes.size).openScope ordered t (Nat.le_refl _)
    (parameterBindings ps arguments) (parameterBindings ps' arguments)
  refine .inl ⟨_, m.store.scopes.size, .ending, ⟨sound, ?_, grows.left.size, h.depth, h.sink⟩,
    .finished .normal fun _ e => by cases e⟩
  exact .cons (.sequence ⟨_, inner, body⟩) (.body grows (fun _ => ordered.tie_eq_none) (Nat.le_refl _) h.young
    callable.initializer (fun _ => stands.shares_word plain fun h => h.1 rfl) h.frames)

/-! ## Properties -/

theorem giveMethod (h : Twins p tie since .value m m') {found : ClosureId} {f f' : Closure}
    (hf : m.store.closures[found]? = some f) (hf' : m'.store.closures[found]? = some f')
    (method : Method p ⟨tie, m.store, m'.store⟩ f f') (object : InstanceId) (name : Token) :
    Next p (m.giveMethod found object name) (m'.giveMethod found object name) := by
  obtain ⟨tie', grows, sound, callable⟩ := h.sound.boundTo method object
  obtain ⟨grows', sound'⟩ := sound.addClosure (m.store.boundTo f object).2 (m'.store.boundTo f' object).2
  have same : (m'.store.boundTo f' object).1.nextClosure = (m.store.boundTo f object).1.nextClosure := sound.closures
  simp only [Machine.giveMethod, hf, hf']
  rw [same]
  refine Twins.give (h.grow ⟨grows.trans grows', sound'⟩) fun id e => ?_
  cases e
  exact ⟨_, _, closures_nextClosure _ _, same ▸ closures_nextClosure _ _, grows'.keeps.callable callable⟩

theorem giveProperty (h : Twins p tie since .value m m') (object : InstanceId) (name : Token) :
    Next p (m.giveProperty object name) (m'.giveProperty object name) := by
  have instances : m'.store.instances = m.store.instances := h.sound.instances
  unfold Machine.giveProperty
  rw [instances]
  cases ho : m.store.instances[object]? with
  | none => exact h.fail _ name
  | some o =>
    dsimp only
    cases hv : o.fields.get? name.lexeme with
    | some v => exact h.give (h.sound.fields object o ho _ v hv)
    | none =>
      dsimp only
      rw [Store.findMethod?_congr h.sound.classes]
      cases hf : m.store.findMethod? o.cls name.lexeme with
      | none => exact h.fail _ name
      | some found =>
        obtain ⟨f, f', hf, hf', method⟩ := h.sound.findMethod? hf
        exact h.giveMethod hf hf' method object name

/-- Both sides find the same superclass and the same instance. -/
theorem superParts? (h : Twins p tie since .value m m') {links : List Link}
    (stands : Stands ⟨tie, m.store, m'.store⟩ since links m.scope m'.scope) {i j : Nat}
    (super : Finds p.change links (some (i + 1)) (some (j + 1)) superName superName)
    (this : Finds p.change links (some i) (some j) thisName thisName) :
    m'.superParts? (.hops (j + 1)) = m.superParts? (.hops (i + 1)) := by
  have super : m'.store.read? m'.scope (.hops (j + 1)) superName = m.store.read? m.scope (.hops (i + 1)) superName :=
    (h.sound.read? stands super).1
  have this : m'.store.read? m'.scope (.hops j) thisName = m.store.read? m.scope (.hops i) thisName :=
    (h.sound.read? stands this).1
  unfold Machine.superParts?
  simp only [thisPlace, Nat.add_sub_cancel, super, this]

theorem giveSuper (h : Twins p tie since .value m m') {links : List Link}
    (stands : Stands ⟨tie, m.store, m'.store⟩ since links m.scope m'.scope) {i j : Nat}
    (super : Finds p.change links (some (i + 1)) (some (j + 1)) superName superName)
    (this : Finds p.change links (some i) (some j) thisName thisName) (keyword method : Token) :
    Next p (m.giveSuper (.hops (i + 1)) keyword method) (m'.giveSuper (.hops (j + 1)) keyword method) := by
  unfold Machine.giveSuper
  rw [h.superParts? stands super this]
  cases m.superParts? (.hops (i + 1)) with
  | none => exact h.fail _ keyword
  | some parts =>
    have same : m'.store.findMethod? parts.1 method.lexeme = m.store.findMethod? parts.1 method.lexeme :=
      Store.findMethod?_congr h.sound.classes parts.1 method.lexeme
    simp only [same]
    cases hf : m.store.findMethod? parts.1 method.lexeme with
    | none => exact h.fail _ method
    | some found =>
      obtain ⟨f, f', hf, hf', hm⟩ := h.sound.findMethod? hf
      exact h.giveMethod hf hf' hm parts.2 method

/-! ## Calls -/

theorem activate (h : Twins p tie since .value m m') : Twins p tie since .value m.activate m'.activate :=
  ⟨h.sound, .cons .leave h.frames, h.young, congrArg (· + 1) h.depth, h.sink⟩

theorem guardCall (h : Twins p tie since .value m m') {paren : Token} {arity given : Nat} {run run' : Machine → Machine}
    (hrun : Next p (run m.activate) (run' m'.activate)) :
    Next p (m.guardCall paren arity given run) (m'.guardCall paren arity given run') := by
  unfold Machine.guardCall
  rw [h.depth]
  split
  · exact h.fail _ paren
  · split
    · exact h.fail _ paren
    · exact hrun

theorem construct (h : Twins p tie since .value m m') {cls : ClassId} {arguments : List Value}
    (holds : ∀ v ∈ arguments, Holds p ⟨tie, m.store, m'.store⟩ v) :
    Next p (m.construct cls arguments) (m'.construct cls arguments) := by
  obtain ⟨grows, sound⟩ := h.sound.addInstance cls
  have next : m'.store.nextInstance = m.store.nextInstance := congrArg Array.size h.sound.instances
  have init : m'.store.findInitializer? cls = m.store.findInitializer? cls :=
    Store.findMethod?_congr h.sound.classes cls initializerName
  unfold Machine.construct
  rw [init, next]
  dsimp only
  cases hf : m.store.findInitializer? cls with
  | none => exact (h.grow ⟨grows, sound⟩).give (holds_of_ne fun _ e => by cases e)
  | some found =>
    obtain ⟨f, f', hf, hf', method⟩ := h.sound.findMethod? hf
    have hf : m.store.closures[found]? = some f := hf
    have hf' : m'.store.closures[found]? = some f' := hf'
    simp only [Option.bind_some, hf, hf']
    -- the initializer is bound to the new instance, in a scope of its own
    obtain ⟨tie', grows', sound', callable⟩ := sound.boundTo (grows.keeps.method method) m.store.nextInstance
    have takes (s : Sides) : Takes p s since .value m.scope m'.scope (.construct m.store.nextInstance)
        (.construct m.store.nextInstance) .value m.scope m'.scope := .construct
    have ready := (h.grow ⟨grows.trans grows', sound'⟩).push (takes _)
    exact ready.enter callable fun v hv => grows'.holds (grows.holds (holds v hv))

theorem call (h : Twins p tie since .value m m') {paren : Token} {callee : Value} {arguments : List Value}
    (hc : Holds p ⟨tie, m.store, m'.store⟩ callee) (holds : ∀ v ∈ arguments, Holds p ⟨tie, m.store, m'.store⟩ v) :
    Next p (m.call paren callee arguments) (m'.call paren callee arguments) := by
  cases callee with
  | closure id =>
    obtain ⟨f, f', hf, hf', callable⟩ := hc id rfl
    have hf : m.store.closures[id]? = some f := hf
    have hf' : m'.store.closures[id]? = some f' := hf'
    simp only [Machine.call, hf, hf', callable.arity_eq]
    exact h.guardCall (h.activate.enter callable holds)
  | cls id =>
    have arity : m'.store.classArity id = m.store.classArity id := h.sound.classArity id
    simp only [Machine.call, arity]
    exact h.guardCall (h.activate.construct holds)
  | nil | bool _ | number _ | string _ | object _ => exact h.fail _ paren

theorem nextArgument (h : Twins p tie since .value m m') {paren : Token} {callee : Value} {values : List Value}
    {es es' : List Expr} (place : At p ⟨tie, m.store, m'.store⟩ since m.scope m'.scope (.exprs es) (.exprs es'))
    (hc : Holds p ⟨tie, m.store, m'.store⟩ callee) (holds : ∀ v ∈ values, Holds p ⟨tie, m.store, m'.store⟩ v) :
    Next p (m.nextArgument paren callee values es) (m'.nextArgument paren callee values es') := by
  obtain ⟨links, stands, alike⟩ := place
  cases alike with
  | noExprs => exact h.call hc fun v hv => holds v (List.mem_reverse.1 hv)
  | moreExprs first rest => exact h.await ⟨links, stands, first⟩ (.argument ⟨links, stands, rest⟩ hc holds)

end Machine.Twins

end Lox
