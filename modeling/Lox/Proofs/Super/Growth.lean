/-
The operations of a store keep a chronicle sound: variables, new scopes, functions and instances, and methods that are
bound to an instance.
-/
import Lox.Proofs.Super.Births

namespace Lox

namespace Chronicle

variable {statements : List Stmt} {births : List Birth} {s s' : Store} {id : ScopeId} {uses : List UseId}

/-! ## What is new in a store -/

/-- What has to be shown of a later store if nothing is born. -/
theorem Sound.later_store (h : Sound statements ⟨births, s⟩) (outward : s.Outward) (later : s.KeepsWords s')
    (super : ∀ id, s.scopes.size ≤ id → s'.binds id superName = true → ∃ b ∈ births, b.scope = id)
    (this : ∀ id, s.scopes.size ≤ id → s'.binds id thisName = true →
      ∃ cls f, s'.HasMethod cls f ∧ s'.parent? id = some f.scope)
    (classes : ∀ (id : ClassId) cls, s.classes.size ≤ id → s'.classes[id]? = some cls →
      ∀ name method, cls.methods.get? name = some method → ∃ f, s'.closures[method]? = some f ∧
        ∀ b ∈ births, b.scope = f.scope → b.cls = id ∧ f.routine ∈ b.methods)
    (closures : ∀ (id : ClosureId) f, s.closures.size ≤ id → s'.closures[id]? = some f →
      f.scope < s'.scopes.size ∧
        ∀ x, Placed statements s' f x → AtHome ⟨births, s'⟩ f.scope (routineOwnUses f.routine)) :
    Later ⟨births, s⟩ ⟨births, s'⟩ ∧ Sound statements ⟨births, s'⟩ := by
  have step : Later ⟨births, s⟩ ⟨births, s'⟩ := .ofStore later
  exact ⟨step, h.later outward step (fun b hb young => absurd (h.lt_size hb) (Nat.not_lt_of_le young)) super this
    classes closures⟩

theorem absurd_of_size_le {α : Type} {xs : Array α} {i : Nat} {x : α} (h : xs[i]? = some x) {p : Prop}
    (hi : xs.size ≤ i) : p := absurd (Array.getElem?_eq_some_iff.1 h).1 (Nat.not_lt_of_le hi)

theorem not_binds_of_size_le {name : String} (hid : s.scopes.size ≤ id) : s.binds id name ≠ true := fun hb => by
  rw [Store.binds, Store.valueIn?_eq_none _ _ _ hid] at hb
  cases hb

/-! ## Variables, fields and instances -/

/-- Nothing is new if there are no more scopes, functions and classes than before. -/
theorem Sound.unchanged (h : Sound statements ⟨births, s⟩) (outward : s.Outward) (later : s.KeepsWords s')
    (scopes : s'.scopes.size = s.scopes.size) (closures : s'.closures.size = s.closures.size)
    (classes : s'.classes.size = s.classes.size) :
    Later ⟨births, s⟩ ⟨births, s'⟩ ∧ Sound statements ⟨births, s'⟩ := by
  refine h.later_store outward later ?_ ?_ ?_ ?_
  · exact fun id young hb => absurd hb (not_binds_of_size_le (scopes ▸ young))
  · exact fun id young hb => absurd hb (not_binds_of_size_le (scopes ▸ young))
  · exact fun id cls young hc => absurd_of_size_le hc (classes ▸ young)
  · exact fun id f young hf => absurd_of_size_le hf (closures ▸ young)

theorem Sound.define (h : Sound statements ⟨births, s⟩) (outward : s.Outward) (hid : id < s.scopes.size)
    {name : String} (hn : Nameable name) (v : Value) :
    Later ⟨births, s⟩ ⟨births, s.define id name v⟩ ∧ Sound statements ⟨births, s.define id name v⟩ :=
  h.unchanged outward (Store.keepsWords_define v hid hn) (Store.scopes_size_define s id name v) rfl rfl

theorem Sound.addInstance (h : Sound statements ⟨births, s⟩) (outward : s.Outward) (object : Instance) :
    Later ⟨births, s⟩ ⟨births, s.addInstance object⟩ ∧ Sound statements ⟨births, s.addInstance object⟩ :=
  h.unchanged outward (Store.keepsWords_addInstance s object) rfl rfl rfl

theorem Sound.setField (h : Sound statements ⟨births, s⟩) (outward : s.Outward) (object : InstanceId) (name : String)
    (v : Value) :
    Later ⟨births, s⟩ ⟨births, s.setField object name v⟩ ∧ Sound statements ⟨births, s.setField object name v⟩ :=
  h.unchanged outward (Store.keepsWords_setField s object name v) rfl rfl rfl

/-! ## Scopes -/

/-- A scope that has no word of classes. -/
def Plain (vars : Bindings Value) : Prop := ∀ n, vars.contains n = true → Nameable n

theorem binds_plain {vars : Bindings Value} (plain : Plain vars) {name : String} (hn : ¬ Nameable name)
    (outer : ScopeId) : (s.addScope ⟨some outer, vars⟩).binds s.nextScope name = false := by
  refine Bool.eq_false_iff.2 fun hb => hn (plain name ?_)
  rwa [Store.binds, Store.valueIn?_addScope, if_pos rfl] at hb

/-- Of a store with one more scope that scope is all that is new. -/
theorem eq_nextScope {scope : Scope} {name : String} (young : s.scopes.size ≤ id)
    (hb : (s.addScope scope).binds id name = true) : id = s.nextScope := by
  by_contra other
  rw [Store.binds, Store.valueIn?_addScope, if_neg other, Store.valueIn?_eq_none _ _ _ young] at hb
  cases hb

theorem Sound.addScope (h : Sound statements ⟨births, s⟩) (outward : s.Outward) {vars : Bindings Value}
    (plain : Plain vars) (outer : ScopeId) :
    Later ⟨births, s⟩ ⟨births, s.addScope ⟨some outer, vars⟩⟩ ∧
      Sound statements ⟨births, s.addScope ⟨some outer, vars⟩⟩ := by
  have noWord : ∀ {n : String}, ¬ Nameable n → ∀ id : ScopeId, s.scopes.size ≤ id →
      (s.addScope ⟨some outer, vars⟩).binds id n ≠ true := fun hn id young hb => by
    cases eq_nextScope young hb
    rw [binds_plain plain hn] at hb
    cases hb
  refine h.later_store outward (s.keepsWords_addScope _) ?_ ?_ ?_ ?_
  · exact fun id young hb => absurd hb (noWord not_nameable_super id young)
  · exact fun id young hb => absurd hb (noWord not_nameable_this id young)
  · exact fun id cls young hc => absurd_of_size_le hc young
  · exact fun id f young hf => absurd_of_size_le hf young

/-- What is at home in a scope runs in a new scope inside. -/
theorem AtHome.addScope (h : AtHome ⟨births, s⟩ id uses) (outward : s.Outward) (hid : id < s.scopes.size)
    {vars : Bindings Value} (plain : Plain vars) : Runs ⟨births, s.addScope ⟨some id, vars⟩⟩ s.nextScope uses where
  lt := by
    show s.scopes.size < (s.addScope ⟨some id, vars⟩).scopes.size
    rw [Store.scopes_size_addScope]
    exact Nat.lt_succ_self _
  inside := binds_plain plain not_nameable_super id
  home b hb home := by
    have link : (s.addScope ⟨some id, vars⟩).parent? s.nextScope = some id := by
      rw [Store.parent?_addScope, if_pos rfl]
    rw [Store.home?_inner (outward.addScope hid vars) (binds_plain plain not_nameable_this id) link] at home
    exact (Later.ofStore (s.keepsWords_addScope _)).atHome outward hid h b hb home

/-! ## Functions -/

theorem Sound.addClosure (h : Sound statements ⟨births, s⟩) (outward : s.Outward) {f : Closure}
    (lt : f.scope < s.scopes.size)
    (home : ∀ x, Placed statements s f x → AtHome ⟨births, s⟩ f.scope (routineOwnUses f.routine)) :
    Later ⟨births, s⟩ ⟨births, s.addClosure f⟩ ∧ Sound statements ⟨births, s.addClosure f⟩ := by
  have later := s.keepsWords_addClosure f
  refine h.later_store outward later ?_ ?_ ?_ fun id g young hg => ?_
  · exact fun id young hb => absurd hb (not_binds_of_size_le (s := s) young)
  · exact fun id young hb => absurd hb (not_binds_of_size_le (s := s) young)
  · exact fun id cls young hc => absurd_of_size_le (show s.classes[id]? = some cls from hc) young
  rw [Store.addClosure, Array.getElem?_push] at hg
  split at hg
  · -- the new function: it is at home where it stood before it was in the store
    cases hg
    refine ⟨lt, fun x hx => (Later.ofStore later).atHome outward lt (home x ⟨hx.declares, ?_⟩)⟩
    rw [← later.ancestor? outward _ lt]
    exact hx.depth
  · exact absurd_of_size_le hg young

/-- A method that is bound to an instance is at home where it was declared. -/
theorem Sound.boundTo (h : Sound statements ⟨births, s⟩) (outward : s.Outward) {cls : ClassId} {f : Closure}
    (method : s.HasMethod cls f) (object : InstanceId) :
    Later ⟨births, s⟩ ⟨births, (s.boundTo f object).1⟩ ∧ Sound statements ⟨births, (s.boundTo f object).1⟩ ∧
      (s.boundTo f object).2.scope < (s.boundTo f object).1.scopes.size ∧
      AtHome ⟨births, (s.boundTo f object).1⟩ (s.boundTo f object).2.scope (routineOwnUses f.routine) := by
  let scope : Scope := ⟨some f.scope, Bindings.empty.set thisName (.object object)⟩
  have later := s.keepsWords_addScope scope
  have link : (s.addScope scope).parent? s.nextScope = some f.scope := by rw [Store.parent?_addScope, if_pos rfl]
  have this : ∀ n, (s.addScope scope).binds s.nextScope n = decide (n = thisName) := fun n => by
    rw [Store.binds, Store.valueIn?_addScope, if_pos rfl]
    by_cases hn : n = thisName <;> simp [scope, hn]
  have sound : Later ⟨births, s⟩ ⟨births, s.addScope scope⟩ ∧ Sound statements ⟨births, s.addScope scope⟩ := by
    refine h.later_store outward later (fun id young hb => ?_) (fun id young hb => ?_) ?_ ?_
    · cases eq_nextScope young hb
      rw [this] at hb
      exact absurd (of_decide_eq_true hb) (by decide)
    · cases eq_nextScope young hb
      exact ⟨cls, f, later.hasMethod method, link⟩
    · exact fun id cls young hc => absurd_of_size_le hc young
    · exact fun id f young hf => absurd_of_size_le hf young
  refine ⟨sound.1, sound.2, ?_, ?_⟩
  · show s.scopes.size < (s.addScope scope).scopes.size
    rw [Store.scopes_size_addScope]
    exact Nat.lt_succ_self _
  · intro b hb home use hu
    -- one step out of the scope for `this` is where the method was declared
    have home : (s.addScope scope).home? s.nextScope = some b.scope := home
    rw [Store.home?_self ((this thisName).trans (decide_eq_true rfl)), link] at home
    have home : f.scope = b.scope := Option.some.inj home
    obtain ⟨rfl, -⟩ := h.hasMethod method b hb home.symm
    exact ⟨f, later.hasMethod method, home, hu⟩

end Chronicle

end Lox
