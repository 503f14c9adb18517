/-
What a running program keeps true of its store. Besides the store there is a plan, which gives for every scope
what it and the scopes around it can come to hold, as the walk before the run has found it: a scope has only
variables that are planned for it, and a function stands in scopes where the names are ready that the walk
found completed around it. Names get ready and scopes get made, but nothing is taken back (`Grows`).
-/
import Lox.Proofs.Binding.Checked
import Lox.Proofs.Store.Chain

namespace Lox

/-- A store with a plan: for every scope what it and those around it hold when they are closed. Nothing is
planned for the global variables. -/
structure World where
  plan : List (List Declarations)
  store : Store

/-- Whether completed declarations of open scopes are variables of the scopes of a chain. -/
def Store.Ready (s : Store) : ScopeId → List Declarations → Prop
  | _, [] => True
  | id, scope :: outer =>
    (∀ n, scope.get? n = some true → s.binds id n = true) ∧
      ∃ next, s.parent? id = some next ∧ s.Ready next outer

/-- What the words of classes can stand for. -/
def Value.FitsWord (v : Value) (name : String) : Prop :=
  (name = thisName → ∃ object, v = .object object) ∧ (name = superName → ∃ cls, v = .cls cls)

theorem Value.fitsWord_of_nameable {name : String} (h : Nameable name) (v : Value) : v.FitsWord name :=
  ⟨fun e => absurd e h.1, fun e => absurd e h.2⟩

namespace World

/-! ## Growth -/

/-- From one world to a later one. -/
structure Grows (w w' : World) : Prop where
  plan : ∀ (id : Nat) (d : List Declarations), w.plan[id]? = some d → w'.plan[id]? = some d
  parent : ∀ id outer, w.store.parent? id = some outer → w'.store.parent? id = some outer
  binds : ∀ id n, w.store.binds id n = true → w'.store.binds id n = true
  closures : ∀ (id : Nat) (c : Closure), w.store.closures[id]? = some c → w'.store.closures[id]? = some c

theorem Grows.refl (w : World) : Grows w w := ⟨fun _ _ h => h, fun _ _ h => h, fun _ _ h => h, fun _ _ h => h⟩

theorem Grows.trans {w w' w'' : World} (h : Grows w w') (h' : Grows w' w'') : Grows w w'' :=
  ⟨fun id d hd => h'.plan id d (h.plan id d hd), fun id o ho => h'.parent id o (h.parent id o ho),
    fun id n hn => h'.binds id n (h.binds id n hn), fun id c hc => h'.closures id c (h.closures id c hc)⟩

theorem Grows.ready {w w' : World} (h : Grows w w') :
    ∀ {scopes : List Declarations} {id : ScopeId}, w.store.Ready id scopes → w'.store.Ready id scopes
  | [], _, _ => trivial
  | _ :: _, _, ⟨own, next, hn, outer⟩ => ⟨fun n hc => h.binds _ n (own n hc), next, h.parent _ _ hn, h.ready outer⟩

/-! ## Places, functions and values -/

/-- A scope in which the part of the program at a stop can run. -/
structure At (statements : List Stmt) (w : World) (id : ScopeId) (x : Stop) : Prop where
  visits : Visits statements x
  planned : w.plan[id]? = some x.whole
  ready : w.store.Ready id x.walk.scopes

/-- What a function has from the stop at its routine. -/
structure Declares (statements : List Stmt) (c : Closure) (x : Stop) : Prop where
  visits : Visits statements x
  code : x.code = .routine c.routine
  inside : x.around.body ≠ .top
  initializer : x.around.body = .initializer ↔ c.initializer = true

/-- A function that can be called: its routine stands at a stop in whose scopes it can run. -/
structure Callable (statements : List Stmt) (w : World) (c : Closure) (x : Stop) : Prop where
  declares : Declares statements c x
  place : At statements w c.scope x
  instance_ : c.initializer = true → w.store.binds c.scope thisName = true

/-- A method of a class: it can be called when a scope for `this` is put around it. -/
structure Method (statements : List Stmt) (w : World) (c : Closure) (x : Stop) : Prop where
  declares : Declares statements c x
  place : ∃ own outer scopes, x.whole = own :: outer ∧ x.walk.scopes = Bindings.empty.set thisName true :: scopes ∧
    w.plan[c.scope]? = some outer ∧ w.store.Ready c.scope scopes

/-- Whether a value is no function, or one that can be called. -/
def Holds (statements : List Stmt) (w : World) (v : Value) : Prop :=
  ∀ id, v = .closure id → ∃ c x, w.store.closures[id]? = some c ∧ Callable statements w c x

/-- What a running program keeps true of its world. -/
structure Sound (statements : List Stmt) (w : World) : Prop where
  size : w.plan.length = w.store.scopes.size
  globals : w.plan[Store.globalScope]? = some [] ∧ w.store.parent? Store.globalScope = none
  only : ∀ id : Nat, w.plan[id]? = some [] → id = Store.globalScope
  /-- A scope has only variables that are planned for it. -/
  planned : ∀ (id : Nat) own outer, w.plan[id]? = some (own :: outer) →
    (∀ n, w.store.binds id n = true → own.contains n = true) ∧
      ∃ next : Nat, w.store.parent? id = some next ∧ next < id ∧ w.plan[next]? = some outer
  values : ∀ id n v, w.store.valueIn? id n = some v → Holds statements w v ∧ v.FitsWord n
  fields : ∀ (id : Nat) (i : Instance), w.store.instances[id]? = some i →
    ∀ n v, i.fields.get? n = some v → Holds statements w v
  methods : ∀ (id : Nat) (cls : Class), w.store.classes[id]? = some cls →
    ∀ n m, cls.methods.get? n = some m → ∃ c x, w.store.closures[m]? = some c ∧ Method statements w c x

variable {statements : List Stmt} {w w' : World}

theorem Grows.at (h : Grows w w') {id : ScopeId} {x : Stop} (hx : At statements w id x) : At statements w' id x :=
  ⟨hx.visits, h.plan _ _ hx.planned, h.ready hx.ready⟩

theorem Grows.callable (h : Grows w w') {c : Closure} {x : Stop} (hc : Callable statements w c x) :
    Callable statements w' c x :=
  ⟨hc.declares, h.at hc.place, fun hi => h.binds _ _ (hc.instance_ hi)⟩

theorem Grows.method (h : Grows w w') {c : Closure} {x : Stop} (hc : Method statements w c x) :
    Method statements w' c x := by
  obtain ⟨own, outer, scopes, hw, hs, hp, hr⟩ := hc.place
  exact ⟨hc.declares, own, outer, scopes, hw, hs, h.plan _ _ hp, h.ready hr⟩

theorem Grows.holds (h : Grows w w') {v : Value} (hv : Holds statements w v) : Holds statements w' v := by
  intro id e
  obtain ⟨c, x, hc, hx⟩ := hv id e
  exact ⟨c, x, h.closures _ _ hc, h.callable hx⟩

theorem Grows.holds_values (h : Grows w w') {n : String} {v : Value}
    (hv : Holds statements w v ∧ v.FitsWord n) : Holds statements w' v ∧ v.FitsWord n := ⟨h.holds hv.1, hv.2⟩

theorem holds_of_ne {v : Value} (h : ∀ id, v ≠ .closure id) : Holds statements w v := fun id e => absurd e (h id)

theorem Sound.outward (h : Sound statements w) : w.store.Outward := by
  intro id outer hp
  have hlt : id < w.store.scopes.size := by
    by_contra hge
    rw [Store.parent?_eq_none _ _ (Nat.le_of_not_lt hge)] at hp
    cases hp
  obtain ⟨d, hd⟩ : ∃ d, w.plan[id]? = some d := ⟨_, List.getElem?_eq_getElem (h.size ▸ hlt)⟩
  cases d with
  | nil =>
    rw [h.only id hd, h.globals.2] at hp
    cases hp
  | cons own rest =>
    obtain ⟨-, next, hn, lt, -⟩ := h.planned id own rest hd
    cases hn.symm.trans hp
    exact lt

/-- A scope that is planned is in the store. -/
theorem Sound.lt_size (h : Sound statements w) {id : Nat} {d : List Declarations} (hd : w.plan[id]? = some d) :
    id < w.store.scopes.size := by
  rw [← h.size]
  exact (List.getElem?_eq_some_iff.1 hd).1

end World

end Lox
