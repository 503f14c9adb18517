/-
The stores of two programs that run side by side. Scopes are tied to each other, one on each side, and the variables
that a tie lets belong together have the same value. Ties stay, but for the one of a loop variable, which is handed on
while the variable is copied. Closures, classes and instances have the same numbers on both sides, so that the values
on both sides are equal.
-/
import Lox.Proofs.Pair.Entries
import Lox.Proofs.Store.Later

namespace Lox

/-- What two programs that run side by side differ in: the name that was changed, and the tables. -/
structure Pairing where
  change : Change
  proper : change.Proper
  table : Table
  table' : Table

/-- Parts that run side by side. -/
def Pairing.Alike (p : Pairing) : List Link → Code → Code → Prop := Lox.Alike p.change (.running p.change p.table p.table')

/-! ## Both sides -/

/-- The stores of both sides. A scope on the left may be tied to one on the right. -/
structure Sides where
  tie : ScopeId → Option (ScopeId × Tie)
  left : Store
  right : Store

namespace Sides

/-- Whether the variables of these names in these scopes belong together. The global ones do if they have one name. -/
def Shares (p : Pairing) (s : Sides) (i i' : ScopeId) (n n' : String) : Prop :=
  i = Store.globalScope ∧ i' = Store.globalScope ∧ n' = n ∨ ∃ t, s.tie i = some (i', t) ∧ t.Names p.change n n'

/-- Whether the scopes from these outwards have these links. Where not all variables belong together, the scope is not
older than `since`. -/
inductive Stands (s : Sides) (since : ScopeId) : List Link → ScopeId → ScopeId → Prop
  | globals : Stands s since [] Store.globalScope Store.globalScope
  | scope {links : List Link} {tie : Tie} {i i' j j' : ScopeId} (tied : s.tie i = some (i', tie))
      (young : tie.Plain ∨ since ≤ i) (outward : j < i) (outer : s.left.parent? i = some j)
      (outer' : s.right.parent? i' = some j') (rest : Stands s since links j j') :
      Stands s since (.scope tie :: links) i i'
  | pass {links : List Link} {name : String} {more : Nat} {i i' k' j j' : ScopeId}
      (tied : s.tie i = some (k', .only name)) (outward : j < i) (outer : s.left.ancestor? i (more + 1) = some j)
      (inner : s.right.parent? i' = some k') (outer' : s.right.parent? k' = some j') (rest : Stands s since links j j') :
      Stands s since (.pass name more :: links) i i'

/-! ## Growth -/

/-- What functions rely on stays from here to there. -/
structure Keeps (s s' : Sides) : Prop where
  plain : ∀ i i' t, t.Plain → s.tie i = some (i', t) → s'.tie i = some (i', t)
  left : s.left.Later s'.left
  right : s.right.Later s'.right

/-- From two stores to later ones, between which no tie of an older scope has changed. -/
structure Grows (s s' : Sides) : Prop where
  tied : ∀ i x, s.tie i = some x → s'.tie i = some x
  untied : ∀ i, i < s.left.scopes.size → s.tie i = none → s'.tie i = none
  left : s.left.Later s'.left
  right : s.right.Later s'.right

theorem Grows.keeps {s s' : Sides} (h : Grows s s') : Keeps s s' :=
  ⟨fun i _ _ _ ht => h.tied i _ ht, h.left, h.right⟩

theorem Keeps.refl (s : Sides) : Keeps s s := ⟨fun _ _ _ _ h => h, .refl _, .refl _⟩

theorem Grows.refl (s : Sides) : Grows s s := ⟨fun _ _ h => h, fun _ _ h => h, .refl _, .refl _⟩

theorem Grows.trans {s t u : Sides} (h : Grows s t) (h' : Grows t u) : Grows s u :=
  ⟨fun i x hx => h'.tied i x (h.tied i x hx),
    fun i hi hn => h'.untied i (Nat.lt_of_lt_of_le hi h.left.size) (h.untied i hi hn),
    h.left.trans h'.left, h.right.trans h'.right⟩

variable {p : Pairing} {s s' : Sides} {since : ScopeId} {links : List Link} {i i' : ScopeId} {n n' : String}

/-- Links of which all variables belong together are kept, and say nothing about the age of scopes. -/
theorem Keeps.stands (h : Keeps s s') (plain : ∀ link ∈ links, link.Plain) (hs : Stands s since links i i')
    (since' : ScopeId) : Stands s' since' links i i' := by
  induction hs with
  | globals => exact .globals
  | scope tied _ outward outer outer' _ ih =>
    obtain ⟨own, rest⟩ := List.forall_mem_cons.1 plain
    exact .scope (h.plain _ _ _ own tied) (.inl own) outward (h.left.parent _ _ outer) (h.right.parent _ _ outer') (ih rest)
  | pass => exact (plain _ List.mem_cons_self).elim

theorem Grows.stands (h : Grows s s') (hs : Stands s since links i i') : Stands s' since links i i' := by
  induction hs with
  | globals => exact .globals
  | scope tied young outward outer outer' _ ih =>
    exact .scope (h.tied _ _ tied) young outward (h.left.parent _ _ outer) (h.right.parent _ _ outer') ih
  | pass tied outward outer inner outer' _ ih =>
    exact .pass (h.tied _ _ tied) outward (h.left.ancestor outer) (h.right.parent _ _ inner) (h.right.parent _ _ outer') ih

/-- The variables of a word of classes belong together wherever all variables do. -/
theorem Stands.shares_word (h : Stands s since links i i') (plain : ∀ link ∈ links, link.Plain) (hn : ¬ Nameable n) :
    Shares p s i i' n n := by
  cases h with
  | globals => exact .inl ⟨rfl, rfl, rfl⟩
  | scope tied _ _ _ _ _ => exact .inr ⟨_, tied, Tie.names_self (plain _ List.mem_cons_self) (p.proper.leaves hn)⟩
  | pass => exact (plain _ List.mem_cons_self).elim

/-- The variables belong together whose names may be declared in the innermost scopes. -/
theorem Stands.shares_declared (h : Stands s since links i i') (hn : Declares p.change links n n') :
    Shares p s i i' n n' := by
  cases h with
  | globals => exact .inl ⟨rfl, rfl, hn.1⟩
  | scope tied _ _ _ _ _ => exact .inr ⟨_, tied, hn⟩
  | pass => exact hn.elim

/-! ## Functions and values -/

/-- Functions with the same number that can be called. -/
structure Callable (p : Pairing) (s : Sides) (f f' : Closure) : Prop where
  place : ∃ links, (∀ link ∈ links, link.Plain) ∧ Stands s 0 links f.scope f'.scope ∧
    p.Alike links (.routine f.routine) (.routine f'.routine)
  initializer : f'.initializer = f.initializer

/-- Methods of a class with the same number, which can be called when scopes for `this` are put around them. -/
structure Method (p : Pairing) (s : Sides) (f f' : Closure) : Prop where
  place : ∃ links, (∀ link ∈ links, link.Plain) ∧ Stands s 0 links f.scope f'.scope ∧
    p.Alike (.scope .same :: links) (.routine f.routine) (.routine f'.routine)
  initializer : f'.initializer = f.initializer

/-- Whether a value is no function, or the number of functions that can be called. -/
def Holds (p : Pairing) (s : Sides) (v : Value) : Prop :=
  ∀ id, v = .closure id →
    ∃ f f', s.left.closures[id]? = some f ∧ s.right.closures[id]? = some f' ∧ Callable p s f f'

theorem holds_of_ne {v : Value} (h : ∀ id, v ≠ .closure id) : Holds p s v := fun id e => absurd e (h id)

theorem Keeps.callable (h : Keeps s s') {f f' : Closure} (hf : Callable p s f f') : Callable p s' f f' := by
  obtain ⟨links, plain, stands, alike⟩ := hf.place
  exact ⟨⟨links, plain, h.stands plain stands 0, alike⟩, hf.initializer⟩

theorem Keeps.method (h : Keeps s s') {f f' : Closure} (hf : Method p s f f') : Method p s' f f' := by
  obtain ⟨links, plain, stands, alike⟩ := hf.place
  exact ⟨⟨links, plain, h.stands plain stands 0, alike⟩, hf.initializer⟩

theorem Keeps.holds (h : Keeps s s') {v : Value} (hv : Holds p s v) : Holds p s' v := by
  intro id e
  obtain ⟨f, f', hf, hf', callable⟩ := hv id e
  exact ⟨f, f', h.left.closures _ _ hf, h.right.closures _ _ hf', h.callable callable⟩

/-! ## What stays true -/

/-- What ties are like. -/
structure Ordered (s : Sides) : Prop where
  start : 0 < s.left.scopes.size ∧ 0 < s.right.scopes.size
  outermost : s.left.parent? Store.globalScope = none ∧ s.right.parent? Store.globalScope = none
  tied : ∀ i i' t, s.tie i = some (i', t) →
    (0 < i ∧ i < s.left.scopes.size) ∧ 0 < i' ∧ i' < s.right.scopes.size
  single : ∀ i j i' t t', s.tie i = some (i', t) → s.tie j = some (i', t') → i = j

/-- What two programs that run side by side keep true of their stores. -/
structure Sound (p : Pairing) (s : Sides) : Prop extends Ordered s where
  values : ∀ i i' n n', Shares p s i i' n n' →
    s.right.valueIn? i' n' = s.left.valueIn? i n ∧ ∀ v, s.left.valueIn? i n = some v → Holds p s v
  closures : s.right.closures.size = s.left.closures.size
  classes : s.right.classes = s.left.classes
  instances : s.right.instances = s.left.instances
  fields : ∀ (id : Nat) (o : Instance), s.left.instances[id]? = some o →
    ∀ n v, o.fields.get? n = some v → Holds p s v
  methods : ∀ (id : Nat) (cls : Class), s.left.classes[id]? = some cls →
    ∀ n m, cls.methods.get? n = some m →
      ∃ f f', s.left.closures[m]? = some f ∧ s.right.closures[m]? = some f' ∧ Method p s f f'

theorem Ordered.shares_lt (h : Ordered s) (hs : Shares p s i i' n n') :
    i < s.left.scopes.size ∧ i' < s.right.scopes.size := by
  rcases hs with ⟨rfl, rfl, -⟩ | ⟨t, ht, -⟩
  · exact h.start
  · have := h.tied i i' t ht
    exact ⟨this.1.2, this.2.2⟩

theorem Ordered.stands_lt (h : Ordered s) (hs : Stands s since links i i') :
    i < s.left.scopes.size ∧ i' < s.right.scopes.size := by
  cases hs with
  | globals => exact h.start
  | scope tied _ _ _ _ _ =>
    have := h.tied _ _ _ tied
    exact ⟨this.1.2, this.2.2⟩
  | pass tied _ _ inner _ _ => exact ⟨(h.tied _ _ _ tied).1.2, Store.lt_size_of_parent? inner⟩

/-- A variable belongs to at most one on the other side. -/
theorem Ordered.shares_eq_iff (h : Ordered s) {j j' : ScopeId} {m m' : String} (hs : Shares p s i i' n n')
    (hs' : Shares p s j j' m m') : j' = i' ∧ m' = n' ↔ j = i ∧ m = n := by
  rcases hs with ⟨rfl, rfl, rfl⟩ | ⟨t, ht, hn⟩
  · rcases hs' with ⟨rfl, rfl, rfl⟩ | ⟨u, hu, -⟩
    · simp
    · obtain ⟨⟨lt, -⟩, lt', -⟩ := h.tied j j' u hu
      exact ⟨fun e => absurd e.1 (Nat.ne_of_gt lt'), fun e => absurd e.1 (Nat.ne_of_gt lt)⟩
  · rcases hs' with ⟨rfl, rfl, rfl⟩ | ⟨u, hu, hm⟩
    · obtain ⟨⟨lt, -⟩, lt', -⟩ := h.tied i i' t ht
      exact ⟨fun e => absurd e.1.symm (Nat.ne_of_gt lt'), fun e => absurd e.1.symm (Nat.ne_of_gt lt)⟩
    · constructor
      · rintro ⟨rfl, e⟩
        cases h.single _ _ _ _ _ ht hu
        cases ht.symm.trans hu
        exact ⟨rfl, (hn.eq_iff hm).1 e⟩
      · rintro ⟨rfl, e⟩
        cases ht.symm.trans hu
        exact ⟨rfl, (hn.eq_iff hm).2 e⟩

theorem Sound.binds (h : Sound p s) (hs : Shares p s i i' n n') : s.right.binds i' n' = s.left.binds i n := by
  rw [Store.binds, Store.binds, (h.values i i' n n' hs).1]

/-- A value has the same text on both sides. -/
theorem Sound.display (h : Sound p s) {v : Value} (hv : Holds p s v) : s.right.display v = s.left.display v := by
  cases v with
  | closure id =>
    obtain ⟨f, f', hf, hf', callable⟩ := hv id rfl
    obtain ⟨links, -, -, alike⟩ := callable.place
    rw [Store.display, Store.display, hf, hf', Option.map_some, Option.map_some, alike.routine_eq.1]
  | cls id => rw [Store.display, Store.display, Store.className, Store.className, h.classes]
  | object id =>
    have same : s.right.className = s.left.className := by
      funext id
      rw [Store.className, Store.className, h.classes]
    rw [Store.display, Store.display, h.instances, same]
  | nil | bool _ | number _ | string _ => rfl

/-! ## Finding variables -/

/-- The scopes at the distances for both sides are there, and the variables in them belong together, or there are none. -/
theorem Stands.ancestor (h : Stands s since links i i') (ordered : Ordered s) {d d' : Nat}
    (hf : Finds p.change links (some d) (some d') n n') :
    s.left.ancestor? i d = none ∧ s.right.ancestor? i' d' = none ∨
      ∃ k k', s.left.ancestor? i d = some k ∧ s.right.ancestor? i' d' = some k' ∧ Shares p s k k' n n' := by
  induction h generalizing d d' with
  | globals =>
    cases hf
    cases d with
    | zero => exact .inr ⟨_, _, rfl, rfl, .inl ⟨rfl, rfl, rfl⟩⟩
    | succ d =>
      exact .inl ⟨Store.ancestor?_outermost ordered.outermost.1 d, Store.ancestor?_outermost ordered.outermost.2 d⟩
  | scope tied young outward outer outer' rest ih =>
    cases hf with
    | here names => exact .inr ⟨_, _, rfl, rfl, .inr ⟨_, tied, names⟩⟩
    | outer hf =>
      rw [Store.ancestor?_succ, Store.ancestor?_succ, outer, outer']
      exact ih hf
  | @pass _ _ more _ _ _ _ _ tied outward outer inner outer' rest ih =>
    cases hf with
    | held _ =>
      refine .inr ⟨_, _, rfl, ?_, .inr ⟨_, tied, rfl, rfl⟩⟩
      rw [Store.ancestor?_succ, inner]
      rfl
    | @past _ _ _ d d' _ _ hf =>
      rw [show d + more + 1 = more + 1 + d by omega, Store.ancestor?_add, outer, Store.ancestor?_succ, inner,
        Option.bind_some, Option.bind_some, Store.ancestor?_succ, outer']
      exact ih hf

theorem holder?_globalScope {s : Store} (h : s.parent? Store.globalScope = none) (n : String) :
    s.holder? Store.globalScope n = if s.binds Store.globalScope n = true then some Store.globalScope else none := by
  unfold Store.holder? Store.holderFrom?
  rw [h]
  rfl

/-- Both sides find variables that belong together, or none. -/
theorem Sound.target? (h : Sound p s) (hs : Stands s since links i i') {d d' : Option Nat}
    (hf : Finds p.change links d d' n n') :
    s.left.target? i (.ofDistance? d) n = none ∧ s.right.target? i' (.ofDistance? d') n' = none ∨
      ∃ k k', s.left.target? i (.ofDistance? d) n = some k ∧ s.right.target? i' (.ofDistance? d') n' = some k' ∧
        Shares p s k k' n n' := by
  cases d with
  | none =>
    cases hf
    have shared : Shares p s Store.globalScope Store.globalScope n n := .inl ⟨rfl, rfl, rfl⟩
    simp only [Place.ofDistance?, Store.target?, holder?_globalScope h.outermost.1, holder?_globalScope h.outermost.2,
      h.binds shared]
    split
    · exact .inr ⟨_, _, rfl, rfl, shared⟩
    · exact .inl ⟨rfl, rfl⟩
  | some d =>
    obtain ⟨d', rfl⟩ := hf.isSome
    simp only [Place.ofDistance?, Store.target?]
    rcases hs.ancestor h.toOrdered hf with ⟨none, none'⟩ | ⟨k, k', some, some', shared⟩
    · exact .inl ⟨by rw [none]; rfl, by rw [none']; rfl⟩
    · rw [some, some', Option.filter, Option.filter, h.binds shared]
      split
      · exact .inr ⟨_, _, rfl, rfl, shared⟩
      · exact .inl ⟨rfl, rfl⟩

/-- Both sides read the same value. -/
theorem Sound.read? (h : Sound p s) (hs : Stands s since links i i') {d d' : Option Nat}
    (hf : Finds p.change links d d' n n') :
    s.right.read? i' (.ofDistance? d') n' = s.left.read? i (.ofDistance? d) n ∧
      ∀ v, s.left.read? i (.ofDistance? d) n = some v → Holds p s v := by
  unfold Store.read?
  rcases h.target? hs hf with ⟨none, none'⟩ | ⟨k, k', some, some', shared⟩
  · rw [none, none']
    exact ⟨rfl, fun _ e => by cases e⟩
  · rw [some, some']
    exact h.values k k' n n' shared

end Sides

end Lox
