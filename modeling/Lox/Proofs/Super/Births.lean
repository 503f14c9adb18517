/-
Which class the code in a scope belongs to. The methods of a class with a superclass are declared in a scope for
`super` that is made with the class, and a method runs in a scope for `this` inside that one. So from wherever the
method has got to, the nearest scope with `this` leads to the class. A chronicle is a store with the births of
classes that led to it, and it tells of every scope whose code it is that runs there.
-/
import Lox.Proofs.Machine.World
import Lox.Proofs.Store.Words
import Lox.Proofs.Tree.Own

namespace Lox

/-- The declaration of a class with a superclass, as it was carried out. -/
structure Birth where
  name : Token
  methods : List (Routine Stmt)
  /-- The class that came of it. -/
  cls : ClassId
  superclass : ClassId
  /-- The scope for `super`, in which the methods are declared. -/
  scope : ScopeId

/-- The birth that comes next if a class is declared on a store. -/
def Birth.next (name : Token) (methods : List (Routine Stmt)) (superclass : ClassId) (s : Store) : Birth :=
  ⟨name, methods, s.nextClass, superclass, s.nextScope⟩

/-- A store with the births of classes that led to it. -/
structure Chronicle where
  births : List Birth
  store : Store

theorem not_nameable_this : ¬ Nameable thisName := fun h => h.1 rfl

theorem not_nameable_super : ¬ Nameable superName := fun h => h.2 rfl

/-! ## Homes and methods -/

namespace Store

variable {s s' : Store} {id outer : ScopeId} {name : String}

/-- The scope in which the methods are declared of which one runs in this scope: the one around the nearest `this`. -/
def home? (s : Store) (id : ScopeId) : Option ScopeId := (s.holder? id thisName).bind s.parent?

theorem home?_self (h : s.binds id thisName = true) : s.home? id = s.parent? id := by
  rw [home?, holder?_self h]
  rfl

theorem home?_inner (outward : s.Outward) (h : s.binds id thisName = false) (link : s.parent? id = some outer) :
    s.home? id = s.home? outer := by
  rw [home?, holder?_eq outward, h, if_neg Bool.false_ne_true, link]
  rfl

theorem home?_lt (outward : s.Outward) {home : ScopeId} (h : s.home? id = some home) : home < id := by
  obtain ⟨found, hf, link⟩ := Option.bind_eq_some_iff.1 h
  exact Nat.lt_of_lt_of_le (outward found home link) (le_of_holder? outward hf)

theorem KeepsWords.home? (h : s.KeepsWords s') (outward : s.Outward) (hid : id < s.scopes.size) :
    s'.home? id = s.home? id := by
  unfold Store.home?
  rw [h.holder? outward not_nameable_this hid]
  cases hf : s.holder? id thisName with
  | none => rfl
  | some found => exact h.parent found (Nat.lt_of_le_of_lt (le_of_holder? outward hf) hid)

/-- Whether a function is a method of a class, under a name of its own. -/
def HasMethod (s : Store) (id : ClassId) (c : Closure) : Prop :=
  ∃ cls name method, s.classes[id]? = some cls ∧ cls.methods.get? name = some method ∧ s.closures[method]? = some c

theorem KeepsWords.hasMethod (h : s.KeepsWords s') {id : ClassId} {c : Closure} (hc : s.HasMethod id c) :
    s'.HasMethod id c := by
  obtain ⟨cls, name, method, hcls, hm, hf⟩ := hc
  exact ⟨cls, name, method, h.classes _ _ hcls, hm, h.closures _ _ hf⟩

theorem hasMethod_of_findMethodFrom? {method : ClosureId} {c : Closure} (hc : s.closures[method]? = some c) :
    ∀ {fuel : Nat} {id : ClassId}, s.findMethodFrom? name fuel id = some method → ∃ owner, s.HasMethod owner c
  | 0, _, hf => by cases hf
  | fuel + 1, id, hf => by
    unfold findMethodFrom? at hf
    cases hcls : s.classes[id]? with
    | none => simp [hcls] at hf
    | some cls =>
      cases hm : cls.methods.get? name with
      | some own =>
        simp only [hcls, hm, Option.some.injEq] at hf
        subst hf
        exact ⟨id, cls, name, own, hcls, hm, hc⟩
      | none =>
        simp only [hcls, hm] at hf
        obtain ⟨next, -, hf⟩ := Option.bind_eq_some_iff.1 hf
        exact hasMethod_of_findMethodFrom? hc hf

/-- The method that is found for a class is one of that class or of a class further up. -/
theorem hasMethod_of_findMethod? {id : ClassId} {method : ClosureId} {c : Closure}
    (hf : s.findMethod? id name = some method) (hc : s.closures[method]? = some c) : ∃ owner, s.HasMethod owner c :=
  hasMethod_of_findMethodFrom? hc hf

end Store

/-! ## Code in scopes -/

namespace Chronicle

variable {c c' : Chronicle} {id : ScopeId} {uses : List UseId}

/-- Whether uses are at home in a scope: if it is at home in the scope of a birth, then they are own uses of methods of
the class that was born. -/
def AtHome (c : Chronicle) (id : ScopeId) (uses : List UseId) : Prop :=
  ∀ b ∈ c.births, c.store.home? id = some b.scope → ∀ use ∈ uses,
    ∃ f, c.store.HasMethod b.cls f ∧ f.scope = b.scope ∧ use ∈ routineOwnUses f.routine

/-- Whether code with these uses of its own can run in a scope, which is never that of a birth. -/
structure Runs (c : Chronicle) (id : ScopeId) (uses : List UseId) : Prop where
  lt : id < c.store.scopes.size
  inside : c.store.binds id superName = false
  home : c.AtHome id uses

theorem Runs.mono (h : c.Runs id uses) {fewer : List UseId} (hs : fewer ⊆ uses) : c.Runs id fewer :=
  ⟨h.lt, h.inside, fun b hb home use hu => h.home b hb home use (hs hu)⟩

/-- From one chronicle to a later one: what was born on the way has a new scope. -/
structure Later (c c' : Chronicle) : Prop where
  store : c.store.KeepsWords c'.store
  kept : ∀ b ∈ c.births, b ∈ c'.births
  young : ∀ b ∈ c'.births, b ∈ c.births ∨ c.store.scopes.size ≤ b.scope

/-- A later store, and nothing was born. -/
theorem Later.ofStore {births : List Birth} {s s' : Store} (h : s.KeepsWords s') : Later ⟨births, s⟩ ⟨births, s'⟩ :=
  ⟨h, fun _ hb => hb, fun _ hb => .inl hb⟩

theorem Later.trans {c'' : Chronicle} (h : c.Later c') (h' : c'.Later c'') : c.Later c'' where
  store := h.store.trans h'.store
  kept b hb := h'.kept b (h.kept b hb)
  young b hb := by
    rcases h'.young b hb with hb | hb
    · exact h.young b hb
    · exact .inr (Nat.le_trans h.store.size hb)

theorem Later.atHome (h : c.Later c') (outward : c.store.Outward) (hid : id < c.store.scopes.size)
    (hh : c.AtHome id uses) : c'.AtHome id uses := by
  intro b hb home use hu
  rw [h.store.home? outward hid] at home
  rcases h.young b hb with hb | young
  · obtain ⟨f, hf, rest⟩ := hh b hb home use hu
    exact ⟨f, h.store.hasMethod hf, rest⟩
  · -- a home is older than the scopes that are in it
    exact absurd (Nat.lt_trans (Store.home?_lt outward home) hid) (Nat.not_lt_of_le young)

theorem Later.runs (h : c.Later c') (outward : c.store.Outward) (hr : c.Runs id uses) : c'.Runs id uses :=
  ⟨Nat.lt_of_lt_of_le hr.lt h.store.size, by rw [h.store.binds hr.lt not_nameable_super, hr.inside],
    h.atHome outward hr.lt hr.home⟩

/-! ## What a chronicle keeps true -/

/-- What holds of a birth from then on. -/
structure Born (s : Store) (b : Birth) : Prop where
  super : s.valueIn? b.scope superName = some (.cls b.superclass)
  cls : ∃ cls, s.classes[b.cls]? = some cls ∧ cls.superclass = some b.superclass

/-- Whether a function stands in as many scopes as were open when the walk came to it. -/
structure Placed (statements : List Stmt) (s : Store) (f : Closure) (x : Stop) : Prop where
  declares : World.Declares statements f x
  depth : s.ancestor? f.scope x.whole.length = some Store.globalScope

/-- What a running program keeps true of its chronicle. -/
structure Sound (statements : List Stmt) (c : Chronicle) : Prop where
  born : ∀ b ∈ c.births, Born c.store b
  /-- The scopes for `super` are those of births. -/
  super : ∀ id, c.store.binds id superName = true → ∃ b ∈ c.births, b.scope = id
  /-- A scope for `this` is made for a method. -/
  this : ∀ id, c.store.binds id thisName = true → ∃ cls f, c.store.HasMethod cls f ∧ c.store.parent? id = some f.scope
  /-- What stands in the scope of a birth is a method of the class that was born. -/
  methods : ∀ (id : ClassId) cls, c.store.classes[id]? = some cls → ∀ name method, cls.methods.get? name = some method →
    ∃ f, c.store.closures[method]? = some f ∧
      ∀ b ∈ c.births, b.scope = f.scope → b.cls = id ∧ f.routine ∈ b.methods
  closures : ∀ (id : ClosureId) f, c.store.closures[id]? = some f →
    f.scope < c.store.scopes.size ∧ ∀ x, Placed statements c.store f x → c.AtHome f.scope (routineOwnUses f.routine)

variable {statements : List Stmt}

theorem Sound.hasMethod (h : Sound statements c) {cls : ClassId} {f : Closure} (hf : c.store.HasMethod cls f) :
    ∀ b ∈ c.births, b.scope = f.scope → b.cls = cls ∧ f.routine ∈ b.methods := by
  obtain ⟨found, name, method, hcls, hm, hc⟩ := hf
  obtain ⟨f', hc', same⟩ := h.methods cls found hcls name method hm
  cases hc.symm.trans hc'
  exact same

theorem Sound.lt_size (h : Sound statements c) {b : Birth} (hb : b ∈ c.births) : b.scope < c.store.scopes.size := by
  by_contra hge
  have := (h.born b hb).super
  rw [Store.valueIn?_eq_none _ _ _ (Nat.le_of_not_lt hge)] at this
  cases this

theorem Born.later {s s' : Store} {b : Birth} (h : Born s b) (later : s.KeepsWords s') (hid : b.scope < s.scopes.size) :
    Born s' b := by
  obtain ⟨cls, hc, hs⟩ := h.cls
  exact ⟨by rw [later.words _ hid _ not_nameable_super, h.super], cls, later.classes _ _ hc, hs⟩

/-- What has to be shown of a later chronicle is about what is new in it. -/
theorem Sound.later (h : Sound statements c) (outward : c.store.Outward) (later : c.Later c')
    (born : ∀ b ∈ c'.births, c.store.scopes.size ≤ b.scope → Born c'.store b)
    (super : ∀ id, c.store.scopes.size ≤ id → c'.store.binds id superName = true → ∃ b ∈ c'.births, b.scope = id)
    (this : ∀ id, c.store.scopes.size ≤ id → c'.store.binds id thisName = true →
      ∃ cls f, c'.store.HasMethod cls f ∧ c'.store.parent? id = some f.scope)
    (methods : ∀ (id : ClassId) cls, c.store.classes.size ≤ id → c'.store.classes[id]? = some cls →
      ∀ name method, cls.methods.get? name = some method → ∃ f, c'.store.closures[method]? = some f ∧
        ∀ b ∈ c'.births, b.scope = f.scope → b.cls = id ∧ f.routine ∈ b.methods)
    (closures : ∀ (id : ClosureId) f, c.store.closures.size ≤ id → c'.store.closures[id]? = some f →
      f.scope < c'.store.scopes.size ∧
        ∀ x, Placed statements c'.store f x → c'.AtHome f.scope (routineOwnUses f.routine)) :
    Sound statements c' where
  born b hb := by
    rcases later.young b hb with old | young
    · exact (h.born b old).later later.store (h.lt_size old)
    · exact born b hb young
  super id hb := by
    rcases Nat.lt_or_ge id c.store.scopes.size with old | young
    · obtain ⟨b, hb, same⟩ := h.super id (later.store.binds old not_nameable_super ▸ hb)
      exact ⟨b, later.kept b hb, same⟩
    · exact super id young hb
  this id hb := by
    rcases Nat.lt_or_ge id c.store.scopes.size with old | young
    · obtain ⟨cls, f, hf, link⟩ := h.this id (later.store.binds old not_nameable_this ▸ hb)
      exact ⟨cls, f, later.store.hasMethod hf, (later.store.parent id old).trans link⟩
    · exact this id young hb
  methods id cls hc name method hm := by
    rcases Nat.lt_or_ge id c.store.classes.size with old | young
    · have before := Array.getElem?_eq_getElem old
      cases (later.store.classes id _ before).symm.trans hc
      obtain ⟨f, hf, same⟩ := h.methods id _ before name method hm
      refine ⟨f, later.store.closures _ _ hf, fun b hb scope => ?_⟩
      rcases later.young b hb with old | young
      · exact same b old scope
      · -- what stands in a scope is younger than that, and this method was there before the birth
        exact absurd (h.closures method f hf).1 (Nat.not_lt_of_le (scope ▸ young))
    · exact methods id cls young hc name method hm
  closures id f hf := by
    rcases Nat.lt_or_ge id c.store.closures.size with old | young
    · have before := Array.getElem?_eq_getElem old
      cases (later.store.closures id _ before).symm.trans hf
      obtain ⟨lt, home⟩ := h.closures id _ before
      refine ⟨Nat.lt_of_lt_of_le lt later.store.size, fun x hx => later.atHome outward lt (home x ⟨hx.declares, ?_⟩)⟩
      rw [← later.store.ancestor? outward _ lt]
      exact hx.depth
    · exact closures id f young hf

end Chronicle

end Lox
