/-
Classes as they were declared. A store has its classes in the order in which they were declared, each with the superclass
that it was declared with and with the last method of every name (`Declared`). So what is found for a class under a name
is the method of the nearest declaration that has one, on the way upwards from that of the class
(`Declared.findMethod?`).
-/
import Lox.Proofs.Bindings
import Lox.Proofs.Store.Rooted

namespace Lox

/-- The declaration of a class, as it was carried out: the superclass that it came to, the methods, and the scope in which
they were declared. -/
structure ClassDeclaration where
  superclass : Option ClassId
  methods : List (Routine Stmt)
  scope : ScopeId

/-- The method that a class was declared with under a name: of several methods of one name the last counts. -/
def ClassDeclaration.method? (d : ClassDeclaration) (name : String) : Option Closure :=
  (d.methods.reverse.find? (·.name.lexeme == name)).map fun r => ⟨r, d.scope, r.isInitializer⟩

/-- The declarations of a class and of the classes above it, from the class upwards. -/
inductive Lineage (declared : List ClassDeclaration) : ClassId → List ClassDeclaration → Prop
  | root {id d} (own : declared[id]? = some d) (none : d.superclass = none) : Lineage declared id [d]
  | cons {id parent d ds} (own : declared[id]? = some d) (link : d.superclass = some parent)
    (above : Lineage declared parent ds) : Lineage declared id (d :: ds)

variable {declared : List ClassDeclaration} {id : ClassId} {name : String}

theorem Lineage.unique {ds ds' : List ClassDeclaration} (h : Lineage declared id ds) (h' : Lineage declared id ds') :
    ds' = ds := by
  induction h generalizing ds' with
  | root own none =>
    cases h' with
    | root own' _ =>
      cases own.symm.trans own'
      rfl
    | cons own' link _ =>
      cases own.symm.trans own'
      cases none.symm.trans link
  | cons own link _ ih =>
    cases h' with
    | root own' none =>
      cases own.symm.trans own'
      cases link.symm.trans none
    | cons own' link' above =>
      cases own.symm.trans own'
      cases link.symm.trans link'
      rw [ih above]

namespace Store

/-- Whether a class is what a declaration makes. -/
structure IsDeclared (s : Store) (cls : Class) (d : ClassDeclaration) : Prop where
  superclass : cls.superclass = d.superclass
  methods : ∀ name, (cls.methods.get? name).map (s.closures[·]?) = (d.method? name).map some

/-- Whether these are the declarations of the classes, in order. -/
structure Declared (s : Store) (declared : List ClassDeclaration) : Prop where
  length : declared.length = s.classes.size
  classes : ∀ (id : ClassId) cls d, s.classes[id]? = some cls → declared[id]? = some d → s.IsDeclared cls d

variable {s s' : Store} {cls : Class} {d : ClassDeclaration}

namespace IsDeclared

variable (h : s.IsDeclared cls d)
include h

theorem exists_method {f : ClosureId} (hf : cls.methods.get? name = some f) :
    ∃ method, d.method? name = some method ∧ s.closures[f]? = some method := by
  have made := h.methods name
  rw [hf] at made
  obtain ⟨method, declared, there⟩ := Option.map_eq_some_iff.1 made.symm
  exact ⟨method, declared, there.symm⟩

theorem method?_eq_none (hf : cls.methods.get? name = none) : d.method? name = none := by
  have made := h.methods name
  rw [hf] at made
  exact Option.map_eq_none_iff.1 made.symm

theorem later (closures : ∀ (id : ClosureId) f, s.closures[id]? = some f → s'.closures[id]? = some f) :
    s'.IsDeclared cls d := by
  refine ⟨h.superclass, fun name => ?_⟩
  cases hf : cls.methods.get? name with
  | none =>
    rw [h.method?_eq_none hf]
    rfl
  | some f =>
    obtain ⟨method, declared, there⟩ := h.exists_method hf
    rw [declared, Option.map_some, closures f method there]
    rfl

end IsDeclared

namespace Declared

theorem initial : Store.initial.Declared [] := ⟨rfl, nofun⟩

theorem later (h : s.Declared declared) (classes : s'.classes = s.classes)
    (closures : ∀ (id : ClosureId) f, s.closures[id]? = some f → s'.closures[id]? = some f) : s'.Declared declared := by
  refine ⟨by rw [classes, h.length], fun id cls d hc hd => ?_⟩
  rw [classes] at hc
  exact (h.classes id cls d hc hd).later closures

/-- One more class is declared. -/
theorem push (h : s.Declared declared) (classes : s'.classes = s.classes.push cls)
    (closures : ∀ (id : ClosureId) f, s.closures[id]? = some f → s'.closures[id]? = some f) (own : s'.IsDeclared cls d) :
    s'.Declared (declared ++ [d]) := by
  refine ⟨by rw [classes, Array.size_push, ← h.length, List.length_append, List.length_singleton], fun id c e hc he => ?_⟩
  rw [classes, Array.getElem?_push] at hc
  split at hc
  · next new =>
    rw [new, ← h.length, List.getElem?_concat_length] at he
    cases hc
    cases he
    exact own
  · -- a class from before has one of the declarations from before
    have old : id < declared.length := h.length ▸ lt_size_iff.2 ⟨c, hc⟩
    rw [List.getElem?_append_left old] at he
    exact (h.classes id c e hc he).later closures

/-! ## Along the superclasses -/

variable (h : s.Declared declared)
include h

theorem exists_declaration (there : id < s.classes.size) : ∃ d, declared[id]? = some d := by
  rw [← h.length] at there
  exact ⟨_, List.getElem?_eq_getElem there⟩

/-- From every class one comes upwards to an end. -/
theorem exists_lineage (grounded : s.Grounded) : ∀ id < s.classes.size, ∃ ds, Lineage declared id ds := by
  intro id
  induction id using Nat.strongRecOn with
  | _ id ih =>
    intro there
    obtain ⟨d, own⟩ := h.exists_declaration there
    cases link : d.superclass with
    | none => exact ⟨[d], .root own link⟩
    | some parent =>
      -- a superclass has a smaller number
      obtain ⟨cls, hc⟩ := lt_size_iff.1 there
      have older : parent < id :=
        grounded.superclasses id cls hc parent ((h.classes id cls d hc own).superclass.trans link)
      obtain ⟨ds, above⟩ := ih parent older (Nat.lt_trans older there)
      exact ⟨d :: ds, .cons own link above⟩

/-- A search for a method finds that of the first declaration upwards that has one. -/
theorem of_seeks {ds : List ClassDeclaration} (lineage : Lineage declared id ds) {found : Option ClosureId}
    (seeks : s.Seeks name id found) : found.map (s.closures[·]?) = (ds.findSome? (·.method? name)).map some := by
  -- the search goes up the same classes as the lineage, and stops where a declaration has the method
  induction lineage generalizing found with
  | @root id d own none =>
    rw [List.findSome?_singleton]
    cases seeks with
    | own hc hf =>
      obtain ⟨method, has, there⟩ := (h.classes id _ d hc own).exists_method hf
      rw [has, Option.map_some, there]
      rfl
    | inherited hc _ link _ => cases link.symm.trans ((h.classes id _ d hc own).superclass.trans none)
    | nowhere hc hf _ =>
      rw [(h.classes id _ d hc own).method?_eq_none hf]
      rfl
  | @cons id parent d ds own link _ ih =>
    rw [List.findSome?_cons]
    cases seeks with
    | own hc hf =>
      obtain ⟨method, has, there⟩ := (h.classes id _ d hc own).exists_method hf
      rw [has, Option.map_some, there]
      rfl
    | inherited hc hf link' seeks =>
      have made := h.classes id _ d hc own
      rw [made.method?_eq_none hf]
      cases (made.superclass.symm.trans link').symm.trans link
      exact ih seeks
    | nowhere hc _ none => cases (none.symm.trans (h.classes id _ d hc own).superclass).trans link

/-- What is found for a class is the method of the nearest declaration upwards that has one. -/
theorem findMethod? (grounded : s.Grounded) (there : id < s.classes.size) {ds : List ClassDeclaration}
    (lineage : Lineage declared id ds) (name : String) :
    (s.findMethod? id name).map (s.closures[·]?) = (ds.findSome? (·.method? name)).map some :=
  h.of_seeks lineage (grounded.seeks id there)

end Declared

end Store

/-! ## The class that a declaration makes -/

namespace Machine

/-- The last method of a name is the one that the name gets. -/
theorem lookup_addMethods (scope : ScopeId) (name : String) : ∀ (methods : List (Routine Stmt)) (s : Store),
    ((addMethods scope methods s).2.reverse.lookup name).map ((addMethods scope methods s).1.closures[·]?) =
      (methods.reverse.find? (·.name.lexeme == name)).map fun r => some ⟨r, scope, r.isInitializer⟩
  | [], s => rfl
  | r :: rest, s => by
    have later := lookup_addMethods scope name rest (s.addClosure ⟨r, scope, r.isInitializer⟩)
    have own : (addMethods scope rest (s.addClosure ⟨r, scope, r.isInitializer⟩)).1.closures[s.nextClosure]? =
        some ⟨r, scope, r.isInitializer⟩ :=
      (keepsWords_addMethods scope rest _).closures _ _ (by simp [Store.addClosure, Store.nextClosure])
    show (((r.name.lexeme, s.nextClosure) :: _).reverse.lookup name).map _ = _
    rw [List.reverse_cons, List.reverse_cons, List.lookup_append, List.find?_append, Option.map_or, Option.map_or]
    refine congrArg₂ Option.or later ?_
    by_cases same : name = r.name.lexeme
    · rw [same, List.lookup_cons_self, List.find?_singleton, beq_self_eq_true, if_pos rfl]
      exact congrArg some own
    · rw [List.lookup_cons, beq_false_of_ne same, List.find?_singleton, beq_false_of_ne (Ne.symm same)]
      rfl

/-- There is one class more, and it is as it is declared. -/
theorem isDeclared_withClass (scope : ScopeId) (name : String) (superclass : Option ClassId)
    (methods : List (Routine Stmt)) (s : Store) :
    ∃ cls, (withClass scope name superclass methods s).classes = s.classes.push cls ∧
      (withClass scope name superclass methods s).IsDeclared cls
        ⟨superclass, methods, memberScope scope superclass s⟩ := by
  refine ⟨_, classes_withClass_eq scope name superclass methods s, rfl, fun n => ?_⟩
  rw [← memberScope_define scope superclass s scope name .nil, ← snd_methodScope, Bindings.get?_ofList,
    ClassDeclaration.method?, Option.map_map]
  exact lookup_addMethods _ n methods _

end Machine

end Lox
