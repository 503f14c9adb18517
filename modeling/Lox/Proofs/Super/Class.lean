/-
The declaration of a class keeps a chronicle sound. With a superclass it is a birth: the class is new, and so is the
scope for `super`, in which nothing stands but the methods of that class. A method that is not bound to an instance
stands in one scope less than the walk found open around it, so that nothing is said of where it runs.
-/
import Lox.Proofs.Binding.Single
import Lox.Proofs.Machine.Classes
import Lox.Proofs.Machine.NewClass
import Lox.Proofs.Super.Growth

namespace Lox

/-- From a planned scope it is as many steps to the global variables as scopes are planned. -/
theorem World.Sound.ancestor?_whole {statements : List Stmt} {w : World} (h : Sound statements w) :
    ∀ {d : List Declarations} {id : ScopeId}, w.plan[id]? = some d →
      w.store.ancestor? id d.length = some Store.globalScope
  | [], id, hd => by
    cases h.only id hd
    rfl
  | own :: rest, id, hd => by
    obtain ⟨-, next, link, -, planned⟩ := h.planned id own rest hd
    rw [List.length_cons, Store.ancestor?_succ, link]
    exact h.ancestor?_whole planned

namespace Chronicle

open World

variable {statements : List Stmt} {table : Table} {births : List Birth} {s : Store} {plan : List (List Declarations)}
  {scope : ScopeId} {x : Stop}

/-- A method that is not bound to an instance is not placed, unless there is nothing in it that could be at home. -/
theorem not_placed_method (resolved : Resolved statements table) (visits : Visits statements x) {name : Token}
    {e : Option Expr} {rs : List (Routine Stmt)} (hc : x.code = .stmt (.classDecl name e rs)) {r : Routine Stmt}
    (hr : r ∈ rs) (outermost : s.parent? Store.globalScope = none)
    (depth : s.ancestor? scope (x.whole.length + (superScopes e.isSome).length) = some Store.globalScope)
    {initializer : Bool} {y : Stop} (placed : Placed statements s ⟨r, scope, initializer⟩ y) :
    routineOwnUses r = [] := by
  by_contra own
  obtain ⟨use, hu⟩ := List.exists_mem_of_ne_nil _ own
  obtain ⟨methods, hm, code, -, own, whole⟩ := Stop.exists_methods hc
  obtain ⟨z, hz, routine, -, same, -⟩ := (visits.part hm).exists_method code hr
  have uses : y.code.uses ≠ [] := by
    rw [placed.declares.code]
    exact List.ne_nil_of_mem (mem_routineUses_of_own hu)
  -- the walk comes to the method once, with one scope more than there are around the function
  cases placed.declares.visits.eq_of_code_eq resolved hz (placed.declares.code.trans routine.symm) uses
  have deeper := placed.depth
  rw [same, whole, List.length_cons, List.length_append, Nat.add_comm (superScopes e.isSome).length,
    Store.ancestor?_add, depth, Option.bind_some, Store.ancestor?_outermost outermost] at deeper
  cases deeper

theorem superScopes_length {superclass : Option ClassId} {e : Option Expr} (hs : superclass.isSome = e.isSome) :
    (superScopes e.isSome).length = superclass.toList.length := by
  rw [← hs]
  cases superclass <;> rfl

/-- The birth that a declaration brings, if there is a superclass. -/
theorem mem_births {b : Birth} {name : Token} {rs : List (Routine Stmt)} {superclass : Option ClassId}
    (hb : b ∈ (superclass.map (Birth.next name rs · s)).toList) :
    ∃ parent, superclass = some parent ∧ b = .next name rs parent s := by
  obtain ⟨parent, hp, rfl⟩ := Option.map_eq_some_iff.1 (Option.mem_toList.1 hb)
  exact ⟨parent, hp, rfl⟩

theorem born_withClass (scope : ScopeId) (name : Token) (rs : List (Routine Stmt)) (parent : ClassId) (s : Store) :
    Born (Machine.withClass scope name.lexeme (some parent) rs s) (.next name rs parent s) := by
  obtain ⟨entries, classes, -⟩ := Machine.classes_withClass scope name.lexeme (some parent) rs s
  refine ⟨(Machine.valueIn?_withClass ..).trans (if_pos rfl), ⟨name.lexeme, some parent, .ofList entries⟩, ?_, rfl⟩
  rw [classes]
  exact Array.getElem?_push_size

/-- The scope of an older birth is not the one in which the methods of a new class are declared. -/
theorem Sound.ne_memberScope (h : Sound statements ⟨births, s⟩) (inside : s.binds scope superName = false) {b : Birth}
    (hb : b ∈ births) (superclass : Option ClassId) : b.scope ≠ Machine.memberScope scope superclass s := by
  intro same
  cases superclass with
  | none =>
    have super := (h.born b hb).super
    rw [show b.scope = scope from same] at super
    rw [Store.binds, super] at inside
    cases inside
  | some parent => exact absurd (h.lt_size hb) (Nat.not_lt_of_le (Nat.le_of_eq same.symm))

/-- The declaration of a class, with the birth that it brings. -/
theorem Sound.withClass (h : Sound statements ⟨births, s⟩) (sound : World.Sound statements ⟨plan, s⟩)
    (resolved : Resolved statements table) (place : At statements ⟨plan, s⟩ scope x)
    (inside : s.binds scope superName = false) {name : Token} {e : Option Expr} {rs : List (Routine Stmt)}
    (hc : x.code = .stmt (.classDecl name e rs)) {superclass : Option ClassId} (hs : superclass.isSome = e.isSome) :
    let c : Chronicle := ⟨births ++ (superclass.map (Birth.next name rs · s)).toList,
      Machine.withClass scope name.lexeme superclass rs s⟩
    Later ⟨births, s⟩ c ∧ Sound statements c := by
  have nameable : Nameable name.lexeme := resolved.nameable place.visits hc (List.mem_singleton_self _)
  have lt : scope < s.scopes.size := sound.lt_size place.planned
  have keeps := Machine.keepsWords_withClass lt nameable superclass rs
  have step : Later ⟨births, s⟩ ⟨births ++ (superclass.map (Birth.next name rs · s)).toList,
      Machine.withClass scope name.lexeme superclass rs s⟩ := by
    refine ⟨keeps, fun b hb => List.mem_append_left _ hb, fun b hb => (List.mem_append.1 hb).imp_right fun hb => ?_⟩
    obtain ⟨parent, -, rfl⟩ := mem_births hb
    exact Nat.le_refl _
  refine ⟨step, h.later sound.outward step ?born ?super ?this ?methods ?closures⟩
  case born =>
    intro b hb young
    rcases List.mem_append.1 hb with hb | hb
    · exact absurd (h.lt_size hb) (Nat.not_lt_of_le young)
    · obtain ⟨parent, rfl, rfl⟩ := mem_births hb
      exact born_withClass scope name rs parent s
  case super =>
    intro id young hb
    obtain ⟨parent, rfl, rfl, -⟩ := Machine.eq_of_binds_withClass young hb
    exact ⟨.next name rs parent s, List.mem_append_right _ (List.mem_singleton_self _), rfl⟩
  case this =>
    intro id young hb
    obtain ⟨-, -, -, word⟩ := Machine.eq_of_binds_withClass young hb
    exact absurd word (by decide)
  case methods =>
    obtain ⟨entries, classes, functions⟩ := Machine.classes_withClass scope name.lexeme superclass rs s
    intro id cls young hcls n method hm
    rw [classes, Array.getElem?_push] at hcls
    split at hcls
    · next new =>
      cases hcls
      obtain ⟨r, hr, hf⟩ := functions n method (Bindings.mem_of_get?_ofList hm)
      refine ⟨_, hf, fun b hb same => ?_⟩
      -- of the births with this scope there is only the new one
      rcases List.mem_append.1 hb with hb | hb
      · exact absurd same (h.ne_memberScope inside hb superclass)
      · obtain ⟨parent, -, rfl⟩ := mem_births hb
        exact ⟨new.symm, hr⟩
    · exact absurd_of_size_le hcls young
  case closures =>
    intro id f young hf
    obtain ⟨r, hr, rfl⟩ := Machine.eq_of_closures_withClass hf young
    -- a method that is not bound stands in one scope too few for the walk
    refine ⟨Machine.memberScope_lt lt nameable, fun y placed b hb home use hu => ?_⟩
    have outermost := (keeps.parent _ (sound.lt_size sound.globals.1)).trans sound.globals.2
    have depth : (Machine.withClass scope name.lexeme superclass rs s).ancestor?
        (Machine.memberScope scope superclass s) (x.whole.length + superclass.toList.length) = some Store.globalScope :=
      (Machine.ancestor?_withClass sound.outward lt nameable _).trans (sound.ancestor?_whole place.planned)
    rw [← superScopes_length hs] at depth
    have none : routineOwnUses r = [] := not_placed_method resolved place.visits hc hr outermost depth placed
    have hu : use ∈ routineOwnUses r := hu
    rw [none] at hu
    cases hu

end Chronicle

end Lox
