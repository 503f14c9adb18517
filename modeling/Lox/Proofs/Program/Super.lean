/-
A method taken from the superclass. At the word `super` there is one class whose method is running, made by the
declaration of the innermost class around the word, and one instance for which it runs, the same that `this` is. The
method is looked up from the superclass that was the value of the expression in the declaration when that was carried
out, whatever the class of the instance is and whatever the names of classes have come to stand for since.
-/
import Lox.Proofs.Machine.Nearest
import Lox.Proofs.Program.Bound
import Lox.Proofs.Super.Steps

namespace Lox

/-- The number of the use, the word `super` and the name after it, if a method of the superclass is taken just now. -/
def Control.super? : Control → Option (UseId × Token × Token)
  | eval (.super use keyword method) => some (use, keyword, method)
  | eval _ | exec _ | value _ | finished _ | failed _ => none

theorem Control.super?_eq {control : Control} {use : UseId} {keyword method : Token}
    (h : control.super? = some (use, keyword, method)) : control = .eval (.super use keyword method) := by
  unfold super? at h
  split at h
  · cases h
    rfl
  all_goals cases h

/-! ## The words at a use of `super` -/

/-- At a stop the word `this` is in a scope so many steps out, the nearest that has it, and `super` in the next. -/
structure Store.FindsWords (s : Store) (id : ScopeId) (x : Stop) (i : Nat) (scope outer : ScopeId) : Prop where
  distance : x.walk.scopes.findIdx? (·.contains thisName) = some i
  this : s.target? id (.hops i) thisName = some scope
  nearest : s.holder? id thisName = some scope
  link : s.parent? scope = some outer
  super : s.target? id (.hops (i + 1)) superName = some outer

section

variable {statements : List Stmt} {table : Table} {x : Stop} {use : UseId} {keyword method : Token}

theorem World.At.findsWords {w : World} {id : ScopeId} (place : At statements w id x) (sound : Sound statements w)
    (checked : x.Checked table) (hc : x.code = .expr (.super use keyword method)) :
    ∃ i scope outer, table.place use = .hops (i + 1) ∧ w.store.FindsWords id x i scope outer := by
  obtain ⟨i, hi, hj⟩ := checked.super_at hc
  obtain ⟨scope, hs, hb⟩ := place.word checked.fits not_nameable_this hi
  obtain ⟨outer, ho, hb'⟩ := place.word checked.fits not_nameable_super hj
  have target := Store.target?_hops hs hb
  have nearest := sound.target?_nearest place.planned place.ready checked.fits.before
    (checked.fits.knows_word not_nameable_this)
  rw [hi] at nearest
  -- the two words are in scopes next to each other
  have link : w.store.parent? scope = some outer := by
    rw [Store.ancestor?_add, hs, Option.bind_some, Store.ancestor?_succ] at ho
    obtain ⟨next, hn, same⟩ := Option.bind_eq_some_iff.1 ho
    cases same
    exact hn
  refine ⟨i, scope, outer, ?_, hi, target, nearest.symm.trans target, link, Store.target?_hops ho hb'⟩
  rw [table.place_eq, checked.clean.get?_use hc rfl, hj]
  rfl

end

namespace Machine

/-- A machine runs code of a method of the class that came of a birth, with a use that is one of the method's own, or
of functions within it. It runs for an instance: the nearest scope with `this` has the instance, and it is in the scope
in which the methods of the class were declared. -/
structure RunsMethod (m : Machine) (b : Birth) (use : UseId) (object : InstanceId) : Prop where
  superclass : ∃ cls, m.store.classes[b.cls]? = some cls ∧ cls.superclass = some b.superclass
  method : ∃ f, m.store.HasMethod b.cls f ∧ f.scope = b.scope ∧ f.routine ∈ b.methods ∧ use ∈ routineOwnUses f.routine
  instance_ : ∃ scope, m.store.holder? m.scope thisName = some scope ∧ m.store.parent? scope = some b.scope ∧
    m.store.valueIn? scope thisName = some (.object object)

/-- The word `this`, if the walk came to it at a stop, would be evaluated to the instance. -/
def ThisAt (m : Machine) (x : Stop) (object : InstanceId) : Prop :=
  ∀ use word, word.lexeme = thisName → x.walk.table.get? use = none →
    m.evaluate ((Expr.self use word).walk x.around.home x.walk).table.place (.self use word) =
      m.give (.object object)

/-- What a machine makes of a method that is looked up from a superclass: a function of the instance if there is such a
method, and else a failure at the name. -/
structure GivesSuper (m m' : Machine) (superclass : ClassId) (object : InstanceId) (method : Token) : Prop where
  found : ∀ id, m.store.findMethod? superclass method.lexeme = some id → ∃ f, m.store.closures[id]? = some f ∧
    m' = { m with
      store := (m.store.boundTo f object).1.addClosure (m.store.boundTo f object).2 }.give
        (.closure m.store.nextClosure)
  missing : m.store.findMethod? superclass method.lexeme = none →
    ∃ fault, m' = m.fail fault method ∧ fault.message = "Undefined property '" ++ method.lexeme ++ "'."

variable {statements : List Stmt} {table : Table} {plan : List (List Declarations)} {births : List Birth} {m : Machine}
  {x : Stop} {use : UseId} {keyword method : Token} {i : Nat} {scope outer : ScopeId} {object : InstanceId}

theorem thisAt_of_findsWords (words : m.store.FindsWords m.scope x i scope outer) (home : x.around.home ≠ .noClass)
    (this : m.store.valueIn? scope thisName = some (.object object)) : m.ThisAt x object := by
  intro use word same fresh
  have walked : (Expr.self use word).walk x.around.home x.walk = x.walk.bind use thisName := if_neg home
  have entry := (Walk.get?_bind fresh thisName).trans words.distance
  have read : m.store.read? m.scope (.hops i) word.lexeme = some (.object object) := by
    rw [same, Store.read?, words.this]
    exact this
  rw [walked]
  show m.giveVariable (Table.place _ use) word = _
  rw [Table.place_eq, entry]
  show m.giveVariable (.hops i) word = _
  rw [giveVariable, read]

/-- At the word `super` a method runs that is the class's of some birth, and its superclass is found. -/
theorem Recorded.exists_birth (h : Recorded statements births m) (sound : World.Sound statements ⟨plan, m.store⟩)
    (control : m.control = .eval (.super use keyword method)) (words : m.store.FindsWords m.scope x i scope outer) :
    ∃ b ∈ births, ∃ object, m.RunsMethod b use object ∧ m.store.valueIn? scope thisName = some (.object object) ∧
      m.superParts? (.hops (i + 1)) = some (b.superclass, object) := by
  obtain ⟨b, hb, rfl⟩ := h.sound.super outer (Store.binds_of_target? words.super)
  obtain ⟨v, this⟩ := (Store.binds_iff _ _ _).1 (Store.binds_of_target? words.this)
  obtain ⟨object, rfl⟩ := (sound.values scope thisName v this).2.1 rfl
  have born := h.sound.born b hb
  have home : m.store.home? m.scope = some b.scope := by rw [Store.home?, words.nearest, Option.bind_some, words.link]
  -- the use runs here, so that it is an own use of a method of the class whose home this is
  have own : use ∈ m.control.ownUses := by
    rw [control]
    exact List.mem_singleton_self use
  obtain ⟨f, method, declared, use⟩ := h.runs.home b hb home use own
  have member := (h.sound.hasMethod method b hb declared.symm).2
  have runs : m.RunsMethod b _ object :=
    ⟨born.cls, ⟨f, method, declared, member, use⟩, scope, words.nearest, words.link, this⟩
  refine ⟨b, hb, object, runs, this, ?_⟩
  have super : m.store.read? m.scope (.hops (i + 1)) superName = some (.cls b.superclass) := by
    rw [Store.read?, words.super]
    exact born.super
  have this : m.store.read? m.scope (.hops i) thisName = some (.object object) := by
    rw [Store.read?, words.this]
    exact this
  simp only [superParts?, thisPlace, Nat.add_sub_cancel, super, this]

theorem givesSuper {place : Place} {superclass : ClassId} (sound : World.Sound statements ⟨plan, m.store⟩)
    (parts : m.superParts? place = some (superclass, object)) (keyword method : Token) :
    m.GivesSuper (m.giveSuper place keyword method) superclass object method where
  found id hf := by
    obtain ⟨f, -, hc, -⟩ := sound.findMethod? hf
    exact ⟨f, hc, by simp only [giveSuper, parts, hf, giveMethod, hc]; rfl⟩
  missing hf := ⟨.undefinedProperty method.lexeme, by simp only [giveSuper, parts, hf], rfl⟩

end Machine

/-- A class that is born is one that the program declares. -/
theorem Machine.Conforms.declared {statements : List Stmt} {m : Machine} (h : Conforms statements m) {b : Birth}
    (birth : m.birth? = some b) :
    ∃ parent, .stmt (.classDecl b.name (some parent) b.methods) ∈ Stmt.withinAll statements := by
  obtain ⟨plan, d, ⟨-, stacked⟩, -⟩ := h
  obtain ⟨superclass, name, e, methods, rest, -, hf, rfl⟩ := birth?_eq birth
  rw [hf] at stacked
  obtain ⟨d', id', takes, -⟩ := stacked.top
  cases takes with
  | inherit place hc =>
    have inside := place.visits.within
    rw [hc] at inside
    exact ⟨e, inside (Stmt.mem_within _)⟩

/-! ## Runs -/

section

variable {source : String} {program : Program}

/-- Wherever the run of an accepted program comes to the word `super`, a method runs of a class that was born in the
run, by the declaration of the innermost class around the word. What the word gives is looked up from the superclass
of that birth and is made for the instance that `this` is there. -/
theorem Program.super_of_birth (accepted : Program.ofSource source = .ok program) (sink : Sink) (n : Nat) {use : UseId}
    {keyword method : Token} (control : (program.after sink n).control = .eval (.super use keyword method)) :
    ∃ b object, (∃ k < n, (program.after sink k).birth? = some b) ∧
      (∃ parent, .stmt (.classDecl b.name (some parent) b.methods) ∈ Stmt.withinAll program.statements) ∧
      (program.after sink n).RunsMethod b use object ∧
      (∃ x, Visits program.statements x ∧ x.code = .expr (.super use keyword method)) ∧
      (∀ x, Visits program.statements x → x.code = .expr (.super use keyword method) →
        (program.after sink n).ThisAt x object) ∧
      (program.after sink n).GivesSuper (program.after sink (n + 1)) b.superclass object method := by
  have resolved := resolved_of_ofSource accepted
  have recorded := Machine.recorded_iterate resolved sink n
  obtain ⟨plan, d, ⟨sound, stacked⟩, gives⟩ := program.conforms_after accepted sink n
  rw [control] at gives
  obtain ⟨-, x, place, evaluates⟩ := gives
  have checked := resolved.checked place.visits
  have hc := evaluates.code_eq checked fun _ _ h => by cases h
  obtain ⟨i, scope, outer, sent, words⟩ := place.findsWords sound checked hc
  obtain ⟨b, hb, object, runs, this, parts⟩ := recorded.exists_birth sound control words
  obtain ⟨k, hk, birth⟩ := Machine.mem_births.1 hb
  refine ⟨b, object, ⟨k, hk, birth⟩, (program.conforms_after accepted sink k).declared birth, runs,
    ⟨x, place.visits, hc⟩, fun y visits hy => ?_, ?_⟩
  · -- the walk came to the word once
    have uses : x.code.uses ≠ [] := by
      rw [hc]
      exact List.cons_ne_nil _ _
    cases place.visits.eq_of_code_eq resolved visits (hc.trans hy.symm) uses
    have home : x.around.home ≠ .noClass := by
      rw [checked.clean.in_subclass hc]
      nofun
    exact Machine.thisAt_of_findsWords words home this
  · have next : program.after sink (n + 1) = (program.after sink n).step program.table.place :=
      Function.iterate_succ_apply' ..
    rw [next, Machine.step_eval control]
    show (program.after sink n).GivesSuper ((program.after sink n).giveSuper _ keyword method) b.superclass object
      method
    rw [sent]
    exact Machine.givesSuper sound parts keyword method

/-- A function in a method takes the method of the superclass for an instance of a further subclass, when the names of
both classes have come to stand for something else. -/
theorem Program.super_of_birth_reassigned :
    ∃ program use keyword method b object,
      Program.ofSource ("class A \x7b m() \x7b \x7d \x7d " ++
        "class B < A \x7b m() \x7b fun f() \x7b super.m(); \x7d A = nil; f(); \x7d \x7d " ++
        "class C < B \x7b \x7d B = nil; C().m();") = .ok program ∧
        (program.after .unlimited 42).control = .eval (.super use keyword method) ∧
        (∃ k < 42, (program.after .unlimited k).birth? = some b) ∧
        (program.after .unlimited 42).RunsMethod b use object ∧
        (program.after .unlimited 42).GivesSuper (program.after .unlimited 43) b.superclass object method := by
  have ran : (Program.ofSource ("class A \x7b m() \x7b \x7d \x7d " ++
      "class B < A \x7b m() \x7b fun f() \x7b super.m(); \x7d A = nil; f(); \x7d \x7d " ++
      "class C < B \x7b \x7d B = nil; C().m();")).toOption.any
      (fun p => (p.after .unlimited 42).control.super?.isSome) = true := by decide +kernel
  obtain ⟨program, accepted, ran⟩ := Program.exists_ofSource ran
  obtain ⟨⟨use, keyword, method⟩, hs⟩ := Option.isSome_iff_exists.1 ran
  have control := Control.super?_eq hs
  obtain ⟨b, object, birth, -, runs, -, -, gives⟩ := program.super_of_birth accepted .unlimited 42 control
  exact ⟨program, use, keyword, method, b, object, accepted, control, birth, runs, gives⟩

end

end Lox
