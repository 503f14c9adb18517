/-
What the property of an instance is. It goes by what has happened on a machine (`History`): whatever was stored last in a
field of the name, through whichever variable the instance was reached. If nothing was stored it is a method, bound to the
instance: the last one of the name in the nearest declaration that has one, from the class of the instance upwards; and
if there is none it is an error that changes nothing (`History.property_lookup`). The declarations are those that were
carried out, so that it makes no difference what the names of classes have come to mean since.
-/
import Lox.Diagnostic
import Lox.Proofs.Machine.Objects
import Lox.Proofs.Program.Rooted

namespace Lox

namespace Machine

/-- A machine with those on which a step was made before, the latest first. Uses may have had any places, and programs may
have been loaded at any time, after the end of the one before or not. -/
inductive History (sink : Sink) : List Machine → Machine → Prop
  | fresh : History sink [] (initial sink)
  | next {past m} (before : History sink past m) (place : UseId → Place) : History sink (m :: past) (m.step place)
  | more {past m} (before : History sink past m) (statements : List Stmt) : History sink past (m.load statements)

/-- The value that was stored last in a field of an instance, if one was. -/
def lastStored? (past : List Machine) (object : InstanceId) (name : String) : Option Value :=
  past.findSome? (·.stores? object name)

/-- The classes that were declared, in order; a class has the number of its declaration. -/
def declared (past : List Machine) : List ClassDeclaration := (past.filterMap (·.declaring?)).reverse

/-- A machine that has come to an instance of which a property is to be taken. -/
def atProperty (m : Machine) (object : InstanceId) (name : Token) (frames : List Frame) : Machine :=
  { m with control := .value (.object object), frames := .property name :: frames }

/-- Gives a method as a new function, in a new scope that has nothing but `this`. -/
def giveBound (m : Machine) (method : Closure) (object : InstanceId) : Machine :=
  { m with
    control := .value (.closure m.store.nextClosure)
    store := (m.store.addScope ⟨some method.scope, Bindings.empty.set thisName (.object object)⟩).addClosure
      ⟨method.routine, m.store.nextScope, method.initializer⟩ }

variable {sink : Sink} {past : List Machine} {m : Machine}

theorem declared_cons (m : Machine) (past : List Machine) :
    declared (m :: past) = declared past ++ m.declaring?.toList := by
  unfold declared
  rw [List.filterMap_cons]
  cases m.declaring? with
  | none => simp
  | some d => simp

theorem lastStored?_cons (m : Machine) (past : List Machine) (object : InstanceId) (name : String) :
    lastStored? (m :: past) object name = (m.stores? object name).or (lastStored? past object name) := by
  unfold lastStored?
  rw [List.findSome?_cons]
  cases m.stores? object name with
  | none => rfl
  | some v => rfl

/-! ## What the store has of a history -/

namespace History

theorem grounded (history : History sink past m) : m.Grounded := by
  induction history with
  | fresh => exact grounded_initial sink
  | next _ place ih => exact (grounded_iterate place ih 1).2
  | more _ statements ih => exact ih.load statements

/-- A field has the value that was stored last. -/
theorem field?_eq (history : History sink past m) (object : InstanceId) (name : String) :
    m.store.field? object name = lastStored? past object name := by
  induction history with
  | fresh => exact Store.field?_eq_none (Nat.zero_le _) name
  | next before place ih => rw [before.grounded.field?_step place, lastStored?_cons, ih]
  | more _ _ ih => exact ih

/-- The classes are those that were declared. -/
theorem store_declared (history : History sink past m) : m.store.Declared (declared past) := by
  induction history with
  | fresh => exact .initial
  | next before place ih =>
    rw [declared_cons]
    exact before.grounded.declared_step place ih
  | more _ _ ih => exact ih

/-- A run from a machine with a history adds its machines to that. -/
theorem iterate (history : History sink past m) (place : UseId → Place) (n : Nat) :
    History sink (((List.range n).map fun k => (step place)^[k] m).reverse ++ past) ((step place)^[n] m) := by
  induction n with
  | zero => exact history
  | succ n ih =>
    rw [List.range_succ, List.map_append, List.reverse_append, List.append_assoc, Function.iterate_succ_apply']
    exact .next ih place

end History

/-! ## Taking a property -/

variable {object other : InstanceId} {found : Instance} {name : Token}

/-- A field is given if there is one. -/
theorem giveProperty_of_field {v : Value} (there : m.store.instances[object]? = some found)
    (field : m.store.field? object name.lexeme = some v) : m.giveProperty object name = m.give v := by
  rw [Store.field?, there, Option.bind_some] at field
  simp only [giveProperty, there, field]

/-- Otherwise a method that is found is bound. -/
theorem giveProperty_of_method {f : Closure} (there : m.store.instances[object]? = some found)
    (noField : m.store.field? object name.lexeme = none)
    (method : (m.store.findMethod? found.cls name.lexeme).map (m.store.closures[·]?) = some (some f)) :
    m.giveProperty object name = m.giveBound f object := by
  rw [Store.field?, there, Option.bind_some] at noField
  obtain ⟨id, hid, hf⟩ := Option.map_eq_some_iff.1 method
  simp only [giveProperty, giveMethod, there, noField, hid, hf]
  rfl

/-- Otherwise it fails. -/
theorem giveProperty_of_none (there : m.store.instances[object]? = some found)
    (noField : m.store.field? object name.lexeme = none) (noMethod : m.store.findMethod? found.cls name.lexeme = none) :
    m.giveProperty object name = m.fail (.undefinedProperty name.lexeme) name := by
  rw [Store.field?, there, Option.bind_some] at noField
  simp only [giveProperty, there, noField, noMethod]

/-- A field of one instance makes no difference to a method that is bound to another. -/
theorem giveMethod_setField (m : Machine) (object other : InstanceId) (field : String) (v : Value) (method : ClosureId)
    (name : Token) :
    { m with store := m.store.setField object field v }.giveMethod method other name =
      { m.giveMethod method other name with
        store := (m.giveMethod method other name).store.setField object field v } := by
  unfold giveMethod
  dsimp only [Store.setField]
  cases m.store.closures[method]? with
  | none => rfl
  | some f => rfl

/-- Nor to any other property. -/
theorem giveProperty_setField (ne : other ≠ object) (m : Machine) (field : String) (v : Value) (name : Token) :
    { m with store := m.store.setField object field v }.giveProperty other name =
      { m.giveProperty other name with store := (m.giveProperty other name).store.setField object field v } := by
  unfold giveProperty
  dsimp only
  rw [Store.getElem?_setField_of_ne ne]
  cases m.store.instances[other]? with
  | none => rfl
  | some found =>
    have classes : (m.store.setField object field v).classes = m.store.classes := rfl
    dsimp only
    rw [Store.findMethod?_congr classes]
    cases found.fields.get? name.lexeme with
    | some v => rfl
    | none =>
      cases m.store.findMethod? found.cls name.lexeme with
      | none => rfl
      | some method => exact giveMethod_setField m object other field v method name

/--
At every moment of every run each instance has a class with its declaration and those above it, and a property of the
instance is what was stored last in a field of the name. If nothing was stored it is a new function, the method of the
nearest declaration that has one, bound to the instance; without a method it is an error and nothing changes. And a
step that stores a field of one instance changes neither what is found for a class nor what is done for a property of
another instance.
-/
theorem History.property_lookup (history : History sink past m) :
    (∀ object found, m.store.instances[object]? = some found → ∃! ds, Lineage (declared past) found.cls ds ∧
      ∀ (name : Token) (frames : List Frame) (place : UseId → Place),
        let after := (m.atProperty object name frames).step place
        (∀ v, lastStored? past object name.lexeme = some v → after = { m with frames }.give v) ∧
        (lastStored? past object name.lexeme = none →
          (∀ f, ds.findSome? (·.method? name.lexeme) = some f → after = { m with frames }.giveBound f object) ∧
          (ds.findSome? (·.method? name.lexeme) = none →
            after = { m with frames }.fail (.undefinedProperty name.lexeme) name)) ∧
        (RuntimeFault.undefinedProperty name.lexeme).message = "Undefined property '" ++ name.lexeme ++ "'.") ∧
    ∀ object field v, m.setting? = some (object, field, v) → ∀ place : UseId → Place,
      (∀ cls name, (m.step place).store.findMethod? cls name = m.store.findMethod? cls name) ∧
      ∀ (other : InstanceId) (name : Token) (frames : List Frame), other ≠ object →
        let before := (m.atProperty other name frames).step place
        ((m.step place).atProperty other name frames).step place =
          { before with store := before.store.setField object field v } := by
  refine ⟨fun object found there => ?_, fun object field v setting place => ?_⟩
  · have cls : found.cls < m.store.classes.size := (history.grounded.store.instances object found there).1
    obtain ⟨ds, lineage⟩ := history.store_declared.exists_lineage history.grounded.store found.cls cls
    refine ⟨ds, ⟨lineage, fun name frames place => ?_⟩, fun ds' h => lineage.unique h.1⟩
    -- what the store has under the name comes from the history
    have field := history.field?_eq object name.lexeme
    have search := history.store_declared.findMethod? history.grounded.store cls lineage name.lexeme
    refine ⟨fun v stored => ?_, fun noField => ⟨fun f method => ?_, fun noMethod => ?_⟩, rfl⟩
    · exact giveProperty_of_field (m := { m with frames }) there (field.trans stored)
    · rw [method] at search
      exact giveProperty_of_method (m := { m with frames }) there (field.trans noField) search
    · rw [noMethod] at search
      exact giveProperty_of_none (m := { m with frames }) there (field.trans noField) (Option.map_eq_none_iff.1 search)
  · obtain ⟨rest, step⟩ := step_setting place setting
    rw [step]
    refine ⟨Store.findMethod?_congr rfl, fun other name frames ne => ?_⟩
    exact giveProperty_setField ne { m with frames } field v name

/-- An instance whose class declares a method twice and inherits another one, after a field was stored through a second
variable and the name of the class came to mean another class. -/
theorem History.property_lookup_redeclared : ∃ past m found, History .unlimited past m ∧
    m.store.instances[0]? = some found ∧ (declared past).length = 3 ∧ found.cls = 1 ∧
    let after (name : String) := (m.atProperty 0 ⟨.identifier, name, none, 1⟩ []).step fun _ => .globals
    after "x" = { m with frames := [] }.give (.bool true) ∧
    (∃ f, after "m" = { m with frames := [] }.giveBound f 0 ∧ f.routine.body.length = 1) ∧
    (∃ f, after "k" = { m with frames := [] }.giveBound f 0 ∧ f.routine.parameters.length = 2) ∧
    after "y" = { m with frames := [] }.fail (.undefinedProperty "y") ⟨.identifier, "y", none, 1⟩ := by
  obtain ⟨statements, hs⟩ : ∃ statements : List Stmt, statements = (parse (scan
      "class A \x7b m() \x7b\x7d k(a, b) \x7b\x7d \x7d class B < A \x7b m() \x7b\x7d m() \x7b return 1; \x7d \x7d var b = B(); var c = b; class B \x7b\x7d c.x = true;").tokens).statements :=
    ⟨_, rfl⟩
  have begun : History .unlimited [] ((initial .unlimited).load statements) := .more .fresh statements
  obtain ⟨past, hp⟩ : ∃ past, past =
      ((List.range 40).map fun k => (step fun _ => .globals)^[k] ((initial .unlimited).load statements)).reverse ++ [] :=
    ⟨_, rfl⟩
  obtain ⟨m, hm⟩ : ∃ m, m = (step fun _ => .globals)^[40] ((initial .unlimited).load statements) := ⟨_, rfl⟩
  have history : History .unlimited past m := hp ▸ hm ▸ begun.iterate (fun _ => .globals) 40
  have ran : m.store.instances[0]?.any (fun found => decide (found.cls = 1)) = true ∧ (declared past).length = 3 ∧
      (declared past)[0]?.any (fun d => decide (d.superclass = none) &&
        (d.method? "k").any (fun f => decide (f.routine.parameters.length = 2)) && (d.method? "y").isNone) = true ∧
      (declared past)[1]?.any (fun d => decide (d.superclass = some 0) &&
        (d.method? "m").any (fun f => decide (f.routine.body.length = 1)) && (d.method? "k").isNone &&
        (d.method? "y").isNone) = true ∧
      lastStored? past 0 "x" = some (.bool true) ∧ lastStored? past 0 "m" = none ∧ lastStored? past 0 "k" = none ∧
      lastStored? past 0 "y" = none := by
    rw [hp, hm, hs]
    decide +kernel
  obtain ⟨instance_, length, root, own, x, noM, noK, noY⟩ := ran
  obtain ⟨found, there, cls⟩ := (Option.any_eq_true _ _).1 instance_
  obtain ⟨d₀, declared₀, root⟩ := (Option.any_eq_true _ _).1 root
  obtain ⟨d₁, declared₁, own⟩ := (Option.any_eq_true _ _).1 own
  simp only [Bool.and_eq_true, decide_eq_true_eq, Option.isNone_iff_eq_none, and_assoc] at cls root own
  obtain ⟨none₀, k, y₀⟩ := root
  obtain ⟨link, own, k₁, y₁⟩ := own
  obtain ⟨f, hf, parameters⟩ := (Option.any_eq_true _ _).1 k
  obtain ⟨g, hg, body⟩ := (Option.any_eq_true _ _).1 own
  obtain ⟨ds, ⟨lineage, lookup⟩, -⟩ := history.property_lookup.1 0 found there
  have chain : Lineage (declared past) found.cls [d₁, d₀] := cls ▸ .cons declared₁ link (.root declared₀ none₀)
  obtain rfl := lineage.unique chain
  have at_ (name : String) := lookup ⟨.identifier, name, none, 1⟩ [] fun _ => .globals
  refine ⟨past, m, found, history, there, length, cls, (at_ "x").1 _ x, ⟨g, ((at_ "m").2.1 noM).1 g ?_, ?_⟩,
    ⟨f, ((at_ "k").2.1 noK).1 f ?_, ?_⟩, ((at_ "y").2.1 noY).2 ?_⟩
  · rw [List.findSome?_cons, hg]
  · exact of_decide_eq_true body
  · rw [List.findSome?_cons, k₁, List.findSome?_singleton, hf]
  · exact of_decide_eq_true parameters
  · rw [List.findSome?_cons, y₁, List.findSome?_singleton, y₀]

end Machine

end Lox
