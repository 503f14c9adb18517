/-
The call of a class makes an instance and sets it up. It is refused, or the class has no `init` and nothing runs, or the
`init` that is found for the class runs once, bound to the new instance (`Program.Constructs`). And whatever the body of an
`init` does, a call of it that does not fail gives the instance to which it was bound (`Program.construction`).
-/
import Lox.Proofs.Machine.Active
import Lox.Proofs.Machine.Bodies
import Lox.Proofs.Program.Words
import Lox.Proofs.Store.Named

namespace Lox

namespace Machine

/-- The machine on which the initializer of a new instance begins. -/
def settingUp (m : Machine) (cls : ClassId) (initializer : Closure) (arguments : List Value) : Machine :=
  let object := m.store.nextInstance
  let (store, bound) := (m.store.addInstance ⟨cls, .empty⟩).boundTo initializer object
  { m with store, frames := .construct object :: m.frames }.enter bound arguments

/-- How a step gets the method `init` of an instance: as a property of the instance that is no field, or by `super`. -/
inductive Asks (place : UseId → Place) (m : Machine) (object : InstanceId) : Prop
  | property {name : Token} {rest : List Frame} {found : Instance} (control : m.control = .value (.object object))
    (frames : m.frames = .property name :: rest) (named : name.lexeme = initializerName)
    (there : m.store.instances[object]? = some found) (noField : found.fields.get? initializerName = none)
  | super {use : UseId} {keyword name : Token} {parent : ClassId} (control : m.control = .eval (.super use keyword name))
    (named : name.lexeme = initializerName) (parts : m.superParts? (place use) = some (parent, object))

variable {place : UseId → Place} {m : Machine} {object : InstanceId} {cls : ClassId} {f c : ClosureId}

/-! ## Calls of classes -/

theorem construct_of_none (h : m.store.findInitializer? cls = none) (arguments : List Value) :
    m.construct cls arguments =
      { m with
        control := .value (.object m.store.nextInstance)
        store := m.store.addInstance ⟨cls, .empty⟩ } := by
  unfold construct
  rw [h]
  rfl

theorem construct_of_some {init : Closure} (h : m.store.findInitializer? cls = some f)
    (method : m.store.closures[f]? = some init) (arguments : List Value) :
    m.construct cls arguments = m.settingUp cls init arguments := by
  unfold construct
  rw [h, Option.bind_some, method]
  rfl

/-- The call of a class that takes as many arguments as its initializer, if there is room for one more call. -/
theorem call_cls (m : Machine) (paren : Token) (cls : ClassId) (arguments : List Value) :
    (arguments.length ≠ m.store.classArity cls ∧
      m.call paren (.cls cls) arguments = m.fail (.wrongArgumentCount (m.store.classArity cls) arguments.length) paren) ∨
    (callLimit ≤ m.depth ∧ m.call paren (.cls cls) arguments = m.fail .stackOverflow paren) ∨
    (arguments.length = m.store.classArity cls ∧
      m.call paren (.cls cls) arguments = m.activate.construct cls arguments) := by
  unfold call guardCall
  dsimp only
  split
  · next wrong => exact .inl ⟨wrong, rfl⟩
  · next right =>
    split
    · next full => exact .inr (.inl ⟨full, rfl⟩)
    · exact .inr (.inr ⟨not_not.1 right, rfl⟩)

/-! ## Initializers that are asked for -/

/-- What is found for a class as its initializer is one. -/
theorem initializer_of_find (named : m.store.Named) (found : m.store.findMethod? cls initializerName = some f) :
    ∃ method, m.store.closures[f]? = some method ∧ method.initializer = true := by
  have own := named.isMethod_of_findMethod? found
  have ⟨r, scope, there, _⟩ := own
  exact ⟨_, there, (own.initializer_iff there).2 rfl⟩

theorem initializes_giveMethod (named : m.store.Named) (found : m.store.findMethod? cls initializerName = some f)
    {name : Token} (given : (m.giveMethod f object name).control = .value (.closure c)) :
    ∃ g, (m.giveMethod f object name).store.closures[c]? = some g ∧
      (m.giveMethod f object name).store.Initializes g object := by
  obtain ⟨method, there, initializer⟩ := initializer_of_find named found
  unfold giveMethod at given ⊢
  rw [there] at given ⊢
  cases given
  exact ⟨_, Array.getElem?_push_size, Store.initializes_boundTo initializer⟩

/-- A step that gets the method `init` of an instance gives a function that is bound to the instance. -/
theorem Asks.initializes (asks : m.Asks place object) (named : m.store.Named)
    (given : (m.step place).control = .value (.closure c)) :
    ∃ g, (m.step place).store.closures[c]? = some g ∧ (m.step place).store.Initializes g object := by
  cases asks with
  | @property name rest found control frames own there noField =>
    rw [step_value control frames] at given ⊢
    simp only [receive, giveProperty, there, own, noField] at given ⊢
    cases hf : m.store.findMethod? found.cls initializerName with
    | none =>
      rw [hf] at given
      cases given
    | some f =>
      rw [hf] at given
      exact initializes_giveMethod (m := { m with frames := rest }) named hf given
  | @super use keyword name parent control own parts =>
    rw [step_eval control] at given ⊢
    simp only [evaluate, giveSuper, parts, own] at given ⊢
    cases hf : m.store.findMethod? parent initializerName with
    | none =>
      rw [hf] at given
      cases given
    | some f =>
      rw [hf] at given
      exact initializes_giveMethod named hf given

/-- The instance of which a property is taken in the next step, if one is, and the name of the property. -/
def taking? (m : Machine) : Option (InstanceId × Token) :=
  match m.control, m.frames with
  | .value (.object object), .property name :: _ => some (object, name)
  | _, _ => none

theorem asks_of_taking? {name : Token} {found : Instance} (h : m.taking? = some (object, name))
    (named : name.lexeme = initializerName) (there : m.store.instances[object]? = some found)
    (noField : found.fields.get? initializerName = none) : m.Asks place object := by
  unfold taking? at h
  split at h
  · next hc hf =>
    cases h
    exact .property hc hf named there noField
  · cases h

/-- The function that a machine has, if it has one. -/
def function? (m : Machine) : Option ClosureId :=
  match m.control with
  | .value (.closure c) => some c
  | _ => none

theorem function?_eq (h : m.function? = some c) : m.control = .value (.closure c) := by
  unfold function? at h
  split at h
  · next hc =>
    cases h
    exact hc
  · cases h

end Machine

namespace Program

/-- The call that is made after `n` steps has a result after `e` steps, and not before. -/
structure Ends (p : Program) (sink : Sink) (n e : Nat) : Prop where
  later : n < e
  busy : ∀ t, n < t → t < e → ¬ (p.after sink t).IsBack (p.after sink n).frames.tail
  back : (p.after sink e).IsBack (p.after sink n).frames.tail

/-- What the call of a class that is made after `n` steps does. -/
inductive Constructs (p : Program) (sink : Sink) (n : Nat) (paren : Token) (cls : ClassId) (arguments : List Value) : Prop
  /-- The arguments are too few or too many, or too many calls are active. -/
  | refused (fault : RuntimeFault) (fails : p.after sink (n + 1) = (p.after sink n).popped.fail fault paren)
    (why : fault = .wrongArgumentCount ((p.after sink n).store.classArity cls) arguments.length ∧
        arguments.length ≠ (p.after sink n).store.classArity cls ∨
      fault = .stackOverflow ∧ callLimit ≤ (p.after sink n).depth)
  /-- There is no `init`. The instance is made in one step, and the next one ends the call. -/
  | bare (none : (p.after sink n).store.findInitializer? cls = none) (empty : arguments = [])
    (made : p.after sink (n + 1) =
      { (p.after sink n).popped.activate with
        control := .value (.object (p.after sink n).store.nextInstance)
        store := (p.after sink n).store.addInstance ⟨cls, .empty⟩ })
    (ends : p.Ends sink n (n + 2))
  /-- The `init` that is found begins, bound to the instance. The frames on which its body runs stay where they are until it
  has ended, and then the call ends in three steps, one for each of them. -/
  | runs (f : ClosureId) (init : Closure) (found : (p.after sink n).store.findInitializer? cls = some f)
    (method : (p.after sink n).store.closures[f]? = some init) (initializer : init.initializer = true)
    (arity : arguments.length = init.arity)
    (begun : p.after sink (n + 1) = (p.after sink n).popped.activate.settingUp cls init arguments)
    (once : ∀ e, p.Ends sink n e → ∃ k, n < k ∧ e = k + 3 ∧
      (∀ t, n < t → t ≤ k → (p.after sink (n + 1)).frames.tail <:+ (p.after sink t).frames) ∧
      (p.after sink k).frames = (p.after sink (n + 1)).frames.tail)

theorem named_after (p : Program) (sink : Sink) (n : Nat) : (p.after sink n).store.Named := by
  have start : Store.naming.Kept [] (Machine.start sink p.statements) :=
    Upkeep.kept_of_forall Store.named_initial fun _ _ => trivial
  exact (Upkeep.leads_iterate_nil _ start n).2.order

variable {p : Program} {sink : Sink} {n e t : Nat}

/-! ## Ends of calls -/

namespace Ends

variable (ends : p.Ends sink n e)
include ends

/-- A call has not ended when more is left to do than after it. -/
theorem lt_of_longer (le : t ≤ e) (longer : (p.after sink n).frames.tail.length < (p.after sink t).frames.length) :
    t < e := by
  refine Nat.lt_of_le_of_ne le ?_
  rintro rfl
  rw [ends.back.1] at longer
  exact Nat.lt_irrefl _ longer

/-- A call that fails at once has ended. -/
theorem of_fails {fault : RuntimeFault} {site : Token}
    (fails : p.after sink (n + 1) = (p.after sink n).popped.fail fault site) :
    ∃ e', (p.after sink e).control = .failed e' := by
  have later := ends.later
  obtain rfl : e = n + 1 := by
    by_contra other
    refine ends.busy (n + 1) (Nat.lt_succ_self n) (by omega) ?_
    rw [fails]
    exact ⟨rfl, rfl⟩
  rw [fails]
  exact ⟨_, rfl⟩

/-- With the frame of the call the call ends. -/
theorem of_leave (after : n < t) (before : t < e)
    (frames : (p.after sink t).frames = .leave :: (p.after sink n).frames.tail) (answers : (p.after sink t).Answers) :
    e = t + 1 ∧ (p.after sink e).control = (p.after sink t).control := by
  have step := (p.after_succ sink t).trans (Machine.step_of_leave frames answers)
  have back : (p.after sink (t + 1)).IsBack (p.after sink n).frames.tail := by
    rw [step]
    exact ⟨rfl, answers.hasResult⟩
  obtain rfl : e = t + 1 := by
    by_contra other
    exact ends.busy (t + 1) (by omega) (by omega) back
  exact ⟨rfl, by rw [step]⟩

/-- A body that is entered above the frames of a call has ended before the call. -/
theorem exists_body {m : Machine} {closure : Closure} {arguments : List Value}
    (begun : p.after sink (n + 1) = m.enter closure arguments)
    (above : (p.after sink n).frames.tail.length ≤ m.frames.length) :
    ∃ k, n < k ∧ k < e ∧ (∀ t, n < t → t ≤ k → .body closure m.scope :: m.frames <:+ (p.after sink t).frames) ∧
      (p.after sink k).frames = .body closure m.scope :: m.frames ∧ (p.after sink (k + 1)).frames = m.frames ∧
      ((∃ c, (p.after sink (k + 1)).control = .value (Machine.bodyValue (p.after sink k).store closure c)) ∨
        ∃ e, (p.after sink (k + 1)).control = .failed e) := by
  have run (j : Nat) : (Machine.step p.table.place)^[j] (m.enter closure arguments) = p.after sink (n + 1 + j) := by
    rw [after_add, begun]
  obtain ⟨d, hd⟩ := Nat.exists_eq_add_of_lt ends.later
  have gone : ((Machine.step p.table.place)^[d] (m.enter closure arguments)).frames.length ≤ m.frames.length := by
    have last : n + 1 + d = e := by omega
    rw [run, last, ends.back.1]
    exact above
  obtain ⟨k, lt, stays, r, hr, frames, gives⟩ := Machine.exists_end_of_enter m closure arguments gone
  rw [run] at hr
  subst hr
  rw [← after_succ] at gives
  refine ⟨n + 1 + k, by omega, by omega, fun t after le => ?_, frames, ?_, ?_⟩
  · obtain ⟨j, rfl⟩ := Nat.exists_eq_add_of_lt after
    have same : n + j + 1 = n + 1 + j := by omega
    rw [same, ← run]
    exact stays j (by omega)
  · rcases gives with ⟨c, step⟩ | ⟨e, step⟩
    · rw [step]
    · rw [step]
  · rcases gives with ⟨c, step⟩ | ⟨e, step⟩
    · exact .inl ⟨c, by rw [step]⟩
    · exact .inr ⟨e, by rw [step]⟩

/-- The call of an initializer ends with its instance, or fails. -/
theorem of_enter {source : String} (accepted : Program.ofSource source = .ok p) {m : Machine} {closure : Closure}
    {arguments : List Value} {object : InstanceId} (begun : p.after sink (n + 1) = m.enter closure arguments)
    (frames : m.frames = .leave :: (p.after sink n).frames.tail) (init : m.store.Initializes closure object) :
    (∃ e', (p.after sink e).control = .failed e') ∨ (p.after sink e).control = .value (.object object) := by
  have above : (p.after sink n).frames.tail.length ≤ m.frames.length := by
    rw [frames]
    exact Nat.le_succ _
  obtain ⟨k, after, before, -, -, next, gives⟩ := ends.exists_body begun above
  rw [frames] at next
  have longer : (p.after sink n).frames.tail.length < (p.after sink (k + 1)).frames.length := by
    rw [next]
    exact Nat.lt_succ_self _
  have before := ends.lt_of_longer before longer
  rcases gives with ⟨c, control⟩ | ⟨e', control⟩
  · obtain ⟨-, same⟩ := ends.of_leave (Nat.lt_succ_of_lt after) before next (.inl ⟨_, control⟩)
    -- the word of the instance is what it was when the body began
    have entered : (p.after sink (n + 1)).store.Initializes closure object := by
      rw [begun]
      exact init.later (Store.writes_addScope _ _)
    have init := entered.later (writes_after accepted sink (Nat.succ_le_of_lt after))
    rw [init.bodyValue] at control
    exact .inr (same.trans control)
  · obtain ⟨-, same⟩ := ends.of_leave (Nat.lt_succ_of_lt after) before next (.inr ⟨_, control⟩)
    exact .inl ⟨e', same.trans control⟩

/-- So does a call of a function that has been bound before. -/
theorem of_initializer {source : String} (accepted : Program.ofSource source = .ok p) {paren : Token} {c : ClosureId}
    {arguments : List Value} {g : Closure} {object : InstanceId}
    (calling : (p.after sink n).calling? = some (paren, .closure c, arguments))
    (there : (p.after sink n).store.closures[c]? = some g) (init : (p.after sink n).store.Initializes g object) :
    (∃ e', (p.after sink e).control = .failed e') ∨ (p.after sink e).control = .value (.object object) := by
  have step := (p.after_succ sink n).trans (Machine.step_calling calling)
  by_cases arity : (p.after sink n).popped.store.arity? (.closure c) = some arguments.length
  · rw [Machine.call_of_arity arity] at step
    split at step
    · exact .inl (ends.of_fails step)
    · have there : (p.after sink n).popped.activate.store.closures[c]? = some g := there
      simp only [Machine.launch, there] at step
      exact ends.of_enter accepted step rfl init
  · obtain ⟨fault, fails⟩ := Machine.call_of_not_arity arity paren
    exact .inl (ends.of_fails (step.trans fails))

/-- When a body has ended that runs for a new instance, the frames of the instance and of the call are left. -/
theorem of_construct {m : Machine} {closure : Closure} {arguments : List Value} {object : InstanceId}
    (begun : p.after sink (n + 1) = m.enter closure arguments)
    (frames : m.frames = .construct object :: .leave :: (p.after sink n).frames.tail) :
    (∃ k, n < k ∧ e = k + 3 ∧
      (∀ t, n < t → t ≤ k → (p.after sink (n + 1)).frames.tail <:+ (p.after sink t).frames) ∧
      (p.after sink k).frames = (p.after sink (n + 1)).frames.tail) ∧
    ((∃ e', (p.after sink e).control = .failed e') ∨ (p.after sink e).control = .value (.object object)) := by
  have above : (p.after sink n).frames.tail.length ≤ m.frames.length := by
    rw [frames]
    exact Nat.le_add_right _ 2
  obtain ⟨k, after, before, stays, last, first, gives⟩ := ends.exists_body begun above
  have body : (p.after sink (n + 1)).frames.tail = .body closure m.scope :: m.frames := by
    rw [begun]
    rfl
  rw [← body] at stays last
  rw [frames] at first
  have before := ends.lt_of_longer before (t := k + 1) (by rw [first]; exact Nat.lt_add_of_pos_right Nat.two_pos)
  have answers : (p.after sink (k + 1)).Answers := gives.imp (fun ⟨_, h⟩ => ⟨_, h⟩) id
  obtain ⟨second, outcome⟩ : (p.after sink (k + 2)).frames = .leave :: (p.after sink n).frames.tail ∧
      ((∃ e', (p.after sink (k + 2)).control = .failed e') ∨ (p.after sink (k + 2)).control = .value (.object object)) := by
    rw [after_succ]
    rcases Machine.step_of_construct first answers with ⟨e', failed, step⟩ | step
    · rw [step]
      exact ⟨rfl, .inl ⟨e', failed⟩⟩
    · rw [step]
      exact ⟨rfl, .inr rfl⟩
  have before := ends.lt_of_longer (t := k + 2) before (by rw [second]; exact Nat.lt_succ_self _)
  have answers : (p.after sink (k + 2)).Answers := outcome.symm.imp (fun h => ⟨_, h⟩) id
  obtain ⟨third, same⟩ := ends.of_leave (by omega) before second answers
  refine ⟨⟨k, after, third, stays, last⟩, ?_⟩
  rw [same]
  exact outcome

end Ends

/-! ## Calls of classes in a run -/

section

variable {paren : Token} {cls : ClassId} {arguments : List Value}

/-- The three ways in which the call of a class goes. -/
theorem constructs (calling : (p.after sink n).calling? = some (paren, .cls cls, arguments)) :
    p.Constructs sink n paren cls arguments := by
  have step := (p.after_succ sink n).trans (Machine.step_calling calling)
  rcases (p.after sink n).popped.call_cls paren cls arguments with ⟨wrong, h⟩ | ⟨full, h⟩ | ⟨right, h⟩
  · exact .refused _ (step.trans h) (.inl ⟨rfl, wrong⟩)
  · exact .refused _ (step.trans h) (.inr ⟨rfl, full⟩)
  · rw [h] at step
    have right : arguments.length = (p.after sink n).store.classArity cls := right
    unfold Store.classArity at right
    cases found : (p.after sink n).store.findInitializer? cls with
    | none =>
      rw [found] at right
      rw [Machine.construct_of_none (m := (p.after sink n).popped.activate) found] at step
      refine .bare found (List.length_eq_zero_iff.1 right) step ⟨by omega, fun t after before => ?_, ?_⟩
      · obtain rfl : t = n + 1 := by omega
        rw [step]
        exact fun back => absurd (congrArg List.length back.1) (Nat.succ_ne_self _)
      · rw [after_succ, step]
        exact ⟨rfl, rfl⟩
    | some f =>
      obtain ⟨init, method, initializer⟩ := Machine.initializer_of_find (p.named_after sink n) found
      rw [found, Option.bind_some, method] at right
      rw [Machine.construct_of_some (m := (p.after sink n).popped.activate) found method] at step
      exact .runs f init found method initializer right step fun e ends => (ends.of_construct step rfl).1

/-- The call of a class gives a new instance of the class, or fails. -/
theorem Constructs.result (constructs : p.Constructs sink n paren cls arguments) (ends : p.Ends sink n e) :
    (∃ e', (p.after sink e).control = .failed e') ∨
      (p.after sink e).control = .value (.object (p.after sink n).store.nextInstance) ∧
        ∃ fields, (p.after sink e).store.instances[(p.after sink n).store.nextInstance]? = some ⟨cls, fields⟩ := by
  have stays (there : (p.after sink (n + 1)).store.instances[(p.after sink n).store.nextInstance]? = some ⟨cls, .empty⟩) :
      ∃ fields, (p.after sink e).store.instances[(p.after sink n).store.nextInstance]? = some ⟨cls, fields⟩ := by
    obtain ⟨d, rfl⟩ := Nat.exists_eq_add_of_le (Nat.succ_le_of_lt ends.later)
    have ages := Machine.ages_iterate p.table.place (p.after sink (n + 1)) d
    rw [← after_add] at ages
    exact ages.instances _ _ there
  cases constructs with
  | refused fault fails why =>
    exact .inl (ends.of_fails fails)
  | bare none empty made _ =>
    have left : (p.after sink (n + 1)).frames = .leave :: (p.after sink n).frames.tail := by
      rw [made]
      rfl
    have before := ends.lt_of_longer (Nat.succ_le_of_lt ends.later) (by rw [left]; exact Nat.lt_succ_self _)
    obtain ⟨-, same⟩ := ends.of_leave (Nat.lt_succ_self n) before left (.inl ⟨_, by rw [made]⟩)
    refine .inr ⟨by rw [same, made], stays ?_⟩
    rw [made]
    exact Array.getElem?_push_size
  | runs f init found method initializer arity begun once =>
    rcases (ends.of_construct begun rfl).2 with failed | given
    · exact .inl failed
    · refine .inr ⟨given, stays ?_⟩
      rw [begun]
      exact Array.getElem?_push_size

end

/-- In a run of an accepted program, a call of a class is refused, or it runs no code, or it runs the `init` that is found for
the class once, bound to a new instance and with as many arguments as it has parameters. When the call has a
result, this is a failure or the new instance, which has the class and was not there before. And a call of the method
`init` of an instance, which was got from it or by `super`, gives this instance or fails. -/
theorem construction {source : String} {program : Program} (accepted : Program.ofSource source = .ok program)
    (sink : Sink) (n : Nat) :
    (∀ paren cls arguments, (program.after sink n).calling? = some (paren, .cls cls, arguments) →
      program.Constructs sink n paren cls arguments ∧
      ∀ e, program.Ends sink n e → (∃ failure, (program.after sink e).control = .failed failure) ∨
        ∃ object fields, (program.after sink e).control = .value (.object object) ∧
          ¬ (program.after sink n).store.Contains (.object object) ∧
          (program.after sink e).store.instances[object]? = some ⟨cls, fields⟩) ∧
    ∀ a object c paren arguments e, a < n → (program.after sink a).Asks program.table.place object →
      (program.after sink (a + 1)).control = .value (.closure c) →
      (program.after sink n).calling? = some (paren, .closure c, arguments) → program.Ends sink n e →
        (∃ failure, (program.after sink e).control = .failed failure) ∨
          (program.after sink e).control = .value (.object object) := by
  refine ⟨fun paren cls arguments calling => ?_, fun a object c paren arguments e before asks given calling ends => ?_⟩
  · have constructs := program.constructs calling
    refine ⟨constructs, fun e ends => (constructs.result ends).imp id ?_⟩
    rintro ⟨value, fields, there⟩
    exact ⟨_, fields, value, Nat.lt_irrefl _, there⟩
  · obtain ⟨g, there, init⟩ := asks.initializes (program.named_after sink a) (by rw [← after_succ]; exact given)
    rw [← after_succ] at there init
    have writes := writes_after accepted sink (Nat.succ_le_of_lt before)
    exact ends.of_initializer accepted calling (writes.closures _ _ there) (init.later writes)

/-- With more left to do in between than after it, and then as much, a call has a result. -/
theorem ends_of_length {call : Token × Value × List Value} (calling : (p.after sink n).calling? = some call)
    (after : n < e) (longer : ∀ t, n < t → t < e → (p.after sink n).frames.tail.length < (p.after sink t).frames.length)
    (length : (p.after sink e).frames.length = (p.after sink n).frames.tail.length)
    (result : (p.after sink e).hasResult = true) : p.Ends sink n e := by
  have busy (t : Nat) (after : n < t) (before : t < e) : ¬ (p.after sink t).IsBack (p.after sink n).frames.tail :=
    Machine.not_isBack_of_length fun _ => longer t after before
  refine ⟨after, busy, ?_⟩
  obtain ⟨d, rfl⟩ := Nat.exists_eq_add_of_le (Nat.succ_le_of_lt after)
  have run (k : Nat) : (Machine.step p.table.place)^[k] ((p.after sink n).step p.table.place) = p.after sink (n + 1 + k) := by
    rw [after_add, after_succ]
  rw [← Nat.succ_eq_add_one] at run
  rw [← run] at length result ⊢
  refine Machine.isBack_of_length calling (fun k hk => ?_) length result
  rw [run]
  exact busy _ (by omega) (by omega)

/-- The `init` of a superclass returns out of a loop, after a call of a function inside it that returns as well. It sets up the
instance of the class that is called, and is called again as a method of the instance. -/
theorem construction_inherited : ∃ program, ofSource
      "class A \x7b init(x) \x7b while (x) \x7b fun f() \x7b return nil; \x7d f(); return; \x7d \x7d \x7d class B < A \x7b \x7d var b = B(true); b.init(true);" =
        .ok program ∧
    let after := program.after .unlimited
    (∃ paren arguments, program.Constructs .unlimited 12 paren 1 arguments) ∧ program.Ends .unlimited 12 42 ∧
      (∃ object fields, (after 42).control = .value (.object object) ∧ ¬ (after 12).store.Contains (.object object) ∧
        (after 42).store.instances[object]? = some ⟨1, fields⟩) ∧
      program.Ends .unlimited 51 80 ∧ (after 80).control = .value (.object 0) := by
  have ran : (ofSource
      "class A \x7b init(x) \x7b while (x) \x7b fun f() \x7b return nil; \x7d f(); return; \x7d \x7d \x7d class B < A \x7b \x7d var b = B(true); b.init(true);").toOption.any
      (fun p : Program =>
        (p.after .unlimited 12).calling?.any (fun call => decide (call.2.1 = .cls 1)) &&
        (p.after .unlimited 48).taking?.any (fun asked => decide (asked.1 = 0 ∧ asked.2.lexeme = initializerName)) &&
        (p.after .unlimited 48).store.instances[0]?.any (fun found => decide (found.fields.get? initializerName = none)) &&
        decide ((p.after .unlimited 49).function? = some 2) &&
        (p.after .unlimited 51).calling?.any (fun call => decide (call.2.1 = .closure 2)) &&
        decide ((p.after .unlimited 12).frames.tail.length = 2 ∧ (p.after .unlimited 42).frames.length = 2) &&
        decide ((p.after .unlimited 51).frames.tail.length = 2 ∧ (p.after .unlimited 80).frames.length = 2) &&
        decide (∀ k : Nat, k < 29 → 2 < (p.after .unlimited (13 + k)).frames.length) &&
        decide (∀ k : Nat, k < 28 → 2 < (p.after .unlimited (52 + k)).frames.length) &&
        decide ((p.after .unlimited 42).hasResult = true ∧ (p.after .unlimited 80).hasResult = true) &&
        (p.after .unlimited 42).failure?.isNone && (p.after .unlimited 80).failure?.isNone) = true := by
    decide +kernel
  obtain ⟨program, accepted, ran⟩ := exists_ofSource ran
  simp only [Bool.and_eq_true, decide_eq_true_eq, and_assoc] at ran
  obtain ⟨class_, asked, made, given, again, below₁, back₁, below₂, back₂, busy₁, busy₂, result₁, result₂, success₁,
    success₂⟩ := ran
  obtain ⟨⟨paren₁, _, arguments₁⟩, calling₁, callee₁⟩ := (Option.any_eq_true _ _).1 class_
  obtain ⟨⟨_, name⟩, taking, asked⟩ := (Option.any_eq_true _ _).1 asked
  obtain ⟨found, there, noField⟩ := (Option.any_eq_true _ _).1 made
  obtain ⟨⟨paren₂, _, arguments₂⟩, calling₂, callee₂⟩ := (Option.any_eq_true _ _).1 again
  obtain rfl := of_decide_eq_true callee₁
  obtain rfl := of_decide_eq_true callee₂
  obtain ⟨rfl, named⟩ := of_decide_eq_true asked
  have ends₁ : program.Ends .unlimited 12 42 := by
    refine ends_of_length calling₁ (by decide) (fun t after before => ?_) (by rw [below₁, back₁]) result₁
    rw [below₁, ← Nat.add_sub_of_le (Nat.succ_le_of_lt after)]
    exact busy₁ (t - 13) (by omega)
  have ends₂ : program.Ends .unlimited 51 80 := by
    refine ends_of_length calling₂ (by decide) (fun t after before => ?_) (by rw [below₂, back₂]) result₂
    rw [below₂, ← Nat.add_sub_of_le (Nat.succ_le_of_lt after)]
    exact busy₂ (t - 52) (by omega)
  have succeeds {e : Nat} (success : (program.after .unlimited e).failure?.isNone = true) :
      ¬ ∃ failure, (program.after .unlimited e).control = .failed failure := by
    rintro ⟨failure, failed⟩
    rw [Machine.failure?, failed] at success
    cases success
  obtain ⟨constructs, made⟩ := (construction accepted .unlimited 12).1 _ _ _ calling₁
  have asks : (program.after .unlimited 48).Asks program.table.place 0 :=
    Machine.asks_of_taking? taking named there (of_decide_eq_true noField)
  have given := Machine.function?_eq given
  have kept := (construction accepted .unlimited 51).2 48 0 2 _ _ 80 (by decide) asks given calling₂ ends₂
  exact ⟨program, accepted, ⟨_, _, constructs⟩, ends₁, (made 42 ends₁).resolve_left (succeeds success₁), ends₂,
    kept.resolve_left (succeeds success₂)⟩

end Program

end Lox
