/-
What is run touches only what it can reach. From where a task begins, its scope and the global variables and what it is
given, links lead to other things; of those that were there before, the task changes no others, however it ends. So the
variables of a call that has ended are changed only by those who have a function that leads to them, and no two calls
have variables in common (`Machine.touches_reached`).
-/
import Lox.Proofs.Machine.Bodies
import Lox.Proofs.Program.Rooted
import Lox.Proofs.Store.Reach

namespace Lox

/-- What a task brings with it, apart from its code. -/
def Task.Brings : Task → Thing → Prop
  | .body closure arguments, x => x = .scope closure.scope ∨ ∃ v ∈ arguments, v.thing? = some x
  | .call _ callee arguments, x => callee.thing? = some x ∨ ∃ v ∈ arguments, v.thing? = some x
  | .statement _, _ | .expression _, _ | .block _, _ => False

namespace Machine

/-- What a task starts from: the current scope, the global variables, and what it brings. -/
def Sees (m : Machine) (t : Task) (x : Thing) : Prop := x = .scope m.scope ∨ x = .scope Store.globalScope ∨ t.Brings x

/-- What a machine has in hand: the scopes and values that it goes on with, now or later. -/
def Has (m : Machine) (x : Thing) : Prop :=
  x = .scope m.scope ∨ x = .scope Store.globalScope ∨ m.control.Names x ∨ ∃ f ∈ m.frames, f.Names x

/-- Whether the next step goes on in a scope of its own, with a block or with the body of a function that is called. -/
def Opens (place : UseId → Place) (m : Machine) : Prop :=
  (∃ body, m.control = .exec (.block body)) ∨ m.Starts place ∧ ∃ body rest, (m.step place).frames = .sequence body :: rest

variable {place : UseId → Place} {m : Machine} {t : Task} {n : Nat} {x : Thing} {id : ScopeId}

/-! ## Tasks -/

/-- A task that is given fit things keeps them up. -/
theorem leads_begin {u : Upkeep} (order : u.order m.store) (fit : ∀ x, m.Sees t x → u.fit m.store x) :
    u.Leads m.frames m (m.begin t) := by
  have stands : u.Stands m.frames m := ⟨order, fit _ (.inl rfl), .base⟩
  have brings (x : Thing) (hx : t.Brings x) : u.fit m.store x := fit x (.inr (.inr hx))
  cases t with
  | statement s => exact Upkeep.leads_of_stands stands trivial
  | expression e => exact Upkeep.leads_of_stands stands trivial
  | block body => exact Upkeep.leads_execute stands (.block body)
  | body closure arguments =>
    refine Upkeep.leads_enter stands (brings _ (.inl rfl)) fun v hv => Value.all_iff.2 fun x hx => ?_
    exact brings x (.inr ⟨v, hv, hx⟩)
  | call paren callee arguments =>
    refine Upkeep.leads_call stands paren (Value.all_iff.2 fun x hx => brings x (.inl hx)) fun v hv => ?_
    exact Value.all_iff.2 fun x hx => brings x (.inr ⟨v, hv, hx⟩)

/-- A machine that has only fit things in hand keeps them up. -/
theorem kept_of_has {u : Upkeep} (order : u.order m.store) (fit : ∀ x, m.Has x → u.fit m.store x) : u.Kept [] m where
  order := order
  scope := fit _ (.inl rfl)
  frames := Frame.Above.nil_iff.2 fun f hf => Frame.all_iff.2 fun x hx => fit x (.inr (.inr (.inr ⟨f, hf, hx⟩)))
  control := Control.all_iff.2 fun x hx => fit x (.inr (.inr (.inl hx)))

/-- Until it is back, a task changes of what was there only what it reaches. -/
theorem reaches_of_task (busy : ∀ k < n, ¬ ((step place)^[k] (m.begin t)).IsBack m.frames) (there : m.store.Contains x)
    (touched : ¬ m.store.Agrees ((step place)^[n] (m.begin t)).store x) : m.store.Reaches (m.Sees t) x := by
  have start := Store.Confined.of_roots m.store (m.Sees t) (.inr (.inl rfl))
  obtain ⟨-, began⟩ := leads_begin (u := Store.confinement _ m.store) start fun x hx => .inr ⟨x, hx, .refl⟩
  obtain ⟨-, kept⟩ := Upkeep.leads_iterate place began busy
  by_contra unreached
  exact touched (kept.order.same x (not_or.2 ⟨not_not.2 there, unreached⟩))

/-- From any moment on, a machine changes of what was there only what it reaches then. -/
theorem reaches_of_run (there : m.store.Contains x) (touched : ¬ m.store.Agrees ((step place)^[n] m).store x) :
    m.store.Reaches m.Has x := by
  have start := Store.Confined.of_roots m.store m.Has (.inr (.inl rfl))
  have kept := kept_of_has (u := Store.confinement _ m.store) start fun x hx => .inr ⟨x, hx, .refl⟩
  obtain ⟨-, kept⟩ := Upkeep.leads_iterate_nil place kept n
  by_contra unreached
  exact touched (kept.order.same x (not_or.2 ⟨not_not.2 there, unreached⟩))

/-! ## Scopes that are new -/

/-- A scope in which a block or a body runs was not there before. -/
theorem Opens.young (h : m.Opens place) : m.store.scopes.size ≤ (m.step place).scope ∧
    (m.step place).scope < (m.step place).store.scopes.size := by
  have entered (m' : Machine) (closure : Closure) (arguments : List Value) (older : m.store.scopes.size ≤ m'.store.scopes.size)
      (step : m.step place = m'.enter closure arguments) : m.store.scopes.size ≤ (m.step place).scope ∧
        (m.step place).scope < (m.step place).store.scopes.size := by
    rw [step]
    exact ⟨older, Store.nextScope_lt _ _⟩
  rcases h with ⟨body, hc⟩ | ⟨⟨made, success⟩, body, rest, frames⟩
  · obtain ⟨control, fs, scope, depth, store, sink⟩ := m
    cases hc
    exact ⟨Nat.le_refl _, Store.nextScope_lt store ⟨some scope, .empty⟩⟩
  · obtain ⟨⟨paren, callee, arguments⟩, calling⟩ := Option.isSome_iff_exists.1 made
    have step : m.step place = m.popped.call paren callee arguments := step_calling calling
    by_cases arity : m.popped.store.arity? callee = some arguments.length
    · rw [call_of_arity arity] at step
      split at step
      · rw [step] at success
        cases success
      · cases callee with
        | closure f =>
          obtain ⟨closure, found, -⟩ := Option.map_eq_some_iff.1 arity
          have found : m.popped.activate.store.closures[f]? = some closure := found
          simp only [launch, found] at step
          exact entered m.popped.activate closure arguments (Nat.le_refl _) step
        | cls c =>
          simp only [launch, construct] at step
          split at step
          · rw [step] at frames
            cases frames
          · refine entered _ _ arguments ?_ step
            exact Nat.le_of_lt (Store.nextScope_lt _ _)
        | nil | bool _ | number _ | string _ | object _ => cases arity
    · obtain ⟨fault, fails⟩ := call_of_not_arity arity paren
      rw [step, fails] at success
      cases success

/-- Two blocks or bodies never run in one scope. -/
theorem Opens.ne {i j : Nat} (before : i < j) (hi : ((step place)^[i] m).Opens place)
    (hj : ((step place)^[j] m).Opens place) : ((step place)^[i + 1] m).scope ≠ ((step place)^[j + 1] m).scope := by
  have first := hi.young.2
  have second := hj.young.1
  simp only [← Function.iterate_succ_apply' (step place)] at first second
  obtain ⟨d, rfl⟩ := Nat.exists_eq_add_of_le (Nat.succ_le_of_lt before)
  have ages := ages_iterate place ((step place)^[i + 1] m) d
  rw [← Function.iterate_add_apply, Nat.add_comm d] at ages
  exact Nat.ne_of_lt (Nat.lt_of_lt_of_le first (Nat.le_trans ages.size second))

/-! ## Calls that have ended -/

/-- When a call is back, the scope of the caller is current again. -/
theorem scope_of_calling {call : Token × Value × List Value} (calling : m.calling? = some call)
    (busy : ∀ k < n, ¬ ((step place)^[k] (m.step place)).IsBack m.frames.tail)
    (back : ((step place)^[n] (m.step place)).IsBack m.frames.tail) :
    ((step place)^[n] (m.step place)).scope = m.scope := by
  obtain ⟨paren, callee, arguments⟩ := call
  have step : m.step place = m.popped.begin (.call paren callee arguments) := step_calling calling
  rw [step] at busy back ⊢
  exact (restores_begin (m := m.popped) busy back).1

/-- The scopes that were made later are not around one that was there. -/
theorem not_around_of_young (grounded : m.Grounded) {inner : ScopeId} (old : inner < m.store.scopes.size)
    (young : ¬ m.store.Contains (.scope id)) (n : Nat) : ¬ ((step place)^[n] m).store.Around inner id := by
  rintro ⟨k, reach⟩
  have le := (grounded_iterate place grounded n).2.store.rooted.ancestors inner k id reach
  exact young (Nat.lt_of_le_of_lt (Nat.le_of_add_right_le le) old)

/-- What a machine has in hand when a call is back leads only through functions to the scopes of the call. -/
theorem not_around_of_has (grounded : m.Grounded) {call : Token × Value × List Value} (calling : m.calling? = some call)
    (busy : ∀ k < n, ¬ ((step place)^[k] (m.step place)).IsBack m.frames.tail)
    (back : ((step place)^[n] (m.step place)).IsBack m.frames.tail) (young : ¬ m.store.Contains (.scope id))
    {inner : ScopeId} (own : ((step place)^[n] (m.step place)).Has (.scope inner)) :
    ¬ ((step place)^[n] (m.step place)).store.Around inner id := by
  have old : inner < m.store.scopes.size := by
    rcases own with same | same | value | ⟨f, hf, names⟩
    · cases same
      rw [scope_of_calling calling busy back]
      exact grounded.scope
    · cases same
      exact Store.grounding.globals grounded.store
    · generalize ((step place)^[n] (m.step place)).control = control at value
      cases control with
      | value v => exact absurd value (v.thing?_ne_scope inner)
      | finished c =>
        cases c with
        | normal => cases value
        | returned v => exact absurd value (v.thing?_ne_scope inner)
      | exec _ | eval _ | failed _ => cases value
    · rw [back.1] at hf
      have own := Frame.in_iff.1 (grounded.frames f (List.mem_of_mem_tail hf))
      exact Frame.all_iff.1 own _ names
  exact not_around_of_young grounded old young (n + 1)

/-- A task changes, of what was there when it began, only what the current scope, the global variables and what it brings
lead to, up to every moment and however it ends. A scope that is not around its own is changed only if it can reach a
function that leads there. Every block and every body has a scope of its own each time it is run. And when a call is back,
the scopes that were made in it are not around that of the caller, and never will be; they are only ever changed if a
function leads to them that the machine still has in hand. -/
theorem touches_reached (place : UseId → Place) :
    (∀ (m : Machine) (t : Task) (n : Nat), (∀ k < n, ¬ ((step place)^[k] (m.begin t)).IsBack m.frames) →
      ∀ x, m.store.Contains x → ¬ m.store.Agrees ((step place)^[n] (m.begin t)).store x →
        m.store.Reaches (m.Sees t) x ∧
        ∀ id, x = .scope id → (∀ y, ¬ t.Brings y) → ¬ m.store.Around m.scope id →
          ¬ m.store.Around Store.globalScope id →
            ∃ f, m.store.Reaches (m.Sees t) (.closure f) ∧ m.store.Reaches (· = .closure f) (.scope id)) ∧
    (∀ (m : Machine) (i j : Nat), i < j → ((step place)^[i] m).Opens place → ((step place)^[j] m).Opens place →
      ((step place)^[i + 1] m).scope ≠ ((step place)^[j + 1] m).scope) ∧
    ∀ (m : Machine) (call : Token × Value × List Value) (n : Nat), m.Grounded → m.calling? = some call →
      (∀ k < n, ¬ ((step place)^[k] (m.step place)).IsBack m.frames.tail) →
      ((step place)^[n] (m.step place)).IsBack m.frames.tail →
        let r := (step place)^[n] (m.step place)
        r.scope = m.scope ∧ ∀ id, ¬ m.store.Contains (.scope id) → r.store.Contains (.scope id) → ∀ k,
          ¬ ((step place)^[k] r).store.Around m.scope id ∧
          ¬ ((step place)^[k] r).store.Around Store.globalScope id ∧
          (¬ r.store.Agrees ((step place)^[k] r).store (.scope id) →
            ∃ f, r.store.Reaches r.Has (.closure f) ∧ r.store.Reaches (· = .closure f) (.scope id)) := by
  refine ⟨fun m t n busy x there touched => ?_, fun m i j before => Opens.ne before,
    fun m call n grounded calling busy back => ⟨scope_of_calling calling busy back, fun id young there k => ?_⟩⟩
  · have reached := reaches_of_task busy there touched
    refine ⟨reached, ?_⟩
    rintro id rfl bare outside beyond
    refine reached.outside fun inner root => ?_
    rcases root with same | same | brought
    · cases same
      exact outside
    · cases same
      exact beyond
    · exact absurd brought (bare _)
  · have around {inner : ScopeId} (old : inner < m.store.scopes.size) :
        ¬ ((step place)^[k] ((step place)^[n] (m.step place))).store.Around inner id := by
      rw [← Function.iterate_add_apply]
      exact not_around_of_young grounded old young (k + n + 1)
    refine ⟨around grounded.scope, around (Store.grounding.globals grounded.store), fun touched => ?_⟩
    exact (reaches_of_run there touched).outside fun inner own => not_around_of_has grounded calling busy back young own

/-- Whether statements come next. -/
def hasStatements (m : Machine) : Bool :=
  match m.frames with
  | .sequence _ :: _ => true
  | _ => false

/-- Whether a statement starts. -/
def startsStatement (m : Machine) : Bool :=
  match m.control with
  | .exec _ => true
  | _ => false

theorem exists_of_hasStatements (h : m.hasStatements = true) : ∃ body rest, m.frames = .sequence body :: rest := by
  unfold hasStatements at h
  split at h
  · next hf => exact ⟨_, _, hf⟩
  · cases h

theorem exists_of_startsStatement (h : m.startsStatement = true) : ∃ s, m.control = .exec s := by
  unfold startsStatement at h
  split at h
  · next hc => exact ⟨_, hc⟩
  · cases h

theorem not_agrees_of_valueIn? {s s' : Store} (name : String)
    (h : (s'.valueIn? id name).map Value.isTruthy ≠ (s.valueIn? id name).map Value.isTruthy) :
    ¬ s.Agrees s' (.scope id) := by
  intro same
  have same : s'.scopes[id]? = s.scopes[id]? := same
  unfold Store.valueIn? at h
  exact h (by rw [same])

/-- A call leaves a function in a global variable. The call of that function, a statement later, has a scope of its own,
and changes the variable of the first call, which the global variables reach through the function. -/
theorem touches_reached_counter : ∃ program, Program.ofSource
      "var g; fun f() \x7b var i; fun h() \x7b i = true; \x7d g = h; \x7d f(); g();" = .ok program ∧
    let after := program.after .unlimited
    (after 22).scope = (after 8).scope ∧ (after 9).scope ≠ (after 28).scope ∧
      ¬ (after 22).store.Agrees (after 33).store (.scope 1) ∧
      (∃ f, (after 22).store.Reaches (after 22).Has (.closure f) ∧
        (after 22).store.Reaches (· = .closure f) (.scope 1)) ∧
      ∃ s, (after 24).control = .exec s ∧ ∃ f, (after 24).store.Reaches ((after 24).Sees (.statement s)) (.closure f) ∧
        (after 24).store.Reaches (· = .closure f) (.scope 1) := by
  have ran : (Program.ofSource
      "var g; fun f() \x7b var i; fun h() \x7b i = true; \x7d g = h; \x7d f(); g();").toOption.any
      (fun p : Program =>
        (p.after .unlimited 8).calling?.isSome && (p.after .unlimited 27).calling?.isSome &&
        (p.after .unlimited 9).failure?.isNone && (p.after .unlimited 28).failure?.isNone &&
        (p.after .unlimited 9).hasStatements && (p.after .unlimited 28).hasStatements &&
        (p.after .unlimited 24).startsStatement &&
        decide ((p.after .unlimited 8).frames.tail.length = 2 ∧ (p.after .unlimited 22).frames.length = 2) &&
        decide (∀ k : Nat, k < 13 → 2 < (p.after .unlimited (9 + k)).frames.length) &&
        decide ((p.after .unlimited 22).hasResult = true ∧ (p.after .unlimited 24).frames.length = 1) &&
        decide (∀ k : Nat, k < 9 → (p.after .unlimited (24 + k)).hasResult = true →
          1 < (p.after .unlimited (24 + k)).frames.length) &&
        decide ((p.after .unlimited 8).store.scopes.size = 1 ∧ (p.after .unlimited 22).store.scopes.size = 2) &&
        decide ((p.after .unlimited 24).store.scopes.size = 2 ∧ (p.after .unlimited 24).scope = Store.globalScope) &&
        decide (((p.after .unlimited 22).store.valueIn? 1 "i").map Value.isTruthy = some false) &&
        decide (((p.after .unlimited 24).store.valueIn? 1 "i").map Value.isTruthy = some false) &&
        decide (((p.after .unlimited 33).store.valueIn? 1 "i").map Value.isTruthy = some true)) = true := by
    decide +kernel
  obtain ⟨program, accepted, ran⟩ := Program.exists_ofSource ran
  simp only [Bool.and_eq_true, decide_eq_true_eq, and_assoc] at ran
  obtain ⟨calls₁, calls₂, starts₁, starts₂, body₁, body₂, starts, below₁, below₂, busy₁, result, below₃, busy₃, size₁, size₂, size₃, home, old₂,
    old₃, new⟩ := ran
  have grounded := program.grounded_after .unlimited
  have later (k n : Nat) := program.after_add .unlimited k n
  obtain ⟨touch, apart, ended⟩ := touches_reached program.table.place
  obtain ⟨s, hs⟩ := exists_of_startsStatement starts
  have opens {n : Nat} (calls : (program.after .unlimited n).calling?.isSome = true)
      (success : (program.after .unlimited (n + 1)).failure?.isNone = true)
      (body : (program.after .unlimited (n + 1)).hasStatements = true) :
      (program.after .unlimited n).Opens program.table.place := by
    rw [program.after_succ] at success body
    exact .inr ⟨⟨calls, Option.isNone_iff_eq_none.1 success⟩, exists_of_hasStatements body⟩
  obtain ⟨call, calling⟩ := Option.isSome_iff_exists.1 calls₁
  have first : (program.after .unlimited 8).step program.table.place = program.after .unlimited 9 :=
    (program.after_succ .unlimited 8).symm
  have back : (step program.table.place)^[13] ((program.after .unlimited 8).step program.table.place) =
      program.after .unlimited 22 := by
    rw [first, ← later]
  have waits (k : Nat) (hk : k < 13) : ¬ ((step program.table.place)^[k] ((program.after .unlimited 8).step
      program.table.place)).IsBack (program.after .unlimited 8).frames.tail := by
    rw [first, ← later]
    refine not_isBack_of_length fun _ => ?_
    rw [below₁]
    exact busy₁ k hk
  have isBack := isBack_of_length calling waits (by rw [back, below₁, below₂]) (by rw [back, result])
  have ended := ended (program.after .unlimited 8) call 13 (grounded 8) calling waits isBack
  rw [back] at ended
  obtain ⟨scope, ended⟩ := ended
  have touched₁ : ¬ (program.after .unlimited 22).store.Agrees (program.after .unlimited 33).store (.scope 1) :=
    not_agrees_of_valueIn? "i" (by rw [old₂, new]; decide)
  have touched₂ : ¬ (program.after .unlimited 24).store.Agrees (program.after .unlimited 33).store (.scope 1) :=
    not_agrees_of_valueIn? "i" (by rw [old₃, new]; decide)
  have young : ¬ (program.after .unlimited 8).store.Contains (.scope 1) :=
    fun there => absurd there (Nat.not_lt_of_le (Nat.le_of_eq size₁))
  have there (n : Nat) (h : (program.after .unlimited n).store.scopes.size = 2) :
      (program.after .unlimited n).store.Contains (.scope 1) := Nat.lt_of_lt_of_eq Nat.one_lt_two h.symm
  have owned := (ended 1 young (there 22 size₂) 11).2.2
  rw [← later] at owned
  -- the second statement begins on the machine as it is
  have begins : (program.after .unlimited 24).begin (.statement s) = program.after .unlimited 24 := by
    rw [begin, ← hs]
  have reached := touch (program.after .unlimited 24) (.statement s) 9
  rw [begins, ← later] at reached
  have outside : ¬ (program.after .unlimited 24).store.Around Store.globalScope 1 := by
    rintro ⟨k, reach⟩
    have le := (grounded 24).store.rooted.ancestors Store.globalScope k 1 reach
    exact absurd (Nat.le_of_add_right_le le) (Nat.not_succ_le_zero 0)
  have waits (k : Nat) (hk : k < 9) : ¬ ((step program.table.place)^[k] (program.after .unlimited 24)).IsBack
      (program.after .unlimited 24).frames := by
    rw [← later]
    refine not_isBack_of_length fun done => ?_
    rw [below₃]
    exact busy₃ k hk done
  have reached := reached waits (.scope 1) (there 24 size₃) touched₂
  refine ⟨program, accepted, scope, ?_, touched₁, owned touched₁, s, hs, ?_⟩
  · exact apart ((initial .unlimited).load program.statements) 8 27 (by decide)
      (opens calls₁ starts₁ body₁) (opens calls₂ starts₂ body₂)
  · have away : ¬ (program.after .unlimited 24).store.Around (program.after .unlimited 24).scope 1 := by
      rw [home]
      exact outside
    exact reached.2 1 rfl (fun _ => id) away outside

end Machine

end Lox
