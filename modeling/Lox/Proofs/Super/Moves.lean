/-
What a machine keeps true of the code that it runs: the part that starts just now can run in the current scope, and
each part that waits in a frame can run in the scope that will be current then (`Recorded`). The moves of a machine
keep this, from the small ones to calls and to the declaration of a class.
-/
import Lox.Proofs.Machine.Caller
import Lox.Proofs.Machine.Steps
import Lox.Proofs.Super.Class

namespace Lox

/-- The uses of its own that a part of the program has which starts just now. -/
def Control.ownUses : Control → List UseId
  | exec s => s.ownUses
  | eval e => e.uses
  | value _ | finished _ | failed _ => []

/-- The uses of its own that the code has which waits in a frame. -/
def Frame.ownUses : Frame → List UseId
  | .choose yes none => yes.ownUses
  | .choose yes (some no) => yes.ownUses ++ no.ownUses
  | .test condition inner => condition.uses ++ inner.ownUses
  | .left _ e => e.uses
  | .logical _ e => e.uses
  | .callee _ arguments => Expr.usesAll arguments
  | .argument _ _ _ arguments => Expr.usesAll arguments
  | .target _ e => e.uses
  | .sequence rest => Stmt.ownUsesAll rest
  | .again condition inner => condition.uses ++ inner.ownUses
  | _ => []

namespace Chronicle

variable {c c' : Chronicle} {id : ScopeId}

/-- Whether what waits in the frames can run in the scopes that will be current then. -/
def Stacked (c : Chronicle) : ScopeId → List Frame → Prop
  | id, [] => c.Runs id []
  | id, f :: frames => c.Runs id f.ownUses ∧ c.Stacked (f.outer id) frames

theorem Stacked.runs {frames : List Frame} (h : c.Stacked id frames) : c.Runs id [] := by
  cases frames with
  | nil => exact h
  | cons f frames => exact h.1.mono (List.nil_subset _)

theorem Later.stacked (h : c.Later c') (outward : c.store.Outward) :
    ∀ {frames : List Frame} {id : ScopeId}, c.Stacked id frames → c'.Stacked id frames
  | [], _, hs => h.runs outward hs
  | _ :: _, _, hs => ⟨h.runs outward hs.1, h.stacked outward hs.2⟩

end Chronicle

namespace Machine

/-- A machine with the births that led to it. -/
structure Recorded (statements : List Stmt) (births : List Birth) (m : Machine) : Prop where
  sound : Chronicle.Sound statements ⟨births, m.store⟩
  runs : Chronicle.Runs ⟨births, m.store⟩ m.scope m.control.ownUses
  stacked : Chronicle.Stacked ⟨births, m.store⟩ m.scope m.frames

/-- A machine with the births that led to it, whatever it does just now. -/
structure Waits (statements : List Stmt) (births : List Birth) (m : Machine) : Prop where
  sound : Chronicle.Sound statements ⟨births, m.store⟩
  stacked : Chronicle.Stacked ⟨births, m.store⟩ m.scope m.frames

variable {statements : List Stmt} {table : Table} {births births' : List Birth} {m : Machine}
  {plan : List (List Declarations)} {x : Stop} {uses : List UseId}

namespace Waits

/-! ## Going on -/

theorem give (h : Waits statements births m) (v : Value) : Recorded statements births (m.give v) :=
  ⟨h.sound, h.stacked.runs, h.stacked⟩

theorem finish (h : Waits statements births m) (c : Completion) : Recorded statements births (m.finish c) :=
  ⟨h.sound, h.stacked.runs, h.stacked⟩

theorem fail (h : Waits statements births m) (fault : RuntimeFault) (site : Token) :
    Recorded statements births (m.fail fault site) := ⟨h.sound, h.stacked.runs, h.stacked⟩

theorem giveResult (h : Waits statements births m) (result : Except RuntimeFault Value) (site : Token) :
    Recorded statements births (m.giveResult result site) := by
  cases result with
  | ok v => exact h.give v
  | error fault => exact h.fail fault site

/-! ## Starting a part -/

theorem eval (h : Waits statements births m) (runs : Chronicle.Runs ⟨births, m.store⟩ m.scope uses) {e : Expr}
    (he : e.uses ⊆ uses) : Recorded statements births { m with control := .eval e } :=
  ⟨h.sound, runs.mono he, h.stacked⟩

theorem exec (h : Waits statements births m) (runs : Chronicle.Runs ⟨births, m.store⟩ m.scope uses) {s : Stmt}
    (hs : s.ownUses ⊆ uses) : Recorded statements births { m with control := .exec s } :=
  ⟨h.sound, runs.mono hs, h.stacked⟩

theorem push (h : Waits statements births m) (runs : Chronicle.Runs ⟨births, m.store⟩ m.scope uses) {frame : Frame}
    (hf : frame.ownUses ⊆ uses) (same : frame.outer m.scope = m.scope) :
    Waits statements births { m with frames := frame :: m.frames } :=
  ⟨h.sound, runs.mono hf, same.symm ▸ h.stacked⟩

theorem await (h : Waits statements births m) (runs : Chronicle.Runs ⟨births, m.store⟩ m.scope uses) {e : Expr}
    (he : e.uses ⊆ uses) {frame : Frame} (hf : frame.ownUses ⊆ uses) (same : frame.outer m.scope = m.scope) :
    Recorded statements births (m.await e frame) := (h.push runs hf same).eval runs he

theorem perform (h : Waits statements births m) (runs : Chronicle.Runs ⟨births, m.store⟩ m.scope uses) {s : Stmt}
    (hs : s.ownUses ⊆ uses) {frame : Frame} (hf : frame.ownUses ⊆ uses)
    (same : frame.outer m.scope = m.scope) : Recorded statements births (m.perform s frame) :=
  (h.push runs hf same).exec runs hs

/-! ## Changing the store -/

theorem later (h : Waits statements births m) (outward : m.store.Outward) {s : Store}
    (grown : Chronicle.Later ⟨births, m.store⟩ ⟨births', s⟩ ∧ Chronicle.Sound statements ⟨births', s⟩) :
    Waits statements births' { m with store := s } := ⟨grown.2, grown.1.stacked outward h.stacked⟩

theorem defineHere (h : Waits statements births m) (outward : m.store.Outward) {name : String} (hn : Nameable name)
    (v : Value) : Waits statements births (m.defineHere name v) :=
  h.later outward (h.sound.define outward h.stacked.runs.lt hn v)

theorem openBlock (h : Waits statements births m) (outward : m.store.Outward) {body : List Stmt}
    (runs : Chronicle.Runs ⟨births, m.store⟩ m.scope (Stmt.ownUsesAll body)) :
    Recorded statements births (m.openBlock body) := by
  have plain : Chronicle.Plain .empty := nofun
  have grown := h.sound.addScope outward plain m.scope
  have inside := runs.home.addScope outward runs.lt plain
  have none := inside.mono (List.nil_subset _)
  exact ⟨grown.2, none, inside, none, grown.1.stacked outward h.stacked⟩

theorem declareRoutine (h : Waits statements births m) (outward : m.store.Outward) {r : Routine Stmt}
    (hn : Nameable r.name.lexeme) (runs : Chronicle.Runs ⟨births, m.store⟩ m.scope (routineOwnUses r)) :
    Recorded statements births (m.declareRoutine r) := by
  have grown := h.sound.addClosure outward (f := ⟨r, m.scope, false⟩) runs.lt fun _ _ => runs.home
  have added : Waits statements births { m with store := m.store.addClosure ⟨r, m.scope, false⟩ } :=
    h.later outward grown
  exact (added.defineHere outward hn _).finish .normal

theorem declareClass (h : Waits statements births m) (sound : World.Sound statements ⟨plan, m.store⟩)
    (resolved : Resolved statements table) (place : World.At statements ⟨plan, m.store⟩ m.scope x) {name : Token}
    {e : Option Expr} {rs : List (Routine Stmt)} (hc : x.code = .stmt (.classDecl name e rs))
    {superclass : Option ClassId} (hs : superclass.isSome = e.isSome) :
    Recorded statements (births ++ (superclass.map (Birth.next name rs · m.store)).toList)
      (m.declareClass name superclass rs) := by
  have runs := h.stacked.runs
  have nameable : Nameable name.lexeme := resolved.nameable place.visits hc (List.mem_singleton_self _)
  have made := h.later sound.outward (h.sound.withClass sound resolved place runs.inside hc hs)
  have outward := outward_withClass sound.outward runs.lt name.lexeme superclass rs
  rw [declareClass_eq runs.lt]
  exact (made.defineHere outward nameable _).finish .normal

/-! ## Methods and calls -/

theorem giveMethod (h : Waits statements births m) (outward : m.store.Outward) {found : ClosureId}
    (owned : ∀ c, m.store.closures[found]? = some c → ∃ cls, m.store.HasMethod cls c) (object : InstanceId)
    (name : Token) : Recorded statements births (m.giveMethod found object name) := by
  cases hc : m.store.closures[found]? with
  | none =>
    simp only [Machine.giveMethod, hc]
    exact h.fail _ _
  | some c =>
    obtain ⟨cls, method⟩ := owned c hc
    obtain ⟨later, sound, lt, home⟩ := h.sound.boundTo outward method object
    have bound : (m.store.boundTo c object).1.Outward := outward.addScope (h.sound.closures found c hc).1 _
    have added := sound.addClosure bound (f := (m.store.boundTo c object).2) lt fun _ _ => home
    simp only [Machine.giveMethod, hc]
    exact (h.later outward ⟨later.trans added.1, added.2⟩).give _

theorem giveProperty (h : Waits statements births m) (outward : m.store.Outward) (object : InstanceId) (name : Token) :
    Recorded statements births (m.giveProperty object name) := by
  unfold Machine.giveProperty
  split
  · exact h.fail _ _
  · split
    · exact h.give _
    · split
      · next found hf => exact h.giveMethod outward (fun c hc => Store.hasMethod_of_findMethod? hf hc) object name
      · exact h.fail _ _

theorem giveSuper (h : Waits statements births m) (outward : m.store.Outward) (place : Place) (keyword method : Token) :
    Recorded statements births (m.giveSuper place keyword method) := by
  unfold Machine.giveSuper
  split
  · exact h.fail _ _
  · split
    · next found hf => exact h.giveMethod outward (fun c hc => Store.hasMethod_of_findMethod? hf hc) _ method
    · exact h.fail _ _

/-- The parameters of a function have no word of classes for a name. -/
theorem plain_parameters (resolved : Resolved statements table) {c : Closure} (declares : World.Declares statements c x)
    (arguments : List Value) : Chronicle.Plain (parameterBindings c.routine.parameters arguments) := by
  intro n hn
  obtain ⟨v, hv⟩ := (Bindings.contains_iff _ _).1 hn
  obtain ⟨p, hp, rfl⟩ := List.mem_map.1 (mem_of_parameterBindings hv).1
  have formed := (resolved.checked declares.visits).formed
  rw [declares.code] at formed
  obtain ⟨⟨name, parameters, body⟩, scope, initializer⟩ := c
  exact formed.1 p hp

theorem enter (h : Waits statements births m) (outward : m.store.Outward) {c : Closure}
    (lt : c.scope < m.store.scopes.size)
    (home : Chronicle.AtHome ⟨births, m.store⟩ c.scope (routineOwnUses c.routine)) {arguments : List Value}
    (plain : Chronicle.Plain (parameterBindings c.routine.parameters arguments)) :
    Recorded statements births (m.enter c arguments) := by
  obtain ⟨⟨name, parameters, body⟩, scope, initializer⟩ := c
  have grown := h.sound.addScope outward plain scope
  have inside := home.addScope outward lt plain
  have none := inside.mono (List.nil_subset _)
  exact ⟨grown.2, none, inside, none, grown.1.stacked outward h.stacked⟩

theorem guardCall (h : Waits statements births m) {paren : Token} {arity given : Nat} {run : Machine → Machine}
    (hrun : Recorded statements births (run m.activate)) :
    Recorded statements births (m.guardCall paren arity given run) := by
  unfold Machine.guardCall
  split
  · exact h.fail _ _
  · split
    · exact h.fail _ _
    · exact hrun

theorem activate (h : Waits statements births m) : Waits statements births m.activate :=
  ⟨h.sound, h.stacked.runs, h.stacked⟩

theorem construct (h : Waits statements births m) (sound : World.Sound statements ⟨plan, m.store⟩)
    (resolved : Resolved statements table) (cls : ClassId) (arguments : List Value) :
    Recorded statements births (m.construct cls arguments) := by
  have grown := h.sound.addInstance sound.outward ⟨cls, .empty⟩
  have added : Waits statements births { m with store := m.store.addInstance ⟨cls, .empty⟩ } :=
    h.later sound.outward grown
  cases hc : (m.store.findInitializer? cls).bind (m.store.closures[·]?) with
  | none =>
    simp only [Machine.construct, hc]
    exact added.give _
  | some c =>
    obtain ⟨found, hf, hc'⟩ := Option.bind_eq_some_iff.1 hc
    obtain ⟨owner, method⟩ := Store.hasMethod_of_findMethod? hf hc'
    obtain ⟨c', y, same, declared⟩ := sound.findMethod? hf
    cases hc'.symm.trans same
    obtain ⟨later, bound, lt, home⟩ :=
      grown.2.boundTo sound.outward (grown.1.store.hasMethod method) m.store.nextInstance
    have outward : (Store.boundTo _ c m.store.nextInstance).1.Outward :=
      sound.outward.addScope (h.sound.closures found c hc').1 _
    -- the new instance waits in a frame while the initializer runs
    have ready := added.later sound.outward ⟨later, bound⟩
    have nothing : (Frame.construct m.store.nextInstance).ownUses ⊆ [] := List.nil_subset _
    have waiting := ready.push ready.stacked.runs nothing rfl
    simp only [Machine.construct, hc]
    exact waiting.enter outward lt home (plain_parameters resolved declared.declares arguments)

theorem call (h : Waits statements births m) (sound : World.Sound statements ⟨plan, m.store⟩)
    (resolved : Resolved statements table) {paren : Token} {callee : Value} {arguments : List Value}
    (hc : World.Holds statements ⟨plan, m.store⟩ callee) :
    Recorded statements births (m.call paren callee arguments) := by
  unfold Machine.call
  split
  · next id =>
    split
    · next c hid =>
      obtain ⟨c', y, same, callable⟩ := hc id rfl
      cases hid.symm.trans same
      obtain ⟨lt, home⟩ := h.sound.closures id c hid
      -- what can be called is bound, and stands in all the scopes of its stop
      have placed : Chronicle.Placed statements m.store c y :=
        ⟨callable.declares, sound.ancestor?_whole callable.place.planned⟩
      exact h.guardCall (h.activate.enter sound.outward lt (home y placed)
        (plain_parameters resolved callable.declares arguments))
    · exact h.fail _ _
  · exact h.guardCall (h.activate.construct sound resolved _ arguments)
  · exact h.fail _ _

theorem nextArgument (h : Waits statements births m) (sound : World.Sound statements ⟨plan, m.store⟩)
    (resolved : Resolved statements table) {paren : Token} {callee : Value} {values : List Value}
    {arguments : List Expr} (hc : World.Holds statements ⟨plan, m.store⟩ callee)
    (runs : Chronicle.Runs ⟨births, m.store⟩ m.scope (Expr.usesAll arguments)) :
    Recorded statements births (m.nextArgument paren callee values arguments) := by
  cases arguments with
  | nil => exact h.call sound resolved hc
  | cons e rest => exact h.await runs (List.subset_append_left _ _) (List.subset_append_right _ _) rfl

end Waits

end Machine

end Lox
