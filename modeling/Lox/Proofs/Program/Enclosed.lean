/-
Global variables behave as local ones. If the top-level names of a program are declared once and before they are
mentioned, then the program can be put in a block: it is accepted as well, its global variables are those of the block
then, and it has the same outcomes as before.
-/
import Lox.Proofs.Enclosed.Placed
import Lox.Proofs.Enclosed.Steps
import Lox.Proofs.Pair.Programs
import Lox.Proofs.Program.LockStep
import Mathlib.Data.Nat.Find

namespace Lox

variable {statements : List Stmt} {table table' : Table}

/-! ## The scope of the block -/

/-- A program in a block breaks no rule, and its table is that of a walk. -/
theorem Resolved.block (resolved : Resolved statements table) (order : Stmt.GlobalsInOrder table statements)
    (apart : (Stmt.declaredAll statements).Nodup) :
    Resolved [.block statements] (resolve [.block statements]).table where
  formed := ⟨resolved.formed, trivial⟩
  apart := by simpa [Stmt.usesAll, Stmt.uses] using resolved.apart
  errors := resolved.errors_block order apart
  table := rfl

namespace World

variable {s : Store} {plan plan' : List (List Declarations)} {id : ScopeId} {outer : List Declarations}
  {own : Declarations}

/-- A scope in which there is no other one is the global one. -/
theorem Sound.eq_globalScope (sound : Sound statements ⟨plan, s⟩) {scope : Scope} (hs : s.scopes[id]? = some scope)
    (none : scope.parent = none) : id = Store.globalScope := by
  have lt : id < plan.length := sound.size ▸ (Array.getElem?_eq_some_iff.1 hs).1
  have planned : plan[id]? = some plan[id] := List.getElem?_eq_getElem lt
  cases hd : plan[id] with
  | nil => exact sound.only id (hd ▸ planned)
  | cons own outer =>
    obtain ⟨-, next, link, -⟩ := sound.planned id own outer (hd ▸ planned)
    simp [Store.parent?, hs, none] at link

/-- The outermost of the scopes that are planned in the block is the one that is global without the block. -/
theorem Sound.ancestor_block (sound : Sound statements ⟨plan, s⟩) {statements' : List Stmt}
    (sound' : Sound statements' ⟨plan', s.lift⟩) (planned : plan'[id + 1]? = some (outer ++ [own])) :
    s.lift.ancestor? (id + 1) outer.length = some (Store.globalScope + 1) ∧
      ∀ n, s.binds Store.globalScope n = true → own.contains n = true := by
  have steps := sound'.lockStep planned
  obtain ⟨place, hp, last⟩ := steps.ancestor (d := outer.length) (by simp)
  rw [List.drop_left] at last
  cases last with
  | inner link names tail =>
    cases tail
    cases place with
    | zero => cases (Store.parent?_lift_zero s).symm.trans link
    | succ place =>
      rw [Store.parent?_lift_succ] at link
      obtain ⟨scope, hs, outermost⟩ := Option.map_eq_some_iff.1 link
      have alone : scope.parent = none := by
        cases h : scope.parent with
        | none => rfl
        | some _ =>
          rw [h] at outermost
          cases outermost
      cases sound.eq_globalScope hs alone
      exact ⟨hp, fun n hn => names n ((Store.binds_lift_succ s _ n).trans hn)⟩

theorem Sound.target?_globals (sound : Sound statements ⟨plan, s⟩) (name : String) :
    s.target? id .globals name = if s.binds Store.globalScope name = true then some Store.globalScope else none := by
  have none : s.parent? Store.globalScope = none := sound.globals.2
  rw [Store.target?, Store.holder?_eq sound.outward, none]
  rfl

/-- Uses are sent to the same scopes with and without the block. -/
theorem Sound.sameTarget (sound : Sound statements ⟨plan, s⟩) {statements' : List Stmt}
    (sound' : Sound statements' ⟨plan', s.lift⟩)
    (planned : plan'[id + 1]? = some (outer ++ [Stop.blockScope statements])) {use : UseId} {name : String}
    (sent : Stop.Sent statements table table' outer use name) :
    s.SameTarget id name (table.place use) (table'.place use) := by
  obtain ⟨last, names⟩ := sound.ancestor_block sound' planned
  rw [Table.place_eq, Table.place_eq]
  cases sent with
  | inner d entry entry' =>
    rw [entry, entry']
    exact Store.sameTarget_hops d
  | block _ entry entry' =>
    rw [entry, entry', show Place.ofDistance? none = .globals from rfl, Store.SameTarget, sound.target?_globals]
    simp only [Place.ofDistance?, Store.target?, last, Option.filter, Store.binds_lift_succ]
    split <;> rfl
  | beyond _ entry entry' other =>
    have missing : s.binds Store.globalScope name = false := by
      refine Bool.eq_false_iff.2 fun hb => other ?_
      exact ((Declarations.contains_complete _ _ _).1 (names name hb)).resolve_right (by simp [Bindings.contains])
    rw [entry, entry', show Place.ofDistance? none = .globals from rfl, Store.SameTarget, sound.target?_globals,
      missing]
    exact Store.target?_lift_globals

end World

/-! ## Side by side -/

namespace Machine

open World

variable {m : Machine}

/-- If a program and the same program in a block have come to the same point, the next step is the same for both. -/
theorem Conforms.liftable (resolved : Resolved statements table) (resolved' : Resolved [.block statements] table')
    (order : Stmt.GlobalsInOrder table statements) (h : m.Conforms statements)
    (h' : m.lift.Conforms [.block statements]) : m.Liftable table.place table'.place := by
  obtain ⟨plan, d, ⟨sound, stacked⟩, gives⟩ := h
  obtain ⟨plan', d', ⟨sound', stacked'⟩, gives'⟩ := h'
  have sent {e : Expr} (hc : m.control = .eval e) {use : UseId} {name : String} (hu : e.use? = some (use, name)) :
      ∃ outer, plan'[m.scope + 1]? = some (outer ++ [Stop.blockScope statements]) ∧
        Stop.Sent statements table table' outer use name := by
    have code : m.lift.control.code? = some (.expr e) := by rw [show m.lift.control = m.control from rfl, hc]; rfl
    obtain ⟨x, visits, hx, planned⟩ := gives'.exists_stop code
    obtain ⟨outer, whole, sent⟩ := Stop.exists_sent resolved resolved' order visits hx hu
    exact ⟨outer, planned.trans (congrArg some whole), sent⟩
  have word {e : Expr} (hc : m.control = .eval e) {use : UseId} {name : String} (hu : e.use? = some (use, name))
      (hn : ¬ Nameable name) : ∃ d, table.place use = .hops d ∧ table'.place use = .hops d := by
    obtain ⟨outer, -, sent⟩ := sent hc hu
    cases sent with
    | inner d entry entry' => exact ⟨d, by rw [Table.place, entry], by rw [Table.place, entry']⟩
    | block nameable _ _ => exact absurd nameable hn
    | beyond nameable _ _ _ => exact absurd nameable hn
  constructor
  case awaited =>
    intro v hv none
    rw [hv] at gives
    obtain ⟨rfl, -⟩ := gives
    rw [none] at stacked
    cases stacked
  case exec =>
    intro s hs
    rw [hs] at gives
    obtain ⟨x, place, -⟩ := gives
    exact sound.lt_size place.planned
  case inherit =>
    intro name superclass methods rest hf
    rw [hf] at stacked
    obtain ⟨_, _, takes, -⟩ := stacked.top
    cases takes with
    | inherit place _ => exact sound.lt_size place.planned
  case ref =>
    intro use name hc
    obtain ⟨outer, planned, sent⟩ := sent hc rfl
    exact sound.sameTarget sound' planned sent
  case self => exact fun use keyword hc => word hc rfl fun h => h.1 rfl
  case super => exact fun use keyword method hc => word hc rfl fun h => h.2 rfl
  case assign =>
    intro use name v hv
    obtain ⟨-, rest, hf⟩ := assigning?_eq hv
    have top : m.lift.frames =
        .assign use name :: (rest.map Frame.lift ++ [.leaveScope Store.globalScope, .sequence []]) := by
      rw [lift, hf]
      rfl
    rw [top] at stacked'
    obtain ⟨_, _, takes, -⟩ := stacked'.top
    obtain ⟨x, e, place, hx⟩ := takes.at_assign
    obtain ⟨outer, whole, sent⟩ := Stop.exists_sent resolved resolved' order place.visits hx rfl
    exact sound.sameTarget sound' (place.planned.trans (congrArg some whole)) sent

/-- As long as a program runs, it runs in a block as it does on its own, two steps behind. -/
theorem iterate_lift (resolved : Resolved statements table) (resolved' : Resolved [.block statements] table')
    (order : Stmt.GlobalsInOrder table statements) (sink : Sink) (n : Nat)
    (active : ∀ k < n, ((step table.place)^[k] (start sink statements)).halted = false) :
    (step table'.place)^[n + 2] (start sink [.block statements]) =
      ((step table.place)^[n] (start sink statements)).lift := by
  induction n with
  | zero => exact start_block sink statements _
  | succ n ih =>
    have same := ih fun k hk => active k (Nat.lt_succ_of_lt hk)
    have conforms' := same ▸ conforms_iterate resolved' sink (n + 2)
    have liftable := (conforms_iterate resolved sink n).liftable resolved resolved' order conforms'
    rw [Nat.add_right_comm, Function.iterate_succ_apply', same, Function.iterate_succ_apply']
    exact step_lift _ (active n (Nat.lt_succ_self n)) liftable

theorem not_halted_lift (m : Machine) : m.lift.halted = false := by
  obtain ⟨control, frames, scope, depth, store, sink⟩ := m
  cases frames <;> cases control <;> rfl

/-- If a program ends on its own, it ends in a block too, with the same outcome. -/
theorem exists_halted_block (resolved : Resolved statements table) (resolved' : Resolved [.block statements] table')
    (order : Stmt.GlobalsInOrder table statements) (sink : Sink) {n : Nat}
    (halted : ((step table.place)^[n] (start sink statements)).halted = true) :
    ∃ n', ((step table'.place)^[n'] (start sink [.block statements])).halted = true ∧
      ((step table'.place)^[n'] (start sink [.block statements])).outcome =
        ((step table.place)^[n] (start sink statements)).outcome := by
  have ends : ∃ k, ((step table.place)^[k] (start sink statements)).halted = true := ⟨n, halted⟩
  -- from the first moment when nothing is left to do, the block takes two more steps
  have first := Nat.find_spec ends
  have along := iterate_lift resolved resolved' order sink (Nat.find ends) fun k hk =>
    Bool.eq_false_iff.2 (Nat.find_min ends hk)
  obtain ⟨halted', control, same⟩ := halted_lift first table'.place
  rw [← along, ← Function.iterate_add_apply] at halted' control same
  exact ⟨_, halted', (outcome_congr control same).trans (outcome_iterate first halted)⟩

/-- In a block a program has the outcomes that it has on its own. -/
theorem runStatements_block (resolved : Resolved statements table) (resolved' : Resolved [.block statements] table')
    (order : Stmt.GlobalsInOrder table statements) (sink : Sink) (o : Outcome) :
    (∃ fuel, runStatements table.place fuel statements sink = some o) ↔
      ∃ fuel, runStatements table'.place fuel [.block statements] sink = some o := by
  simp only [runStatements_eq_some_iff]
  constructor
  · rintro ⟨fuel, halted, rfl⟩
    exact exists_halted_block resolved resolved' order sink halted
  · rintro ⟨fuel, halted', rfl⟩
    by_cases ends : ∃ n, ((step table.place)^[n] (start sink statements)).halted = true
    · obtain ⟨n, halted⟩ := ends
      obtain ⟨n', other, same⟩ := exists_halted_block resolved resolved' order sink halted
      exact ⟨n, halted, same.symm.trans (outcome_iterate other halted')⟩
    · -- if it runs forever on its own, it does so in the block, which is never left
      have along := iterate_lift resolved resolved' order sink fuel fun k _ => Bool.eq_false_iff.2 fun h => ends ⟨k, h⟩
      have still : (step table'.place)^[fuel + 2] (start sink [.block statements]) = _ :=
        iterate_eq_of_stop (·.halted = true) (fun _ h => step_of_halted h) halted' (Nat.le_add_right fuel 2)
      rw [← still, along, not_halted_lift] at halted'
      cases halted'

end Machine

/-! ## Programs -/

section

variable {source : String} {program : Program}

/-- Let the top-level names of an accepted program be declared once, and let every mention of a global variable that the
program declares come after the end of the declaration, or for a function or a class after its name. In one block the
statements of the program break no rule, and they have the same outcomes as on their own: they print the same and fail
alike or not at all, or neither ends. -/
theorem Program.enclosed (accepted : Program.ofSource source = .ok program)
    (apart : (Stmt.declaredAll program.statements).Nodup)
    (order : Stmt.GlobalsInOrder program.table program.statements) :
    (resolve [.block program.statements]).errors = [] ∧
      ∀ sink o, (∃ fuel, runStatements program.table.place fuel program.statements sink = some o) ↔
        ∃ fuel, runStatements (resolve [.block program.statements]).table.place fuel [.block program.statements] sink =
          some o := by
  have resolved := resolved_of_ofSource accepted
  have resolved' := resolved.block order apart
  exact ⟨resolved'.errors, Machine.runStatements_block resolved resolved' order⟩

/-- A method calls a function that assigns to a variable. -/
theorem Program.enclosed_method :
    ∃ program fuel o,
      Program.ofSource "var a; fun f() \x7b a = true; \x7d class A \x7b m() \x7b f(); \x7d \x7d A().m(); print a;" =
        .ok program ∧
        (Stmt.declaredAll program.statements).Nodup ∧ Stmt.GlobalsInOrder program.table program.statements ∧
        (resolve [.block program.statements]).errors = [] ∧
        runStatements (resolve [.block program.statements]).table.place fuel [.block program.statements] .unlimited =
          some o ∧
        o.printed = "true\n".toUTF8 := by
  have ran : (Program.ofSource
      "var a; fun f() \x7b a = true; \x7d class A \x7b m() \x7b f(); \x7d \x7d A().m(); print a;").toOption.any
      (fun p : Program => decide ((Stmt.declaredAll p.statements).Nodup ∧ Stmt.GlobalsInOrder p.table p.statements ∧
        ∃ o ∈ runStatements p.table.place 100 p.statements .unlimited, o.printed = "true\n".toUTF8)) = true := by
    decide +kernel
  obtain ⟨program, accepted, ran⟩ := Program.exists_ofSource ran
  obtain ⟨apart, order, o, ho, printed⟩ := of_decide_eq_true ran
  obtain ⟨errors, same⟩ := program.enclosed accepted apart order
  obtain ⟨fuel, ho'⟩ := (same .unlimited o).1 ⟨100, ho⟩
  exact ⟨program, fuel, o, accepted, apart, order, errors, ho', printed⟩

end

end Lox
