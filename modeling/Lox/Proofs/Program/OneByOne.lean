/-
Whatever is begun leaves the current scope and the number of active calls as they were, however it ends; so a machine
on which programs have been run, with errors or without, is always back in the global scope with no call active. It
makes no difference then whether the statements of a program are run together, or one by one up to the first that fails
(`Machine.restores`).
-/
import Lox.Proofs.Binding.WellFormed
import Lox.Proofs.Machine.Caller
import Lox.Proofs.Program.Run
import Mathlib.Data.Nat.Find
import Mathlib.Tactic.IntervalCases

namespace Lox

/-! ## Tasks -/

/-- What a machine can begin and come back from. -/
inductive Task
  | statement (s : Stmt)
  | expression (e : Expr)
  /-- Statements in a scope of their own. -/
  | block (body : List Stmt)
  /-- The body of a function, in a scope with its parameters. -/
  | body (closure : Closure) (arguments : List Value)
  /-- A call, with the checks that are made before it. -/
  | call (paren : Token) (callee : Value) (arguments : List Value)

/-- What a task gives: the end of a statement, which may be a return, or else a value. -/
def Task.awaited : Task → Awaited
  | statement _ | block _ => .ending true
  | expression _ | body _ _ | call _ _ _ => .value

namespace Machine

variable {place : UseId → Place} {m r : Machine} {s : Stmt} {rest statements : List Stmt}

/-- Begins a task; the frames that there are wait for it. -/
def begin (m : Machine) : Task → Machine
  | .statement s => { m with control := .exec s }
  | .expression e => { m with control := .eval e }
  | .block body => m.openBlock body
  | .body closure arguments => m.enter closure arguments
  | .call paren callee arguments => m.call paren callee arguments

/-- The one who begins something on a machine, and waits for it. -/
def caller (m : Machine) (d : Awaited) : Caller := ⟨d, m.frames, m.scope, m.depth⟩

theorem runsFor_begin (m : Machine) (t : Task) : (m.begin t).RunsFor (m.caller t.awaited) := by
  have owed (d : Awaited) : (m.caller d).Owed d m := .nil
  cases t with
  | statement s => exact runsFor_exec (owed _) s.ends_true
  | expression e => exact runsFor_eval (owed _) e
  | block body => exact runsFor_openBlock (owed _) (Stmt.endsAll_true body)
  | body closure arguments => exact runsFor_enter (owed _) closure arguments
  | call paren callee arguments => exact runsFor_call (owed _) paren callee arguments

/-- When a machine comes back from a task, it is where it was. -/
theorem restores_begin {t : Task} {n : Nat} (first : ∀ k < n, ¬ ((step place)^[k] (m.begin t)).IsBack m.frames)
    (back : ((step place)^[n] (m.begin t)).IsBack m.frames) :
    ((step place)^[n] (m.begin t)).scope = m.scope ∧ ((step place)^[n] (m.begin t)).depth = m.depth ∧
      ((step place)^[n] (m.begin t)).control.Gives t.awaited :=
  (runsFor_iterate (m.runsFor_begin t) first).at_caller back.1

/-! ## Sessions -/

/-- The caller of a program: nothing is left to do after it. -/
def user (m : Machine) (returns : Bool) : Caller := ⟨.ending returns, [], m.scope, m.depth⟩

theorem runsFor_load (m : Machine) {returns : Bool} (h : Stmt.EndsAll returns statements) :
    (m.load statements).RunsFor (m.user returns) :=
  ⟨.ending returns, .cons (.sequence h) .nil, .inr rfl⟩

/-- A machine without frames that has its result stays as it is, and so runs for its caller forever. -/
theorem runsFor_iterate_user {home : Machine} {returns : Bool} (h : m.RunsFor (home.user returns)) (n : Nat) :
    ((step place)^[n] m).RunsFor (home.user returns) := by
  induction n with
  | zero => exact h
  | succ n ih =>
    rw [Function.iterate_succ_apply']
    by_cases back : ((step place)^[n] m).IsBack []
    · rwa [step_of_isBack place back]
    · exact runsFor_step ih back

theorem frames_of_halted (h : m.halted = true) : m.frames = [] := by
  unfold halted at h
  split at h
  · next hf _ => exact hf
  · next hf _ => exact hf
  · cases h

theorem interpret_eq_some_iff {fuel : Nat} {e : Option Failure} :
    m.interpret place fuel statements = some (r, e) ↔ run place fuel (m.load statements) = some r ∧ r.verdict = e := by
  unfold interpret
  rw [Option.map_eq_some_iff]
  constructor
  · rintro ⟨r', hr, same⟩
    cases same
    exact ⟨hr, rfl⟩
  · rintro ⟨hr, rfl⟩
    exact ⟨r, hr, rfl⟩

/-- However a program ends, the scope and the number of active calls are as they were. -/
theorem restores_interpret {fuel : Nat} {e : Option Failure} (h : m.interpret place fuel statements = some (r, e)) :
    r.scope = m.scope ∧ r.depth = m.depth := by
  obtain ⟨rfl, halted⟩ := run_eq_some_iff.1 (interpret_eq_some_iff.1 h).1
  have runs : ((step place)^[fuel] (m.load statements)).RunsFor (m.user true) :=
    runsFor_iterate_user (m.runsFor_load (Stmt.endsAll_true statements)) fuel
  obtain ⟨scope, depth, -⟩ := runs.at_caller (frames_of_halted halted)
  exact ⟨scope, depth⟩

/-- The machines on which programs have been run one after the other, each to its end. -/
inductive Session (place : UseId → Place) (sink : Sink) : Machine → Prop
  | fresh : Session place sink (initial sink)
  | more {m r : Machine} {fuel : Nat} {statements : List Stmt} {e : Option Failure} (before : Session place sink m)
    (h : m.interpret place fuel statements = some (r, e)) : Session place sink r

theorem Session.at_home {sink : Sink} (h : Session place sink m) : m.scope = Store.globalScope ∧ m.depth = 0 := by
  induction h with
  | fresh => exact ⟨rfl, rfl⟩
  | more _ h ih =>
    obtain ⟨scope, depth⟩ := restores_interpret h
    exact ⟨scope.trans ih.1, depth.trans ih.2⟩

/-! ## One statement -/

/-- A machine that runs a statement, and then nothing else. -/
def alone (m : Machine) (s : Stmt) : Machine := { m with control := .exec s, frames := [] }

/-- A machine on which a program has ended without a failure. -/
def Rested (m : Machine) : Prop := m.frames = [] ∧ m.control = .finished .normal

theorem Rested.halted (h : m.Rested) : m.halted = true := by
  unfold Machine.halted
  rw [h.1, h.2]

theorem Rested.failure? (h : m.Rested) : m.failure? = none := by
  unfold Machine.failure?
  rw [h.2]

/-- A statement that does not return leaves a machine at rest, or fails. -/
theorem rested_or_failed (ends : s.Ends false) {n : Nat} (back : ((step place)^[n] (m.alone s)).IsBack []) :
    ((step place)^[n] (m.alone s)).Rested ∨ ∃ e, ((step place)^[n] (m.alone s)).control = .failed e := by
  have start : (m.alone s).RunsFor (m.user false) := ⟨.ending false, .nil, ends⟩
  obtain ⟨-, -, gives⟩ := (runsFor_iterate_user start n).at_caller back.1
  have result := back.2
  unfold hasResult at result
  generalize hc : ((step place)^[n] (m.alone s)).control = control at gives result
  cases control with
  | exec _ | eval _ => cases result
  | value _ => cases gives
  | finished c => exact .inl ⟨back.1, by rw [hc, gives.resolve_left nofun]⟩
  | failed e => exact .inr ⟨e, rfl⟩

/-- As long as the first statement has no result, the statements after it do not matter. -/
theorem iterate_load_cons {n : Nat} (busy : ∀ k < n, ¬ ((step place)^[k] (m.alone s)).IsBack []) (rest : List Stmt) :
    (step place)^[n + 1] (m.load (s :: rest)) =
      ((step place)^[n] (m.alone s)).atop [.sequence rest] ((step place)^[n] (m.alone s)).sink := by
  have first : step place (m.load (s :: rest)) = (m.alone s).atop [.sequence rest] (m.alone s).sink := rfl
  rw [Function.iterate_succ_apply, first]
  exact iterate_above _ place busy

theorem runsTo_load_nil (h : m.Rested) : RunsTo place (m.load []) r ↔ r = m := by
  obtain ⟨control, frames, scope, depth, store, sink⟩ := m
  obtain ⟨rfl, rfl⟩ := h
  rw [← runsTo_iterate_iff 1]
  exact runsTo_of_halted_iff rfl

/-- With the first statement done, the others are to be run. -/
theorem atop_of_rested (h : m.Rested) (rest : List Stmt) : m.atop [.sequence rest] m.sink = m.load rest := by
  obtain ⟨control, frames, scope, depth, store, sink⟩ := m
  obtain ⟨rfl, rfl⟩ := h
  rfl

/-- When the first statement has failed, the others are given up. -/
theorem runsTo_atop_of_failed {e : Failure} (frames : m.frames = []) (control : m.control = .failed e)
    (rest : List Stmt) : RunsTo place (m.atop [.sequence rest] m.sink) r ↔ r = m := by
  obtain ⟨_, _, scope, depth, store, sink⟩ := m
  cases frames
  cases control
  rw [← runsTo_iterate_iff 1]
  exact runsTo_of_halted_iff rfl

/-- While the first statement runs alone, all of them run. -/
theorem runsTo_load_iff {n : Nat} (busy : ∀ k < n, ¬ ((step place)^[k] (m.alone s)).IsBack []) (rest : List Stmt) :
    RunsTo place (m.load (s :: rest)) r ↔ RunsTo place
      (((step place)^[n] (m.alone s)).atop [.sequence rest] ((step place)^[n] (m.alone s)).sink) r := by
  rw [← iterate_load_cons busy rest, runsTo_iterate_iff]

/-- If the first statement runs forever, the others are never reached. -/
theorem not_runsTo_load (busy : ∀ n, ¬ ((step place)^[n] (m.alone s)).IsBack []) (rest : List Stmt) :
    ¬ RunsTo place (m.load (s :: rest)) r := by
  intro h
  obtain ⟨n, hn, halted⟩ := runsTo_iff.1 h
  have still : (step place)^[1] r = r := step_of_halted halted
  rw [← hn, ← Function.iterate_add_apply, Nat.add_comm, iterate_load_cons (fun k _ => busy k) rest] at still
  -- the frame with the other statements would be gone
  have frames := congrArg frames still
  rw [hn, frames_of_halted halted] at frames
  exact absurd frames (List.append_ne_nil_of_right_ne_nil _ (List.cons_ne_nil _ _))

/-- The end of some statements is that of the first, if this fails, and otherwise that of the others after it. -/
theorem runsTo_load_cons (ends : s.Ends false) :
    RunsTo place (m.load (s :: rest)) r ↔ ∃ r', RunsTo place (m.load [s]) r' ∧
      (r'.Rested ∧ RunsTo place (r'.load rest) r ∨ (∃ e, r'.failure? = some e) ∧ r = r') := by
  by_cases back : ∃ n, ((step place)^[n] (m.alone s)).IsBack []
  · obtain ⟨n, result, busy⟩ : ∃ n, ((step place)^[n] (m.alone s)).IsBack [] ∧
        ∀ k < n, ¬ ((step place)^[k] (m.alone s)).IsBack [] := by
      classical
      exact ⟨Nat.find back, Nat.find_spec back, fun k => Nat.find_min back⟩
    have ended := rested_or_failed ends result
    have frames := result.1
    have along (rest : List Stmt) (r : Machine) := runsTo_load_iff (r := r) busy rest
    -- from here on only the machine matters that has the result of the first statement
    generalize (step place)^[n] (m.alone s) = first at ended frames along
    rcases ended with rested | ⟨e, control⟩
    · have single (r : Machine) : RunsTo place (m.load [s]) r ↔ r = first := by
        rw [along, atop_of_rested rested, runsTo_load_nil rested]
      rw [along, atop_of_rested rested]
      constructor
      · intro h
        exact ⟨first, (single first).2 rfl, .inl ⟨rested, h⟩⟩
      · rintro ⟨r', hr, ⟨-, h⟩ | ⟨⟨e, he⟩, -⟩⟩
        · rwa [(single r').1 hr] at h
        · rw [(single r').1 hr, rested.failure?] at he
          cases he
    · have failed (rest : List Stmt) (r : Machine) : RunsTo place (m.load (s :: rest)) r ↔ r = first := by
        rw [along, runsTo_atop_of_failed frames control]
      rw [failed]
      constructor
      · rintro rfl
        refine ⟨r, (failed [] r).2 rfl, .inr ⟨⟨e, ?_⟩, rfl⟩⟩
        rw [failure?, control]
      · rintro ⟨r', hr, ⟨rested, -⟩ | ⟨-, rfl⟩⟩
        · rw [(failed [] r').1 hr, Rested, control] at rested
          cases rested.2
        · exact (failed [] r).1 hr
  · have busy (n : Nat) : ¬ ((step place)^[n] (m.alone s)).IsBack [] := fun hn => back ⟨n, hn⟩
    constructor
    · intro h
      exact absurd h (not_runsTo_load busy rest)
    · rintro ⟨_, h, -⟩
      exact absurd h (not_runsTo_load busy [])

theorem rested_of_runsTo (ends : s.Ends false) (h : RunsTo place (m.load [s]) r) (success : r.failure? = none) :
    r.Rested := by
  obtain ⟨r', -, ⟨rested, same⟩ | ⟨⟨e, he⟩, rfl⟩⟩ := (runsTo_load_cons ends).1 h
  · rwa [(runsTo_load_nil rested).1 same]
  · rw [success] at he
    cases he

/-! ## Statements one by one -/

/-- Statements that are run one by one on the same machine, each as a program of its own, up to the first that fails. -/
inductive OneByOne (place : UseId → Place) : List Stmt → Machine → Machine × Option Failure → Prop
  | done {m : Machine} : OneByOne place [] m (m, none)
  | next {s : Stmt} {rest : List Stmt} {m m' : Machine} {fuel : Nat} {r : Machine × Option Failure}
    (h : m.interpret place fuel [s] = some (m', none)) (later : OneByOne place rest m' r) :
    OneByOne place (s :: rest) m r
  | stop {s : Stmt} {rest : List Stmt} {m m' : Machine} {fuel : Nat} {e : Failure}
    (h : m.interpret place fuel [s] = some (m', some e)) : OneByOne place (s :: rest) m (m', some e)

theorem exists_interpret_iff {e : Option Failure} :
    (∃ fuel, m.interpret place fuel statements = some (r, e)) ↔
      RunsTo place (m.load statements) r ∧ r.verdict = e := by
  simp only [interpret_eq_some_iff, RunsTo, exists_and_right]

theorem flushes_of_runsTo (h : RunsTo place m r) : r.sink.flushes = m.sink.flushes := by
  obtain ⟨n, rfl, -⟩ := runsTo_iff.1 h
  exact (extends_iterate place m n).flushes

theorem verdict_of_flushes (h : m.sink.flushes = true) : m.verdict = m.failure? := by
  unfold verdict Sink.flushFault?
  rw [h]
  cases m.failure? <;> rfl

/-- One by one the statements of a program end as they do together, if none of them returns. -/
theorem oneByOne_iff {e : Option Failure} (ends : Stmt.EndsAll false statements) (rested : m.Rested)
    (flushes : m.sink.flushes = true) :
    OneByOne place statements m (r, e) ↔ ∃ fuel, m.interpret place fuel statements = some (r, e) := by
  induction statements generalizing m with
  | nil =>
    rw [exists_interpret_iff, runsTo_load_nil rested]
    constructor
    · rintro ⟨⟩
      exact ⟨rfl, (verdict_of_flushes flushes).trans rested.failure?⟩
    · rintro ⟨rfl, rfl⟩
      rw [verdict_of_flushes flushes, rested.failure?]
      exact .done
  | cons s rest ih =>
    rw [exists_interpret_iff, runsTo_load_cons ends.1]
    -- the sink is flushed after each statement on the left, and after the last on the right
    have flushes' {r' : Machine} (hr : RunsTo place (m.load [s]) r') : r'.sink.flushes = true :=
      (flushes_of_runsTo hr).trans flushes
    constructor
    · intro h
      cases h with
      | next h later =>
        obtain ⟨hr, success⟩ := exists_interpret_iff.1 ⟨_, h⟩
        rw [verdict_of_flushes (flushes' hr)] at success
        have rested' := rested_of_runsTo ends.1 hr success
        obtain ⟨run, verdict⟩ := exists_interpret_iff.1 ((ih ends.2 rested' (flushes' hr)).1 later)
        exact ⟨⟨_, hr, .inl ⟨rested', run⟩⟩, verdict⟩
      | stop h =>
        obtain ⟨hr, verdict⟩ := exists_interpret_iff.1 ⟨_, h⟩
        have failed := verdict
        rw [verdict_of_flushes (flushes' hr)] at failed
        exact ⟨⟨_, hr, .inr ⟨⟨_, failed⟩, rfl⟩⟩, verdict⟩
    · rintro ⟨⟨r', hr, ⟨rested', run⟩ | ⟨⟨e', failed⟩, rfl⟩⟩, verdict⟩
      · have success := (verdict_of_flushes (flushes' hr)).trans rested'.failure?
        obtain ⟨fuel, first⟩ := exists_interpret_iff.2 ⟨hr, success⟩
        exact .next first ((ih ends.2 rested' (flushes' hr)).2 (exists_interpret_iff.2 ⟨run, verdict⟩))
      · obtain ⟨fuel, first⟩ := exists_interpret_iff.2 ⟨hr, verdict⟩
        rw [verdict_of_flushes (flushes' hr), failed] at verdict
        cases verdict
        exact .stop first

/-- Each task, on whatever machine it is begun, leaves the current scope and the number of active calls as they were
when the frames that wait get its result, a value or the end of a statement or a failure. After any programs, with
errors or without, the global scope is current and no call is active. And one by one the statements of a program that
breaks no rule leave a machine that can be flushed as they do together, with the same failure if there is one. -/
theorem restores (place : UseId → Place) :
    (∀ (m : Machine) (t : Task) (n : Nat), (∀ k < n, ¬ ((step place)^[k] (m.begin t)).IsBack m.frames) →
      ((step place)^[n] (m.begin t)).IsBack m.frames →
        ((step place)^[n] (m.begin t)).scope = m.scope ∧ ((step place)^[n] (m.begin t)).depth = m.depth ∧
          ((step place)^[n] (m.begin t)).control.Gives t.awaited) ∧
    (∀ (sink : Sink) (m : Machine), Session place sink m → m.scope = Store.globalScope ∧ m.depth = 0) ∧
    ∀ (statements : List Stmt) (sink : Sink), (resolve statements).errors = [] → sink.flushes = true →
      ∀ r, OneByOne place statements (initial sink) r ↔
        ∃ fuel, (initial sink).interpret place fuel statements = some r := by
  refine ⟨fun m t n => restores_begin, fun sink m => Session.at_home, fun statements sink accepted flushes r => ?_⟩
  have ends : Stmt.EndsAll false statements :=
    Stmt.endsAll_of_wellPlaced (List.forall_mem_nil _) ((errors_resolve_kept statements).1 accepted)
  exact oneByOne_iff ends ⟨rfl, rfl⟩ flushes

/-- With three calls active, a return leaves its block for the scope around it; and a function fails in a block in a
call, and the statement after the call is never run. -/
theorem restores_failed :
    ((step fun _ => .globals)^[5] (begin ⟨.finished .normal, [.discard], 7, 3, .initial, .unlimited⟩
      (.statement (.block [.ret .missing none])))).scope = 7 ∧
    ∃ program fuel m e,
      Program.ofSource "fun f(a) \x7b \x7b print a; return -a; \x7d \x7d print f(nil); print true;" = .ok program ∧
        (initial .unlimited).interpret program.table.place fuel program.statements = some (m, some e) ∧
        m.sink.written = "nil\n".toUTF8 ∧ m.scope = Store.globalScope ∧ m.depth = 0 ∧
        OneByOne program.table.place program.statements (initial .unlimited) (m, some e) := by
  constructor
  · refine ((restores fun _ => .globals).1 _ _ 5 ?_ ⟨rfl, rfl⟩).1
    rintro k hk ⟨frames, result⟩
    have length := congrArg List.length frames
    interval_cases k
    · cases result
    all_goals cases length
  have ran : (Program.ofSource
      "fun f(a) \x7b \x7b print a; return -a; \x7d \x7d print f(nil); print true;").toOption.any
      (fun p : Program => decide ((resolve p.statements).errors.isEmpty = true ∧
        ∃ r ∈ (initial .unlimited).interpret p.table.place 100 p.statements,
          r.2.isSome = true ∧ r.1.sink.written = "nil\n".toUTF8)) = true := by decide +kernel
  obtain ⟨program, accepted, ran⟩ := Program.exists_ofSource ran
  obtain ⟨errors, ⟨m, e⟩, hr, failed, printed⟩ := of_decide_eq_true ran
  obtain ⟨e, rfl⟩ := Option.isSome_iff_exists.1 failed
  obtain ⟨-, session, together⟩ := restores program.table.place
  obtain ⟨scope, depth⟩ := session .unlimited m (.more .fresh hr)
  have apart := (together program.statements .unlimited (List.isEmpty_iff.1 errors) rfl (m, some e)).2 ⟨100, hr⟩
  exact ⟨program, 100, m, e, accepted, hr, printed, scope, depth, apart⟩

end Machine

end Lox
