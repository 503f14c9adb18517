/-
Lines do not matter. Two texts with the same tokens up to lines print the same and end in the same way, and their errors
are the same one by one, but for the lines that they point at (`runSource_same`).
-/
import Lox.Proofs.Lines.Grammar
import Lox.Proofs.Lines.Machine
import Lox.Proofs.Lines.Walk
import Lox.Proofs.Machine.Runs
import Mathlib.Data.List.Forall2

namespace Lox

theorem forall₂_iff_map_eq {α β : Type} (f : α → β) {as bs : List α} :
    List.Forall₂ (fun a b => f b = f a) as bs ↔ bs.map f = as.map f := by
  induction as generalizing bs with
  | nil => cases bs <;> simp
  | cons a as ih => cases bs <;> simp [ih]

/-! ## Reports -/

namespace Diagnostic

/-- A report with another line. -/
def onLine (line : Nat) : Diagnostic → Diagnostic
  | lexical e => lexical { e with line }
  | grammar e => grammar { e with site := { e.site with line } }
  | binding e => binding { e with site := { e.site with line } }
  | runtime e => runtime { e with site := { e.site with line } }
  | sink fault => sink fault

/-- Whether two reports are the same but for their lines. -/
def Same (d d' : Diagnostic) : Prop := ∃ line, d' = d.onLine line

theorem same_of_onLine {d d' : Diagnostic} {line : Nat} (h : d'.onLine line = d.onLine line) : d.Same d' := by
  obtain ⟨line', h'⟩ : ∃ line', (d'.onLine line).onLine line' = d' := by
    cases d' with
    | lexical e => exact ⟨e.line, rfl⟩
    | grammar e | binding e | runtime e => exact ⟨e.site.line, rfl⟩
    | sink fault => exact ⟨0, rfl⟩
  refine ⟨line', ?_⟩
  rw [← h', h]
  cases d <;> rfl

end Diagnostic

namespace Ending

/-- An ending whose reports are on no line. -/
def lineless : Ending → Ending
  | success => success
  | rejected errors => rejected (errors.map (.onLine 0))
  | failed e => failed e.lineless

/-- Whether two programs end in the same way, with the same reports but for their lines. -/
inductive Same : Ending → Ending → Prop
  | success : Same .success .success
  | rejected {errors errors' : List Diagnostic} (h : List.Forall₂ Diagnostic.Same errors errors') :
    Same (.rejected errors) (.rejected errors')
  | failed {e e' : Failure} (h : (Diagnostic.ofFailure e).Same (.ofFailure e')) : Same (.failed e) (.failed e')

theorem onLine_ofFailure (e : Failure) : (Diagnostic.ofFailure e).onLine 0 = .ofFailure e.lineless := by
  cases e <;> rfl

theorem same_of_lineless {e e' : Ending} (h : e'.lineless = e.lineless) : e.Same e' := by
  cases e with
  | success =>
    cases e' with
    | success => exact .success
    | rejected _ | failed _ => cases h
  | rejected errors =>
    cases e' with
    | rejected errors' =>
      have equal : errors'.map (Diagnostic.onLine 0) = errors.map (.onLine 0) := rejected.inj h
      exact .rejected (((forall₂_iff_map_eq _).2 equal).imp fun _ _ => Diagnostic.same_of_onLine)
    | success | failed _ => cases h
  | failed e =>
    cases e' with
    | failed e' =>
      have equal : (Diagnostic.ofFailure e').onLine 0 = (Diagnostic.ofFailure e).onLine 0 := by
        rw [onLine_ofFailure, onLine_ofFailure, failed.inj h]
      exact .failed (Diagnostic.same_of_onLine equal)
    | success | rejected _ => cases h

end Ending

namespace Outcome

/-- An outcome whose reports are on no line. -/
def lineless (o : Outcome) : Outcome := { o with ending := o.ending.lineless }

/-- Whether two programs print the same and end in the same way, with the same reports but for their lines. -/
structure Same (o o' : Outcome) : Prop where
  printed : o'.printed = o.printed
  ending : o.ending.Same o'.ending

theorem same_of_lineless {o o' : Outcome} (h : o'.lineless = o.lineless) : o.Same o' := by
  have printed : o'.lineless.printed = o.lineless.printed := by rw [h]
  have ending : o'.lineless.ending = o.lineless.ending := by rw [h]
  exact ⟨printed, Ending.same_of_lineless ending⟩

end Outcome

/-! ## Runs -/

namespace Machine

variable (m : Machine)

theorem halted_lineless : m.lineless.halted = m.halted := by
  obtain ⟨control, frames, scope, depth, store, sink⟩ := m
  cases control <;> cases frames <;> rfl

theorem run_lineless (place : UseId → Place) (fuel : Nat) :
    run place fuel m.lineless = (run place fuel m).map lineless := by
  induction fuel generalizing m with
  | zero =>
    unfold run
    rw [halted_lineless]
    split <;> rfl
  | succ fuel ih =>
    unfold run
    rw [halted_lineless, step_lineless, ih]
    split <;> rfl

theorem verdict_lineless : m.lineless.verdict = m.verdict.map Failure.lineless := by
  obtain ⟨control, frames, scope, depth, store, sink⟩ := m
  cases control with
  | failed e => rfl
  | exec _ | eval _ | value _ | finished _ =>
    show sink.flushFault?.map .sink = (sink.flushFault?.map .sink).map Failure.lineless
    cases sink.flushFault? <;> rfl

theorem outcome_lineless : m.lineless.outcome = m.outcome.lineless := by
  unfold outcome
  rw [verdict_lineless]
  cases m.verdict <;> rfl

theorem start_lineless (sink : Sink) (statements : List Stmt) :
    start sink (Stmt.linelessAll statements) = (start sink statements).lineless := by
  have store : Store.initial.lineless = Store.initial := by
    simp [Store.lineless, Store.initial, Store.empty, Store.addScope]
  unfold start lineless load initial
  rw [store]
  rfl

end Machine

/-- Statements without lines have the outcome of the statements themselves, up to lines. -/
theorem runStatements_lineless (place : UseId → Place) (fuel : Nat) (statements : List Stmt) (sink : Sink) :
    runStatements place fuel (Stmt.linelessAll statements) sink =
      (runStatements place fuel statements sink).map Outcome.lineless := by
  rw [Machine.runStatements_eq, Machine.runStatements_eq, Machine.start_lineless, Machine.run_lineless, Option.map_map,
    Option.map_map]
  congr 1
  exact funext Machine.outcome_lineless

/-! ## Programs -/

/-- The program of tokens, or the errors of the first stage that found any. -/
def Program.ofTokens (tokens : List Token) : Except (List Diagnostic) Program :=
  let parsed := parse tokens
  if !parsed.errors.isEmpty then .error (parsed.errors.map .grammar)
  else
    let resolved := resolve parsed.statements
    if !resolved.errors.isEmpty then .error (resolved.errors.map .binding)
    else .ok ⟨parsed.statements, resolved.table⟩

/-- Runs the program of tokens, if it ends within `fuel` steps. -/
def runTokens (fuel : Nat) (tokens : List Token) (sink : Sink) : Option Outcome :=
  match Program.ofTokens tokens with
  | .error errors => some ⟨sink.written, .rejected errors⟩
  | .ok program => runStatements program.table.place fuel program.statements sink

/-- Without errors in its text a program is that of its tokens. -/
theorem runSource_eq_runTokens {source : String} (scans : (scan source).errors = []) (fuel : Nat) (sink : Sink) :
    runSource fuel source sink = runTokens fuel (scan source).tokens sink := by
  simp only [runSource, Program.ofSource, scans]
  rfl

theorem runTokens_lineless (fuel : Nat) (tokens : List Token) (sink : Sink) :
    runTokens fuel (tokens.map Token.lineless) sink = (runTokens fuel tokens sink).map Outcome.lineless := by
  simp only [runTokens, Program.ofTokens, parse_lineless, Parse.lineless, resolve_lineless, List.isEmpty_map]
  cases (parse tokens).errors.isEmpty with
  | false => simp [Outcome.lineless, Ending.lineless, Function.comp_def, Diagnostic.onLine, SyntaxError.lineless,
      Token.lineless]
  | true =>
    cases (resolve (parse tokens).statements).errors.isEmpty with
    | false => simp [Outcome.lineless, Ending.lineless, Function.comp_def, Diagnostic.onLine, BindingError.lineless,
        Token.lineless]
    | true => exact runStatements_lineless _ fuel _ sink

/-- Two texts without errors whose tokens are the same up to lines have outcomes after so many steps, or have none, and
these are the same up to the lines of their reports. -/
theorem runSource_same {source source' : String} (scans : (scan source).errors = [])
    (scans' : (scan source').errors = [])
    (same : List.Forall₂ Token.Same (scan source).tokens (scan source').tokens) (fuel : Nat) (sink : Sink) :
    Option.Rel Outcome.Same (runSource fuel source sink) (runSource fuel source' sink) := by
  have tokens : (scan source').tokens.map Token.lineless = (scan source).tokens.map Token.lineless :=
    (forall₂_iff_map_eq _).1 (same.imp fun _ _ => Token.same_iff.1)
  have lineless : (runSource fuel source' sink).map Outcome.lineless =
      (runSource fuel source sink).map Outcome.lineless := by
    rw [runSource_eq_runTokens scans, runSource_eq_runTokens scans', ← runTokens_lineless, ← runTokens_lineless, tokens]
  cases ho : runSource fuel source sink with
  | none =>
    rw [ho] at lineless
    rw [Option.map_eq_none_iff.1 lineless]
    exact .none
  | some o =>
    rw [ho] at lineless
    obtain ⟨o', ho', equal⟩ := Option.map_eq_some_iff.1 lineless
    rw [ho']
    exact .some (Outcome.same_of_lineless equal)

/-- A statement over three lines fails on the third of them, and on the first if it is on one line. -/
theorem runSource_same_spread :
    ∃ o o', runSource 50 "\x7b var a; print a; -a; \x7d" .unlimited = some o ∧
      runSource 50 "\x7b var a; // nil\nprint a;\n-\na; \x7d" .unlimited = some o' ∧ o.Same o' ∧
        o.printed = "nil\n".toUTF8 ∧ o.ending.report = "Operand must be a number.\n[line 1]" ∧
          o'.ending.report = "Operand must be a number.\n[line 3]" := by
  have same : List.Forall₂ Token.Same (scan "\x7b var a; print a; -a; \x7d").tokens
      (scan "\x7b var a; // nil\nprint a;\n-\na; \x7d").tokens := by
    have equal : (scan "\x7b var a; // nil\nprint a;\n-\na; \x7d").tokens.map Token.lineless =
        (scan "\x7b var a; print a; -a; \x7d").tokens.map Token.lineless := by decide +kernel
    exact ((forall₂_iff_map_eq _).2 equal).imp fun _ _ => Token.same_iff.2
  have outcomes := runSource_same (by decide +kernel) (by decide +kernel) same 50 .unlimited
  have ran : ∃ o ∈ runSource 50 "\x7b var a; print a; -a; \x7d" .unlimited,
      o.printed = "nil\n".toUTF8 ∧ o.ending.report = "Operand must be a number.\n[line 1]" := by decide +kernel
  have ran' : ∃ o ∈ runSource 50 "\x7b var a; // nil\nprint a;\n-\na; \x7d" .unlimited,
      o.ending.report = "Operand must be a number.\n[line 3]" := by decide +kernel
  obtain ⟨o, ho, printed, report⟩ := ran
  obtain ⟨o', ho', report'⟩ := ran'
  rw [ho, ho'] at outcomes
  cases outcomes with
  | some same => exact ⟨o, o', ho, ho', same, printed, report, report'⟩

end Lox
