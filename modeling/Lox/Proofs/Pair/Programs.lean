/-
Whole programs whose statements are alike. If the one on the left breaks no rule of names, neither does the one on the
right, and with the tables that the walks make for them they run side by side: they end alike, or neither ends.
-/
import Lox.Proofs.Pair.Runs
import Lox.Proofs.Pair.Walks

namespace Lox

/-! ## Before the run -/

namespace Alike

variable {c : Change} {source : Manner} {links : List Link}

/-- What is repeated in a plain loop has uses that are also in a pass with the last clause. -/
theorem uses_pass {s s' : Stmt} (h : s'.uses.Sublist s.uses) {increment increment' : Option Expr}
    (clause : (Stmt.usesAll (ForLoop.lastClause increment')).Sublist (Stmt.usesAll (ForLoop.lastClause increment)))
    (id : UseId) (name : Token) :
    (Stmt.block (s' :: ForLoop.lastClause increment')).uses.Sublist
      (ForLoop.withIncrement increment (ForLoop.pass id name s)).uses := by
  have own : (ForLoop.pass id name s).uses = [id + 3, id] ++ s.uses ++ [id + 1, id + 2, id + 4, id + 5] := by
    simp [ForLoop.pass, Stmt.uses, Stmt.usesAll, Expr.usesOption, Expr.uses]
  have body : s'.uses.Sublist (ForLoop.pass id name s).uses := by
    rw [own]
    exact h.trans ((List.sublist_append_right _ _).trans (List.sublist_append_left _ _))
  cases increment with
  | none =>
    have none : Stmt.usesAll (ForLoop.lastClause increment') = [] := List.sublist_nil.1 clause
    show (s'.uses ++ Stmt.usesAll (ForLoop.lastClause increment')).Sublist _
    rw [none, List.append_nil]
    exact body
  | some e => exact body.append clause

/-- Parts that are alike have the same uses, but for those that a loop has of its own. -/
theorem uses_sublist {code code' : Code} (h : Alike c source links code code') : code'.uses.Sublist code.uses := by
  induction h with
  | literal _ | ref _ _ | self _ _ | super _ _ _ | noExprs | varDecl _ _ | ret _ | noStmts | noMethods =>
    exact .refl _
  | unary _ _ ih | group _ ih | get _ _ ih | expression _ ih | print _ ih | varInit _ _ _ ih | block _ _ ih
  | funDecl _ _ _ ih | retValue _ _ ih | classDecl _ _ _ ih | routine _ _ _ _ _ ih => exact ih
  | assign _ _ _ ih => exact ih.append (.refl _)
  | binary _ _ _ ih ih' | logical _ _ _ ih ih' | call _ _ _ ih ih' | moreExprs _ _ ih ih' | ifThen _ _ ih ih'
  | whileDo _ _ ih ih' | subclass _ _ _ _ ih ih' | moreStmts _ _ ih ih' | moreMethods _ _ ih ih' => exact ih.append ih'
  | set _ _ _ ih ih' => exact ih'.append ih
  | ifElse _ _ _ ih ih' ih'' => exact ih.append (ih'.append ih'')
  | @forLoop _ id _ _ name _ _ _ _ _ _ _ _ _ _ _ _ _ _ first test clause body =>
    exact first.append ((test.append (uses_pass body clause id name)).append (.refl _))
  | @passes _ id _ _ _ _ name _ _ _ _ _ _ _ test clause body => exact test.append (uses_pass body clause id name)

/-- If the statements on the left break no rule, those on the right do not either, and they are alike when they run.
Where no loop has two forms, the table stays the same. -/
theorem resolved {statements statements' : List Stmt} {table : Table} {straight : Prop}
    (h : Alike c source [] (.stmts statements) (.stmts statements')) (resolved : Resolved statements table)
    (proper : c.Proper) (leads : source.Leads c table straight) :
    (Stmt.usesAll statements').Nodup ∧ (resolve statements').errors = [] ∧
      (straight → (resolve statements').table = table) ∧
      Alike c (.running c table (resolve statements').table) [] (.stmts statements) (.stmts statements') := by
  have apart : (Stmt.usesAll statements').Nodup := h.uses_sublist.nodup resolved.apart
  have entered : Stop.Entered (resolve statements').table (Stop.start statements') :=
    ⟨apart, fun id _ => Table.get?_empty id, fun _ _ => rfl⟩
  have single : straight → ∀ link ∈ ([] : List Link), link.Single := fun _ _ h => absurd h List.not_mem_nil
  have start : Walk.Beside c straight [] .start .start := ⟨.beyond [], rfl, single, fun _ => rfl⟩
  obtain ⟨beside, alike⟩ := h.keepBeside proper leads resolved.checked_start entered (fun _ => trivial) start
  refine ⟨apart, congrArg Array.toList beside.errors, fun hs => ?_, alike⟩
  rw [← resolved.table]
  exact beside.table hs

end Alike

/-! ## The run -/

/-- Whether two endings are the same, but for the name of a variable in a failure. -/
def Ending.Like (c : Change) : Ending → Ending → Prop
  | .success, .success => True
  | .failed e, .failed e' => e.Like c e'
  | _, _ => False

/-- Whether two outcomes are the same, but for the name of a variable in a failure. -/
structure Outcome.Like (c : Change) (o o' : Outcome) : Prop where
  printed : o'.printed = o.printed
  ending : o.ending.Like c o'.ending

namespace Machine

open Sides

variable {p : Pairing} {statements statements' : List Stmt}

theorem sides_initial (p : Pairing) : Sound p ⟨fun _ => none, Store.initial, Store.initial⟩ where
  start := ⟨Nat.one_pos, Nat.one_pos⟩
  outermost := ⟨rfl, rfl⟩
  tied _ _ _ h := by cases h
  single _ _ _ _ _ h := by cases h
  values := by
    rintro _ _ n _ (⟨rfl, rfl, rfl⟩ | ⟨_, h, _⟩)
    · exact ⟨rfl, fun _ h => by cases h⟩
    · cases h
  closures := rfl
  classes := rfl
  instances := rfl
  fields _ _ h := by cases h
  methods _ _ h := by cases h

/-- Programs that are alike start side by side. -/
theorem together_start (alike : p.Alike [] (.stmts statements) (.stmts statements')) (sink : Sink) :
    Together p (start sink statements) (start sink statements') :=
  ⟨_, 0, .ending, ⟨sides_initial p, .cons (.sequence ⟨[], .globals, alike⟩) .nil, Nat.zero_le _, rfl, rfl⟩,
    .finished .normal fun _ e => by cases e⟩

/-- Machines that have halted alike have outcomes that are alike. -/
theorem Agree.outcome {m m' : Machine} (h : Agree p m m') : Outcome.Like p.change m.outcome m'.outcome := by
  unfold Machine.outcome verdict
  rw [h.sink]
  have failure := h.failure
  generalize m.failure? = e, m'.failure? = e' at failure
  cases failure with
  | some like => exact ⟨rfl, like⟩
  | none =>
    dsimp only
    cases m.sink.flushFault? with
    | none => exact ⟨rfl, trivial⟩
    | some fault => exact ⟨rfl, rfl⟩

/-- Programs that are alike have outcomes that are alike, or none of them ends. -/
theorem runStatements_alike (resolved : Resolved statements p.table)
    (alike : p.Alike [] (.stmts statements) (.stmts statements')) (sink : Sink) :
    (∀ fuel o, runStatements p.table.place fuel statements sink = some o →
        ∃ fuel' o', runStatements p.table'.place fuel' statements' sink = some o' ∧ o.Like p.change o') ∧
      ∀ fuel' o', runStatements p.table'.place fuel' statements' sink = some o' →
        ∃ fuel o, runStatements p.table.place fuel statements sink = some o ∧ o.Like p.change o' := by
  obtain ⟨forth, back⟩ := (together_start alike sink).ends resolved (conforms_start statements sink)
  constructor
  · intro fuel o ho
    obtain ⟨halted, rfl⟩ := runStatements_eq_some_iff.1 ho
    obtain ⟨fuel', agree⟩ := forth fuel halted
    exact ⟨fuel', _, runStatements_eq_some_iff.2 ⟨agree.halted.2, rfl⟩, agree.outcome⟩
  · intro fuel' o' ho'
    obtain ⟨halted, rfl⟩ := runStatements_eq_some_iff.1 ho'
    obtain ⟨fuel, agree⟩ := back fuel' halted
    exact ⟨fuel, _, runStatements_eq_some_iff.2 ⟨agree.halted.1, rfl⟩, agree.outcome⟩

end Machine

end Lox
