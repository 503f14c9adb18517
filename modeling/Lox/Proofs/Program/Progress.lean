/-
Reading comes to an end. Every declaration takes a token, so the bounds on nesting and on the lengths of lists are never
used up, whatever the tokens are: any larger bounds give the same, and so does anything that is done in place of a rule
where nesting goes beyond its bound. The tokens before the first end token are taken, and each error that is found can be
charged to one of them (`parse_terminates`).
-/
import Lox.Proofs.Grammar.PaysProgram
import Lox.Proofs.Program.Append

namespace Lox

namespace Rule

/-! ## Beyond the bounds -/

/-- What is done in place of a rule where the bound on nesting is used up. -/
structure Beyond where
  expression : Rule Expr
  statement : Rule Stmt
  declaration : SureRule (Option Stmt)

/-- An expression in which lists have at most `loops` entries, and in which anything may be done in place of an expression
that is `depth` deep. -/
def expressionOr (beyond : Beyond) (loops : Nat) : (depth : Nat) → Rule Expr
  | 0 => beyond.expression
  | depth + 1 => assignment loops (expressionOr beyond loops depth)

mutual

/-- A statement in which lists have at most `loops` entries, and in which anything may be done in place of what is `depth`
deep. -/
def statementOr (beyond : Beyond) (loops : Nat) : (depth : Nat) → Rule Stmt
  | 0 => beyond.statement
  | depth + 1 =>
    statementWith loops (expressionOr beyond loops (depth + 1)) (statementOr beyond loops depth)
      (declarationOr beyond loops depth)

/-- A declaration in which lists have at most `loops` entries, and in which anything may be done in place of what is `depth`
deep. -/
def declarationOr (beyond : Beyond) (loops : Nat) : (depth : Nat) → SureRule (Option Stmt)
  | 0 => beyond.declaration
  | depth + 1 =>
    recovering
      (declarationWith loops (expressionOr beyond loops (depth + 1))
        (statementWith loops (expressionOr beyond loops (depth + 1)) (statementOr beyond loops depth)
          (declarationOr beyond loops depth))
        (declarationOr beyond loops depth))

end

/-- Reads a program of at most `loops` declarations with such rules. -/
def parseOr (beyond : Beyond) (loops depth : Nat) (tokens : List Token) : Parse :=
  let (statements, cursor) :=
    SureRule.outcome (sequence Cursor.atEnd (declarationOr beyond loops depth) loops []) (.start tokens)
  ⟨statements, cursor.errors.toList, cursor.nextUse⟩

section

variable {x : Extension} (beyond : Beyond)

theorem expressionOr_extends : ∀ (n : Nat) {fuel loops depth : Nat}, n ≤ fuel → n + x.more.length ≤ loops →
    n + x.more.length < depth → ExprExtends x (n + 1) (expression fuel) (expressionOr beyond loops depth) := by
  intro n
  induction n with
  | zero =>
    intro fuel loops depth _ _ deep c hn
    obtain ⟨depth, rfl⟩ : ∃ k, depth = k + 1 := ⟨depth - 1, by omega⟩
    exact .ofStopsAtEnd (expression_atEnd _) (operation_atEnd _ _).bind (List.eq_nil_of_length_eq_zero (by omega))
  | succ n ih =>
    intro fuel loops depth enough enough' deep
    obtain ⟨fuel, rfl⟩ : ∃ k, fuel = k + 1 := ⟨fuel - 1, by omega⟩
    obtain ⟨depth, rfl⟩ : ∃ k, depth = k + 1 := ⟨depth - 1, by omega⟩
    exact assignment_extends (ih (by omega) (by omega) (by omega)) enough enough'

/-- Where there is more nesting allowed for than there are tokens, nothing beyond the bound comes into play. -/
theorem programOr_extends (other : HeadNot (· = .elseWord) x.more) : ∀ (n : Nat) {fuel loops depth : Nat}, n ≤ fuel →
    n + x.more.length ≤ loops → n + x.more.length < depth →
    StmtExtends x (n + 1) (Rule.statement fuel) (statementOr beyond loops depth) ∧
      SureRule.DeclExtends x (n + 1) (Rule.declaration fuel) (declarationOr beyond loops depth) := by
  intro n
  induction n with
  | zero =>
    intro fuel loops depth _ _ deep
    obtain ⟨depth, rfl⟩ : ∃ k, depth = k + 1 := ⟨depth - 1, by omega⟩
    have stops : StopsAtEnd .missingExpression (statementOr beyond loops (depth + 1)) :=
      statementWith_atEnd (operation_atEnd _ _).bind _ _ _
    constructor
    · intro c hn
      exact .ofStopsAtEnd (statement_atEnd _) stops (List.eq_nil_of_length_eq_zero (by omega))
    · obtain ⟨r, hr, stops'⟩ := declaration_atEnd fuel
      rw [hr]
      refine recovering_extends fun c hn => ?_
      exact .ofStopsAtEnd stops' (declarationWith_atEnd stops _ _ _) (List.eq_nil_of_length_eq_zero (by omega))
  | succ n ih =>
    intro fuel loops depth enough enough' deep
    obtain ⟨fuel, rfl⟩ : ∃ k, fuel = k + 1 := ⟨fuel - 1, by omega⟩
    obtain ⟨depth, rfl⟩ : ∃ k, depth = k + 1 := ⟨depth - 1, by omega⟩
    obtain ⟨statement, declaration⟩ := @ih fuel loops depth (by omega) (by omega) (by omega)
    have expression := expressionOr_extends (x := x) beyond (n + 1) enough enough' deep
    have stops := expression_atEnd (fuel + 1)
    have top : StmtExtends x (n + 2) (Rule.statement (fuel + 1)) (statementOr beyond loops (depth + 1)) :=
      statementWith_extends other expression stops statement declaration (by omega) (by omega)
    refine ⟨top, recovering_extends ?_⟩
    exact declarationWith_extends expression top (statement_atEnd (fuel + 1)) declaration (by omega) (by omega)

/-- A program is read in the same way whatever is done beyond the bounds, if they are no less than its length. -/
theorem parseOr_eq {tokens : List Token} {loops depth : Nat} (enough : tokens.length ≤ loops)
    (deep : tokens.length < depth) : parseOr beyond loops depth tokens = parse tokens := by
  have none : HeadNot (· = .elseWord) (Extension.up 0).more := fun _ ht => by cases ht
  have read := (programOr_extends (x := .up 0) beyond none tokens.length (Nat.le_refl _) enough deep).2
  have whole := sequence_extends looksAtNext_atEnd read tokens.length loops [] (.start tokens) (Nat.lt_succ_self _)
    (Nat.le_refl _) enough (Nat.le_refl _) (Extension.within_up 0 _)
  have start : (Extension.up 0).Beside (.start tokens) (.start tokens) := ⟨(List.append_nil _).symm, rfl, rfl⟩
  rcases whole.same _ start with ⟨more, -⟩ | ⟨statements, beside⟩
  · exact absurd rfl more
  · have raise : ∀ ss : List Stmt, ss.map (Stmt.raise 0) = ss := fun ss => by
      rw [← Stmt.raiseAll_eq, Stmt.raiseAll_zero]
    rw [parse_eq_declarations, parseOr, Parse.mk.injEq]
    exact ⟨statements.trans (raise _), congrArg Array.toList beside.errors, beside.uses⟩

end

end Rule

/-- Where a cursor that takes no end token comes to the end, it has taken all tokens before the first one. -/
theorem Cursor.Onward.rest_of_atEnd {c c' : Cursor} (h : c.Onward c') (atEnd : c'.atEnd = true) :
    beforeEnd c.rest ++ c'.rest = c.rest ∧ c'.rest = c.rest.dropWhile (·.kind != .endOfInput) := by
  obtain ⟨taken, hr, endless⟩ := h
  have before : beforeEnd c.rest = taken := by rw [hr, beforeEnd_append endless (beforeEnd_of_atEnd atEnd)]
  have whole : beforeEnd c.rest ++ c'.rest = c.rest := by rw [before, hr]
  have split : beforeEnd c.rest ++ c.rest.dropWhile (·.kind != .endOfInput) = c.rest := List.takeWhile_append_dropWhile
  exact ⟨whole, List.append_cancel_left (whole.trans split.symm)⟩

/--
Whatever the tokens are, in any order, with any number of end tokens or none: reading them comes to an end. Nothing is done
beyond the bounds on nesting and lists, if these are no less than the number of tokens. No rule takes an end token, and a
declaration that is begun before the end takes a token, whether it is read or ends with an error. The tokens before the
first end token are all taken, and there are no more errors than these.
-/
theorem parse_terminates (tokens : List Token) :
    (∀ (beyond : Rule.Beyond) (loops depth : Nat), tokens.length ≤ loops → tokens.length < depth →
      Rule.parseOr beyond loops depth tokens = parse tokens) ∧
    (∀ (depth : Nat) (c : Cursor), c.Onward (SureRule.outcome (Rule.expression depth).run c).2 ∧
      c.Onward (SureRule.outcome (Rule.statement depth).run c).2 ∧
      (¬c.atEnd = true → c.Onward (SureRule.outcome (Rule.declaration depth) c).2 ∧
        (SureRule.outcome (Rule.declaration depth) c).2.rest.length < c.rest.length)) ∧
    (SureRule.outcome (Rule.program tokens.length) (.start tokens)).2.rest =
      tokens.dropWhile (·.kind != .endOfInput) ∧
    (parse tokens).errors.length ≤ (beforeEnd tokens).length := by
  have declaration := Rule.declaration_proceeds tokens.length
  have pays : (Cursor.start tokens).Pays tokens.length (SureRule.outcome (Rule.program tokens.length) _).2 :=
    Rule.sequence_pays Rule.looksAtNext_atEnd declaration tokens.length [] (.start tokens)
  have atEnd := Rule.sequence_atEnd_of_length_le declaration tokens.length [] (.start tokens) (Nat.le_refl _)
  obtain ⟨whole, rest⟩ := pays.onward.rest_of_atEnd atEnd
  refine ⟨fun beyond _ _ enough deep => Rule.parseOr_eq beyond enough deep, fun depth c => ⟨?_, ?_, fun go => ?_⟩, rest, ?_⟩
  · exact (Rule.expression_pays depth c).onward
  · exact (Rule.statement_begins depth c).pays.onward
  · obtain ⟨pays, shorter⟩ := Rule.declaration_proceeds depth c go
    exact ⟨pays.onward, shorter⟩
  · -- the budget is made up of the tokens that are left and of the errors
    have within : _ + _ ≤ tokens.length := pays.within
    have length := congrArg List.length whole
    rw [List.length_append] at length
    have errors : (parse tokens).errors.length =
        (SureRule.outcome (Rule.program tokens.length) (.start tokens)).2.errors.size := Array.length_toList
    have start : (Cursor.start tokens).rest = tokens := rfl
    rw [start] at length
    omega

/-- Four errors are found in the ten tokens before the first of two end tokens. -/
theorem parse_terminates_faulty :
    let tokens := (scan "fun ( ; ) ; a() = b").tokens ++ (scan "c;").tokens
    tokens.length = 14 ∧ (beforeEnd tokens).length = 10 ∧ (parse tokens).errors.map (·.fault) =
      [.missing (.routineName .function), .missingExpression, .invalidTarget, .missing .expressionEnd] ∧
      (parse tokens).errors.length ≤ (beforeEnd tokens).length ∧ ∀ beyond,
        Rule.parseOr beyond 14 15 tokens = parse tokens := by
  intro tokens
  have lengths : tokens.length = 14 ∧ (beforeEnd tokens).length = 10 := by decide +kernel
  obtain ⟨bounds, -, -, errors⟩ := parse_terminates tokens
  exact ⟨lengths.1, lengths.2, by decide +kernel, errors, fun beyond => bounds beyond 14 15 (by omega) (by omega)⟩

end Lox
