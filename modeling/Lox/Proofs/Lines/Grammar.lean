/-
The grammar does not look at lines: tokens without lines are read as the tree without lines of the tokens themselves,
with the same errors up to lines (`parse_lineless`).
-/
import Lox.Proofs.Lines.Rule

namespace Lox

/-- Whether a level builds the same trees with and without lines. -/
def Level.Lineless (l : Level) : Prop :=
  ∀ operator a b, (l.build operator a b).lineless = l.build operator.lineless a.lineless b.lineless

theorem lineless_levels : ∀ l ∈ levels, l.Lineless := by
  simp only [levels, List.forall_mem_cons, List.not_mem_nil, false_imp_iff, implies_true, and_true]
  exact ⟨fun _ _ _ => rfl, fun _ _ _ => rfl, fun _ _ _ => rfl, fun _ _ _ => rfl, fun _ _ _ => rfl, fun _ _ _ => rfl⟩

namespace Rule

/-- Whether a rule reads the same expressions with and without lines. -/
def ExprLineless (r r' : Rule Expr) : Prop := Lineless Expr.lineless r r'

/-! ## Primary expressions, calls and properties -/

theorem primary_lineless {inner inner' : Rule Expr} (hi : inner.ExprLineless inner') :
    (primary inner).ExprLineless (primary inner') := by
  refine .bind peek_lineless fun t => ?_
  have kind : t.lineless.kind = t.kind := rfl
  have literal : t.lineless.literal = t.literal := rfl
  rw [kind, literal]
  cases t.kind with
  | falseWord => exact .bind advance_lineless fun _ => .pure (Expr.literal (.bool false))
  | trueWord => exact .bind advance_lineless fun _ => .pure (Expr.literal (.bool true))
  | nilWord => exact .bind advance_lineless fun _ => .pure (Expr.literal .nil)
  | number | string =>
    refine .bind advance_lineless fun _ => ?_
    cases t.literal with
    | some value => exact .pure (Expr.literal value)
    | none => exact .throw ⟨.missingExpression, t⟩
  | superWord =>
    refine .bind advance_lineless fun _ => .bind (expect_lineless .superDot) fun _ => ?_
    refine .bind (expect_lineless .superMethodName) fun method => .bind newUse_lineless fun id => ?_
    exact .pure (Expr.super id t method)
  | thisWord => exact .bind advance_lineless fun _ => .bind newUse_lineless fun id => .pure (Expr.self id t)
  | identifier => exact .bind advance_lineless fun _ => .bind newUse_lineless fun id => .pure (Expr.ref id t)
  | leftParen =>
    refine .bind advance_lineless fun _ => .bind hi fun e => ?_
    exact .bind (expect_lineless .groupEnd) fun _ => .pure (Expr.group e)
  | _ => exact stop_lineless .missingExpression

theorem arguments_lineless {inner inner' : Rule Expr} (hi : inner.ExprLineless inner') (fuel : Nat) :
    Lineless (List.map Expr.lineless) (arguments fuel inner) (arguments fuel inner') :=
  .bind (check_lineless .rightParen) fun _ => .ite Iff.rfl (.pure []) (entries_lineless .tooManyArguments hi fuel [])

theorem suffixes_lineless {inner inner' : Rule Expr} (hi : inner.ExprLineless inner') :
    ∀ (fuel : Nat) (e : Expr), (suffixes inner fuel e).ExprLineless (suffixes inner' fuel e.lineless)
  | 0, e => .pure e
  | fuel + 1, e => by
    refine .bind (accept_lineless .leftParen) fun _ => .ite Iff.rfl ?_ ?_
    · refine .bind (arguments_lineless hi (fuel + 1)) fun values => ?_
      refine .bind (expect_lineless .argumentsEnd) fun paren => ?_
      rw [← Expr.linelessAll_eq]
      exact suffixes_lineless hi fuel (.call e paren values)
    · refine .bind (accept_lineless .dot) fun _ => .ite Iff.rfl ?_ (.pure e)
      exact .bind (expect_lineless .propertyName) fun name => suffixes_lineless hi fuel (.get e name)

theorem call_lineless {inner inner' : Rule Expr} (hi : inner.ExprLineless inner') (fuel : Nat) :
    (call fuel inner).ExprLineless (call fuel inner') :=
  .bind (primary_lineless hi) (suffixes_lineless hi fuel)

/-! ## Operators -/

theorem leadingSigns_lineless : ∀ (fuel : Nat) (found : List Token),
    Lineless (List.map Token.lineless) (leadingSigns fuel found) (leadingSigns fuel (found.map Token.lineless))
  | 0, found => .pure found
  | fuel + 1, found => by
    refine .bind (acceptAny?_lineless signs) fun sign => ?_
    cases sign with
    | some sign => exact leadingSigns_lineless fuel (sign :: found)
    | none => exact .pure found

theorem foldl_unary_lineless (found : List Token) (e : Expr) :
    (found.map Token.lineless).foldl (fun e sign => .unary sign e) e.lineless =
      (found.foldl (fun e sign => .unary sign e) e).lineless := by
  induction found generalizing e with
  | nil => rfl
  | cons sign found ih => exact ih (.unary sign e)

theorem signed_lineless {inner inner' : Rule Expr} (hi : inner.ExprLineless inner') (fuel : Nat) :
    (signed fuel inner).ExprLineless (signed fuel inner') := by
  refine .bind (leadingSigns_lineless fuel []) fun found => .bind (call_lineless hi fuel) fun e => ?_
  rw [foldl_unary_lineless]
  exact .pure _

theorem chain_lineless {level : Level} (hl : level.Lineless) {operand operand' : Rule Expr}
    (ho : operand.ExprLineless operand') :
    ∀ (fuel : Nat) (left : Expr), (chain level operand fuel left).ExprLineless (chain level operand' fuel left.lineless)
  | 0, left => .pure left
  | fuel + 1, left => by
    refine .bind (acceptAny?_lineless level.operators) fun operator => ?_
    cases operator with
    | some operator =>
      refine .bind ho fun right => ?_
      rw [← hl]
      exact chain_lineless hl ho fuel (level.build operator left right)
    | none => exact .pure left

theorem operation_lineless {inner inner' : Rule Expr} (hi : inner.ExprLineless inner') (fuel : Nat) :
    (operation fuel inner).ExprLineless (operation fuel inner') := by
  have levelled : ∀ ls : List Level, (∀ l ∈ ls, l.Lineless) → ExprLineless
      (ls.foldr (leftAssociative fuel) (signed fuel inner)) (ls.foldr (leftAssociative fuel) (signed fuel inner')) := by
    intro ls hls
    induction ls with
    | nil => exact signed_lineless hi fuel
    | cons l ls ih =>
      obtain ⟨first, rest⟩ := List.forall_mem_cons.1 hls
      exact .bind (ih rest) (chain_lineless first (ih rest) fuel)
  exact levelled levels lineless_levels

theorem assignment_lineless {inner inner' : Rule Expr} (hi : inner.ExprLineless inner') (fuel : Nat) :
    (assignment fuel inner).ExprLineless (assignment fuel inner') := by
  refine .bind (operation_lineless hi fuel) fun target => .bind (acceptAny?_lineless [.equal]) fun equals => ?_
  cases equals with
  | none => exact .pure target
  | some equals =>
    refine .bind hi fun value => ?_
    cases target with
    | ref _ name => exact .bind newUse_lineless fun id => .pure (Expr.assign id name value)
    | get object name => exact .pure (Expr.set object name value)
    | _ => exact .bind (record_lineless .invalidTarget equals) fun _ => .pure _

theorem expression_lineless (fuel : Nat) : (expression fuel).ExprLineless (expression fuel) := by
  induction fuel with
  | zero => exact stop_lineless .missingExpression
  | succ fuel ih => exact assignment_lineless ih (fuel + 1)

/-! ## Sequences -/

/-- After an error the same tokens are skipped with and without lines. -/
theorem recovering_lineless {α : Type} {f : α → α} {rule rule' : Rule α} (h : Lineless f rule rule') :
    SureRule.Lineless (Option.map f) (recovering rule) (recovering rule') := by
  refine SureRule.Lineless.bind h fun result => ?_
  cases result with
  | ok a => exact .pure (some a)
  | error e =>
    refine .bind (.move fun c => ?_) fun _ => .pure none
    rw [c.record_lineless, Cursor.recover_lineless]

theorem sequence_lineless {α : Type} {f : α → α} {done : Cursor → Bool} (hd : ∀ c, done c.lineless = done c)
    {rule rule' : SureRule (Option α)} (h : SureRule.Lineless (Option.map f) rule rule') :
    ∀ (fuel : Nat) (found : List α),
      SureRule.Lineless (List.map f) (sequence done rule fuel found) (sequence done rule' fuel (found.map f))
  | 0, found => by
    unfold sequence
    rw [← List.map_reverse]
    exact .pure _
  | fuel + 1, found => by
    unfold sequence
    refine .bind .get fun c => .ite (by rw [hd]) ?_ (.bind h fun result => ?_)
    · rw [← List.map_reverse]
      exact .pure _
    · cases result with
      | some a => exact sequence_lineless hd h fuel (a :: found)
      | none => exact sequence_lineless hd h fuel found

theorem bodyDone_lineless (c : Cursor) : bodyDone c.lineless = bodyDone c := by
  simp [bodyDone]

/-- Whether a rule reads the same declarations with and without lines. -/
def DeclLineless (r r' : SureRule (Option Stmt)) : Prop := SureRule.Lineless (Option.map Stmt.lineless) r r'

/-- Whether a rule reads the same statements with and without lines. -/
def StmtLineless (r r' : Rule Stmt) : Prop := Lineless Stmt.lineless r r'

variable {e e' : Rule Expr} {declaration declaration' : SureRule (Option Stmt)} {statement statement' : Rule Stmt}

theorem block_lineless (hd : DeclLineless declaration declaration') (fuel : Nat) :
    Lineless Stmt.linelessAll (block fuel declaration) (block fuel declaration') := by
  rw [show Stmt.linelessAll = List.map Stmt.lineless from funext Stmt.linelessAll_eq]
  refine .bind (.lift (sequence_lineless bodyDone_lineless hd fuel [])) fun body => ?_
  exact .bind (expect_lineless .blockEnd) fun _ => .pure body

/-! ## Declarations -/

theorem parameters_lineless (fuel : Nat) :
    Lineless (List.map Token.lineless) (parameters fuel) (parameters fuel) :=
  .bind (check_lineless .rightParen) fun _ =>
    .ite Iff.rfl (.pure []) (entries_lineless .tooManyParameters (expect_lineless .parameterName) fuel [])

theorem routine_lineless (hd : DeclLineless declaration declaration') (role : Role) (fuel : Nat) :
    Lineless routineLineless (routine role fuel declaration) (routine role fuel declaration') := by
  refine .bind (expect_lineless (.routineName role)) fun name => ?_
  refine .bind (expect_lineless (.parameterList role)) fun _ => ?_
  refine .bind (parameters_lineless fuel) fun params => .bind (expect_lineless .parametersEnd) fun _ => ?_
  refine .bind (expect_lineless (.routineBody role)) fun _ => .bind (block_lineless hd fuel) fun body => ?_
  exact .pure (Routine.mk name params body)

theorem methods_lineless {method method' : Rule (Routine Stmt)} (h : Lineless routineLineless method method') :
    ∀ (fuel : Nat) (found : List (Routine Stmt)),
      Lineless methodsLineless (methods method fuel found) (methods method' fuel (methodsLineless found))
  | 0, found => by
    unfold methods
    rw [methodsLineless_eq, ← List.map_reverse, ← methodsLineless_eq]
    exact .pure _
  | fuel + 1, found => by
    unfold methods
    refine .bind .get fun c => .ite (by rw [bodyDone_lineless]) ?_ ?_
    · rw [methodsLineless_eq, ← List.map_reverse, ← methodsLineless_eq]
      exact .pure _
    · exact .bind h fun r => methods_lineless h fuel (r :: found)

theorem superclass?_lineless : Lineless (Option.map Expr.lineless) superclass? superclass? := by
  refine .bind (accept_lineless .less) fun _ => .ite Iff.rfl ?_ (.pure none)
  refine .bind (expect_lineless .superclassName) fun name => .bind newUse_lineless fun id => ?_
  exact .pure (some (Expr.ref id name))

theorem classDeclaration_lineless (hd : DeclLineless declaration declaration') (fuel : Nat) :
    (classDeclaration fuel declaration).StmtLineless (classDeclaration fuel declaration') := by
  refine .bind (expect_lineless .className) fun name => .bind superclass?_lineless fun superclass => ?_
  refine .bind (expect_lineless .classBody) fun _ => ?_
  refine .bind (methods_lineless (routine_lineless hd .method fuel) fuel []) fun rs => ?_
  exact .bind (expect_lineless .classEnd) fun _ => .pure (Stmt.classDecl name superclass rs)

theorem initializer?_lineless (he : e.ExprLineless e') :
    Lineless (Option.map Expr.lineless) (initializer? e) (initializer? e') :=
  .bind (accept_lineless .equal) fun _ => .ite Iff.rfl (.bind he fun x => .pure (some x)) (.pure none)

theorem varDeclaration_lineless (he : e.ExprLineless e') :
    (varDeclaration e).StmtLineless (varDeclaration e') := by
  refine .bind (expect_lineless .variableName) fun name => .bind (initializer?_lineless he) fun initial => ?_
  exact .bind (expect_lineless .variableEnd) fun _ => .pure (Stmt.varDecl name initial)

/-! ## Statements -/

theorem ended_lineless (he : e.ExprLineless e') (close : Expectation) :
    (ended e close).ExprLineless (ended e' close) :=
  .bind he fun x => .bind (expect_lineless close) fun _ => .pure x

theorem unless?_lineless (he : e.ExprLineless e') (kind : Kind) :
    Lineless (Option.map Expr.lineless) (unless? kind e) (unless? kind e') :=
  .bind (check_lineless kind) fun _ => .ite Iff.rfl (.pure none) (.bind he fun x => .pure (some x))

theorem forStart_lineless (he : e.ExprLineless e') :
    Lineless (Option.map Stmt.lineless) (forStart e) (forStart e') := by
  refine .bind (accept_lineless .semicolon) fun _ => .ite Iff.rfl (.pure none) ?_
  refine .bind (accept_lineless .varWord) fun _ => .ite Iff.rfl ?_ ?_
  · exact .bind (varDeclaration_lineless he) fun s => .pure (some s)
  · exact .bind (ended_lineless he .expressionEnd) fun x => .pure (some (Stmt.expression x))

theorem forBody_lineless (first : Option Stmt) (body : Stmt) :
    (forBody first body).StmtLineless (forBody (first.map Stmt.lineless) body.lineless) := by
  cases first with
  | none => exact .pure body
  | some s =>
    cases s with
    | varDecl name initial =>
      -- the slot stands on the line of the loop's variable, and goes to no line with it
      exact .bind (newUses_lineless _) fun id => .pure (ForLoop.pass id name body)
    | ifElse condition yes no =>
      rw [Option.map_some, Stmt.lineless_ifElse]
      exact .pure body
    | _ => exact .pure body

theorem forStatement_lineless (he : e.ExprLineless e') (hs : statement.StmtLineless statement') :
    (forStatement e statement).StmtLineless (forStatement e' statement') := by
  refine .bind (expect_lineless .forClauses) fun _ => .bind (forStart_lineless he) fun first => ?_
  refine .bind (unless?_lineless he .semicolon) fun condition => .bind (expect_lineless .forConditionEnd) fun _ => ?_
  refine .bind (unless?_lineless he .rightParen) fun increment => .bind (expect_lineless .forClausesEnd) fun _ => ?_
  refine .bind hs fun body => .bind (forBody_lineless first body) fun body => ?_
  rw [← ForLoop.lineless_withIncrement, ← ForLoop.lineless_whole]
  exact .pure _

theorem elseBranch?_lineless (hs : statement.StmtLineless statement') :
    Lineless (Option.map Stmt.lineless) (elseBranch? statement) (elseBranch? statement') :=
  .bind (accept_lineless .elseWord) fun _ => .ite Iff.rfl (.bind hs fun s => .pure (some s)) (.pure none)

theorem ifStatement_lineless (he : e.ExprLineless e') (hs : statement.StmtLineless statement') :
    (ifStatement e statement).StmtLineless (ifStatement e' statement') := by
  refine .bind (expect_lineless .ifCondition) fun _ => ?_
  refine .bind (ended_lineless he .ifConditionEnd) fun condition => .bind hs fun yes => ?_
  refine .bind (elseBranch?_lineless hs) fun no => ?_
  rw [← Stmt.lineless_ifElse]
  exact .pure _

theorem whileStatement_lineless (he : e.ExprLineless e') (hs : statement.StmtLineless statement') :
    (whileStatement e statement).StmtLineless (whileStatement e' statement') := by
  refine .bind (expect_lineless .whileCondition) fun _ => ?_
  refine .bind (ended_lineless he .whileConditionEnd) fun condition => .bind hs fun body => ?_
  exact .pure (Stmt.whileDo condition body)

theorem returnStatement_lineless (he : e.ExprLineless e') (keyword : Token) :
    (returnStatement keyword e).StmtLineless (returnStatement keyword.lineless e') := by
  refine .bind (unless?_lineless he .semicolon) fun value => .bind (expect_lineless .returnEnd) fun _ => ?_
  exact .pure (Stmt.ret keyword value)

theorem statementWith_lineless (he : e.ExprLineless e') (hs : statement.StmtLineless statement')
    (hd : DeclLineless declaration declaration') (fuel : Nat) :
    (statementWith fuel e statement declaration).StmtLineless (statementWith fuel e' statement' declaration') := by
  refine .bind peek_lineless fun t => ?_
  have kind : t.lineless.kind = t.kind := rfl
  rw [kind]
  cases t.kind with
  | forWord => exact .bind advance_lineless fun _ => forStatement_lineless he hs
  | ifWord => exact .bind advance_lineless fun _ => ifStatement_lineless he hs
  | printWord =>
    exact .bind advance_lineless fun _ => .bind (ended_lineless he .printEnd) fun x => .pure (Stmt.print x)
  | returnWord => exact .bind advance_lineless fun _ => returnStatement_lineless he t
  | whileWord => exact .bind advance_lineless fun _ => whileStatement_lineless he hs
  | leftBrace =>
    exact .bind advance_lineless fun _ => .bind (block_lineless hd fuel) fun body => .pure (Stmt.block body)
  | _ => exact .bind (ended_lineless he .expressionEnd) fun x => .pure (Stmt.expression x)

theorem declarationWith_lineless (he : e.ExprLineless e') (hs : statement.StmtLineless statement')
    (hd : DeclLineless declaration declaration') (fuel : Nat) :
    (declarationWith fuel e statement declaration).StmtLineless (declarationWith fuel e' statement' declaration') := by
  refine .bind peek_lineless fun t => ?_
  have kind : t.lineless.kind = t.kind := rfl
  rw [kind]
  cases t.kind with
  | classWord => exact .bind advance_lineless fun _ => classDeclaration_lineless hd fuel
  | funWord =>
    exact .bind advance_lineless fun _ => .bind (routine_lineless hd .function fuel) fun r => .pure (Stmt.funDecl r)
  | varWord => exact .bind advance_lineless fun _ => varDeclaration_lineless he
  | _ => exact hs

mutual

theorem statement_lineless : ∀ fuel : Nat, (Rule.statement fuel).StmtLineless (Rule.statement fuel)
  | 0 => stop_lineless .missingExpression
  | fuel + 1 =>
    statementWith_lineless (expression_lineless (fuel + 1)) (statement_lineless fuel) (declaration_lineless fuel)
      (fuel + 1)

theorem declaration_lineless : ∀ fuel : Nat, DeclLineless (Rule.declaration fuel) (Rule.declaration fuel)
  | 0 => recovering_lineless (stop_lineless .missingExpression)
  | fuel + 1 => by
    have expression := expression_lineless (fuel + 1)
    have declaration := declaration_lineless fuel
    have statement := statementWith_lineless expression (statement_lineless fuel) declaration (fuel + 1)
    exact recovering_lineless (declarationWith_lineless expression statement declaration (fuel + 1))

end

end Rule

/-! ## Programs -/

/-- What is read from tokens, without lines. -/
def Parse.lineless (p : Parse) : Parse := ⟨Stmt.linelessAll p.statements, p.errors.map SyntaxError.lineless, p.uses⟩

theorem Cursor.start_lineless (tokens : List Token) :
    (Cursor.start tokens).lineless = .start (tokens.map Token.lineless) := by
  simp [Cursor.start, Cursor.lineless, Token.lineless, Token.missing, Token.endAt]

theorem Rule.program_lineless (fuel : Nat) :
    SureRule.Lineless (List.map Stmt.lineless) (Rule.program fuel) (Rule.program fuel) :=
  Rule.sequence_lineless (fun c => c.atEnd_lineless) (Rule.declaration_lineless fuel) fuel []

theorem parse_eq_outcome (tokens : List Token) :
    parse tokens = ⟨(SureRule.outcome (Rule.program tokens.length) (.start tokens)).1,
      (SureRule.outcome (Rule.program tokens.length) (.start tokens)).2.errors.toList,
      (SureRule.outcome (Rule.program tokens.length) (.start tokens)).2.nextUse⟩ := rfl

/-- Tokens without lines are read as the tokens themselves, up to lines. -/
theorem parse_lineless (tokens : List Token) : parse (tokens.map Token.lineless) = (parse tokens).lineless := by
  have read := Rule.program_lineless tokens.length (.start tokens)
  rw [parse_eq_outcome, parse_eq_outcome, List.length_map, ← Cursor.start_lineless, read]
  simp [Parse.lineless, Stmt.linelessAll_eq, Cursor.lineless]

end Lox
