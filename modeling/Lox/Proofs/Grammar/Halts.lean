/-
Where rules stop. `Halts r` says of a rule that it takes no end token and leaves the errors found before as they are,
whatever comes of it, and that the error that stops it, if one does, names the token that is next then. Only a constant
without a value has been taken already when it turns out to have none. There is one lemma for each way to put rules
together, one for each rule that reads a token, and one for each rule of the grammar, up to the rule that a declaration
tries (`attempt_halts`).
-/
import Lox.Proofs.Grammar.PaysProgram

namespace Lox

/-- Whether a token should carry a value and does not; no text has such a token. -/
def Token.Valueless (t : Token) : Prop := (t.kind = .number ∨ t.kind = .string) ∧ t.literal = none

/-! ## Cursors -/

namespace Cursor

variable {c c' c'' : Cursor}

/-- From one cursor to another: tokens are only taken, none of them is an end token, and errors are only added. -/
structure Keeps (c c' : Cursor) : Prop where
  onward : c.Onward c'
  errors : c.errors.toList <+: c'.errors.toList

namespace Keeps

theorem refl (c : Cursor) : Keeps c c := ⟨.refl c, List.prefix_refl _⟩

theorem trans (h : Keeps c c') (h' : Keeps c' c'') : Keeps c c'' :=
  ⟨h.onward.trans h'.onward, h.errors.trans h'.errors⟩

theorem advance (c : Cursor) : Keeps c c.advance := ⟨.advance c, by simp only [Rule.errors_advance, List.prefix_rfl]⟩

theorem record (c : Cursor) (e : SyntaxError) : Keeps c (c.record e) := by
  refine ⟨.record c e, ?_⟩
  show c.errors.toList <+: (c.errors.push e).toList
  rw [Array.toList_push]
  exact List.prefix_append _ _

end Keeps

theorem Keeps.recover (c : Cursor) : Keeps c c.recover := ⟨.recover c, by simp only [errors_recover, List.prefix_rfl]⟩

end Cursor

/-! ## Rules that never stop -/

/-- Whether a rule that never stops takes no end token and leaves the errors found before. -/
def SureRule.Keeps {α : Type} (r : SureRule α) : Prop := ∀ c : Cursor, c.Keeps (outcome r c).2

/-! ## Rules that can stop -/

/-- Whether a rule, at a cursor, takes no end token, leaves the errors found before, and stops at the next token, if it
stops. -/
structure Rule.HaltsAt {α : Type} (r : Rule α) (c : Cursor) : Prop where
  keeps : c.Keeps (SureRule.outcome r.run c).2
  site : ∀ e, (SureRule.outcome r.run c).1 = .error e → e.site = (SureRule.outcome r.run c).2.peek ∨ e.site.Valueless

/-- Whether a rule takes no end token, leaves the errors found before, and stops at the next token, if it stops. -/
def Rule.Halts {α : Type} (r : Rule α) : Prop := ∀ c, HaltsAt r c

namespace Rule

variable {α β : Type} {r : Rule α} {f : α → Rule β} {c c' : Cursor}

namespace HaltsAt

theorem ok {a : α} (run : SureRule.outcome r.run c = (.ok a, c')) (keeps : c.Keeps c') : HaltsAt r c := by
  refine ⟨run ▸ keeps, fun e he => ?_⟩
  rw [run] at he
  cases he

theorem error {e : SyntaxError} (run : SureRule.outcome r.run c = (.error e, c')) (keeps : c.Keeps c')
    (site : e.site = c'.peek ∨ e.site.Valueless) : HaltsAt r c := by
  refine ⟨run ▸ keeps, fun e' he => ?_⟩
  rw [run] at he ⊢
  cases he
  exact site

theorem bind (h : HaltsAt r c) (h' : ∀ a, Halts (f a)) : HaltsAt (r >>= f) c := by
  have run : SureRule.outcome (r >>= f).run c = SureRule.outcome (r.run >>= ExceptT.bindCont f) c := rfl
  rw [SureRule.outcome_bind] at run
  obtain ⟨keeps, site⟩ := h
  cases hout : SureRule.outcome r.run c with | mk result c'
  rw [hout] at run keeps site
  cases result with
  | ok a =>
    have run : SureRule.outcome (r >>= f).run c = SureRule.outcome (f a).run c' := run
    have next := h' a c'
    exact ⟨run ▸ keeps.trans next.keeps, run ▸ next.site⟩
  | error e => exact .error run keeps (site e rfl)

/-- The next token can be looked at. -/
theorem peek {f : Token → Rule α} (h : HaltsAt (f c.peek) c) : HaltsAt (Rule.peek >>= f) c := ⟨h.keeps, h.site⟩

end HaltsAt

namespace Halts

theorem pure (a : α) : Halts (Pure.pure a) := fun c => .ok rfl (.refl c)

theorem bind (h : Halts r) (h' : ∀ a, Halts (f a)) : Halts (r >>= f) := fun c => (h c).bind h'

/-- A rule that never stops, as one that could. -/
theorem lift {r : SureRule α} (h : SureRule.Keeps r) : Halts (liftM r : Rule α) := fun c => .ok rfl (h c)

/-- The cursor itself can be looked at. -/
theorem get {f : Cursor → Rule α} (h : ∀ c, Halts (f c)) : Halts (MonadState.get >>= f) := fun c =>
  ⟨(h c c).keeps, (h c c).site⟩

/-- An error that stops a rule at a token that should carry a value. -/
theorem throw {e : SyntaxError} (h : e.site.Valueless) : Halts (MonadExcept.throw e : Rule α) := fun c =>
  .error rfl (.refl c) (.inr h)

end Halts

/-! ## Tokens -/

theorem stop_halts (fault : SyntaxFault) : Halts (stop fault : Rule α) := fun c =>
  .error rfl (.refl c) (.inl rfl)

theorem peek_halts : Halts peek := fun c => .ok rfl (.refl c)

theorem check_halts (kind : Kind) : Halts (check kind) := fun c => .ok rfl (.refl c)

theorem advance_halts : Halts advance := fun c => .ok rfl (.advance c)

theorem record_halts (fault : SyntaxFault) (site : Token) : Halts (record fault site) := fun c =>
  .ok rfl (.record c _)

theorem newUses_halts (count : Nat) : Halts (newUses count) := fun c =>
  .ok rfl ⟨.refl c, List.prefix_refl _⟩

theorem acceptAny?_halts (kinds : List Kind) : Halts (acceptAny? kinds) := by
  refine .get fun c => ?_
  split
  · exact .bind advance_halts fun _ => .pure _
  · exact .pure _

theorem accept_halts (kind : Kind) : Halts (accept kind) := by
  refine .bind (check_halts kind) fun b => ?_
  split
  · exact .bind advance_halts fun _ => .pure _
  · exact .pure _

theorem expect_halts (expected : Expectation) : Halts (expect expected) := by
  refine .get fun c => ?_
  split
  · exact .bind advance_halts fun _ => .pure _
  · exact stop_halts _

theorem entries_halts (tooMany : SyntaxFault) {entry : Rule α} (he : Halts entry) :
    ∀ (fuel : Nat) (found : List α), Halts (entries tooMany entry fuel found)
  | 0, _ => .pure _
  | fuel + 1, found => by
    have rest : Halts (do
        let found := (← entry) :: found
        if ← accept .comma then entries tooMany entry fuel found else return found.reverse) := by
      refine .bind he fun a => .bind (accept_halts .comma) fun more => ?_
      split
      · exact entries_halts tooMany he fuel (a :: found)
      · exact .pure _
    unfold entries
    split
    · exact .bind peek_halts fun _ => .bind (record_halts _ _) fun _ => rest
    · exact rest

/-! ## Expressions -/

variable {inner e : Rule Expr} {statement : Rule Stmt} {declaration : SureRule (Option Stmt)}

/-- A constant without a value is the one token that is taken before it stops a rule. -/
theorem primary_halts (hi : Halts inner) : Halts (primary inner) := by
  intro c
  refine .peek ?_
  split
  · exact advance_halts.bind (fun _ => .pure _) c
  · exact advance_halts.bind (fun _ => .pure _) c
  · exact advance_halts.bind (fun _ => .pure _) c
  · next number =>
    refine advance_halts.bind (fun _ => ?_) c
    split
    · exact .pure _
    · next none => exact .throw ⟨.inl number, none⟩
  · next string =>
    refine advance_halts.bind (fun _ => ?_) c
    split
    · exact .pure _
    · next none => exact .throw ⟨.inr string, none⟩
  · refine advance_halts.bind (fun _ => .bind (expect_halts .superDot) fun _ => ?_) c
    exact .bind (expect_halts .superMethodName) fun _ => .bind (newUses_halts 1) fun _ => .pure _
  · exact advance_halts.bind (fun _ => .bind (newUses_halts 1) fun _ => .pure _) c
  · exact advance_halts.bind (fun _ => .bind (newUses_halts 1) fun _ => .pure _) c
  · exact advance_halts.bind (fun _ => .bind hi fun _ => .bind (expect_halts .groupEnd) fun _ => .pure _) c
  · exact stop_halts _ c

theorem arguments_halts (hi : Halts inner) (fuel : Nat) : Halts (arguments fuel inner) := by
  refine .bind (check_halts .rightParen) fun _ => ?_
  split
  · exact .pure _
  · exact entries_halts .tooManyArguments hi fuel []

theorem suffixes_halts (hi : Halts inner) : ∀ (fuel : Nat) (x : Expr), Halts (suffixes inner fuel x)
  | 0, _ => .pure _
  | fuel + 1, _ => by
    refine .bind (accept_halts .leftParen) fun _ => ?_
    split
    · exact .bind (arguments_halts hi (fuel + 1)) fun _ => .bind (expect_halts .argumentsEnd) fun _ =>
        suffixes_halts hi fuel _
    refine .bind (accept_halts .dot) fun _ => ?_
    split
    · exact .bind (expect_halts .propertyName) fun _ => suffixes_halts hi fuel _
    · exact .pure _

theorem leadingSigns_halts : ∀ (fuel : Nat) (found : List Token), Halts (leadingSigns fuel found)
  | 0, _ => .pure _
  | fuel + 1, _ => by
    refine .bind (acceptAny?_halts signs) fun sign => ?_
    split
    · exact leadingSigns_halts fuel _
    · exact .pure _

theorem signed_halts (hi : Halts inner) (fuel : Nat) : Halts (signed fuel inner) := by
  have call : Halts (call fuel inner) := .bind (primary_halts hi) fun x => suffixes_halts hi fuel x
  exact .bind (leadingSigns_halts fuel []) fun _ => .bind call fun _ => .pure _

theorem chain_halts {level : Level} {operand : Rule Expr} (ho : Halts operand) :
    ∀ (fuel : Nat) (left : Expr), Halts (chain level operand fuel left)
  | 0, _ => .pure _
  | fuel + 1, _ => by
    refine .bind (acceptAny?_halts level.operators) fun operator => ?_
    split
    · exact .bind ho fun _ => chain_halts ho fuel _
    · exact .pure _

theorem operation_halts (hi : Halts inner) (fuel : Nat) : Halts (operation fuel inner) := by
  have levelled : ∀ ls : List Level, Halts (ls.foldr (leftAssociative fuel) (signed fuel inner)) := by
    intro ls
    induction ls with
    | nil => exact signed_halts hi fuel
    | cons level ls ih => exact .bind ih fun left => chain_halts ih fuel left
  exact levelled levels

/-- A target that is none is recorded, and stops nothing. -/
theorem assignment_halts (hi : Halts inner) (fuel : Nat) : Halts (assignment fuel inner) := by
  refine .bind (operation_halts hi fuel) fun target => .bind (acceptAny?_halts [.equal]) fun equals => ?_
  split
  · exact .pure _
  refine .bind hi fun value => ?_
  split
  · exact .bind (newUses_halts 1) fun _ => .pure _
  · exact .pure _
  · exact .bind (record_halts _ _) fun _ => .pure _

theorem expression_halts (fuel : Nat) : Halts (expression fuel) := by
  induction fuel with
  | zero => exact stop_halts _
  | succ fuel ih => exact assignment_halts ih (fuel + 1)

/-! ## Sequences -/

theorem recovering_keeps {r : Rule Stmt} (h : Halts r) : SureRule.Keeps (recovering r) := by
  intro c
  have keeps := (h c).keeps
  rw [outcome_recovering]
  cases hout : SureRule.outcome r.run c with | mk result c₁
  rw [hout] at keeps
  cases result with
  | ok s => exact keeps
  | error e => exact keeps.trans ((Cursor.Keeps.record c₁ e).trans (.recover _))

theorem sequence_keeps (done : Cursor → Bool) (h : declaration.Keeps) :
    ∀ (fuel : Nat) (found : List Stmt), SureRule.Keeps (sequence done declaration fuel found)
  | 0, _ => fun c => .refl c
  | fuel + 1, found => fun c => by
    by_cases go : done c = true
    · rw [outcome_sequence_of_done go]
      exact .refl c
    · rw [outcome_sequence go]
      exact (h c).trans (sequence_keeps done h fuel _ _)

theorem block_halts (h : declaration.Keeps) (fuel : Nat) : Halts (block fuel declaration) :=
  .bind (.lift (sequence_keeps bodyDone h fuel [])) fun _ => .bind (expect_halts .blockEnd) fun _ => .pure _

/-! ## Declarations -/

theorem parameters_halts (fuel : Nat) : Halts (parameters fuel) := by
  refine .bind (check_halts .rightParen) fun _ => ?_
  split
  · exact .pure _
  · exact entries_halts .tooManyParameters (expect_halts .parameterName) fuel []

theorem routine_halts (h : declaration.Keeps) (role : Role) (fuel : Nat) : Halts (routine role fuel declaration) := by
  refine .bind (expect_halts _) fun _ => .bind (expect_halts _) fun _ => .bind (parameters_halts fuel) fun _ => ?_
  refine .bind (expect_halts _) fun _ => .bind (expect_halts _) fun _ => ?_
  exact .bind (block_halts h fuel) fun _ => .pure _

theorem methods_halts {method : Rule (Routine Stmt)} (hm : Halts method) :
    ∀ (fuel : Nat) (found : List (Routine Stmt)), Halts (methods method fuel found)
  | 0, _ => .pure _
  | fuel + 1, found => by
    refine .get fun c => ?_
    split
    · exact .pure _
    · exact .bind hm fun r => methods_halts hm fuel (r :: found)

theorem superclass?_halts : Halts superclass? := by
  refine .bind (accept_halts .less) fun _ => ?_
  split
  · exact .bind (expect_halts .superclassName) fun _ => .bind (newUses_halts 1) fun _ => .pure _
  · exact .pure _

theorem classDeclaration_halts (h : declaration.Keeps) (fuel : Nat) : Halts (classDeclaration fuel declaration) := by
  refine .bind (expect_halts .className) fun _ => .bind superclass?_halts fun _ => ?_
  refine .bind (expect_halts .classBody) fun _ => .bind (methods_halts (routine_halts h .method fuel) fuel []) fun _ => ?_
  exact .bind (expect_halts .classEnd) fun _ => .pure _

theorem varDeclaration_halts (he : Halts e) : Halts (varDeclaration e) := by
  have initial : Halts (initializer? e) := by
    refine .bind (accept_halts .equal) fun _ => ?_
    split
    · exact .bind he fun _ => .pure _
    · exact .pure _
  refine .bind (expect_halts .variableName) fun _ => .bind initial fun _ => ?_
  exact .bind (expect_halts .variableEnd) fun _ => .pure _

/-! ## Statements -/

theorem ended_halts (he : Halts e) (close : Expectation) : Halts (ended e close) :=
  .bind he fun _ => .bind (expect_halts close) fun _ => .pure _

theorem unless?_halts (he : Halts e) (kind : Kind) : Halts (unless? kind e) := by
  refine .bind (check_halts kind) fun _ => ?_
  split
  · exact .pure _
  · exact .bind he fun _ => .pure _

theorem forStart_halts (he : Halts e) : Halts (forStart e) := by
  refine .bind (accept_halts .semicolon) fun _ => ?_
  split
  · exact .pure _
  refine .bind (accept_halts .varWord) fun _ => ?_
  split
  · exact .bind (varDeclaration_halts he) fun _ => .pure _
  · exact .bind (ended_halts he .expressionEnd) fun _ => .pure _

theorem forBody_halts (first : Option Stmt) (body : Stmt) : Halts (forBody first body) := by
  unfold forBody
  split
  · exact .bind (newUses_halts ForLoop.usesPerPass) fun _ => .pure _
  · exact .pure _

theorem forStatement_halts (he : Halts e) (hs : Halts statement) : Halts (forStatement e statement) := by
  refine .bind (expect_halts .forClauses) fun _ => .bind (forStart_halts he) fun first => ?_
  refine .bind (unless?_halts he .semicolon) fun _ => .bind (expect_halts .forConditionEnd) fun _ => ?_
  refine .bind (unless?_halts he .rightParen) fun _ => .bind (expect_halts .forClausesEnd) fun _ => ?_
  exact .bind hs fun body => .bind (forBody_halts first body) fun _ => .pure _

theorem ifStatement_halts (he : Halts e) (hs : Halts statement) : Halts (ifStatement e statement) := by
  have other : Halts (elseBranch? statement) := by
    refine .bind (accept_halts .elseWord) fun _ => ?_
    split
    · exact .bind hs fun _ => .pure _
    · exact .pure _
  refine .bind (expect_halts .ifCondition) fun _ => .bind (ended_halts he .ifConditionEnd) fun _ => ?_
  exact .bind hs fun _ => .bind other fun _ => .pure _

theorem whileStatement_halts (he : Halts e) (hs : Halts statement) : Halts (whileStatement e statement) :=
  .bind (expect_halts .whileCondition) fun _ => .bind (ended_halts he .whileConditionEnd) fun _ =>
    .bind hs fun _ => .pure _

theorem returnStatement_halts (he : Halts e) (keyword : Token) : Halts (returnStatement keyword e) :=
  .bind (unless?_halts he .semicolon) fun _ => .bind (expect_halts .returnEnd) fun _ => .pure _

theorem statementWith_halts (he : Halts e) (hs : Halts statement) (hd : declaration.Keeps) (fuel : Nat) :
    Halts (statementWith fuel e statement declaration) := by
  refine .bind peek_halts fun t => ?_
  split
  · exact .bind advance_halts fun _ => forStatement_halts he hs
  · exact .bind advance_halts fun _ => ifStatement_halts he hs
  · exact .bind advance_halts fun _ => .bind (ended_halts he .printEnd) fun _ => .pure _
  · exact .bind advance_halts fun _ => returnStatement_halts he t
  · exact .bind advance_halts fun _ => whileStatement_halts he hs
  · exact .bind advance_halts fun _ => .bind (block_halts hd fuel) fun _ => .pure _
  · exact .bind (ended_halts he .expressionEnd) fun _ => .pure _

theorem declarationWith_halts (he : Halts e) (hs : Halts statement) (hd : declaration.Keeps) (fuel : Nat) :
    Halts (declarationWith fuel e statement declaration) := by
  refine .bind peek_halts fun t => ?_
  split
  · exact .bind advance_halts fun _ => classDeclaration_halts hd fuel
  · exact .bind advance_halts fun _ => .bind (routine_halts hd .function fuel) fun _ => .pure _
  · exact .bind advance_halts fun _ => varDeclaration_halts he
  · exact hs

/-! ## Attempts -/

/-- The rule that a declaration tries. -/
def attempt : Nat → Rule Stmt
  | 0 => stop .missingExpression
  | fuel + 1 =>
    declarationWith (fuel + 1) (expression (fuel + 1)) (Rule.statement (fuel + 1)) (Rule.declaration fuel)

/-- A declaration tries its rule and recovers from the error that stops it, if one does. -/
theorem declaration_eq (fuel : Nat) : Rule.declaration fuel = recovering (attempt fuel) := by
  cases fuel <;> rfl

mutual

theorem statement_halts : ∀ fuel : Nat, Halts (Rule.statement fuel)
  | 0 => stop_halts _
  | fuel + 1 =>
    statementWith_halts (expression_halts (fuel + 1)) (statement_halts fuel) (declaration_keeps fuel) (fuel + 1)

theorem declaration_keeps : ∀ fuel : Nat, (Rule.declaration fuel).Keeps
  | 0 => recovering_keeps (stop_halts _)
  | fuel + 1 => by
    have expression := expression_halts (fuel + 1)
    have declaration := declaration_keeps fuel
    have statement := statementWith_halts expression (statement_halts fuel) declaration (fuel + 1)
    exact recovering_keeps (declarationWith_halts expression statement declaration (fuel + 1))

end

theorem attempt_halts : ∀ fuel : Nat, Halts (attempt fuel)
  | 0 => stop_halts _
  | fuel + 1 =>
    declarationWith_halts (expression_halts (fuel + 1)) (statement_halts (fuel + 1)) (declaration_keeps fuel) (fuel + 1)

end Rule

end Lox
