/-
Every error is paid for. The rules for expressions and statements take a token unless the first one is an error, and never
raise the budget; so a declaration that is begun before the end takes a token, and the error that may end it is paid for by
one that it took, or by the one that is skipped after it (`declaration_proceeds`).
-/
import Lox.Proofs.Grammar.ExtendsProgram
import Lox.Proofs.Grammar.Pays

namespace Lox

/-- Whether a rule takes a token without raising the budget, where there is one before the end. -/
def SureRule.Proceeds (r : SureRule (Option Stmt)) : Prop :=
  ∀ c : Cursor, ¬c.atEnd = true → c.Pays c.budget (outcome r c).2 ∧ (outcome r c).2.rest.length < c.rest.length

namespace Rule

variable {inner e : Rule Expr} {statement : Rule Stmt} {declaration : SureRule (Option Stmt)} {c : Cursor}

/-! ## Expressions -/

theorem primary_begins (hi : Thrifty inner) : Begins (primary inner) c := by
  refine .peek ?_
  split
  · next h => exact .advance (by rw [h]; nofun) (.pure _)
  · next h => exact .advance (by rw [h]; nofun) (.pure _)
  · next h => exact .advance (by rw [h]; nofun) (.pure _)
  · next h =>
    refine .advance (by rw [h]; nofun) ?_
    split
    · exact .pure _
    · exact .throw _
  · next h =>
    refine .advance (by rw [h]; nofun) ?_
    split
    · exact .pure _
    · exact .throw _
  · next h =>
    refine .advance (by rw [h]; nofun) (.bind (expect_pays .superDot) fun _ => ?_)
    exact .bind (expect_pays .superMethodName) fun _ => .bind (newUses_pays 1) fun _ => .pure _
  · next h => exact .advance (by rw [h]; nofun) (.bind (newUses_pays 1) fun _ => .pure _)
  · next h => exact .advance (by rw [h]; nofun) (.bind (newUses_pays 1) fun _ => .pure _)
  · next h =>
    exact .advance (by rw [h]; nofun) (.bind hi fun _ => .bind (expect_pays .groupEnd) fun _ => .pure _)
  · exact .stop _

theorem arguments_pays (hi : Thrifty inner) (fuel : Nat) : Thrifty (arguments fuel inner) := by
  refine .bind (check_pays .rightParen) fun _ => ?_
  split
  · exact .pure _
  · exact entries_thrifty .tooManyArguments hi fuel

theorem suffixes_pays (hi : Thrifty inner) : ∀ (fuel : Nat) (x : Expr), Thrifty (suffixes inner fuel x)
  | 0, _ => .pure _
  | fuel + 1, _ => by
    refine accept_thrifty ?_ (accept_thrifty ?_ (.pure _))
    · exact .bind (arguments_pays hi (fuel + 1)) fun _ => .bind (expect_pays .argumentsEnd) fun _ =>
        suffixes_pays hi fuel _
    · exact .bind (expect_pays .propertyName) fun _ => suffixes_pays hi fuel _

theorem call_begins (hi : Thrifty inner) (fuel : Nat) : Begins (call fuel inner) c :=
  .bind (primary_begins hi) fun x => suffixes_pays hi fuel x

theorem leadingSigns_pays : ∀ (fuel : Nat) (found : List Token), Thrifty (leadingSigns fuel found)
  | 0, _ => .pure _
  | fuel + 1, _ => acceptAny?_thrifty (fun _ => leadingSigns_pays fuel _) (.pure _)

/-- A sign that stands before an operand is the first token that is taken. -/
theorem signed_begins (hi : Thrifty inner) (fuel : Nat) : Begins (signed fuel inner) c := by
  have rest : ∀ (c : Cursor) (found : List Token),
      Begins (do
        let operand ← call fuel inner
        return found.foldl (fun e sign => .unary sign e) operand) c :=
    fun c found => .bind (call_begins hi fuel) fun _ => .pure _
  unfold signed
  cases fuel with
  | zero => exact rest c []
  | succ fuel =>
    unfold leadingSigns
    rw [bind_assoc]
    refine acceptAny?_begins (fun sign => ?_) ?_
    · exact .bind (leadingSigns_pays fuel _) fun found c => (rest c found).pays
    · rw [pure_bind]
      exact rest c []

theorem chain_pays {level : Level} {operand : Rule Expr} (ho : Thrifty operand) :
    ∀ (fuel : Nat) (left : Expr), Thrifty (chain level operand fuel left)
  | 0, _ => .pure _
  | fuel + 1, _ => acceptAny?_thrifty (fun _ => .bind ho fun _ => chain_pays ho fuel _) (.pure _)

theorem operation_begins (hi : Thrifty inner) (fuel : Nat) : ∀ c, Begins (operation fuel inner) c := by
  have levelled : ∀ ls : List Level, ∀ c, Begins (ls.foldr (leftAssociative fuel) (signed fuel inner)) c := by
    intro ls
    induction ls with
    | nil => exact fun _ => signed_begins hi fuel
    | cons level ls ih => exact fun c => .bind (ih c) fun left => chain_pays (fun c => (ih c).pays) fuel left
  exact levelled levels

/-- The fault of an assignment to something else is paid for by the equals sign. -/
theorem assignment_begins (hi : Thrifty inner) (fuel : Nat) (c : Cursor) : Begins (assignment fuel inner) c := by
  refine .bind (operation_begins hi fuel c) fun target c => acceptAny?_pays (fun equals c₁ less => ?_) ?_
  · have below : c₁.budget ≤ c.budget - 1 := by omega
    refine .bind (hi.within below) (Nat.sub_le _ _) fun value c₂ le => ?_
    have le₂ : c₂.budget ≤ c.budget := by omega
    split
    · exact ((newUses_pays 1).bind fun _ => .pure _).within le₂
    · exact .pure le₂
    · exact record_pays _ _ fun c₃ more => .pure (by omega)
  · exact .pure (Nat.le_refl _)

theorem expression_begins : ∀ (fuel : Nat) (c : Cursor), Begins (expression fuel) c
  | 0, _ => .stop _
  | fuel + 1, c => assignment_begins (fun c => (expression_begins fuel c).pays) (fuel + 1) c

theorem expression_pays (fuel : Nat) : Thrifty (expression fuel) := fun c => (expression_begins fuel c).pays

/-! ## Sequences -/

/-- The error that ends a declaration is paid for by its first token, or by the token after which it is skipped. -/
theorem recovering_proceeds {r : Rule Stmt} (h : ∀ c, Begins r c) : (recovering r).Proceeds := by
  intro c go
  have some : c.peek.kind ≠ .endOfInput := by simpa [Cursor.atEnd] using go
  have less := Cursor.budget_advance some
  have shorter := Cursor.length_advance_lt some
  rw [outcome_recovering]
  rcases h c with ⟨e, he⟩ | ⟨-, pays⟩
  · rw [he]
    refine ⟨⟨Cursor.Onward.recover (c.record e), ?_⟩, ?_⟩
    · have recorded := Cursor.budget_advance (c := c.record e) some
      have skipped := Cursor.budget_recover (c.record e)
      rw [Cursor.budget_record] at recorded
      show (c.record e).recover.budget ≤ _
      omega
    · exact Nat.lt_of_le_of_lt (Cursor.Onward.skipToBoundary _ (c.record e).advance).length_le
        (Cursor.length_advance_lt (c := c.record e) some)
  · cases hout : SureRule.outcome r.run c with | mk result c₁
    rw [hout] at pays
    have onward : c.Onward c₁ := (Cursor.Onward.advance c).trans pays.onward
    have short : c₁.rest.length < c.rest.length := Nat.lt_of_le_of_lt pays.onward.length_le shorter
    have within : c₁.budget ≤ c.advance.budget := pays.within
    cases result with
    | ok s => exact ⟨⟨onward, Nat.le_trans within (Cursor.budget_advance_le c)⟩, short⟩
    | error e =>
      have recover := Cursor.Onward.recover (c₁.record e)
      refine ⟨⟨onward.trans recover, ?_⟩, Nat.lt_of_le_of_lt recover.length_le short⟩
      have recorded := Cursor.budget_record c₁ e
      have skipped := Nat.le_trans (Cursor.budget_recover (c₁.record e)) (Cursor.budget_advance_le _)
      show (c₁.record e).recover.budget ≤ _
      omega

theorem sequence_pays {done : Cursor → Bool} (hd : LooksAtNext done) (h : declaration.Proceeds) :
    ∀ (fuel : Nat) (found : List Stmt) (c : Cursor),
      SureRule.Pays (sequence done declaration fuel found) c c.budget
  | 0, _, _ => .pure (Nat.le_refl _)
  | fuel + 1, found, c => by
    show SureRule.Pays (if done c = true then _ else _) c _
    split
    · exact .pure (Nat.le_refl _)
    · next go =>
      have first : SureRule.Pays declaration c c.budget := (h c fun atEnd => go (hd.atEnd atEnd)).1
      refine .bind first fun o c₁ le => ?_
      cases o with
      | none => exact (sequence_pays hd h fuel found c₁).mono le
      | some s => exact (sequence_pays hd h fuel (s :: found) c₁).mono le

/-- Declarations that each take a token go on up to the end. -/
theorem sequence_atEnd_of_length_le (h : declaration.Proceeds) :
    ∀ (fuel : Nat) (found : List Stmt) (c : Cursor), c.rest.length ≤ fuel →
      (SureRule.outcome (sequence Cursor.atEnd declaration fuel found) c).2.atEnd = true
  | 0, _, _, le => Cursor.atEnd_of_nil (List.eq_nil_of_length_eq_zero (Nat.le_zero.1 le))
  | fuel + 1, found, c, le => by
    by_cases atEnd : c.atEnd = true
    · rw [outcome_sequence_of_done atEnd]
      exact atEnd
    · rw [outcome_sequence atEnd]
      have shorter := (h c atEnd).2
      exact sequence_atEnd_of_length_le h fuel _ _ (by omega)

theorem block_pays (h : declaration.Proceeds) (fuel : Nat) : Thrifty (block fuel declaration) :=
  have body : Thrifty (liftM (sequence bodyDone declaration fuel [] : SureRule (List Stmt)) : Rule (List Stmt)) :=
    fun c => .lift (sequence_pays looksAtNext_bodyDone h fuel [] c)
  body.bind fun _ => .bind (expect_pays .blockEnd) fun _ => .pure _

/-! ## Declarations -/

theorem parameters_pays (fuel : Nat) : Thrifty (parameters fuel) := by
  refine .bind (check_pays .rightParen) fun _ => ?_
  split
  · exact .pure _
  · exact entries_thrifty .tooManyParameters (expect_pays .parameterName) fuel

theorem routine_pays (h : declaration.Proceeds) (role : Role) (fuel : Nat) : Thrifty (routine role fuel declaration) := by
  refine .bind (expect_pays _) fun _ => .bind (expect_pays _) fun _ => .bind (parameters_pays fuel) fun _ => ?_
  refine .bind (expect_pays _) fun _ => .bind (expect_pays _) fun _ => ?_
  exact .bind (block_pays h fuel) fun _ => .pure _

theorem methods_pays {method : Rule (Routine Stmt)} (hm : Thrifty method) :
    ∀ (fuel : Nat) (found : List (Routine Stmt)), Thrifty (methods method fuel found)
  | 0, _ => .pure _
  | fuel + 1, found => fun c => by
    refine .get ?_
    split
    · exact .pure (Nat.le_refl _)
    · exact hm.bind (fun r => methods_pays hm fuel (r :: found)) c

theorem superclass?_pays : Thrifty superclass? :=
  accept_thrifty (.bind (expect_pays .superclassName) fun _ => .bind (newUses_pays 1) fun _ => .pure _) (.pure _)

theorem classDeclaration_pays (h : declaration.Proceeds) (fuel : Nat) : Thrifty (classDeclaration fuel declaration) := by
  refine .bind (expect_pays .className) fun _ => .bind superclass?_pays fun _ => .bind (expect_pays .classBody) fun _ => ?_
  refine .bind (methods_pays (routine_pays h .method fuel) fuel []) fun _ => ?_
  exact .bind (expect_pays .classEnd) fun _ => .pure _

theorem varDeclaration_pays (he : Thrifty e) : Thrifty (varDeclaration e) := by
  have initial : Thrifty (initializer? e) := accept_thrifty (.bind he fun _ => .pure _) (.pure _)
  exact .bind (expect_pays .variableName) fun _ => .bind initial fun _ => .bind (expect_pays .variableEnd) fun _ => .pure _

/-! ## Statements -/

theorem ended_begins (he : ∀ c, Begins e c) (close : Expectation) : ∀ c, Begins (ended e close) c :=
  fun c => .bind (he c) fun _ => .bind (expect_pays close) fun _ => .pure _

theorem unless?_pays (he : Thrifty e) (kind : Kind) : Thrifty (unless? kind e) := by
  refine .bind (check_pays kind) fun _ => ?_
  split
  · exact .pure _
  · exact .bind he fun _ => .pure _

theorem forStart_pays (he : ∀ c, Begins e c) : Thrifty (forStart e) := by
  refine accept_thrifty (.pure _) (accept_thrifty ?_ ?_)
  · exact .bind (varDeclaration_pays fun c => (he c).pays) fun _ => .pure _
  · exact .bind (fun c => (ended_begins he .expressionEnd c).pays) fun _ => .pure _

theorem forBody_pays (first : Option Stmt) (body : Stmt) : Thrifty (forBody first body) := by
  unfold forBody
  split
  · exact .bind (newUses_pays ForLoop.usesPerPass) fun _ => .pure _
  · exact .pure _

theorem forStatement_pays (he : ∀ c, Begins e c) (hs : Thrifty statement) : Thrifty (forStatement e statement) := by
  have clause := unless?_pays fun c => (he c).pays
  refine .bind (expect_pays .forClauses) fun _ => .bind (forStart_pays he) fun first => ?_
  refine .bind (clause .semicolon) fun _ => .bind (expect_pays .forConditionEnd) fun _ => ?_
  refine .bind (clause .rightParen) fun _ => .bind (expect_pays .forClausesEnd) fun _ => ?_
  exact .bind hs fun body => .bind (forBody_pays first body) fun _ => .pure _

theorem ifStatement_pays (he : ∀ c, Begins e c) (hs : Thrifty statement) : Thrifty (ifStatement e statement) := by
  have condition : Thrifty (ended e .ifConditionEnd) := fun c => (ended_begins he _ c).pays
  have other : Thrifty (elseBranch? statement) := accept_thrifty (.bind hs fun _ => .pure _) (.pure _)
  exact .bind (expect_pays .ifCondition) fun _ => .bind condition fun _ => .bind hs fun _ => .bind other fun _ => .pure _

theorem whileStatement_pays (he : ∀ c, Begins e c) (hs : Thrifty statement) : Thrifty (whileStatement e statement) := by
  have condition : Thrifty (ended e .whileConditionEnd) := fun c => (ended_begins he _ c).pays
  exact .bind (expect_pays .whileCondition) fun _ => .bind condition fun _ => .bind hs fun _ => .pure _

theorem returnStatement_pays (he : Thrifty e) (keyword : Token) : Thrifty (returnStatement keyword e) :=
  .bind (unless?_pays he .semicolon) fun _ => .bind (expect_pays .returnEnd) fun _ => .pure _

theorem statementWith_begins (he : ∀ c, Begins e c) (hs : Thrifty statement) (hd : declaration.Proceeds) (fuel : Nat)
    (c : Cursor) : Begins (statementWith fuel e statement declaration) c := by
  refine .peek ?_
  split
  · next h => exact .advance (by rw [h]; nofun) (forStatement_pays he hs)
  · next h => exact .advance (by rw [h]; nofun) (ifStatement_pays he hs)
  · next h =>
    exact .advance (by rw [h]; nofun) (.bind (fun c => (ended_begins he .printEnd c).pays) fun _ => .pure _)
  · next h => exact .advance (by rw [h]; nofun) (returnStatement_pays (fun c => (he c).pays) _)
  · next h => exact .advance (by rw [h]; nofun) (whileStatement_pays he hs)
  · next h => exact .advance (by rw [h]; nofun) (.bind (block_pays hd fuel) fun _ => .pure _)
  · exact .bind (ended_begins he .expressionEnd c) fun _ => .pure _

theorem declarationWith_begins (he : ∀ c, Begins e c) (hs : ∀ c, Begins statement c) (hd : declaration.Proceeds)
    (fuel : Nat) (c : Cursor) : Begins (declarationWith fuel e statement declaration) c := by
  refine .peek ?_
  split
  · next h => exact .advance (by rw [h]; nofun) (classDeclaration_pays hd fuel)
  · next h => exact .advance (by rw [h]; nofun) (.bind (routine_pays hd .function fuel) fun _ => .pure _)
  · next h => exact .advance (by rw [h]; nofun) (varDeclaration_pays fun c => (he c).pays)
  · exact hs c

mutual

theorem statement_begins : ∀ (fuel : Nat) (c : Cursor), Begins (Rule.statement fuel) c
  | 0, _ => .stop _
  | fuel + 1, c =>
    statementWith_begins (expression_begins (fuel + 1)) (fun c => (statement_begins fuel c).pays)
      (declaration_proceeds fuel) (fuel + 1) c

theorem declaration_proceeds : ∀ fuel : Nat, (Rule.declaration fuel).Proceeds
  | 0 => recovering_proceeds fun _ => .stop _
  | fuel + 1 => by
    have expression := expression_begins (fuel + 1)
    have declaration := declaration_proceeds fuel
    have statement := statementWith_begins expression (fun c => (statement_begins fuel c).pays) declaration (fuel + 1)
    exact recovering_proceeds (declarationWith_begins expression statement declaration (fuel + 1))

end

end Rule

end Lox
