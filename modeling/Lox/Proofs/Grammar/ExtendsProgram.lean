/-
Statements and declarations in two readings. A statement has come to its end with its last token, whatever comes after
it, but for an `else` that can still belong to an `if` in it; so a rule for statements does not look ahead where the
second reading has no `else` after the tokens of the first.
-/
import Lox.Grammar.Program
import Lox.Proofs.Grammar.ExtendsExpression

namespace Lox

variable {x : Extension} {n fuel fuel' : Nat} {c : Cursor}

/-- Whether a rule for statements does what another one does in the second reading, from fewer than `n` tokens. -/
def Rule.StmtExtends (x : Extension) (n : Nat) (r r' : Rule Stmt) : Prop :=
  ∀ c : Cursor, c.rest.length < n → Extends x false c.advance.rest.length (Stmt.raise x.moved) r r' c

/-- Whether a rule for declarations does what another one does in the second reading, from fewer than `n` tokens. -/
def SureRule.DeclExtends (x : Extension) (n : Nat) (r r' : SureRule (Option Stmt)) : Prop :=
  ∀ c : Cursor, c.rest.length < n → Extends x false c.advance.rest.length (Option.map (Stmt.raise x.moved)) r r' c

namespace Rule

variable {e e' : Rule Expr} {statement statement' : Rule Stmt} {declaration declaration' : SureRule (Option Stmt)}

/-! ## Sequences -/

theorem outcome_recovering (r : Rule Stmt) (c : Cursor) : SureRule.outcome (recovering r) c =
    match SureRule.outcome r.run c with
    | (.ok s, c₁) => (some s, c₁)
    | (.error e, c₁) => (none, (c₁.record e).recover) := by
  show SureRule.outcome (r.run >>= _) c = _
  rw [SureRule.outcome_bind]
  cases SureRule.outcome r.run c with | mk result c₁
  cases result <;> rfl

/-- After an error both readings skip the same tokens, if the second has no more of them; a first token is always
taken. -/
theorem recovering_extends {r r' : Rule Stmt} (h : StmtExtends x n r r') :
    SureRule.DeclExtends x n (recovering r) (recovering r') := by
  intro c hn hc
  have given := h c hn hc
  rw [outcome_recovering]
  cases hout : SureRule.outcome r.run c with | mk result c₁
  rw [hout] at given
  cases result with
  | ok s =>
    refine ⟨given.moves, given.left s rfl, fun c' beside => ?_⟩
    rw [outcome_recovering]
    rcases given.same c' beside with ⟨-, e, he⟩ | parts | ⟨result', beside'⟩
    · cases he
    · exact .inl parts
    · rw [show SureRule.outcome r'.run c' = (.ok _, _) from Prod.ext result' rfl]
      exact .inr ⟨rfl, beside'⟩
  | error error =>
    have record : x.Moves c₁ (c₁.record error) := .record fun _ => given.site error rfl
    have recover : x.Moves (c₁.record error) (c₁.record error).recover := .recover _
    have wrong : (c₁.record error).recover.errors ≠ #[] := mt recover.clean Array.push_ne_empty
    refine ⟨given.moves.trans (record.trans recover), ?_, fun c' beside => ?_⟩
    · -- recovery takes the next token first
      have skip : x.Moves (c₁.record error).advance (c₁.record error).recover := .skipToBoundary _ _
      exact Nat.le_trans skip.length (Cursor.length_advance_mono given.moves.rest)
    · by_cases more : x.more = []
      · rw [outcome_recovering]
        rcases given.same c' beside with ⟨ne, -⟩ | ⟨ne, -⟩ | ⟨result', beside'⟩
        · exact absurd more ne
        · exact absurd more ne
        · rw [show SureRule.outcome r'.run c' = (.error error, _) from Prod.ext result' rfl]
          exact .inr ⟨rfl, (beside'.record error).recover more⟩
      · exact .inl ⟨more, .inl wrong⟩

/-- A reading is done at the end of the tokens, and otherwise where the next token says so. -/
structure LooksAtNext (done : Cursor → Bool) : Prop where
  same : ∀ {c c' : Cursor}, c'.peek = c.peek → done c' = done c
  atEnd : ∀ {c : Cursor}, c.atEnd = true → done c = true

theorem looksAtNext_atEnd : LooksAtNext Cursor.atEnd := ⟨Cursor.atEnd_congr, id⟩

theorem looksAtNext_bodyDone : LooksAtNext bodyDone := by
  refine ⟨fun same => ?_, fun atEnd => ?_⟩
  · rw [bodyDone, bodyDone, Cursor.atEnd_congr same, Cursor.check_congr same]
  · rw [bodyDone, atEnd, Bool.or_true]

theorem sequence_atEnd {α : Type} {done : Cursor → Bool} (hd : LooksAtNext done) (r : SureRule (Option α)) (fuel : Nat)
    (found : List α) (c : Cursor) (hr : c.rest = []) :
    SureRule.outcome (sequence done r fuel found) c = (found.reverse, c) :=
  outcome_sequence_of_done (hd.atEnd (Cursor.atEnd_of_nil hr)) r fuel found

/-- Where the next token does not end a sequence there is one, and it is taken. -/
theorem length_advance_of_not_done {done : Cursor → Bool} (hd : LooksAtNext done) (h : ¬done c = true) :
    c.advance.rest.length < c.rest.length := by
  refine Cursor.length_advance_lt fun hk => h (hd.atEnd ?_)
  rw [Cursor.atEnd, hk]
  rfl

theorem sequence_extends {done : Cursor → Bool} (hd : LooksAtNext done)
    (hdecl : SureRule.DeclExtends x n declaration declaration') :
    ∀ (fuel fuel' : Nat) (found : List Stmt) {left : Nat} (c : Cursor), c.rest.length < n → c.rest.length ≤ fuel →
      c.rest.length + x.more.length ≤ fuel' → c.rest.length ≤ left →
      SureRule.Extends x true left (List.map (Stmt.raise x.moved)) (sequence done declaration fuel found)
        (sequence done declaration' fuel' (found.map (Stmt.raise x.moved))) c := by
  have atEnd (fuel fuel' : Nat) (found : List Stmt) {left : Nat} {c : Cursor} (hr : c.rest = []) :
      SureRule.Extends x true left (List.map (Stmt.raise x.moved)) (sequence done declaration fuel found)
        (sequence done declaration' fuel' (found.map (Stmt.raise x.moved))) c := by
    refine .ofGivesAtEnd (sequence_atEnd hd _ _ _) (fun c hr => ?_) hr
    rw [sequence_atEnd hd _ _ _ c hr, List.map_reverse]
  intro fuel
  induction fuel with
  | zero =>
    intro fuel' found left c _ enough _ _
    exact atEnd 0 fuel' found (List.eq_nil_of_length_eq_zero (by omega))
  | succ fuel ih =>
    intro fuel' found left c hn enough enough' le
    cases fuel' with
    | zero => exact atEnd (fuel + 1) 0 found (List.eq_nil_of_length_eq_zero (by omega))
    | succ fuel' =>
      refine .look (fun c' same => by rw [hd.same same]) ?_
      split
      · rw [← List.map_reverse]
        exact .pure le
      · next go =>
        have taken := length_advance_of_not_done hd go
        refine .bind (hdecl c hn) nofun fun s c₁ short => ?_
        cases s with
        | some s => exact ih fuel' (s :: found) c₁ (by omega) (by omega) (by omega) (by omega)
        | none => exact ih fuel' found c₁ (by omega) (by omega) (by omega) (by omega)

theorem block_extends (hdecl : SureRule.DeclExtends x n declaration declaration') {left : Nat} (hn : c.rest.length < n)
    (enough : n ≤ fuel + 1) (enough' : n + x.more.length ≤ fuel' + 1) (le : c.rest.length ≤ left) :
    Extends x false left (List.map (Stmt.raise x.moved)) (block fuel declaration) (block fuel' declaration') c := by
  have body := sequence_extends looksAtNext_bodyDone hdecl fuel fuel' [] c hn (by omega) (by omega) le
  refine .close (.lift body) (fun ss => (expect_atEnd .blockEnd).bind) fun ss c₁ short => ?_
  exact expect_extends fun _ c₂ _ short₂ => .pure (by omega)

/-! ## Declarations -/

theorem parameters_extends (enough : c.rest.length < fuel) (enough' : c.rest.length + x.more.length < fuel') :
    Extends x true c.rest.length id (parameters fuel) (parameters fuel') c := by
  have name (c : Cursor) (_ : c.rest.length < fuel) :
      Extends x true c.rest.length id (expect .parameterName) (expect .parameterName) c := by
    rw [← bind_pure (expect .parameterName)]
    exact expect_extends fun _ c₁ _ short => .pure (by omega)
  have listed := entries_extends .tooManyParameters name fuel fuel' [] c enough enough enough' (Nat.le_refl _)
  rw [List.map_id_fun] at listed
  refine check_extends ?_
  split
  · exact .pure (Nat.le_refl _)
  · exact listed

theorem routine_extends (hdecl : SureRule.DeclExtends x n declaration declaration') (role : Role)
    (hn : c.rest.length ≤ n) (enough : n ≤ fuel + 1) (enough' : n + x.more.length ≤ fuel' + 1) {left : Nat}
    (le : c.rest.length ≤ left + 1) :
    Extends x false left (routineRaise x.moved) (routine role fuel declaration) (routine role fuel' declaration') c := by
  refine expect_extends fun name c₁ _ short₁ => expect_extends fun _ c₂ _ short₂ => ?_
  refine .close (parameters_extends (by omega) (by omega)) (fun _ => (expect_atEnd .parametersEnd).bind)
    fun params c₃ short₃ => ?_
  refine expect_extends fun _ c₄ _ short₄ => expect_extends fun _ c₅ _ short₅ => ?_
  refine .bind (block_extends hdecl (by omega) enough enough' (Nat.le_refl _)) fun body c₆ short₆ => ?_
  rw [← Stmt.raiseAll_eq]
  exact .pure (a := (⟨name, params, body⟩ : Routine Stmt)) (by omega)

theorem methods_atEnd (method : Rule (Routine Stmt)) (fuel : Nat) (found : List (Routine Stmt)) :
    GivesAtEnd found.reverse (methods method fuel found) := by
  intro c hr
  cases fuel with
  | zero => rfl
  | succ fuel =>
    show SureRule.outcome (if bodyDone c = true then _ else _ : Rule _).run c = _
    rw [if_pos (looksAtNext_bodyDone.atEnd (Cursor.atEnd_of_nil hr))]
    rfl

theorem methods_extends {method method' : Rule (Routine Stmt)}
    (hm : ∀ c : Cursor, c.rest.length < n →
      Extends x false (c.rest.length - 1) (routineRaise x.moved) method method' c) :
    ∀ (fuel fuel' : Nat) (found : List (Routine Stmt)) {left : Nat} (c : Cursor), c.rest.length < n →
      c.rest.length ≤ fuel → c.rest.length + x.more.length ≤ fuel' → c.rest.length ≤ left →
      Extends x true left (List.map (routineRaise x.moved)) (methods method fuel found)
        (methods method' fuel' (found.map (routineRaise x.moved))) c := by
  have atEnd (fuel fuel' : Nat) (found : List (Routine Stmt)) {left : Nat} {c : Cursor} (hr : c.rest = []) :
      Extends x true left (List.map (routineRaise x.moved)) (methods method fuel found)
        (methods method' fuel' (found.map (routineRaise x.moved))) c := by
    refine .ofGivesAtEnd (methods_atEnd _ _ _) ?_ hr
    rw [List.map_reverse]
    exact methods_atEnd _ _ _
  intro fuel
  induction fuel with
  | zero =>
    intro fuel' found left c _ enough _ _
    exact atEnd 0 fuel' found (List.eq_nil_of_length_eq_zero (by omega))
  | succ fuel ih =>
    intro fuel' found left c hn enough enough' le
    cases fuel' with
    | zero => exact atEnd (fuel + 1) 0 found (List.eq_nil_of_length_eq_zero (by omega))
    | succ fuel' =>
      refine .look (fun c' same => by rw [looksAtNext_bodyDone.same same]) (fun _ => .inl rfl) ?_
      split
      · rw [← List.map_reverse]
        exact .pure le
      · next go =>
        have taken := length_advance_of_not_done looksAtNext_bodyDone go
        refine .bind ((hm c hn).mono nofun (Nat.le_refl _)) fun r c₁ short => ?_
        exact ih fuel' (r :: found) c₁ (by omega) (by omega) (by omega) (by omega)

theorem superclass?_extends :
    Extends x true c.rest.length (Option.map (Expr.raise x.moved)) superclass? superclass? c := by
  refine accept_extends (.inl rfl) (fun c₁ short₁ => ?_) (.pure (a := (none : Option Expr)) (Nat.le_refl _))
  refine expect_extends fun name c₂ _ short₂ => newUses_extends fun id c₃ short₃ => ?_
  exact .pure (a := some (Expr.ref id name)) (by omega)

theorem classDeclaration_extends (hdecl : SureRule.DeclExtends x n declaration declaration') (hn : c.rest.length ≤ n)
    (enough : n ≤ fuel + 1) (enough' : n + x.more.length ≤ fuel' + 1) {left : Nat} (le : c.rest.length ≤ left + 1) :
    Extends x false left (Stmt.raise x.moved) (classDeclaration fuel declaration)
      (classDeclaration fuel' declaration') c := by
  refine expect_extends fun name c₁ _ short₁ => ?_
  refine .close superclass?_extends (fun _ => (expect_atEnd .classBody).bind) fun superclass c₂ short₂ => ?_
  refine expect_extends fun _ c₃ _ short₃ => ?_
  have method (c : Cursor) (hc : c.rest.length < n) : Extends x false (c.rest.length - 1) (routineRaise x.moved)
      (routine .method fuel declaration) (routine .method fuel' declaration') c :=
    routine_extends hdecl .method (Nat.le_of_lt hc) enough enough' (by omega)
  refine .close (methods_extends method fuel fuel' [] c₃ (by omega) (by omega) (by omega) (Nat.le_refl _))
    (fun _ => (expect_atEnd .classEnd).bind) fun found c₄ short₄ => ?_
  refine expect_extends fun _ c₅ _ short₅ => ?_
  rw [← methodsRaise_eq]
  exact .pure (a := Stmt.classDecl name superclass found) (by omega)

theorem initializer?_extends (he : ExprExtends x n e e') (hn : c.rest.length < n) :
    Extends x true c.rest.length (Option.map (Expr.raise x.moved)) (initializer? e) (initializer? e') c := by
  refine accept_extends (.inl rfl) (fun c₁ short₁ => ?_) (.pure (a := (none : Option Expr)) (Nat.le_refl _))
  exact .bind (he c₁ (by omega)) fun value c₂ short₂ => .pure (a := some value) (by omega)

theorem varDeclaration_extends (he : ExprExtends x n e e') (hn : c.rest.length < n) {left : Nat}
    (le : c.rest.length ≤ left + 1) :
    Extends x false left (Stmt.raise x.moved) (varDeclaration e) (varDeclaration e') c := by
  refine expect_extends fun name c₁ _ short₁ => ?_
  refine .close (initializer?_extends he (by omega)) (fun _ => (expect_atEnd .variableEnd).bind)
    fun initial c₂ short₂ => ?_
  exact expect_extends fun _ c₃ _ short₃ => .pure (a := Stmt.varDecl name initial) (by omega)

/-! ## Statements -/

theorem ended_atEnd (he : StopsAtEnd .missingExpression e) (close : Expectation) :
    StopsAtEnd .missingExpression (ended e close) := he.bind

theorem ended_extends (he : ExprExtends x n e e') (close : Expectation) (hn : c.rest.length < n) {left : Nat}
    (le : c.rest.length ≤ left + 1) :
    Extends x false left (Expr.raise x.moved) (ended e close) (ended e' close) c := by
  refine .close (he c hn) (fun _ => (expect_atEnd close).bind) fun value c₁ short₁ => ?_
  exact expect_extends fun _ c₂ _ short₂ => .pure (by omega)

theorem unless?_extends (he : ExprExtends x n e e') (kind : Kind) (hn : c.rest.length < n) :
    Extends x true c.rest.length (Option.map (Expr.raise x.moved)) (unless? kind e) (unless? kind e') c := by
  refine check_extends ?_
  split
  · exact .pure (a := (none : Option Expr)) (Nat.le_refl _)
  · exact .bind (he c hn) fun value c₁ short₁ => .pure (a := some value) short₁

theorem forStart_extends (he : ExprExtends x n e e') (stops : StopsAtEnd .missingExpression e) (hn : c.rest.length < n) :
    Extends x false c.rest.length (Option.map (Stmt.raise x.moved)) (forStart e) (forStart e') c := by
  have expr := (ended_atEnd stops .expressionEnd).bind (f := fun e => (pure (some (.expression e)) : Rule (Option Stmt)))
  refine accept_extends (.inr (.inl ⟨_, (accept_atEnd .varWord).stops expr⟩)) (fun c₁ short₁ => ?_) ?_
  · exact .pure (a := (none : Option Stmt)) (Nat.le_of_lt short₁)
  refine accept_extends (.inr (.inl ⟨_, expr⟩)) (fun c₁ short₁ => ?_) ?_
  · refine .bind (varDeclaration_extends he (by omega) (Nat.le_succ _)) fun s c₂ short₂ => ?_
    exact .pure (a := some s) (by omega)
  · refine .bind (ended_extends he .expressionEnd hn (Nat.le_succ _)) fun value c₁ short₁ => ?_
    exact .pure (a := some (Stmt.expression value)) short₁

theorem forBody_extends (first : Option Stmt) (body : Stmt) {left : Nat} (le : c.rest.length ≤ left) :
    Extends x false left (Stmt.raise x.moved) (forBody first body)
      (forBody (first.map (Stmt.raise x.moved)) (body.raise x.moved)) c := by
  cases first with
  | none => exact .pure le
  | some s =>
    cases s with
    | varDecl name initial =>
      refine newUses_extends fun id c₁ short₁ => ?_
      rw [← ForLoop.raise_pass]
      exact .pure (by omega)
    | ifElse condition yes no =>
      rw [Option.map_some, Stmt.raise_ifElse]
      exact .pure le
    | _ => exact .pure le

theorem forStatement_extends (he : ExprExtends x n e e') (stops : StopsAtEnd .missingExpression e)
    (hs : StmtExtends x n statement statement') (hn : c.rest.length < n) {left : Nat} (le : c.rest.length ≤ left + 1) :
    Extends x false left (Stmt.raise x.moved) (forStatement e statement) (forStatement e' statement') c := by
  refine expect_extends fun _ c₁ _ short₁ => .bind (forStart_extends he stops (by omega)) fun first c₂ short₂ => ?_
  refine .close (unless?_extends he .semicolon (by omega)) (fun _ => (expect_atEnd .forConditionEnd).bind)
    fun condition c₃ short₃ => expect_extends fun _ c₄ _ short₄ => ?_
  refine .close (unless?_extends he .rightParen (by omega)) (fun _ => (expect_atEnd .forClausesEnd).bind)
    fun increment c₅ short₅ => expect_extends fun _ c₆ _ short₆ => ?_
  refine .bind (hs c₆ (by omega)) fun body c₇ short₇ => ?_
  have short₇ := Nat.le_trans short₇ c₆.rest_advance_suffix.length_le
  refine .bind (forBody_extends first body (Nat.le_refl _)) fun body c₈ short₈ => ?_
  rw [← ForLoop.raise_withIncrement, ← ForLoop.raise_whole]
  exact .pure (by omega)

/-- Whether an `else` follows is seen from the second reading only. -/
theorem elseBranch?_extends (other : HeadNot (· = .elseWord) x.more) (hs : StmtExtends x n statement statement')
    (hn : c.rest.length < n) : Extends x false c.rest.length (Option.map (Stmt.raise x.moved)) (elseBranch? statement)
      (elseBranch? statement') c := by
  refine accept_extends (.inr (.inr other)) (fun c₁ short₁ => ?_) (.pure (a := (none : Option Stmt)) (Nat.le_refl _))
  refine .bind (hs c₁ (by omega)) fun s c₂ short₂ => ?_
  have short₂ := Nat.le_trans short₂ c₁.rest_advance_suffix.length_le
  exact .pure (a := some s) (by omega)

theorem ifStatement_extends (other : HeadNot (· = .elseWord) x.more) (he : ExprExtends x n e e')
    (hs : StmtExtends x n statement statement') (hn : c.rest.length < n) {left : Nat} (le : c.rest.length ≤ left + 1) :
    Extends x false left (Stmt.raise x.moved) (ifStatement e statement) (ifStatement e' statement') c := by
  refine expect_extends fun _ c₁ _ short₁ => ?_
  refine .bind (ended_extends he .ifConditionEnd (by omega) (Nat.le_succ _)) fun condition c₂ short₂ => ?_
  refine .bind (hs c₂ (by omega)) fun yes c₃ short₃ => ?_
  have short₃ := Nat.le_trans short₃ c₂.rest_advance_suffix.length_le
  refine .bind (elseBranch?_extends other hs (by omega)) fun no c₄ short₄ => ?_
  rw [← Stmt.raise_ifElse]
  exact .pure (by omega)

theorem whileStatement_extends (he : ExprExtends x n e e') (hs : StmtExtends x n statement statement')
    (hn : c.rest.length < n) {left : Nat} (le : c.rest.length ≤ left + 1) :
    Extends x false left (Stmt.raise x.moved) (whileStatement e statement) (whileStatement e' statement') c := by
  refine expect_extends fun _ c₁ _ short₁ => ?_
  refine .bind (ended_extends he .whileConditionEnd (by omega) (Nat.le_succ _)) fun condition c₂ short₂ => ?_
  refine .bind (hs c₂ (by omega)) fun body c₃ short₃ => ?_
  have short₃ := Nat.le_trans short₃ c₂.rest_advance_suffix.length_le
  exact .pure (a := Stmt.whileDo condition body) (by omega)

theorem returnStatement_extends (he : ExprExtends x n e e') (keyword : Token) (hn : c.rest.length < n) {left : Nat}
    (le : c.rest.length ≤ left + 1) :
    Extends x false left (Stmt.raise x.moved) (returnStatement keyword e) (returnStatement keyword e') c := by
  refine .close (unless?_extends he .semicolon hn) (fun _ => (expect_atEnd .returnEnd).bind) fun value c₁ short₁ => ?_
  exact expect_extends fun _ c₂ _ short₂ => .pure (a := Stmt.ret keyword value) (by omega)

theorem statementWith_atEnd (stops : StopsAtEnd .missingExpression e) (fuel : Nat) (statement : Rule Stmt)
    (declaration : SureRule (Option Stmt)) :
    StopsAtEnd .missingExpression (statementWith fuel e statement declaration) :=
  peek_atEnd.stops (ended_atEnd stops .expressionEnd).bind

theorem statementWith_extends (other : HeadNot (· = .elseWord) x.more) (he : ExprExtends x (n + 1) e e')
    (stops : StopsAtEnd .missingExpression e) (hs : StmtExtends x n statement statement')
    (hdecl : SureRule.DeclExtends x n declaration declaration') (enough : n ≤ fuel + 1)
    (enough' : n + x.more.length ≤ fuel' + 1) :
    StmtExtends x (n + 1) (statementWith fuel e statement declaration)
      (statementWith fuel' e' statement' declaration') := by
  intro c hn
  have near := c.length_le_advance
  have he₁ : ExprExtends x n e e' := fun c hc => he c (by omega)
  refine peek_extends (.inr ⟨_, (ended_atEnd stops .expressionEnd).bind⟩) fun _ => ?_
  have taken {r r' : Rule Stmt} (hk : c.peek.kind ≠ .endOfInput)
      (h : ∀ c₁ : Cursor, c₁.rest.length < c.rest.length →
        Extends x false c.advance.rest.length (Stmt.raise x.moved) r r' c₁) :
      Extends x false c.advance.rest.length (Stmt.raise x.moved) (advance >>= fun _ => r) (advance >>= fun _ => r') c :=
    advance_extends hk h
  cases hk : c.peek.kind with
  | forWord =>
    exact taken (by rw [hk]; nofun) fun c₁ short => forStatement_extends he₁ stops hs (by omega) (by omega)
  | ifWord => exact taken (by rw [hk]; nofun) fun c₁ short => ifStatement_extends other he₁ hs (by omega) (by omega)
  | printWord =>
    refine taken (by rw [hk]; nofun) fun c₁ short => ?_
    refine .bind (ended_extends he .printEnd (by omega) (Nat.le_succ _)) fun value c₂ short₂ => ?_
    exact .pure (a := Stmt.print value) (by omega)
  | returnWord => exact taken (by rw [hk]; nofun) fun c₁ short => returnStatement_extends he c.peek (by omega) (by omega)
  | whileWord => exact taken (by rw [hk]; nofun) fun c₁ short => whileStatement_extends he₁ hs (by omega) (by omega)
  | leftBrace =>
    refine taken (by rw [hk]; nofun) fun c₁ short => ?_
    refine .bind (block_extends hdecl (by omega) enough enough' (Nat.le_refl _)) fun body c₂ short₂ => ?_
    rw [← Stmt.raiseAll_eq]
    exact .pure (a := Stmt.block body) (by omega)
  | _ =>
    refine .bind (ended_extends he .expressionEnd hn near) fun value c₁ short => ?_
    exact .pure (a := Stmt.expression value) short

theorem declarationWith_extends (he : ExprExtends x (n + 1) e e') (hs : StmtExtends x (n + 1) statement statement')
    (stops : StopsAtEnd .missingExpression statement) (hdecl : SureRule.DeclExtends x n declaration declaration')
    (enough : n ≤ fuel + 1) (enough' : n + x.more.length ≤ fuel' + 1) :
    StmtExtends x (n + 1) (declarationWith fuel e statement declaration)
      (declarationWith fuel' e' statement' declaration') := by
  intro c hn
  have near := c.length_le_advance
  refine peek_extends (.inr ⟨_, stops⟩) fun _ => ?_
  have taken {r r' : Rule Stmt} (hk : c.peek.kind ≠ .endOfInput)
      (h : ∀ c₁ : Cursor, c₁.rest.length < c.rest.length →
        Extends x false c.advance.rest.length (Stmt.raise x.moved) r r' c₁) :
      Extends x false c.advance.rest.length (Stmt.raise x.moved) (advance >>= fun _ => r) (advance >>= fun _ => r') c :=
    advance_extends hk h
  cases hk : c.peek.kind with
  | classWord =>
    exact taken (by rw [hk]; nofun) fun c₁ short =>
      classDeclaration_extends hdecl (by omega) enough enough' (by omega)
  | funWord =>
    refine taken (by rw [hk]; nofun) fun c₁ short => ?_
    refine .bind (routine_extends hdecl .function (by omega) enough enough' (Nat.le_succ _)) fun r c₂ short₂ => ?_
    exact .pure (a := Stmt.funDecl r) (by omega)
  | varWord => exact taken (by rw [hk]; nofun) fun c₁ short => varDeclaration_extends he (by omega) (by omega)
  | _ => exact hs c hn

theorem statement_atEnd (fuel : Nat) : StopsAtEnd .missingExpression (Rule.statement fuel) := by
  cases fuel with
  | zero => exact stop_atEnd _
  | succ fuel => exact statementWith_atEnd (expression_atEnd _) _ _ _

theorem declarationWith_atEnd (he : StopsAtEnd .missingExpression statement) (fuel : Nat) (e : Rule Expr)
    (declaration : SureRule (Option Stmt)) :
    StopsAtEnd .missingExpression (declarationWith fuel e statement declaration) :=
  peek_atEnd.stops he

theorem declaration_atEnd (fuel : Nat) :
    ∃ r : Rule Stmt, Rule.declaration fuel = recovering r ∧ r.StopsAtEnd .missingExpression := by
  cases fuel with
  | zero => exact ⟨_, rfl, stop_atEnd _⟩
  | succ fuel => exact ⟨_, rfl, declarationWith_atEnd (statementWith_atEnd (expression_atEnd _) _ _ _) _ _ _⟩

/-- Statements and declarations are read in the same way in both readings, if both allow for as much nesting as there are
tokens. -/
theorem program_extends (other : HeadNot (· = .elseWord) x.more) : ∀ (n : Nat) {fuel fuel' : Nat}, n ≤ fuel →
    n + x.more.length ≤ fuel' →
    StmtExtends x (n + 1) (Rule.statement fuel) (Rule.statement fuel') ∧
      SureRule.DeclExtends x (n + 1) (Rule.declaration fuel) (Rule.declaration fuel') := by
  intro n
  induction n with
  | zero =>
    intro fuel fuel' _ _
    constructor
    · intro c hn
      exact .ofStopsAtEnd (statement_atEnd _) (statement_atEnd _) (List.eq_nil_of_length_eq_zero (by omega))
    · obtain ⟨r, hr, stops⟩ := declaration_atEnd fuel
      obtain ⟨r', hr', stops'⟩ := declaration_atEnd fuel'
      rw [hr, hr']
      refine recovering_extends fun c hn => ?_
      exact .ofStopsAtEnd stops stops' (List.eq_nil_of_length_eq_zero (by omega))
  | succ n ih =>
    intro fuel fuel' enough enough'
    obtain ⟨fuel, rfl⟩ : ∃ k, fuel = k + 1 := ⟨fuel - 1, by omega⟩
    obtain ⟨fuel', rfl⟩ : ∃ k, fuel' = k + 1 := ⟨fuel' - 1, by omega⟩
    obtain ⟨statement, declaration⟩ := @ih fuel fuel' (by omega) (by omega)
    have expression := expression_extends (x := x) (n + 1) enough enough'
    have stops := expression_atEnd (fuel + 1)
    have top : StmtExtends x (n + 2) (Rule.statement (fuel + 1)) (Rule.statement (fuel' + 1)) :=
      statementWith_extends other expression stops statement declaration (by omega) (by omega)
    refine ⟨top, recovering_extends ?_⟩
    exact declarationWith_extends expression top (statement_atEnd (fuel + 1)) declaration (by omega) (by omega)

/-! ## Declarations up to the end -/

/-- Declarations from a cursor to the end, at most `fuel` of them, that nest less than `n` deep. -/
def declarations (n fuel : Nat) (c : Cursor) : List Stmt × Cursor :=
  SureRule.outcome (sequence Cursor.atEnd (Rule.declaration n) fuel []) c

theorem declarations_extends {x : Extension} (other : HeadNot (· = .elseWord) x.more) {n n' fuel fuel' : Nat} {c : Cursor}
    (deep : c.rest.length ≤ n) (deep' : c.rest.length + x.more.length ≤ n') (enough : c.rest.length ≤ fuel)
    (enough' : c.rest.length + x.more.length ≤ fuel') (hc : x.Within c) :
    x.Yields true c.rest.length (List.map (Stmt.raise x.moved)) c (declarations n fuel c) (declarations n' fuel') := by
  have read := (program_extends other c.rest.length deep deep').2
  exact sequence_extends looksAtNext_atEnd read fuel fuel' [] c (Nat.lt_succ_self _) enough enough' (Nat.le_refl _) hc

end Rule

theorem parse_eq_declarations (tokens : List Token) :
    parse tokens =
      ⟨(Rule.declarations tokens.length tokens.length (.start tokens)).1,
        (Rule.declarations tokens.length tokens.length (.start tokens)).2.errors.toList,
        (Rule.declarations tokens.length tokens.length (.start tokens)).2.nextUse⟩ := rfl

end Lox
