/-
What the rules for statements take, where they find nothing wrong, is how the statement they give is written. So a
token list in which nothing wrong is found is how the program read from it is written (`written_parse`).
-/
import Lox.Grammar.Program
import Lox.Proofs.Grammar.TakesExpression
import Lox.Proofs.Grammar.WrittenProgram

namespace Lox

/-- Whether a rule reads statements as what the grammar asks for, from at most `fuel` tokens. -/
def Rule.ReadsCode (r : Rule Stmt) (symbol : Symbol) (fuel : Nat) : Prop :=
  ∀ c : Cursor, r.Takes c fun w s => w.length ≤ fuel → (Code.stmt s).Written symbol w

/-- Whether a rule reads declarations as they are written, from at most `fuel` tokens. -/
def SureRule.ReadsCode (r : SureRule (Option Stmt)) (fuel : Nat) : Prop :=
  ∀ c : Cursor, r.Takes c fun w o => w.length ≤ fuel → ∃ s, o = some s ∧ (Code.stmt s).Written .declaration w

/-! ## Recovery -/

namespace Rule

variable {c : Cursor} {f : Nat} {e : Rule Expr} {statement : Rule Stmt} {declaration : SureRule (Option Stmt)}

/-- Where nothing wrong is found, there is nothing to recover from. -/
theorem recovering_takes {α : Type} {r : Rule α} {post : List Token → α → Prop} (h : r.Takes c post) :
    (recovering r).Takes c fun w o => ∃ a, o = some a ∧ post w a := by
  refine SureRule.Takes.bind h fun result c' => ?_
  cases result with
  | ok a =>
    refine .pure fun u given => ⟨a, rfl, ?_⟩
    rw [List.append_nil]
    exact given a rfl
  | error error =>
    refine SureRule.Takes.fault ?_
    show c'.errors.size < (c'.record error).recover.errors.size
    rw [Cursor.errors_recover]
    exact Nat.lt_of_lt_of_eq (Nat.lt_succ_self _) (Array.size_push _).symm

/-! ## Sequences -/

/-- Declarations are read after those found. -/
theorem sequence_takes {done : Cursor → Bool} (hd : declaration.ReadsCode f) :
    ∀ (n : Nat) {c : Cursor} {found : List Stmt},
      (sequence done declaration n found).Takes c fun w ss => w.length ≤ f →
        ∃ entries : List (Stmt × List Token), ss = found.reverse ++ entries.map (·.1) ∧
          (∀ entry ∈ entries, (Code.stmt entry.1).Written .declaration entry.2) ∧ w = (entries.map (·.2)).flatten
  | 0, _, _ => .pure fun _ => ⟨[], by simp, List.forall_mem_nil _, rfl⟩
  | n + 1, c, found => by
    have here : SureRule.Takes MonadState.get c fun w _ => w = [] := .get rfl
    refine here.bind fun _ c₁ => ?_
    split
    · refine .pure ?_
      rintro _ rfl -
      exact ⟨[], by simp, List.forall_mem_nil _, rfl⟩
    · refine SureRule.Takes.bind (hd c₁) fun o c₂ => ?_
      cases o with
      | some s =>
        refine (sequence_takes hd n).mono ?_
        rintro v ss read u first _ rfl short
        simp only [List.nil_append, List.length_append] at short
        obtain ⟨_, ⟨⟩, written⟩ := first (by omega)
        obtain ⟨entries, rfl, each, rfl⟩ := read (by omega)
        exact ⟨(s, u) :: entries, by simp, List.forall_mem_cons.2 ⟨written, each⟩, by simp⟩
      | none =>
        refine (sequence_takes hd n).mono ?_
        rintro v ss - u first _ rfl short
        simp only [List.nil_append, List.length_append] at short
        obtain ⟨_, h, _⟩ := first (by omega)
        cases h

theorem block_takes (hd : declaration.ReadsCode f) (n : Nat) :
    (block n declaration).Takes c fun w ss => w.length ≤ f → ∀ left : Token, left.kind = .leftBrace →
      (Code.stmts ss).Written .block (left :: w) := by
  refine .bind (.lift (sequence_takes hd n)) fun body c₁ => expect_takes fun right c₂ hr => .pure ?_
  intro u read short left hl
  rw [List.length_append] at short
  obtain ⟨entries, rfl, each, rfl⟩ := read (by omega)
  exact .block hl each hr

/-! ## Declarations -/

theorem parameters_takes (n : Nat) :
    (parameters n).Takes c fun w ps => w.length < n →
      (∀ p ∈ ps, p.kind = .identifier) ∧ ps.length ≤ arityLimit ∧ Separated (ps.map ([·])) w := by
  have entry : ∀ c : Cursor, (expect .parameterName).Takes c fun w p => p.kind = .identifier ∧ w = [p] := by
    intro c
    rw [← bind_pure (expect .parameterName)]
    exact expect_takes fun p _ hp => .pure ⟨hp, rfl⟩
  refine (listed_takes .tooManyParameters entry .rightParen n).mono fun w ps read short => ?_
  obtain ⟨entries, rfl, each, limit, sep⟩ := read short
  refine ⟨fun p hp => ?_, by simpa using limit, ?_⟩
  · obtain ⟨entry, mem, rfl⟩ := List.mem_map.1 hp
    exact (each entry mem).1
  · have : (entries.map (·.1)).map ([·]) = entries.map (·.2) := by
      rw [List.map_map]
      exact List.map_congr_left fun entry mem => (each entry mem).2.symm
    rwa [this]

theorem routine_takes (hd : declaration.ReadsCode f) (role : Role) :
    (routine role (f + 1) declaration).Takes c fun w r => w.length ≤ f + 1 → (Code.routine r).Written .function w := by
  refine expect_takes fun name _ hn => expect_takes fun left _ hl => .bind (parameters_takes (f + 1)) fun ps _ => ?_
  refine expect_takes fun right _ hr => expect_takes fun brace _ hb => .bind (block_takes hd (f + 1)) fun body _ => ?_
  refine .pure fun v block u parameters short => ?_
  simp only [List.length_cons, List.length_append, List.append_nil] at short ⊢
  obtain ⟨names, limit, sep⟩ := parameters (by omega)
  exact .function hn hl names limit sep hr (block (by omega) brace hb)

/-- Methods are read after those found. -/
theorem methods_takes {method : Rule (Routine Stmt)}
    (hm : ∀ c : Cursor, method.Takes c fun w r => w.length ≤ f → (Code.routine r).Written .function w) :
    ∀ (n : Nat) {c : Cursor} {found : List (Routine Stmt)},
      (methods method n found).Takes c fun w rs => w.length ≤ f →
        ∃ entries : List (Routine Stmt × List Token), rs = found.reverse ++ entries.map (·.1) ∧
          (∀ entry ∈ entries, (Code.routine entry.1).Written .function entry.2) ∧ w = (entries.map (·.2)).flatten
  | 0, _, _ => .pure fun _ => ⟨[], by simp, List.forall_mem_nil _, rfl⟩
  | n + 1, c, found => by
    refine .get ?_
    split
    · exact .pure fun _ => ⟨[], by simp, List.forall_mem_nil _, rfl⟩
    · refine .bind (hm c) fun r c₁ => (methods_takes hm n).mono fun v rs read u first short => ?_
      rw [List.length_append] at short
      obtain ⟨entries, rfl, each, rfl⟩ := read (by omega)
      exact ⟨(r, u) :: entries, by simp, List.forall_mem_cons.2 ⟨first (by omega), each⟩, by simp⟩

theorem superclass?_takes : superclass?.Takes c fun w o => Expr.WrittenSuperclass o w := by
  refine accept_takes (fun less _ hl => expect_takes fun name _ hn => newUses_takes fun _ _ => ?_) (.pure .none)
  exact .pure (.some hl hn)

theorem classDeclaration_takes (hd : declaration.ReadsCode f) :
    (classDeclaration (f + 1) declaration).Takes c fun w s => w.length ≤ f → ∀ word : Token, word.kind = .classWord →
      (Code.stmt s).Written .classDecl (word :: w) := by
  have method : ∀ c : Cursor, (routine .method (f + 1) declaration).Takes c fun w r =>
      w.length ≤ f → (Code.routine r).Written .function w :=
    fun c => (routine_takes hd .method).mono fun _ _ read short => read (by omega)
  refine expect_takes fun name _ hn => .bind superclass?_takes fun superclass _ => expect_takes fun left _ hl => ?_
  refine .bind (methods_takes method (f + 1)) fun rs _ => expect_takes fun right _ hr => .pure ?_
  intro v read u written short word hw
  simp only [List.length_cons, List.length_append] at short
  obtain ⟨entries, rfl, each, rfl⟩ := read (by omega)
  exact .classDecl hw hn written hl each hr

theorem varDeclaration_takes (he : e.ReadsWritten 0 f) :
    (varDeclaration e).Takes c fun w s => w.length ≤ f → ∀ word : Token, word.kind = .varWord →
      s.Written .varDecl (word :: w) := by
  have initial : ∀ c : Cursor, (initializer? e).Takes c fun w o => w.length ≤ f → Expr.WrittenInitial o w := by
    intro c
    refine accept_takes (fun equals _ heq => .bind (he _) fun x _ => .pure fun u read short => ?_) (.pure fun _ => .none)
    simp only [List.length_cons, List.append_nil] at short ⊢
    exact .some heq (read (by omega))
  refine expect_takes fun name _ hn => .bind (initial _) fun initial _ => expect_takes fun close _ hc => .pure ?_
  intro u written short word hw
  simp only [List.length_cons, List.length_append] at short
  exact .varDecl hw hn (written (by omega)) hc

/-! ## Statements -/

theorem ended_takes (he : e.ReadsWritten 0 f) (close : Expectation) :
    (ended e close).Takes c fun w x => w.length ≤ f →
      ∃ u t, w = u ++ [t] ∧ t.kind = close.kind ∧ x.Written 0 u := by
  refine .bind (he c) fun x _ => expect_takes fun t _ ht => .pure fun u read short => ?_
  rw [List.length_append] at short
  exact ⟨u, t, rfl, ht, read (by omega)⟩

theorem unless?_takes (he : e.ReadsWritten 0 f) (kind : Kind) :
    (unless? kind e).Takes c fun w o => w.length ≤ f → Expr.WrittenOption o w := by
  refine check_takes ?_
  split
  · exact .pure fun _ => .none
  · refine .bind (he c) fun x _ => .pure fun u read short => ?_
    rw [List.append_nil] at short ⊢
    exact .some (read short)

theorem forStart_takes (he : e.ReadsWritten 0 f) :
    (forStart e).Takes c fun w o => w.length ≤ f → Stmt.WrittenStart o w := by
  refine accept_takes (fun close _ hc => .pure fun _ => .none hc) (accept_takes (fun word _ hw => ?_) ?_)
  · refine .bind (varDeclaration_takes he) fun s _ => .pure fun u read short => ?_
    simp only [List.length_cons, List.append_nil] at short ⊢
    exact .some (.inl rfl) (read (by omega) word hw)
  · refine .bind (ended_takes he .expressionEnd) fun x _ => .pure fun u read short => ?_
    rw [List.append_nil] at short ⊢
    obtain ⟨u, t, rfl, ht, hx⟩ := read short
    exact .some (.inr rfl) (.exprStmt hx ht)

theorem forBody_takes (first : Option Stmt) (body : Stmt) :
    (forBody first body).Takes c fun w s => w = [] ∧ ∃ id, s = ForLoop.body first id body := by
  unfold forBody
  split
  · exact newUses_takes fun id _ => .pure ⟨rfl, id, rfl⟩
  · next h =>
    refine .pure ⟨rfl, 0, ?_⟩
    unfold ForLoop.body
    split
    · exact absurd rfl (h _ _)
    · rfl

theorem forStatement_takes (he : e.ReadsWritten 0 (f + 1)) (hs : statement.ReadsCode .statement f) :
    (forStatement e statement).Takes c fun w s => w.length ≤ f → ∀ word : Token, word.kind = .forWord →
      (Code.stmt s).Written .forStmt (word :: w) := by
  refine expect_takes fun left _ hl => .bind (forStart_takes he) fun first _ => ?_
  refine .bind (unless?_takes he .semicolon) fun condition _ => expect_takes fun close _ hclose => ?_
  refine .bind (unless?_takes he .rightParen) fun increment _ => expect_takes fun right _ hr => ?_
  refine .bind (hs _) fun body _ => .bind (forBody_takes first body) fun s _ => .pure ?_
  rintro v ⟨rfl, id, rfl⟩ w body c increment b condition a first short word hw
  simp only [List.length_cons, List.length_append, List.append_nil] at short ⊢
  exact .forStmt hw hl (first (by omega)) (condition (by omega)) hclose (increment (by omega)) hr (body (by omega))

theorem ifStatement_takes (he : e.ReadsWritten 0 (f + 1)) (hs : statement.ReadsCode .statement f) :
    (ifStatement e statement).Takes c fun w s => w.length ≤ f → ∀ word : Token, word.kind = .ifWord →
      (Code.stmt s).Written .ifStmt (word :: w) := by
  refine expect_takes fun left _ hl => .bind (ended_takes he .ifConditionEnd) fun x _ => .bind (hs _) fun yes c₁ => ?_
  have other : (elseBranch? statement).Takes c₁ fun w o => w.length ≤ f →
      (w = [] ∧ o = none) ∨ ∃ other v s, other.kind = .elseWord ∧ w = other :: v ∧ o = some s ∧
        (Code.stmt s).Written .statement v := by
    refine accept_takes (fun other _ ho => .bind (hs _) fun no _ => .pure fun v read short => ?_)
      (.pure fun _ => .inl ⟨rfl, rfl⟩)
    simp only [List.length_cons, List.append_nil] at short ⊢
    exact .inr ⟨other, v, no, ho, rfl, rfl, read (by omega)⟩
  refine .bind other fun no _ => .pure fun v' no v yes u condition short word hw => ?_
  simp only [List.length_cons, List.length_append, List.append_nil] at short ⊢
  obtain ⟨u, right, rfl, hr, hx⟩ := condition (by omega)
  rw [List.append_assoc]
  rcases no (by omega) with ⟨rfl, rfl⟩ | ⟨other, v', s, ho, rfl, rfl, written⟩
  · rw [List.append_nil]
    exact .ifThen hw hl hx hr (yes (by omega))
  · exact .ifElse hw hl hx hr (yes (by omega)) ho written

theorem whileStatement_takes (he : e.ReadsWritten 0 (f + 1)) (hs : statement.ReadsCode .statement f) :
    (whileStatement e statement).Takes c fun w s => w.length ≤ f → ∀ word : Token, word.kind = .whileWord →
      (Code.stmt s).Written .whileStmt (word :: w) := by
  refine expect_takes fun left _ hl => .bind (ended_takes he .whileConditionEnd) fun x _ => .bind (hs _) fun body _ => ?_
  refine .pure fun v body u condition short word hw => ?_
  simp only [List.length_cons, List.length_append, List.append_nil] at short ⊢
  obtain ⟨u, right, rfl, hr, hx⟩ := condition (by omega)
  rw [List.append_assoc]
  exact .whileStmt hw hl hx hr (body (by omega))

theorem returnStatement_takes (he : e.ReadsWritten 0 f) (keyword : Token) (hk : keyword.kind = .returnWord) :
    (returnStatement keyword e).Takes c fun w s => w.length ≤ f → s.Written .returnStmt (keyword :: w) := by
  refine .bind (unless?_takes he .semicolon) fun value _ => expect_takes fun close _ hc => .pure ?_
  intro u written short
  rw [List.length_append] at short
  exact .returnStmt hk (written (by omega)) hc

theorem statementWith_takes (he : e.ReadsWritten 0 (f + 1)) (hs : statement.ReadsCode .statement f)
    (hd : declaration.ReadsCode f) : (statementWith (f + 1) e statement declaration).ReadsCode .statement (f + 1) := by
  intro c
  refine peek_takes ?_
  split
  · next h =>
    refine advance_takes (by rw [h]; nofun) fun _ => (forStatement_takes he hs).mono fun w s read short => ?_
    exact .statement (by decide) (read (Nat.le_of_succ_le_succ short) c.peek h)
  · next h =>
    refine advance_takes (by rw [h]; nofun) fun _ => (ifStatement_takes he hs).mono fun w s read short => ?_
    exact .statement (by decide) (read (Nat.le_of_succ_le_succ short) c.peek h)
  · next h =>
    refine advance_takes (by rw [h]; nofun) fun _ => .bind (ended_takes he .printEnd) fun x _ => .pure ?_
    intro u read short
    simp only [List.length_cons, List.append_nil] at short ⊢
    obtain ⟨u, close, rfl, hc, hx⟩ := read (by omega)
    exact .statement (by decide) (.simple (.printStmt h hx hc))
  · next h =>
    refine advance_takes (by rw [h]; nofun) fun _ => (returnStatement_takes he c.peek h).mono fun w s read short => ?_
    exact .statement (by decide) (.simple (read (Nat.le_of_succ_le short)))
  · next h =>
    refine advance_takes (by rw [h]; nofun) fun _ => (whileStatement_takes he hs).mono fun w s read short => ?_
    exact .statement (by decide) (read (Nat.le_of_succ_le_succ short) c.peek h)
  · next h =>
    refine advance_takes (by rw [h]; nofun) fun _ => .bind (block_takes hd (f + 1)) fun body _ => .pure ?_
    intro u read short
    simp only [List.length_cons, List.append_nil] at short ⊢
    exact .blockStmt (read (by omega) c.peek h)
  · refine .bind (ended_takes he .expressionEnd) fun x _ => .pure fun u read short => ?_
    rw [List.append_nil] at short ⊢
    obtain ⟨u, close, rfl, hc, hx⟩ := read short
    exact .statement (by decide) (.simple (.exprStmt hx hc))

theorem declarationWith_takes (he : e.ReadsWritten 0 (f + 1)) (hs : statement.ReadsCode .statement (f + 1))
    (hd : declaration.ReadsCode f) : (declarationWith (f + 1) e statement declaration).ReadsCode .declaration (f + 1) := by
  intro c
  refine peek_takes ?_
  split
  · next h =>
    refine advance_takes (by rw [h]; nofun) fun _ => (classDeclaration_takes hd).mono fun w s read short => ?_
    exact .declaration (by decide) (read (Nat.le_of_succ_le_succ short) c.peek h)
  · next h =>
    refine advance_takes (by rw [h]; nofun) fun _ => .bind (routine_takes hd .function) fun r _ => .pure ?_
    intro u read short
    simp only [List.length_cons, List.append_nil] at short ⊢
    exact .declaration (by decide) (.funDecl h (read (by omega)))
  · next h =>
    refine advance_takes (by rw [h]; nofun) fun _ => (varDeclaration_takes he).mono fun w s read short => ?_
    exact .declaration (by decide) (.simple (read (Nat.le_of_succ_le short) c.peek h))
  · exact (hs c).mono fun w s read short => .declaration (by decide) (read short)

mutual

theorem statement_written : ∀ fuel : Nat, (Rule.statement fuel).ReadsCode .statement fuel
  | 0 => fun _ => stop_takes _
  | fuel + 1 =>
    statementWith_takes (expression_written (fuel + 1)) (statement_written fuel) (declaration_written fuel)

theorem declaration_written : ∀ fuel : Nat, (Rule.declaration fuel).ReadsCode fuel
  | 0 => fun c => by
    have stopped : Takes (stop .missingExpression) c fun _ (_ : Stmt) => False := stop_takes _
    exact (recovering_takes stopped).mono fun _ _ h => h.elim fun _ h => h.2.elim
  | fuel + 1 => by
    have expression := expression_written (fuel + 1)
    have declaration := declaration_written fuel
    have statement := statementWith_takes expression (statement_written fuel) declaration
    intro c
    refine (recovering_takes (declarationWith_takes expression statement declaration c)).mono fun w o read short => ?_
    obtain ⟨s, rfl, written⟩ := read
    exact ⟨s, rfl, written short⟩

end

/-- A sequence in which nothing wrong is found goes on until it is done, or until its fuel is used up. -/
theorem sequence_end {done : Cursor → Bool} {r : SureRule (Option Stmt)}
    (hr : ∀ c : Cursor, r.Takes c fun w _ => 0 < w.length) :
    ∀ (n : Nat) (c : Cursor) (found : List Stmt),
      ((sequence done r n found).outcome c).2.errors.size = c.errors.size →
        done ((sequence done r n found).outcome c).2 = true ∨
          ((sequence done r n found).outcome c).2.rest.length + n ≤ c.rest.length
  | 0, _, _, _ => .inr (Nat.le_refl _)
  | n + 1, c, found, same => by
    by_cases hdone : done c = true
    · exact .inl (by rw [outcome_sequence_of_done hdone]; exact hdone)
    · obtain ⟨found', next⟩ : ∃ found', (sequence done r (n + 1) found).outcome c =
          (sequence done r n found').outcome (r.outcome c).2 := ⟨_, outcome_sequence hdone r n found⟩
      have first := hr c
      have rest : (r.outcome c).2.errors.size ≤ ((sequence done r n found').outcome (r.outcome c).2).2.errors.size :=
        (sequence_takes (f := 0) (fun c => (hr c).mono fun w _ pos short => absurd pos (by omega)) n).1
      rw [next] at same ⊢
      obtain ⟨u, hu, -, pos⟩ := first.2 (Nat.le_antisymm (same ▸ rest) first.1)
      rcases sequence_end hr n (r.outcome c).2 found' (Nat.le_antisymm (same ▸ first.1) rest) with stop | short
      · exact .inl stop
      · refine .inr ?_
        have := congrArg List.length hu
        rw [List.length_append] at this
        omega

end Rule

/-- The tokens of a program end before the first end token. -/
def beforeEnd (tokens : List Token) : List Token := tokens.takeWhile (·.kind != .endOfInput)

theorem beforeEnd_of_atEnd {c : Cursor} (h : c.atEnd = true) : beforeEnd c.rest = [] := by
  unfold Cursor.atEnd Cursor.peek at h
  cases hr : c.rest with
  | nil => rfl
  | cons t rest =>
    rw [hr] at h
    have : (t.kind != .endOfInput) = false := by simpa using h
    rw [beforeEnd, List.takeWhile_cons, this]
    rfl

theorem beforeEnd_append {w rest : List Token} (h : ∀ t ∈ w, t.kind ≠ .endOfInput) (h' : beforeEnd rest = []) :
    beforeEnd (w ++ rest) = w := by
  unfold beforeEnd at h' ⊢
  rw [List.takeWhile_append_of_pos fun t ht => by simpa using h t ht, h', List.append_nil]

/-- The tokens in which nothing wrong is found are how the program read from them is written. -/
theorem written_parse {tokens : List Token} (h : (parse tokens).errors = []) :
    (Code.stmts (parse tokens).statements).Written .program (beforeEnd tokens) := by
  have declaration := Rule.declaration_written tokens.length
  have same : ((Rule.program tokens.length).outcome (.start tokens)).2.errors.size = 0 := by
    have : ((Rule.program tokens.length).outcome (.start tokens)).2.errors.toList = [] := h
    rw [← Array.length_toList, this]
    rfl
  obtain ⟨w, hw, endless, read⟩ := (Rule.sequence_takes declaration tokens.length (c := .start tokens)).2 same
  have positive : ∀ c : Cursor, (Rule.declaration tokens.length).Takes c fun w _ => 0 < w.length := by
    refine fun c => (declaration c).mono fun w o read => ?_
    by_cases short : w.length ≤ tokens.length
    · obtain ⟨s, -, written⟩ := read short
      exact written.length_pos
    · omega
  have last := Rule.sequence_end positive tokens.length (.start tokens) [] same
  have short : w.length ≤ tokens.length := by
    have := congrArg List.length hw
    rw [List.length_append] at this
    exact Nat.le.intro this.symm
  obtain ⟨entries, statements, each, rfl⟩ := read short
  have whole : beforeEnd tokens = (entries.map (·.2)).flatten := by
    show beforeEnd (Cursor.start tokens).rest = _
    rw [hw]
    refine beforeEnd_append endless ?_
    rcases last with atEnd | spent
    · exact beforeEnd_of_atEnd atEnd
    · refine (congrArg beforeEnd (List.eq_nil_of_length_eq_zero (Nat.le_zero.1 ?_))).trans rfl
      exact Nat.le_of_add_le_add_right (Nat.le_trans spent (Nat.le_of_eq (Nat.zero_add tokens.length).symm))
  rw [whole, show (parse tokens).statements = entries.map (·.1) from statements]
  exact .program each

end Lox
