/-
The statements that are read, from tidy tokens as the grammar promises, with the uses in them numbered apart
(`numbered_parse`). So a text whose program can be run has statements that break no rule of the grammar or of names
(`resolved_of_ofSource`).
-/
import Lox.Program
import Lox.Proofs.Binding.Checked
import Lox.Proofs.Grammar.Expression

namespace Lox

/-! ## Lists -/

theorem Stmt.formedAll_iff {ss : List Stmt} : Stmt.FormedAll ss ↔ ∀ s ∈ ss, s.Formed := by
  induction ss with
  | nil => simp [FormedAll]
  | cons s ss ih => simp [FormedAll, ih]

theorem Stmt.usesAll_eq (ss : List Stmt) : Stmt.usesAll ss = ss.flatMap Stmt.uses := by
  induction ss with
  | nil => rfl
  | cons s ss ih => simp [usesAll, ih]

theorem methodsFormed_iff {rs : List (Routine Stmt)} : methodsFormed rs ↔ ∀ r ∈ rs, routineFormed r := by
  induction rs with
  | nil => simp [methodsFormed]
  | cons r rs ih => simp [methodsFormed, ih]

theorem methodUses_eq (rs : List (Routine Stmt)) : methodUses rs = rs.flatMap routineUses := by
  induction rs with
  | nil => rfl
  | cons r rs ih => simp [methodUses, ih]

/-- What the grammar promises about a statement that is no declaration. -/
def Stmt.Quiet (s : Stmt) : Prop := s.Formed ∧ s.declared = []

/-- Whether a rule reads statements with uses numbered apart, from tidy tokens of some kind. -/
def Rule.ReadsStmt (tidy : Prop) (formed : Stmt → Prop) (r : Rule Stmt) : Prop :=
  ∀ c : Cursor, r.Gives tidy c fun next s => Reads (tidy → formed ·) Stmt.uses c.nextUse next s

/-- Whether a rule reads declarations, where it gives any. -/
def SureRule.ReadsDecl (tidy : Prop) (r : SureRule (Option Stmt)) : Prop :=
  ∀ c : Cursor, r.Gives tidy c fun next o => ∀ s ∈ o, Reads (tidy → Stmt.Formed ·) Stmt.uses c.nextUse next s

theorem Rule.ReadsStmt.formed {tidy : Prop} {r : Rule Stmt} (h : r.ReadsStmt tidy Stmt.Quiet) : r.ReadsStmt tidy Stmt.Formed :=
  fun c => (h c).mono fun _ _ _ read => ⟨fun tidy => (read.formed tidy).1, read.numbered⟩

namespace Rule

variable {tidy : Prop} {c : Cursor} {lo : UseId}

/-! ## Sequences -/

theorem recovering_gives {r : Rule Stmt} (h : r.ReadsStmt tidy Stmt.Formed) : SureRule.ReadsDecl tidy (recovering r) := by
  intro c
  refine .bind (h c) fun c₁ result le₁ read => ?_
  cases result with
  | ok s => exact .pure fun _ e => by cases e; exact read s rfl
  | error e =>
    refine .bind (.move ((Cursor.Leads.record c₁ e).trans (.recover _))) fun c₂ _ _ _ => .pure nofun

theorem sequence_gives {done : Cursor → Bool} {r : SureRule (Option Stmt)} (hr : r.ReadsDecl tidy) :
    ∀ (fuel : Nat) {c : Cursor} {found : List Stmt}, lo ≤ c.nextUse →
      ReadsAll tidy Stmt.Formed Stmt.uses lo c.nextUse found.reverse →
      SureRule.Gives tidy (sequence done r fuel found) c fun next ss => Reads (tidy → Stmt.FormedAll ·) Stmt.usesAll lo next ss
  | 0, c, found, _, h => .pure ⟨fun tidy => Stmt.formedAll_iff.2 (h.formed tidy), by rw [Stmt.usesAll_eq]; exact h.numbered⟩
  | fuel + 1, c, found, hlo, h => by
    refine .bind .get ?_
    rintro c₁ _ le₁ -
    have h₁ := h.widen (Nat.le_refl lo) le₁
    split
    · exact .pure ⟨fun tidy => Stmt.formedAll_iff.2 (h₁.formed tidy), by rw [Stmt.usesAll_eq]; exact h₁.numbered⟩
    · refine .bind (hr c₁) fun c₂ o le₂ read => ?_
      have le := Nat.le_trans hlo (Nat.le_trans le₁ le₂)
      cases o with
      | none => exact sequence_gives hr fuel le (h₁.widen (Nat.le_refl lo) le₂)
      | some s => exact sequence_gives hr fuel le (h₁.push (read s rfl) (Nat.le_trans hlo le₁) le₂)

theorem block_gives {declaration : SureRule (Option Stmt)} (hd : declaration.ReadsDecl tidy) (fuel : Nat) :
    Gives tidy (block fuel declaration) c fun next ss => Reads (tidy → Stmt.FormedAll ·) Stmt.usesAll c.nextUse next ss := by
  refine .bind (.lift (sequence_gives hd fuel (Nat.le_refl c.nextUse) .nil)) fun c₁ body le₁ read => ?_
  exact .bind (expect_gives .blockEnd) fun c₂ _ le₂ _ => .pure (read.widen (Nat.le_refl _) le₂)

/-! ## Declarations -/

/-- An identifier can be a name. -/
theorem name_gives (expected : Expectation) (hk : expected.kind = .identifier) :
    Gives tidy (expect expected) c fun _ t => tidy → Nameable t.lexeme :=
  (expect_gives expected).mono fun _ _ _ h tidy => (h.2 tidy).1 (h.1.trans hk)

theorem parameters_gives (fuel : Nat) : Gives tidy (parameters fuel) c fun _ ps => tidy → ∀ p ∈ ps, Nameable p.lexeme := by
  refine .bind (check_gives .rightParen) fun c₁ _ le₁ _ => ?_
  split
  · exact .pure fun _ => List.forall_mem_nil _
  · refine (entries_gives (fun p => Nameable p.lexeme) (fun _ => []) .tooManyParameters
      (fun c => (name_gives .parameterName rfl).mono fun _ _ _ h => ⟨h, .nil⟩) fuel (Nat.le_refl _) .nil).mono ?_
    exact fun _ _ _ read => read.formed

theorem routine_gives {declaration : SureRule (Option Stmt)} (hd : declaration.ReadsDecl tidy) (role : Role) (fuel : Nat) :
    Gives tidy (routine role fuel declaration) c fun next r =>
      (tidy → Nameable r.name.lexeme) ∧ Reads (tidy → routineFormed ·) routineUses c.nextUse next r := by
  refine .bind (name_gives (.routineName role) rfl) fun c₁ name le₁ nameable => ?_
  refine .bind (expect_gives (.parameterList role)) fun c₂ _ le₂ _ => ?_
  refine .bind (parameters_gives fuel) fun c₃ ps le₃ hps => ?_
  refine .bind (expect_gives .parametersEnd) fun c₄ _ le₄ _ => ?_
  refine .bind (expect_gives (.routineBody role)) fun c₅ _ le₅ _ => ?_
  refine .bind (block_gives hd fuel) fun c₆ body le₆ read => .pure ⟨nameable, fun tidy => ⟨hps tidy, read.formed tidy⟩, ?_⟩
  have le := Nat.le_trans le₁ (Nat.le_trans le₂ (Nat.le_trans le₃ (Nat.le_trans le₄ le₅)))
  exact read.numbered.widen le (Nat.le_refl _)

theorem methods_gives {method : Rule (Routine Stmt)}
    (hm : ∀ c : Cursor, method.Gives tidy c fun next r => Reads (tidy → routineFormed ·) routineUses c.nextUse next r) :
    ∀ (fuel : Nat) {c : Cursor} {found : List (Routine Stmt)}, lo ≤ c.nextUse →
      ReadsAll tidy routineFormed routineUses lo c.nextUse found.reverse →
      Gives tidy (methods method fuel found) c fun next rs => Reads (tidy → methodsFormed ·) methodUses lo next rs
  | 0, c, found, _, h => .pure ⟨fun tidy => methodsFormed_iff.2 (h.formed tidy), by rw [methodUses_eq]; exact h.numbered⟩
  | fuel + 1, c, found, hlo, h => by
    refine .bind get_gives ?_
    rintro c₁ _ le₁ -
    have h₁ := h.widen (Nat.le_refl lo) le₁
    split
    · exact .pure ⟨fun tidy => methodsFormed_iff.2 (h₁.formed tidy), by rw [methodUses_eq]; exact h₁.numbered⟩
    · refine .bind (hm c₁) fun c₂ r le₂ read => ?_
      exact methods_gives hm fuel (Nat.le_trans hlo (Nat.le_trans le₁ le₂)) (h₁.push read (Nat.le_trans hlo le₁) le₂)

theorem superclass?_gives :
    Gives tidy superclass? c fun next o => ∀ e ∈ o, Reads (tidy → Expr.NamesClass ·) Expr.uses c.nextUse next e := by
  refine .bind (accept_gives .less) fun c₁ _ le₁ _ => ?_
  split
  · refine .bind (name_gives .superclassName rfl) fun c₂ name le₂ nameable => ?_
    refine .bind newUse_gives fun c₃ id _ hid => .pure fun e he => ?_
    cases he
    refine ⟨fun tidy => ⟨id, name, rfl, nameable tidy⟩, ?_⟩
    rw [hid.2, hid.1]
    exact (Numbered.one _).widen (Nat.le_trans le₁ le₂) (Nat.le_refl _)
  · exact .pure nofun

theorem classDeclaration_gives {declaration : SureRule (Option Stmt)} (hd : declaration.ReadsDecl tidy) (fuel : Nat) :
    (classDeclaration fuel declaration).ReadsStmt tidy Stmt.Formed := by
  intro c
  refine .bind (name_gives .className rfl) fun c₁ name le₁ nameable => ?_
  refine .bind superclass?_gives fun c₂ superclass le₂ readSuper => ?_
  refine .bind (expect_gives .classBody) fun c₃ _ le₃ _ => ?_
  have method : ∀ c : Cursor, (routine .method fuel declaration).Gives tidy c fun next r =>
      Reads (tidy → routineFormed ·) routineUses c.nextUse next r :=
    fun c => (routine_gives hd .method fuel).mono fun _ _ _ h => h.2
  refine .bind (methods_gives method fuel (Nat.le_refl _) .nil) fun c₄ rs le₄ read => ?_
  refine .bind (expect_gives .classEnd) fun c₅ _ le₅ _ => .pure ?_
  have read := read.widen (Nat.le_refl _) le₅
  cases superclass with
  | none =>
    have le := Nat.le_trans le₁ (Nat.le_trans le₂ le₃)
    exact ⟨fun tidy => ⟨nameable tidy, read.formed tidy⟩, read.numbered.widen le (Nat.le_refl _)⟩
  | some e =>
    obtain ⟨names, numbered⟩ := (readSuper e rfl).widen le₁ le₃
    have le := Nat.le_trans le₁ (Nat.le_trans le₂ le₃)
    refine ⟨fun tidy => ⟨nameable tidy, names tidy, read.formed tidy⟩, ?_⟩
    exact numbered.append read.numbered le (Nat.le_trans le₄ le₅)

theorem initializer?_gives {e : Rule Expr} (he : e.ReadsExpr tidy) :
    Gives tidy (initializer? e) c fun next o => Reads (tidy → Expr.FormedOption ·) Expr.usesOption c.nextUse next o := by
  refine .bind (accept_gives .equal) fun c₁ _ le₁ _ => ?_
  split
  · refine .bind (he c₁) fun c₂ x _ read => .pure ⟨fun tidy y hy => ?_, read.numbered.widen le₁ (Nat.le_refl _)⟩
    cases hy
    exact read.formed tidy
  · exact .pure ⟨fun _ => nofun, .nil⟩

/-- A variable's declaration is read. -/
theorem varDeclaration_gives {e : Rule Expr} (he : e.ReadsExpr tidy) :
    Gives tidy (varDeclaration e) c fun next s =>
      Reads (tidy → Stmt.Formed ·) Stmt.uses c.nextUse next s ∧ ∃ name initial, s = .varDecl name initial := by
  refine .bind (name_gives .variableName rfl) fun c₁ name le₁ nameable => ?_
  refine .bind (initializer?_gives he) fun c₂ initial le₂ read => ?_
  refine .bind (expect_gives .variableEnd) fun c₃ _ le₃ _ => .pure ⟨⟨fun tidy => ?_, ?_⟩, name, initial, rfl⟩
  · exact ⟨nameable tidy, read.formed tidy⟩
  · exact read.numbered.widen le₁ le₃

/-! ## Statements -/

theorem ended_gives {e : Rule Expr} (he : e.ReadsExpr tidy) (close : Expectation) : (ended e close).ReadsExpr tidy :=
  fun c => .bind (he c) fun _ _ _ read =>
    .bind (expect_gives close) fun _ _ le _ => .pure (read.widen (Nat.le_refl _) le)

theorem unless?_gives {e : Rule Expr} (he : e.ReadsExpr tidy) (kind : Kind) :
    Gives tidy (unless? kind e) c fun next o => Reads (tidy → Expr.FormedOption ·) Expr.usesOption c.nextUse next o := by
  refine .bind (check_gives kind) fun c₁ _ le₁ _ => ?_
  split
  · exact .pure ⟨fun _ => nofun, .nil⟩
  · refine .bind (he c₁) fun c₂ x _ read => .pure ⟨fun tidy y hy => ?_, read.numbered.widen le₁ (Nat.le_refl _)⟩
    cases hy
    exact read.formed tidy

/-- The first clause of a `for` loop is read: an expression, or a variable. -/
theorem forStart_gives {e : Rule Expr} (he : e.ReadsExpr tidy) :
    Gives tidy (forStart e) c fun next o => ∀ s ∈ o, Reads (tidy → Stmt.Formed ·) Stmt.uses c.nextUse next s := by
  refine .bind (accept_gives .semicolon) fun c₁ _ le₁ _ => ?_
  split
  · exact .pure nofun
  · refine .bind (accept_gives .varWord) fun c₂ _ le₂ _ => ?_
    split
    · refine .bind (varDeclaration_gives he) fun c₃ s _ read => .pure fun s' hs => ?_
      cases hs
      exact read.1.widen (Nat.le_trans le₁ le₂) (Nat.le_refl _)
    · refine .bind (ended_gives he .expressionEnd c₂) fun c₃ x _ read => .pure fun s' hs => ?_
      cases hs
      have := read.widen (Nat.le_trans le₁ le₂) (Nat.le_refl _)
      exact ⟨this.formed, this.numbered⟩

/-- One pass of a loop with a variable of its own. -/
theorem reads_pass {mid : UseId} {name : Token} (nameable : tidy → Nameable name.lexeme) {body : Stmt}
    (read : Reads (tidy → Stmt.Quiet ·) Stmt.uses lo mid body) (hlo : lo ≤ mid) :
    Reads (tidy → Stmt.Quiet ·) Stmt.uses lo (mid + ForLoop.usesPerPass) (ForLoop.pass mid name body) := by
  have slot : Nameable (ForLoop.slot name).lexeme :=
    ⟨by show ForLoop.slotName ≠ _; decide, by show ForLoop.slotName ≠ _; decide⟩
  refine ⟨fun tidy => ?_, ?_⟩
  · have nameable := nameable tidy
    have body := (read.formed tidy).1
    refine ⟨⟨⟨slot, ?_⟩, ⟨⟨nameable, ?_⟩, body, ⟨slot, nameable⟩, trivial⟩, ⟨nameable, slot⟩, trivial⟩, rfl⟩
    · rintro _ ⟨⟩
      exact nameable
    · rintro _ ⟨⟩
      exact slot
  · have own : Numbered mid (mid + ForLoop.usesPerPass) [mid + 3, mid, mid + 1, mid + 2, mid + 4, mid + 5] := by
      have after : ∀ k < 6, mid ≤ mid + k ∧ mid + k < mid + ForLoop.usesPerPass := fun k hk =>
        ⟨Nat.le_add_right _ _, Nat.add_lt_add_left hk _⟩
      refine ⟨by simp, ?_⟩
      simp only [List.forall_mem_cons]
      exact ⟨after 3 (by decide), after 0 (by decide), after 1 (by decide), after 2 (by decide), after 4 (by decide),
        after 5 (by decide), nofun⟩
    refine (read.numbered.append own hlo (Nat.le_add_right _ _)).perm ?_
    have uses : (ForLoop.pass mid name body).uses =
        [mid + 3, mid] ++ (body.uses ++ [mid + 1, mid + 2, mid + 4, mid + 5]) := by
      simp [ForLoop.pass, Stmt.uses, Stmt.usesAll, Expr.usesOption, Expr.uses]
    rw [uses]
    exact (List.perm_append_comm_assoc body.uses [mid + 3, mid] _)

theorem forBody_gives {first : Option Stmt} (hf : tidy → ∀ s ∈ first, s.Formed) {body : Stmt} (hlo : lo ≤ c.nextUse)
    (read : Reads (tidy → Stmt.Quiet ·) Stmt.uses lo c.nextUse body) :
    Gives tidy (forBody first body) c fun next s => Reads (tidy → Stmt.Quiet ·) Stmt.uses lo next s := by
  unfold forBody
  split
  · next name initial =>
    refine .bind (newUses_gives ForLoop.usesPerPass) fun c₁ id le₁ hid => .pure ?_
    rw [hid.2, hid.1]
    exact reads_pass (fun tidy => (hf tidy _ rfl).1) read hlo
  · exact .pure read

/-- A body with the loop's last clause, which was read before it. -/
theorem reads_withIncrement {mid hi : UseId} {increment : Option Expr} {body : Stmt}
    (hi' : Reads (tidy → Expr.FormedOption ·) Expr.usesOption lo mid increment) (hb : Reads (tidy → Stmt.Quiet ·) Stmt.uses mid hi body)
    (le : lo ≤ mid) (le' : mid ≤ hi) :
    Reads (tidy → Stmt.Quiet ·) Stmt.uses lo hi (ForLoop.withIncrement increment body) := by
  cases increment with
  | none => exact hb.widen le (Nat.le_refl _)
  | some e =>
    refine ⟨fun tidy => ⟨⟨(hb.formed tidy).1, hi'.formed tidy e rfl, trivial⟩, rfl⟩, ?_⟩
    have := (hi'.numbered.append hb.numbered le le').comm
    simpa [ForLoop.withIncrement, Stmt.uses, Stmt.usesAll, Expr.usesOption] using this

theorem reads_whole {mid hi : UseId} {first : Option Stmt} {condition : Option Expr} {body : Stmt}
    (hf : ∀ s ∈ first, Reads (tidy → Stmt.Formed ·) Stmt.uses lo mid s)
    (hb : Reads (tidy → Stmt.Quiet ·) Stmt.uses mid hi (.whileDo (condition.getD (.literal (.bool true))) body))
    (le : lo ≤ mid) (le' : mid ≤ hi) : Reads (tidy → Stmt.Quiet ·) Stmt.uses lo hi (ForLoop.whole first condition body) := by
  cases first with
  | none => exact hb.widen le (Nat.le_refl _)
  | some s =>
    have read := hf s rfl
    refine ⟨fun tidy => ⟨⟨read.formed tidy, (hb.formed tidy).1, trivial⟩, rfl⟩, ?_⟩
    have := read.numbered.append hb.numbered le le'
    simpa [ForLoop.whole, Stmt.uses, Stmt.usesAll] using this

theorem forStatement_gives {e : Rule Expr} (he : e.ReadsExpr tidy) {statement : Rule Stmt}
    (hs : statement.ReadsStmt tidy Stmt.Quiet) : (forStatement e statement).ReadsStmt tidy Stmt.Quiet := by
  intro c
  refine .bind (expect_gives .forClauses) fun c₁ _ le₁ _ => ?_
  refine .bind (forStart_gives he) fun c₂ first le₂ readFirst => ?_
  refine .bind (unless?_gives he .semicolon) fun c₃ condition le₃ readCondition => ?_
  refine .bind (expect_gives .forConditionEnd) fun c₄ _ le₄ _ => ?_
  refine .bind (unless?_gives he .rightParen) fun c₅ increment le₅ readIncrement => ?_
  refine .bind (expect_gives .forClausesEnd) fun c₆ _ le₆ _ => ?_
  refine .bind (hs c₆) fun c₇ body le₇ readBody => ?_
  have readIncrement := readIncrement.widen (Nat.le_refl _) le₆
  refine .bind (forBody_gives (fun tidy s hs => (readFirst s hs).formed tidy) le₇ readBody) fun c₈ body le₈ readBody => .pure ?_
  have pass := reads_withIncrement readIncrement readBody (Nat.le_trans le₅ le₆) (Nat.le_trans le₇ le₈)
  have le₄₈ := Nat.le_trans (Nat.le_trans le₅ le₆) (Nat.le_trans le₇ le₈)
  have readCondition := readCondition.widen (Nat.le_refl _) le₄
  have first : ∀ s ∈ first, Reads (tidy → Stmt.Formed ·) Stmt.uses c.nextUse c₂.nextUse s :=
    fun s hs => (readFirst s hs).widen le₁ (Nat.le_refl _)
  refine reads_whole first ?_ (Nat.le_trans le₁ le₂) (Nat.le_trans (Nat.le_trans le₃ le₄) le₄₈)
  have numbered := readCondition.numbered.append pass.numbered (Nat.le_trans le₃ le₄) le₄₈
  cases condition with
  | none => exact ⟨fun tidy => ⟨⟨trivial, pass.formed tidy⟩, (pass.formed tidy).2⟩, numbered⟩
  | some x =>
    exact ⟨fun tidy => ⟨⟨readCondition.formed tidy x rfl, pass.formed tidy⟩, (pass.formed tidy).2⟩, numbered⟩

theorem elseBranch?_gives {statement : Rule Stmt} (hs : statement.ReadsStmt tidy Stmt.Quiet) :
    Gives tidy (elseBranch? statement) c fun next o => ∀ s ∈ o, Reads (tidy → Stmt.Quiet ·) Stmt.uses c.nextUse next s := by
  refine .bind (accept_gives .elseWord) fun c₁ _ le₁ _ => ?_
  split
  · refine .bind (hs c₁) fun c₂ s _ read => .pure fun s' h => ?_
    cases h
    exact read.widen le₁ (Nat.le_refl _)
  · exact .pure nofun

theorem ifStatement_gives {e : Rule Expr} (he : e.ReadsExpr tidy) {statement : Rule Stmt}
    (hs : statement.ReadsStmt tidy Stmt.Quiet) : (ifStatement e statement).ReadsStmt tidy Stmt.Quiet := by
  intro c
  refine .bind (expect_gives .ifCondition) fun c₁ _ le₁ _ => ?_
  refine .bind (ended_gives he .ifConditionEnd c₁) fun c₂ condition le₂ read => ?_
  refine .bind (hs c₂) fun c₃ yes le₃ readYes => ?_
  refine .bind (elseBranch?_gives hs) fun c₄ no le₄ readNo => .pure ?_
  have read := read.widen le₁ (Nat.le_refl _)
  have le := Nat.le_trans le₁ le₂
  cases no with
  | none =>
    have readYes := readYes.widen (Nat.le_refl _) le₄
    refine ⟨fun tidy => ⟨⟨read.formed tidy, readYes.formed tidy⟩, (readYes.formed tidy).2⟩, ?_⟩
    exact read.numbered.append readYes.numbered le (Nat.le_trans le₃ le₄)
  | some s =>
    have readNo := readNo s rfl
    refine ⟨fun tidy => ⟨⟨read.formed tidy, readYes.formed tidy, readNo.formed tidy⟩, ?_⟩, ?_⟩
    · rw [Stmt.declared, (readYes.formed tidy).2, (readNo.formed tidy).2]
      rfl
    · exact read.numbered.append (readYes.numbered.append readNo.numbered le₃ le₄) le (Nat.le_trans le₃ le₄)

theorem whileStatement_gives {e : Rule Expr} (he : e.ReadsExpr tidy) {statement : Rule Stmt}
    (hs : statement.ReadsStmt tidy Stmt.Quiet) : (whileStatement e statement).ReadsStmt tidy Stmt.Quiet := by
  intro c
  refine .bind (expect_gives .whileCondition) fun c₁ _ le₁ _ => ?_
  refine .bind (ended_gives he .whileConditionEnd c₁) fun c₂ condition le₂ read => ?_
  refine .bind (hs c₂) fun c₃ body le₃ readBody => .pure ⟨fun tidy => ?_, ?_⟩
  · exact ⟨⟨read.formed tidy, readBody.formed tidy⟩, (readBody.formed tidy).2⟩
  · exact (read.numbered.widen le₁ (Nat.le_refl _)).append readBody.numbered (Nat.le_trans le₁ le₂) le₃

theorem returnStatement_gives {e : Rule Expr} (he : e.ReadsExpr tidy) (keyword : Token) :
    (returnStatement keyword e).ReadsStmt tidy Stmt.Quiet := by
  intro c
  refine .bind (unless?_gives he .semicolon) fun c₁ value le₁ read => ?_
  refine .bind (expect_gives .returnEnd) fun c₂ _ le₂ _ => .pure ?_
  have := read.widen (Nat.le_refl _) le₂
  exact ⟨fun tidy => ⟨this.formed tidy, rfl⟩, this.numbered⟩

theorem statementWith_gives {e : Rule Expr} (he : e.ReadsExpr tidy) {statement : Rule Stmt}
    (hs : statement.ReadsStmt tidy Stmt.Quiet) {declaration : SureRule (Option Stmt)} (hd : declaration.ReadsDecl tidy)
    (fuel : Nat) : (statementWith fuel e statement declaration).ReadsStmt tidy Stmt.Quiet := by
  intro c
  refine .bind peek_gives fun c₁ t le₁ _ => ?_
  have later : ∀ {r : Rule Stmt} {c₂ : Cursor}, r.ReadsStmt tidy Stmt.Quiet → c₁.nextUse ≤ c₂.nextUse →
      Gives tidy r c₂ fun next s => Reads (tidy → Stmt.Quiet ·) Stmt.uses c.nextUse next s :=
    fun h le => (h _).mono fun _ _ _ read => read.widen (Nat.le_trans le₁ le) (Nat.le_refl _)
  split
  · exact .bind advance_gives fun c₂ _ le₂ _ => later (forStatement_gives he hs) le₂
  · exact .bind advance_gives fun c₂ _ le₂ _ => later (ifStatement_gives he hs) le₂
  · refine .bind advance_gives fun c₂ _ le₂ _ => .bind (ended_gives he .printEnd c₂) fun c₃ x _ read => .pure ?_
    have := read.widen (Nat.le_trans le₁ le₂) (Nat.le_refl _)
    exact ⟨fun tidy => ⟨this.formed tidy, rfl⟩, this.numbered⟩
  · exact .bind advance_gives fun c₂ _ le₂ _ => later (returnStatement_gives he t) le₂
  · exact .bind advance_gives fun c₂ _ le₂ _ => later (whileStatement_gives he hs) le₂
  · refine .bind advance_gives fun c₂ _ le₂ _ => .bind (block_gives hd fuel) fun c₃ body _ read => .pure ?_
    have := read.widen (Nat.le_trans le₁ le₂) (Nat.le_refl _)
    exact ⟨fun tidy => ⟨this.formed tidy, rfl⟩, this.numbered⟩
  · refine .bind (ended_gives he .expressionEnd c₁) fun c₂ x _ read => .pure ?_
    have := read.widen le₁ (Nat.le_refl _)
    exact ⟨fun tidy => ⟨this.formed tidy, rfl⟩, this.numbered⟩

theorem declarationWith_gives {e : Rule Expr} (he : e.ReadsExpr tidy) {statement : Rule Stmt}
    (hs : statement.ReadsStmt tidy Stmt.Quiet) {declaration : SureRule (Option Stmt)} (hd : declaration.ReadsDecl tidy)
    (fuel : Nat) : (declarationWith fuel e statement declaration).ReadsStmt tidy Stmt.Formed := by
  intro c
  refine .bind peek_gives fun c₁ t le₁ _ => ?_
  split
  · refine .bind advance_gives fun c₂ _ le₂ _ => ?_
    exact (classDeclaration_gives hd fuel c₂).mono fun _ _ _ read =>
      read.widen (Nat.le_trans le₁ le₂) (Nat.le_refl _)
  · refine .bind advance_gives fun c₂ _ le₂ _ => .bind (routine_gives hd .function fuel) fun c₃ r _ read => .pure ?_
    have := read.2.widen (Nat.le_trans le₁ le₂) (Nat.le_refl _)
    exact ⟨fun tidy => ⟨read.1 tidy, this.formed tidy⟩, this.numbered⟩
  · refine .bind advance_gives fun c₂ _ le₂ _ => ?_
    exact (varDeclaration_gives he).mono fun _ _ _ read => read.1.widen (Nat.le_trans le₁ le₂) (Nat.le_refl _)
  · exact (hs.formed c₁).mono fun _ _ _ read => read.widen le₁ (Nat.le_refl _)

mutual

theorem statement_gives : ∀ fuel : Nat, (statement fuel).ReadsStmt tidy Stmt.Quiet
  | 0 => fun _ => stop_gives _ _
  | fuel + 1 =>
    statementWith_gives (expression_gives (fuel + 1)) (statement_gives fuel) (declaration_gives fuel) (fuel + 1)

theorem declaration_gives : ∀ fuel : Nat, (declaration fuel).ReadsDecl tidy
  | 0 => recovering_gives fun _ => stop_gives _ _
  | fuel + 1 => by
    have expression : (expression (fuel + 1)).ReadsExpr tidy := expression_gives (fuel + 1)
    have declaration := declaration_gives fuel
    have statement := statementWith_gives expression (statement_gives fuel) declaration (fuel + 1)
    exact recovering_gives (declarationWith_gives expression statement declaration (fuel + 1))

end

end Rule

/-! ## Programs -/

/-- The statements of any tokens. -/
theorem Rule.program_gives {tidy : Prop} {tokens : List Token} (h : tidy → ∀ t ∈ tokens, t.Spelled) :
    Reads (tidy → Stmt.FormedAll ·) Stmt.usesAll 0 (parse tokens).uses (parse tokens).statements :=
  (Rule.sequence_gives (c := .start tokens) (Rule.declaration_gives tokens.length) tokens.length (Nat.le_refl 0) .nil
    h).2

/-- The statements of any tokens have their uses numbered apart. -/
theorem numbered_parse (tokens : List Token) :
    Numbered 0 (parse tokens).uses (Stmt.usesAll (parse tokens).statements) :=
  (Rule.program_gives (fun impossible : False => impossible.elim)).numbered

/-- The statements of tokens that are spelled as they should be. -/
theorem reads_parse {tokens : List Token} (h : ∀ t ∈ tokens, t.Spelled) :
    Reads Stmt.FormedAll Stmt.usesAll 0 (parse tokens).uses (parse tokens).statements :=
  ⟨(Rule.program_gives fun _ : True => h).formed trivial, numbered_parse tokens⟩

/-- A program that can be run is read from the tokens of its text, with which nothing is wrong. -/
theorem parse_of_ofSource {source : String} {program : Program} (h : Program.ofSource source = .ok program) :
    (parse (scan source).tokens).errors = [] ∧ (parse (scan source).tokens).statements = program.statements := by
  unfold Program.ofSource at h
  dsimp only at h
  split at h
  · cases h
  split at h
  · cases h
  · next parsed =>
    split at h
    · cases h
    · cases h
      exact ⟨by simpa using parsed, rfl⟩

/-- The statements of a program that can be run break no rule, and its table is theirs. -/
theorem resolved_of_ofSource {source : String} {program : Program} (h : Program.ofSource source = .ok program) :
    Resolved program.statements program.table := by
  unfold Program.ofSource at h
  dsimp only at h
  split at h
  · cases h
  split at h
  · cases h
  split at h
  · cases h
  · next errors =>
    cases h
    have read := reads_parse (spelled_scan source)
    exact ⟨read.formed, read.numbered.apart, by simpa using errors, rfl⟩

end Lox
