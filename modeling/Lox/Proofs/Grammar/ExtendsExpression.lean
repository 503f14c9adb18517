/-
Expressions in two readings. A rule for expressions may look ahead of the last token of an expression; where there is no
token left, it finds that the expression is missing.
-/
import Lox.Proofs.Grammar.Extends

namespace Lox

variable {x : Extension} {n : Nat}

/-- Whether a rule for expressions does what another one does in the second reading, from fewer than `n` tokens. -/
def Rule.ExprExtends (x : Extension) (n : Nat) (r r' : Rule Expr) : Prop :=
  ∀ c : Cursor, c.rest.length < n → Extends x true c.rest.length (Expr.raise x.moved) r r' c

/-- Whether a level builds the same trees with uses counted from further up. -/
def Level.Raises (l : Level) : Prop :=
  ∀ k operator a b, (l.build operator a b).raise k = l.build operator (a.raise k) (b.raise k)

theorem raises_levels : ∀ l ∈ levels, l.Raises := by
  simp only [levels, List.forall_mem_cons, List.not_mem_nil, false_imp_iff, implies_true, and_true]
  refine ⟨?_, ?_, ?_, ?_, ?_, ?_⟩ <;> exact fun _ _ _ _ => rfl

namespace Rule

variable {inner inner' : Rule Expr} {fuel fuel' : Nat}

/-! ## At the end of the tokens -/

theorem primary_atEnd (inner : Rule Expr) : StopsAtEnd .missingExpression (primary inner) :=
  peek_atEnd.stops (stop_atEnd _)

theorem suffixes_atEnd (inner : Rule Expr) (fuel : Nat) (e : Expr) : GivesAtEnd e (suffixes inner fuel e) := by
  cases fuel with
  | zero => exact givesAtEnd_pure e
  | succ fuel => exact (accept_atEnd .leftParen).bind ((accept_atEnd .dot).bind (givesAtEnd_pure e))

theorem leadingSigns_atEnd (fuel : Nat) (found : List Token) : GivesAtEnd found (leadingSigns fuel found) := by
  cases fuel with
  | zero => exact givesAtEnd_pure found
  | succ fuel => exact (acceptAny?_atEnd signs).bind (givesAtEnd_pure found)

theorem chain_atEnd (level : Level) (operand : Rule Expr) (fuel : Nat) (left : Expr) :
    GivesAtEnd left (chain level operand fuel left) := by
  cases fuel with
  | zero => exact givesAtEnd_pure left
  | succ fuel => exact (acceptAny?_atEnd level.operators).bind (givesAtEnd_pure left)

theorem signed_atEnd (fuel : Nat) (inner : Rule Expr) : StopsAtEnd .missingExpression (signed fuel inner) :=
  (leadingSigns_atEnd fuel []).stops (primary_atEnd inner).bind.bind

theorem operation_atEnd (fuel : Nat) (inner : Rule Expr) : StopsAtEnd .missingExpression (operation fuel inner) := by
  unfold operation
  induction levels with
  | nil => exact signed_atEnd fuel inner
  | cons l ls ih => exact ih.bind

theorem expression_atEnd (fuel : Nat) : StopsAtEnd .missingExpression (expression fuel) := by
  cases fuel with
  | zero => exact stop_atEnd _
  | succ fuel => exact (operation_atEnd _ _).bind

/-! ## Primary expressions, calls and properties -/

theorem primary_extends (hi : ExprExtends x n inner inner') : ExprExtends x (n + 1) (primary inner) (primary inner') := by
  intro c hn
  refine peek_extends (.inl rfl) fun site => ?_
  have taken {r r' : Rule Expr} (hk : c.peek.kind ≠ .endOfInput)
      (h : ∀ c₁ : Cursor, c₁.rest.length < c.rest.length →
        Extends x true c.rest.length (Expr.raise x.moved) r r' c₁) :
      Extends x true c.rest.length (Expr.raise x.moved) (advance >>= fun _ => r) (advance >>= fun _ => r') c :=
    advance_extends hk h
  cases hk : c.peek.kind with
  | falseWord =>
    exact taken (by rw [hk]; nofun) fun c₁ short => .pure (a := Expr.literal (.bool false)) (Nat.le_of_lt short)
  | trueWord =>
    exact taken (by rw [hk]; nofun) fun c₁ short => .pure (a := Expr.literal (.bool true)) (Nat.le_of_lt short)
  | nilWord => exact taken (by rw [hk]; nofun) fun c₁ short => .pure (a := Expr.literal .nil) (Nat.le_of_lt short)
  | number | string =>
    refine taken (by rw [hk]; nofun) fun c₁ short => ?_
    cases c.peek.literal with
    | some value => exact .pure (a := Expr.literal value) (Nat.le_of_lt short)
    | none => exact .throw site
  | superWord =>
    refine taken (by rw [hk]; nofun) fun c₁ short => expect_extends fun _ c₂ _ short₂ => ?_
    refine expect_extends fun method c₃ _ short₃ => newUses_extends fun id c₄ short₄ => ?_
    exact .pure (a := Expr.super id c.peek method) (by omega)
  | thisWord =>
    refine taken (by rw [hk]; nofun) fun c₁ short => newUses_extends fun id c₂ short₂ => ?_
    exact .pure (a := Expr.self id c.peek) (by omega)
  | identifier =>
    refine taken (by rw [hk]; nofun) fun c₁ short => newUses_extends fun id c₂ short₂ => ?_
    exact .pure (a := Expr.ref id c.peek) (by omega)
  | leftParen =>
    refine taken (by rw [hk]; nofun) fun c₁ short => .bind (hi c₁ (by omega)) fun e c₂ short₂ => ?_
    exact expect_extends fun _ c₃ _ short₃ => .pure (a := Expr.group e) (by omega)
  | _ => exact stop_extends .missingExpression

theorem arguments_extends (hi : ExprExtends x n inner inner') {c : Cursor} (hn : c.rest.length < n)
    (enough : c.rest.length < fuel) (enough' : c.rest.length + x.more.length < fuel') :
    Extends x true c.rest.length (List.map (Expr.raise x.moved)) (arguments fuel inner) (arguments fuel' inner') c := by
  refine check_extends ?_
  split
  · exact .pure (Nat.le_refl _)
  · exact entries_extends .tooManyArguments hi fuel fuel' [] c hn enough enough' (Nat.le_refl _)

theorem suffixes_extends (hi : ExprExtends x n inner inner') :
    ∀ (fuel fuel' : Nat) (e : Expr) {left : Nat} (c : Cursor), c.rest.length < n + 1 → c.rest.length ≤ fuel →
      c.rest.length + x.more.length ≤ fuel' → c.rest.length ≤ left →
      Extends x true left (Expr.raise x.moved) (suffixes inner fuel e) (suffixes inner' fuel' (e.raise x.moved)) c := by
  intro fuel
  induction fuel with
  | zero =>
    intro fuel' e left c _ enough _ _
    exact .ofGivesAtEnd (suffixes_atEnd _ _ _) (suffixes_atEnd _ _ _) (List.eq_nil_of_length_eq_zero (by omega))
  | succ fuel ih =>
    intro fuel' e left c hn enough enough' le
    cases fuel' with
    | zero => exact .ofGivesAtEnd (suffixes_atEnd _ _ _) (suffixes_atEnd _ _ _) (List.eq_nil_of_length_eq_zero (by omega))
    | succ fuel' =>
      refine accept_extends (.inl rfl) (fun c₁ short₁ => ?_) (accept_extends (.inl rfl) (fun c₁ short₁ => ?_) (.pure le))
      · refine .bind (arguments_extends hi (by omega) (by omega) (by omega)) fun values c₂ short₂ => ?_
        refine expect_extends fun paren c₃ _ short₃ => ?_
        rw [← Expr.raiseAll_eq]
        exact ih fuel' (.call e paren values) c₃ (by omega) (by omega) (by omega) (by omega)
      · refine expect_extends fun name c₂ _ short₂ => ?_
        exact ih fuel' (.get e name) c₂ (by omega) (by omega) (by omega) (by omega)

theorem call_extends (hi : ExprExtends x n inner inner') (enough : n ≤ fuel) (enough' : n + x.more.length ≤ fuel') :
    ExprExtends x (n + 1) (call fuel inner) (call fuel' inner') := by
  intro c hn
  refine .bind (primary_extends hi c hn) fun e c₁ short => ?_
  exact suffixes_extends hi fuel fuel' e c₁ (by omega) (by omega) (by omega) short

/-! ## Operators -/

theorem leadingSigns_extends : ∀ (fuel fuel' : Nat) (found : List Token) {left : Nat} (c : Cursor),
    c.rest.length ≤ fuel → c.rest.length + x.more.length ≤ fuel' → c.rest.length ≤ left →
    Extends x true left id (leadingSigns fuel found) (leadingSigns fuel' found) c := by
  intro fuel
  induction fuel with
  | zero =>
    intro fuel' found left c enough _ _
    exact .ofGivesAtEnd (leadingSigns_atEnd _ _) (leadingSigns_atEnd _ _) (List.eq_nil_of_length_eq_zero (by omega))
  | succ fuel ih =>
    intro fuel' found left c enough enough' le
    cases fuel' with
    | zero =>
      exact .ofGivesAtEnd (leadingSigns_atEnd _ _) (leadingSigns_atEnd _ _) (List.eq_nil_of_length_eq_zero (by omega))
    | succ fuel' =>
      refine acceptAny?_extends (fun sign c₁ _ short => ?_) (.pure le)
      exact ih fuel' (sign :: found) c₁ (by omega) (by omega) (by omega)

theorem foldl_unary_raise (k : UseId) (found : List Token) (e : Expr) :
    found.foldl (fun e sign => .unary sign e) (e.raise k) = (found.foldl (fun e sign => .unary sign e) e).raise k := by
  induction found generalizing e with
  | nil => rfl
  | cons sign found ih => exact ih (.unary sign e)

theorem signed_extends (hi : ExprExtends x n inner inner') (enough : n ≤ fuel) (enough' : n + x.more.length ≤ fuel') :
    ExprExtends x (n + 1) (signed fuel inner) (signed fuel' inner') := by
  intro c hn
  refine .bind (leadingSigns_extends fuel fuel' [] c (by omega) (by omega) (Nat.le_refl _)) fun found c₁ short₁ => ?_
  refine .bind (call_extends hi enough enough' c₁ (by omega)) fun e c₂ short₂ => ?_
  rw [foldl_unary_raise]
  exact .pure (by omega)

theorem chain_extends {level : Level} (hl : level.Raises) {operand operand' : Rule Expr}
    (ho : ExprExtends x n operand operand') :
    ∀ (fuel fuel' : Nat) (e : Expr) {left : Nat} (c : Cursor), c.rest.length < n → c.rest.length ≤ fuel →
      c.rest.length + x.more.length ≤ fuel' → c.rest.length ≤ left →
      Extends x true left (Expr.raise x.moved) (chain level operand fuel e)
        (chain level operand' fuel' (e.raise x.moved)) c := by
  intro fuel
  induction fuel with
  | zero =>
    intro fuel' e left c _ enough _ _
    exact .ofGivesAtEnd (chain_atEnd _ _ _ _) (chain_atEnd _ _ _ _) (List.eq_nil_of_length_eq_zero (by omega))
  | succ fuel ih =>
    intro fuel' e left c hn enough enough' le
    cases fuel' with
    | zero =>
      exact .ofGivesAtEnd (chain_atEnd _ _ _ _) (chain_atEnd _ _ _ _) (List.eq_nil_of_length_eq_zero (by omega))
    | succ fuel' =>
      refine acceptAny?_extends (fun operator c₁ _ short₁ => ?_) (.pure le)
      refine .bind (ho c₁ (by omega)) fun right c₂ short₂ => ?_
      rw [← hl]
      exact ih fuel' (level.build operator e right) c₂ (by omega) (by omega) (by omega) (by omega)

theorem operation_extends (hi : ExprExtends x n inner inner') (enough : n ≤ fuel) (enough' : n + x.more.length ≤ fuel') :
    ExprExtends x (n + 1) (operation fuel inner) (operation fuel' inner') := by
  have levelled : ∀ ls : List Level, (∀ l ∈ ls, l.Raises) → ExprExtends x (n + 1)
      (ls.foldr (leftAssociative fuel) (signed fuel inner)) (ls.foldr (leftAssociative fuel') (signed fuel' inner')) := by
    intro ls hls
    induction ls with
    | nil => exact signed_extends hi enough enough'
    | cons l ls ih =>
      obtain ⟨first, rest⟩ := List.forall_mem_cons.1 hls
      intro c hn
      refine .bind (ih rest c hn) fun e c₁ short => ?_
      exact chain_extends first (ih rest) fuel fuel' e c₁ (by omega) (by omega) (by omega) short
  exact levelled levels raises_levels

theorem assignment_extends (hi : ExprExtends x n inner inner') (enough : n ≤ fuel) (enough' : n + x.more.length ≤ fuel') :
    ExprExtends x (n + 1) (assignment fuel inner) (assignment fuel' inner') := by
  intro c hn
  refine .bind (operation_extends hi enough enough' c hn) fun target c₁ short₁ => ?_
  refine acceptAny?_extends (fun equals c₂ site short₂ => ?_) (.pure short₁)
  refine .bind (hi c₂ (by omega)) fun value c₃ short₃ => ?_
  cases target with
  | ref _ name => exact newUses_extends fun id c₄ short₄ => .pure (a := Expr.assign id name value) (by omega)
  | get object name => exact .pure (a := Expr.set object name value) (by omega)
  | _ => exact record_extends site fun c₄ short₄ => .pure (by omega)

theorem expression_extends : ∀ (n : Nat) {fuel fuel' : Nat}, n ≤ fuel → n + x.more.length ≤ fuel' →
    ExprExtends x (n + 1) (expression fuel) (expression fuel') := by
  intro n
  induction n with
  | zero =>
    intro fuel fuel' _ _ c hn
    exact .ofStopsAtEnd (expression_atEnd _) (expression_atEnd _) (List.eq_nil_of_length_eq_zero (by omega))
  | succ n ih =>
    intro fuel fuel' enough enough'
    obtain ⟨fuel, rfl⟩ : ∃ k, fuel = k + 1 := ⟨fuel - 1, by omega⟩
    obtain ⟨fuel', rfl⟩ : ∃ k, fuel' = k + 1 := ⟨fuel' - 1, by omega⟩
    exact assignment_extends (ih (by omega) (by omega)) enough enough'

end Rule

end Lox
