/-
Rules that do not look at lines. `Lineless f r r'` says that `r'` does on tokens without lines what `r` does on the
tokens themselves, and gives the same up to lines, which `f` takes away from what is given. There is one lemma for each
way to put rules together, and one for each rule that reads a token.
-/
import Lox.Proofs.Grammar.Rule
import Lox.Proofs.Lines.Tree

namespace Lox

/-- An error without its line. -/
def SyntaxError.lineless (e : SyntaxError) : SyntaxError := { e with site := e.site.lineless }

/-! ## Cursors -/

namespace Cursor

/-- A cursor on tokens without lines. -/
def lineless (c : Cursor) : Cursor :=
  ⟨c.rest.map Token.lineless, c.previous.lineless, c.nextUse, c.errors.map SyntaxError.lineless⟩

variable (c : Cursor)

theorem peek_lineless : c.lineless.peek = c.peek.lineless := by
  unfold peek lineless
  cases c.rest <;> rfl

@[simp] theorem atEnd_lineless : c.lineless.atEnd = c.atEnd := by
  unfold atEnd
  rw [peek_lineless]
  rfl

@[simp] theorem check_lineless : c.lineless.check = c.check := by
  funext kind
  unfold check
  rw [atEnd_lineless, peek_lineless]
  rfl

theorem advance_lineless : c.lineless.advance = c.advance.lineless := by
  unfold advance
  rw [atEnd_lineless, peek_lineless]
  split
  · rfl
  · simp [lineless]

theorem record_lineless (e : SyntaxError) : c.lineless.record e.lineless = (c.record e).lineless := by
  simp [record, lineless]

theorem atBoundary_lineless : c.lineless.atBoundary = c.atBoundary := by
  unfold atBoundary
  rw [peek_lineless]
  rfl

theorem skipToBoundary_lineless (fuel : Nat) :
    c.lineless.skipToBoundary fuel = (c.skipToBoundary fuel).lineless := by
  induction fuel generalizing c with
  | zero => rfl
  | succ fuel ih =>
    unfold skipToBoundary
    rw [atEnd_lineless, atBoundary_lineless]
    split
    · rfl
    · rw [advance_lineless, ih]

/-- After an error the same tokens are skipped. -/
theorem recover_lineless : c.lineless.recover = c.recover.lineless := by
  unfold recover
  have length : c.advance.lineless.rest.length = c.advance.rest.length := List.length_map _
  simp only [advance_lineless, length, skipToBoundary_lineless]

end Cursor

/-! ## Rules that never stop -/

/-- Whether a rule that never stops gives without lines what another gives, without its lines. -/
def SureRule.Lineless {α : Type} (f : α → α) (r r' : SureRule α) : Prop :=
  ∀ c : Cursor, outcome r' c.lineless = (f (outcome r c).1, (outcome r c).2.lineless)

namespace SureRule.Lineless

variable {α β : Type} {f : α → α} {g : β → β}

theorem pure (a : α) : Lineless f (Pure.pure a) (Pure.pure (f a)) := fun _ => rfl

theorem bind {r r' : SureRule α} {k k' : α → SureRule β} (h : Lineless f r r')
    (h' : ∀ a, Lineless g (k a) (k' (f a))) : Lineless g (r >>= k) (r' >>= k') := by
  intro c
  show outcome (k' (outcome r' c.lineless).1) (outcome r' c.lineless).2 = _
  rw [h c]
  exact h' _ _

theorem get : Lineless Cursor.lineless MonadState.get MonadState.get := fun _ => rfl

theorem move {u u' : Cursor → Cursor} (h : ∀ c, u' c.lineless = (u c).lineless) :
    Lineless id (modify u : SureRule PUnit) (modify u') :=
  fun c => congrArg (Prod.mk PUnit.unit) (h c)

theorem ite {p p' : Prop} [Decidable p] [Decidable p'] {r r' s s' : SureRule α} (same : p' ↔ p)
    (h : Lineless f r r') (h' : Lineless f s s') : Lineless f (if p then r else s) (if p' then r' else s') := by
  by_cases hp : p
  · rwa [if_pos hp, if_pos (same.2 hp)]
  · rwa [if_neg hp, if_neg fun h => hp (same.1 h)]

end SureRule.Lineless

/-! ## Rules that can stop -/

/-- The result of a rule without lines. -/
def Rule.resultLineless {α : Type} (f : α → α) : Except SyntaxError α → Except SyntaxError α
  | .ok a => .ok (f a)
  | .error e => .error e.lineless

/-- Whether a rule gives without lines what another gives, without its lines, and stops where that one does. -/
def Rule.Lineless {α : Type} (f : α → α) (r r' : Rule α) : Prop :=
  SureRule.Lineless (resultLineless f) r.run r'.run

namespace Rule.Lineless

variable {α β : Type} {f : α → α} {g : β → β}

theorem pure (a : α) : Lineless f (Pure.pure a) (Pure.pure (f a)) := fun _ => rfl

theorem throw (e : SyntaxError) : Lineless f (MonadExcept.throw e) (MonadExcept.throw e.lineless) := fun _ => rfl

theorem bind {r r' : Rule α} {k k' : α → Rule β} (h : Lineless f r r') (h' : ∀ a, Lineless g (k a) (k' (f a))) :
    Lineless g (r >>= k) (r' >>= k') := by
  show SureRule.Lineless _ (r.run >>= ExceptT.bindCont k) (r'.run >>= ExceptT.bindCont k')
  refine SureRule.Lineless.bind h fun result => ?_
  cases result with
  | ok a => exact h' a
  | error e => exact fun _ => rfl

theorem get : Lineless Cursor.lineless (MonadState.get : Rule Cursor) MonadState.get := fun _ => rfl

/-- A rule that never stops, as one that could. -/
theorem lift {r r' : SureRule α} (h : SureRule.Lineless f r r') : Lineless f (liftM r : Rule α) (liftM r') :=
  fun c => congrArg (fun x : α × Cursor => ((.ok x.1 : Except SyntaxError α), x.2)) (h c)

theorem ite {p p' : Prop} [Decidable p] [Decidable p'] {r r' s s' : Rule α} (same : p' ↔ p)
    (h : Lineless f r r') (h' : Lineless f s s') : Lineless f (if p then r else s) (if p' then r' else s') := by
  by_cases hp : p
  · rwa [if_pos hp, if_pos (same.2 hp)]
  · rwa [if_neg hp, if_neg fun h => hp (same.1 h)]

end Rule.Lineless

/-! ## Tokens -/

namespace Rule

variable {α : Type} {f : α → α}

theorem peek_lineless : Lineless Token.lineless peek peek :=
  fun c => congrArg (fun t => (Except.ok t, c.lineless)) c.peek_lineless

theorem check_lineless (kind : Kind) : Lineless id (check kind) (check kind) :=
  .bind .get fun c => by
    rw [c.check_lineless]
    exact .pure _

theorem advance_lineless : Lineless id advance advance := .lift (.move Cursor.advance_lineless)

theorem stop_lineless (fault : SyntaxFault) : Lineless f (stop fault) (stop fault) :=
  .bind peek_lineless fun t => .throw ⟨fault, t⟩

theorem record_lineless (fault : SyntaxFault) (site : Token) :
    Lineless id (record fault site) (record fault site.lineless) :=
  .lift (.move fun c => c.record_lineless ⟨fault, site⟩)

theorem acceptAny?_lineless (kinds : List Kind) :
    Lineless (Option.map Token.lineless) (acceptAny? kinds) (acceptAny? kinds) := by
  refine .bind .get fun c => ?_
  rw [c.check_lineless, c.peek_lineless]
  exact .ite Iff.rfl (.bind advance_lineless fun _ => .pure (some c.peek)) (.pure none)

theorem accept_lineless (kind : Kind) : Lineless id (accept kind) (accept kind) :=
  .bind (check_lineless kind) fun _ => .ite Iff.rfl (.bind advance_lineless fun _ => .pure true) (.pure false)

theorem expect_lineless (expected : Expectation) : Lineless Token.lineless (expect expected) (expect expected) := by
  refine .bind .get fun c => ?_
  rw [c.check_lineless, c.peek_lineless]
  exact .ite Iff.rfl (.bind advance_lineless fun _ => .pure c.peek) (stop_lineless _)

theorem newUses_lineless (count : Nat) : Lineless id (newUses count) (newUses count) := fun _ => rfl

theorem newUse_lineless : Lineless id newUse newUse := newUses_lineless 1

theorem entries_lineless (tooMany : SyntaxFault) {entry entry' : Rule α} (h : Lineless f entry entry') :
    ∀ (fuel : Nat) (found : List α),
      Lineless (List.map f) (entries tooMany entry fuel found) (entries tooMany entry' fuel (found.map f))
  | 0, found => by
    unfold entries
    rw [← List.map_reverse]
    exact .pure _
  | fuel + 1, found => by
    -- one entry too many is reported, and read all the same
    have rest : Lineless (List.map f)
        (do
          let found := (← entry) :: found
          if ← accept .comma then entries tooMany entry fuel found else return found.reverse)
        (do
          let found := (← entry') :: found.map f
          if ← accept .comma then entries tooMany entry' fuel found else return found.reverse) := by
      refine .bind h fun a => .bind (accept_lineless .comma) fun more => ?_
      refine .ite Iff.rfl (entries_lineless tooMany h fuel (a :: found)) ?_
      rw [← List.map_cons, ← List.map_reverse]
      exact .pure _
    unfold entries
    refine .ite (by rw [List.length_map]) ?_ rest
    exact .bind peek_lineless fun t => .bind (record_lineless _ t) fun _ => rest

end Rule

end Lox
