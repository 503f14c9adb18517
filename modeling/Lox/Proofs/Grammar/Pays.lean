/-
What errors cost. The errors found and the tokens that are left make up a budget (`Cursor.budget`): taking a token lowers
it, and recording an error raises it. `Pays r c b` says of a rule at a cursor that it takes no end token, whatever comes of
it, and that the budget is `b` at most afterwards. A rule is thrifty if it never raises the budget. The rule for an
expression even lowers it, unless the first token it sees is an error: then it leaves everything as it is (`Begins`). There
is one lemma for each way to put rules together, and one for each rule that reads a token.
-/
import Lox.Proofs.Grammar.Extends

namespace Lox

/-! ## Cursors -/

namespace Cursor

variable {c c' c'' : Cursor} {b b' : Nat}

/-- The tokens that are left and the errors found. -/
def budget (c : Cursor) : Nat := c.rest.length + c.errors.size

/-- From one cursor to another: tokens are only taken, and none of them is an end token. -/
def Onward (c c' : Cursor) : Prop :=
  ∃ taken, c.rest = taken ++ c'.rest ∧ ∀ t ∈ taken, t.kind ≠ .endOfInput

namespace Onward

theorem refl (c : Cursor) : Onward c c := ⟨[], rfl, List.forall_mem_nil _⟩

theorem trans (h : Onward c c') (h' : Onward c' c'') : Onward c c'' := by
  obtain ⟨taken, hr, endless⟩ := h
  obtain ⟨taken', hr', endless'⟩ := h'
  refine ⟨taken ++ taken', by rw [hr, hr', List.append_assoc], fun t ht => ?_⟩
  exact (List.mem_append.1 ht).elim (endless t) (endless' t)

theorem advance (c : Cursor) : Onward c c.advance := by
  by_cases h : c.peek.kind = .endOfInput
  · rw [advance_of_atEnd (by rw [atEnd, h]; rfl)]
    exact refl c
  · exact ⟨[c.peek], Rule.rest_eq_of_peek h, fun t ht => List.mem_singleton.1 ht ▸ h⟩

theorem record (c : Cursor) (e : SyntaxError) : Onward c (c.record e) := refl c

theorem skipToBoundary : ∀ (fuel : Nat) (c : Cursor), Onward c (c.skipToBoundary fuel)
  | 0, c => refl c
  | fuel + 1, c => by
    unfold Cursor.skipToBoundary
    split
    · exact refl c
    · exact (advance c).trans (skipToBoundary fuel _)

theorem recover (c : Cursor) : Onward c c.recover := (advance c).trans (skipToBoundary _ _)

theorem length_le (h : Onward c c') : c'.rest.length ≤ c.rest.length := by
  obtain ⟨taken, hr, -⟩ := h
  rw [hr, List.length_append]
  exact Nat.le_add_left _ _

end Onward

theorem budget_advance (h : c.peek.kind ≠ .endOfInput) : c.advance.budget + 1 = c.budget := by
  have rest := congrArg List.length (Rule.rest_eq_of_peek h)
  rw [budget, budget, Rule.errors_advance, rest, List.length_cons]
  omega

theorem budget_advance_le (c : Cursor) : c.advance.budget ≤ c.budget := by
  rw [budget, budget, Rule.errors_advance]
  exact Nat.add_le_add_right (Onward.advance c).length_le _

theorem budget_record (c : Cursor) (e : SyntaxError) : (c.record e).budget = c.budget + 1 := by
  show c.rest.length + (c.errors.push e).size = _
  rw [Array.size_push]
  rfl

theorem budget_skipToBoundary : ∀ (fuel : Nat) (c : Cursor), (c.skipToBoundary fuel).budget ≤ c.budget
  | 0, _ => Nat.le_refl _
  | fuel + 1, c => by
    unfold skipToBoundary
    split
    · exact Nat.le_refl _
    · exact Nat.le_trans (budget_skipToBoundary fuel _) (budget_advance_le c)

theorem budget_recover (c : Cursor) : c.recover.budget ≤ c.advance.budget := budget_skipToBoundary _ _

/-- From one cursor to another with a budget of `b` at most. -/
structure Pays (c : Cursor) (b : Nat) (c' : Cursor) : Prop where
  onward : c.Onward c'
  within : c'.budget ≤ b

namespace Pays

theorem refl (h : c.budget ≤ b) : Pays c b c := ⟨.refl c, h⟩

theorem trans (h : Pays c b c') (h' : Pays c' b' c'') : Pays c b' c'' := ⟨h.onward.trans h'.onward, h'.within⟩

theorem mono (h : Pays c b c') (le : b ≤ b') : Pays c b' c' := ⟨h.onward, Nat.le_trans h.within le⟩

end Pays

end Cursor

/-! ## Rules that never stop -/

/-- Whether a rule that never stops takes no end token and leaves a budget of `b` at most. -/
def SureRule.Pays {α : Type} (r : SureRule α) (c : Cursor) (b : Nat) : Prop := c.Pays b (outcome r c).2

namespace SureRule.Pays

variable {α β : Type} {c : Cursor} {b b' : Nat}

theorem pure {a : α} (h : c.budget ≤ b) : Pays (Pure.pure a) c b := .refl h

theorem bind {r : SureRule α} {f : α → SureRule β} (h : Pays r c b') (h' : ∀ a c', c'.budget ≤ b' → Pays (f a) c' b) :
    Pays (r >>= f) c b :=
  Cursor.Pays.trans h (h' _ _ h.within)

end SureRule.Pays

/-! ## Rules that can stop -/

/-- Whether a rule takes no end token and leaves a budget of `b` at most, even if it stops. -/
def Rule.Pays {α : Type} (r : Rule α) (c : Cursor) (b : Nat) : Prop := SureRule.Pays r.run c b

/-- Whether a rule never raises the budget. -/
def Rule.Thrifty {α : Type} (r : Rule α) : Prop := ∀ c, Pays r c c.budget

/-- Whether a rule either stops where it is, or takes the next token and never raises the budget after that. -/
def Rule.Begins {α : Type} (r : Rule α) (c : Cursor) : Prop :=
  (∃ e, SureRule.outcome r.run c = (.error e, c)) ∨
    c.peek.kind ≠ .endOfInput ∧ c.advance.Pays c.advance.budget (SureRule.outcome r.run c).2

namespace Rule

variable {α β : Type} {r : Rule α} {f : α → Rule β} {c : Cursor} {b b' : Nat}

namespace Pays

theorem pure {a : α} (h : c.budget ≤ b) : Pays (Pure.pure a) c b := .refl h

theorem bind (h : Pays r c b') (le : b' ≤ b) (h' : ∀ a c', c'.budget ≤ b' → Pays (f a) c' b) : Pays (r >>= f) c b := by
  show SureRule.Pays (r.run >>= ExceptT.bindCont f) c b
  refine SureRule.Pays.bind h fun result c' within => ?_
  cases result with
  | ok a => exact h' a c' within
  | error e => exact .refl (Nat.le_trans within le)

/-- A rule that never stops, as one that could. -/
theorem lift {r : SureRule α} (h : SureRule.Pays r c b) : Pays (liftM r : Rule α) c b := h

/-- The cursor itself can be looked at. -/
theorem get {f : Cursor → Rule α} (h : Pays (f c) c b) : Pays (MonadState.get >>= f) c b := h

theorem peek {f : Token → Rule α} (h : Pays (f c.peek) c b) : Pays (Rule.peek >>= f) c b := h

end Pays

namespace Thrifty

theorem pure (a : α) : Thrifty (Pure.pure a) := fun c => .refl (Nat.le_refl c.budget)

theorem throw (e : SyntaxError) : Thrifty (MonadExcept.throw e : Rule α) := fun c => .refl (Nat.le_refl c.budget)

theorem bind (h : Thrifty r) (h' : ∀ a, Thrifty (f a)) : Thrifty (r >>= f) := fun c =>
  .bind (h c) (Nat.le_refl _) fun a c' le => (h' a c').mono le

/-- A thrifty rule may come after other tokens. -/
theorem within (h : Thrifty r) (le : c.budget ≤ b) : Pays r c b := (h c).mono le

end Thrifty

namespace Begins

theorem bind (h : Begins r c) (h' : ∀ a, Thrifty (f a)) : Begins (r >>= f) c := by
  rcases h with ⟨e, he⟩ | ⟨some, pays⟩
  · exact .inl ⟨e, outcome_error he⟩
  refine .inr ⟨some, ?_⟩
  show c.advance.Pays _ (SureRule.outcome (r.run >>= ExceptT.bindCont f) c).2
  rw [SureRule.outcome_bind]
  cases hout : SureRule.outcome r.run c with | mk result c'
  rw [hout] at pays
  cases result with
  | ok a => exact pays.trans ((h' a c').mono pays.within)
  | error e => exact pays

/-- The next token is looked at. -/
theorem peek {f : Token → Rule α} (h : Begins (f c.peek) c) : Begins (Rule.peek >>= f) c := h

/-- The next token is taken. -/
theorem advance {f : Unit → Rule α} (some : c.peek.kind ≠ .endOfInput) (h : Thrifty (f ())) :
    Begins (Rule.advance >>= f) c :=
  .inr ⟨some, h c.advance⟩

theorem stop (fault : SyntaxFault) : Begins (Rule.stop fault : Rule α) c := .inl ⟨_, rfl⟩

theorem pays (h : Begins r c) : Pays r c c.budget := by
  rcases h with ⟨e, he⟩ | ⟨-, pays⟩
  · show c.Pays _ (SureRule.outcome r.run c).2
    rw [he]
    exact .refl (Nat.le_refl _)
  · exact ⟨(Cursor.Onward.advance c).trans pays.onward, Nat.le_trans pays.within (Cursor.budget_advance_le c)⟩

end Begins

/-! ## Tokens -/

theorem stop_pays (fault : SyntaxFault) : Thrifty (stop fault : Rule α) := fun c => .refl (Nat.le_refl c.budget)

theorem check_pays (kind : Kind) : Thrifty (check kind) := fun c => .refl (Nat.le_refl c.budget)

theorem newUses_pays (count : Nat) : Thrifty (newUses count) := fun c => ⟨.refl c, Nat.le_refl c.budget⟩

/-- One way with the next token, which lowers the budget, and another without it. -/
theorem accept_pays {kind : Kind} {yes no : Rule α} (hy : ∀ c', c'.budget + 1 = c.budget → Pays yes c' b)
    (hn : Pays no c b) : Pays (accept kind >>= fun t => if t = true then yes else no) c b := by
  unfold Pays SureRule.Pays
  rw [outcome_accept]
  split
  · next h =>
    have pays := hy c.advance (Cursor.budget_advance (peek_ne_of_check h))
    exact ⟨(Cursor.Onward.advance c).trans pays.onward, pays.within⟩
  · exact hn

theorem accept_thrifty {kind : Kind} {yes no : Rule α} (hy : Thrifty yes) (hn : Thrifty no) :
    Thrifty (accept kind >>= fun t => if t = true then yes else no) := fun c =>
  accept_pays (fun _ less => hy.within (by omega)) (hn c)

theorem acceptAny?_pays {kinds : List Kind} {f : Option Token → Rule α}
    (hs : ∀ (t : Token) c', c'.budget + 1 = c.budget → Pays (f (some t)) c' b) (hn : Pays (f none) c b) :
    Pays (acceptAny? kinds >>= f) c b := by
  unfold Pays SureRule.Pays
  rw [outcome_acceptAny?]
  split
  · next h =>
    obtain ⟨kind, -, hk⟩ := List.any_eq_true.1 h
    have pays := hs c.peek c.advance (Cursor.budget_advance (peek_ne_of_check hk))
    exact ⟨(Cursor.Onward.advance c).trans pays.onward, pays.within⟩
  · exact hn

theorem acceptAny?_thrifty {kinds : List Kind} {f : Option Token → Rule α} (hs : ∀ t, Thrifty (f (some t)))
    (hn : Thrifty (f none)) : Thrifty (acceptAny? kinds >>= f) := fun c =>
  acceptAny?_pays (fun t _ less => (hs t).within (by omega)) (hn c)

theorem acceptAny?_begins {kinds : List Kind} {f : Option Token → Rule α} (hs : ∀ t, Thrifty (f (some t)))
    (hn : Begins (f none) c) : Begins (acceptAny? kinds >>= f) c := by
  unfold acceptAny?
  rw [bind_assoc]
  show Begins ((if kinds.any c.check = true then _ else _) >>= f) c
  split
  · next h =>
    obtain ⟨kind, -, hk⟩ := List.any_eq_true.1 h
    rw [bind_assoc]
    exact .advance (peek_ne_of_check hk) (by rw [pure_bind]; exact hs _)
  · rw [pure_bind]
    exact hn

theorem expect_pays (expected : Expectation) : Thrifty (expect expected) := by
  intro c
  refine .get ?_
  split
  · exact ⟨.advance c, Cursor.budget_advance_le c⟩
  · exact stop_pays _ c

/-- A fault is recorded where there is a token to pay for it. -/
theorem record_pays {f : Unit → Rule α} (fault : SyntaxFault) (site : Token)
    (h : ∀ c', c'.budget = c.budget + 1 → Pays (f ()) c' b) : Pays (record fault site >>= f) c b :=
  have pays := h (c.record ⟨fault, site⟩) (Cursor.budget_record _ _)
  ⟨pays.onward, pays.within⟩

/-- The fault of there being too many entries is paid for by the comma before the entry. -/
theorem entries_pays (tooMany : SyntaxFault) {entry : Rule α} (he : Thrifty entry) :
    ∀ (fuel : Nat) (found : List α) (c : Cursor),
      Pays (entries tooMany entry fuel found) c (c.budget + if arityLimit ≤ found.length then 1 else 0)
  | 0, _, _ => .refl (Nat.le_add_right _ _)
  | fuel + 1, found, c => by
    have rest : ∀ {b : Nat} {c' : Cursor}, c'.budget ≤ b → Pays (do
        let found := (← entry) :: found
        if ← accept .comma then entries tooMany entry fuel found else return found.reverse) c' b := by
      intro b c' le
      refine .bind (he.within le) (Nat.le_refl _) fun a c₁ le₁ => accept_pays (fun c₂ less => ?_) (.pure le₁)
      refine (entries_pays tooMany he fuel (a :: found) c₂).mono ?_
      split
      · omega
      · omega
    unfold entries
    split
    · exact .peek (record_pays _ _ fun c' more => rest (Nat.le_of_eq more))
    · exact rest (Nat.le_refl _)

theorem entries_thrifty (tooMany : SyntaxFault) {entry : Rule α} (he : Thrifty entry) (fuel : Nat) :
    Thrifty (entries tooMany entry fuel []) := fun c => entries_pays tooMany he fuel [] c

end Rule

end Lox
