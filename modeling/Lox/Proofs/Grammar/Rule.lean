/-
What a rule of the grammar gives. `Gives tidy r c post` says of a rule at a cursor that uses were only numbered
upwards, and that what it gives, if it gives anything, is as `post` says, which is told the number of the next use.
If the tokens are `tidy`, that is, spelled as they should be, then so are those that are left. There is one lemma for
each way to put rules together, and one for each rule that reads a token.
-/
import Lox.Grammar.Program
import Lox.Proofs.Token.Spelling

namespace Lox

/-- Whether the tokens that are left are spelled as they should be. -/
def Cursor.Spelled (c : Cursor) : Prop := ∀ t ∈ c.rest, t.Spelled

theorem Cursor.Spelled.peek {c : Cursor} (h : c.Spelled) : c.peek.Spelled := by
  unfold Cursor.peek
  cases hr : c.rest with
  | nil => exact Token.spelled_missing
  | cons t rest => exact h t (by rw [hr]; exact List.mem_cons_self)

/-- From one cursor to another: tokens are only taken, and uses numbered upwards. -/
structure Cursor.Leads (c c' : Cursor) : Prop where
  spelled : c.Spelled → c'.Spelled
  uses : c.nextUse ≤ c'.nextUse

namespace Cursor.Leads

theorem refl (c : Cursor) : Leads c c := ⟨id, Nat.le_refl _⟩

theorem trans {c c' c'' : Cursor} (h : Leads c c') (h' : Leads c' c'') : Leads c c'' :=
  ⟨h'.spelled ∘ h.spelled, Nat.le_trans h.uses h'.uses⟩

theorem advance (c : Cursor) : Leads c c.advance := by
  unfold Cursor.advance
  split
  · exact refl c
  · exact ⟨fun h t ht => h t (List.mem_of_mem_tail ht), Nat.le_refl _⟩

theorem skipToBoundary : ∀ (fuel : Nat) (c : Cursor), Leads c (c.skipToBoundary fuel)
  | 0, c => refl c
  | fuel + 1, c => by
    unfold Cursor.skipToBoundary
    split
    · exact refl c
    · exact (advance c).trans (skipToBoundary fuel _)

theorem record (c : Cursor) (e : SyntaxError) : Leads c (c.record e) := ⟨id, Nat.le_refl _⟩

theorem recover (c : Cursor) : Leads c c.recover := (advance c).trans (skipToBoundary _ _)

end Cursor.Leads

/-! ## Rules that never stop -/

/-- What a rule that never stops gives, and where it leaves the cursor. -/
def SureRule.outcome {α : Type} (r : SureRule α) (c : Cursor) : α × Cursor := (r.run c).run

/-- Whether a rule that never stops gives what it should at a cursor. -/
def SureRule.Gives {α : Type} (tidy : Prop) (r : SureRule α) (c : Cursor) (post : UseId → α → Prop) : Prop :=
  (tidy → c.Spelled) → c.Leads (outcome r c).2 ∧ post (outcome r c).2.nextUse (outcome r c).1

namespace SureRule.Gives

variable {α β : Type} {tidy : Prop} {c : Cursor}

theorem pure {post : UseId → α → Prop} {a : α} (h : post c.nextUse a) : Gives tidy (Pure.pure a) c post :=
  fun _ => ⟨.refl c, h⟩

theorem bind {r : SureRule α} {f : α → SureRule β} {mid : UseId → α → Prop} {post : UseId → β → Prop}
    (h : Gives tidy r c mid)
    (h' : ∀ (c' : Cursor) a, c.nextUse ≤ c'.nextUse → mid c'.nextUse a → Gives tidy (f a) c' post) :
    Gives tidy (r >>= f) c post := by
  intro hc
  obtain ⟨leads, given⟩ := h hc
  obtain ⟨leads', given'⟩ := h' _ _ leads.uses given fun tidy => leads.spelled (hc tidy)
  exact ⟨leads.trans leads', given'⟩

theorem mono {r : SureRule α} {post post' : UseId → α → Prop} (h : Gives tidy r c post)
    (hp : ∀ next a, c.nextUse ≤ next → post next a → post' next a) : Gives tidy r c post' := fun hc =>
  have := h hc
  ⟨this.1, hp _ _ this.1.uses this.2⟩

theorem get : Gives tidy (MonadState.get : SureRule Cursor) c fun next c' => next = c.nextUse ∧ c' = c :=
  fun _ => ⟨.refl c, rfl, rfl⟩

theorem move {f : Cursor → Cursor} (h : c.Leads (f c)) : Gives tidy (modify f : SureRule PUnit) c fun _ _ => True :=
  fun _ => ⟨h, trivial⟩

end SureRule.Gives

/-! ## Rules that can stop -/

/-- Whether a rule gives what it should at a cursor, if it does not stop. -/
def Rule.Gives {α : Type} (tidy : Prop) (r : Rule α) (c : Cursor) (post : UseId → α → Prop) : Prop :=
  SureRule.Gives tidy r.run c fun next result => ∀ a, result = .ok a → post next a

namespace Rule.Gives

variable {α β : Type} {tidy : Prop} {c : Cursor}

theorem pure {post : UseId → α → Prop} {a : α} (h : post c.nextUse a) : Gives tidy (Pure.pure a) c post :=
  fun _ => ⟨.refl c, fun _ e => by cases e; exact h⟩

theorem throw {post : UseId → α → Prop} (e : SyntaxError) : Gives tidy (MonadExcept.throw e) c post :=
  fun _ => ⟨.refl c, nofun⟩

theorem bind {r : Rule α} {f : α → Rule β} {mid : UseId → α → Prop} {post : UseId → β → Prop}
    (h : Gives tidy r c mid)
    (h' : ∀ (c' : Cursor) a, c.nextUse ≤ c'.nextUse → mid c'.nextUse a → Gives tidy (f a) c' post) :
    Gives tidy (r >>= f) c post := by
  show SureRule.Gives tidy (r.run >>= ExceptT.bindCont f) c _
  refine SureRule.Gives.bind h fun c' result le given => ?_
  cases result with
  | ok a => exact h' c' a le (given a rfl)
  | error e => exact fun _ => ⟨.refl c', nofun⟩

theorem mono {r : Rule α} {post post' : UseId → α → Prop} (h : Gives tidy r c post)
    (hp : ∀ next a, c.nextUse ≤ next → post next a → post' next a) : Gives tidy r c post' :=
  SureRule.Gives.mono h fun next _ le given a e => hp next a le (given a e)

/-- A rule that never stops, as one that could. -/
theorem lift {r : SureRule α} {post : UseId → α → Prop} (h : SureRule.Gives tidy r c post) :
    Gives tidy (liftM r : Rule α) c post :=
  fun hc => ⟨(h hc).1, fun _ e => by cases e; exact (h hc).2⟩

end Rule.Gives

/-! ## Tokens -/

namespace Rule

variable {α : Type} {tidy : Prop} {c : Cursor}

theorem get_gives : Gives tidy (get : Rule Cursor) c fun _ c' => c' = c ∧ (tidy → c.Spelled) :=
  fun hc => ⟨.refl c, fun _ e => by cases e; exact ⟨rfl, hc⟩⟩

theorem peek_gives : Gives tidy peek c fun _ t => tidy → t.Spelled :=
  fun hc => ⟨.refl c, fun _ e => by cases e; exact fun tidy => (hc tidy).peek⟩

theorem check_gives (kind : Kind) : Gives tidy (check kind) c fun _ _ => True := fun _ => ⟨.refl c, fun _ _ => trivial⟩

theorem advance_gives : Gives tidy advance c fun _ _ => True := fun _ => ⟨.advance c, fun _ _ => trivial⟩

theorem stop_gives (fault : SyntaxFault) (post : UseId → α → Prop) : Gives tidy (stop fault) c post :=
  .bind peek_gives fun _ _ _ _ => .throw _

theorem record_gives (fault : SyntaxFault) (site : Token) : Gives tidy (record fault site) c fun _ _ => True :=
  fun _ => ⟨.record c _, fun _ _ => trivial⟩

theorem kind_of_check {kind : Kind} (h : c.check kind = true) : c.peek.kind = kind := by
  unfold Cursor.check at h
  rw [Bool.and_eq_true, beq_iff_eq] at h
  exact h.2

/-- The token that is taken is of one of the kinds. -/
theorem acceptAny?_gives (kinds : List Kind) :
    Gives tidy (acceptAny? kinds) c fun _ t => ∀ t' ∈ t, t'.kind ∈ kinds ∧ (tidy → t'.Spelled) := by
  refine .bind get_gives ?_
  rintro _ _ _ ⟨rfl, hc⟩
  split
  · next h =>
    obtain ⟨kind, mem, hk⟩ := List.any_eq_true.1 h
    refine .bind advance_gives fun _ _ _ _ => .pure fun t ht => ?_
    cases ht
    exact ⟨kind_of_check hk ▸ mem, fun tidy => (hc tidy).peek⟩
  · exact .pure fun t ht => absurd ht (Option.not_mem_none t)

theorem accept_gives (kind : Kind) : Gives tidy (accept kind) c fun _ _ => True := by
  refine .bind (check_gives kind) fun _ _ _ _ => ?_
  split
  · exact .bind advance_gives fun _ _ _ _ => .pure trivial
  · exact .pure trivial

/-- The token that is taken is of the kind that is expected. -/
theorem expect_gives (expected : Expectation) :
    Gives tidy (expect expected) c fun _ t => t.kind = expected.kind ∧ (tidy → t.Spelled) := by
  refine .bind get_gives ?_
  rintro _ _ _ ⟨rfl, hc⟩
  split
  · next h => exact .bind advance_gives fun _ _ _ _ => .pure ⟨kind_of_check h, fun tidy => (hc tidy).peek⟩
  · exact stop_gives _ _

/-! ## Choices -/

/-- One way after the next token, if it is of a kind, and another if it is not. -/
theorem outcome_accept (kind : Kind) (yes no : Rule α) (c : Cursor) :
    SureRule.outcome (accept kind >>= fun b => if b = true then yes else no).run c =
      if c.check kind = true then SureRule.outcome yes.run c.advance else SureRule.outcome no.run c := by
  have look (f : Bool → Rule α) : SureRule.outcome (check kind >>= f).run c = SureRule.outcome (f (c.check kind)).run c :=
    rfl
  rw [accept, bind_assoc, look]
  cases c.check kind <;> rfl

/-- One way after the next token, if it is of one of the kinds, and another if it is not. -/
theorem outcome_acceptAny? (kinds : List Kind) (f : Option Token → Rule α) (c : Cursor) :
    SureRule.outcome (acceptAny? kinds >>= f).run c =
      if kinds.any c.check = true then SureRule.outcome (f (some c.peek)).run c.advance
      else SureRule.outcome (f none).run c := by
  have look (f : Cursor → Rule α) : SureRule.outcome (get >>= f).run c = SureRule.outcome (f c).run c := rfl
  rw [acceptAny?, bind_assoc, look]
  cases kinds.any c.check <;> rfl

/-- The way after the next token, if it is the expected one, and a stop if it is not. -/
theorem outcome_expect (expected : Expectation) (f : Token → Rule α) (c : Cursor) :
    SureRule.outcome (expect expected >>= f).run c =
      if c.check expected.kind = true then SureRule.outcome (f c.peek).run c.advance
      else (.error ⟨.missing expected, c.peek⟩, c) := by
  have look (f : Cursor → Rule α) : SureRule.outcome (get >>= f).run c = SureRule.outcome (f c).run c := rfl
  rw [expect, bind_assoc, look]
  cases c.check expected.kind <;> rfl

/-! ## Uses -/

theorem newUses_gives (count : Nat) :
    Gives tidy (newUses count) c fun next id => id = c.nextUse ∧ next = c.nextUse + count :=
  fun _ => ⟨⟨id, Nat.le_add_right _ _⟩, fun _ e => by cases e; exact ⟨rfl, rfl⟩⟩

end Rule

end Lox
