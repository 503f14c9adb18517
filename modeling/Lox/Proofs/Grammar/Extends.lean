/-
Two readings side by side. The second reading has more tokens after those of the first, and its uses are counted from
further up; where the first finds nothing wrong and does not come to the end of its tokens to look beyond it, the second
does the same. If there are no more tokens, the two always do the same, errors and recovery included. On the way it is
kept in mind at which tokens errors are found. There is one lemma for each way to put rules together, and one for each
rule that reads a token.
-/
import Lox.Proofs.Grammar.Accepts
import Lox.Proofs.Tree.Raised

namespace Lox

/-- How a second reading differs from a first, and what an error can point at. -/
structure Extension where
  /-- Whether an error can point at a token. -/
  site : Token → Prop
  /-- The tokens that the second reading has after those of the first. -/
  more : List Token
  /-- How much further up the second reading counts its uses from. -/
  moved : UseId

/-! ## Cursors -/

namespace Cursor

variable {c c' : Cursor}

theorem atEnd_congr (h : c'.peek = c.peek) : c'.atEnd = c.atEnd := by rw [atEnd, atEnd, h]

theorem check_congr (h : c'.peek = c.peek) : c'.check = c.check := by
  funext kind
  rw [check, check, atEnd_congr h, h]

theorem peek_of_nil (h : c.rest = []) : c.peek = .missing := by
  rw [peek, h]
  rfl

theorem atEnd_of_nil (h : c.rest = []) : c.atEnd = true := by
  rw [atEnd, peek_of_nil h]
  rfl

theorem check_of_nil (h : c.rest = []) (kind : Kind) : c.check kind = false := by
  rw [check, atEnd_of_nil h]
  rfl

theorem advance_of_atEnd (h : c.atEnd = true) : c.advance = c := if_pos h

theorem peek_mem (h : c.rest ≠ []) : c.peek ∈ c.rest := by
  unfold peek
  cases hr : c.rest with
  | nil => exact absurd hr h
  | cons t rest => exact List.mem_cons_self

theorem ne_nil_of_peek (h : c.peek.kind ≠ .endOfInput) : c.rest ≠ [] := by
  rw [Rule.rest_eq_of_peek h]
  nofun

theorem rest_advance_suffix : c.advance.rest <:+ c.rest := by
  unfold advance
  split
  · exact List.suffix_refl _
  · exact List.tail_suffix _

/-- At most one token is taken at a time. -/
theorem length_le_advance : c.rest.length ≤ c.advance.rest.length + 1 := by
  unfold advance
  split
  · exact Nat.le_succ _
  · simp only [List.length_tail]
    omega

theorem length_advance_lt (h : c.peek.kind ≠ .endOfInput) : c.advance.rest.length < c.rest.length := by
  rw [Rule.rest_eq_of_peek h]
  exact Nat.lt_succ_self _

/-- Further on there is less left when the next token is taken. -/
theorem length_advance_mono (h : c'.rest <:+ c.rest) : c'.advance.rest.length ≤ c.advance.rest.length := by
  have less := rest_advance_suffix (c := c').length_le
  have one := c.length_le_advance
  rcases Nat.lt_or_ge c'.rest.length c.rest.length with lt | ge
  · omega
  · have same : c'.rest = c.rest := h.eq_of_length_le ge
    have end' : c'.atEnd = c.atEnd := atEnd_congr (by rw [peek, peek, same])
    unfold advance
    rw [end']
    split
    · exact Nat.le_of_eq (congrArg List.length same)
    · exact Nat.le_of_eq (congrArg (List.length ∘ List.tail) same)

end Cursor

/-! ## Where readings stand -/

namespace Extension

variable (x : Extension) {c c₁ c₂ c' : Cursor}

/-- Whether all errors found are where they can be, and all that can still be found will be. -/
structure Within (c : Cursor) : Prop where
  tokens : ∀ t ∈ c.rest, x.site t
  last : x.site .missing ∨ ∃ t ∈ c.rest, t.kind = .endOfInput
  errors : ∀ e ∈ c.errors, x.site e.site

/-- From one cursor to another: tokens are only taken and errors only added. -/
structure Moves (c c₂ : Cursor) : Prop where
  rest : c₂.rest <:+ c.rest
  within : x.Within c → x.Within c₂
  clean : c₂.errors = #[] → c.errors = #[]

/-- Whether a cursor of the second reading stands where one of the first does. -/
structure Beside (c c' : Cursor) : Prop where
  rest : c'.rest = c.rest ++ x.more
  uses : c'.nextUse = c.nextUse + x.moved
  errors : c'.errors = c.errors

/-- Whether the second reading may go another way than the first: that has found something wrong, or has come to the
end of its tokens and may look ahead. -/
def Parts (ahead : Bool) (c : Cursor) : Prop :=
  x.more ≠ [] ∧ (c.errors ≠ #[] ∨ ahead = true ∧ c.rest = [])

variable {x}

theorem Within.peek (h : x.Within c) : x.site c.peek := by
  by_cases hr : c.rest = []
  · rw [Cursor.peek_of_nil hr]
    obtain site | ⟨t, ht, -⟩ := h.last
    · exact site
    · rw [hr] at ht
      cases ht
  · exact h.tokens _ (Cursor.peek_mem hr)

namespace Moves

theorem refl (c : Cursor) : x.Moves c c := ⟨List.suffix_refl _, id, id⟩

theorem trans (h : x.Moves c c₁) (h' : x.Moves c₁ c₂) : x.Moves c c₂ :=
  ⟨h'.rest.trans h.rest, h'.within ∘ h.within, h.clean ∘ h'.clean⟩

theorem length (h : x.Moves c c₂) : c₂.rest.length ≤ c.rest.length := h.rest.length_le

/-- The end token is never taken, so the tokens never run out where there is one. -/
theorem advance (c : Cursor) : x.Moves c c.advance := by
  refine ⟨Cursor.rest_advance_suffix, fun h => ?_, fun h => Rule.errors_advance ▸ h⟩
  refine ⟨fun t ht => h.tokens t (Cursor.rest_advance_suffix.mem ht), h.last.imp id ?_, ?_⟩
  · rintro ⟨t, ht, hk⟩
    by_cases hp : c.peek.kind = .endOfInput
    · rw [Cursor.advance_of_atEnd (by rw [Cursor.atEnd, hp]; rfl)]
      exact ⟨t, ht, hk⟩
    · rw [Rule.rest_eq_of_peek hp] at ht
      rcases List.mem_cons.1 ht with rfl | ht
      · exact absurd hk hp
      · exact ⟨t, ht, hk⟩
  · rw [Rule.errors_advance]
    exact h.errors

theorem record {e : SyntaxError} (h : x.Within c → x.site e.site) : x.Moves c (c.record e) := by
  refine ⟨List.suffix_refl _, fun hc => ⟨hc.tokens, hc.last, fun e' he => ?_⟩, fun h => ?_⟩
  · rcases Array.mem_push.1 he with he | rfl
    · exact hc.errors e' he
    · exact h hc
  · exact absurd h Array.push_ne_empty

theorem skipToBoundary : ∀ (fuel : Nat) (c : Cursor), x.Moves c (c.skipToBoundary fuel)
  | 0, c => refl c
  | fuel + 1, c => by
    unfold Cursor.skipToBoundary
    split
    · exact refl c
    · exact (advance c).trans (skipToBoundary fuel _)

theorem recover (c : Cursor) : x.Moves c c.recover := (advance c).trans (skipToBoundary _ _)

end Moves

namespace Beside

/-- The same token is next, if the first reading is not at its end. -/
theorem peek (h : x.Beside c c') (hr : c.rest ≠ [] ∨ x.more = []) : c'.peek = c.peek := by
  rw [Cursor.peek, Cursor.peek, h.rest]
  rcases hr with hr | hr
  · cases hc : c.rest with
    | nil => exact absurd hc hr
    | cons t rest => rfl
  · rw [hr, List.append_nil]

theorem advance (h : x.Beside c c') (hr : c.rest ≠ [] ∨ x.more = []) : x.Beside c.advance c'.advance := by
  have same := h.peek hr
  unfold Cursor.advance
  rw [Cursor.atEnd_congr same]
  split
  · exact h
  · refine ⟨?_, h.uses, h.errors⟩
    show c'.rest.tail = c.rest.tail ++ x.more
    rw [h.rest]
    rcases hr with hr | hr
    · exact List.tail_append_of_ne_nil hr
    · rw [hr, List.append_nil, List.append_nil]

theorem record (h : x.Beside c c') (e : SyntaxError) : x.Beside (c.record e) (c'.record e) :=
  ⟨h.rest, h.uses, congrArg (·.push e) h.errors⟩

theorem skipToBoundary (hm : x.more = []) (fuel : Nat) (h : x.Beside c c') (hp : c'.previous = c.previous) :
    x.Beside (c.skipToBoundary fuel) (c'.skipToBoundary fuel) := by
  induction fuel generalizing c c' with
  | zero => exact h
  | succ fuel ih =>
    have same := h.peek (.inr hm)
    have boundary : c'.atBoundary = c.atBoundary := by rw [Cursor.atBoundary, Cursor.atBoundary, hp, same]
    unfold Cursor.skipToBoundary
    rw [Cursor.atEnd_congr same, boundary]
    split
    · exact h
    · refine ih (h.advance (.inr hm)) ?_
      unfold Cursor.advance
      rw [Cursor.atEnd_congr same, same]
      split
      · exact hp
      · rfl

/-- With no more tokens, recovery skips the same ones; it does not matter which token was taken last, for the next one
is taken first. -/
theorem recover (hm : x.more = []) (h : x.Beside c c') : x.Beside c.recover c'.recover := by
  have same := h.peek (.inr hm)
  have next := h.advance (.inr hm)
  have length : c'.advance.rest.length = c.advance.rest.length := by rw [next.rest, hm, List.append_nil]
  unfold Cursor.recover
  simp only [length]
  by_cases hend : c.atEnd = true
  · -- nothing is taken, and nothing is skipped
    have stays : ∀ (c : Cursor) (n : Nat), c.atEnd = true → c.skipToBoundary n = c := by
      intro c n hc
      cases n with
      | zero => rfl
      | succ n => rw [Cursor.skipToBoundary, hc, Bool.true_or, if_pos rfl]
    have hend' : c'.atEnd = true := by rw [Cursor.atEnd_congr same, hend]
    rw [Cursor.advance_of_atEnd hend, Cursor.advance_of_atEnd hend', stays _ _ hend, stays _ _ hend']
    exact h
  · refine skipToBoundary hm _ next ?_
    rw [Cursor.advance, Cursor.advance, Cursor.atEnd_congr same, if_neg hend, if_neg hend, same]

end Beside

end Extension

/-! ## Rules at the end of the tokens -/

/-- Whether a rule finds this fault where no token is left. -/
def Rule.StopsAtEnd {α : Type} (fault : SyntaxFault) (r : Rule α) : Prop :=
  ∀ c : Cursor, c.rest = [] → SureRule.outcome r.run c = (.error ⟨fault, .missing⟩, c)

/-- Whether a rule gives this where no token is left. -/
def Rule.GivesAtEnd {α : Type} (a : α) (r : Rule α) : Prop :=
  ∀ c : Cursor, c.rest = [] → SureRule.outcome r.run c = (.ok a, c)

namespace Rule

variable {α β : Type} {fault : SyntaxFault}

theorem StopsAtEnd.bind {r : Rule α} {f : α → Rule β} (h : StopsAtEnd fault r) : StopsAtEnd fault (r >>= f) := by
  intro c hc
  show SureRule.outcome (r.run >>= ExceptT.bindCont f) c = _
  rw [SureRule.outcome_bind, h c hc]
  rfl

theorem GivesAtEnd.stops {r : Rule α} {a : α} {f : α → Rule β} (h : GivesAtEnd a r) (h' : StopsAtEnd fault (f a)) :
    StopsAtEnd fault (r >>= f) := by
  intro c hc
  show SureRule.outcome (r.run >>= ExceptT.bindCont f) c = _
  rw [SureRule.outcome_bind, h c hc]
  exact h' c hc

theorem GivesAtEnd.bind {r : Rule α} {a : α} {f : α → Rule β} {b : β} (h : GivesAtEnd a r)
    (h' : GivesAtEnd b (f a)) : GivesAtEnd b (r >>= f) := by
  intro c hc
  show SureRule.outcome (r.run >>= ExceptT.bindCont f) c = _
  rw [SureRule.outcome_bind, h c hc]
  exact h' c hc

theorem givesAtEnd_pure (a : α) : GivesAtEnd a (Pure.pure a : Rule α) := fun _ _ => rfl

theorem peek_atEnd : GivesAtEnd .missing peek := by
  intro c hc
  show (Except.ok c.peek, c) = _
  rw [Cursor.peek_of_nil hc]

theorem check_atEnd (kind : Kind) : GivesAtEnd false (check kind) := by
  intro c hc
  show (Except.ok (c.check kind), c) = _
  rw [Cursor.check_of_nil hc]

theorem accept_atEnd (kind : Kind) : GivesAtEnd false (accept kind) :=
  (check_atEnd kind).bind (givesAtEnd_pure false)

theorem acceptAny?_atEnd (kinds : List Kind) : GivesAtEnd none (acceptAny? kinds) := by
  intro c hc
  have none : ¬kinds.any c.check = true := by
    intro h
    obtain ⟨kind, -, hk⟩ := List.any_eq_true.1 h
    rw [Cursor.check_of_nil hc] at hk
    cases hk
  show SureRule.outcome (if kinds.any c.check = true then _ else _ : Rule _).run c = _
  rw [if_neg none]
  rfl

theorem stop_atEnd (fault : SyntaxFault) : StopsAtEnd fault (stop fault : Rule α) :=
  peek_atEnd.stops fun _ _ => rfl

theorem expect_atEnd (expected : Expectation) : StopsAtEnd (.missing expected) (expect expected) := by
  intro c hc
  show SureRule.outcome (if c.check expected.kind = true then _ else _ : Rule _).run c = _
  rw [Cursor.check_of_nil hc]
  exact stop_atEnd _ c hc

end Rule

/-! ## Rules that never stop -/

/--
What comes of a rule that never stops at a cursor, and of another one at a cursor of the second reading: `f` makes the
second result of the first. At most `left` tokens are left then.
-/
structure Extension.Yields {α : Type} (x : Extension) (ahead : Bool) (left : Nat) (f : α → α) (c : Cursor)
    (out : α × Cursor) (out' : Cursor → α × Cursor) : Prop where
  moves : x.Moves c out.2
  left : out.2.rest.length ≤ left
  same : ∀ c', x.Beside c c' → x.Parts ahead out.2 ∨ (out' c').1 = f out.1 ∧ x.Beside out.2 (out' c').2

/-- Whether a rule that never stops does from a cursor what another one does in the second reading. -/
def SureRule.Extends {α : Type} (x : Extension) (ahead : Bool) (left : Nat) (f : α → α) (r r' : SureRule α)
    (c : Cursor) : Prop :=
  x.Within c → x.Yields ahead left f c (outcome r c) (outcome r')

namespace SureRule.Extends

variable {α β : Type} {x : Extension} {ahead ahead₁ : Bool} {left left₁ : Nat} {f : α → α} {g : β → β} {c : Cursor}

theorem pure {a : α} (h : c.rest.length ≤ left) : Extends x ahead left f (Pure.pure a) (Pure.pure (f a)) c :=
  fun _ => ⟨.refl c, h, fun _ beside => .inr ⟨rfl, beside⟩⟩

theorem bind {r r' : SureRule α} {k k' : α → SureRule β} (h : Extends x ahead₁ left₁ f r r' c)
    (ha : ahead₁ = true → ahead = true)
    (h' : ∀ a c₁, c₁.rest.length ≤ left₁ → Extends x ahead left g (k a) (k' (f a)) c₁) :
    Extends x ahead left g (r >>= k) (r' >>= k') c := by
  intro hc
  have first := h hc
  have second := h' (outcome r c).1 (outcome r c).2 first.left (first.moves.within hc)
  refine ⟨first.moves.trans second.moves, second.left, fun c' beside => ?_⟩
  rcases first.same c' beside with ⟨more, wrong | ⟨ahead₁, hr⟩⟩ | ⟨result, beside⟩
  · exact .inl ⟨more, .inl (mt second.moves.clean wrong)⟩
  · exact .inl ⟨more, .inr ⟨ha ahead₁, List.suffix_nil.1 (hr ▸ second.moves.rest)⟩⟩
  · have := second.same (outcome r' c').2 beside
    rw [← result] at this
    exact this

/-- A rule that looks at nothing but the next token, and may look ahead. -/
theorem look {k k' : Cursor → SureRule α} (hk : ∀ c', c'.peek = c.peek → k' c' = k' c)
    (h : Extends x true left f (k c) (k' c) c) :
    Extends x true left f (MonadState.get >>= k) (MonadState.get >>= k') c := by
  intro hc
  have given := h hc
  refine ⟨given.moves, given.left, fun c' beside => ?_⟩
  by_cases hr : c.rest ≠ [] ∨ x.more = []
  · have := given.same c' beside
    rw [← hk c' (beside.peek hr)] at this
    exact this
  · obtain ⟨hr, hm⟩ := not_or.1 hr
    have hr := Decidable.not_not.1 hr
    exact .inl ⟨hm, .inr ⟨rfl, List.suffix_nil.1 (hr ▸ given.moves.rest)⟩⟩

/-- Rules that give something at the end of the tokens. -/
theorem ofGivesAtEnd {r r' : SureRule α} {a : α} (h : ∀ c : Cursor, c.rest = [] → outcome r c = (a, c))
    (h' : ∀ c : Cursor, c.rest = [] → outcome r' c = (f a, c)) (hr : c.rest = []) :
    Extends x true left f r r' c := by
  intro _
  rw [h c hr]
  refine ⟨.refl c, by rw [hr]; exact Nat.zero_le _, fun c' beside => ?_⟩
  by_cases more : x.more = []
  · have hr' : c'.rest = [] := by rw [beside.rest, hr, more]; rfl
    rw [h' c' hr']
    exact .inr ⟨rfl, beside⟩
  · exact .inl ⟨more, .inr ⟨rfl, hr⟩⟩

end SureRule.Extends

/-! ## Rules that can stop -/

/--
What comes of a rule at a cursor, and of another one at a cursor of the second reading. Either both stop at the same
error, or `f` makes the second result of the first; at most `left` tokens are left then.
-/
structure Extension.Carries {α : Type} (x : Extension) (ahead : Bool) (left : Nat) (f : α → α) (c : Cursor)
    (out : Except SyntaxError α × Cursor) (out' : Cursor → Except SyntaxError α × Cursor) : Prop where
  moves : x.Moves c out.2
  site : ∀ e, out.1 = .error e → x.site e.site
  left : ∀ a, out.1 = .ok a → out.2.rest.length ≤ left
  same : ∀ c', x.Beside c c' → (x.more ≠ [] ∧ ∃ e, out.1 = .error e) ∨ x.Parts ahead out.2 ∨
    (out' c').1 = out.1.map f ∧ x.Beside out.2 (out' c').2

/-- Whether a rule does from a cursor what another one does in the second reading. -/
def Rule.Extends {α : Type} (x : Extension) (ahead : Bool) (left : Nat) (f : α → α) (r r' : Rule α)
    (c : Cursor) : Prop :=
  x.Within c → x.Carries ahead left f c (SureRule.outcome r.run c) (SureRule.outcome r'.run)

namespace Rule

theorem outcome_ok {α β : Type} {r : Rule α} {k : α → Rule β} {c c₁ : Cursor} {a : α}
    (h : SureRule.outcome r.run c = (.ok a, c₁)) :
    SureRule.outcome (r >>= k).run c = SureRule.outcome (k a).run c₁ := by
  show SureRule.outcome (r.run >>= ExceptT.bindCont k) c = _
  rw [SureRule.outcome_bind, h]
  rfl

theorem outcome_error {α β : Type} {r : Rule α} {k : α → Rule β} {c c₁ : Cursor} {e : SyntaxError}
    (h : SureRule.outcome r.run c = (.error e, c₁)) : SureRule.outcome (r >>= k).run c = (.error e, c₁) := by
  show SureRule.outcome (r.run >>= ExceptT.bindCont k) c = _
  rw [SureRule.outcome_bind, h]
  rfl

namespace Extends

variable {α β : Type} {x : Extension} {ahead ahead₁ : Bool} {left left₁ : Nat} {f : α → α} {g : β → β} {c : Cursor}
  {r r' : Rule α} {k k' : α → Rule β}

theorem pure {a : α} (h : c.rest.length ≤ left) : Extends x ahead left f (Pure.pure a) (Pure.pure (f a)) c := by
  intro _
  refine ⟨.refl c, ?_, fun _ _ => h, fun c' beside => .inr (.inr ⟨rfl, beside⟩)⟩
  rintro e ⟨⟩

theorem throw {e : SyntaxError} (h : x.site e.site) :
    Extends x ahead left f (MonadExcept.throw e) (MonadExcept.throw e) c := by
  intro _
  refine ⟨.refl c, ?_, ?_, fun c' beside => .inr (.inr ⟨rfl, beside⟩)⟩
  · rintro _ ⟨⟩
    exact h
  · rintro a ⟨⟩

/-- What comes after a part of a rule that may look ahead of the last token either may look ahead as well or stops
there. -/
theorem seam (h : Extends x ahead₁ left₁ f r r' c)
    (hend : ahead₁ = true → ahead = true ∨ ∀ a, ∃ fault, (k a).StopsAtEnd fault)
    (h' : ∀ a c₁, c₁.rest.length ≤ left₁ → Extends x ahead left g (k a) (k' (f a)) c₁) :
    Extends x ahead left g (r >>= k) (r' >>= k') c := by
  intro hc
  have first := h hc
  cases hout : SureRule.outcome r.run c with | mk result c₁
  rw [hout] at first
  cases result with
  | error e =>
    rw [outcome_error hout]
    refine ⟨first.moves, ?_, by rintro a ⟨⟩, fun c' beside => ?_⟩
    · rintro _ ⟨⟩
      exact first.site e rfl
    · rcases first.same c' beside with ⟨more, -⟩ | parts | ⟨result', beside⟩
      · exact .inl ⟨more, e, rfl⟩
      · exact .inl ⟨parts.1, e, rfl⟩
      · rw [outcome_error (Prod.ext result' rfl)]
        exact .inr (.inr ⟨rfl, beside⟩)
  | ok a =>
    rw [outcome_ok hout]
    have second := h' a c₁ (first.left a rfl) (first.moves.within hc)
    refine ⟨first.moves.trans second.moves, second.site, second.left, fun c' beside => ?_⟩
    rcases first.same c' beside with ⟨-, e, he⟩ | ⟨more, wrong | ⟨ahead₁, hr⟩⟩ | ⟨result', beside⟩
    · cases he
    · exact .inr (.inl ⟨more, .inl (mt second.moves.clean wrong)⟩)
    · -- the first part has come to the end of the tokens
      rcases hend ahead₁ with ahead | ends
      · exact .inr (.inl ⟨more, .inr ⟨ahead, List.suffix_nil.1 (hr ▸ second.moves.rest)⟩⟩)
      · obtain ⟨fault, ends⟩ := ends a
        exact .inl ⟨more, _, congrArg Prod.fst (ends c₁ hr)⟩
    · rw [outcome_ok (Prod.ext result' rfl)]
      exact second.same _ beside

/-- Parts of a rule one after another, which may look ahead only if the rule may. -/
theorem bind (h : Extends x ahead left₁ f r r' c)
    (h' : ∀ a c₁, c₁.rest.length ≤ left₁ → Extends x ahead left g (k a) (k' (f a)) c₁) :
    Extends x ahead left g (r >>= k) (r' >>= k') c :=
  h.seam .inl h'

/-- A part that may look ahead before one that stops at the end of the tokens. -/
theorem close {fault : SyntaxFault} (h : Extends x true left₁ f r r' c) (hend : ∀ a, (k a).StopsAtEnd fault)
    (h' : ∀ a c₁, c₁.rest.length ≤ left₁ → Extends x ahead left g (k a) (k' (f a)) c₁) :
    Extends x ahead left g (r >>= k) (r' >>= k') c :=
  h.seam (fun _ => .inr fun a => ⟨fault, hend a⟩) h'

theorem mono {left' : Nat} (h : Extends x ahead left f r r' c) (ha : ahead = true → ahead₁ = true)
    (hl : left ≤ left') : Extends x ahead₁ left' f r r' c := by
  intro hc
  have given := h hc
  refine ⟨given.moves, given.site, fun a ha => Nat.le_trans (given.left a ha) hl, fun c' beside => ?_⟩
  rcases given.same c' beside with error | ⟨more, parts⟩ | same
  · exact .inl error
  · exact .inr (.inl ⟨more, parts.imp id fun ⟨h, hr⟩ => ⟨ha h, hr⟩⟩)
  · exact .inr (.inr same)

/-- A rule that never stops, as one that could. -/
theorem lift {r r' : SureRule α} (h : SureRule.Extends x ahead left f r r' c) :
    Extends x ahead left f (liftM r) (liftM r') c := by
  intro hc
  have given := h hc
  refine ⟨given.moves, by rintro e ⟨⟩, fun _ _ => given.left, fun c' beside => ?_⟩
  rcases given.same c' beside with parts | ⟨result, beside⟩
  · exact .inr (.inl parts)
  · exact .inr (.inr ⟨congrArg Except.ok result, beside⟩)

/-- A rule that looks at nothing but the next token. -/
theorem look {k k' : Cursor → Rule α} (hk : ∀ c', c'.peek = c.peek → k' c' = k' c)
    (hend : c.rest = [] → ahead = true ∨ ∃ fault, (k c).StopsAtEnd fault)
    (h : Extends x ahead left f (k c) (k' c) c) :
    Extends x ahead left f (MonadState.get >>= k) (MonadState.get >>= k') c := by
  intro hc
  have given := h hc
  refine ⟨given.moves, given.site, given.left, fun c' beside => ?_⟩
  by_cases hr : c.rest ≠ [] ∨ x.more = []
  · have := given.same c' beside
    rw [← hk c' (beside.peek hr)] at this
    exact this
  · -- the second reading sees a token where the first sees none
    obtain ⟨hr, more⟩ := not_or.1 hr
    have hr := Decidable.not_not.1 hr
    rcases hend hr with ahead | ⟨fault, ends⟩
    · exact .inr (.inl ⟨more, .inr ⟨ahead, List.suffix_nil.1 (hr ▸ given.moves.rest)⟩⟩)
    · exact .inl ⟨more, _, congrArg Prod.fst (ends c hr)⟩

/-- Rules that give something, or stop, at the end of the tokens. -/
theorem ofGivesAtEnd {a : α} (h : GivesAtEnd a r) (h' : GivesAtEnd (f a) r') (hr : c.rest = []) :
    Extends x true left f r r' c := by
  intro _
  rw [h c hr]
  refine ⟨.refl c, by rintro e ⟨⟩, fun _ _ => by rw [hr]; exact Nat.zero_le _, fun c' beside => ?_⟩
  by_cases more : x.more = []
  · have hr' : c'.rest = [] := by rw [beside.rest, hr, more]; rfl
    rw [h' c' hr']
    exact .inr (.inr ⟨rfl, beside⟩)
  · exact .inr (.inl ⟨more, .inr ⟨rfl, hr⟩⟩)

theorem ofStopsAtEnd {fault : SyntaxFault} (h : StopsAtEnd fault r) (h' : StopsAtEnd fault r') (hr : c.rest = []) :
    Extends x ahead left f r r' c := by
  intro hc
  rw [h c hr]
  refine ⟨.refl c, ?_, by rintro a ⟨⟩, fun c' beside => ?_⟩
  · rintro _ ⟨⟩
    rw [← Cursor.peek_of_nil hr]
    exact hc.peek
  · by_cases more : x.more = []
    · have hr' : c'.rest = [] := by rw [beside.rest, hr, more]; rfl
      rw [h' c' hr']
      exact .inr (.inr ⟨rfl, beside⟩)
    · exact .inl ⟨more, _, rfl⟩

end Extends

/-! ## Tokens -/

variable {α : Type} {x : Extension} {ahead : Bool} {left : Nat} {f : α → α} {c : Cursor}

theorem peek_extends {k k' : Token → Rule α} (hend : ahead = true ∨ ∃ fault, (k .missing).StopsAtEnd fault)
    (h : x.site c.peek → Extends x ahead left f (k c.peek) (k' c.peek) c) :
    Extends x ahead left f (peek >>= k) (peek >>= k') c := by
  intro hc
  show x.Carries ahead left f c (SureRule.outcome (MonadState.get >>= fun c => k c.peek : Rule α).run c)
    (SureRule.outcome (MonadState.get >>= fun c => k' c.peek : Rule α).run)
  refine Extends.look (fun c' same => by rw [same]) (fun hr => ?_) (h hc.peek) hc
  rwa [Cursor.peek_of_nil hr]

theorem check_extends {kind : Kind} {k k' : Bool → Rule α}
    (h : Extends x true left f (k (c.check kind)) (k' (c.check kind)) c) :
    Extends x true left f (check kind >>= k) (check kind >>= k') c := by
  show Extends x true left f (MonadState.get >>= fun c => k (c.check kind))
    (MonadState.get >>= fun c => k' (c.check kind)) c
  exact .look (fun c' same => by rw [Cursor.check_congr same]) (fun _ => .inl rfl) h

/-- The next token is taken, if it is not the end. -/
theorem advance_extends {k k' : Unit → Rule α} (hk : c.peek.kind ≠ .endOfInput)
    (h : ∀ c₁, c₁.rest.length < c.rest.length → Extends x ahead left f (k ()) (k' ()) c₁) :
    Extends x ahead left f (advance >>= k) (advance >>= k') c := by
  have first : Extends x ahead c.advance.rest.length id advance advance c := by
    refine fun _ => ⟨.advance c, by rintro e ⟨⟩, fun _ _ => Nat.le_refl _, fun c' beside => .inr (.inr ⟨rfl, ?_⟩)⟩
    exact beside.advance (.inl (Cursor.ne_nil_of_peek hk))
  exact first.bind fun _ c₁ short => h c₁ (Nat.lt_of_le_of_lt short (Cursor.length_advance_lt hk))

theorem stop_extends (fault : SyntaxFault) : Extends x ahead left f (stop fault) (stop fault) c :=
  peek_extends (.inr ⟨fault, fun _ _ => rfl⟩) fun site => .throw site

/-- Nothing comes after a rule that stops. -/
theorem stop_bind {β : Type} (fault : SyntaxFault) (k : β → Rule α) : (stop fault >>= k) = stop fault := rfl

/-- One way with the next token, if it is of a kind, and another if it is not. At the end of the tokens the other way may
look ahead or stops, if the second reading can have a token of this kind there. -/
theorem accept_extends {kind : Kind} {yes no yes' no' : Rule α}
    (hend : ahead = true ∨ (∃ fault, no.StopsAtEnd fault) ∨ HeadNot (· = kind) x.more)
    (hy : ∀ c₁, c₁.rest.length < c.rest.length → Extends x ahead left f yes yes' c₁)
    (hn : Extends x ahead left f no no' c) :
    Extends x ahead left f (accept kind >>= fun b => if b = true then yes else no)
      (accept kind >>= fun b => if b = true then yes' else no') c := by
  intro hc
  by_cases hk : c.check kind = true
  · have step : Extends x ahead left f (advance >>= fun _ => yes) (advance >>= fun _ => yes') c :=
      advance_extends (peek_ne_of_check hk) hy
    have taken := step hc
    rw [outcome_accept, if_pos hk]
    refine ⟨taken.moves, taken.site, taken.left, fun c' beside => ?_⟩
    have same := beside.peek (.inl (Cursor.ne_nil_of_peek (peek_ne_of_check hk)))
    rw [outcome_accept, Cursor.check_congr same, if_pos hk]
    exact taken.same c' beside
  · have given := hn hc
    rw [outcome_accept, if_neg hk]
    refine ⟨given.moves, given.site, given.left, fun c' beside => ?_⟩
    by_cases hr : c.rest ≠ [] ∨ x.more = []
    · rw [outcome_accept, Cursor.check_congr (beside.peek hr), if_neg hk]
      exact given.same c' beside
    · obtain ⟨hr, more⟩ := not_or.1 hr
      have hr := Decidable.not_not.1 hr
      rcases hend with ahead | ⟨fault, ends⟩ | other
      · exact .inr (.inl ⟨more, .inr ⟨ahead, List.suffix_nil.1 (hr ▸ given.moves.rest)⟩⟩)
      · exact .inl ⟨more, _, congrArg Prod.fst (ends c hr)⟩
      · have hk' : ¬c'.check kind = true := by
          refine Cursor.check_of_headNot ?_
          rw [beside.rest, hr]
          exact other
        rw [outcome_accept, if_neg hk']
        exact given.same c' beside

/-- One way with the next token, if it is of one of the kinds, and another if it is not. -/
theorem acceptAny?_extends {kinds : List Kind} {k k' : Option Token → Rule α}
    (hs : ∀ t c₁, x.site t → c₁.rest.length < c.rest.length → Extends x true left f (k (some t)) (k' (some t)) c₁)
    (hn : Extends x true left f (k none) (k' none) c) :
    Extends x true left f (acceptAny? kinds >>= k) (acceptAny? kinds >>= k') c := by
  unfold acceptAny?
  rw [bind_assoc, bind_assoc]
  intro hc
  refine Extends.look (fun c' same => ?_) (fun _ => .inl rfl) ?_ hc
  · rw [Cursor.check_congr same, same]
  · split
    · next h =>
      obtain ⟨kind, -, hk⟩ := List.any_eq_true.1 h
      rw [bind_assoc, bind_assoc]
      exact advance_extends (peek_ne_of_check hk) fun c₁ short => hs c.peek c₁ hc.peek short
    · exact hn

/-- The next token, if it is of the kind that is expected. -/
theorem expect_extends {expected : Expectation} {k k' : Token → Rule α}
    (h : ∀ t c₁, x.site t → c₁.rest.length < c.rest.length → Extends x ahead left f (k t) (k' t) c₁) :
    Extends x ahead left f (expect expected >>= k) (expect expected >>= k') c := by
  unfold expect
  rw [bind_assoc, bind_assoc]
  intro hc
  refine Extends.look (fun c' same => ?_) (fun hr => .inr ⟨.missing expected, ?_⟩) ?_ hc
  · rw [Cursor.check_congr same, same]
  · rw [Cursor.check_of_nil hr]
    exact (stop_atEnd _).bind
  · split
    · next hk =>
      rw [bind_assoc, bind_assoc]
      exact advance_extends (peek_ne_of_check hk) fun c₁ short => h c.peek c₁ hc.peek short
    · rw [stop_bind, stop_bind]
      exact stop_extends _

theorem newUses_extends {count : Nat} {k k' : UseId → Rule α}
    (h : ∀ id c₁, c₁.rest.length ≤ c.rest.length → Extends x ahead left f (k id) (k' (id + x.moved)) c₁) :
    Extends x ahead left f (newUses count >>= k) (newUses count >>= k') c := by
  have first : Extends x ahead c.rest.length (· + x.moved) (newUses count) (newUses count) c := by
    intro _
    have moves : x.Moves c { c with nextUse := c.nextUse + count } :=
      ⟨List.suffix_refl _, fun hc => ⟨hc.tokens, hc.last, hc.errors⟩, id⟩
    refine ⟨moves, by rintro e ⟨⟩, fun _ _ => Nat.le_refl _, fun c' beside => .inr (.inr ?_)⟩
    refine ⟨congrArg Except.ok beside.uses, beside.rest, ?_, beside.errors⟩
    show c'.nextUse + count = c.nextUse + count + x.moved
    rw [beside.uses, Nat.add_right_comm]
  exact first.bind h

theorem record_extends {fault : SyntaxFault} {site : Token} {k k' : Unit → Rule α} (hs : x.site site)
    (h : ∀ c₁, c₁.rest.length ≤ c.rest.length → Extends x ahead left f (k ()) (k' ()) c₁) :
    Extends x ahead left f (record fault site >>= k) (record fault site >>= k') c := by
  have first : Extends x ahead c.rest.length id (record fault site) (record fault site) c :=
    fun _ => ⟨.record fun _ => hs, by rintro e ⟨⟩, fun _ _ => Nat.le_refl _,
      fun c' beside => .inr (.inr ⟨rfl, beside.record _⟩)⟩
  exact first.bind fun _ => h

/-- Entries with commas between them; both readings allow for more of them than there are tokens. -/
theorem entries_extends {n : Nat} (tooMany : SyntaxFault) {entry entry' : Rule α}
    (h : ∀ c : Cursor, c.rest.length < n → Extends x true c.rest.length f entry entry' c) :
    ∀ (fuel fuel' : Nat) (found : List α) (c : Cursor), c.rest.length < n → c.rest.length < fuel →
      c.rest.length + x.more.length < fuel' → c.rest.length ≤ left →
      Extends x true left (List.map f) (entries tooMany entry fuel found) (entries tooMany entry' fuel' (found.map f)) c := by
  intro fuel
  induction fuel with
  | zero => exact fun _ _ c _ enough => absurd enough (Nat.not_lt_zero _)
  | succ fuel ih =>
    intro fuel' found c inside enough enough' le
    obtain ⟨fuel', rfl⟩ := Nat.exists_eq_succ_of_ne_zero (Nat.ne_of_gt (Nat.zero_lt_of_lt enough'))
    -- one entry too many is reported, and read all the same
    have rest : ∀ c₁ : Cursor, c₁.rest.length ≤ c.rest.length → Extends x true left (List.map f)
        (do
          let found := (← entry) :: found
          if ← accept .comma then entries tooMany entry fuel found else return found.reverse)
        (do
          let found := (← entry') :: found.map f
          if ← accept .comma then entries tooMany entry' fuel' found else return found.reverse) c₁ := by
      intro c₁ short
      refine .bind (h c₁ (by omega)) fun a c₂ short₂ => ?_
      refine accept_extends (.inl rfl) (fun c₃ short₃ => ?_) ?_
      · exact ih fuel' (a :: found) c₃ (by omega) (by omega) (by omega) (by omega)
      · rw [← List.map_cons, ← List.map_reverse]
        exact .pure (by omega)
    unfold entries
    rw [List.length_map]
    split
    · refine peek_extends (.inl rfl) fun site => record_extends site fun c₁ short => rest c₁ short
    · exact rest c (Nat.le_refl _)

end Rule

end Lox
