/-
What an error leaves unread. The declaration that an error stops is dropped, with the token at which the error was found,
whatever that token is, and with those after it up to the next boundary: the first semicolon, which goes as well, the first
word that starts a statement, or the end (`resumption`). Reading goes on there, and what is wrong with the statement that
starts there is reported as well (`declaration_resumes`). A word that starts a statement is skipped only if it is itself the
token at which the error was found.
-/
import Lox.Proofs.Grammar.Halts
import Lox.Token.Stream

namespace Lox

/-! ## The next boundary -/

/-- The number of the first token of such a kind from the one numbered `k` on; beyond the last of them if there is none. -/
def firstFrom (such : Kind → Bool) (tokens : List Token) (k : Nat) : Nat :=
  k + (tokens.drop k).findIdx fun t => such t.kind

/--
The number of the token at which reading goes on after an error at the token numbered `k`: the one after the next
semicolon, the next word after `k` that starts a statement, or the end, whichever comes first.
-/
def resumption (tokens : List Token) (k : Nat) : Nat :=
  min (min (firstFrom (· == .semicolon) tokens k + 1) (firstFrom Cursor.startsStatement tokens (k + 1)))
    (firstFrom (· == .endOfInput) tokens k)

section

variable {such : Kind → Bool} {t : Token} {ts tokens : List Token} {k : Nat}

theorem firstFrom_zero (such : Kind → Bool) (ts : List Token) :
    firstFrom such ts 0 = ts.findIdx fun t => such t.kind := Nat.zero_add _

theorem firstFrom_one (such : Kind → Bool) (t : Token) (ts : List Token) :
    firstFrom such (t :: ts) 1 = firstFrom such ts 0 + 1 := by
  rw [firstFrom, firstFrom_zero, Nat.add_comm]
  rfl

theorem firstFrom_cons_pos (h : such t.kind = true) : firstFrom such (t :: ts) 0 = 0 := by
  rw [firstFrom_zero, List.findIdx_cons, h]
  rfl

theorem firstFrom_cons_neg (h : such t.kind = false) : firstFrom such (t :: ts) 0 = firstFrom such ts 0 + 1 := by
  rw [firstFrom_zero, firstFrom_zero, List.findIdx_cons, h]
  rfl

theorem firstFrom_drop (such : Kind → Bool) (tokens : List Token) (k j : Nat) :
    firstFrom such tokens (k + j) = k + firstFrom such (tokens.drop k) j := by
  rw [firstFrom, firstFrom, List.drop_drop, Nat.add_assoc]

theorem resumption_drop (tokens : List Token) (k : Nat) :
    resumption tokens k = k + resumption (tokens.drop k) 0 := by
  have here (such : Kind → Bool) := firstFrom_drop such tokens k 0
  have next (such : Kind → Bool) := firstFrom_drop such tokens k 1
  rw [Nat.add_zero] at here
  simp only [resumption, here, next, Nat.zero_add]
  omega

/-- No word that starts a statement stands between an error and the place at which reading goes on. -/
theorem startsStatement_of_lt_resumption {i : Nat} (after : k < i) (before : i < resumption tokens k)
    (h : tokens[i]? = some t) : Cursor.startsStatement t.kind = false := by
  have before : i < firstFrom Cursor.startsStatement tokens (k + 1) := by
    unfold resumption at before
    omega
  have inside : i - (k + 1) < (tokens.drop (k + 1)).findIdx fun t => Cursor.startsStatement t.kind := by
    unfold firstFrom at before
    omega
  have not := List.not_of_lt_findIdx inside
  have same : (tokens.drop (k + 1))[i - (k + 1)]? = some t := by
    rw [List.getElem?_drop, show k + 1 + (i - (k + 1)) = i by omega, h]
  rw [List.getElem?_eq_some_iff] at same
  obtain ⟨-, rfl⟩ := same
  simpa using not

/-- After a semicolon nothing more is skipped. -/
theorem resumption_semicolon (h : t.kind = .semicolon) : resumption (t :: ts) 0 = 1 := by
  have semicolon : firstFrom (· == .semicolon) (t :: ts) 0 = 0 := firstFrom_cons_pos (by rw [h]; rfl)
  have ending : firstFrom (· == .endOfInput) (t :: ts) 0 = firstFrom (· == .endOfInput) ts 0 + 1 :=
    firstFrom_cons_neg (by rw [h]; rfl)
  rw [resumption, semicolon, ending, Nat.zero_add, firstFrom_one]
  omega

/-- Before the end, or before a word that starts a statement, nothing more is skipped. -/
theorem resumption_boundary (ht : t.kind ≠ .endOfInput)
    (h : firstFrom Cursor.startsStatement ts 0 = 0 ∨ firstFrom (· == .endOfInput) ts 0 = 0) :
    resumption (t :: ts) 0 = 1 := by
  have ending : firstFrom (· == .endOfInput) (t :: ts) 0 = firstFrom (· == .endOfInput) ts 0 + 1 :=
    firstFrom_cons_neg (beq_false_of_ne ht)
  rw [resumption, ending, Nat.zero_add, firstFrom_one]
  omega

/-- Any other token is skipped. -/
theorem resumption_skip {p : Token} (hp : p.kind ≠ .semicolon) (hp' : p.kind ≠ .endOfInput)
    (ht : Cursor.startsStatement t.kind = false) : resumption (p :: t :: ts) 0 = resumption (t :: ts) 0 + 1 := by
  have semicolon : firstFrom (· == .semicolon) (p :: t :: ts) 0 = firstFrom (· == .semicolon) (t :: ts) 0 + 1 :=
    firstFrom_cons_neg (beq_false_of_ne hp)
  have ending : firstFrom (· == .endOfInput) (p :: t :: ts) 0 = firstFrom (· == .endOfInput) (t :: ts) 0 + 1 :=
    firstFrom_cons_neg (beq_false_of_ne hp')
  have word : firstFrom Cursor.startsStatement (t :: ts) 0 = firstFrom Cursor.startsStatement ts 0 + 1 :=
    firstFrom_cons_neg ht
  rw [resumption, resumption, semicolon, ending, Nat.zero_add, firstFrom_one, firstFrom_one, word]
  omega

end

/-! ## Skipping -/

namespace Cursor

theorem firstFrom_of_atEnd {c : Cursor} (h : c.atEnd = true) : firstFrom (· == .endOfInput) c.rest 0 = 0 := by
  unfold atEnd peek at h
  cases hr : c.rest with
  | nil => rfl
  | cons t ts =>
    rw [hr] at h
    exact firstFrom_cons_pos h

theorem firstFrom_of_starts {c : Cursor} (h : startsStatement c.peek.kind = true) :
    firstFrom startsStatement c.rest 0 = 0 := by
  unfold peek at h
  cases hr : c.rest with
  | nil => rfl
  | cons t ts =>
    rw [hr] at h
    exact firstFrom_cons_pos h

/-- Where a cursor skips to: the token taken last counts as the one that is skipped in any case. -/
theorem skipToBoundary_rest : ∀ (fuel : Nat) (c : Cursor), c.rest.length ≤ fuel → c.previous.kind ≠ .endOfInput →
    (c.skipToBoundary fuel).rest = (c.previous :: c.rest).drop (resumption (c.previous :: c.rest) 0) := by
  intro fuel
  induction fuel with
  | zero =>
    intro c short live
    have none : c.rest = [] := List.eq_nil_of_length_eq_zero (Nat.le_zero.1 short)
    rw [none, resumption_boundary live (.inl rfl)]
    exact none
  | succ fuel ih =>
    intro c short live
    unfold skipToBoundary
    split
    · next stays =>
      have one : resumption (c.previous :: c.rest) 0 = 1 := by
        rcases Bool.or_eq_true _ _ ▸ stays with ended | boundary
        · exact resumption_boundary live (.inr (firstFrom_of_atEnd ended))
        rcases Bool.or_eq_true _ _ ▸ boundary with semicolon | word
        · exact resumption_semicolon (eq_of_beq semicolon)
        · exact resumption_boundary live (.inl (firstFrom_of_starts word))
      rw [one]
      rfl
    · next goes =>
      obtain ⟨more, boundary⟩ := not_or.1 (Bool.or_eq_true _ _ ▸ goes)
      obtain ⟨semicolon, word⟩ := not_or.1 (Bool.or_eq_true _ _ ▸ boundary)
      have live' : c.peek.kind ≠ .endOfInput := by simpa [atEnd] using more
      have first := Rule.rest_eq_of_peek live'
      have taken : c.advance.previous = c.peek := by
        rw [advance, if_neg more]
      have short' : c.advance.rest.length ≤ fuel := by
        rw [first, List.length_cons] at short
        omega
      rw [ih c.advance short' (by rw [taken]; exact live'), taken, ← first, first,
        resumption_skip (by simpa using semicolon) live (by simpa using word)]
      rfl

/-- What is left after an error, if it was found at the next token. -/
theorem recover_rest (c : Cursor) : c.recover.rest = c.rest.drop (resumption c.rest 0) := by
  unfold recover
  by_cases more : c.atEnd = true
  · have stays : ∀ fuel : Nat, c.skipToBoundary fuel = c := by
      rintro (_ | fuel)
      · rfl
      · rw [skipToBoundary, more]
        rfl
    have none : resumption c.rest 0 = 0 := by
      rw [resumption, firstFrom_of_atEnd more]
      exact Nat.min_zero _
    rw [advance_of_atEnd more, stays, none]
    rfl
  · have live : c.peek.kind ≠ .endOfInput := by simpa [atEnd] using more
    have taken : c.advance.previous = c.peek := by
      rw [advance, if_neg more]
    have skips := skipToBoundary_rest c.advance.rest.length c.advance (Nat.le_refl _) (by rw [taken]; exact live)
    rw [taken, ← Rule.rest_eq_of_peek live] at skips
    exact skips

end Cursor

/-! ## Going on -/

/-- Before a word that starts a statement neither a program nor a body is done. -/
theorem Cursor.not_done_of_starts {c : Cursor} (h : startsStatement c.peek.kind = true) {done : Cursor → Bool}
    (hd : done ∈ [atEnd, Rule.bodyDone]) : ¬done c = true := by
  have live : c.peek.kind ≠ .endOfInput := fun kind => by rw [kind] at h; cases h
  have brace : c.peek.kind ≠ .rightBrace := fun kind => by rw [kind] at h; cases h
  have more : c.atEnd = false := by simpa [atEnd] using live
  rw [List.mem_cons, List.mem_singleton] at hd
  rcases hd with rfl | rfl
  · simp [more]
  · simpa [Rule.bodyDone, more, check] using brace

/--
How reading goes on after an error. The declaration begun at `c` is stopped at `c₁` by an error `e`, which is found at the
token numbered `k` of those left at `c`, and reading goes on at `c₂`.
-/
structure Resumes (depth : Nat) (c c₁ c₂ : Cursor) (e : SyntaxError) (k : Nat) : Prop where
  /-- The tokens before the error are taken. -/
  taken : k ≤ c.rest.length ∧ c₁.rest = c.rest.drop k
  /-- None of them ends the program. -/
  live : ∀ t ∈ c.rest.take k, t.kind ≠ .endOfInput
  site : e.site = (c.rest.drop k).headD .missing
  /-- The declaration gives nothing. -/
  dropped : SureRule.outcome (Rule.declaration depth) c = (none, c₂)
  recorded : c₂.errors = c₁.errors.push e
  boundary : c₂.rest = c.rest.drop (resumption c.rest k)
  /-- No word that starts a statement is skipped after the token at which the error was found. -/
  words : ∀ i t, k < i → i < resumption c.rest k → c.rest[i]? = some t → Cursor.startsStatement t.kind = false
  /-- A program or a body in which the declaration stands goes on there, and the error stays among those found. -/
  goesOn : ∀ (done : Cursor → Bool) (fuel : Nat) (found : List Stmt), ¬done c = true →
    let rest := SureRule.outcome (Rule.sequence done (Rule.declaration depth) fuel found) c₂
    SureRule.outcome (Rule.sequence done (Rule.declaration depth) (fuel + 1) found) c = rest ∧
      c₂.errors.toList <+: rest.2.errors.toList
  /-- What starts there with such a word is read next, and the errors found in it stay among those found. -/
  reads : Cursor.startsStatement c₂.peek.kind = true → ∀ done ∈ [Cursor.atEnd, Rule.bodyDone],
    ∀ (fuel : Nat) (found : List Stmt),
      let next := SureRule.outcome (Rule.declaration depth) c₂
      let rest := SureRule.outcome (Rule.sequence done (Rule.declaration depth) fuel (next.1.toList ++ found)) next.2
      SureRule.outcome (Rule.sequence done (Rule.declaration depth) (fuel + 1) found) c₂ = rest ∧
        next.2.errors.toList <+: rest.2.errors.toList

/-- The number of the token at which the error is found, by what is left there. -/
theorem Resumes.add_length {depth k : Nat} {c c₁ c₂ : Cursor} {e : SyntaxError} (h : Resumes depth c c₁ c₂ e k) :
    k + c₁.rest.length = c.rest.length := by
  obtain ⟨short, left⟩ := h.taken
  rw [left, List.length_drop]
  omega

/--
An error that stops a declaration, wherever it is found: the token at which it is found is skipped, whatever it is, and
what comes after it up to the next boundary. There reading goes on.
-/
theorem declaration_resumes {depth : Nat} {c c₁ : Cursor} {e : SyntaxError}
    (thrown : SureRule.outcome (Rule.attempt depth).run c = (.error e, c₁)) (valued : ¬e.site.Valueless) :
    ∃ k c₂, Resumes depth c c₁ c₂ e k := by
  have halts := Rule.attempt_halts depth c
  obtain ⟨taken, whole, live⟩ : c.Onward c₁ := by
    have onward := halts.keeps.onward
    rwa [thrown] at onward
  have site : e.site = c₁.peek := by
    have site := halts.site e (by rw [thrown])
    rw [thrown] at site
    exact site.resolve_right valued
  have left : c.rest.drop taken.length = c₁.rest := by rw [whole, List.drop_left]
  have before : c.rest.take taken.length = taken := by rw [whole, List.take_left]
  have dropped : SureRule.outcome (Rule.declaration depth) c = (none, (c₁.record e).recover) := by
    rw [Rule.declaration_eq, Rule.outcome_recovering, thrown]
  have keeps (done : Cursor → Bool) (fuel : Nat) (found : List Stmt) (c : Cursor) :=
    (Rule.sequence_keeps done (Rule.declaration_keeps depth) fuel found c).errors
  refine ⟨taken.length, (c₁.record e).recover, ?_⟩
  exact
    { taken := ⟨by rw [whole, List.length_append]; exact Nat.le_add_right _ _, left.symm⟩
      live := by rwa [before]
      site := by rw [left]; exact site
      dropped := dropped
      recorded := Cursor.errors_recover _
      boundary := by
        rw [Cursor.recover_rest, resumption_drop c.rest, ← List.drop_drop, left]
        rfl
      words := fun i t after before h => startsStatement_of_lt_resumption after before h
      goesOn := fun done fuel found go => by
        refine ⟨?_, keeps done fuel found _⟩
        rw [Rule.outcome_sequence go, dropped]
        rfl
      reads := fun starts done hd fuel found =>
        ⟨Rule.outcome_sequence (Cursor.not_done_of_starts starts hd) _ fuel found, keeps done fuel _ _⟩ }

/-- The error that stops a rule, if one does. -/
def Rule.error? {α : Type} (r : Rule α) (c : Cursor) : Option SyntaxError :=
  match (SureRule.outcome r.run c).1 with
  | .error e => some e
  | .ok _ => none

theorem Rule.outcome_of_error? {α : Type} {r : Rule α} {c : Cursor} {e : SyntaxError} (h : r.error? c = some e) :
    SureRule.outcome r.run c = (.error e, (SureRule.outcome r.run c).2) := by
  unfold error? at h
  cases hout : SureRule.outcome r.run c with | mk result c₁
  rw [hout] at h
  cases result with
  | ok a => cases h
  | error e' =>
    cases h
    rfl

/-- A parenthesis is missing in front of a body. The brace is skipped and the statement after it is read, and so is the
declaration after that; something is missing in both. -/
theorem declaration_resumes_parameters :
    let tokens := (scan "fun f(a \x7b print 1 \x7d\nvar = 2;").tokens
    (Rule.attempt tokens.length).error? (.start tokens) =
        some ⟨.missing .parametersEnd, ⟨.leftBrace, "\x7b", none, 1⟩⟩ ∧
      (∃ c₁ c₂ e, Resumes tokens.length (.start tokens) c₁ c₂ e 4 ∧ c₂.rest = tokens.drop 5) ∧
      (tokens.drop 5).head?.map (·.kind) = some .printWord ∧
      (parse tokens).errors.map (·.fault) = [.missing .parametersEnd, .missing .printEnd, .missing .variableName] := by
  intro tokens
  have stopped : (Rule.attempt tokens.length).error? (.start tokens) =
      some ⟨.missing .parametersEnd, ⟨.leftBrace, "\x7b", none, 1⟩⟩ := by decide +kernel
  obtain ⟨k, c₂, resumes⟩ := declaration_resumes (Rule.outcome_of_error? stopped) (fun h => h.1.elim nofun nofun)
  have numbers : tokens.length = 13 ∧ resumption tokens 4 = 5 ∧
      (SureRule.outcome (Rule.attempt tokens.length).run (.start tokens)).2.rest.length = 9 := by decide +kernel
  have fourth : k = 4 := by
    have length : k + _ = tokens.length := resumes.add_length
    omega
  subst fourth
  have boundary : c₂.rest = tokens.drop (resumption tokens 4) := resumes.boundary
  rw [numbers.2.1] at boundary
  exact ⟨stopped, ⟨_, c₂, _, resumes, boundary⟩, by decide +kernel, by decide +kernel⟩

/-- A semicolon is missing, and the word at which that is found starts a statement, so it would be the next boundary. It is
skipped, with what comes after it up to a semicolon; the error in that statement is not found. -/
theorem declaration_skips_word :
    let tokens := (scan "print 1\nprint ;").tokens
    (Rule.attempt tokens.length).error? (.start tokens) = some ⟨.missing .printEnd, ⟨.printWord, "print", none, 2⟩⟩ ∧
      min (min (firstFrom (· == .semicolon) tokens 2 + 1) (firstFrom Cursor.startsStatement tokens 2))
        (firstFrom (· == .endOfInput) tokens 2) = 2 ∧
      (SureRule.outcome (Rule.attempt tokens.length).run (.start tokens)).2.rest = tokens.drop 2 ∧
      (SureRule.outcome (Rule.declaration tokens.length) (.start tokens)).2.rest = tokens.drop 4 ∧
      (parse tokens).errors.map (·.fault) = [.missing .printEnd] ∧
      (parse (tokens.drop 2)).errors.map (·.fault) = [.missingExpression] := by
  decide +kernel

/-- A constant without a value is taken before its value is asked for. So when that is missing, the token that is skipped is
the one after it, which may be the first word of a statement: the statement is lost, although nothing is wrong with it. This
is why the token at which the error is found must not be such a constant. -/
theorem valueless_skips_statement :
    let constant : Token := ⟨.number, "2", none, 1⟩
    let tokens := constant :: (scan "print 1;").tokens
    let stopped := (SureRule.outcome (Rule.attempt tokens.length).run (.start tokens)).2
    (Rule.attempt tokens.length).error? (.start tokens) = some ⟨.missingExpression, constant⟩ ∧ constant.Valueless ∧
      tokens[1]?.map (·.kind) = some .printWord ∧ resumption tokens 0 = 1 ∧
      (SureRule.outcome (Rule.declaration tokens.length) (.start tokens)).2.rest = tokens.drop 4 ∧
      (parse tokens).statements.isEmpty ∧ (parse (tokens.drop 1)).errors = [] ∧
      ∀ c₂ k, ¬Resumes tokens.length (.start tokens) stopped c₂ ⟨.missingExpression, constant⟩ k := by
  intro constant tokens stopped
  have error : (Rule.attempt tokens.length).error? (.start tokens) = some ⟨.missingExpression, constant⟩ := by
    decide +kernel
  refine ⟨error, ⟨.inl rfl, rfl⟩, by decide +kernel, by decide +kernel, by decide +kernel, by decide +kernel,
    by decide +kernel, fun c₂ k resumes => ?_⟩
  have numbers : tokens.length = 5 ∧ stopped.rest.length = 4 := by decide +kernel
  -- the constant is taken, so the error would have to be found at the word after it
  have first : k = 1 := by
    have length : k + stopped.rest.length = tokens.length := resumes.add_length
    omega
  subst first
  have site : constant = (tokens.drop 1).headD .missing := resumes.site
  have other : constant ≠ (tokens.drop 1).headD .missing := by decide +kernel
  exact other site

end Lox
