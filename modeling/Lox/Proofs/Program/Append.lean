/-
Programs one after another. Tokens in which nothing is wrong, with others after them, are read as what the former are
read as and then what the latter are read as, with its uses counted on from where those of the former end; what is wrong
with the latter is found as if nothing came before it (`parse_append`). Only an `else` could reach back, to an `if` that
the former end in.
-/
import Lox.Proofs.Grammar.ExtendsProgram
import Lox.Proofs.Grammar.TakesProgram
import Lox.Proofs.Lines.Grammar
import Lox.Token.Stream

namespace Lox

/-! ## Declarations up to the end -/

namespace Rule

variable {n n' fuel fuel' : Nat} {c c' : Cursor} {q : List Token}

/-- What a sequence gives comes after what was found before. -/
theorem sequence_found {α : Type} (done : Cursor → Bool) (r : SureRule (Option α)) :
    ∀ (fuel : Nat) (found : List α) (c : Cursor), SureRule.outcome (sequence done r fuel found) c =
      (found.reverse ++ (SureRule.outcome (sequence done r fuel []) c).1,
        (SureRule.outcome (sequence done r fuel []) c).2) := by
  intro fuel
  induction fuel with
  | zero =>
    intro found c
    exact Prod.ext (List.append_nil _).symm rfl
  | succ fuel ih =>
    intro found c
    by_cases h : done c = true
    · rw [outcome_sequence_of_done h, outcome_sequence_of_done h]
      exact Prod.ext (List.append_nil _).symm rfl
    · rw [outcome_sequence h, outcome_sequence h, ih, ih ((SureRule.outcome r c).1.toList ++ [])]
      simp

theorem declarations_of_atEnd (h : c.atEnd = true) : declarations n fuel c = ([], c) :=
  outcome_sequence_of_done h _ fuel []

theorem declarations_succ (h : ¬c.atEnd = true) : declarations n (fuel + 1) c =
    let first := SureRule.outcome (declaration n) c
    (first.1.toList ++ (declarations n fuel first.2).1, (declarations n fuel first.2).2) := by
  have once : ∀ o : Option Stmt, o.toList.reverse = o.toList := by rintro (_ | _) <;> rfl
  rw [declarations, outcome_sequence h, List.append_nil, sequence_found, once]
  rfl

end Rule

/-! ## The first program -/

/-- The second reading goes on after the end of the first. -/
def Extension.on (q : List Token) : Extension := ⟨fun _ => True, q, 0⟩

/-- The second reading counts uses from further up, and is the same otherwise. -/
def Extension.up (k : UseId) : Extension := ⟨fun _ => True, [], k⟩

theorem Extension.within_on (q : List Token) (c : Cursor) : (Extension.on q).Within c :=
  ⟨fun _ _ => trivial, .inl trivial, fun _ _ => trivial⟩

theorem Extension.within_up (k : UseId) (c : Cursor) : (Extension.up k).Within c :=
  ⟨fun _ _ => trivial, .inl trivial, fun _ _ => trivial⟩

namespace Rule

variable {n n' : Nat} {q : List Token}

/-- Where nothing is wrong with the tokens of the first reading, the second reads the same from them and goes on with its
own. -/
theorem declarations_on (other : HeadNot (· = .elseWord) q) : ∀ (fuel fuel' : Nat) (c c' : Cursor),
    (Extension.on q).Beside c c' → (∀ t ∈ c.rest, t.kind ≠ .endOfInput) → c.rest.length ≤ n →
    c.rest.length + q.length ≤ n' → c.rest.length ≤ fuel → c.rest.length + q.length ≤ fuel' →
    (declarations n fuel c).2.errors = #[] →
    ∃ fuel₁ c₁, q.length ≤ fuel₁ ∧ c₁.rest = q ∧ (Extension.on q).Beside (declarations n fuel c).2 c₁ ∧
      declarations n' fuel' c' =
        ((declarations n fuel c).1 ++ (declarations n' fuel₁ c₁).1, (declarations n' fuel₁ c₁).2) := by
  intro fuel
  induction fuel with
  | zero =>
    intro fuel' c c' beside _ _ _ enough enough' _
    have hr : c.rest = [] := List.eq_nil_of_length_eq_zero (by omega)
    exact ⟨fuel', c', by omega, by rw [beside.rest, hr]; rfl, beside, rfl⟩
  | succ fuel ih =>
    intro fuel' c c' beside endless deep deep' enough enough' clean
    by_cases hr : c.rest = []
    · rw [declarations_of_atEnd (Cursor.atEnd_of_nil hr)]
      exact ⟨fuel', c', by omega, by rw [beside.rest, hr]; rfl, beside, rfl⟩
    · obtain ⟨fuel', rfl⟩ : ∃ k, fuel' = k + 1 := ⟨fuel' - 1, by have := List.length_pos_iff.2 hr; omega⟩
      have go : ¬c.atEnd = true := by
        have := endless _ (Cursor.peek_mem hr)
        simpa [Cursor.atEnd] using this
      have go' : ¬c'.atEnd = true := by rwa [Cursor.atEnd_congr (beside.peek (.inl hr))]
      -- the first declaration is read in the same way, for nothing wrong is found in it
      have first := (program_extends (x := .on q) other c.rest.length deep deep').2 c (Nat.lt_succ_self _)
        (Extension.within_on q c)
      have taken : c.advance.rest.length < c.rest.length := Cursor.length_advance_lt (endless _ (Cursor.peek_mem hr))
      rw [declarations_succ go] at clean ⊢
      rw [declarations_succ go']
      cases hout : SureRule.outcome (declaration n) c with | mk o c₁
      rw [hout] at first clean
      have short : c₁.rest.length ≤ c.advance.rest.length := first.left
      have deep₁ : c₁.rest.length ≤ n := by omega
      have deep₁' : c₁.rest.length + q.length ≤ n' := by omega
      have enough₁ : c₁.rest.length ≤ fuel := by omega
      have enough₁' : c₁.rest.length + q.length ≤ fuel' := by omega
      have later := (declarations_extends other deep₁ deep₁' enough₁ enough₁' (Extension.within_on q c₁)).moves
      rcases first.same c' beside with ⟨-, wrong | ⟨ahead, -⟩⟩ | ⟨result, beside₁⟩
      · exact absurd (later.clean clean) wrong
      · cases ahead
      obtain ⟨fuel₁, c₂, enough₂, hrest, beside₂, go₂⟩ := ih fuel' c₁ _ beside₁
        (fun t ht => endless t (first.moves.rest.mem ht)) deep₁ deep₁' enough₁ enough₁' clean
      refine ⟨fuel₁, c₂, enough₂, hrest, beside₂, ?_⟩
      have same : (SureRule.outcome (declaration n') c').1 = o := by
        rw [result]
        show Option.map (Stmt.raise 0) o = o
        cases o with
        | none => rfl
        | some s => rw [Option.map_some, s.raise_zero]
      show (_ ++ _, _) = (_ ++ _ ++ _, _)
      rw [same, go₂, List.append_assoc]

end Rule

/-! ## Both programs -/

/-- A program in which nothing is wrong, with another one after it. -/
theorem parse_append {p q : List Token} (endless : ∀ t ∈ p, t.kind ≠ .endOfInput) (clean : (parse p).errors = [])
    (other : HeadNot (· = .elseWord) q) :
    parse (p ++ q) =
      ⟨(parse p).statements ++ Stmt.raiseAll (parse p).uses (parse q).statements, (parse q).errors,
        (parse p).uses + (parse q).uses⟩ := by
  have clean : (Rule.declarations p.length p.length (.start p)).2.errors = #[] := Array.toList_eq_nil_iff.1 clean
  have length : p.length + q.length ≤ (p ++ q).length := Nat.le_of_eq List.length_append.symm
  have start : (Extension.on q).Beside (.start p) (.start (p ++ q)) := ⟨rfl, rfl, rfl⟩
  -- the whole is read as the first program and then from some cursor before the second
  obtain ⟨fuel, c, enough, hrest, last, go⟩ := Rule.declarations_on other p.length (p ++ q).length _ _ start endless
    (Nat.le_refl p.length) length (Nat.le_refl _) length clean
  -- and from there as the second program is on its own
  have beside : (Extension.up (parse p).uses).Beside (.start q) c := by
    refine ⟨by rw [hrest]; exact (List.append_nil q).symm, ?_, last.errors.trans clean⟩
    rw [last.uses]
    exact Nat.add_comm _ _
  have deep : q.length + 0 ≤ (p ++ q).length := by omega
  have second := Rule.declarations_extends (x := .up (parse p).uses) (fun _ ht => by cases ht) (Nat.le_refl q.length)
    deep (Nat.le_refl q.length) enough (Extension.within_up _ (.start q))
  rcases second.same c beside with ⟨none, -⟩ | ⟨statements, after⟩
  · exact absurd rfl none
  rw [parse_eq_declarations (p ++ q), go, Stmt.raiseAll_eq]
  rw [Parse.mk.injEq]
  exact ⟨congrArg _ statements, congrArg Array.toList after.errors, after.uses.trans (Nat.add_comm _ _)⟩

/-- After an `if`, a statement without an expression is found, and the one after it is read all the same. -/
theorem parse_append_faulty :
    let p := beforeEnd (scan "if (a) print b;").tokens
    let q := (scan "print ; c;").tokens
    (∀ t ∈ p, t.kind ≠ .endOfInput) ∧ (parse p).errors = [] ∧ (parse p).uses = 2 ∧
      (parse (p ++ q)).statements = (parse p).statements ++ Stmt.raiseAll 2 (parse q).statements ∧
      (parse (p ++ q)).errors.map (·.fault) = [.missingExpression] ∧ (parse (p ++ q)).uses = 3 := by
  intro p q
  have endless : ∀ t ∈ p, t.kind ≠ .endOfInput := by decide +kernel
  have clean : (parse p).errors = [] ∧ (parse p).uses = 2 := by decide +kernel
  have other : HeadNot (· = .elseWord) q := by
    unfold HeadNot
    decide +kernel
  have faulty : (parse q).errors.map (·.fault) = [.missingExpression] ∧ (parse q).uses = 1 := by decide +kernel
  have both := parse_append endless clean.1 other
  rw [clean.2, faulty.2] at both
  rw [both]
  exact ⟨endless, clean.1, clean.2, rfl, faulty.1, rfl⟩

end Lox
