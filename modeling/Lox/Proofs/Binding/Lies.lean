/-
How the scopes that are open at a part lie to those that are open at the whole: either they are the same up to
names that were completed in between, or the part stands in scopes of its own.
-/
import Lox.Proofs.Binding.Visit

namespace Lox

/-- The names that a part of a program declares in the scope it stands in. -/
def Code.declared : Code → List String
  | stmt s => s.declared
  | stmts ss => Stmt.declaredAll ss
  | expr _ | exprs _ | routine _ | methods _ => []

/-- Whether a part of a program computes values and declares nothing. -/
def Code.IsExpr : Code → Prop
  | expr _ | exprs _ => True
  | stmt _ | stmts _ | routine _ | methods _ => False

theorem Stop.scopes_after (x : Stop) : x.after.scopes = settle x.code.declared x.walk.scopes := by
  obtain ⟨code, a, w, d⟩ := x
  cases code with
  | expr e => simp [after, Code.walk, Code.declared]
  | exprs es => simp [after, Code.walk, Code.declared]
  | stmt s => exact s.scopes_walk a w
  | stmts ss => exact Stmt.scopes_walkAll a ss w
  | routine r => simp [after, Code.walk, Code.declared, scopes_walkRoutine]
  | methods rs => simp [after, Code.walk, Code.declared, scopes_walkMethods]

/-! ## Declared names can be names -/

theorem Stmt.Formed.declared {s : Stmt} (h : s.Formed) : ∀ n ∈ s.declared, Nameable n := by
  intro n hn
  cases s with
  | expression _ | print _ | block _ | ret _ _ => exact absurd hn List.not_mem_nil
  | varDecl name _ | funDecl r =>
    cases List.mem_singleton.1 hn
    exact h.1
  | classDecl name superclass _ =>
    cases List.mem_singleton.1 hn
    cases superclass with
    | none | some _ => exact h.1
  | ifElse _ yes no =>
    cases no with
    | none => exact absurd (h.2.2 ▸ hn) List.not_mem_nil
    | some no =>
      rcases List.mem_append.1 hn with hn | hn
      · exact absurd (h.2.1.2 ▸ hn) List.not_mem_nil
      · exact absurd (h.2.2.2 ▸ hn) List.not_mem_nil
  | whileDo _ body => exact absurd (h.2.2 ▸ hn) List.not_mem_nil

theorem Stmt.FormedAll.declared : ∀ {ss : List Stmt}, Stmt.FormedAll ss → ∀ n ∈ Stmt.declaredAll ss, Nameable n
  | s :: ss, h, n, hn => by
    rcases List.mem_append.1 hn with hn | hn
    · exact h.1.declared n hn
    · exact Stmt.FormedAll.declared h.2 n hn

theorem Code.Formed.declared {c : Code} (h : c.Formed) : ∀ n ∈ c.declared, Nameable n := by
  cases c with
  | stmt s => exact Stmt.Formed.declared h
  | stmts ss => exact Stmt.FormedAll.declared h
  | expr _ | exprs _ | routine _ | methods _ => exact fun _ hn => absurd hn List.not_mem_nil

/-! ## Scopes of parts -/

namespace Stop

/-- How the scopes at the part `y` lie to those at `x`. -/
inductive Lies (x y : Stop) : Prop
  /-- The part stands in the same scopes, where some names were completed before it and others are after it, if it is
  a statement in a list. -/
  | along (names more : List String) (expr : x.code.IsExpr → y.code.IsExpr)
      (declared : x.code.declared = names ++ (y.code.declared ++ more))
      (rest : x.code.Formed → more = [] ∨
        ∃ s ss, x.code = .stmts (s :: ss) ∧ y.code = .stmt s ∧ more = Stmt.declaredAll ss)
      (scopes : y.walk.scopes = settle names x.walk.scopes) (whole : y.whole = x.whole)
      (home : y.around.home = x.around.home ∨ ∃ e, y.code = .expr e ∧ (x.code.Formed → e.NamesClass))
  /-- The part is the value with which a variable is declared. -/
  | initial (name : Token) (e : Expr) (var : x.code = .stmt (.varDecl name (some e)))
      (part : y = ⟨.expr e, x.around, x.walk.declare name, x.whole⟩)
  /-- The part is the body of a block or of a routine. -/
  | body (names : List String) (opens : ¬ x.code.IsExpr) (declared : x.code.declared = [])
      (nameable : x.code.Formed → ∀ n ∈ names, Nameable n)
      (scopes : y.walk.scopes = Declarations.complete names .empty :: x.walk.scopes)
      (whole : y.whole = y.after.innermost :: x.whole) (around : y.around = x.around)
  /-- The part is the methods of a class without a superclass. -/
  | methods (name : String) (declared : x.code.declared = [name])
      (scopes : y.walk.scopes = Bindings.empty.set thisName true :: settle [name] x.walk.scopes)
      (whole : y.whole = y.after.innermost :: x.whole) (home : y.around.home = .plainClass)
  /-- The part is the methods of a class with a superclass. -/
  | inheriting (name : String) (declared : x.code.declared = [name])
      (scopes : y.walk.scopes = Bindings.empty.set thisName true :: Bindings.empty.set superName true ::
        settle [name] x.walk.scopes)
      (whole : y.whole = y.after.innermost :: y.after.closeScope.innermost :: x.whole)
      (home : y.around.home = .subclass)

/-- A part in the same scopes before which nothing is declared. -/
theorem Lies.same {x y : Stop} (more : List String) (expr : x.code.IsExpr → y.code.IsExpr)
    (declared : x.code.declared = y.code.declared ++ more)
    (rest : x.code.Formed → more = [] ∨
      ∃ s ss, x.code = .stmts (s :: ss) ∧ y.code = .stmt s ∧ more = Stmt.declaredAll ss)
    (scopes : y.walk.scopes = x.walk.scopes) (whole : y.whole = x.whole)
    (home : y.around.home = x.around.home) : Lies x y :=
  .along [] more expr declared rest (by rw [scopes, settle_nil]) whole (.inl home)

/-- A part in the same scopes before and after which nothing is declared. -/
theorem Lies.alone {x y : Stop} (expr : x.code.IsExpr → y.code.IsExpr) (declared : x.code.declared = y.code.declared)
    (scopes : y.walk.scopes = x.walk.scopes) (whole : y.whole = x.whole)
    (home : y.around.home = x.around.home) : Lies x y :=
  .same [] expr (by rw [declared, List.append_nil]) (fun _ => .inl rfl) scopes whole home

theorem lies_exprParts {a : Surroundings} {w : Walk} {d : List Declarations} {e : Expr} {y : Stop}
    (h : y ∈ exprParts a w d e) : Lies ⟨.expr e, a, w, d⟩ y := by
  cases e with
  | literal _ | ref _ _ | self _ _ | super _ _ _ => exact absurd h List.not_mem_nil
  | unary _ e | group e | get e _ | assign _ _ e =>
    cases List.mem_singleton.1 h
    exact .alone (fun _ => trivial) rfl rfl rfl rfl
  | binary _ l r | logical _ l r | call f _ es | set o _ v =>
    obtain rfl | rfl := List.mem_pair.1 h
    · exact .alone (fun _ => trivial) rfl rfl rfl rfl
    · exact .alone (fun _ => trivial) rfl (Expr.scopes_walk _ _ _) rfl rfl

theorem lies_classParts {a : Surroundings} {w : Walk} {d : List Declarations} {name : Token}
    {rs : List (Routine Stmt)} {e : Option Expr} {y : Stop} (h : y ∈ classParts a w d name rs e) :
    Lies ⟨.stmt (.classDecl name e rs), a, w, d⟩ y := by
  cases e with
  | none =>
    cases List.mem_singleton.1 h
    exact .methods name.lexeme rfl (by simp) rfl rfl
  | some e =>
    obtain rfl | rfl := List.mem_pair.1 h
    · exact .along [name.lexeme] [] (fun _ => trivial) rfl (fun _ => .inl rfl) (by simp) rfl
        (.inr ⟨e, rfl, fun h => h.2.1⟩)
    · exact .inheriting name.lexeme rfl (by simp) rfl rfl

theorem lies_stmtParts {a : Surroundings} {w : Walk} {d : List Declarations} {s : Stmt} {y : Stop}
    (h : y ∈ stmtParts a w d s) : Lies ⟨.stmt s, a, w, d⟩ y := by
  cases s with
  | expression e | print e =>
    cases List.mem_singleton.1 h
    exact .alone (fun _ => trivial) rfl rfl rfl rfl
  | varDecl name initial =>
    cases initial with
    | none => exact absurd h List.not_mem_nil
    | some e =>
      cases List.mem_singleton.1 h
      exact .initial name e rfl rfl
  | block body =>
    cases List.mem_singleton.1 h
    exact .body [] id rfl (by simp) rfl rfl rfl
  | ifElse c yes no =>
    cases no with
    | none =>
      obtain rfl | rfl := List.mem_pair.1 h
      · exact .same yes.declared (fun _ => trivial) rfl (fun h => .inl h.2.2) rfl rfl rfl
      · exact .alone id rfl (Expr.scopes_walk _ _ _) rfl rfl
    | some no =>
      simp only [stmtParts, List.mem_cons, List.not_mem_nil, or_false] at h
      obtain rfl | rfl | rfl := h
      · exact .same (yes.declared ++ no.declared) (fun _ => trivial) rfl
          (fun h => .inl (by rw [h.2.1.2, h.2.2.2]; rfl)) rfl rfl rfl
      · exact .same no.declared id rfl (fun h => .inl h.2.2.2) (Expr.scopes_walk _ _ _) rfl rfl
      · exact .along yes.declared [] id (by simp [Code.declared, Stmt.declared]) (fun _ => .inl rfl)
          (by simp [Stmt.scopes_walk]) rfl (.inl rfl)
  | whileDo c body =>
    obtain rfl | rfl := List.mem_pair.1 h
    · exact .same body.declared (fun _ => trivial) rfl (fun h => .inl h.2.2) rfl rfl rfl
    · exact .alone id rfl (Expr.scopes_walk _ _ _) rfl rfl
  | funDecl r =>
    cases List.mem_singleton.1 h
    exact .along [r.name.lexeme] [] id rfl (fun _ => .inl rfl) (by simp) rfl (.inl rfl)
  | ret k value =>
    cases value with
    | none => exact absurd h List.not_mem_nil
    | some e =>
      cases List.mem_singleton.1 h
      exact .alone (fun _ => trivial) rfl (by simp) rfl rfl
  | classDecl name superclass rs => exact lies_classParts h

theorem lies_of_mem_parts {x y : Stop} (h : y ∈ x.parts) : Lies x y := by
  obtain ⟨code, a, w, d⟩ := x
  cases code with
  | expr e => exact lies_exprParts h
  | stmt s => exact lies_stmtParts h
  | exprs es =>
    cases es with
    | nil => exact absurd h List.not_mem_nil
    | cons e es =>
      obtain rfl | rfl := List.mem_pair.1 h
      · exact .alone (fun _ => trivial) rfl rfl rfl rfl
      · exact .alone (fun _ => trivial) rfl (Expr.scopes_walk _ _ _) rfl rfl
  | stmts ss =>
    cases ss with
    | nil => exact absurd h List.not_mem_nil
    | cons s ss =>
      obtain rfl | rfl := List.mem_pair.1 h
      · exact .same (Stmt.declaredAll ss) id rfl (fun _ => .inr ⟨s, ss, rfl, rfl, rfl⟩) rfl rfl rfl
      · exact .along s.declared [] id (by simp [Code.declared, Stmt.declaredAll]) (fun _ => .inl rfl)
          (s.scopes_walk a w) rfl (.inl rfl)
  | routine r =>
    obtain ⟨name, parameters, body⟩ := r
    cases List.mem_singleton.1 h
    refine .body (parameters.map (·.lexeme)) id rfl (fun h n hn => ?_) (by simp [settle]) rfl rfl
    obtain ⟨p, hp, rfl⟩ := List.mem_map.1 hn
    exact h.1 p hp
  | methods rs =>
    cases rs with
    | nil => exact absurd h List.not_mem_nil
    | cons r rs =>
      obtain rfl | rfl := List.mem_pair.1 h
      · exact .alone id rfl rfl rfl rfl
      · exact .alone id rfl (scopes_walkRoutine _ _ _) rfl rfl

/-! ## Parts of expressions -/

/-- An expression declares nothing. -/
theorem declared_of_isExpr {x : Stop} (hx : x.code.IsExpr) : x.code.declared = [] := by
  cases hc : x.code <;> rw [hc] at hx <;> first | rfl | exact hx.elim

theorem not_isExpr_of_declared {x : Stop} {name : String} (h : x.code.declared = [name]) : ¬ x.code.IsExpr := by
  intro hx
  rw [declared_of_isExpr hx] at h
  cases h

/-- The parts of an expression are expressions, and stand in its scopes. -/
theorem Lies.of_isExpr {x y : Stop} (h : Lies x y) (hx : x.code.IsExpr) :
    y.code.IsExpr ∧ y.walk.scopes = x.walk.scopes := by
  cases h with
  | along names more expr declared rest scopes whole home =>
    rw [declared_of_isExpr hx] at declared
    refine ⟨expr hx, ?_⟩
    rw [scopes, (List.append_eq_nil_iff.1 declared.symm).1, settle_nil]
  | initial name e var part =>
    rw [var] at hx
    exact hx.elim
  | body names opens declared nameable scopes whole around => exact absurd hx opens
  | methods name declared scopes whole home => exact absurd hx (not_isExpr_of_declared declared)
  | inheriting name declared scopes whole home => exact absurd hx (not_isExpr_of_declared declared)

end Stop

end Lox
