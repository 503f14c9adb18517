/-
The stops of a walk: each part of a program with what surrounds it, the state in which the walk comes to it,
and what the scopes that are open there hold when they are closed. The stops of a program are those that its
statements lead to, part by part (`Visits`).

If the program breaks no rule and its uses are numbered apart, then at every stop the walk through the part
finds no error, and the table made in the end has for the uses of the part just what this walk entered
(`Checked`).
-/
import Lox.Proofs.Binding.Leads
import Lox.Proofs.Binding.Scopes
import Mathlib.Data.List.Basic
import Mathlib.Logic.Relation

namespace Lox

/-! ## Stops -/

/-- Walks through a part of a program. -/
def Code.walk (a : Surroundings) : Code → Walk → Walk
  | expr e, w => e.walk a.home w
  | exprs es, w => Expr.walkAll a.home es w
  | stmt s, w => s.walk a w
  | stmts ss, w => Stmt.walkAll a ss w
  | routine r, w => walkRoutine a r w
  | methods rs, w => walkMethods a.home rs w

/-- What the innermost scope holds. -/
def Walk.innermost (w : Walk) : Declarations := w.scopes.headD .empty

/-- A part of a program, what surrounds it, the state in which the walk comes to it, and for each scope that is
open there, the innermost first, what it holds when it is closed. -/
structure Stop where
  code : Code
  around : Surroundings
  walk : Walk
  whole : List Declarations

namespace Stop

/-- The start of the walk through a program. -/
def start (statements : List Stmt) : Stop := ⟨.stmts statements, .outermost, .start, []⟩

/-- The state after the walk through the part. -/
def after (x : Stop) : Walk := x.code.walk x.around x.walk

/-- The stops at the parts of an expression, in the order of the walk. -/
def exprParts (a : Surroundings) (w : Walk) (d : List Declarations) : Expr → List Stop
  | .unary _ e => [⟨.expr e, a, w, d⟩]
  | .binary _ l r => [⟨.expr l, a, w, d⟩, ⟨.expr r, a, l.walk a.home w, d⟩]
  | .logical _ l r => [⟨.expr l, a, w, d⟩, ⟨.expr r, a, l.walk a.home w, d⟩]
  | .group e => [⟨.expr e, a, w, d⟩]
  | .assign _ _ e => [⟨.expr e, a, w, d⟩]
  | .call f _ es => [⟨.expr f, a, w, d⟩, ⟨.exprs es, a, f.walk a.home w, d⟩]
  | .get o _ => [⟨.expr o, a, w, d⟩]
  | .set o _ v => [⟨.expr v, a, w, d⟩, ⟨.expr o, a, v.walk a.home w, d⟩]
  | .literal _ | .ref _ _ | .self _ _ | .super _ _ _ => []

/-- The stop at an expression that may be missing. -/
def optionParts (a : Surroundings) (w : Walk) (d : List Declarations) (e : Option Expr) : List Stop :=
  e.toList.map (⟨.expr ·, a, w, d⟩)

/-- The stops at the parts of a class. The methods stand in a scope for `this`, and with a superclass there is
one for `super` around it. -/
def classParts (a : Surroundings) (w : Walk) (d : List Declarations) (name : Token) (rs : List (Routine Stmt)) :
    Option Expr → List Stop
  | none =>
    let inside := (w.introduce name).openWordScope thisName
    [⟨.methods rs, { a with home := .plainClass }, inside, (walkMethods .plainClass rs inside).innermost :: d⟩]
  | some e =>
    let before := (w.introduce name).checkSuperclass name e
    let inside := ((e.walk .subclass before).openWordScope superName).openWordScope thisName
    let last := walkMethods .subclass rs inside
    [⟨.expr e, { a with home := .subclass }, before, d⟩,
      ⟨.methods rs, { a with home := .subclass }, inside, last.innermost :: last.closeScope.innermost :: d⟩]

/-- The stops at the parts of a statement, in the order of the walk. -/
def stmtParts (a : Surroundings) (w : Walk) (d : List Declarations) : Stmt → List Stop
  | .expression e => [⟨.expr e, a, w, d⟩]
  | .print e => [⟨.expr e, a, w, d⟩]
  | .varDecl name initial => optionParts a (w.declare name) d initial
  | .block body => [⟨.stmts body, a, w.openScope, (Stmt.walkAll a body w.openScope).innermost :: d⟩]
  | .ifElse c yes none => [⟨.expr c, a, w, d⟩, ⟨.stmt yes, a, c.walk a.home w, d⟩]
  | .ifElse c yes (some no) =>
    [⟨.expr c, a, w, d⟩, ⟨.stmt yes, a, c.walk a.home w, d⟩, ⟨.stmt no, a, yes.walk a (c.walk a.home w), d⟩]
  | .whileDo c body => [⟨.expr c, a, w, d⟩, ⟨.stmt body, a, c.walk a.home w, d⟩]
  | .funDecl r => [⟨.routine r, { a with body := .function }, w.introduce r.name, d⟩]
  | .ret k value => optionParts a (w.checkReturn a.body k value.isSome) d value
  | .classDecl name superclass rs => classParts a w d name rs superclass

/-- The stop at the body of a routine, which shares a scope with the parameters. -/
def routineParts (a : Surroundings) (w : Walk) (d : List Declarations) (r : Routine Stmt) : List Stop :=
  let inside := r.parameters.foldl Walk.introduce w.openScope
  [⟨.stmts r.body, a, inside, (Stmt.walkAll a r.body inside).innermost :: d⟩]

/-- The stops at the parts of a part, in the order of the walk. -/
def parts (x : Stop) : List Stop :=
  match x.code with
  | .expr e => exprParts x.around x.walk x.whole e
  | .exprs [] => []
  | .exprs (e :: es) =>
    [⟨.expr e, x.around, x.walk, x.whole⟩, ⟨.exprs es, x.around, e.walk x.around.home x.walk, x.whole⟩]
  | .stmt s => stmtParts x.around x.walk x.whole s
  | .stmts [] => []
  | .stmts (s :: ss) =>
    [⟨.stmt s, x.around, x.walk, x.whole⟩, ⟨.stmts ss, x.around, s.walk x.around x.walk, x.whole⟩]
  | .routine r => routineParts x.around x.walk x.whole r
  | .methods [] => []
  | .methods (r :: rs) =>
    let inside : Surroundings := ⟨r.methodBody, x.around.home⟩
    [⟨.routine r, inside, x.walk, x.whole⟩, ⟨.methods rs, x.around, walkRoutine inside r x.walk, x.whole⟩]

end Stop

/-- The walk through a program comes to this stop. -/
def Visits (statements : List Stmt) (x : Stop) : Prop :=
  Relation.ReflTransGen (fun x y => y ∈ x.parts) (.start statements) x

theorem Visits.start (statements : List Stmt) : Visits statements (.start statements) := .refl

theorem Visits.part {statements : List Stmt} {x y : Stop} (h : Visits statements x) (hy : y ∈ x.parts) :
    Visits statements y := h.tail hy

/-- What holds at the start of a walk and goes from a stop to the stops at its parts holds at every stop. -/
theorem Visits.induct {statements : List Stmt} {P : Stop → Prop} (base : P (.start statements))
    (step : ∀ x, P x → ∀ y ∈ x.parts, P y) {x : Stop} (h : Visits statements x) : P x := by
  induction h with
  | refl => exact base
  | tail _ hy ih => exact step _ ih _ hy

/-! ## From a part to the whole -/

namespace Stop

/-- The walk through a part of `x` as a section of the walk through `x`. -/
def Section (x y : Stop) : Prop :=
  ∃ before after, x.code.uses = before ++ (y.code.uses ++ after) ∧
    Walk.Leads before x.walk y.walk ∧ Walk.Leads after y.after x.after

/-- A section that comes first, before a part with `rest`. -/
theorem Section.first {x y : Stop} {rest : List UseId} (hU : x.code.uses = y.code.uses ++ rest)
    (hW : Walk.Leads [] x.walk y.walk) (hR : Walk.Leads rest y.after x.after) : Section x y :=
  ⟨[], rest, hU, hW, hR⟩

/-- A section that comes last, after a part with `rest`. -/
theorem Section.last {x y : Stop} {rest : List UseId} (hU : x.code.uses = rest ++ y.code.uses)
    (hW : Walk.Leads rest x.walk y.walk) (hR : Walk.Leads [] y.after x.after) : Section x y :=
  ⟨rest, [], by rw [hU, List.append_nil], hW, hR⟩

/-- A section that is all there is. -/
theorem Section.only {x y : Stop} (hU : x.code.uses = y.code.uses)
    (hW : Walk.Leads [] x.walk y.walk) (hR : Walk.Leads [] y.after x.after) : Section x y :=
  .last (by rw [hU, List.nil_append]) hW hR

theorem section_exprParts {a : Surroundings} {w : Walk} {d : List Declarations} {e : Expr} {y : Stop}
    (h : y ∈ exprParts a w d e) : Section ⟨.expr e, a, w, d⟩ y := by
  cases e with
  | literal _ | ref _ _ | self _ _ | super _ _ _ => exact absurd h List.not_mem_nil
  | unary _ e | group e | get e _ =>
    cases List.mem_singleton.1 h
    exact .only rfl (.refl _) (.refl _)
  | assign id name e =>
    cases List.mem_singleton.1 h
    exact .first rfl (.refl _) (.bind _ id name.lexeme)
  | binary _ l r | logical _ l r =>
    obtain rfl | rfl := List.mem_pair.1 h
    · exact .first rfl (.refl _) (r.walk_leads _ _)
    · exact .last rfl (l.walk_leads _ _) (.refl _)
  | call f _ es =>
    obtain rfl | rfl := List.mem_pair.1 h
    · exact .first rfl (.refl _) (Expr.walkAll_leads _ es _)
    · exact .last rfl (f.walk_leads _ _) (.refl _)
  | set o _ v =>
    obtain rfl | rfl := List.mem_pair.1 h
    · exact .first rfl (.refl _) (o.walk_leads _ _)
    · exact .last rfl (v.walk_leads _ _) (.refl _)

theorem section_classParts {a : Surroundings} {w : Walk} {d : List Declarations} {name : Token}
    {rs : List (Routine Stmt)} {e : Option Expr} {y : Stop} (h : y ∈ classParts a w d name rs e) :
    Section ⟨.stmt (.classDecl name e rs), a, w, d⟩ y := by
  cases e with
  | none =>
    cases List.mem_singleton.1 h
    exact .only rfl ((Walk.Leads.introduce w name).trans (.openWordScope _ thisName)) (.closeScope _)
  | some e =>
    have start := (Walk.Leads.introduce w name).trans (.checkSuperclass _ name e)
    obtain rfl | rfl := List.mem_pair.1 h
    · exact .first rfl start (.inWords (walkMethods_leads .subclass rs _))
    · have outside := (start.trans (e.walk_leads .subclass _)).trans (.openWords _)
      exact .last rfl (by simpa using outside) ((Walk.Leads.closeScope _).trans (.closeScope _))

theorem section_stmtParts {a : Surroundings} {w : Walk} {d : List Declarations} {s : Stmt} {y : Stop}
    (h : y ∈ stmtParts a w d s) : Section ⟨.stmt s, a, w, d⟩ y := by
  cases s with
  | expression e | print e =>
    cases List.mem_singleton.1 h
    exact .only rfl (.refl _) (.refl _)
  | varDecl name initial =>
    cases initial with
    | none => exact absurd h List.not_mem_nil
    | some e =>
      cases List.mem_singleton.1 h
      exact .only rfl (.declare w name) (.define _ name)
  | block body =>
    cases List.mem_singleton.1 h
    exact .only rfl (.openScope w) (.closeScope _)
  | ifElse c yes no =>
    cases no with
    | none =>
      obtain rfl | rfl := List.mem_pair.1 h
      · exact .first rfl (.refl _) (yes.walk_leads _ _)
      · exact .last rfl (c.walk_leads _ _) (.refl _)
    | some no =>
      simp only [stmtParts, List.mem_cons, List.not_mem_nil, or_false] at h
      obtain rfl | rfl | rfl := h
      · exact .first rfl (.refl _) ((yes.walk_leads _ _).trans (no.walk_leads _ _))
      · exact ⟨c.uses, no.uses, rfl, c.walk_leads _ _, no.walk_leads _ _⟩
      · exact .last (by simp [Code.uses, Stmt.uses]) ((c.walk_leads _ _).trans (yes.walk_leads _ _)) (.refl _)
  | whileDo c body =>
    obtain rfl | rfl := List.mem_pair.1 h
    · exact .first rfl (.refl _) (body.walk_leads _ _)
    · exact .last rfl (c.walk_leads _ _) (.refl _)
  | funDecl r =>
    cases List.mem_singleton.1 h
    exact .only rfl (.introduce w r.name) (.refl _)
  | ret k value =>
    cases value with
    | none => exact absurd h List.not_mem_nil
    | some e =>
      cases List.mem_singleton.1 h
      exact .only rfl (.checkReturn w _ _ _) (.refl _)
  | classDecl name superclass rs => exact section_classParts h

/-- The walk through a part is a section of the walk through the whole. -/
theorem section_of_mem_parts {x y : Stop} (h : y ∈ x.parts) : Section x y := by
  obtain ⟨code, a, w, d⟩ := x
  cases code with
  | expr e => exact section_exprParts h
  | stmt s => exact section_stmtParts h
  | exprs es =>
    cases es with
    | nil => exact absurd h List.not_mem_nil
    | cons e es =>
      obtain rfl | rfl := List.mem_pair.1 h
      · exact .first rfl (.refl _) (Expr.walkAll_leads _ es _)
      · exact .last rfl (e.walk_leads _ _) (.refl _)
  | stmts ss =>
    cases ss with
    | nil => exact absurd h List.not_mem_nil
    | cons s ss =>
      obtain rfl | rfl := List.mem_pair.1 h
      · exact .first rfl (.refl _) (Stmt.walkAll_leads _ ss _)
      · exact .last rfl (s.walk_leads _ _) (.refl _)
  | routine r =>
    obtain ⟨name, parameters, body⟩ := r
    cases List.mem_singleton.1 h
    exact .only rfl ((Walk.Leads.openScope w).trans (.introduceAll parameters _)) (.closeScope _)
  | methods rs =>
    cases rs with
    | nil => exact absurd h List.not_mem_nil
    | cons r rs =>
      obtain rfl | rfl := List.mem_pair.1 h
      · exact .first rfl (.refl _) (walkMethods_leads _ rs _)
      · exact .last rfl (walkRoutine_leads _ r _) (.refl _)

end Stop

end Lox
