/-
When a part of a program on the left and one on the right are alike: they have the same form, and what they mention
and declare fits the links between the scopes around them. Only one thing has two forms. A loop over a variable, with
a binding for each pass on the left, is alike to the plain loop on the right.

Parts can be alike in more than one manner. As they are written, they have names; when they run, their uses have
entries in a table.
-/
import Lox.Proofs.Binding.Lies
import Lox.Proofs.Pair.Link
import Lox.Proofs.Tree.Free
import Mathlib.Data.List.Forall2

namespace Lox

/-- What is asked of the uses and the loops in parts that are alike. -/
structure Manner where
  /-- Of the use of a variable with its number and its names on both sides. -/
  use : List Link → UseId → String → String → Prop
  /-- Of the word `this`. -/
  self : List Link → UseId → Prop
  /-- Of the word `super`, which finds `this` too. -/
  super : List Link → UseId → Prop
  /-- Of a `for` loop over a variable, which is plain on the right. -/
  loops : Prop
  /-- Of the uses that a pass of a loop has of its own, numbered from here on. Around the copy of the variable there
  are so many scopes, the last of them the one with the variable itself. -/
  copies : UseId → Nat → Prop

namespace ForLoop

/-- How many scopes a loop over a variable has around the copy of the variable. -/
def scopesAround : Option Expr → Nat
  | none => 2
  | some _ => 3

/-- What decides whether a loop goes on. -/
def test (condition : Option Expr) : Expr := condition.getD (.literal (.bool true))

/-- The last clause of a loop as a statement, if there is one. -/
def lastClause : Option Expr → List Stmt
  | none => []
  | some e => [.expression e]

/-- A loop over a variable with a binding for each pass. -/
def copying (name : Token) (initial condition increment : Option Expr) (id : UseId) (body : Stmt) : Stmt :=
  whole (some (.varDecl name initial)) condition (withIncrement increment (pass id name body))

/-- A loop over a variable that has one binding. -/
def plain (name : Token) (initial condition increment : Option Expr) (body : Stmt) : Stmt :=
  .block [.varDecl name initial, .whileDo (test condition) (.block (body :: lastClause increment))]

end ForLoop

/-- Parts that are alike by way of the links between the scopes around them. -/
inductive Alike (c : Change) (manner : Manner) : List Link → Code → Code → Prop
  | literal {links} (value : Literal) : Alike c manner links (.expr (.literal value)) (.expr (.literal value))
  | unary {links e e'} (operator : Token) (h : Alike c manner links (.expr e) (.expr e')) :
      Alike c manner links (.expr (.unary operator e)) (.expr (.unary operator e'))
  | binary {links l l' r r'} (operator : Token) (left : Alike c manner links (.expr l) (.expr l'))
      (right : Alike c manner links (.expr r) (.expr r')) :
      Alike c manner links (.expr (.binary operator l r)) (.expr (.binary operator l' r'))
  | logical {links l l' r r'} (operator : Token) (left : Alike c manner links (.expr l) (.expr l'))
      (right : Alike c manner links (.expr r) (.expr r')) :
      Alike c manner links (.expr (.logical operator l r)) (.expr (.logical operator l' r'))
  | group {links e e'} (h : Alike c manner links (.expr e) (.expr e')) :
      Alike c manner links (.expr (.group e)) (.expr (.group e'))
  | ref {links id} {name name' : Token} (like : name.Like c name') (use : manner.use links id name.lexeme name'.lexeme) :
      Alike c manner links (.expr (.ref id name)) (.expr (.ref id name'))
  | assign {links id e e'} {name name' : Token} (like : name.Like c name')
      (use : manner.use links id name.lexeme name'.lexeme) (h : Alike c manner links (.expr e) (.expr e')) :
      Alike c manner links (.expr (.assign id name e)) (.expr (.assign id name' e'))
  | call {links f f' es es'} (paren : Token) (callee : Alike c manner links (.expr f) (.expr f'))
      (arguments : Alike c manner links (.exprs es) (.exprs es')) :
      Alike c manner links (.expr (.call f paren es)) (.expr (.call f' paren es'))
  | get {links e e'} (name : Token) (h : Alike c manner links (.expr e) (.expr e')) :
      Alike c manner links (.expr (.get e name)) (.expr (.get e' name))
  | set {links o o' v v'} (name : Token) (object : Alike c manner links (.expr o) (.expr o'))
      (value : Alike c manner links (.expr v) (.expr v')) :
      Alike c manner links (.expr (.set o name v)) (.expr (.set o' name v'))
  | self {links id} {keyword : Token} (word : keyword.lexeme = thisName) (use : manner.self links id) :
      Alike c manner links (.expr (.self id keyword)) (.expr (.self id keyword))
  | super {links id} (keyword method : Token) (use : manner.super links id) :
      Alike c manner links (.expr (.super id keyword method)) (.expr (.super id keyword method))
  | noExprs {links} : Alike c manner links (.exprs []) (.exprs [])
  | moreExprs {links e e' es es'} (first : Alike c manner links (.expr e) (.expr e'))
      (rest : Alike c manner links (.exprs es) (.exprs es')) :
      Alike c manner links (.exprs (e :: es)) (.exprs (e' :: es'))
  | expression {links e e'} (h : Alike c manner links (.expr e) (.expr e')) :
      Alike c manner links (.stmt (.expression e)) (.stmt (.expression e'))
  | print {links e e'} (h : Alike c manner links (.expr e) (.expr e')) :
      Alike c manner links (.stmt (.print e)) (.stmt (.print e'))
  | varDecl {links} {name name' : Token} (like : name.Like c name')
      (declares : Declares c links name.lexeme name'.lexeme) :
      Alike c manner links (.stmt (.varDecl name none)) (.stmt (.varDecl name' none))
  | varInit {links e e'} {name name' : Token} (like : name.Like c name')
      (declares : Declares c links name.lexeme name'.lexeme) (h : Alike c manner links (.expr e) (.expr e')) :
      Alike c manner links (.stmt (.varDecl name (some e))) (.stmt (.varDecl name' (some e')))
  | block {links ss ss'} (tie : Tie) (h : Alike c manner (.scope tie :: links) (.stmts ss) (.stmts ss')) :
      Alike c manner links (.stmt (.block ss)) (.stmt (.block ss'))
  | ifThen {links e e' s s'} (condition : Alike c manner links (.expr e) (.expr e'))
      (yes : Alike c manner links (.stmt s) (.stmt s')) :
      Alike c manner links (.stmt (.ifElse e s none)) (.stmt (.ifElse e' s' none))
  | ifElse {links e e' s s' t t'} (condition : Alike c manner links (.expr e) (.expr e'))
      (yes : Alike c manner links (.stmt s) (.stmt s')) (no : Alike c manner links (.stmt t) (.stmt t')) :
      Alike c manner links (.stmt (.ifElse e s (some t))) (.stmt (.ifElse e' s' (some t')))
  | whileDo {links e e' s s'} (condition : Alike c manner links (.expr e) (.expr e'))
      (body : Alike c manner links (.stmt s) (.stmt s')) :
      Alike c manner links (.stmt (.whileDo e s)) (.stmt (.whileDo e' s'))
  | funDecl {links r r'} (plain : ∀ link ∈ links, link.Plain)
      (declares : Declares c links r.name.lexeme r.name.lexeme) (h : Alike c manner links (.routine r) (.routine r')) :
      Alike c manner links (.stmt (.funDecl r)) (.stmt (.funDecl r'))
  | ret {links} (keyword : Token) : Alike c manner links (.stmt (.ret keyword none)) (.stmt (.ret keyword none))
  | retValue {links e e'} (keyword : Token) (h : Alike c manner links (.expr e) (.expr e')) :
      Alike c manner links (.stmt (.ret keyword (some e))) (.stmt (.ret keyword (some e')))
  | classDecl {links rs rs'} {name : Token} (plain : ∀ link ∈ links, link.Plain)
      (declares : Declares c links name.lexeme name.lexeme)
      (h : Alike c manner (.scope .same :: links) (.methods rs) (.methods rs')) :
      Alike c manner links (.stmt (.classDecl name none rs)) (.stmt (.classDecl name none rs'))
  | subclass {links e e' rs rs'} {name : Token} (plain : ∀ link ∈ links, link.Plain)
      (declares : Declares c links name.lexeme name.lexeme)
      (superclass : Alike c manner links (.expr e) (.expr e'))
      (h : Alike c manner (.scope .same :: .scope .same :: links) (.methods rs) (.methods rs')) :
      Alike c manner links (.stmt (.classDecl name (some e) rs)) (.stmt (.classDecl name (some e') rs'))
  | noStmts {links} : Alike c manner links (.stmts []) (.stmts [])
  | moreStmts {links s s' ss ss'} (first : Alike c manner links (.stmt s) (.stmt s'))
      (rest : Alike c manner links (.stmts ss) (.stmts ss')) :
      Alike c manner links (.stmts (s :: ss)) (.stmts (s' :: ss'))
  | routine {links ps ps' ss ss'} (name : Token) (tie : Tie) (plain : tie.Plain)
      (parameters : List.Forall₂ (fun p p' : Token => tie.Names c p.lexeme p'.lexeme) ps ps')
      (h : Alike c manner (.scope tie :: links) (.stmts ss) (.stmts ss')) :
      Alike c manner links (.routine ⟨name, ps, ss⟩) (.routine ⟨name, ps', ss'⟩)
  | noMethods {links} : Alike c manner links (.methods []) (.methods [])
  | moreMethods {links r r' rs rs'} (first : Alike c manner links (.routine r) (.routine r'))
      (rest : Alike c manner links (.methods rs) (.methods rs')) :
      Alike c manner links (.methods (r :: rs)) (.methods (r' :: rs'))
  /-- A `for` loop, of which the body mentions no slot from outside. -/
  | forLoop {links id s s'} {name : Token} {initial initial' condition condition' increment increment' : Option Expr}
      (loops : manner.loops) (nameable : Nameable name.lexeme) (other : name.lexeme ≠ ForLoop.slotName)
      (closed : ¬ s.HasFree ForLoop.slotName)
      (first : Alike c manner (.scope (.only name.lexeme) :: links) (.stmt (.varDecl name initial))
        (.stmt (.varDecl name initial')))
      (test : Alike c manner (.scope (.only name.lexeme) :: links) (.expr (ForLoop.test condition))
        (.expr (ForLoop.test condition')))
      (clause : Alike c manner (.scope .same :: .scope (.only name.lexeme) :: links)
        (.stmts (ForLoop.lastClause increment)) (.stmts (ForLoop.lastClause increment')))
      (body : Alike c manner (.pass name.lexeme (ForLoop.scopesAround increment) :: links) (.stmt s) (.stmt s')) :
      Alike c manner links (.stmt (ForLoop.copying name initial condition increment id s))
        (.stmt (ForLoop.plain name initial' condition' increment' s'))
  /-- What is repeated in such a loop. -/
  | passes {links id e e' s s'} {name : Token} {increment increment' : Option Expr}
      (other : name.lexeme ≠ ForLoop.slotName) (copies : manner.copies id (ForLoop.scopesAround increment))
      (test : Alike c manner (.scope (.only name.lexeme) :: links) (.expr e) (.expr e'))
      (clause : Alike c manner (.scope .same :: .scope (.only name.lexeme) :: links)
        (.stmts (ForLoop.lastClause increment)) (.stmts (ForLoop.lastClause increment')))
      (body : Alike c manner (.pass name.lexeme (ForLoop.scopesAround increment) :: links) (.stmt s) (.stmt s')) :
      Alike c manner (.scope (.only name.lexeme) :: links)
        (.stmt (.whileDo e (ForLoop.withIncrement increment (ForLoop.pass id name s))))
        (.stmt (.whileDo e' (.block (s' :: ForLoop.lastClause increment'))))

/-! ## Parts that are alike -/

namespace Alike

variable {c : Change} {manner : Manner} {links : List Link}

/-- Parts that are alike declare names that may be declared. -/
theorem declared {code code' : Code} (h : Alike c manner links code code') :
    List.Forall₂ (Declares c links) code.declared code'.declared := by
  induction h with
  | varDecl _ declares | varInit _ declares _ | classDecl _ declares _ | subclass _ declares _ _ =>
    exact .cons declares .nil
  | funDecl _ declares h =>
    cases h
    exact .cons declares .nil
  | ifThen _ _ _ ih => exact ih
  | ifElse _ _ _ _ ih ih' => exact List.rel_append ih ih'
  | whileDo _ _ _ ih => exact ih
  | moreStmts _ _ ih ih' => exact List.rel_append ih ih'
  | @passes _ _ _ _ _ _ _ increment => cases increment <;> simp [Code.declared, Stmt.declared, ForLoop.withIncrement, ForLoop.pass]
  | forLoop => simp [Code.declared, Stmt.declared, ForLoop.copying, ForLoop.plain, ForLoop.whole]
  | _ => simp [Code.declared, Stmt.declared, Stmt.declaredAll]

/-- The body of a pass declares nothing in the scope it stands in. -/
theorem declares_nothing {name : String} {more : Nat} {s s' : Stmt}
    (h : Alike c manner (.pass name more :: links) (.stmt s) (.stmt s')) : s.declared = [] ∧ s'.declared = [] := by
  have declared : List.Forall₂ _ s.declared s'.declared := h.declared
  generalize s.declared = ns, s'.declared = ns' at declared
  cases declared with
  | nil => exact ⟨rfl, rfl⟩
  | cons hd _ => exact hd.elim

/-- Routines that are alike have the same name and as many parameters. -/
theorem routine_eq {r r' : Routine Stmt} (h : Alike c manner links (.routine r) (.routine r')) :
    r'.name = r.name ∧ r'.parameters.length = r.parameters.length := by
  cases h with
  | routine _ _ _ parameters _ => exact ⟨rfl, parameters.length_eq.symm⟩

/-- Loops that are alike have conditions that are. -/
theorem tested {e e' : Expr} {s s' : Stmt} (h : Alike c manner links (.stmt (.whileDo e s)) (.stmt (.whileDo e' s'))) :
    Alike c manner links (.expr e) (.expr e') := by
  cases h with
  | whileDo test _ => exact test
  | passes _ _ test _ _ => exact test

/-- An expression that is alike to a variable is one. -/
theorem ref_iff {e e' : Expr} (h : Alike c manner links (.expr e) (.expr e')) :
    (∃ id name name', e = .ref id name ∧ e' = .ref id name' ∧ name.Like c name') ∨
      (∀ id name, e ≠ .ref id name) ∧ ∀ id name, e' ≠ .ref id name := by
  cases h with
  | ref like _ => exact .inl ⟨_, _, _, rfl, rfl, like⟩
  | _ =>
    right
    constructor
    all_goals
      rintro _ _ ⟨⟩

end Alike

end Lox
