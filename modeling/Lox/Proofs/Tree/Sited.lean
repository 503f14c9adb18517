/-
The tokens at which a part of a program can fail when it runs: operators, closing parentheses, names and the words of
classes. The slot of a loop is no such token, for a use of it does not fail.
-/
import Lox.Grammar.ForLoop
import Lox.Machine.Step
import Lox.Proofs.Tree.Within

namespace Lox

namespace Code

/-- Whether a part of a program itself, leaving aside what is in it, fails at tokens of this kind only, unless it uses
the slot of a loop. Where the slot is declared, it is not used yet. -/
def FailsAt (site : Token → Prop) : Code → Prop
  | expr (.unary operator _) | expr (.binary operator _ _) => site operator
  | expr (.ref _ name) | expr (.assign _ name _) => site name ∨ name.lexeme = ForLoop.slotName
  | expr (.call _ paren _) => site paren
  | expr (.get _ name) | expr (.set _ name _) => site name
  | expr (.self _ keyword) => site keyword
  | expr (.super _ keyword method) => site keyword ∧ site method
  | stmt (.varDecl name initial) => name.lexeme = ForLoop.slotName → (Stmt.varDecl name initial).DeclaresFirst
  | stmt (.classDecl name superclass _) => site name ∧ ∀ e ∈ superclass, site (Machine.superclassSite name e)
  | _ => True

/-- Whether a part of a program with all that is in it fails at tokens of this kind only. -/
def Sited (site : Token → Prop) (c : Code) : Prop := ∀ x ∈ c.within, x.FailsAt site

variable {site : Token → Prop}

theorem sited_option {e : Option Expr} (h : ∀ x ∈ e, (expr x).Sited site) :
    ∀ x ∈ Expr.withinOption e, x.FailsAt site := by
  cases e with
  | none => exact List.forall_mem_nil _
  | some e => exact h e rfl

theorem sited_exprs {es : List Expr} (h : ∀ e ∈ es, (expr e).Sited site) : (exprs es).Sited site := by
  induction es with
  | nil => exact List.forall_mem_nil _
  | cons e es ih =>
    obtain ⟨first, rest⟩ := List.forall_mem_cons.1 h
    exact List.forall_mem_append.2 ⟨first, ih rest⟩

theorem sited_stmts {ss : List Stmt} (h : ∀ s ∈ ss, (stmt s).Sited site) : (stmts ss).Sited site := by
  induction ss with
  | nil => exact List.forall_mem_nil _
  | cons s ss ih =>
    obtain ⟨first, rest⟩ := List.forall_mem_cons.1 h
    exact List.forall_mem_append.2 ⟨first, ih rest⟩

theorem sited_block {ss : List Stmt} (h : ∀ s ∈ ss, (stmt s).Sited site) : (stmt (.block ss)).Sited site :=
  List.forall_mem_cons.2 ⟨trivial, sited_stmts h⟩

theorem sited_methods {rs : List (Routine Stmt)} (h : ∀ r ∈ rs, (routine r).Sited site) : (methods rs).Sited site := by
  induction rs with
  | nil => exact List.forall_mem_nil _
  | cons r rs ih =>
    obtain ⟨first, rest⟩ := List.forall_mem_cons.1 h
    exact List.forall_mem_append.2 ⟨first, ih rest⟩

end Code

end Lox
