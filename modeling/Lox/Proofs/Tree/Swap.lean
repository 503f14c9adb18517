/-
A program in which one part has been exchanged for another. The part is a statement or a routine; what is around it
stays as it is.
-/
import Lox.Proofs.Tree.Within

namespace Lox

/-- Whether two parts of programs are the same but for one place, where one has the part `a` and the other has `b`. -/
inductive Swaps (a b : Code) : Code → Code → Prop
  | here : Swaps a b a b
  | block {ss ss' : List Stmt} (h : Swaps a b (.stmts ss) (.stmts ss')) :
      Swaps a b (.stmt (.block ss)) (.stmt (.block ss'))
  | yes {e : Expr} {s s' : Stmt} {no : Option Stmt} (h : Swaps a b (.stmt s) (.stmt s')) :
      Swaps a b (.stmt (.ifElse e s no)) (.stmt (.ifElse e s' no))
  | no {e : Expr} {yes s s' : Stmt} (h : Swaps a b (.stmt s) (.stmt s')) :
      Swaps a b (.stmt (.ifElse e yes (some s))) (.stmt (.ifElse e yes (some s')))
  | repeated {e : Expr} {s s' : Stmt} (h : Swaps a b (.stmt s) (.stmt s')) :
      Swaps a b (.stmt (.whileDo e s)) (.stmt (.whileDo e s'))
  | funDecl {r r' : Routine Stmt} (h : Swaps a b (.routine r) (.routine r')) :
      Swaps a b (.stmt (.funDecl r)) (.stmt (.funDecl r'))
  | classDecl {name : Token} {superclass : Option Expr} {rs rs' : List (Routine Stmt)}
      (h : Swaps a b (.methods rs) (.methods rs')) :
      Swaps a b (.stmt (.classDecl name superclass rs)) (.stmt (.classDecl name superclass rs'))
  | first {s s' : Stmt} {ss : List Stmt} (h : Swaps a b (.stmt s) (.stmt s')) :
      Swaps a b (.stmts (s :: ss)) (.stmts (s' :: ss))
  | later {s : Stmt} {ss ss' : List Stmt} (h : Swaps a b (.stmts ss) (.stmts ss')) :
      Swaps a b (.stmts (s :: ss)) (.stmts (s :: ss'))
  | body {name : Token} {parameters : List Token} {ss ss' : List Stmt} (h : Swaps a b (.stmts ss) (.stmts ss')) :
      Swaps a b (.routine ⟨name, parameters, ss⟩) (.routine ⟨name, parameters, ss'⟩)
  | method {r r' : Routine Stmt} {rs : List (Routine Stmt)} (h : Swaps a b (.routine r) (.routine r')) :
      Swaps a b (.methods (r :: rs)) (.methods (r' :: rs))
  | laterMethod {r : Routine Stmt} {rs rs' : List (Routine Stmt)} (h : Swaps a b (.methods rs) (.methods rs')) :
      Swaps a b (.methods (r :: rs)) (.methods (r :: rs'))

namespace Swaps

variable {a b code code' : Code}

/-- What is within the part that is exchanged is within the whole. -/
theorem within (h : Swaps a b code code') : ∀ x ∈ a.within, x ∈ code.within := by
  induction h with
  | here => exact fun _ => id
  | @yes _ _ _ no _ ih =>
    cases no with
    | none => exact fun x hx => .tail _ (List.mem_append_right _ (ih x hx))
    | some _ => exact fun x hx => .tail _ (List.mem_append_right _ (List.mem_append_left _ (ih x hx)))
  | no _ ih => exact fun x hx => .tail _ (List.mem_append_right _ (List.mem_append_right _ (ih x hx)))
  | repeated _ ih => exact fun x hx => .tail _ (List.mem_append_right _ (ih x hx))
  | @classDecl _ superclass _ _ _ ih =>
    cases superclass with
    | none => exact fun x hx => .tail _ (ih x hx)
    | some _ => exact fun x hx => .tail _ (List.mem_append_right _ (ih x hx))
  | block _ ih | funDecl _ ih | body _ ih => exact fun x hx => .tail _ (ih x hx)
  | first _ ih | method _ ih => exact fun x hx => List.mem_append_left _ (ih x hx)
  | later _ ih | laterMethod _ ih => exact fun x hx => List.mem_append_right _ (ih x hx)

end Swaps

end Lox
