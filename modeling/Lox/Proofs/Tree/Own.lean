/-
The uses that code has itself, outside of the methods of the classes that it declares. A use in a method belongs to
the innermost of the methods around it, whatever functions are in between.
-/
import Lox.Proofs.Tree.Code

namespace Lox

mutual

/-- The numbers of the uses in a statement, but for those in methods. -/
def Stmt.ownUses : Stmt → List UseId
  | .expression e => e.uses
  | .print e => e.uses
  | .varDecl _ initial => Expr.usesOption initial
  | .block body => Stmt.ownUsesAll body
  | .ifElse condition yes none => condition.uses ++ yes.ownUses
  | .ifElse condition yes (some no) => condition.uses ++ (yes.ownUses ++ no.ownUses)
  | .whileDo condition body => condition.uses ++ body.ownUses
  | .funDecl routine => routineOwnUses routine
  | .ret _ value => Expr.usesOption value
  | .classDecl _ superclass _ => Expr.usesOption superclass

/-- The numbers of the uses in statements, but for those in methods. -/
def Stmt.ownUsesAll : List Stmt → List UseId
  | [] => []
  | s :: ss => s.ownUses ++ Stmt.ownUsesAll ss

/-- The numbers of the uses in a routine, but for those in the methods of the classes declared in it. -/
def routineOwnUses : Routine Stmt → List UseId
  | ⟨_, _, body⟩ => Stmt.ownUsesAll body

end

mutual

theorem Stmt.mem_uses_of_own {s : Stmt} {use : UseId} (h : use ∈ s.ownUses) : use ∈ s.uses := by
  cases s with
  | expression _ | print _ | varDecl _ _ | ret _ _ => exact h
  | block body => exact Stmt.mem_usesAll_of_own h
  | ifElse condition yes no =>
    cases no with
    | none => exact List.mem_append.2 ((List.mem_append.1 h).imp_right Stmt.mem_uses_of_own)
    | some no =>
      refine List.mem_append.2 ((List.mem_append.1 h).imp_right fun h => ?_)
      exact List.mem_append.2 ((List.mem_append.1 h).imp Stmt.mem_uses_of_own Stmt.mem_uses_of_own)
  | whileDo condition body => exact List.mem_append.2 ((List.mem_append.1 h).imp_right Stmt.mem_uses_of_own)
  | funDecl routine => exact mem_routineUses_of_own h
  | classDecl _ superclass _ =>
    cases superclass with
    | none => cases h
    | some e => exact List.mem_append_left _ h

theorem Stmt.mem_usesAll_of_own {ss : List Stmt} {use : UseId} (h : use ∈ Stmt.ownUsesAll ss) :
    use ∈ Stmt.usesAll ss := by
  cases ss with
  | nil => exact h
  | cons s ss => exact List.mem_append.2 ((List.mem_append.1 h).imp Stmt.mem_uses_of_own Stmt.mem_usesAll_of_own)

/-- The own uses of a routine are uses of it. -/
theorem mem_routineUses_of_own {r : Routine Stmt} {use : UseId} (h : use ∈ routineOwnUses r) :
    use ∈ routineUses r := by
  obtain ⟨_, _, body⟩ := r
  exact Stmt.mem_usesAll_of_own h

end

end Lox
