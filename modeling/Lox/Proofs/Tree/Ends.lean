/-
How statements can end. A `return` that stands in no function ends the statements around it; a statement ends as it is
allowed to if it has no such `return`, or if a return is allowed. In a program that keeps the rules no statement at the
top returns.
-/
import Lox.Proofs.Tree.Placed

namespace Lox

mutual

/-- Whether a statement ends as it is allowed to, with a return only if `returns` says so. -/
def Stmt.Ends (returns : Bool) : Stmt → Prop
  | .expression _ | .print _ | .varDecl _ _ | .funDecl _ | .classDecl _ _ _ => True
  | .block body => Stmt.EndsAll returns body
  | .ifElse _ yes none => yes.Ends returns
  | .ifElse _ yes (some no) => yes.Ends returns ∧ no.Ends returns
  | .whileDo _ body => body.Ends returns
  | .ret _ _ => returns = true

/-- Whether all of some statements end as they are allowed to. -/
def Stmt.EndsAll (returns : Bool) : List Stmt → Prop
  | [] => True
  | s :: ss => s.Ends returns ∧ Stmt.EndsAll returns ss

end

mutual

theorem Stmt.ends_true (s : Stmt) : s.Ends true := by
  cases s with
  | expression _ | print _ | varDecl _ _ | funDecl _ | classDecl _ _ _ => trivial
  | block body => exact Stmt.endsAll_true body
  | ifElse _ yes no =>
    cases no with
    | none => exact yes.ends_true
    | some no => exact ⟨yes.ends_true, no.ends_true⟩
  | whileDo _ body => exact body.ends_true
  | ret _ _ => rfl

theorem Stmt.endsAll_true (ss : List Stmt) : Stmt.EndsAll true ss := by
  cases ss with
  | nil => trivial
  | cons s ss => exact ⟨s.ends_true, Stmt.endsAll_true ss⟩

end

mutual

/-- Outside of functions and methods a statement that keeps the rules does not return. -/
theorem Stmt.ends_of_wellPlaced {s : Stmt} {around : List Layer} (top : ∀ layer ∈ around, layer.isRoutine = false)
    (h : ∀ part ∈ s.placed around, part.2.WellPlaced part.1) : s.Ends false := by
  cases s with
  | expression _ | print _ | varDecl _ _ | funDecl _ | classDecl _ _ _ => trivial
  | block body =>
    have block : ∀ layer ∈ Layer.block :: around, layer.isRoutine = false := List.forall_mem_cons.2 ⟨rfl, top⟩
    show Stmt.EndsAll false body
    exact Stmt.endsAll_of_wellPlaced block fun part hp => h part (.tail _ hp)
  | ifElse condition yes no =>
    cases no with
    | none =>
      show yes.Ends false
      exact Stmt.ends_of_wellPlaced top fun part hp => h part (.tail _ (List.mem_append_right _ hp))
    | some no =>
      constructor
      · exact Stmt.ends_of_wellPlaced top fun part hp =>
          h part (.tail _ (List.mem_append_right _ (List.mem_append_left _ hp)))
      · exact Stmt.ends_of_wellPlaced top fun part hp =>
          h part (.tail _ (List.mem_append_right _ (List.mem_append_right _ hp)))
  | whileDo condition body =>
    show body.Ends false
    exact Stmt.ends_of_wellPlaced top fun part hp => h part (.tail _ (List.mem_append_right _ hp))
  | ret keyword value =>
    -- it would have to stand in a routine
    have inside : ∃ layer ∈ around, layer.isRoutine = true := by
      have here := h (around, .stmt (.ret keyword value)) List.mem_cons_self
      cases value with
      | none => exact here
      | some _ => exact here.1
    obtain ⟨layer, mem, routine⟩ := inside
    exact absurd routine (by simp [top layer mem])

theorem Stmt.endsAll_of_wellPlaced {ss : List Stmt} {around : List Layer}
    (top : ∀ layer ∈ around, layer.isRoutine = false)
    (h : ∀ part ∈ Stmt.placedAll around ss, part.2.WellPlaced part.1) : Stmt.EndsAll false ss := by
  cases ss with
  | nil => trivial
  | cons s ss =>
    obtain ⟨first, later⟩ := List.forall_mem_append.1 h
    exact ⟨Stmt.ends_of_wellPlaced top first, Stmt.endsAll_of_wellPlaced top later⟩

end

end Lox
