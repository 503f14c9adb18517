/-
Walking through a pass of a loop. The slot and the copy of the variable are each declared in a scope of their own, and
the uses that the pass has for copying find them there, and the variable outside.
-/
import Lox.Grammar.ForLoop
import Lox.Proofs.Binding.Checked

namespace Lox

/-- A scope that is new has just the name whose declaration was started in it. -/
theorem Walk.scopes_declare_openScope (w : Walk) (name : Token) :
    (w.openScope.declare name).scopes = Bindings.empty.set name.lexeme false :: w.scopes := by
  simp [Walk.declare, Walk.declared, Walk.openScope, Walk.mark, Bindings.contains]

/-- The walk through a program that breaks no rule comes to this part in this state. -/
def Reached (table : Table) (a : Surroundings) (code : Code) (w : Walk) : Prop :=
  ∃ d, Stop.Checked table ⟨code, a, w, d⟩

namespace Reached

variable {table : Table} {a : Surroundings} {w : Walk} {e : Expr} {name : Token}

theorem inBlock {ss : List Stmt} (h : Reached table a (.stmt (.block ss)) w) : Reached table a (.stmts ss) w.openScope :=
  h.elim fun _ h => ⟨_, h.part List.mem_cons_self⟩

theorem first {s : Stmt} {ss : List Stmt} (h : Reached table a (.stmts (s :: ss)) w) : Reached table a (.stmt s) w :=
  h.elim fun _ h => ⟨_, h.part List.mem_cons_self⟩

theorem rest {s : Stmt} {ss : List Stmt} (h : Reached table a (.stmts (s :: ss)) w) :
    Reached table a (.stmts ss) (s.walk a w) :=
  h.elim fun _ h => ⟨_, h.part (.tail _ List.mem_cons_self)⟩

theorem initial (h : Reached table a (.stmt (.varDecl name (some e))) w) : Reached table a (.expr e) (w.declare name) :=
  h.elim fun _ h => ⟨_, h.part List.mem_cons_self⟩

theorem inStatement (h : Reached table a (.stmt (.expression e)) w) : Reached table a (.expr e) w :=
  h.elim fun _ h => ⟨_, h.part List.mem_cons_self⟩

theorem assigned {id : UseId} (h : Reached table a (.expr (.assign id name e)) w) : Reached table a (.expr e) w :=
  h.elim fun _ h => ⟨_, h.part List.mem_cons_self⟩

theorem get?_use {id : UseId} {n : String} (h : Reached table a (.expr e) w) (hu : e.use? = some (id, n)) :
    table.get? id = w.scopes.findIdx? (·.contains n) :=
  h.elim fun _ h => h.clean.get?_use rfl hu

end Reached

/-- The entries of the uses that a pass of a loop has for copying: the copy and the slot are in scopes of their own,
and the variable itself is found at some distance `outside` of them. -/
structure Copies (table : Table) (id : UseId) (outside : Option Nat) : Prop where
  intoSlot : table.get? (id + 3) = outside.map (· + 1)
  fromSlot : table.get? id = some 1
  copy : table.get? (id + 1) = some 0
  backIntoSlot : table.get? (id + 2) = some 1
  backFromSlot : table.get? (id + 4) = some 0
  back : table.get? (id + 5) = outside.map (· + 1)

/-- The body of a pass stands in a scope for the copy of the variable, in a scope for the slot. -/
theorem Reached.pass {table : Table} {a : Surroundings} {w : Walk} {id : UseId} {name : Token} {s : Stmt}
    (h : Reached table a (.stmt (ForLoop.pass id name s)) w) (other : name.lexeme ≠ ForLoop.slotName)
    (nothing : s.declared = []) :
    Copies table id (w.scopes.findIdx? (·.contains name.lexeme)) ∧
      ∃ inside, Reached table a (.stmt s) inside ∧ inside.scopes =
        Bindings.empty.set name.lexeme true :: Bindings.empty.set ForLoop.slotName true :: w.scopes := by
  have body := h.inBlock
  have inner := body.rest.first.inBlock
  have after := inner.rest.rest.first.inStatement
  have last := body.rest.rest.first.inStatement
  have slot : (ForLoop.slot name).lexeme = ForLoop.slotName := rfl
  refine ⟨⟨?_, ?_, ?_, ?_, ?_, ?_⟩, _, inner.rest.first, ?_⟩
  · rw [body.first.initial.get?_use rfl, Walk.scopes_declare_openScope]
    simp [List.findIdx?_cons, slot, other, Bindings.contains]
  · rw [inner.first.initial.get?_use rfl, Walk.scopes_declare_openScope]
    simp [List.findIdx?_cons, slot, other.symm, Bindings.contains, Stmt.scopes_walk, Stmt.declared, settle,
      Declarations.complete]
  · rw [after.assigned.get?_use rfl]
    simp [List.findIdx?_cons, Bindings.contains, Stmt.scopes_walk, Stmt.declared, settle, Declarations.complete, nothing]
  · rw [after.get?_use rfl]
    simp [List.findIdx?_cons, slot, other.symm, Bindings.contains, Stmt.scopes_walk, Stmt.declared, settle,
      Declarations.complete, nothing]
  · rw [last.assigned.get?_use rfl]
    simp [List.findIdx?_cons, slot, Bindings.contains, Stmt.scopes_walk, Stmt.declared, settle, Declarations.complete]
  · rw [last.get?_use rfl]
    simp [List.findIdx?_cons, slot, other, Bindings.contains, Stmt.scopes_walk, Stmt.declared, settle,
      Declarations.complete]
  · simp [slot, Stmt.scopes_walk, Stmt.declared, settle, Declarations.complete]

end Lox
