/-
The walk through a part on the right. What it enters is what the table has in the end, and if it finds no error, the
table has for a use the innermost open scope with its name, as on the left. The manners in which parts are alike before
and after the walks.
-/
import Lox.Proofs.Binding.Passes
import Lox.Proofs.Pair.Beside

namespace Lox

theorem Code.walk_leads (code : Code) (a : Surroundings) (w : Walk) : Walk.Leads code.uses w (code.walk a w) := by
  cases code with
  | expr e => exact e.walk_leads a.home w
  | exprs es => exact Expr.walkAll_leads a.home es w
  | stmt s => exact s.walk_leads a w
  | stmts ss => exact Stmt.walkAll_leads a ss w
  | routine r => exact walkRoutine_leads a r w
  | methods rs => exact walkMethods_leads a.home rs w

namespace Stop

variable {table : Table} {x y : Stop}

/-- No error was found before a part that is clean. -/
theorem Clean.before (h : x.Clean table) : x.walk.errors = #[] := (x.code.walk_leads x.around x.walk).errors h.errors

theorem Entered.clean (h : x.Entered table) (errors : x.after.errors = #[]) : x.Clean table := ⟨h, errors⟩

end Stop

/-! ## Manners -/

/-- Whether what is written on both sides will have fitting entries, wherever the walks come to it. -/
structure Manner.Leads (source : Manner) (c : Change) (table : Table) (straight : Prop) : Prop where
  use : ∀ links id n n' scopes scopes', source.use links id n n' → table.get? id = scopes.findIdx? (·.contains n) →
    Mirrors c links scopes scopes' → (n = ForLoop.slotName → Covered n links scopes) →
    Finds c links (scopes.findIdx? (·.contains n)) (scopes'.findIdx? (·.contains n')) n n'
  loops : straight → ¬ source.loops
  copies : ∀ id around, ¬ source.copies id around

/-- What the entries in a table on the left and in one on the right have to be when the parts run. -/
def Manner.running (c : Change) (table table' : Table) : Manner where
  use links id n n' := Finds c links (table.get? id) (table'.get? id) n n'
  self links id := Finds c links (table.get? id) (table'.get? id) thisName thisName
  super links id := ∃ i j, table.get? id = some (i + 1) ∧ table'.get? id = some (j + 1) ∧
    Finds c links (some (i + 1)) (some (j + 1)) superName superName ∧ Finds c links (some i) (some j) thisName thisName
  loops := False
  copies id around := Copies table id (some (around - 2))

/-! ## Loops -/

/-- After the condition of a loop, the innermost open scope is that of the variable. -/
theorem ForLoop.scopes_test (a : Surroundings) (w : Walk) (name : Token) (initial condition : Option Expr) :
    ((test condition).walk a.home ((Stmt.varDecl name initial).walk a w.openScope)).scopes =
      Bindings.empty.set name.lexeme true :: w.scopes := by
  simp [Stmt.scopes_walk, Stmt.declared, settle, Declarations.complete]

/-- The walk through a loop comes to the body of its pass. The uses that the pass has of its own find the variable of the
loop: around the scopes of the pass there is only an empty one, for the block with a last clause, and then that of the
variable. -/
theorem Reached.bodyOfLoop {table : Table} {a : Surroundings} {w : Walk} {id : UseId} {name : Token} {s : Stmt}
    {initial condition increment : Option Expr}
    (h : Reached table a (.stmt (ForLoop.copying name initial condition increment id s)) w)
    (other : name.lexeme ≠ ForLoop.slotName) (nothing : s.declared = []) :
    Copies table id (some (ForLoop.scopesAround increment - 2)) ∧
      ∃ inside others, Reached table a (.stmt s) inside ∧ others.length + 2 = ForLoop.scopesAround increment ∧
        (∀ own ∈ others, ∀ n, own.contains n = false) ∧
        inside.scopes = Bindings.empty.set name.lexeme true :: Bindings.empty.set ForLoop.slotName true ::
          (others ++ Bindings.empty.set name.lexeme true :: w.scopes) := by
  have again : Reached table a (.stmt (ForLoop.withIncrement increment (ForLoop.pass id name s)))
      ((ForLoop.test condition).walk a.home ((Stmt.varDecl name initial).walk a w.openScope)) :=
    h.inBlock.rest.first.elim fun _ h => ⟨_, h.part (.tail _ List.mem_cons_self)⟩
  have here : (Bindings.empty.set name.lexeme true).contains name.lexeme = true := by simp
  have none (n : String) : Bindings.contains (.empty : Declarations) n = false := rfl
  cases increment with
  | none =>
    obtain ⟨copies, inside, stands, opened⟩ := again.pass other nothing
    rw [ForLoop.scopes_test] at copies opened
    rw [Mirrors.findIdx?_here here] at copies
    exact ⟨copies, inside, [], stands, rfl, List.forall_mem_nil _, opened⟩
  | some e =>
    obtain ⟨copies, inside, stands, opened⟩ := again.inBlock.first.pass other nothing
    rw [Walk.scopes_openScope, ForLoop.scopes_test] at copies opened
    rw [Mirrors.findIdx?_outer (none _), Mirrors.findIdx?_here here] at copies
    exact ⟨copies, inside, [.empty], stands, rfl, List.forall_mem_singleton.2 none, opened⟩

end Lox
