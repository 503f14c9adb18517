/-
Which scopes have the slot of a loop. A program cannot name the slot, so only the block of a pass declares it. In that
block no scope is opened but that of the copy, which has the variable of the loop and nothing else, and has it from the
first statement on.
-/
import Lox.Proofs.Binding.Initial
import Lox.Proofs.Grammar.Slot

namespace Lox

open ForLoop

/-! ## Scopes of copies -/

/-- Whether a statement opens no scope in the one it stands in, or else a scope that has the name of its first statement
and no other. -/
def Stmt.OpensCopy : Stmt → Prop
  | .expression _ | .varDecl _ _ => True
  | .block (.varDecl _ _ :: rest) => Stmt.declaredAll rest = []
  | _ => False

/-- Whether a part of a program opens such scopes only in the scope it stands in. -/
def Code.OpensCopies : Code → Prop
  | .expr _ | .exprs _ => True
  | .stmt s => s.OpensCopy
  | .stmts ss => ∀ s ∈ ss, s.OpensCopy
  | .routine _ | .methods _ => False

/-- Whether a part of a program, leaving aside what is in it, has the slot in a scope of its own only to open the scopes
of copies there. -/
def Code.Copying : Code → Prop
  | .stmt (.block ss) => slotName ∈ Stmt.declaredAll ss → (Code.stmts ss).OpensCopies
  | .routine r => slotName ∉ r.parameters.map (·.lexeme) ∧ slotName ∉ Stmt.declaredAll r.body
  | _ => True

/-- Whether this holds of a part of a program with all that is in it, and the slot is not declared where it stands. -/
structure Code.KeepsCopying (code : Code) : Prop where
  other : slotName ∉ code.declared
  within : ∀ x ∈ code.within, x.Copying

/-! ## Parts of programs -/

theorem Expr.copying_within (e : Expr) : ∀ x ∈ e.within, x.Copying := by
  intro x hx
  have expr := e.isExpr_within x hx
  cases x with
  | expr _ | exprs _ => trivial
  | stmt _ | stmts _ | routine _ | methods _ => exact expr.elim

theorem Expr.copying_withinOption (e : Option Expr) : ∀ x ∈ Expr.withinOption e, x.Copying := by
  cases e with
  | none => exact List.forall_mem_nil _
  | some e => exact e.copying_within

namespace Stmt

theorem copying_withinAll {ss : List Stmt} (h : ∀ s ∈ ss, ∀ x ∈ s.within, x.Copying) : ∀ x ∈ withinAll ss, x.Copying := by
  intro x hx
  obtain ⟨s, hs, hx⟩ := mem_withinAll.1 hx
  exact h s hs x hx

theorem copying_expression (e : Expr) : ∀ x ∈ (expression e).within, x.Copying :=
  List.forall_mem_cons.2 ⟨trivial, e.copying_within⟩

theorem copying_varDecl (name : Token) (initial : Option Expr) : ∀ x ∈ (varDecl name initial).within, x.Copying :=
  List.forall_mem_cons.2 ⟨trivial, Expr.copying_withinOption initial⟩

end Stmt

namespace Code

variable {s : Stmt} {ss : List Stmt} {rs : List (Routine Stmt)}

theorem keepsCopying_while (condition : Expr) (h : (stmt s).KeepsCopying) : (stmt (.whileDo condition s)).KeepsCopying :=
  ⟨h.other, List.forall_mem_cons.2 ⟨trivial, List.forall_mem_append.2 ⟨condition.copying_within, h.within⟩⟩⟩

theorem keepsCopying_stmts (h : ∀ s ∈ ss, (stmt s).KeepsCopying) : (stmts ss).KeepsCopying := by
  refine ⟨fun mem => ?_, Stmt.copying_withinAll fun s hs => (h s hs).within⟩
  obtain ⟨s, hs, declared⟩ := List.mem_flatMap.1 mem
  exact (h s hs).other declared

theorem keepsCopying_block (h : (stmts ss).KeepsCopying) : (stmt (.block ss)).KeepsCopying :=
  ⟨List.not_mem_nil, List.forall_mem_cons.2 ⟨fun mem => absurd mem h.other, h.within⟩⟩

theorem keepsCopying_methods (h : ∀ r ∈ rs, (routine r).KeepsCopying) : (methods rs).KeepsCopying := by
  induction rs with
  | nil => exact ⟨List.not_mem_nil, List.forall_mem_nil _⟩
  | cons r rs ih =>
    obtain ⟨first, rest⟩ := List.forall_mem_cons.1 h
    exact ⟨List.not_mem_nil, List.forall_mem_append.2 ⟨first.within, (ih rest).within⟩⟩

end Code

/-! ## Loops -/

namespace ForLoop

variable {name : Token} {s : Stmt} {first : Option Stmt} {increment condition : Option Expr}

/-- The block of a pass has the slot, and in it there is the block of the copy. -/
theorem keepsCopying_pass (other : name.lexeme ≠ slotName) (declares : s.declared = [])
    (h : (Code.stmt s).KeepsCopying) (id : UseId) : (Code.stmt (pass id name s)).KeepsCopying := by
  let back : Stmt := .expression (.assign (id + 2) (slot name) (.ref (id + 1) name))
  have nothing : Stmt.declaredAll [s, back] = [] := by
    simp [Stmt.declaredAll, declares, Stmt.declared, back]
  have copy : ∀ x ∈ (Stmt.block [.varDecl name (some (.ref id (slot name))), s, back]).within, x.Copying := by
    refine List.forall_mem_cons.2 ⟨fun mem => ?_, Stmt.copying_withinAll ?_⟩
    · have only : Stmt.declaredAll [.varDecl name (some (.ref id (slot name))), s, back] = [name.lexeme] :=
        congrArg (name.lexeme :: ·) nothing
      rw [only] at mem
      exact absurd (List.mem_singleton.1 mem).symm other
    · simp only [List.forall_mem_cons]
      exact ⟨Stmt.copying_varDecl _ _, h.within, Stmt.copying_expression _, nofun⟩
  refine ⟨List.not_mem_nil, List.forall_mem_cons.2 ⟨fun _ => ?_, Stmt.copying_withinAll ?_⟩⟩
  · simp only [Code.OpensCopies, List.forall_mem_cons]
    exact ⟨trivial, nothing, trivial, nofun⟩
  · simp only [List.forall_mem_cons]
    exact ⟨Stmt.copying_varDecl _ _, copy, Stmt.copying_expression _, nofun⟩

theorem keepsCopying_withIncrement (h : (Code.stmt s).KeepsCopying) :
    (Code.stmt (withIncrement increment s)).KeepsCopying := by
  cases increment with
  | none => exact h
  | some e =>
    refine Code.keepsCopying_block (Code.keepsCopying_stmts ?_)
    simp only [List.forall_mem_cons]
    exact ⟨h, ⟨List.not_mem_nil, Stmt.copying_expression e⟩, nofun⟩

theorem keepsCopying_whole (start : ∀ t ∈ first, (Code.stmt t).KeepsCopying) (h : (Code.stmt s).KeepsCopying) :
    (Code.stmt (whole first condition s)).KeepsCopying := by
  have loop := Code.keepsCopying_while (condition.getD (.literal (.bool true))) h
  cases first with
  | none => exact loop
  | some t =>
    refine Code.keepsCopying_block (Code.keepsCopying_stmts ?_)
    simp only [List.forall_mem_cons]
    exact ⟨start t rfl, loop, nofun⟩

end ForLoop

/-! ## Programs -/

theorem Stmt.Written.keepsCopying {symbol : Symbol} {s : Stmt} {w : List Token} (h : s.Written symbol w)
    (hw : Unslotted w) : (Code.stmt s).KeepsCopying := by
  cases h with
  | @varDecl _ name _ initial _ _ hn _ _ =>
    refine ⟨fun mem => ?_, Stmt.copying_varDecl _ _⟩
    exact hw name (.tail _ List.mem_cons_self) hn (List.mem_singleton.1 mem).symm
  | exprStmt _ _ => exact ⟨List.not_mem_nil, Stmt.copying_expression _⟩
  | printStmt _ _ _ => exact ⟨List.not_mem_nil, List.forall_mem_cons.2 ⟨trivial, Expr.copying_within _⟩⟩
  | returnStmt _ _ _ => exact ⟨List.not_mem_nil, List.forall_mem_cons.2 ⟨trivial, Expr.copying_withinOption _⟩⟩

theorem Stmt.WrittenStart.keepsCopying {first : Option Stmt} {w : List Token} (h : Stmt.WrittenStart first w)
    (hw : Unslotted w) : ∀ s ∈ first, (Code.stmt s).KeepsCopying := by
  cases h with
  | none _ => nofun
  | some _ h =>
    rintro _ ⟨⟩
    exact h.keepsCopying hw

/-- In a part of a program that is written without naming the slot, scopes with the slot are there for copies only. -/
theorem Code.Written.keepsCopying {symbol : Symbol} {code : Code} {w : List Token} (h : code.Written symbol w)
    (hw : Unslotted w) : code.KeepsCopying := by
  induction h with
  | simple h => exact h.keepsCopying hw
  | ifThen _ _ _ _ _ ih =>
    have yes := ih hw.tail.tail.right.tail
    exact ⟨yes.other, List.forall_mem_cons.2 ⟨trivial, List.forall_mem_append.2 ⟨Expr.copying_within _, yes.within⟩⟩⟩
  | ifElse _ _ _ _ _ _ _ ih ih' =>
    have yes := ih hw.tail.tail.right.tail.left
    have no := ih' hw.tail.tail.right.tail.right.tail
    refine ⟨fun mem => (List.mem_append.1 mem).elim yes.other no.other, List.forall_mem_cons.2 ⟨trivial, ?_⟩⟩
    exact List.forall_mem_append.2 ⟨Expr.copying_within _, List.forall_mem_append.2 ⟨yes.within, no.within⟩⟩
  | whileStmt _ _ _ _ _ ih => exact Code.keepsCopying_while _ (ih hw.tail.tail.right.tail)
  | @forStmt _ _ _ _ first _ _ id s _ _ _ _ _ _ start _ _ _ _ written ih =>
    have body := ih hw.tail.tail.right.right.tail.right.tail
    refine ForLoop.keepsCopying_whole (start.keepsCopying hw.tail.tail.left) (ForLoop.keepsCopying_withIncrement ?_)
    unfold ForLoop.body
    split
    · exact ForLoop.keepsCopying_pass (start.other hw.tail.tail.left) (written.declared (by decide)) body id
    · exact body
  | @block _ _ entries _ _ _ ih =>
    refine Code.keepsCopying_stmts fun s hs => ?_
    obtain ⟨entry, mem, rfl⟩ := List.mem_map.1 hs
    exact ih entry mem (hw.tail.left.mono (mem_flatten_of_entry mem))
  | blockStmt _ ih => exact Code.keepsCopying_block (ih hw)
  | statement _ _ ih | declaration _ _ ih => exact ih hw
  | @function name _ _ parameters _ _ _ _ _ kinds _ separated _ _ ih =>
    have body := ih hw.tail.tail.right.tail
    refine ⟨List.not_mem_nil, List.forall_mem_cons.2 ⟨⟨fun mem => ?_, body.other⟩, body.within⟩⟩
    obtain ⟨p, hp, same⟩ := List.mem_map.1 mem
    have listed := separated.subset (List.mem_map_of_mem (f := ([·])) hp) p List.mem_cons_self
    exact hw.tail.tail.left p listed (kinds p hp) same
  | @funDecl _ r w _ written ih =>
    have routine := ih hw.tail
    obtain ⟨mem, identifier⟩ : r.name ∈ w ∧ r.name.kind = .identifier := by
      cases written with
      | function hn => exact ⟨List.mem_cons_self, hn⟩
    refine ⟨fun declared => ?_, List.forall_mem_cons.2 ⟨trivial, routine.within⟩⟩
    exact hw.tail r.name mem identifier (List.mem_singleton.1 declared).symm
  | @classDecl _ name _ _ superclass entries _ _ hn hs _ _ _ ih =>
    have methods : (Code.methods (entries.map (·.1))).KeepsCopying := by
      refine Code.keepsCopying_methods fun r hr => ?_
      obtain ⟨entry, mem, rfl⟩ := List.mem_map.1 hr
      exact ih entry mem (hw.tail.tail.right.tail.left.mono (mem_flatten_of_entry mem))
    have other : slotName ∉ [name.lexeme] := fun mem =>
      hw name (.tail _ List.mem_cons_self) hn (List.mem_singleton.1 mem).symm
    cases hs with
    | none => exact ⟨other, List.forall_mem_cons.2 ⟨trivial, methods.within⟩⟩
    | some _ _ =>
      refine ⟨other, List.forall_mem_cons.2 ⟨trivial, ?_⟩⟩
      exact List.forall_mem_append.2 ⟨Expr.copying_within _, methods.within⟩
  | @program entries _ ih =>
    refine Code.keepsCopying_stmts fun s hs => ?_
    obtain ⟨entry, mem, rfl⟩ := List.mem_map.1 hs
    exact ih entry mem (hw.mono (mem_flatten_of_entry mem))

end Lox
