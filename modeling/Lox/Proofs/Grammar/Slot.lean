/-
The slot of a loop over a variable cannot be named by a program. So only the passes of loops mention it, each the one
that it declares, and the body of a pass has no use of it that is free.
-/
import Lox.Proofs.Grammar.WrittenProgram
import Lox.Proofs.Token.Spelling
import Lox.Proofs.Tree.Free
import Lox.Proofs.Tree.Within
import Lox.Proofs.Binding.Lies

namespace Lox

open ForLoop

/-! ## Tokens -/

/-- Nothing that is read is spelled like the slot: the sign at its start makes a lexeme of its own. -/
theorem Piece.text_ne_slot (c : Char) (cs : List Char) : (read c cs).1.text ≠ slotName.toList := by
  intro e
  obtain ⟨⟨more, start⟩, -⟩ := read_splits c cs
  rw [e] at start
  obtain rfl : '<' = c := (List.cons.inj start).1
  have sign : read '<' cs = readComparison '<' .less .lessEqual cs := rfl
  rw [sign] at e
  unfold readComparison at e
  split at e
  · exact absurd (show ['<', '='] = slotName.toList from e) (by decide)
  · exact absurd (show ['<'] = slotName.toList from e) (by decide)

/-- Whether none of these tokens names the slot. -/
def Unslotted (w : List Token) : Prop := ∀ t ∈ w, t.kind = .identifier → t.lexeme ≠ slotName

theorem lexeme_ne_slot {source : String} {t : Token} (ht : t ∈ (scan source).tokens) : t.lexeme ≠ slotName := by
  obtain ⟨line, rfl⟩ | ⟨text, mem, same⟩ := lexeme_of_scan ht
  · show "" ≠ slotName
    decide
  · rw [same]
    intro e
    have := forall_pieces (P := fun p => p.text ≠ slotName.toList) Piece.text_ne_slot _ _ mem
    exact this (String.ofList_injective (by rw [String.ofList_toList]; exact e))

theorem unslotted_scan (source : String) : Unslotted (scan source).tokens := fun _ ht _ => lexeme_ne_slot ht

namespace Unslotted

variable {v w : List Token} {t : Token}

theorem mono (h : Unslotted w) (sub : ∀ t ∈ v, t ∈ w) : Unslotted v := fun t ht => h t (sub t ht)

theorem tail (h : Unslotted (t :: w)) : Unslotted w := h.mono fun _ => List.mem_cons_of_mem _

theorem left (h : Unslotted (v ++ w)) : Unslotted v := h.mono fun _ => List.mem_append_left _

theorem right (h : Unslotted (v ++ w)) : Unslotted w := h.mono fun _ => List.mem_append_right _

end Unslotted

/-- What an entry of a list is written with is among the tokens of the whole list. -/
theorem mem_flatten_of_entry {α : Type} {entries : List (α × List Token)} {entry : α × List Token}
    (mem : entry ∈ entries) : ∀ t ∈ entry.2, t ∈ (entries.map (·.2)).flatten :=
  fun _ ht => List.mem_flatten.2 ⟨_, List.mem_map_of_mem mem, ht⟩

theorem Separated.subset {ws : List (List Token)} {w u : List Token} (h : Separated ws w) (hu : u ∈ ws) :
    ∀ t ∈ u, t ∈ w := by
  induction h with
  | nil => cases hu
  | one => cases List.mem_singleton.1 hu; exact fun _ => id
  | cons _ _ _ ih =>
    rcases List.mem_cons.1 hu with rfl | hu
    · exact fun t => List.mem_append_left _
    · exact fun t ht => List.mem_append_right _ (.tail _ (ih hu t ht))

/-! ## Expressions -/

theorem Expr.haveFree_iff {n : String} {es : List Expr} : Expr.HaveFree n es ↔ ∃ e ∈ es, e.HasFree n := by
  induction es with
  | nil => simp [HaveFree]
  | cons e es ih => simp [HaveFree, ih]

theorem Expr.Written.closed {k : Nat} {e : Expr} {w : List Token} (h : e.Written k w) (hw : Unslotted w) :
    ¬ e.HasFree slotName := by
  induction h with
  | literal _ _ | self _ _ | super _ _ _ _ => exact id
  | ref _ hn => exact hw _ List.mem_cons_self hn
  | group _ _ _ _ ih => exact ih hw.tail.left
  | @call k callee left paren entries u v _ _ _ _ _ _ separated ih ihs =>
    rintro (free | free)
    · exact ih hw.left free
    · obtain ⟨e, he, free⟩ := Expr.haveFree_iff.1 free
      obtain ⟨entry, mem, rfl⟩ := List.mem_map.1 he
      exact ihs entry mem (hw.right.tail.left.mono (separated.subset (List.mem_map_of_mem mem))) free
  | get _ _ _ _ ih => exact ih hw.left
  | unary _ _ _ ih => exact ih hw.tail
  | logical _ _ _ _ _ ih ih' | binary _ _ _ _ _ ih ih' => exact not_or.2 ⟨ih hw.left, ih' hw.right.tail⟩
  | assign hn _ _ ih => exact not_or.2 ⟨hw _ List.mem_cons_self hn, ih hw.tail.tail⟩
  | set _ _ _ _ _ ih ih' => exact not_or.2 ⟨ih hw.left, ih' hw.right.tail.tail.tail⟩

theorem Expr.WrittenOption.closed {e : Option Expr} {w : List Token} (h : Expr.WrittenOption e w) (hw : Unslotted w) :
    ¬ Expr.OptionHasFree slotName e := by
  cases h with
  | none => rintro ⟨_, ⟨⟩, _⟩
  | some h =>
    rintro ⟨_, ⟨⟩, free⟩
    exact h.closed hw free

theorem Expr.WrittenInitial.closed {e : Option Expr} {w : List Token} (h : Expr.WrittenInitial e w)
    (hw : Unslotted w) : ¬ Expr.OptionHasFree slotName e := by
  cases h with
  | none => rintro ⟨_, ⟨⟩, _⟩
  | some _ h =>
    rintro ⟨_, ⟨⟩, free⟩
    exact h.closed hw.tail free

/-! ## Statements -/

/-- The rules of the grammar that ask for a statement which is no declaration. -/
def statementSymbols : List Symbol :=
  [.statement, .exprStmt, .forStmt, .ifStmt, .printStmt, .returnStmt, .whileStmt]

/-- A statement that is no declaration declares nothing in the scope it stands in. -/
theorem Code.Written.declared {symbol : Symbol} {code : Code} {w : List Token} (h : code.Written symbol w)
    (hs : symbol ∈ statementSymbols) : code.declared = [] := by
  induction h with
  | simple h =>
    cases h with
    | varDecl => exact absurd hs (by decide)
    | exprStmt | printStmt | returnStmt => rfl
  | ifThen _ _ _ _ _ ih => exact ih (by decide)
  | ifElse _ _ _ _ _ _ _ ih ih' => exact List.append_eq_nil_iff.2 ⟨ih (by decide), ih' (by decide)⟩
  | whileStmt _ _ _ _ _ ih => exact ih (by decide)
  | @forStmt _ _ _ _ first _ increment id s _ _ _ _ _ _ _ _ _ _ _ _ ih =>
    have body : (ForLoop.body first id s).declared = [] := by
      unfold ForLoop.body
      split
      · rfl
      · exact ih (by decide)
    cases first with
    | some _ => rfl
    | none =>
      cases increment with
      | none => exact body
      | some _ => rfl
  | blockStmt => rfl
  | statement mem _ ih => exact ih (List.mem_cons_of_mem _ mem)
  | block | function | funDecl | classDecl | declaration | program => exact absurd hs (by decide)

/-- A variable that is declared where the grammar asks for something is named by a token there. -/
theorem Code.Written.varDecl_name {symbol : Symbol} {name : Token} {initial : Option Expr} {w : List Token}
    (h : (Code.stmt (.varDecl name initial)).Written symbol w) : name ∈ w ∧ name.kind = .identifier := by
  generalize hc : Code.stmt (.varDecl name initial) = code at h
  induction h with
  | simple h =>
    cases hc
    cases h with
    | varDecl _ hn _ _ => exact ⟨by simp, hn⟩
  | statement _ _ ih | declaration _ _ ih => exact ih hc
  | @forStmt _ _ _ _ first _ increment => cases first <;> cases hc
  | _ => cases hc

/-! ## Passes -/

/-- Whether a loop over a variable keeps the slot for itself. -/
structure ForLoop.Sealed (name : Token) (body : Stmt) : Prop where
  other : name.lexeme ≠ slotName
  declares : body.declared = []
  closed : ¬ body.HasFree slotName

/-- Whether a part of a program keeps the slot for itself, if it is a pass of a loop. -/
def Code.Sealed (code : Code) : Prop := ∀ id name body, code = .stmt (pass id name body) → ForLoop.Sealed name body

/-- Whether the slot is used by the passes within a part of a program, each its own, and by nothing else. -/
structure Code.KeepsSlot (code : Code) : Prop where
  closed : ¬ code.HasFree slotName
  sealed : ∀ x ∈ code.within, x.Sealed

mutual

theorem Expr.sealed_within : ∀ (e : Expr), ∀ x ∈ e.within, x.Sealed
  | .literal _ | .ref _ _ | .self _ _ | .super _ _ _ =>
    List.forall_mem_singleton.2 (by rintro _ _ _ ⟨⟩)
  | .unary _ e | .group e | .assign _ _ e | .get e _ =>
    List.forall_mem_cons.2 ⟨by rintro _ _ _ ⟨⟩, e.sealed_within⟩
  | .binary _ l r | .logical _ l r =>
    List.forall_mem_cons.2 ⟨by rintro _ _ _ ⟨⟩, List.forall_mem_append.2 ⟨l.sealed_within, r.sealed_within⟩⟩
  | .call f _ es =>
    List.forall_mem_cons.2 ⟨by rintro _ _ _ ⟨⟩, List.forall_mem_append.2 ⟨f.sealed_within, Expr.sealed_withinAll es⟩⟩
  | .set o _ v =>
    List.forall_mem_cons.2 ⟨by rintro _ _ _ ⟨⟩, List.forall_mem_append.2 ⟨v.sealed_within, o.sealed_within⟩⟩

theorem Expr.sealed_withinAll : ∀ (es : List Expr), ∀ x ∈ Expr.withinAll es, x.Sealed
  | [] => by rintro _ ⟨⟩
  | e :: es => List.forall_mem_append.2 ⟨e.sealed_within, Expr.sealed_withinAll es⟩

end

theorem Expr.sealed_withinOption (e : Option Expr) : ∀ x ∈ Expr.withinOption e, x.Sealed := by
  cases e with
  | none => rintro _ ⟨⟩
  | some e => exact e.sealed_within

namespace Stmt

theorem mem_withinAll {x : Code} {ss : List Stmt} : x ∈ withinAll ss ↔ ∃ s ∈ ss, x ∈ s.within := by
  induction ss with
  | nil => simp [withinAll]
  | cons s ss ih => simp [withinAll, ih]

theorem exists_of_haveFree {n : String} {ss : List Stmt} (h : HaveFree n ss) : ∃ s ∈ ss, s.HasFree n := by
  induction ss with
  | nil => exact h.elim
  | cons s ss ih =>
    rcases h with h | ⟨-, h⟩
    · exact ⟨s, List.mem_cons_self, h⟩
    · obtain ⟨t, ht, free⟩ := ih h
      exact ⟨t, .tail _ ht, free⟩

theorem sealed_expression (e : Expr) : ∀ x ∈ (expression e).within, x.Sealed :=
  List.forall_mem_cons.2 ⟨by rintro _ _ _ ⟨⟩, e.sealed_within⟩

theorem sealed_varDecl (name : Token) (initial : Option Expr) : ∀ x ∈ (varDecl name initial).within, x.Sealed :=
  List.forall_mem_cons.2 ⟨by rintro _ _ _ ⟨⟩, Expr.sealed_withinOption initial⟩

theorem sealed_block {ss : List Stmt} (whole : (Code.stmt (block ss)).Sealed)
    (parts : ∀ s ∈ ss, ∀ x ∈ s.within, x.Sealed) : ∀ x ∈ (block ss).within, x.Sealed := by
  refine List.forall_mem_cons.2 ⟨whole, fun x hx => ?_⟩
  obtain ⟨s, hs, hx⟩ := mem_withinAll.1 hx
  exact parts s hs x hx

theorem sealed_whileDo (e : Expr) {s : Stmt} (body : ∀ x ∈ s.within, x.Sealed) : ∀ x ∈ (whileDo e s).within, x.Sealed :=
  List.forall_mem_cons.2 ⟨by rintro _ _ _ ⟨⟩, List.forall_mem_append.2 ⟨e.sealed_within, body⟩⟩

end Stmt

namespace ForLoop

variable {id : UseId} {name : Token} {s : Stmt} {first : Option Stmt} {increment condition : Option Expr}

theorem sealed_pass (own : Sealed name s) (id : UseId) : (Code.stmt (pass id name s)).Sealed := by
  intro id' name' s' e
  have e : pass id name s = pass id' name' s' := Code.stmt.inj e
  simp only [pass, Stmt.block.injEq, List.cons.injEq, Stmt.varDecl.injEq, Option.some.injEq, Expr.ref.injEq] at e
  obtain ⟨⟨-, -, rfl⟩, ⟨-, rfl, -⟩, -⟩ := e
  exact own

/-- A block that does not start with the slot is no pass. -/
theorem sealed_of_head {ss : List Stmt}
    (h : ∀ name initial, ss.head? = some (.varDecl name initial) → name.lexeme ≠ slotName) : (Code.stmt (.block ss)).Sealed := by
  intro id name body e
  have e : Stmt.block ss = pass id name body := Code.stmt.inj e
  simp only [pass, Stmt.block.injEq] at e
  exact absurd rfl (h (slot name) _ (by rw [e]; rfl))

/-- The pass of a loop keeps the slot that it declares for itself. -/
theorem keepsSlot_pass (own : Sealed name s) (h : (Code.stmt s).KeepsSlot) (id : UseId) :
    (Code.stmt (pass id name s)).KeepsSlot := by
  constructor
  · rintro (⟨_, ⟨⟩, free⟩ | ⟨undeclared, -⟩)
    · exact own.other free
    · exact undeclared List.mem_cons_self
  · refine Stmt.sealed_block (sealed_pass own id) ?_
    simp only [List.forall_mem_cons]
    refine ⟨Stmt.sealed_varDecl _ _, Stmt.sealed_block (sealed_of_head ?_) ?_, Stmt.sealed_expression _, nofun⟩
    · rintro _ _ ⟨⟩
      exact own.other
    · simp only [List.forall_mem_cons]
      exact ⟨Stmt.sealed_varDecl _ _, h.sealed, Stmt.sealed_expression _, nofun⟩

theorem keepsSlot_withIncrement (closed : ¬ Expr.OptionHasFree slotName increment) (h : (Code.stmt s).KeepsSlot)
    (declares : s.declared = []) : (Code.stmt (withIncrement increment s)).KeepsSlot := by
  cases increment with
  | none => exact h
  | some e =>
    constructor
    · rintro (free | ⟨-, free | ⟨-, ⟨⟩⟩⟩)
      · exact h.closed free
      · exact closed ⟨e, rfl, free⟩
    · refine Stmt.sealed_block (sealed_of_head ?_) ?_
      · intro name initial e
        cases e
        cases declares
      · simp only [List.forall_mem_cons]
        exact ⟨h.sealed, Stmt.sealed_expression e, nofun⟩

theorem keepsSlot_whole {body : Stmt} (start : ∀ s ∈ first, (Code.stmt s).KeepsSlot)
    (named : ∀ name initial, first = some (.varDecl name initial) → name.lexeme ≠ slotName)
    (closed : ¬ Expr.OptionHasFree slotName condition) (h : (Code.stmt body).KeepsSlot) :
    (Code.stmt (whole first condition body)).KeepsSlot := by
  have loop : (Code.stmt (.whileDo (condition.getD (.literal (.bool true))) body)).KeepsSlot := by
    constructor
    · rintro (free | free)
      · cases condition with
        | none => exact free
        | some e => exact closed ⟨e, rfl, free⟩
      · exact h.closed free
    · exact Stmt.sealed_whileDo _ h.sealed
  cases first with
  | none => exact loop
  | some s =>
    constructor
    · rintro (free | ⟨-, free | ⟨-, ⟨⟩⟩⟩)
      · exact (start s rfl).closed free
      · exact loop.closed free
    · refine Stmt.sealed_block (sealed_of_head ?_) ?_
      · rintro name initial ⟨⟩
        exact named name initial rfl
      · simp only [List.forall_mem_cons]
        exact ⟨(start s rfl).sealed, loop.sealed, nofun⟩

end ForLoop

/-! ## Programs -/

theorem Stmt.Written.keepsSlot {symbol : Symbol} {s : Stmt} {w : List Token} (h : s.Written symbol w)
    (hw : Unslotted w) : (Code.stmt s).KeepsSlot := by
  cases h with
  | varDecl _ _ initial _ => exact ⟨initial.closed hw.tail.tail.left, Stmt.sealed_varDecl _ _⟩
  | exprStmt he _ => exact ⟨he.closed hw.left, Stmt.sealed_expression _⟩
  | printStmt _ he _ =>
    exact ⟨he.closed hw.tail.left, List.forall_mem_cons.2 ⟨by rintro _ _ _ ⟨⟩, Expr.sealed_within _⟩⟩
  | returnStmt _ value _ =>
    exact ⟨value.closed hw.tail.left, List.forall_mem_cons.2 ⟨by rintro _ _ _ ⟨⟩, Expr.sealed_withinOption _⟩⟩

namespace Code

theorem keepsSlot_stmts {ss : List Stmt} (h : ∀ s ∈ ss, (stmt s).KeepsSlot) : (stmts ss).KeepsSlot := by
  constructor
  · intro free
    obtain ⟨s, hs, free⟩ := Stmt.exists_of_haveFree free
    exact (h s hs).closed free
  · intro x hx
    obtain ⟨s, hs, hx⟩ := Stmt.mem_withinAll.1 hx
    exact (h s hs).sealed x hx

theorem keepsSlot_methods {rs : List (Routine Stmt)} (h : ∀ r ∈ rs, (routine r).KeepsSlot) :
    (methods rs).KeepsSlot := by
  induction rs with
  | nil => exact ⟨id, by rintro _ ⟨⟩⟩
  | cons r rs ih =>
    obtain ⟨first, rest⟩ := List.forall_mem_cons.1 h
    exact ⟨not_or.2 ⟨first.closed, (ih rest).closed⟩, List.forall_mem_append.2 ⟨first.sealed, (ih rest).sealed⟩⟩

end Code

theorem Stmt.WrittenStart.keepsSlot {first : Option Stmt} {w : List Token} (h : Stmt.WrittenStart first w)
    (hw : Unslotted w) : ∀ s ∈ first, (Code.stmt s).KeepsSlot := by
  cases h with
  | none _ => rintro _ ⟨⟩
  | some _ h =>
    rintro _ ⟨⟩
    exact h.keepsSlot hw

/-- The variable of a loop is not named like the slot. -/
theorem Stmt.WrittenStart.other {name : Token} {initial : Option Expr} {w : List Token}
    (h : Stmt.WrittenStart (Option.some (.varDecl name initial)) w) (hw : Unslotted w) : name.lexeme ≠ slotName := by
  cases h with
  | some _ h =>
    obtain ⟨mem, identifier⟩ := (Code.Written.simple h).varDecl_name
    exact hw name mem identifier

/-- A block that is written does not start with the slot. -/
theorem Code.Written.sealed_block {ss : List Stmt} {w : List Token} (h : (Code.stmts ss).Written .block w)
    (hw : Unslotted w) : (Code.stmt (.block ss)).Sealed := by
  refine ForLoop.sealed_of_head fun name initial e => ?_
  cases h with
  | @block _ _ entries _ each _ =>
    cases entries with
    | nil => cases e
    | cons entry entries =>
      have written := each entry List.mem_cons_self
      rw [show entry.1 = .varDecl name initial from Option.some.inj e] at written
      obtain ⟨mem, identifier⟩ := written.varDecl_name
      exact hw name (.tail _ (List.mem_append_left _ (List.mem_append_left _ mem))) identifier

/-- The slot of a loop is used by passes only, in a part of a program that is written without naming it. -/
theorem Code.Written.keepsSlot {symbol : Symbol} {code : Code} {w : List Token} (h : code.Written symbol w)
    (hw : Unslotted w) : code.KeepsSlot := by
  induction h with
  | simple h => exact h.keepsSlot hw
  | ifThen _ _ he _ _ ih =>
    have yes := ih hw.tail.tail.right.tail
    refine ⟨not_or.2 ⟨he.closed hw.tail.tail.left, yes.closed⟩, List.forall_mem_cons.2 ⟨by rintro _ _ _ ⟨⟩, ?_⟩⟩
    exact List.forall_mem_append.2 ⟨Expr.sealed_within _, yes.sealed⟩
  | ifElse _ _ he _ _ _ _ ih ih' =>
    have yes := ih hw.tail.tail.right.tail.left
    have no := ih' hw.tail.tail.right.tail.right.tail
    refine ⟨not_or.2 ⟨he.closed hw.tail.tail.left, not_or.2 ⟨yes.closed, no.closed⟩⟩, ?_⟩
    refine List.forall_mem_cons.2 ⟨by rintro _ _ _ ⟨⟩, List.forall_mem_append.2 ⟨Expr.sealed_within _, ?_⟩⟩
    exact List.forall_mem_append.2 ⟨yes.sealed, no.sealed⟩
  | whileStmt _ _ he _ _ ih =>
    have body := ih hw.tail.tail.right.tail
    exact ⟨not_or.2 ⟨he.closed hw.tail.tail.left, body.closed⟩, Stmt.sealed_whileDo _ body.sealed⟩
  | @forStmt _ _ _ _ first _ _ id s _ _ _ _ _ _ start hc _ hi _ written ih =>
    have named : ∀ name initial, first = some (.varDecl name initial) → name.lexeme ≠ slotName := by
      rintro name initial rfl
      exact start.other hw.tail.tail.left
    have body := ih hw.tail.tail.right.right.tail.right.tail
    have declares : s.declared = [] := written.declared (by decide)
    refine ForLoop.keepsSlot_whole (start.keepsSlot hw.tail.tail.left) named (hc.closed hw.tail.tail.right.left) ?_
    refine ForLoop.keepsSlot_withIncrement (hi.closed hw.tail.tail.right.right.tail.left) ?_ ?_
    all_goals unfold ForLoop.body
    all_goals split
    · exact ForLoop.keepsSlot_pass ⟨named _ _ rfl, declares, body.closed⟩ body id
    · exact body
    · rfl
    · exact declares
  | @block _ _ entries _ _ _ ih =>
    refine Code.keepsSlot_stmts fun s hs => ?_
    obtain ⟨entry, mem, rfl⟩ := List.mem_map.1 hs
    exact ih entry mem (hw.tail.left.mono (mem_flatten_of_entry mem))
  | blockStmt written ih =>
    exact ⟨(ih hw).closed, List.forall_mem_cons.2 ⟨written.sealed_block hw, (ih hw).sealed⟩⟩
  | statement _ _ ih | declaration _ _ ih => exact ih hw
  | function _ _ _ _ _ _ _ ih =>
    have body := ih hw.tail.tail.right.tail
    exact ⟨fun free => body.closed free.2, List.forall_mem_cons.2 ⟨by rintro _ _ _ ⟨⟩, body.sealed⟩⟩
  | funDecl _ _ ih =>
    have routine := ih hw.tail
    exact ⟨routine.closed, List.forall_mem_cons.2 ⟨by rintro _ _ _ ⟨⟩, routine.sealed⟩⟩
  | @classDecl _ _ _ _ superclass entries _ _ _ hs _ _ _ ih =>
    have methods : (Code.methods (entries.map (·.1))).KeepsSlot := by
      refine Code.keepsSlot_methods fun r hr => ?_
      obtain ⟨entry, mem, rfl⟩ := List.mem_map.1 hr
      exact ih entry mem (hw.tail.tail.right.tail.left.mono (mem_flatten_of_entry mem))
    cases hs with
    | none => exact ⟨methods.closed, List.forall_mem_cons.2 ⟨by rintro _ _ _ ⟨⟩, methods.sealed⟩⟩
    | some _ hn =>
      refine ⟨not_or.2 ⟨hw.tail.tail.left _ (by simp) hn, methods.closed⟩, ?_⟩
      refine List.forall_mem_cons.2 ⟨by rintro _ _ _ ⟨⟩, ?_⟩
      exact List.forall_mem_append.2 ⟨Expr.sealed_within _, methods.sealed⟩
  | @program entries _ ih =>
    refine Code.keepsSlot_stmts fun s hs => ?_
    obtain ⟨entry, mem, rfl⟩ := List.mem_map.1 hs
    exact ih entry mem (hw.mono (mem_flatten_of_entry mem))

end Lox
