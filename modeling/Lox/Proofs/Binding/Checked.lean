/-
What holds at every stop of a program that breaks no rule and whose uses are numbered apart (`Checked`): the
walk through the part finds no error, the table made in the end has for the uses of the part just what this
walk entered, and the open scopes are as `Fits` and `Housed` say. So the table gives for a use the innermost
scope that has its name where the walk comes to it.
-/
import Lox.Proofs.Binding.Open

namespace Lox

namespace Stop

variable {table : Table} {x y : Stop}

/-! ## Forms of parts -/

theorem formed_exprParts {a : Surroundings} {w : Walk} {d : List Declarations} {e : Expr}
    (h : y ∈ exprParts a w d e) (he : e.Formed) : y.code.Formed := by
  cases e with
  | literal _ | ref _ _ | self _ _ | super _ _ _ => exact absurd h List.not_mem_nil
  | group _ | get _ _ =>
    cases List.mem_singleton.1 h
    exact he
  | unary _ _ | assign _ _ _ =>
    cases List.mem_singleton.1 h
    exact he.2
  | binary _ _ _ =>
    obtain rfl | rfl := List.mem_pair.1 h
    · exact he.2.1
    · exact he.2.2
  | logical _ _ _ | call _ _ _ =>
    obtain rfl | rfl := List.mem_pair.1 h
    · exact he.1
    · exact he.2
  | set _ _ _ =>
    obtain rfl | rfl := List.mem_pair.1 h
    · exact he.2
    · exact he.1

theorem formed_stmtParts {a : Surroundings} {w : Walk} {d : List Declarations} {s : Stmt}
    (h : y ∈ stmtParts a w d s) (hs : s.Formed) : y.code.Formed := by
  cases s with
  | expression _ | print _ | block _ =>
    cases List.mem_singleton.1 h
    exact hs
  | varDecl name initial =>
    cases initial with
    | none => exact absurd h List.not_mem_nil
    | some e =>
      cases List.mem_singleton.1 h
      exact hs.2 e rfl
  | ifElse c yes no =>
    cases no with
    | none =>
      obtain rfl | rfl := List.mem_pair.1 h
      · exact hs.1
      · exact hs.2.1
    | some no =>
      simp only [stmtParts, List.mem_cons, List.not_mem_nil, or_false] at h
      obtain rfl | rfl | rfl := h
      · exact hs.1
      · exact hs.2.1.1
      · exact hs.2.2.1
  | whileDo c body =>
    obtain rfl | rfl := List.mem_pair.1 h
    · exact hs.1
    · exact hs.2.1
  | funDecl r =>
    cases List.mem_singleton.1 h
    exact hs.2
  | ret k value =>
    cases value with
    | none => exact absurd h List.not_mem_nil
    | some e =>
      cases List.mem_singleton.1 h
      exact hs e rfl
  | classDecl name superclass rs =>
    cases superclass with
    | none =>
      cases List.mem_singleton.1 h
      exact hs.2
    | some e =>
      obtain rfl | rfl := List.mem_pair.1 h
      · exact hs.2.1.formed
      · exact hs.2.2

/-- What the grammar promises about a part it promises about the parts of that. -/
theorem formed_of_mem_parts (h : y ∈ x.parts) (hx : x.code.Formed) : y.code.Formed := by
  obtain ⟨code, a, w, d⟩ := x
  cases code with
  | expr e => exact formed_exprParts h hx
  | stmt s => exact formed_stmtParts h hx
  | routine r =>
    obtain ⟨name, parameters, body⟩ := r
    cases List.mem_singleton.1 h
    exact hx.2
  | exprs l | stmts l | methods l =>
    cases l with
    | nil => exact absurd h List.not_mem_nil
    | cons _ _ =>
      obtain rfl | rfl := List.mem_pair.1 h
      · exact hx.1
      · exact hx.2

/-! ## Errors and entries -/

/-- What the walk through a part enters stays in the table, errors or not. -/
structure Entered (table : Table) (x : Stop) : Prop where
  apart : x.code.uses.Nodup
  /-- The uses of the part are not entered before. -/
  fresh : ∀ id ∈ x.code.uses, x.walk.table.get? id = none
  kept : ∀ id ∈ x.code.uses, table.get? id = x.after.table.get? id

theorem Entered.part (h : y ∈ x.parts) (hx : x.Entered table) : y.Entered table := by
  obtain ⟨before, after, hU, hB, hA⟩ := section_of_mem_parts h
  have apart := hx.apart
  rw [hU, List.nodup_append] at apart
  obtain ⟨-, apart, front⟩ := apart
  rw [List.nodup_append] at apart
  obtain ⟨own, -, back⟩ := apart
  have mem : ∀ id ∈ y.code.uses, id ∈ x.code.uses := fun id hid => by
    rw [hU]
    exact List.mem_append_right _ (List.mem_append_left _ hid)
  refine ⟨own, fun id hid => ?_, fun id hid => ?_⟩
  · rw [hB.table id fun hb => front id hb id (List.mem_append_left _ hid) rfl]
    exact hx.fresh id (mem id hid)
  · rw [hx.kept id (mem id hid), hA.table id fun ha => back id hid id ha rfl]

/-- The walk through a part finds no error, and what it enters stays in the table. -/
structure Clean (table : Table) (x : Stop) : Prop extends Entered table x where
  errors : x.after.errors = #[]

theorem Clean.part (h : y ∈ x.parts) (hx : x.Clean table) : y.Clean table := by
  obtain ⟨_, _, -, -, after⟩ := section_of_mem_parts h
  exact ⟨hx.toEntered.part h, after.errors hx.errors⟩

end Stop

/-- A use that had no entry gets one for the innermost scope that has its name. -/
theorem Walk.get?_bind {w : Walk} {id : UseId} (h : w.table.get? id = none) (name : String) :
    (w.bind id name).table.get? id = w.scopes.findIdx? (·.contains name) := by
  unfold bind
  split
  · next d hd => simp [hd]
  · next hd => rw [h, hd]

theorem Walk.recordIf_clean {w : Walk} {condition : Bool} {fault : BindingFault} {site : Token}
    (h : (recordIf condition fault site w).errors = #[]) : condition = false := by
  cases condition with
  | false => rfl
  | true => simp [recordIf, record] at h

/-! ## Rules that were kept -/

namespace Stop

variable {table : Table} {x : Stop}

theorem Clean.not_beingDeclared (h : x.Clean table) {id : UseId} {name : Token}
    (hc : x.code = .expr (.ref id name)) : x.walk.beingDeclared name.lexeme = false := by
  obtain ⟨code, a, w, d⟩ := x
  subst hc
  exact Walk.recordIf_clean ((Walk.Leads.bind _ id name.lexeme).errors h.errors)

/-- The word `this` stands in classes only. -/
theorem Clean.in_class (h : x.Clean table) {id : UseId} {keyword : Token}
    (hc : x.code = .expr (.self id keyword)) : x.around.home ≠ .noClass := by
  obtain ⟨code, a, w, d⟩ := x
  subst hc
  intro hh
  have errors : (w.self a.home id keyword).errors = #[] := h.errors
  rw [Walk.self, if_pos hh] at errors
  simp [Walk.record] at errors

/-- The word `super` stands in subclasses only. -/
theorem Clean.in_subclass (h : x.Clean table) {id : UseId} {keyword method : Token}
    (hc : x.code = .expr (.super id keyword method)) : x.around.home = .subclass := by
  obtain ⟨code, a, w, d⟩ := x
  subst hc
  have errors : (w.super a.home id keyword).errors = #[] := h.errors
  cases hh : a.home with
  | subclass => rfl
  | noClass | plainClass =>
    rw [hh] at errors
    have := (Walk.Leads.bind _ id superName).errors errors
    simp [Home.superFault?, Walk.record] at this

/-- The word `return` stands in routines only, and gives no value in an initializer. -/
theorem Clean.return_inside (h : x.Clean table) {keyword : Token} {value : Option Expr}
    (hc : x.code = .stmt (.ret keyword value)) :
    x.around.body ≠ .top ∧ (x.around.body = .initializer → value = none) := by
  obtain ⟨code, a, w, d⟩ := x
  subst hc
  have errors := (Expr.walkOption_leads a.home value _).errors h.errors
  have outside := Walk.recordIf_clean ((Walk.Leads.recordIf _ _ _ _).errors errors)
  have given := Walk.recordIf_clean errors
  refine ⟨fun hb => ?_, fun hb => ?_⟩
  · rw [show a.body = .top from hb] at outside
    simp at outside
  · rw [show a.body = .initializer from hb] at given
    simpa using given

/-- A class does not inherit from itself. -/
theorem Clean.other_superclass (h : x.Clean table) {name parent : Token} {id : UseId} {rs : List (Routine Stmt)}
    (hc : x.code = .stmt (.classDecl name (some (.ref id parent)) rs)) : parent.lexeme ≠ name.lexeme := by
  obtain ⟨code, a, w, d⟩ := x
  subst hc
  have errors : ((walkMethods .subclass rs _).closeScope.closeScope).errors = #[] := h.errors
  have inside := (Walk.Leads.inWords (walkMethods_leads .subclass rs _)).errors errors
  have checked := Walk.recordIf_clean (((Expr.ref id parent).walk_leads .subclass _).errors inside)
  intro e
  simp [e] at checked

/-- The table has for a use the innermost of the scopes with its name that are open there. -/
theorem Clean.get?_use (h : x.Clean table) {e : Expr} {id : UseId} {name : String} (hc : x.code = .expr e)
    (hu : e.use? = some (id, name)) : table.get? id = x.walk.scopes.findIdx? (·.contains name) := by
  have inside := fun {id keyword} (he : e = .self id keyword) => h.in_class (hc.trans (congrArg _ he))
  obtain ⟨code, a, w, d⟩ := x
  subst hc
  cases e with
  | literal _ | unary _ _ | binary _ _ _ | logical _ _ _ | group _ | call _ _ _ | get _ _ | set _ _ _ => cases hu
  | ref id name =>
    cases hu
    have mem : id ∈ (Code.expr (.ref id name)).uses := List.mem_singleton_self id
    rw [h.kept id mem]
    have fresh : (w.recordIf (w.beingDeclared name.lexeme) .usedInOwnInitializer name).table.get? id = none := by
      rw [(Walk.Leads.recordIf _ _ _ _).table id List.not_mem_nil]
      exact h.fresh id mem
    exact (Walk.get?_bind fresh _).trans (by rw [Walk.scopes_recordIf])
  | assign id name value =>
    cases hu
    have mem : id ∈ (Code.expr (.assign id name value)).uses := List.mem_append_right _ (List.mem_singleton_self id)
    have apart := (List.nodup_append.1 h.apart).2.2
    rw [h.kept id mem]
    have fresh : (value.walk a.home w).table.get? id = none := by
      rw [(value.walk_leads a.home w).table id fun hv => apart id hv id (List.mem_singleton_self id) rfl]
      exact h.fresh id mem
    exact (Walk.get?_bind fresh _).trans (by rw [Expr.scopes_walk])
  | self id keyword =>
    cases hu
    have mem : id ∈ (Code.expr (.self id keyword)).uses := List.mem_singleton_self id
    rw [h.kept id mem]
    have : after ⟨.expr (.self id keyword), a, w, d⟩ = w.bind id thisName := if_neg (inside rfl)
    rw [this]
    exact Walk.get?_bind (h.fresh id mem) _
  | super id keyword method =>
    cases hu
    have mem : id ∈ (Code.expr (.super id keyword method)).uses := List.mem_singleton_self id
    rw [h.kept id mem]
    have home : a.home = .subclass := h.in_subclass rfl
    have : after ⟨.expr (.super id keyword method), a, w, d⟩ = w.bind id superName := by
      simp [after, Code.walk, Expr.walk, Walk.super, home, Home.superFault?]
    rw [this]
    exact Walk.get?_bind (h.fresh id mem) _

/-! ## All together -/

/-- What holds at every stop of a program that breaks no rule. -/
structure Checked (table : Table) (x : Stop) : Prop where
  formed : x.code.Formed
  clean : x.Clean table
  fits : x.Fits
  housed : x.Housed

theorem Checked.part {y : Stop} (h : y ∈ x.parts) (hx : x.Checked table) : y.Checked table :=
  have formed := formed_of_mem_parts h hx.formed
  ⟨formed, hx.clean.part h, hx.fits.part h formed hx.formed, hx.housed.part h hx.formed⟩

/-- The superclass of a class is a name. -/
theorem Checked.namesClass (h : x.Checked table) {name : Token} {e : Expr} {rs : List (Routine Stmt)}
    (hc : x.code = .stmt (.classDecl name (some e) rs)) : e.NamesClass := by
  have formed := h.formed
  rw [hc] at formed
  exact formed.2.1

theorem Checked.words (h : x.Checked table) {e : Expr} (hc : x.code = .expr e) (he : ¬ e.NamesClass) :
    WordsAt x.walk.scopes x.around.home := by
  refine h.housed.resolve_left ?_
  rintro ⟨_, hc', names⟩
  cases hc.symm.trans hc'
  exact he names

/-- Where the word `this` stands, an open scope has it. -/
theorem Checked.this_at (h : x.Checked table) {id : UseId} {keyword : Token}
    (hc : x.code = .expr (.self id keyword)) :
    keyword.lexeme = thisName ∧ ∃ i, x.walk.scopes.findIdx? (·.contains thisName) = some i := by
  have formed := h.formed
  rw [hc] at formed
  refine ⟨formed, ?_⟩
  have words := h.words hc (by rintro ⟨_, _, h, -⟩; cases h)
  have home := h.clean.in_class hc
  cases hh : x.around.home with
  | noClass => exact absurd hh home
  | plainClass =>
    rw [hh] at words
    exact words
  | subclass =>
    rw [hh] at words
    obtain ⟨i, hi, -⟩ := words
    exact ⟨i, hi⟩

/-- Where the word `super` stands, an open scope has it, and the one further in has `this`. -/
theorem Checked.super_at (h : x.Checked table) {id : UseId} {keyword method : Token}
    (hc : x.code = .expr (.super id keyword method)) :
    ∃ i, x.walk.scopes.findIdx? (·.contains thisName) = some i ∧
      x.walk.scopes.findIdx? (·.contains superName) = some (i + 1) := by
  have words := h.words hc (by rintro ⟨_, _, h, -⟩; cases h)
  rw [h.clean.in_subclass hc] at words
  exact words

end Stop

/-- Whether statements break no rule, and this is their table. -/
structure Resolved (statements : List Stmt) (table : Table) : Prop where
  formed : Stmt.FormedAll statements
  apart : (Stmt.usesAll statements).Nodup
  errors : (resolve statements).errors = []
  table : (resolve statements).table = table

theorem Resolved.checked_start {statements : List Stmt} {table : Table} (h : Resolved statements table) :
    (Stop.start statements).Checked table where
  formed := h.formed
  clean := {
    errors := Array.toList_eq_nil_iff.1 h.errors
    apart := h.apart
    fresh := fun id _ => Table.get?_empty id
    kept := fun id _ => by rw [← h.table]; rfl }
  fits := {
    within := by simp [Stop.scopes_after, Stop.start, Walk.start, settle]
    worded := by simp [Stop.start, Walk.start]
    outer := by simp [Stop.start, Walk.start]
    complete := by simp [Stop.start, Walk.start] }
  housed := .inr trivial

theorem Resolved.checked {statements : List Stmt} {table : Table} (h : Resolved statements table) {x : Stop}
    (hx : Visits statements x) : x.Checked table :=
  hx.induct h.checked_start fun _ hx _ hy => hx.part hy

/-- No word of classes is declared anywhere in the program. -/
theorem Resolved.nameable {statements : List Stmt} {table : Table} (h : Resolved statements table) {x : Stop}
    (hx : Visits statements x) {code : Code} (hc : x.code = code) {name : String} (hn : name ∈ code.declared) :
    Nameable name := (h.checked hx).formed.declared name (hc ▸ hn)

end Lox
