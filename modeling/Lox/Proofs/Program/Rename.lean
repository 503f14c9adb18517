/-
A local variable may have any name. If another name, that no variable has, is given to its declaration and to the
uses that the walk has found to be its own, then the program breaks no rule, its table is the same, and it ends as
before. Only where a variable is reported as undefined the report may have the new name.
-/
import Lox.Proofs.Grammar.Statement
import Lox.Proofs.Pair.Programs
import Lox.Proofs.Pair.Renamed
import Lox.Proofs.Program.Run

namespace Lox

variable {table : Table}

/-! ## Names are declared once -/

namespace Stop

/-- A statement that breaks no rule declares names once, and names that its scope does not have yet. -/
theorem Checked.declares_once {s : Stmt} {a : Surroundings} {w : Walk} {d : List Declarations}
    (h : Checked table ⟨.stmt s, a, w, d⟩) {own : Declarations} {outer : List Declarations}
    (hw : w.scopes = own :: outer) : s.declared.Nodup ∧ ∀ n ∈ s.declared, own.contains n = false := by
  have one (name : Token) (clean : (w.declare name).errors = #[]) :
      [name.lexeme].Nodup ∧ ∀ n ∈ [name.lexeme], own.contains n = false := by
    refine ⟨by simp, List.forall_mem_singleton.2 ?_⟩
    have := Walk.not_declared clean
    rwa [Walk.declared, hw] at this
  have introduced (name : Token) (clean : (w.introduce name).errors = #[]) :=
    one name ((Walk.Leads.define _ name).errors clean)
  have quiet : s.declared = [] → s.declared.Nodup ∧ ∀ n ∈ s.declared, own.contains n = false := by
    intro e
    rw [e]
    exact ⟨.nil, by rintro _ ⟨⟩⟩
  cases s with
  | expression _ | print _ | block _ | ret _ _ => exact quiet rfl
  | varDecl name initial =>
    refine one name ((Expr.walkOption_leads a.home initial _).errors ?_)
    exact (Walk.Leads.define _ name).errors h.clean.errors
  | funDecl r => exact introduced r.name (h.part List.mem_cons_self).clean.before
  | classDecl name superclass rs =>
    cases superclass with
    | none =>
      have inside := (h.part List.mem_cons_self).clean.before
      exact introduced name ((Walk.Leads.openWordScope _ thisName).errors inside)
    | some e =>
      have inside := (h.part List.mem_cons_self).clean.before
      exact introduced name ((Walk.Leads.checkSuperclass _ name e).errors inside)
  | ifElse _ _ no =>
    cases no with
    | none => exact quiet h.formed.2.2
    | some no => exact quiet (List.append_eq_nil_iff.2 ⟨h.formed.2.1.2, h.formed.2.2.2⟩)
  | whileDo _ _ => exact quiet h.formed.2.2

/-- So do the statements of a scope. -/
theorem Checked.declare_once {a : Surroundings} {d : List Declarations} :
    ∀ {ss : List Stmt} {w : Walk} {own : Declarations} {outer : List Declarations},
      Checked table ⟨.stmts ss, a, w, d⟩ → w.scopes = own :: outer →
        (Stmt.declaredAll ss).Nodup ∧ ∀ n ∈ Stmt.declaredAll ss, own.contains n = false
  | [], _, _, _, _, _ => ⟨.nil, by rintro _ ⟨⟩⟩
  | s :: ss, w, own, outer, h, hw => by
    obtain ⟨apart, new⟩ := (h.part List.mem_cons_self).declares_once hw
    have later : (s.walk a w).scopes = own.complete s.declared :: outer := by
      rw [Stmt.scopes_walk, hw]
      rfl
    obtain ⟨rest, newer⟩ := Checked.declare_once (h.part (.tail _ List.mem_cons_self)) later
    have apart' : ∀ n ∈ Stmt.declaredAll ss, n ∉ s.declared ∧ own.contains n = false := by
      intro n hn
      have := newer n hn
      rw [← Bool.not_eq_true, Declarations.contains_complete, not_or, Bool.not_eq_true] at this
      exact this
    refine ⟨List.nodup_append.2 ⟨apart, rest, ?_⟩, List.forall_mem_append.2 ⟨new, fun n hn => (apart' n hn).2⟩⟩
    rintro n hs _ hn rfl
    exact (apart' n hn).1 hs

/-- A block that declares a variable declares no function and no class of the same name. -/
theorem Checked.block_other {ss : List Stmt} {a : Surroundings} {w : Walk} {d : List Declarations} {n : String}
    (h : Checked table ⟨.stmt (.block ss), a, w, d⟩) (declares : Stmt.DeclareVariable n ss) :
    n ∉ Stmt.introducedAll ss :=
  Stmt.not_introduced (Checked.declare_once (h.part List.mem_cons_self) rfl).1 declares

/-- A routine that has a parameter or a variable declares no function and no class of the same name. -/
theorem Checked.routine_other {name : Token} {parameters : List Token} {ss : List Stmt} {a : Surroundings} {w : Walk}
    {d : List Declarations} {n : String} (h : Checked table ⟨.routine ⟨name, parameters, ss⟩, a, w, d⟩)
    (declares : n ∈ parameters.map (·.lexeme) ∨ Stmt.DeclareVariable n ss) : n ∉ Stmt.introducedAll ss := by
  have scopes : (parameters.foldl Walk.introduce w.openScope).scopes =
      Declarations.complete (parameters.map (·.lexeme)) .empty :: w.scopes := by
    rw [Walk.scopes_introduceAll]
    rfl
  obtain ⟨apart, new⟩ := Checked.declare_once (h.part List.mem_cons_self) scopes
  rcases declares with parameter | declares
  · intro introduced
    have := new n (Stmt.introducedAll_subset n introduced)
    rw [(Declarations.contains_complete _ _ n).2 (.inl parameter)] at this
    cases this
  · exact Stmt.not_introduced apart declares

end Stop

/-- What holds at a stop and goes from a stop to its parts holds at a stop of the part that is exchanged. -/
theorem Swaps.exists_stop {a b code code' : Code} {P : Stop → Prop} (step : ∀ x, P x → ∀ y ∈ x.parts, P y)
    (h : Swaps a b code code') {x : Stop} (hx : P x) (hc : x.code = code) : ∃ y, P y ∧ y.code = a := by
  induction h generalizing x with
  | here => exact ⟨x, hx, hc⟩
  | @yes _ _ _ no _ ih =>
    obtain ⟨code, a, w, d⟩ := x
    cases hc
    cases no with
    | none | some _ => exact ih (step _ hx _ (.tail _ List.mem_cons_self)) rfl
  | no _ ih =>
    obtain ⟨code, a, w, d⟩ := x
    cases hc
    exact ih (step _ hx _ (.tail _ (.tail _ List.mem_cons_self))) rfl
  | @classDecl _ superclass _ _ _ ih =>
    obtain ⟨code, a, w, d⟩ := x
    cases hc
    cases superclass with
    | none => exact ih (step _ hx _ List.mem_cons_self) rfl
    | some _ => exact ih (step _ hx _ (.tail _ List.mem_cons_self)) rfl
  | block _ ih | funDecl _ ih | body _ ih | first _ ih | method _ ih =>
    obtain ⟨code, a, w, d⟩ := x
    cases hc
    exact ih (step _ hx _ List.mem_cons_self) rfl
  | repeated _ ih | later _ ih | laterMethod _ ih =>
    obtain ⟨code, a, w, d⟩ := x
    cases hc
    exact ih (step _ hx _ (.tail _ List.mem_cons_self)) rfl

/-! ## Scopes with a new name -/

theorem Stmt.DeclareVariable.mem {n : String} {ss : List Stmt} (h : Stmt.DeclareVariable n ss) :
    n ∈ Stmt.declaredAll ss := by
  obtain ⟨name, initial, mem, rfl⟩ := h
  exact List.mem_flatMap.2 ⟨_, mem, List.mem_cons_self⟩

namespace Renaming.Local

variable {r : Renaming} {links : List Link} {a b : Code}

/-- The old name is one of those in the scope. -/
theorem exists_named (h : r.Local a b) : ∃ x ∈ a.within, r.old ∈ x.named := by
  cases h with
  | block declares =>
    obtain ⟨x, hx, named⟩ := Stmt.exists_namedAll declares.mem
    exact ⟨x, .tail _ hx, named⟩
  | routine declares =>
    rcases declares with parameter | declares
    · exact ⟨_, List.mem_cons_self, parameter⟩
    · obtain ⟨x, hx, named⟩ := Stmt.exists_namedAll declares.mem
      exact ⟨x, .tail _ hx, named⟩

/-- The old name can be a name. -/
theorem nameable (h : r.Local a b) (formed : a.Formed) : Nameable r.old := by
  cases h with
  | block declares => exact Stmt.FormedAll.declared formed _ declares.mem
  | routine declares =>
    rcases declares with parameter | declares
    · obtain ⟨p, hp, same⟩ := List.mem_map.1 parameter
      exact same ▸ formed.1 p hp
    · exact Stmt.FormedAll.declared formed.2 _ declares.mem

/-- The scope of a variable is alike to the scope with the new name, whatever scopes of the same names are around. -/
theorem alike (h : r.Local a b) {x : Stop} (checked : x.Checked r.table) (hx : x.code = a)
    (fresh : ∀ x ∈ a.within, ∀ n ∈ x.named, n ≠ r.new) (same : AllSame links) :
    Alike r.change r.manner links a b := by
  obtain ⟨code, around, w, d⟩ := x
  cases hx
  cases h with
  | block declares =>
    refine .block .renamed (Stmt.alike_renameAll ⟨Under.start same, checked.formed, fun x hx => fresh x (.tail _ hx), ?_⟩)
    exact fun _ => checked.block_other declares
  | @routine name parameters ss declares =>
    refine .routine name .renamed trivial ?_
      (Stmt.alike_renameAll ⟨Under.start same, checked.formed.2, fun x hx => fresh x (.tail _ hx), ?_⟩)
    · refine List.forall₂_map_right_iff.2 (List.forall₂_same.2 fun p hp => Renaming.names_token ?_)
      exact fresh _ List.mem_cons_self _ (List.mem_map_of_mem hp)
    · exact fun _ => checked.routine_other declares

end Renaming.Local

/-! ## Programs -/

section

variable {statements statements' : List Stmt} {tokens : List Token} {old new : String} {a b : Code}

/-- Statements that break no rule are alike to those in which a local variable has a new name. -/
theorem Resolved.alike_rename (resolved : Resolved statements table) (nameable : Nameable new)
    (unused : new ∉ (Code.stmts statements).names) (renames : Renaming.Local ⟨table, old, new⟩ a b)
    (swap : Swaps a b (.stmts statements) (.stmts statements')) :
    new ≠ old ∧ Nameable old ∧
      Alike ⟨old, new⟩ (Renaming.manner ⟨table, old, new⟩) [] (.stmts statements) (.stmts statements') := by
  have fresh : ∀ x ∈ Stmt.withinAll statements, ∀ n ∈ x.named, n ≠ new := by
    rintro x hx _ hn rfl
    exact unused (List.mem_flatMap.2 ⟨x, hx, hn⟩)
  have within := swap.within
  obtain ⟨x, checked, hx⟩ := swap.exists_stop (fun _ hx _ hy => hx.part hy) resolved.checked_start rfl
  obtain ⟨y, hy, named⟩ := renames.exists_named
  have other : new ≠ old := fun e => fresh y (within y hy) old named e.symm
  refine ⟨other, renames.nameable (hx ▸ checked.formed), ?_⟩
  refine swap.alike (Renaming.keeps other) ?_ (by rintro _ ⟨⟩) ?_
  · exact fun links same _ => renames.alike checked hx (fun x hx => fresh x (within x hx)) same
  · have allowed : (Code.stmts statements).Allowed ⟨old, new⟩ := fun x hx n hn e => absurd e (fresh x hx n hn)
    refine ⟨resolved.formed, allowed, fun n hn => ?_, .inl (by rintro _ ⟨⟩)⟩
    obtain ⟨x, hx, named⟩ := Code.exists_named hn
    exact ⟨rfl, allowed x hx n named⟩

end

end Lox
