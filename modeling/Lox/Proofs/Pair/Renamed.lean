/-
A scope in which a variable has got another name is alike to the scope with the old name. The uses that get the new
name are those that the table sends to that scope under the old one. The others still find what they found, as no
declaration has had the new name so far.
-/
import Lox.Proofs.Pair.Entries
import Lox.Proofs.Pair.Same
import Lox.Proofs.Tree.Rename

namespace Lox

variable {c : Change} {links : List Link} {n : String}

/-! ## Finding the variable -/

/-- Whether a distance leads to a scope in which the old name belongs to the new one. -/
def Link.ToRenamed (links : List Link) (d : Option Nat) : Prop := ∃ k ∈ d, links[k]? = some (.scope .renamed)

namespace Link.ToRenamed

theorem outer {link : Link} {d : Option Nat} : ToRenamed (link :: links) (d.map (· + 1)) ↔ ToRenamed links d := by
  cases d with
  | none => exact ⟨by rintro ⟨_, ⟨⟩, _⟩, by rintro ⟨_, ⟨⟩, _⟩⟩
  | some k =>
    constructor
    · rintro ⟨_, ⟨⟩, h⟩
      exact ⟨k, rfl, h⟩
    · rintro ⟨_, ⟨⟩, h⟩
      exact ⟨k + 1, rfl, h⟩

theorem here {link : Link} : ToRenamed (link :: links) (some 0) ↔ link = .scope .renamed := by
  constructor
  · rintro ⟨_, ⟨⟩, h⟩
    exact Option.some.inj h
  · rintro rfl
    exact ⟨0, rfl, rfl⟩

end Link.ToRenamed

namespace Mirrors

variable {scopes scopes' : List Declarations}

/-- Where the old name is found in a scope of the variable, the new name is found there on the right. -/
theorem finds_renamed (h : Mirrors c links scopes scopes') (other : c.new ≠ c.old) (plain : ∀ link ∈ links, link.Plain)
    (renamed : Link.ToRenamed links (scopes.findIdx? (·.contains c.old))) :
    Finds c links (scopes.findIdx? (·.contains c.old)) (scopes'.findIdx? (·.contains c.new)) c.old c.new := by
  induction h with
  | beyond =>
    obtain ⟨_, _, h⟩ := renamed
    cases h
  | @scope links tie own own' scopes scopes' mirror _ ih =>
    obtain ⟨first, rest⟩ := List.forall_mem_cons.1 plain
    cases hc : own.contains c.old with
    | true =>
      rw [findIdx?_here hc] at renamed ⊢
      cases Link.ToRenamed.here.1 renamed
      have names : Tie.renamed.Names c c.old c.new := .inl ⟨rfl, rfl⟩
      rw [findIdx?_here ((mirror.contains names).trans hc)]
      exact .here names
    | false =>
      rw [findIdx?_outer hc] at renamed ⊢
      have right : own'.contains c.new = false := by
        cases tie with
        | only _ => exact first.elim
        | renamed => exact (mirror.contains (.inl ⟨rfl, rfl⟩)).trans hc
        | same => exact contains_of_get? (mirror.right _ fun n names => other (names.1 ▸ names.2 (names.1 ▸ rfl)))
      rw [findIdx?_outer right]
      exact (ih rest (Link.ToRenamed.outer.1 renamed)).inner tie
  | pass => exact (plain _ List.mem_cons_self).elim

/-- A name that is not the new one is found where it was found, unless it is the old one in a scope of the variable. -/
theorem finds_kept (h : Mirrors c links scopes scopes') (hn : n ≠ c.new) (plain : ∀ link ∈ links, link.Plain)
    (kept : n = c.old → ¬ Link.ToRenamed links (scopes.findIdx? (·.contains n))) :
    Finds c links (scopes.findIdx? (·.contains n)) (scopes'.findIdx? (·.contains n)) n n := by
  induction h with
  | beyond scopes =>
    cases scopes.findIdx? (·.contains n) with
    | none => exact .globals n
    | some d => exact .beyond d n
  | @scope links tie own own' scopes scopes' mirror _ ih =>
    obtain ⟨first, rest⟩ := List.forall_mem_cons.1 plain
    by_cases names : tie.Names c n n
    · cases hc : own.contains n with
      | true =>
        rw [findIdx?_here hc, findIdx?_here ((mirror.contains names).trans hc)]
        exact .here names
      | false =>
        rw [findIdx?_outer hc] at kept ⊢
        rw [findIdx?_outer ((mirror.contains names).trans hc)]
        exact (ih rest fun e => mt Link.ToRenamed.outer.2 (kept e)).inner tie
    · -- the scope is one of the variable, and the name the old one
      cases tie with
      | only _ => exact first.elim
      | same => exact absurd ⟨rfl, fun e => absurd e hn⟩ names
      | renamed =>
        have old : n = c.old := Decidable.of_not_not fun ho => names (.inr ⟨rfl, ho, hn⟩)
        have left : own.contains n = false := Bool.eq_false_iff.2 fun hc => by
          rw [findIdx?_here hc] at kept
          exact kept old (Link.ToRenamed.here.2 rfl)
        have right : own'.contains n = false := by
          refine contains_of_get? (mirror.right n ?_)
          rintro m (⟨-, e⟩ | ⟨e, ho, -⟩)
          · exact hn e
          · exact ho (e ▸ old)
        rw [findIdx?_outer left] at kept ⊢
        rw [findIdx?_outer right]
        exact (ih rest fun e => mt Link.ToRenamed.outer.2 (kept e)).inner .renamed
  | pass => exact (plain _ List.mem_cons_self).elim

end Mirrors

/-! ## The manner of a renaming -/

namespace Renaming

/-- The names that a renaming changes. -/
def change (r : Renaming) : Change := ⟨r.old, r.new⟩

/-- The manner in which a program is alike to one with the new name. -/
def manner (r : Renaming) : Manner where
  use links id n n' := (∀ link ∈ links, link.Plain) ∧
    (n = r.old ∧ n' = r.new ∧ Link.ToRenamed links (r.table.get? id) ∨
      n' = n ∧ n ≠ r.new ∧ (n = r.old → ¬ Link.ToRenamed links (r.table.get? id)))
  self _ _ := True
  super _ _ := True
  loops := False
  copies _ _ := False

variable {r : Renaming}

theorem leads (other : r.new ≠ r.old) : r.manner.Leads r.change r.table True where
  use links id n n' scopes scopes' use entry mirrors _ := by
    obtain ⟨plain, ⟨rfl, rfl, renamed⟩ | ⟨rfl, hn, kept⟩⟩ := use
    · rw [entry] at renamed
      exact mirrors.finds_renamed other plain renamed
    · rw [entry] at kept
      exact mirrors.finds_kept hn plain kept
  loops _ := id
  copies _ _ := id

theorem keeps (other : r.new ≠ r.old) : r.manner.Keeps r.change AllSame where
  inner := AllSame.inner
  use := by
    intro links id n same allows
    refine ⟨same.plain, .inr ⟨rfl, fun e => other (allows e), ?_⟩⟩
    rintro - ⟨k, -, renamed⟩
    cases same _ (List.mem_of_getElem? renamed)
  self _ := trivial
  super _ := trivial

end Renaming

/-! ## Inside of the scope -/

/-- Whether the scope of the variable is as many scopes further out, and all other scopes are ones of the same names. -/
structure Under (inside : Nat) (links : List Link) : Prop where
  renamed : links[inside]? = some (.scope .renamed)
  same : ∀ k link, links[k]? = some link → k ≠ inside → link = .scope .same

namespace Under

variable {inside : Nat}

theorem start (same : AllSame links) : Under 0 (.scope .renamed :: links) where
  renamed := rfl
  same k link hk other := by
    obtain ⟨k, rfl⟩ := Nat.exists_eq_succ_of_ne_zero other
    exact same link (List.mem_of_getElem? hk)

theorem inner (h : Under inside links) : Under (inside + 1) (.scope .same :: links) where
  renamed := h.renamed
  same k link hk other := by
    cases k with
    | zero => exact (Option.some.inj hk).symm
    | succ k => exact h.same k link hk fun e => other (congrArg _ e)

theorem plain (h : Under inside links) : ∀ link ∈ links, link.Plain := by
  intro link hl
  obtain ⟨k, hk⟩ := List.getElem?_of_mem hl
  by_cases e : k = inside
  · subst e
    cases Option.some.inj (hk.symm.trans h.renamed)
    trivial
  · cases h.same k link hk e
    trivial

/-- A distance leads to the scope of the variable only if it is the right one. -/
theorem toRenamed_iff (h : Under inside links) {d : Option Nat} : Link.ToRenamed links d ↔ d = some inside := by
  constructor
  · rintro ⟨k, hk, renamed⟩
    have : k = inside := Decidable.of_not_not fun e => by cases h.same k _ renamed e
    rw [hk, this]
  · rintro rfl
    exact ⟨inside, rfl, h.renamed⟩

end Under

/-! ## Names of functions and classes -/

/-- The names of the functions and classes that a statement declares in the scope it stands in. -/
def Stmt.introduced : Stmt → List String
  | .funDecl routine => [routine.name.lexeme]
  | .classDecl name _ _ => [name.lexeme]
  | .ifElse _ yes none => yes.introduced
  | .ifElse _ yes (some no) => yes.introduced ++ no.introduced
  | .whileDo _ body => body.introduced
  | _ => []

/-- The names of the functions and classes that statements declare in the scope they stand in. -/
def Stmt.introducedAll (ss : List Stmt) : List String := ss.flatMap Stmt.introduced

/-- The names of the functions and classes that a part of a program declares in the scope it stands in. -/
def Code.introduced : Code → List String
  | stmt s => s.introduced
  | stmts ss => Stmt.introducedAll ss
  | expr _ | exprs _ | routine _ | methods _ => []

theorem Stmt.introduced_subset : ∀ {s : Stmt}, ∀ n ∈ s.introduced, n ∈ s.declared
  | .funDecl _, _, h | .classDecl _ _ _, _, h => h
  | .ifElse _ yes none, n, h => Stmt.introduced_subset (s := yes) n h
  | .ifElse _ _ (some _), n, h => by
    rcases List.mem_append.1 h with h | h
    · exact List.mem_append_left _ (Stmt.introduced_subset n h)
    · exact List.mem_append_right _ (Stmt.introduced_subset n h)
  | .whileDo _ body, n, h => Stmt.introduced_subset (s := body) n h
  | .expression _, _, h | .print _, _, h | .varDecl _ _, _, h | .block _, _, h | .ret _ _, _, h =>
    absurd h List.not_mem_nil

theorem Stmt.introducedAll_subset {ss : List Stmt} : ∀ n ∈ Stmt.introducedAll ss, n ∈ Stmt.declaredAll ss := by
  intro n h
  obtain ⟨s, hs, h⟩ := List.mem_flatMap.1 h
  exact List.mem_flatMap.2 ⟨s, hs, s.introduced_subset n h⟩

/-- Where no name is declared twice, that of a variable is not also that of a function or a class. -/
theorem Stmt.not_introduced {ss : List Stmt} (apart : (Stmt.declaredAll ss).Nodup) (h : Stmt.DeclareVariable n ss) :
    n ∉ Stmt.introducedAll ss := by
  obtain ⟨name, initial, mem, rfl⟩ := h
  induction ss with
  | nil => cases mem
  | cons s ss ih =>
    obtain ⟨-, rest, disjoint⟩ := List.nodup_append.1 (show (s.declared ++ Stmt.declaredAll ss).Nodup from apart)
    intro h
    rcases List.mem_append.1 (show _ ∈ s.introduced ++ Stmt.introducedAll ss from h) with h | h
    · rcases List.mem_cons.1 mem with rfl | mem
      · cases h
      · exact disjoint _ (s.introduced_subset _ h) _ (List.mem_flatMap.2 ⟨_, mem, List.mem_cons_self⟩) rfl
    · rcases List.mem_cons.1 mem with rfl | mem
      · exact disjoint _ List.mem_cons_self _ (Stmt.introducedAll_subset _ h) rfl
      · exact ih rest mem h

/-! ## Alike after the renaming -/

section

variable {r : Renaming} {inside : Nat}

/-- Whether a part may get the new name. -/
structure Code.Renames (r : Renaming) (inside : Nat) (links : List Link) (code : Code) : Prop where
  under : Under inside links
  formed : code.Formed
  fresh : ∀ x ∈ code.within, ∀ n ∈ x.named, n ≠ r.new
  other : inside = 0 → r.old ∉ code.introduced

namespace Renaming

theorem token_like (r : Renaming) (t : Token) : t.Like r.change (r.token t) := by
  unfold token
  split
  · next old => exact .inr ⟨old, rfl⟩
  · exact .inl rfl

theorem used_like (r : Renaming) (inside : Nat) (id : UseId) (name : Token) :
    name.Like r.change (r.used inside id name) := by
  unfold used
  split
  · exact r.token_like name
  · exact .inl rfl

theorem declared_like (r : Renaming) (inside : Nat) (name : Token) :
    name.Like r.change (r.declared inside name) := by
  unfold declared
  split
  · exact r.token_like name
  · exact .inl rfl

/-- In the scope of the variable its two names belong together, and others to themselves. -/
theorem names_token {t : Token} (fresh : t.lexeme ≠ r.new) : Tie.renamed.Names r.change t.lexeme (r.token t).lexeme := by
  unfold token
  split
  · next old => exact .inl ⟨old, rfl⟩
  · next old => exact .inr ⟨rfl, old, fresh⟩

theorem manner_used (under : Under inside links) (id : UseId) {name : Token} (fresh : name.lexeme ≠ r.new) :
    r.manner.use links id name.lexeme (r.used inside id name).lexeme := by
  refine ⟨under.plain, ?_⟩
  rw [under.toRenamed_iff]
  unfold used token
  split
  · next entry =>
    split
    · next old => exact .inl ⟨old, rfl, entry⟩
    · next old => exact .inr ⟨rfl, fresh, fun e => absurd e old⟩
  · next entry => exact .inr ⟨rfl, fresh, fun _ => entry⟩

end Renaming

namespace Under

/-- The scope of the variable comes first if it is the innermost one, and else a scope of the same names does. -/
theorem cases_head (h : Under inside links) :
    (∃ rest, inside = 0 ∧ links = .scope .renamed :: rest) ∨ ∃ rest, inside ≠ 0 ∧ links = .scope .same :: rest := by
  have renamed := h.renamed
  cases links with
  | nil => cases renamed
  | cons link rest =>
    cases inside with
    | zero => exact .inl ⟨rest, rfl, by rw [Option.some.inj renamed]⟩
    | succ inside => exact .inr ⟨rest, Nat.succ_ne_zero _, by rw [h.same 0 link rfl (Nat.succ_ne_zero _).symm]⟩

theorem declares_variable (h : Under inside links) {name : Token} (fresh : name.lexeme ≠ r.new) :
    Declares r.change links name.lexeme (r.declared inside name).lexeme := by
  unfold Renaming.declared
  obtain ⟨rest, rfl, rfl⟩ | ⟨rest, deeper, rfl⟩ := h.cases_head
  · exact Renaming.names_token fresh
  · rw [if_neg deeper]
    exact ⟨rfl, fun e => absurd e fresh⟩

theorem declares_other (h : Under inside links) (fresh : n ≠ r.new) (other : inside = 0 → n ≠ r.old) :
    Declares r.change links n n := by
  obtain ⟨rest, rfl, rfl⟩ | ⟨rest, deeper, rfl⟩ := h.cases_head
  · exact .inr ⟨rfl, other rfl, fresh⟩
  · exact ⟨rfl, fun e => absurd e fresh⟩

end Under

mutual

theorem Expr.alike_rename (under : Under inside links) :
    ∀ {e : Expr}, e.Formed → (∀ x ∈ e.within, ∀ n ∈ x.named, n ≠ r.new) →
      Alike r.change r.manner links (.expr e) (.expr (e.rename r inside))
  | .literal value, _, _ => .literal value
  | .unary operator _, hf, ha => .unary operator (Expr.alike_rename under hf.2 fun x hx => ha x (.tail _ hx))
  | .binary operator _ _, hf, ha =>
    .binary operator (Expr.alike_rename under hf.2.1 fun x hx => ha x (.tail _ (List.mem_append_left _ hx)))
      (Expr.alike_rename under hf.2.2 fun x hx => ha x (.tail _ (List.mem_append_right _ hx)))
  | .logical operator _ _, hf, ha =>
    .logical operator (Expr.alike_rename under hf.1 fun x hx => ha x (.tail _ (List.mem_append_left _ hx)))
      (Expr.alike_rename under hf.2 fun x hx => ha x (.tail _ (List.mem_append_right _ hx)))
  | .group e, hf, ha => .group (Expr.alike_rename under (e := e) hf fun x hx => ha x (.tail _ hx))
  | .ref id name, _, ha =>
    .ref (r.used_like inside id name) (r.manner_used under id (ha _ List.mem_cons_self _ List.mem_cons_self))
  | .assign id name _, hf, ha =>
    .assign (r.used_like inside id name) (r.manner_used under id (ha _ List.mem_cons_self _ List.mem_cons_self))
      (Expr.alike_rename under hf.2 fun x hx => ha x (.tail _ hx))
  | .call _ paren _, hf, ha =>
    .call paren (Expr.alike_rename under hf.1 fun x hx => ha x (.tail _ (List.mem_append_left _ hx)))
      (Expr.alike_renameAll under hf.2 fun x hx => ha x (.tail _ (List.mem_append_right _ hx)))
  | .get e name, hf, ha => .get name (Expr.alike_rename under (e := e) hf fun x hx => ha x (.tail _ hx))
  | .set _ name _, hf, ha =>
    .set name (Expr.alike_rename under hf.1 fun x hx => ha x (.tail _ (List.mem_append_right _ hx)))
      (Expr.alike_rename under hf.2 fun x hx => ha x (.tail _ (List.mem_append_left _ hx)))
  | .self _ _, hf, _ => .self hf trivial
  | .super _ keyword method, _, _ => .super keyword method trivial

theorem Expr.alike_renameAll (under : Under inside links) :
    ∀ {es : List Expr}, Expr.FormedAll es → (∀ x ∈ Expr.withinAll es, ∀ n ∈ x.named, n ≠ r.new) →
      Alike r.change r.manner links (.exprs es) (.exprs (Expr.renameAll r inside es))
  | [], _, _ => .noExprs
  | _ :: _, hf, ha =>
    .moreExprs (Expr.alike_rename under hf.1 fun x hx => ha x (List.mem_append_left _ hx))
      (Expr.alike_renameAll under hf.2 fun x hx => ha x (List.mem_append_right _ hx))

end

namespace Code.Renames

variable {code code' : Code}

/-- A part in the same scopes gets the new name. -/
theorem part (h : Renames r inside links code) (formed : code'.Formed) (within : ∀ x ∈ code'.within, x ∈ code.within)
    (introduced : ∀ n ∈ code'.introduced, n ∈ code.introduced) : Renames r inside links code' where
  under := h.under
  formed := formed
  fresh x hx := h.fresh x (within x hx)
  other e hn := h.other e (introduced _ hn)

/-- A part in a scope of its own gets the new name. -/
theorem inner (h : Renames r inside links code) (formed : code'.Formed) (within : ∀ x ∈ code'.within, x ∈ code.within) :
    Renames r (inside + 1) (.scope .same :: links) code' where
  under := h.under.inner
  formed := formed
  fresh x hx := h.fresh x (within x hx)
  other e := absurd e (Nat.succ_ne_zero _)

/-- An expression in the same scopes gets the new name. -/
theorem expr (h : Renames r inside links code) {e : Expr} (formed : e.Formed) (within : ∀ x ∈ e.within, x ∈ code.within) :
    Alike r.change r.manner links (.expr e) (.expr (e.rename r inside)) :=
  e.alike_rename h.under formed fun x hx => h.fresh x (within x hx)

/-- The name of a function or a class stays as it is. -/
theorem declares {s : Stmt} (h : Renames r inside links (.stmt s)) (introduced : s.introduced = [n])
    (named : n ∈ (Code.stmt s).named) : Declares r.change links n n := by
  refine h.under.declares_other (h.fresh _ s.mem_within n named) fun e same => h.other e ?_
  show r.old ∈ s.introduced
  rw [introduced, same]
  exact List.mem_singleton_self _

end Code.Renames

mutual

theorem Stmt.alike_rename : ∀ {inside : Nat} {links : List Link} {s : Stmt}, Code.Renames r inside links (.stmt s) →
    Alike r.change r.manner links (.stmt s) (.stmt (s.rename r inside))
  | _, _, .expression _, h => .expression (h.expr h.formed fun _ hx => .tail _ hx)
  | _, _, .print _, h => .print (h.expr h.formed fun _ hx => .tail _ hx)
  | inside, _, .varDecl name none, h =>
    .varDecl (r.declared_like inside name) (h.under.declares_variable (h.fresh _ List.mem_cons_self _ List.mem_cons_self))
  | inside, _, .varDecl name (some e), h =>
    .varInit (r.declared_like inside name) (h.under.declares_variable (h.fresh _ List.mem_cons_self _ List.mem_cons_self))
      (h.expr (h.formed.2 e rfl) fun _ hx => .tail _ hx)
  | _, _, .block _, h => .block .same (Stmt.alike_renameAll (h.inner h.formed fun _ hx => .tail _ hx))
  | _, _, .ifElse _ _ none, h => by
    refine .ifThen (h.expr h.formed.1 fun _ hx => .tail _ (List.mem_append_left _ hx)) (Stmt.alike_rename ?_)
    exact h.part h.formed.2.1 (fun _ hx => .tail _ (List.mem_append_right _ hx)) fun _ hn => hn
  | _, _, .ifElse _ _ (some _), h => by
    refine .ifElse (h.expr h.formed.1 fun _ hx => .tail _ (List.mem_append_left _ hx)) (Stmt.alike_rename ?_)
      (Stmt.alike_rename ?_)
    · exact h.part h.formed.2.1.1 (fun _ hx => .tail _ (List.mem_append_right _ (List.mem_append_left _ hx)))
        fun _ hn => List.mem_append_left _ hn
    · exact h.part h.formed.2.2.1 (fun _ hx => .tail _ (List.mem_append_right _ (List.mem_append_right _ hx)))
        fun _ hn => List.mem_append_right _ hn
  | _, _, .whileDo _ _, h => by
    refine .whileDo (h.expr h.formed.1 fun _ hx => .tail _ (List.mem_append_left _ hx)) (Stmt.alike_rename ?_)
    exact h.part h.formed.2.1 (fun _ hx => .tail _ (List.mem_append_right _ hx)) fun _ hn => hn
  | _, _, .funDecl ⟨_, _, _⟩, h => by
    refine .funDecl h.under.plain (h.declares rfl List.mem_cons_self) (Routine.alike_rename ?_)
    exact h.part h.formed.2 (fun _ hx => .tail _ hx) fun _ hn => absurd hn List.not_mem_nil
  | _, _, .ret keyword none, _ => .ret keyword
  | _, _, .ret keyword (some e), h => .retValue keyword (h.expr (h.formed e rfl) fun _ hx => .tail _ hx)
  | _, _, .classDecl _ none _, h => by
    refine .classDecl h.under.plain (h.declares rfl List.mem_cons_self) (Routine.alike_renameAll ?_)
    exact h.inner h.formed.2 fun _ hx => .tail _ hx
  | _, _, .classDecl _ (some e) rs, h => by
    have methods : Code.Renames r _ _ (.methods rs) :=
      h.inner h.formed.2.2 fun _ hx => .tail _ (List.mem_append_right _ hx)
    refine .subclass h.under.plain (h.declares rfl List.mem_cons_self)
      (h.expr h.formed.2.1.formed fun _ hx => .tail _ (List.mem_append_left _ hx)) (Routine.alike_renameAll ?_)
    exact methods.inner methods.formed fun _ hx => hx

theorem Stmt.alike_renameAll : ∀ {inside : Nat} {links : List Link} {ss : List Stmt},
    Code.Renames r inside links (.stmts ss) → Alike r.change r.manner links (.stmts ss) (.stmts (Stmt.renameAll r inside ss))
  | _, _, [], _ => .noStmts
  | _, _, _ :: _, h => by
    refine .moreStmts (Stmt.alike_rename ?_) (Stmt.alike_renameAll ?_)
    · exact h.part h.formed.1 (fun _ hx => List.mem_append_left _ hx) fun _ hn => List.mem_append_left _ hn
    · exact h.part h.formed.2 (fun _ hx => List.mem_append_right _ hx) fun _ hn => List.mem_append_right _ hn

theorem Routine.alike_rename : ∀ {inside : Nat} {links : List Link} {f : Routine Stmt},
    Code.Renames r inside links (.routine f) →
      Alike r.change r.manner links (.routine f) (.routine (renameRoutine r inside f))
  | _, _, ⟨name, parameters, _⟩, h => by
    have fresh : ∀ p ∈ parameters, p.lexeme ≠ r.new := fun p hp =>
      h.fresh _ List.mem_cons_self _ (List.mem_map_of_mem hp)
    refine .routine name .same trivial ?_ (Stmt.alike_renameAll (h.inner h.formed.2 fun _ hx => .tail _ hx))
    exact List.forall₂_same.2 fun p hp => ⟨rfl, fun e => absurd e (fresh p hp)⟩

theorem Routine.alike_renameAll : ∀ {inside : Nat} {links : List Link} {fs : List (Routine Stmt)},
    Code.Renames r inside links (.methods fs) →
      Alike r.change r.manner links (.methods fs) (.methods (renameMethods r inside fs))
  | _, _, [], _ => .noMethods
  | _, _, _ :: _, h => by
    refine .moreMethods (Routine.alike_rename ?_) (Routine.alike_renameAll ?_)
    · exact h.part h.formed.1 (fun _ hx => List.mem_append_left _ hx) fun _ hn => absurd hn List.not_mem_nil
    · exact h.part h.formed.2 (fun _ hx => List.mem_append_right _ hx) fun _ hn => hn

end

end

end Lox
