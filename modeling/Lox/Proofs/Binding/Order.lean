/-
Programs that declare the names of their local scopes before they mention them. For a name that is mentioned in a part
of such a program, the scopes that are open after the part have all declarations that they will ever have, and these are
complete (`Settled`). So a name that is missing there while the part runs will not come up later in between.
-/
import Lox.Proofs.Binding.Checked
import Lox.Proofs.Binding.Initial

namespace Lox

/-- Whether a scope has a complete declaration of a name if it ever gets one. -/
def Declarations.Knows (name : String) (scope whole : Declarations) : Prop :=
  whole.contains name = true → scope.get? name = some true

/-- Whether statements that share a scope are in order. -/
def Code.InOrder : Code → Prop
  | stmt s => s.DeclaresFirst
  | stmts ss => Stmt.InOrder ss
  | expr _ | exprs _ | routine _ | methods _ => True

namespace Stop

variable {statements : List Stmt} {x y : Stop}

/-! ## Statements in order -/

theorem inOrder_of_isExpr {c : Code} (h : c.IsExpr) : c.InOrder := by
  cases c with
  | expr _ | exprs _ => trivial
  | stmt _ | stmts _ | routine _ | methods _ => exact h.elim

/-- A branch or a body that declares nothing comes after nothing that it declares. -/
theorem declaresFirst_of_declared {s : Stmt} (h : s.declared = []) : s.DeclaresFirst := by
  intro n _ hn
  rw [h] at hn
  cases hn

theorem inOrder_stmtParts {a : Surroundings} {w : Walk} {d : List Declarations} {s : Stmt} (formed : s.Formed)
    (orderly : (Code.stmt s).Orderly) (h : y ∈ stmtParts a w d s) : y.code.InOrder := by
  cases s with
  | expression _ | print _ | funDecl _ =>
    cases List.mem_singleton.1 h
    trivial
  | block body =>
    cases List.mem_singleton.1 h
    exact orderly
  | whileDo _ _ =>
    obtain rfl | rfl := List.mem_pair.1 h
    · trivial
    · exact declaresFirst_of_declared formed.2.2
  | varDecl _ e | ret _ e =>
    cases e with
    | none => exact absurd h List.not_mem_nil
    | some e =>
      cases List.mem_singleton.1 h
      trivial
  | ifElse _ _ no =>
    cases no with
    | none =>
      obtain rfl | rfl := List.mem_pair.1 h
      · trivial
      · exact declaresFirst_of_declared formed.2.2
    | some no =>
      simp only [stmtParts, List.mem_cons, List.not_mem_nil, or_false] at h
      obtain rfl | rfl | rfl := h
      · trivial
      · exact declaresFirst_of_declared formed.2.1.2
      · exact declaresFirst_of_declared formed.2.2.2
  | classDecl _ e _ =>
    cases e with
    | none =>
      cases List.mem_singleton.1 h
      trivial
    | some e =>
      obtain rfl | rfl := List.mem_pair.1 h
      · trivial
      · trivial

/-- Where the statements of a part are in order if they stand in a local scope, so are those of its parts. -/
theorem inOrder_of_mem_parts (formed : x.code.Formed) (orderly : x.code.Orderly)
    (hx : x.walk.scopes ≠ [] → x.code.InOrder) (h : y ∈ x.parts) (hy : y.walk.scopes ≠ []) : y.code.InOrder := by
  obtain ⟨code, a, w, d⟩ := x
  cases code with
  | stmt s => exact inOrder_stmtParts formed orderly h
  | expr e => exact inOrder_of_isExpr ((lies_of_mem_parts h).of_isExpr trivial).1
  | routine r =>
    obtain ⟨name, parameters, body⟩ := r
    cases List.mem_singleton.1 h
    exact orderly
  | exprs l | methods l =>
    cases l with
    | nil => exact absurd h List.not_mem_nil
    | cons _ _ => obtain rfl | rfl := List.mem_pair.1 h <;> trivial
  | stmts l =>
    cases l with
    | nil => exact absurd h List.not_mem_nil
    | cons s ss =>
      obtain rfl | rfl := List.mem_pair.1 h
      · exact (hx hy).1
      · refine (hx fun hw => hy ?_).2.2
        show (s.walk a w).scopes = []
        rw [Stmt.scopes_walk, show w.scopes = [] from hw]
        rfl

end Stop

variable {statements : List Stmt} {x y : Stop}

theorem Visits.orderly (h : Visits statements x) (orderly : Stmt.Orderly statements) : x.code.Orderly := by
  have inside := h.within
  cases hc : x.code with
  | stmt s =>
    rw [hc] at inside
    exact orderly _ (inside s.mem_within)
  | routine r =>
    obtain ⟨name, parameters, body⟩ := r
    rw [hc] at inside
    exact orderly _ (inside List.mem_cons_self)
  | expr _ | exprs _ | stmts _ | methods _ => trivial

/-! ## Settled names -/

namespace Declarations

variable {n : String} {scopes whole : List Declarations}

/-- Nothing changes for a name if others are completed. -/
theorem knows_of_settle {names : List String} (hn : n ∉ names)
    (h : List.Forall₂ (Knows n) (settle names scopes) whole) : List.Forall₂ (Knows n) scopes whole := by
  cases scopes with
  | nil => exact h
  | cons scope outer =>
    cases h with
    | cons hd tl =>
      refine .cons (fun hw => ?_) tl
      have := hd hw
      rwa [get?_complete, if_neg hn] at this

/-- Nothing changes for a name if the declaration of another is started. -/
theorem knows_declare {w : Walk} {name : Token} (hn : n ≠ name.lexeme) (h : List.Forall₂ (Knows n) w.scopes whole) :
    List.Forall₂ (Knows n) (w.declare name).scopes whole := by
  obtain hs | ⟨scope, outer, hw, hs⟩ := w.scopes_declare name
  · rwa [hs]
  · rw [hw] at h
    rw [hs]
    cases h with
    | cons hd tl =>
      refine .cons (fun hc => ?_) tl
      rw [Bindings.get?_set, if_neg hn]
      exact hd hc

end Declarations

/-- Whether the scopes that are open after a part have, complete, whatever they will ever have of the names that are
mentioned in it. -/
def Stop.Settled (x : Stop) : Prop :=
  ∀ n ∈ x.code.mentions, List.Forall₂ (Declarations.Knows n) x.after.scopes x.whole

theorem Stop.mentions_of_mem_parts (h : y ∈ x.parts) : y.code.mentions ⊆ x.code.mentions := by
  intro n hn
  obtain ⟨c, hc, hv⟩ := List.mem_filterMap.1 hn
  exact List.mem_filterMap.2 ⟨c, within_of_mem_parts h hc, hv⟩

/-- A part in a scope of its own has there what it has when the scope is closed. -/
theorem Stop.knows_innermost {scope : Declarations} {outer : List Declarations} (h : y.walk.scopes = scope :: outer)
    (hc : scope.Complete) (n : String) :
    y.after.scopes = y.after.innermost :: outer ∧ Declarations.Knows n y.after.innermost y.after.innermost := by
  rw [innermost_after h, scopes_after, h]
  exact ⟨rfl, hc.complete _ n⟩

theorem Stop.Settled.part (h : y ∈ x.parts) (formed : x.code.Formed) (order : x.walk.scopes ≠ [] → x.code.InOrder)
    (hx : x.Settled) : y.Settled := by
  intro n hn
  have before := hx n (mentions_of_mem_parts h hn)
  rw [scopes_after] at before
  cases lies_of_mem_parts h with
  | along names more expr declared rest scopes whole home =>
    rw [declared, ← List.append_assoc, settle_append, settle_append, ← scopes, ← scopes_after, ← whole] at before
    by_cases hs : x.walk.scopes = []
    · rw [scopes_after, scopes, hs] at before ⊢
      exact before
    · refine Declarations.knows_of_settle (fun hmem => ?_) before
      -- names declared after the part are not mentioned in it
      rcases rest formed with rfl | ⟨s, ss, hc, hs', rfl⟩
      · cases hmem
      · have inOrder := order hs
        rw [hc] at inOrder
        rw [hs'] at hn
        exact inOrder.2.1 n hn hmem
  | initial name e var part =>
    subst part
    rw [var] at before
    rw [scopes_after]
    by_cases hs : x.walk.scopes = []
    · have : (x.walk.declare name).scopes = [] := by
        obtain h | ⟨scope, outer, hw, -⟩ := x.walk.scopes_declare name
        · rw [h, hs]
        · rw [hs] at hw
          cases hw
      simpa [hs, this, Code.declared, settle] using before
    · -- a variable is not mentioned in its own initializer, so the start of its declaration does not matter
      have first := order hs
      rw [var] at first
      have other : n ≠ name.lexeme := fun h => first n hn (h ▸ List.mem_singleton_self _)
      have same := Declarations.knows_of_settle (by simpa [Code.declared, Stmt.declared] using other) before
      simpa [Code.declared] using Declarations.knows_declare other same
  | body names opens declared nameable scopes whole around =>
    rw [declared, settle_nil] at before
    obtain ⟨hs, hd⟩ := knows_innermost scopes (Declarations.complete_empty.complete names) n
    rw [hs, whole]
    exact .cons hd before
  | methods name declared scopes whole home =>
    rw [declared] at before
    obtain ⟨hs, hd⟩ := knows_innermost scopes (Declarations.complete_word thisName) n
    rw [hs, whole]
    exact .cons hd before
  | inheriting name declared scopes whole home =>
    rw [declared] at before
    obtain ⟨hs, hd⟩ := knows_innermost scopes (Declarations.complete_word thisName) n
    have outside : y.after.closeScope.innermost = Bindings.empty.set superName true := by
      rw [Walk.innermost, Walk.scopes_closeScope, hs]
      rfl
    rw [hs, whole, outside]
    exact .cons hd (.cons (Declarations.complete_word superName n) before)

/-- At every stop of an orderly program the mentioned names are settled. -/
theorem Visits.settled {table : Table} (h : Visits statements x) (resolved : Resolved statements table)
    (orderly : Stmt.Orderly statements) : x.Settled := by
  have every := h.induct
    (P := fun x => Visits statements x ∧ (x.walk.scopes ≠ [] → x.code.InOrder) ∧ x.Settled)
    ⟨.start statements, fun hs => absurd rfl hs,
      fun _ _ => by simp [Stop.scopes_after, Stop.start, Walk.start, settle]⟩
    fun _ ⟨visits, order, hx⟩ _ hy =>
      have formed := (resolved.checked visits).formed
      ⟨visits.part hy, Stop.inOrder_of_mem_parts formed (visits.orderly orderly) order hy, hx.part hy formed order⟩
  exact every.2.2

end Lox
