/-
What is within the part at a stop is within the program. And a name whose declaration is not complete at a stop is
that of a variable, with the stop in its initializer. So an assignment whose variable may not be there yet is one
that stands in the initializer of that variable.
-/
import Lox.Proofs.Binding.Open
import Lox.Proofs.Tree.Within

namespace Lox

namespace Stop

variable {x y : Stop}

/-! ## Within the program -/

theorem within_stmtParts {a : Surroundings} {w : Walk} {d : List Declarations} {s : Stmt}
    (h : y ∈ stmtParts a w d s) : y.code.within ⊆ s.within := by
  cases s with
  | expression _ | print _ | block _ | funDecl _ =>
    cases List.mem_singleton.1 h
    exact List.subset_cons_self _ _
  | whileDo _ _ =>
    obtain rfl | rfl := List.mem_pair.1 h
    · exact List.subset_cons_of_subset _ (List.subset_append_left _ _)
    · exact List.subset_cons_of_subset _ (List.subset_append_right _ _)
  | varDecl _ e | ret _ e =>
    cases e with
    | none => exact absurd h List.not_mem_nil
    | some e =>
      cases List.mem_singleton.1 h
      exact List.subset_cons_self _ _
  | ifElse _ _ no =>
    cases no with
    | none =>
      obtain rfl | rfl := List.mem_pair.1 h
      · exact List.subset_cons_of_subset _ (List.subset_append_left _ _)
      · exact List.subset_cons_of_subset _ (List.subset_append_right _ _)
    | some no =>
      simp only [stmtParts, List.mem_cons, List.not_mem_nil, or_false] at h
      refine List.subset_cons_of_subset _ ?_
      obtain rfl | rfl | rfl := h
      · exact List.subset_append_left _ _
      · exact List.subset_append_of_subset_right _ (List.subset_append_left _ _)
      · exact List.subset_append_of_subset_right _ (List.subset_append_right _ _)
  | classDecl _ e _ =>
    cases e with
    | none =>
      cases List.mem_singleton.1 h
      exact List.subset_cons_self _ _
    | some e =>
      obtain rfl | rfl := List.mem_pair.1 h
      · exact List.subset_cons_of_subset _ (List.subset_append_left _ _)
      · exact List.subset_cons_of_subset _ (List.subset_append_right _ _)

theorem within_exprParts {a : Surroundings} {w : Walk} {d : List Declarations} {e : Expr}
    (h : y ∈ exprParts a w d e) : y.code.within ⊆ e.within := by
  cases e with
  | literal _ | ref _ _ | self _ _ | super _ _ _ => exact absurd h List.not_mem_nil
  | unary _ _ | group _ | get _ _ | assign _ _ _ =>
    cases List.mem_singleton.1 h
    exact List.subset_cons_self _ _
  | binary _ _ _ | logical _ _ _ | call _ _ _ | set _ _ _ =>
    obtain rfl | rfl := List.mem_pair.1 h
    · exact List.subset_cons_of_subset _ (List.subset_append_left _ _)
    · exact List.subset_cons_of_subset _ (List.subset_append_right _ _)

/-- What is within a part of a part is within that part. -/
theorem within_of_mem_parts (h : y ∈ x.parts) : y.code.within ⊆ x.code.within := by
  obtain ⟨code, a, w, d⟩ := x
  cases code with
  | expr e => exact within_exprParts h
  | stmt s => exact within_stmtParts h
  | routine r =>
    obtain ⟨name, parameters, body⟩ := r
    cases List.mem_singleton.1 h
    exact List.subset_cons_self _ _
  | exprs l | stmts l | methods l =>
    cases l with
    | nil => exact absurd h List.not_mem_nil
    | cons _ _ =>
      obtain rfl | rfl := List.mem_pair.1 h
      · exact List.subset_append_left _ _
      · exact List.subset_append_right _ _

end Stop

mutual

/-- In an expression there are only expressions. -/
theorem Expr.isExpr_within : ∀ (e : Expr), ∀ x ∈ e.within, x.IsExpr
  | .literal _ | .ref _ _ | .self _ _ | .super _ _ _ => List.forall_mem_singleton.2 trivial
  | .unary _ e | .group e | .assign _ _ e | .get e _ => List.forall_mem_cons.2 ⟨trivial, e.isExpr_within⟩
  | .binary _ l r | .logical _ l r =>
    List.forall_mem_cons.2 ⟨trivial, List.forall_mem_append.2 ⟨l.isExpr_within, r.isExpr_within⟩⟩
  | .call f _ es =>
    List.forall_mem_cons.2 ⟨trivial, List.forall_mem_append.2 ⟨f.isExpr_within, Expr.isExpr_withinAll es⟩⟩
  | .set o _ v => List.forall_mem_cons.2 ⟨trivial, List.forall_mem_append.2 ⟨v.isExpr_within, o.isExpr_within⟩⟩

theorem Expr.isExpr_withinAll : ∀ (es : List Expr), ∀ x ∈ Expr.withinAll es, x.IsExpr
  | [] => List.forall_mem_nil _
  | e :: es => List.forall_mem_append.2 ⟨e.isExpr_within, Expr.isExpr_withinAll es⟩

end

/-- What is within the part at a stop is within the program. -/
theorem Visits.within {statements : List Stmt} {x : Stop} (h : Visits statements x) :
    x.code.within ⊆ Stmt.withinAll statements :=
  h.induct (fun _ hc => hc) fun _ hx _ hy => List.Subset.trans (Stop.within_of_mem_parts hy) hx

/-! ## Names that are being declared -/

theorem Walk.beingDeclared_iff {w : Walk} {name : String} :
    w.beingDeclared name = true ↔ ∃ scope outer, w.scopes = scope :: outer ∧ scope.get? name = some false := by
  unfold beingDeclared
  cases w.scopes with
  | nil => simp
  | cons scope outer => simp

/-- Where an open scope has a name that is not being declared, the declaration is complete. -/
theorem Stop.Fits.get?_of_not_beingDeclared {x : Stop} (h : x.Fits) {name : String}
    (hn : x.walk.beingDeclared name = false) {i : Nat} {scope : Declarations} (hi : x.walk.scopes[i]? = some scope)
    (hc : scope.contains name = true) : scope.get? name = some true := by
  obtain ⟨complete, hg⟩ := (Bindings.contains_iff _ _).1 hc
  cases hs : x.walk.scopes with
  | nil =>
    rw [hs] at hi
    cases hi
  | cons own outer =>
    rw [hs] at hi
    cases i with
    | succ i =>
      have mem : scope ∈ x.walk.scopes.tail := by
        rw [hs]
        exact List.mem_of_getElem? hi
      exact h.outer scope mem name hc
    | zero =>
      cases hi
      cases complete with
      | true => exact hg
      | false => exact absurd (Walk.beingDeclared_iff.2 ⟨_, _, hs, hg⟩) (by simp [hn])

/-- Whether every name that is being declared at a stop is that of a variable of the program in whose initializer the
stop is. -/
def Stop.Initial (statements : List Stmt) (x : Stop) : Prop :=
  ∀ n, x.walk.beingDeclared n = true → ∃ name e, name.lexeme = n ∧
    .stmt (.varDecl name (some e)) ∈ Stmt.withinAll statements ∧ x.code.within ⊆ e.within

variable {statements : List Stmt} {x y : Stop}

/-- No name is being declared if the innermost scope is complete. -/
theorem Stop.Initial.of_complete {scope : Declarations} {outer : List Declarations}
    (hs : x.walk.scopes = scope :: outer) (hc : scope.Complete) : x.Initial statements := by
  intro n hn
  obtain ⟨own, rest, hw, hf⟩ := Walk.beingDeclared_iff.1 hn
  cases hs.symm.trans hw
  cases hf.symm.trans (hc n ((Bindings.contains_iff _ _).2 ⟨false, hf⟩))

theorem Stop.Initial.part (visits : Visits statements x) (h : y ∈ x.parts) (hx : x.Initial statements) :
    y.Initial statements := by
  have inside := within_of_mem_parts h
  cases lies_of_mem_parts h with
  | along names more expr declared rest scopes whole home =>
    intro n hn
    obtain ⟨own, rest, hw, hf⟩ := Walk.beingDeclared_iff.1 hn
    rw [scopes] at hw
    cases hs : x.walk.scopes with
    | nil =>
      rw [hs] at hw
      cases hw
    | cons scope outer =>
      rw [hs] at hw
      cases hw
      rw [Declarations.get?_complete] at hf
      split at hf
      · cases hf
      · -- the name was being declared before, so the part is in the same initializer
        obtain ⟨name, e, he, hmem, whole⟩ := hx n (Walk.beingDeclared_iff.2 ⟨scope, _, hs, hf⟩)
        exact ⟨name, e, he, hmem, List.Subset.trans inside whole⟩
  | initial name e var part =>
    subst part
    intro n hn
    by_cases same : n = name.lexeme
    · refine ⟨name, e, same.symm, ?_, fun _ hc => hc⟩
      have := visits.within
      rw [var] at this
      exact this (Stmt.mem_within _)
    · have before : x.walk.beingDeclared n = true := by
        obtain ⟨own, rest, hw, hf⟩ := Walk.beingDeclared_iff.1 hn
        obtain hs | ⟨scope, outer, hs, hd⟩ := x.walk.scopes_declare name
        · exact Walk.beingDeclared_iff.2 ⟨own, rest, hs.symm.trans hw, hf⟩
        · cases hd.symm.trans hw
          rw [Bindings.get?_set, if_neg same] at hf
          exact Walk.beingDeclared_iff.2 ⟨scope, _, hs, hf⟩
      obtain ⟨other, e', he, hmem, whole⟩ := hx n before
      exact ⟨other, e', he, hmem, List.Subset.trans inside whole⟩
  | body names opens declared nameable scopes whole around =>
    exact .of_complete scopes (Declarations.complete_empty.complete names)
  | methods name declared scopes whole home => exact .of_complete scopes (Declarations.complete_word thisName)
  | inheriting name declared scopes whole home => exact .of_complete scopes (Declarations.complete_word thisName)

theorem Visits.initial (h : Visits statements x) : x.Initial statements :=
  (h.induct (P := fun x => Visits statements x ∧ x.Initial statements)
    ⟨.start statements, fun n hn => by simp [Walk.beingDeclared, Stop.start, Walk.start] at hn⟩
    fun _ ⟨visits, hx⟩ _ hy => ⟨visits.part hy, hx.part visits hy⟩).2

/-- An assignment to a variable that is being declared stands in the initializer of that variable. -/
theorem Visits.mem_ownWrites (h : Visits statements x) {use : UseId} {name : Token} {value : Expr}
    (hc : x.code = .expr (.assign use name value)) (hd : x.walk.beingDeclared name.lexeme = true) :
    use ∈ Stmt.ownWrites statements := by
  obtain ⟨target, e, same, hmem, inside⟩ := h.initial _ hd
  rw [hc] at inside
  refine List.mem_flatMap.2 ⟨_, hmem, List.mem_filterMap.2 ⟨_, inside (Expr.mem_within _), ?_⟩⟩
  exact if_pos same.symm

end Lox
