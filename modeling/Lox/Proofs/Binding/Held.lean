/-
Variables that a program has from itself. If the statements of a program do not mention a name before they declare it,
and do not declare it among the global variables, then wherever the walk comes to a part that mentions the name without
declaring it first, an open scope has it (`Visits.held`).
-/
import Lox.Proofs.Binding.Lies
import Lox.Proofs.Binding.Open
import Lox.Proofs.Tree.Free

namespace Lox

/-! ## Names in open scopes -/

/-- Whether one of the open scopes has a name. -/
def Held (n : String) (scopes : List Declarations) : Prop := ∃ scope ∈ scopes, scope.contains n = true

namespace Held

variable {n : String} {scopes : List Declarations}

theorem cons (h : Held n scopes) (scope : Declarations) : Held n (scope :: scopes) := by
  obtain ⟨own, mem, has⟩ := h
  exact ⟨own, .tail _ mem, has⟩

theorem settle (h : Held n scopes) (names : List String) : Held n (settle names scopes) := by
  obtain ⟨own, mem, has⟩ := h
  cases scopes with
  | nil => cases mem
  | cons scope outer =>
    rcases List.mem_cons.1 mem with rfl | mem
    · exact ⟨_, List.mem_cons_self, Declarations.within_complete names own n has⟩
    · exact ⟨own, .tail _ mem, has⟩

/-- What is completed in the innermost scope, that scope has. -/
theorem of_mem {names : List String} (hn : n ∈ names) (hs : scopes ≠ []) : Held n (Lox.settle names scopes) := by
  cases scopes with
  | nil => exact absurd rfl hs
  | cons scope outer => exact ⟨_, List.mem_cons_self, (Declarations.contains_complete _ _ _).2 (.inl hn)⟩

theorem declare {w : Walk} (h : Held n w.scopes) (name : Token) : Held n (w.declare name).scopes := by
  obtain same | ⟨scope, outer, before, same⟩ := w.scopes_declare name
  · rwa [same]
  · rw [before] at h
    rw [same]
    obtain ⟨own, mem, has⟩ := h
    rcases List.mem_cons.1 mem with rfl | mem
    · refine ⟨_, List.mem_cons_self, ?_⟩
      simp [has]
    · exact ⟨own, .tail _ mem, has⟩

/-- The innermost of the scopes that have a name can be found. -/
theorem exists_findIdx? (h : Held n scopes) : ∃ i, scopes.findIdx? (·.contains n) = some i := by
  obtain ⟨scope, mem, has⟩ := h
  cases found : scopes.findIdx? (·.contains n) with
  | some i => exact ⟨i, rfl⟩
  | none =>
    have := List.findIdx?_eq_none_iff.1 found scope mem
    rw [has] at this
    cases this

end Held

/-! ## At stops -/

namespace Stop

variable {n : String} {x y : Stop}

/-- Whether a name that is free in the part at a stop is in an open scope, and is no global variable of the part. -/
structure Holds (n : String) (x : Stop) : Prop where
  free : x.code.HasFree n → Held n x.walk.scopes
  inner : x.walk.scopes = [] → n ∉ x.code.declared

theorem held_exprParts {a : Surroundings} {w : Walk} {d : List Declarations} {e : Expr}
    (hx : e.HasFree n → Held n w.scopes) (h : y ∈ exprParts a w d e) (free : y.code.HasFree n) :
    Held n y.walk.scopes := by
  cases e with
  | literal _ | ref _ _ | self _ _ | super _ _ _ => exact absurd h List.not_mem_nil
  | unary _ _ | group _ | get _ _ =>
    cases List.mem_singleton.1 h
    exact hx free
  | assign _ _ _ =>
    cases List.mem_singleton.1 h
    exact hx (.inr free)
  | binary _ l _ | logical _ l _ | call l _ _ =>
    obtain rfl | rfl := List.mem_pair.1 h
    · exact hx (.inl free)
    · rw [Expr.scopes_walk]
      exact hx (.inr free)
  | set _ _ v =>
    obtain rfl | rfl := List.mem_pair.1 h
    · exact hx (.inr free)
    · rw [Expr.scopes_walk]
      exact hx (.inl free)

theorem held_stmtParts {a : Surroundings} {w : Walk} {d : List Declarations} {s : Stmt}
    (hx : s.HasFree n → Held n w.scopes) (h : y ∈ stmtParts a w d s) (free : y.code.HasFree n) :
    Held n y.walk.scopes := by
  cases s with
  | expression _ | print _ =>
    cases List.mem_singleton.1 h
    exact hx free
  | varDecl name initial =>
    cases initial with
    | none => exact absurd h List.not_mem_nil
    | some e =>
      cases List.mem_singleton.1 h
      exact (hx ⟨e, rfl, free⟩).declare name
  | block _ =>
    cases List.mem_singleton.1 h
    exact (hx free).cons _
  | ifElse c yes no =>
    cases no with
    | none =>
      obtain rfl | rfl := List.mem_pair.1 h
      · exact hx (.inl free)
      · rw [Expr.scopes_walk]
        exact hx (.inr free)
    | some no =>
      simp only [stmtParts, List.mem_cons, List.not_mem_nil, or_false] at h
      obtain rfl | rfl | rfl := h
      · exact hx (.inl free)
      · rw [Expr.scopes_walk]
        exact hx (.inr (.inl free))
      · rw [Stmt.scopes_walk, Expr.scopes_walk]
        exact (hx (.inr (.inr free))).settle _
  | whileDo c _ =>
    obtain rfl | rfl := List.mem_pair.1 h
    · exact hx (.inl free)
    · rw [Expr.scopes_walk]
      exact hx (.inr free)
  | funDecl r =>
    cases List.mem_singleton.1 h
    rw [Walk.scopes_introduce]
    exact (hx free).settle _
  | ret _ value =>
    cases value with
    | none => exact absurd h List.not_mem_nil
    | some e =>
      cases List.mem_singleton.1 h
      rw [Walk.scopes_checkReturn]
      exact hx ⟨e, rfl, free⟩
  | classDecl name superclass rs =>
    cases superclass with
    | none =>
      cases List.mem_singleton.1 h
      simp only [Walk.scopes_openWordScope, Walk.scopes_introduce]
      exact ((hx free).settle _).cons _
    | some e =>
      obtain rfl | rfl := List.mem_pair.1 h
      · rw [Walk.scopes_checkSuperclass, Walk.scopes_introduce]
        exact (hx (.inl free)).settle _
      · simp only [Walk.scopes_openWordScope, Expr.scopes_walk, Walk.scopes_checkSuperclass, Walk.scopes_introduce]
        exact (((hx (.inr free)).settle _).cons _).cons _

/-- A name that is free in a part of a part is free in that, or it was declared on the way to the part. -/
theorem held_of_mem_parts (hx : x.Holds n) (h : y ∈ x.parts) (free : y.code.HasFree n) : Held n y.walk.scopes := by
  obtain ⟨code, a, w, d⟩ := x
  have outside := hx.free
  cases code with
  | expr e => exact held_exprParts outside h free
  | stmt s => exact held_stmtParts outside h free
  | exprs es =>
    cases es with
    | nil => exact absurd h List.not_mem_nil
    | cons e es =>
      obtain rfl | rfl := List.mem_pair.1 h
      · exact outside (.inl free)
      · rw [Expr.scopes_walk]
        exact outside (.inr free)
  | stmts ss =>
    cases ss with
    | nil => exact absurd h List.not_mem_nil
    | cons s ss =>
      obtain rfl | rfl := List.mem_pair.1 h
      · exact outside (.inl free)
      · rw [Stmt.scopes_walk]
        -- what the statement before declares is in the innermost scope, for it is no global variable
        by_cases declared : n ∈ s.declared
        · refine .of_mem declared fun top => ?_
          exact hx.inner top (List.mem_append_left _ declared)
        · exact (outside (.inr ⟨declared, free⟩)).settle _
  | routine r =>
    obtain ⟨name, parameters, body⟩ := r
    cases List.mem_singleton.1 h
    rw [Walk.scopes_introduceAll]
    by_cases declared : n ∈ parameters.map (·.lexeme)
    · exact .of_mem declared (List.cons_ne_nil _ _)
    · exact ((outside ⟨declared, free⟩).cons _).settle _
  | methods rs =>
    cases rs with
    | nil => exact absurd h List.not_mem_nil
    | cons r rs =>
      obtain rfl | rfl := List.mem_pair.1 h
      · exact outside (.inl free)
      · rw [scopes_walkRoutine]
        exact outside (.inr free)

theorem settle_eq_nil {names : List String} {scopes : List Declarations} (h : settle names scopes = []) :
    scopes = [] := by
  cases scopes with
  | nil => rfl
  | cons _ _ => cases h

theorem Holds.part (hx : x.Holds n) (h : y ∈ x.parts) : y.Holds n := by
  refine ⟨held_of_mem_parts hx h, fun top => ?_⟩
  cases lies_of_mem_parts h with
  | along names more _ declared _ scopes _ _ =>
    rw [scopes] at top
    have outside := hx.inner (settle_eq_nil top)
    rw [declared] at outside
    exact fun mem => outside (List.mem_append_right _ (List.mem_append_left _ mem))
  | initial name e _ part =>
    subst part
    exact List.not_mem_nil
  | body _ _ _ _ scopes _ _ | methods _ _ scopes _ _ | inheriting _ _ scopes _ _ =>
    rw [scopes] at top
    cases top

end Stop

/-- A name that is free in a part of a program is in an open scope there, if it is neither free in the program nor one
of its global variables. -/
theorem Visits.held {statements : List Stmt} {x : Stop} (h : Visits statements x) {n : String}
    (closed : ¬ (Code.stmts statements).HasFree n) (inner : n ∉ Stmt.declaredAll statements)
    (free : x.code.HasFree n) : Held n x.walk.scopes :=
  (h.induct (P := Stop.Holds n) ⟨fun free => absurd free closed, fun _ => inner⟩ fun _ hx _ hy => hx.part hy).free free

end Lox
