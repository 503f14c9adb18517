/-
A walk comes to a part with a use in it once. Uses are numbered apart, so of the parts of a part at most one
has a given use, and the stops that lead to a use form a single path into the program.
-/
import Lox.Proofs.Binding.Checked
import Mathlib.Data.List.Nodup
import Mathlib.Data.List.Pairwise

namespace Lox

namespace Stop

variable {x y z : Stop}

/-! ## Parts have different uses -/

theorem uses_stmtParts (a : Surroundings) (w : Walk) (d : List Declarations) (s : Stmt) :
    (stmtParts a w d s).flatMap (·.code.uses) = s.uses := by
  cases s with
  | expression _ | print _ | block _ | whileDo _ _ | funDecl _ => simp [stmtParts, Code.uses, Stmt.uses]
  | varDecl _ e | ret _ e => cases e <;> simp [stmtParts, optionParts, Code.uses, Stmt.uses, Expr.usesOption]
  | ifElse _ _ no => cases no <;> simp [stmtParts, Code.uses, Stmt.uses]
  | classDecl _ e _ => cases e <;> simp [stmtParts, classParts, Code.uses, Stmt.uses]

/-- The uses in a part are those in its parts and then the part itself, if it is one. -/
theorem uses_eq (x : Stop) : x.parts.flatMap (·.code.uses) ++ x.code.use?.toList.map (·.1) = x.code.uses := by
  obtain ⟨code, a, w, d⟩ := x
  cases code with
  | expr e => cases e <;> simp [parts, exprParts, Code.use?, Expr.use?, Code.uses, Expr.uses]
  | stmt s => exact (List.append_nil _).trans (uses_stmtParts a w d s)
  | exprs l => cases l <;> simp [parts, Code.use?, Code.uses, Expr.usesAll]
  | stmts l => cases l <;> simp [parts, Code.use?, Code.uses, Stmt.usesAll]
  | methods l => cases l <;> simp [parts, Code.use?, Code.uses, methodUses]
  | routine r =>
    obtain ⟨name, parameters, body⟩ := r
    simp [parts, routineParts, Code.use?, Code.uses, routineUses]

/-- The uses of the parts are among those of the whole, each as often as it is there. -/
theorem uses_parts (x : Stop) : (x.parts.flatMap (·.code.uses)).Sublist x.code.uses :=
  x.uses_eq ▸ List.sublist_append_left _ _

/-- A use is in one of the parts only. -/
theorem eq_of_shared_use (hx : x.code.uses.Nodup) (hy : y ∈ x.parts) (hz : z ∈ x.parts) {id : UseId}
    (hidy : id ∈ y.code.uses) (hidz : id ∈ z.code.uses) : y = z := by
  have apart := (List.nodup_flatMap.1 (hx.sublist x.uses_parts)).2
  by_contra hne
  have : Std.Symm (Function.onFun List.Disjoint fun x : Stop => x.code.uses) := ⟨fun _ _ h _ ha hb => h hb ha⟩
  exact apart.forall hy hz hne hidy hidz

/-! ## Parts are smaller -/

theorem sizeOf_stmtParts {a : Surroundings} {w : Walk} {d : List Declarations} {s : Stmt}
    (h : y ∈ stmtParts a w d s) : sizeOf y.code < 1 + sizeOf s := by
  cases s with
  | expression _ | print _ | block _ | funDecl _ =>
    cases List.mem_singleton.1 h
    simp
  | whileDo _ _ =>
    obtain rfl | rfl := List.mem_pair.1 h
    all_goals simp +arith
  | varDecl _ e | ret _ e =>
    cases e with
    | none => exact absurd h List.not_mem_nil
    | some e =>
      cases List.mem_singleton.1 h
      simp +arith
  | ifElse _ _ no =>
    cases no <;> simp only [stmtParts, List.mem_cons, List.not_mem_nil, or_false] at h
    all_goals
      rcases h with rfl | rfl | rfl <;> simp +arith
  | classDecl _ e _ =>
    cases e <;> simp only [stmtParts, classParts, List.mem_cons, List.not_mem_nil, or_false] at h
    all_goals
      rcases h with rfl | rfl
      all_goals simp +arith

theorem sizeOf_lt_of_mem_parts (h : y ∈ x.parts) : sizeOf y.code < sizeOf x.code := by
  obtain ⟨code, a, w, d⟩ := x
  cases code with
  | expr e =>
    cases e <;> simp only [parts, exprParts, List.mem_cons, List.not_mem_nil, or_false] at h
    all_goals
      rcases h with rfl | rfl
      all_goals simp +arith
  | stmt s =>
    have := sizeOf_stmtParts h
    simpa using this
  | exprs l | stmts l | methods l =>
    cases l with
    | nil => exact absurd h List.not_mem_nil
    | cons _ _ =>
      obtain rfl | rfl := List.mem_pair.1 h
      all_goals simp +arith
  | routine r =>
    obtain ⟨name, parameters, body⟩ := r
    cases List.mem_singleton.1 h
    simp +arith

/-- What holds at a stop if it does at the stops at its parts holds at every stop. -/
theorem parts_induct {P : Stop → Prop} (step : ∀ x, (∀ y ∈ x.parts, P y) → P x) (x : Stop) : P x := by
  induction hn : sizeOf x.code using Nat.strongRecOn generalizing x with
  | ind n ih => exact step x fun y hy => ih _ (hn ▸ sizeOf_lt_of_mem_parts hy) y rfl

/-! ## The path to a use -/

/-- One part after the other on the way to a use. -/
def Toward (id : UseId) (x y : Stop) : Prop := x.code.uses.Nodup ∧ y ∈ x.parts ∧ id ∈ y.code.uses

theorem toward_rightUnique (id : UseId) : Relator.RightUnique (Toward id) :=
  fun _ _ _ ⟨apart, hy, hidy⟩ ⟨_, hz, hidz⟩ => eq_of_shared_use apart hy hz hidy hidz

theorem eq_or_sizeOf_lt {id : UseId} (h : Relation.ReflTransGen (Toward id) x y) :
    y = x ∨ sizeOf y.code < sizeOf x.code := by
  induction h with
  | refl => exact .inl rfl
  | tail _ step ih =>
    have smaller := sizeOf_lt_of_mem_parts step.2.1
    right
    rcases ih with rfl | ih
    · exact smaller
    · exact Nat.lt_trans smaller ih

end Stop

section

variable {statements : List Stmt} {table : Table} {x y : Stop}

/-- What is entered on the way through statements whose uses are numbered apart stays, errors or not. -/
theorem Visits.entered (apart : (Stmt.usesAll statements).Nodup) (hx : Visits statements x) :
    x.Entered (resolve statements).table :=
  hx.induct ⟨apart, fun id _ => Table.get?_empty id, fun _ _ => rfl⟩ fun _ hx _ hy => hx.part hy

theorem Visits.toward (apart : (Stmt.usesAll statements).Nodup) (hx : Visits statements x) {id : UseId}
    (hid : id ∈ x.code.uses) : Relation.ReflTransGen (Stop.Toward id) (.start statements) x := by
  induction hx with
  | refl => exact .refl
  | tail hb hy ih =>
    have whole := (Stop.section_of_mem_parts hy).choose_spec.choose_spec.1
    refine (ih ?_).tail ⟨(Visits.entered apart hb).apart, hy, hid⟩
    rw [whole]
    exact List.mem_append_right _ (List.mem_append_left _ hid)

/-- Of two stops with the same use in them, one is on the way to the other. -/
theorem Visits.total (apart : (Stmt.usesAll statements).Nodup) (hx : Visits statements x) (hy : Visits statements y)
    {id : UseId} (hidx : id ∈ x.code.uses) (hidy : id ∈ y.code.uses) :
    Relation.ReflTransGen (Stop.Toward id) x y ∨ Relation.ReflTransGen (Stop.Toward id) y x :=
  (hx.toward apart hidx).total_of_right_unique (Stop.toward_rightUnique id) (hy.toward apart hidy)

/-- A walk comes to a part with a use in it once. -/
theorem Visits.eq_of_code_eq (resolved : Resolved statements table) (hx : Visits statements x)
    (hy : Visits statements y) (hc : x.code = y.code) (hu : x.code.uses ≠ []) : x = y := by
  obtain ⟨id, hid⟩ := List.exists_mem_of_ne_nil _ hu
  rcases hx.total resolved.apart hy hid (hc ▸ hid) with h | h
  · rcases Stop.eq_or_sizeOf_lt h with rfl | lt
    · rfl
    · exact absurd lt (by rw [hc]; exact Nat.lt_irrefl _)
  · rcases Stop.eq_or_sizeOf_lt h with rfl | lt
    · rfl
    · exact absurd lt (by rw [hc]; exact Nat.lt_irrefl _)

end

/-! ## The stop at a use -/

namespace Stop

variable {x y : Stop} {id : UseId}

/-- Whether the part is itself a use with this number. -/
def IsUse (x : Stop) (id : UseId) : Prop := ∃ e name, x.code = .expr e ∧ e.use? = some (id, name)

theorem IsUse.mem_uses (h : x.IsUse id) : id ∈ x.code.uses := by
  obtain ⟨e, name, hc, hu⟩ := h
  rw [hc]
  exact e.mem_uses hu

/-- The use itself is in none of its parts. -/
theorem IsUse.not_mem_parts (h : x.IsUse id) (apart : x.code.uses.Nodup) (hy : y ∈ x.parts) : id ∉ y.code.uses := by
  obtain ⟨code, a, w, d⟩ := x
  obtain ⟨e, name, rfl, hu⟩ := h
  cases e with
  | literal _ | unary _ _ | binary _ _ _ | logical _ _ _ | group _ | call _ _ _ | get _ _ | set _ _ _ => cases hu
  | ref _ _ | self _ _ | super _ _ _ => exact absurd hy List.not_mem_nil
  | assign _ _ value =>
    cases hu
    cases List.mem_singleton.1 hy
    exact fun mem => (List.nodup_append.1 apart).2.2 id mem id (List.mem_singleton_self id) rfl

theorem IsUse.eq_of_toward (h : x.IsUse id) (way : Relation.ReflTransGen (Toward id) x y) : y = x := by
  cases Relation.ReflTransGen.cases_head way with
  | inl same => exact same.symm
  | inr next =>
    obtain ⟨z, ⟨apart, hz, mem⟩, -⟩ := next
    exact absurd mem (h.not_mem_parts apart hz)

/-- A use in a part is the part itself, or in one of its parts. -/
theorem isUse_or_mem_parts (h : id ∈ x.code.uses) : x.IsUse id ∨ ∃ y ∈ x.parts, id ∈ y.code.uses := by
  rw [← uses_eq, List.mem_append, List.mem_flatMap] at h
  obtain inside | own := h
  · exact .inr inside
  · obtain ⟨use, hu, rfl⟩ := List.mem_map.1 own
    refine .inl ?_
    unfold IsUse
    cases hc : x.code with
    | expr e =>
      rw [hc] at hu
      exact ⟨e, use.2, rfl, Option.mem_toList.1 hu⟩
    | _ =>
      rw [hc] at hu
      cases hu

end Stop

section

variable {statements : List Stmt} {x y : Stop} {id : UseId}

/-- A walk comes to every use in the statements. -/
theorem Visits.exists_isUse (hx : Visits statements x) (h : id ∈ x.code.uses) :
    ∃ y, Visits statements y ∧ y.IsUse id := by
  induction x using Stop.parts_induct with
  | step x ih =>
    rcases Stop.isUse_or_mem_parts h with isUse | ⟨y, hy, mem⟩
    · exact ⟨x, hx, isUse⟩
    · exact ih y hy (hx.part hy) mem

/-- A walk comes to a use once. -/
theorem Visits.eq_of_isUse (apart : (Stmt.usesAll statements).Nodup) (hx : Visits statements x)
    (hy : Visits statements y) (hux : x.IsUse id) (huy : y.IsUse id) : x = y := by
  rcases hx.total apart hy hux.mem_uses huy.mem_uses with way | way
  · exact (hux.eq_of_toward way).symm
  · exact huy.eq_of_toward way

end

end Lox
