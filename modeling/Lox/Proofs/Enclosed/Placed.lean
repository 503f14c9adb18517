/-
A program that is put in one block keeps the rules that it keeps without the block, if its top-level names are declared
once and before they are mentioned (`errors_block`): the variables that were global are local to the block then, and of
those the rules ask more.
-/
import Lox.Proofs.Binding.Initial
import Lox.Proofs.Binding.Single
import Lox.Proofs.Binding.WellFormed
import Lox.Proofs.Enclosed.Stops
import Lox.Proofs.Grammar.Statement

namespace Lox

/-! ## More layers around -/

theorem Expr.placed_append (e : Expr) (around outer : List Layer) :
    e.placed (around ++ outer) = (e.placed around).map (Prod.map (· ++ outer) id) := by
  simp [Expr.placed]

theorem placed_append_option (e : Option Expr) (around outer : List Layer) :
    e.toList.flatMap (·.placed (around ++ outer)) =
      (e.toList.flatMap (·.placed around)).map (Prod.map (· ++ outer) id) := by
  cases e <;> simp [Expr.placed]

mutual

theorem Stmt.placed_append (outer : List Layer) :
    ∀ (s : Stmt) (around : List Layer), s.placed (around ++ outer) = (s.placed around).map (Prod.map (· ++ outer) id)
  | .expression e, around => by simp [Stmt.placed, e.placed_append]
  | .print e, around => by simp [Stmt.placed, e.placed_append]
  | .varDecl _ initial, around => by simp [Stmt.placed, placed_append_option]
  | .block body, around => by simp [Stmt.placed, ← Stmt.placedAll_append outer body]
  | .ifElse condition yes none, around => by simp [Stmt.placed, condition.placed_append, yes.placed_append outer]
  | .ifElse condition yes (some no), around => by
    simp [Stmt.placed, condition.placed_append, yes.placed_append outer, no.placed_append outer]
  | .whileDo condition body, around => by simp [Stmt.placed, condition.placed_append, body.placed_append outer]
  | .funDecl routine, around => by simp [Stmt.placed, ← routinePlaced_append outer routine]
  | .ret _ value, around => by simp [Stmt.placed, placed_append_option]
  | .classDecl _ none methods, around => by simp [Stmt.placed, ← methodsPlaced_append outer methods]
  | .classDecl _ (some superclass) methods, around => by
    simp [Stmt.placed, ← superclass.placed_append, ← methodsPlaced_append outer methods]

theorem Stmt.placedAll_append (outer : List Layer) :
    ∀ (ss : List Stmt) (around : List Layer),
      Stmt.placedAll (around ++ outer) ss = (Stmt.placedAll around ss).map (Prod.map (· ++ outer) id)
  | [], around => by simp [Stmt.placedAll]
  | s :: ss, around => by simp [Stmt.placedAll, s.placed_append outer, Stmt.placedAll_append outer ss]

theorem routinePlaced_append (outer : List Layer) :
    ∀ (r : Routine Stmt) (inside : List Layer),
      routinePlaced (inside ++ outer) r = (routinePlaced inside r).map (Prod.map (· ++ outer) id)
  | ⟨_, _, body⟩, inside => by simp [routinePlaced, Stmt.placedAll_append outer body]

theorem methodsPlaced_append (outer : List Layer) :
    ∀ (rs : List (Routine Stmt)) (around : List Layer),
      methodsPlaced (around ++ outer) rs = (methodsPlaced around rs).map (Prod.map (· ++ outer) id)
  | [], around => by simp [methodsPlaced]
  | r :: rs, around => by
    simp [methodsPlaced, ← routinePlaced_append outer r, methodsPlaced_append outer rs]

end

/-- Where all these layers are around, one of them that is a scope is around each part. -/
theorem exists_isScope {outer : List Layer} (inside : ∃ layer ∈ outer, layer.isScope = true)
    {parts : List (List Layer × Code)} {part : List Layer × Code} (h : part ∈ parts.map (Prod.map (· ++ outer) id)) :
    ∃ layer ∈ part.1, layer.isScope = true := by
  obtain ⟨inner, -, rfl⟩ := List.mem_map.1 h
  obtain ⟨layer, mem, scope⟩ := inside
  exact ⟨layer, List.mem_append_right _ mem, scope⟩

theorem Stmt.placedAll_isScope {outer : List Layer} (inside : ∃ layer ∈ outer, layer.isScope = true) {ss : List Stmt}
    {part : List Layer × Code} (h : part ∈ Stmt.placedAll outer ss) : ∃ layer ∈ part.1, layer.isScope = true := by
  have split := Stmt.placedAll_append outer ss []
  rw [List.nil_append] at split
  exact exists_isScope inside (split ▸ h)

theorem methodsPlaced_isScope {around : List Layer} {part : List Layer × Code} :
    ∀ {rs : List (Routine Stmt)}, part ∈ methodsPlaced around rs → ∃ layer ∈ part.1, layer.isScope = true
  | ⟨name, parameters, body⟩ :: rs, h => by
    rcases List.mem_append.1 h with h | h
    · have inside : ∃ layer ∈ .method name :: around, layer.isScope = true := ⟨_, List.mem_cons_self, rfl⟩
      rcases List.mem_cons.1 h with rfl | h
      · exact inside
      · exact Stmt.placedAll_isScope inside h
    · exact methodsPlaced_isScope h

theorem Expr.not_stmt_mem_placed {e : Expr} {around around' : List Layer} {s : Stmt} :
    (around', .stmt s) ∉ e.placed around := by
  intro h
  obtain ⟨c, hc, same⟩ := List.mem_map.1 h
  cases same
  exact e.isExpr_within _ hc

theorem Stmt.mem_placedAll {around : List Layer} {part : List Layer × Code} {ss : List Stmt} :
    part ∈ Stmt.placedAll around ss ↔ ∃ s ∈ ss, part ∈ s.placed around := by
  induction ss with
  | nil => simp [Stmt.placedAll]
  | cons s ss ih => simp [Stmt.placedAll, ih]

/-- A declaration with an initializer that stands in no scope is a statement of the program itself. -/
theorem Stmt.eq_of_placed {around : List Layer} {name : Token} {e : Expr} :
    ∀ {s : Stmt}, s.Formed → (around, .stmt (.varDecl name (some e))) ∈ s.placed [] →
      (∃ layer ∈ around, layer.isScope = true) ∨ s = .varDecl name (some e)
  | .expression _, _, h | .print _, _, h => by
    rcases List.mem_cons.1 h with h | h
    · cases h
    · exact absurd h Expr.not_stmt_mem_placed
  | .varDecl _ initial, _, h => by
    rcases List.mem_cons.1 h with h | h
    · cases h
      exact .inr rfl
    · obtain ⟨e, -, h⟩ := List.mem_flatMap.1 h
      exact absurd h Expr.not_stmt_mem_placed
  | .ret _ _, _, h => by
    rcases List.mem_cons.1 h with h | h
    · cases h
    · obtain ⟨e, -, h⟩ := List.mem_flatMap.1 h
      exact absurd h Expr.not_stmt_mem_placed
  | .block body, _, h => by
    rcases List.mem_cons.1 h with h | h
    · cases h
    · exact .inl (Stmt.placedAll_isScope ⟨_, List.mem_cons_self, rfl⟩ h)
  | .funDecl ⟨_, _, body⟩, _, h => by
    have inside : ∃ layer ∈ [Layer.function], layer.isScope = true := ⟨_, List.mem_cons_self, rfl⟩
    rcases List.mem_cons.1 h with h | h
    · cases h
    · rcases List.mem_cons.1 h with h | h
      · cases h
      · exact .inl (Stmt.placedAll_isScope inside h)
  | .classDecl _ none _, _, h => by
    rcases List.mem_cons.1 h with h | h
    · cases h
    · exact .inl (methodsPlaced_isScope h)
  | .classDecl _ (some superclass) _, _, h => by
    rcases List.mem_cons.1 h with h | h
    · cases h
    · rcases List.mem_append.1 h with h | h
      · exact absurd h Expr.not_stmt_mem_placed
      · exact .inl (methodsPlaced_isScope h)
  | .ifElse condition yes none, formed, h => by
    rcases List.mem_cons.1 h with h | h
    · cases h
    · rcases List.mem_append.1 h with h | h
      · exact absurd h Expr.not_stmt_mem_placed
      · exact .inl ((Stmt.eq_of_placed formed.2.1 h).resolve_right (by rintro rfl; cases formed.2.2))
  | .ifElse condition yes (some no), formed, h => by
    rcases List.mem_cons.1 h with h | h
    · cases h
    · rcases List.mem_append.1 h with h | h
      · exact absurd h Expr.not_stmt_mem_placed
      · rcases List.mem_append.1 h with h | h
        · exact .inl ((Stmt.eq_of_placed formed.2.1.1 h).resolve_right (by rintro rfl; cases formed.2.1.2))
        · exact .inl ((Stmt.eq_of_placed formed.2.2.1 h).resolve_right (by rintro rfl; cases formed.2.2.2))
  | .whileDo condition body, formed, h => by
    rcases List.mem_cons.1 h with h | h
    · cases h
    · rcases List.mem_append.1 h with h | h
      · exact absurd h Expr.not_stmt_mem_placed
      · exact .inl ((Stmt.eq_of_placed formed.2.1 h).resolve_right (by rintro rfl; cases formed.2.2))

/-! ## The rules in a block -/

/-- In one more block only the initializers of variables that were global have to be looked at again. -/
theorem Code.WellPlaced.inBlock {around : List Layer} {c : Code} (h : c.WellPlaced around)
    (initial : ∀ name e, c = .stmt (.varDecl name (some e)) →
      (∃ layer ∈ around, layer.isScope = true) ∨ e.Avoids name.lexeme) :
    c.WellPlaced (around ++ [.block]) := by
  have more {p : Layer → Bool} (h : ∃ layer ∈ around, p layer = true) :
      ∃ layer ∈ around ++ [.block], p layer = true := by
    obtain ⟨layer, mem, hp⟩ := h
    exact ⟨layer, List.mem_append_left _ mem, hp⟩
  unfold Code.WellPlaced
  split
  · exact more h
  · refine ⟨more h.1, ?_⟩
    simpa [List.find?_append, Layer.isRoutine] using h.2
  · exact more h
  · have home : around.find? Layer.isClass = some (.cls true) := h
    simp [List.find?_append, home]
  · exact h
  · exact h
  · exact h
  · next name e => exact fun _ => (initial name e rfl).elim h id
  · trivial

/-! ## Initializers at the top -/

namespace Stop

variable {x y : Stop} {c : Code}

/-- What is within an expression is the expression itself or within one of its parts. -/
theorem eq_or_mem_parts (hx : x.code.IsExpr) (hc : c ∈ x.code.within) :
    c = x.code ∨ ∃ y ∈ x.parts, c ∈ y.code.within := by
  obtain ⟨code, a, w, d⟩ := x
  cases code with
  | stmt _ | stmts _ | routine _ | methods _ => exact hx.elim
  | exprs es =>
    cases es with
    | nil => cases hc
    | cons e es =>
      rcases List.mem_append.1 hc with hc | hc
      · exact .inr ⟨_, List.mem_cons_self, hc⟩
      · exact .inr ⟨_, .tail _ List.mem_cons_self, hc⟩
  | expr e =>
    cases e with
    | literal _ | ref _ _ | self _ _ | super _ _ _ => exact .inl (List.mem_singleton.1 hc)
    | unary _ _ | group _ | assign _ _ _ | get _ _ =>
      exact (List.mem_cons.1 hc).imp_right fun hc => ⟨_, List.mem_singleton_self _, hc⟩
    | binary _ _ _ | logical _ _ _ | call _ _ _ | set _ _ _ =>
      refine (List.mem_cons.1 hc).imp_right fun hc => ?_
      rcases List.mem_append.1 hc with hc | hc
      · exact ⟨_, List.mem_cons_self, hc⟩
      · exact ⟨_, .tail _ List.mem_cons_self, hc⟩

end Stop

variable {statements : List Stmt} {table : Table} {x : Stop}

/-- What is within an expression has a stop in the scopes of the expression. -/
theorem Visits.exists_within (visits : Visits statements x) (hx : x.code.IsExpr) {c : Code} (hc : c ∈ x.code.within) :
    ∃ z, Visits statements z ∧ z.code = c ∧ z.walk.scopes = x.walk.scopes := by
  generalize hn : sizeOf x.code = n
  induction n using Nat.strongRecOn generalizing x with
  | ind n ih =>
    rcases Stop.eq_or_mem_parts hx hc with rfl | ⟨y, hy, hc⟩
    · exact ⟨x, visits, rfl, rfl⟩
    · have smaller := Stop.sizeOf_lt_of_mem_parts hy
      obtain ⟨inner, same⟩ := (Stop.lies_of_mem_parts hy).of_isExpr hx
      obtain ⟨z, hz, code, scopes⟩ := ih _ (hn ▸ smaller) (visits.part hy) inner hc rfl
      exact ⟨z, hz, code, scopes.trans same⟩

/-- After some of the statements in no scope come the others, in no scope either. -/
theorem Visits.exists_rest {a : Surroundings} {d : List Declarations} {rest : List Stmt} :
    ∀ {before : List Stmt} {w : Walk}, Visits statements ⟨.stmts (before ++ rest), a, w, d⟩ → w.scopes = [] →
      ∃ w', Visits statements ⟨.stmts rest, a, w', d⟩ ∧ w'.scopes = []
  | [], w, visits, top => ⟨w, visits, top⟩
  | s :: before, w, visits, top => by
    have later : (s.walk a w).scopes = [] := by rw [Stmt.scopes_walk, top]; rfl
    have inside : Visits statements ⟨.stmts (before ++ rest), a, s.walk a w, d⟩ :=
      visits.part (.tail _ List.mem_cons_self)
    exact inside.exists_rest later

/-- A global variable is not read in its own initializer if global variables are declared before they are mentioned. -/
theorem Resolved.avoids (resolved : Resolved statements table) (order : Stmt.GlobalsInOrder table statements)
    {name : Token} {e : Expr} (mem : .varDecl name (some e) ∈ statements) : e.Avoids name.lexeme := by
  intro id read hr
  obtain ⟨before, rest, split⟩ := List.append_of_mem mem
  have start : Visits statements ⟨.stmts (before ++ .varDecl name (some e) :: rest), .outermost, .start, []⟩ := by
    rw [← split]
    exact .start statements
  obtain ⟨w, visits, top⟩ := start.exists_rest rfl
  have initial := (visits.part List.mem_cons_self).part (y := ⟨.expr e, .outermost, w.declare name, []⟩)
    (List.mem_singleton_self _)
  obtain ⟨z, hz, code, scopes⟩ := initial.exists_within trivial hr
  have entry := (resolved.checked hz).clean.get?_use code rfl
  have none : (w.declare name).scopes = [] := by simp [Walk.declare, Walk.declared, Walk.mark, top]
  rw [scopes, none] at entry
  have global : read.lexeme ∈ (Code.expr e).globals table := List.mem_filterMap.2 ⟨_, hr, if_pos entry⟩
  rw [split] at order
  exact fun same => order.rest.1 _ global (List.mem_singleton.2 same)

/-- A program that breaks no rule breaks none in a block either, if its top-level names are declared once and before
they are mentioned. -/
theorem Resolved.errors_block (resolved : Resolved statements table) (order : Stmt.GlobalsInOrder table statements)
    (apart : (Stmt.declaredAll statements).Nodup) : (resolve [.block statements]).errors = [] := by
  have kept := (errors_resolve_kept statements).1 resolved.errors
  refine (errors_resolve_kept _).2 (kept_cons.2 ⟨apart, ?_⟩)
  show Kept (Stmt.placedAll ([] ++ [.block]) statements ++ [])
  rw [List.append_nil, Stmt.placedAll_append]
  intro part hp
  obtain ⟨⟨around, c⟩, mem, rfl⟩ := List.mem_map.1 hp
  refine Code.WellPlaced.inBlock (kept _ mem) ?_
  rintro name e rfl
  obtain ⟨s, hs, inside⟩ := Stmt.mem_placedAll.1 mem
  refine (Stmt.eq_of_placed (Stmt.formedAll_iff.1 resolved.formed s hs) inside).imp_right ?_
  rintro rfl
  exact resolved.avoids order hs

end Lox
