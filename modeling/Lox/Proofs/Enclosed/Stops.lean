/-
The stops of statements that are put in one block. Each has one scope more around it than the stop of the statements on
their own, the scope of the block, and if global variables are mentioned only after they are declared then that scope
has every declared name that is looked for there. So the table has the same entries, and entries for the global
variables that the statements declare besides.
-/
import Lox.Proofs.Binding.Checked
import Lox.Proofs.Binding.Initial

namespace Lox

/-! ## Global variables in order -/

/-- The name of the global variable that a part of a program reads or assigns to itself. -/
def Code.global? (table : Table) : Code → Option String
  | expr (.ref id name) => if table.get? id = none then some name.lexeme else none
  | expr (.assign id name _) => if table.get? id = none then some name.lexeme else none
  | _ => none

/-- The names of the global variables that are read or assigned to within a part of a program. -/
def Code.globals (table : Table) (c : Code) : List String := c.within.filterMap (Code.global? table)

/-- The names of the global variables mentioned before a statement completes what it declares: those in the initializer
of a variable. -/
def Stmt.globalsBefore (table : Table) : Stmt → List String
  | .varDecl _ (some e) => (Code.expr e).globals table
  | _ => []

/-- Whether of the statements of a program none mentions a global variable that is declared only later. -/
def Stmt.GlobalsInOrder (table : Table) : List Stmt → Prop
  | [] => True
  | s :: ss =>
    (∀ n ∈ s.globalsBefore table, n ∉ s.declared) ∧ (∀ n ∈ (Code.stmt s).globals table, n ∉ Stmt.declaredAll ss) ∧
      Stmt.GlobalsInOrder table ss

instance Stmt.decidableGlobalsInOrder (table : Table) : ∀ ss : List Stmt, Decidable (Stmt.GlobalsInOrder table ss)
  | [] => isTrue trivial
  | _ :: ss =>
    have := Stmt.decidableGlobalsInOrder table ss
    inferInstanceAs (Decidable (_ ∧ _ ∧ _))

variable {table : Table}

theorem Stmt.GlobalsInOrder.rest {before ss : List Stmt} (h : Stmt.GlobalsInOrder table (before ++ ss)) :
    Stmt.GlobalsInOrder table ss := by
  induction before with
  | nil => exact h
  | cons s before ih => exact ih h.2.2

theorem Code.globals_subset {c c' : Code} (h : c'.within ⊆ c.within) : c'.globals table ⊆ c.globals table :=
  List.filterMap_subset _ h

/-! ## One more scope -/

/-- `Beneath known scopes scopes'` says that `scopes'` are the scopes and one more around them, which has the known
names. -/
def Beneath (known : List String) (scopes scopes' : List Declarations) : Prop :=
  ∃ top : Declarations, scopes' = scopes ++ [top] ∧ ∀ n ∈ known, top.contains n = true

namespace Beneath

variable {known : List String} {scopes scopes' : List Declarations}

theorem push (h : Beneath known scopes scopes') (own : Declarations) :
    Beneath known (own :: scopes) (own :: scopes') := by
  obtain ⟨top, rfl, names⟩ := h
  exact ⟨top, rfl, names⟩

theorem mono {fewer : List String} (h : Beneath known scopes scopes') (hn : fewer ⊆ known) :
    Beneath fewer scopes scopes' := by
  obtain ⟨top, e, names⟩ := h
  exact ⟨top, e, fun n mem => names n (hn mem)⟩

/-- What is completed when no scope is open is known then in the scope around. -/
theorem learn (h : Beneath known [] scopes') (names : List String) :
    Beneath (known ++ names) [] (settle names scopes') := by
  obtain ⟨top, rfl, old⟩ := h
  refine ⟨top.complete names, rfl, fun n mem => (Declarations.contains_complete _ _ _).2 ?_⟩
  exact (List.mem_append.1 mem).symm.imp_right (old n)

theorem settle (h : Beneath known scopes scopes') (names : List String) :
    Beneath known (settle names scopes) (settle names scopes') := by
  cases scopes with
  | nil => exact (h.learn names).mono (List.subset_append_left _ _)
  | cons own outer =>
    obtain ⟨top, rfl, old⟩ := h
    exact ⟨top, rfl, old⟩

theorem declare {w w' : Walk} (h : Beneath known w.scopes w'.scopes) (name : Token) :
    Beneath known (w.declare name).scopes (w'.declare name).scopes := by
  obtain ⟨top, e, names⟩ := h
  cases hs : w.scopes with
  | nil =>
    rw [hs] at e
    have none : (w.declare name).scopes = [] := by simp [Walk.declare, Walk.declared, Walk.mark, hs]
    rw [none]
    obtain same | ⟨scope, outer, hw, marked⟩ := w'.scopes_declare name
    · exact ⟨top, same.trans e, names⟩
    · cases hw.symm.trans e
      refine ⟨_, marked, fun n mem => ?_⟩
      rw [Bindings.contains, Bindings.get?_set]
      split
      · rfl
      · exact names n mem
  | cons own outer =>
    rw [hs] at e
    refine ⟨top, ?_, names⟩
    have declared : w'.declared name.lexeme = w.declared name.lexeme := by simp [Walk.declared, hs, e]
    unfold Walk.declare
    rw [declared]
    split <;> simp [Walk.mark, hs, e]

end Beneath

/-! ## Stops in the block -/

namespace Stop

/-- The stop `x'` is at the part at which `x` is, with one more scope around it, which holds `all` when it is closed. -/
structure Under (all : Declarations) (known : List String) (x x' : Stop) : Prop where
  code : x'.code = x.code
  scopes : Beneath known x.walk.scopes x'.walk.scopes
  whole : [all] <:+ x'.whole

variable {all : Declarations} {known : List String} {x x' y' : Stop}

theorem Under.exprParts {e : Expr} {a a' : Surroundings} {w w' : Walk} {d d' : List Declarations}
    (h : Beneath known w.scopes w'.scopes) (whole : [all] <:+ d') (hy : y' ∈ exprParts a' w' d' e) :
    ∃ y ∈ exprParts a w d e, y.Under all known y' := by
  cases e with
  | literal _ | ref _ _ | self _ _ | super _ _ _ => exact absurd hy List.not_mem_nil
  | unary _ e | group e | get e _ | assign _ _ e =>
    cases List.mem_singleton.1 hy
    exact ⟨_, List.mem_singleton_self _, rfl, h, whole⟩
  | binary _ l r | logical _ l r | call f _ es | set o _ v =>
    obtain rfl | rfl := List.mem_pair.1 hy
    · exact ⟨_, List.mem_cons_self, rfl, h, whole⟩
    · exact ⟨_, .tail _ List.mem_cons_self, rfl, by simpa using h, whole⟩

theorem Under.classParts {name : Token} {e : Option Expr} {rs : List (Routine Stmt)} {a a' : Surroundings} {w w' : Walk}
    {d d' : List Declarations} (h : Beneath known (settle [name.lexeme] w.scopes) (settle [name.lexeme] w'.scopes))
    (whole : [all] <:+ d') (hy : y' ∈ classParts a' w' d' name rs e) :
    ∃ y ∈ classParts a w d name rs e, y.Under all known y' := by
  cases e with
  | none =>
    cases List.mem_singleton.1 hy
    exact ⟨_, List.mem_singleton_self _, rfl, by simpa using h.push _, whole.trans (List.suffix_cons _ _)⟩
  | some e =>
    obtain rfl | rfl := List.mem_pair.1 hy
    · exact ⟨_, List.mem_cons_self, rfl, by simpa using h, whole⟩
    · refine ⟨_, .tail _ List.mem_cons_self, rfl, by simpa using (h.push _).push _, ?_⟩
      exact (whole.trans (List.suffix_cons _ _)).trans (List.suffix_cons _ _)

theorem Under.stmtParts {s : Stmt} {a a' : Surroundings} {w w' : Walk} {d d' : List Declarations}
    (h : Beneath known w.scopes w'.scopes) (whole : [all] <:+ d') (hy : y' ∈ stmtParts a' w' d' s) :
    ∃ y ∈ stmtParts a w d s, y.Under all known y' := by
  cases s with
  | expression e | print e =>
    cases List.mem_singleton.1 hy
    exact ⟨_, List.mem_singleton_self _, rfl, h, whole⟩
  | varDecl name initial =>
    cases initial with
    | none => exact absurd hy List.not_mem_nil
    | some e =>
      cases List.mem_singleton.1 hy
      exact ⟨_, List.mem_singleton_self _, rfl, h.declare name, whole⟩
  | block body =>
    cases List.mem_singleton.1 hy
    exact ⟨_, List.mem_singleton_self _, rfl, h.push _, whole.trans (List.suffix_cons _ _)⟩
  | ifElse c yes no =>
    cases no with
    | none =>
      obtain rfl | rfl := List.mem_pair.1 hy
      · exact ⟨_, List.mem_cons_self, rfl, h, whole⟩
      · exact ⟨_, .tail _ List.mem_cons_self, rfl, by simpa using h, whole⟩
    | some no =>
      simp only [Stop.stmtParts, List.mem_cons, List.not_mem_nil, or_false] at hy
      obtain rfl | rfl | rfl := hy
      · exact ⟨_, List.mem_cons_self, rfl, h, whole⟩
      · exact ⟨_, .tail _ List.mem_cons_self, rfl, by simpa using h, whole⟩
      · exact ⟨_, .tail _ (.tail _ List.mem_cons_self), rfl, by simpa [Stmt.scopes_walk] using h.settle _, whole⟩
  | whileDo c body =>
    obtain rfl | rfl := List.mem_pair.1 hy
    · exact ⟨_, List.mem_cons_self, rfl, h, whole⟩
    · exact ⟨_, .tail _ List.mem_cons_self, rfl, by simpa using h, whole⟩
  | funDecl r =>
    cases List.mem_singleton.1 hy
    exact ⟨_, List.mem_singleton_self _, rfl, by simpa using h.settle _, whole⟩
  | ret k value =>
    cases value with
    | none => exact absurd hy List.not_mem_nil
    | some e =>
      cases List.mem_singleton.1 hy
      exact ⟨_, List.mem_singleton_self _, rfl, by simpa using h, whole⟩
  | classDecl name superclass rs => exact Under.classParts (h.settle _) whole hy

/-- To each part of a stop in the block there is one of the stop without it. -/
theorem Under.part (h : x.Under all known x') (hy : y' ∈ x'.parts) : ∃ y ∈ x.parts, y.Under all known y' := by
  obtain ⟨code, a, w, d⟩ := x
  obtain ⟨code', a', w', d'⟩ := x'
  obtain ⟨rfl, scopes, whole⟩ := h
  cases code' with
  | expr e => exact Under.exprParts scopes whole hy
  | stmt s => exact Under.stmtParts scopes whole hy
  | routine r =>
    obtain ⟨name, parameters, body⟩ := r
    cases List.mem_singleton.1 hy
    refine ⟨_, List.mem_singleton_self _, rfl, ?_, whole.trans (List.suffix_cons _ _)⟩
    simpa [settle] using scopes.push _
  | exprs es =>
    cases es with
    | nil => exact absurd hy List.not_mem_nil
    | cons e es =>
      obtain rfl | rfl := List.mem_pair.1 hy
      · exact ⟨_, List.mem_cons_self, rfl, scopes, whole⟩
      · exact ⟨_, .tail _ List.mem_cons_self, rfl, by simpa using scopes, whole⟩
  | stmts ss =>
    cases ss with
    | nil => exact absurd hy List.not_mem_nil
    | cons s ss =>
      obtain rfl | rfl := List.mem_pair.1 hy
      · exact ⟨_, List.mem_cons_self, rfl, scopes, whole⟩
      · exact ⟨_, .tail _ List.mem_cons_self, rfl, by simpa [Stmt.scopes_walk] using scopes.settle _, whole⟩
  | methods rs =>
    cases rs with
    | nil => exact absurd hy List.not_mem_nil
    | cons r rs =>
      obtain rfl | rfl := List.mem_pair.1 hy
      · exact ⟨_, List.mem_cons_self, rfl, scopes, whole⟩
      · exact ⟨_, .tail _ List.mem_cons_self, rfl, by simpa [scopes_walkRoutine] using scopes, whole⟩

/-! ## What is known in the block -/

/-- What is known of the names of the statements at a stop: at the top those that are declared before, and further in
all that are mentioned as global variables. -/
inductive Knows (statements : List Stmt) (table : Table) (known : List String) (x : Stop) : Prop
  | list (before rest : List Stmt) (split : statements = before ++ rest) (code : x.code = .stmts rest)
      (top : x.walk.scopes = []) (names : known = Stmt.declaredAll before)
  | statement (before : List Stmt) (s : Stmt) (rest : List Stmt) (split : statements = before ++ s :: rest)
      (code : x.code = .stmt s) (top : x.walk.scopes = []) (names : known = Stmt.declaredAll before)
  | inside (names : ∀ n ∈ x.code.globals table, n ∈ Stmt.declaredAll statements → n ∈ known)

/-- The stop is in the block, with a stop of the statements without it. -/
def Enclosed (statements : List Stmt) (table : Table) (all : Declarations) (x' : Stop) : Prop :=
  ∃ x known, Visits statements x ∧ x.Under all known x' ∧ x.Knows statements table known

variable {statements : List Stmt}

/-- What a statement mentions as a global variable is declared before it or by it. -/
theorem mem_of_globals {before rest : List Stmt} {s : Stmt} (order : Stmt.GlobalsInOrder table (before ++ s :: rest))
    {n : String} (hn : n ∈ (Code.stmt s).globals table) (mem : n ∈ Stmt.declaredAll (before ++ s :: rest)) :
    n ∈ Stmt.declaredAll before ++ s.declared := by
  have later := order.rest.2.1 n hn
  simp only [Stmt.declaredAll, List.flatMap_append, List.flatMap_cons, List.mem_append] at mem later ⊢
  tauto

/-- A part of a statement that declares nothing, or that is no mention of what it declares. -/
theorem Enclosed.inside {y y' : Stop} (visits : Visits statements y) (under : y.Under all known y')
    (names : ∀ n ∈ y.code.globals table, n ∈ Stmt.declaredAll statements → n ∈ known) :
    Enclosed statements table all y' := ⟨y, known, visits, under, .inside names⟩

/-- The parts of a statement at the top are in the block too: the statement mentions no global variable that is not
declared yet. -/
theorem Enclosed.statement (order : Stmt.GlobalsInOrder table statements) (visits : Visits statements x)
    (formed : x.code.Formed) (under : x.Under all known x') {before rest : List Stmt} {s : Stmt}
    (split : statements = before ++ s :: rest) (code : x.code = .stmt s) (top : x.walk.scopes = [])
    (names : known = Stmt.declaredAll before) (hy : y' ∈ x'.parts) : Enclosed statements table all y' := by
  have declared : ∀ n ∈ (Code.stmt s).globals table, n ∈ Stmt.declaredAll statements → n ∈ known ++ s.declared := by
    rw [split, names]
    exact fun n => mem_of_globals (split ▸ order)
  have first : ∀ n ∈ s.globalsBefore table, n ∉ s.declared := (split ▸ order).rest.1
  have quiet (none : s.declared = []) : Enclosed statements table all y' := by
    obtain ⟨y, mem, inner⟩ := under.part hy
    refine .inside (visits.part mem) inner fun n hn hd => ?_
    have := declared n (Code.globals_subset (code ▸ within_of_mem_parts mem) hn) hd
    rwa [none, List.append_nil] at this
  obtain ⟨_, a, w, d⟩ := x
  obtain ⟨_, a', w', d'⟩ := x'
  cases code
  obtain ⟨same, scopes, whole⟩ := under
  cases same
  -- a name that is declared here is known in what comes after it
  have learned (name : Token) : Beneath (known ++ [name.lexeme]) (settle [name.lexeme] w.scopes)
      (settle [name.lexeme] w'.scopes) := by
    rw [show w.scopes = [] from top] at scopes ⊢
    exact scopes.learn _
  cases s with
  | expression _ | print _ | block _ | ret _ _ => exact quiet rfl
  | ifElse _ yes no =>
    cases no with
    | none => exact quiet formed.2.2
    | some no => exact quiet (List.append_eq_nil_iff.2 ⟨formed.2.1.2, formed.2.2.2⟩)
  | whileDo _ _ => exact quiet formed.2.2
  | varDecl name initial =>
    cases initial with
    | none => exact absurd hy List.not_mem_nil
    | some e =>
      cases List.mem_singleton.1 hy
      refine .inside (y := ⟨.expr e, a, w.declare name, d⟩) (visits.part (List.mem_singleton_self _))
        ⟨rfl, scopes.declare name, whole⟩ fun n hn hd => ?_
      have := declared n (Code.globals_subset (List.subset_cons_self _ _) hn) hd
      exact (List.mem_append.1 this).resolve_right (first n hn)
  | funDecl r =>
    cases List.mem_singleton.1 hy
    refine .inside (y := ⟨.routine r, { a with body := .function }, w.introduce r.name, d⟩)
      (visits.part (List.mem_singleton_self _)) ⟨rfl, by simpa using learned r.name, whole⟩ fun n hn hd => ?_
    exact declared n (Code.globals_subset (List.subset_cons_self _ _) hn) hd
  | classDecl name superclass rs =>
    obtain ⟨y, mem, inner⟩ := Under.classParts (a := a) (d := d) (learned name) whole hy
    refine .inside (visits.part mem) inner fun n hn hd => ?_
    exact declared n (Code.globals_subset (within_of_mem_parts (x := ⟨_, a, w, d⟩) mem) hn) hd

theorem Enclosed.part (resolved : Resolved statements table) (order : Stmt.GlobalsInOrder table statements)
    (h : Enclosed statements table all x') (hy : y' ∈ x'.parts) : Enclosed statements table all y' := by
  obtain ⟨x, known, visits, under, knows⟩ := h
  cases knows with
  | statement before s rest split code top names =>
    exact .statement order visits (resolved.checked visits).formed under split code top names hy
  | inside names =>
    obtain ⟨y, mem, inner⟩ := under.part hy
    exact .inside (visits.part mem) inner fun n hn => names n (Code.globals_subset (within_of_mem_parts mem) hn)
  | list before rest split code top names =>
    obtain ⟨_, a, w, d⟩ := x
    obtain ⟨_, a', w', d'⟩ := x'
    cases code
    obtain ⟨same, scopes, whole⟩ := under
    cases same
    cases rest with
    | nil => exact absurd hy List.not_mem_nil
    | cons s ss =>
      obtain rfl | rfl := List.mem_pair.1 hy
      · exact ⟨⟨.stmt s, a, w, d⟩, known, visits.part List.mem_cons_self, ⟨rfl, scopes, whole⟩,
          .statement before s ss split rfl top names⟩
      · have later : (s.walk a w).scopes = [] := by rw [Stmt.scopes_walk, show w.scopes = [] from top]; rfl
        refine ⟨⟨.stmts ss, a, s.walk a w, d⟩, known ++ s.declared, visits.part (.tail _ List.mem_cons_self),
          ⟨rfl, ?_, whole⟩, .list (before ++ [s]) ss (by simp [split]) rfl later (by simp [names, Stmt.declaredAll])⟩
        rw [show w.scopes = [] from top] at scopes
        rw [later, Stmt.scopes_walk]
        exact scopes.learn s.declared

/-- What the scope of the block holds when it is closed. -/
def blockScope (statements : List Stmt) : Declarations := Declarations.complete (Stmt.declaredAll statements) .empty

theorem enclosed_block : Enclosed statements table (blockScope statements)
    ⟨.stmts statements, .outermost, Walk.start.openScope,
      [(Stmt.walkAll .outermost statements Walk.start.openScope).innermost]⟩ := by
  have closed : (Stmt.walkAll .outermost statements Walk.start.openScope).innermost = blockScope statements := by
    simp [Walk.innermost, Stmt.scopes_walkAll, settle, blockScope]
  refine ⟨start statements, [], .start statements, ⟨rfl, ⟨.empty, rfl, by simp⟩, ?_⟩,
    .list [] statements rfl rfl rfl rfl⟩
  exact ⟨[], congrArg (· :: []) closed.symm⟩

/-- Of a program that is put in a block only the block itself does not stand in it. -/
theorem enclosed_of_visits (resolved : Resolved statements table) (order : Stmt.GlobalsInOrder table statements)
    (h : Visits [.block statements] x') :
    x' = start [.block statements] ∨ x' = ⟨.stmt (.block statements), .outermost, .start, []⟩ ∨
      x'.code = .stmts [] ∨ Enclosed statements table (blockScope statements) x' := by
  induction h with
  | refl => exact .inl rfl
  | @tail x _ _ hy ih =>
    rcases ih with rfl | rfl | none | inside
    · obtain rfl | rfl := List.mem_pair.1 hy
      · exact .inr (.inl rfl)
      · exact .inr (.inr (.inl rfl))
    · cases List.mem_singleton.1 hy
      exact .inr (.inr (.inr enclosed_block))
    · obtain ⟨_, a, w, d⟩ := x
      cases none
      exact absurd hy List.not_mem_nil
    · exact .inr (.inr (.inr (inside.part resolved order hy)))

/-! ## The tables -/

/-- How the table of the statements in a block has an entry for a use at `outer` scopes inside the block: the same as
without the block, or if it was a use of a global variable the scope of the block, or none, if the statements do not
declare that variable. -/
inductive Sent (statements : List Stmt) (table table' : Table) (outer : List Declarations) (use : UseId)
    (name : String) : Prop
  | inner (d : Nat) (entry : table.get? use = some d) (entry' : table'.get? use = some d)
  | block (nameable : Nameable name) (entry : table.get? use = none) (entry' : table'.get? use = some outer.length)
  | beyond (nameable : Nameable name) (entry : table.get? use = none) (entry' : table'.get? use = none)
      (other : name ∉ Stmt.declaredAll statements)

/-- A use without an entry in the table is a mention of a global variable; the words of classes have entries. -/
theorem Checked.mem_globals (checked : x.Checked table) {e : Expr} (hc : x.code = .expr e) {use : UseId} {name : String}
    (hu : e.use? = some (use, name)) (none : table.get? use = none) :
    Nameable name ∧ name ∈ (Code.expr e).globals table := by
  have mentions (h : (Code.expr e).global? table = some name) : name ∈ (Code.expr e).globals table :=
    List.mem_filterMap.2 ⟨.expr e, e.mem_within, h⟩
  have entry := checked.clean.get?_use hc hu
  have formed := checked.formed
  rw [hc] at formed
  cases e with
  | literal _ | unary _ _ | binary _ _ _ | logical _ _ _ | group _ | call _ _ _ | get _ _ | set _ _ _ => cases hu
  | ref _ _ =>
    cases hu
    exact ⟨formed, mentions (if_pos none)⟩
  | assign _ _ _ =>
    cases hu
    exact ⟨formed.1, mentions (if_pos none)⟩
  | self _ _ =>
    cases hu
    obtain ⟨-, i, hi⟩ := checked.this_at hc
    cases none.symm.trans (entry.trans hi)
  | super _ _ _ =>
    cases hu
    obtain ⟨i, -, hi⟩ := checked.super_at hc
    cases none.symm.trans (entry.trans hi)

theorem findIdx?_concat {scopes : List Declarations} {top : Declarations} {name : String}
    (none : scopes.findIdx? (·.contains name) = none) : (scopes ++ [top]).findIdx? (·.contains name) =
      if top.contains name = true then some scopes.length else .none := by
  rw [List.findIdx?_append, none]
  cases h : top.contains name <;> simp [List.findIdx?_cons, h]

/-- Where the table sends a use in the block. -/
theorem exists_sent {table' : Table} (resolved : Resolved statements table)
    (resolved' : Resolved [.block statements] table') (order : Stmt.GlobalsInOrder table statements)
    (h : Visits [.block statements] x') {e : Expr} (hc : x'.code = .expr e) {use : UseId} {name : String}
    (hu : e.use? = some (use, name)) :
    ∃ outer, x'.whole = outer ++ [blockScope statements] ∧ Sent statements table table' outer use name := by
  have checked' := resolved'.checked h
  obtain rfl | rfl | none | ⟨x, known, visits, under, knows⟩ := enclosed_of_visits resolved order h
  · cases hc
  · cases hc
  · cases hc.symm.trans none
  have checked := resolved.checked visits
  have hx : x.code = .expr e := under.code.symm.trans hc
  have entry := checked.clean.get?_use hx hu
  have entry' := checked'.clean.get?_use hc hu
  obtain ⟨outer, whole⟩ := under.whole
  obtain ⟨top, scopes, names⟩ := under.scopes
  have length : outer.length = x.walk.scopes.length := by
    have := checked'.fits.length
    rw [scopes, ← whole] at this
    simpa using this.symm
  refine ⟨outer, whole.symm, ?_⟩
  rw [scopes] at entry'
  cases hd : x.walk.scopes.findIdx? (·.contains name) with
  | some d =>
    rw [hd] at entry
    rw [List.findIdx?_append, hd] at entry'
    exact .inner d entry entry'
  | none =>
    rw [hd] at entry
    rw [findIdx?_concat hd, ← length] at entry'
    obtain ⟨nameable, mentioned⟩ := checked.mem_globals hx hu entry
    cases ht : top.contains name with
    | true => exact .block nameable entry (by rw [entry', ht]; rfl)
    | false =>
      refine .beyond nameable entry (by rw [entry', ht]; rfl) fun mem => ?_
      cases knows with
      | list before rest split code => cases hx.symm.trans code
      | statement before s rest split code => cases hx.symm.trans code
      | inside all =>
        -- a global variable that the statements declare is known in the block
        have := names name (all name (hx ▸ mentioned) mem)
        rw [ht] at this
        cases this

end Stop

end Lox
