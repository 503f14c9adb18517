/-
Where the scope of a copy is open, the walk has its name already. The scope of a copy is the one that stands in a scope
with the slot of a loop; the name is declared first in it, and whatever is not that declaration comes after
(`Visits.copied`). So a use of the name never gets past the copy.
-/
import Lox.Proofs.Binding.Checked
import Lox.Proofs.Grammar.Copying

namespace Lox

open ForLoop

/-! ## Names of open scopes -/

/-- Whether the scope so many steps out has a name. -/
def Walk.NamesAt (w : Walk) (d : Nat) (n : String) : Prop := ∃ scope, w.scopes[d]? = some scope ∧ scope.contains n = true

namespace Walk

variable {w w' : Walk} {d : Nat} {n : String} {names : List String}

theorem NamesAt.settle (h : w.NamesAt d n) (scopes : w'.scopes = Lox.settle names w.scopes) : w'.NamesAt d n := by
  obtain ⟨scope, hd, hn⟩ := h
  unfold NamesAt
  rw [scopes]
  cases hw : w.scopes with
  | nil =>
    rw [hw] at hd
    cases hd
  | cons own outer =>
    rw [hw] at hd
    cases d with
    | zero =>
      cases hd
      exact ⟨_, rfl, (Declarations.contains_complete _ _ _).2 (.inr hn)⟩
    | succ d => exact ⟨scope, hd, hn⟩

/-- What is completed the innermost scope has. -/
theorem namesAt_settle (opened : w.scopes ≠ []) (hn : n ∈ names) (scopes : w'.scopes = Lox.settle names w.scopes) :
    w'.NamesAt 0 n := by
  unfold NamesAt
  rw [scopes]
  cases hw : w.scopes with
  | nil => exact absurd hw opened
  | cons own outer => exact ⟨_, rfl, (Declarations.contains_complete _ _ _).2 (.inl hn)⟩

theorem NamesAt.declare (h : w.NamesAt d n) (name : Token) : (w.declare name).NamesAt d n := by
  obtain ⟨scope, hd, hn⟩ := h
  unfold NamesAt
  obtain hs | ⟨own, outer, hw, hs⟩ := w.scopes_declare name
  · rw [hs]
    exact ⟨scope, hd, hn⟩
  · rw [hw] at hd
    rw [hs]
    cases d with
    | zero =>
      cases hd
      exact ⟨_, rfl, by simp [hn]⟩
    | succ d => exact ⟨scope, hd, hn⟩

/-- A name whose declaration was started the innermost scope has. -/
theorem namesAt_declare (opened : w.scopes ≠ []) (name : Token) : (w.declare name).NamesAt 0 name.lexeme := by
  cases hw : w.scopes with
  | nil => exact absurd hw opened
  | cons own outer =>
    unfold NamesAt Walk.declare
    split
    · next declared =>
      refine ⟨own, by simp [hw], ?_⟩
      simpa [Walk.declared, hw] using declared
    · exact ⟨own.set name.lexeme false, by simp [mark, hw], by simp⟩

/-- A scope that was open is one step further out in a new one. -/
theorem NamesAt.inner (h : w.NamesAt d n) {scope : Declarations} (scopes : w'.scopes = scope :: w.scopes) :
    w'.NamesAt (d + 1) n := by
  unfold NamesAt
  rw [scopes]
  exact h

/-- The search for a name goes no further than a scope that has it. -/
theorem NamesAt.findIdx? (h : w.NamesAt d n) : ∃ e ≤ d, w.scopes.findIdx? (·.contains n) = some e := by
  obtain ⟨scope, hd, hn⟩ := h
  obtain ⟨lt, rfl⟩ := List.getElem?_eq_some_iff.1 hd
  have found : (w.scopes.findIdx? (·.contains n)).isSome = true :=
    List.findIdx?_isSome.trans (List.any_eq_true.2 ⟨_, List.getElem_mem lt, hn⟩)
  obtain ⟨e, he⟩ := Option.isSome_iff_exists.1 found
  refine ⟨e, Nat.le_of_not_lt fun past => ?_, he⟩
  exact (List.findIdx?_eq_some_iff_getElem.1 he).2.2 d past hn

end Walk

/-! ## Copies -/

/-- The name that a part of a program declares first, if it starts with the declaration of a variable. -/
def Code.firstName : Code → List String
  | .stmt (.varDecl name _) | .stmts (.varDecl name _ :: _) => [name.lexeme]
  | _ => []

namespace Stop

/-- What holds at a stop of the scopes of copies that are open there. -/
structure Copied (x : Stop) : Prop where
  /-- What stands in a scope with the slot opens no other scopes there. -/
  inSlot : ∀ own outer, x.whole = own :: outer → own.contains slotName = true → x.code.OpensCopies
  /-- A scope in one with the slot has its names, unless the part is where they are declared. -/
  named : ∀ d own outer, x.whole[d]? = some own → x.whole[d + 1]? = some outer → outer.contains slotName = true →
    ∀ n, own.contains n = true → x.walk.NamesAt d n ∨ d = 0 ∧ n ∈ x.code.firstName

variable {x y : Stop} {names : List String}

/-- A part in the same scopes. -/
theorem Copied.same (hx : x.Copied) (whole : y.whole = x.whole) (opens : x.code.OpensCopies → y.code.OpensCopies)
    (stay : ∀ d n, x.walk.NamesAt d n → y.walk.NamesAt d n)
    (first : x.whole ≠ [] → ∀ n ∈ x.code.firstName, y.walk.NamesAt 0 n ∨ n ∈ y.code.firstName) : y.Copied where
  inSlot own outer hw slot := opens (hx.inSlot own outer (whole ▸ hw) slot)
  named d own outer hd ho slot n hn := by
    rw [whole] at hd ho
    rcases hx.named d own outer hd ho slot n hn with there | ⟨rfl, hf⟩
    · exact .inl (stay d n there)
    · have opened : x.whole ≠ [] := by
        rintro none
        rw [none] at hd
        cases hd
      exact (first opened n hf).imp_right fun h => ⟨rfl, h⟩

/-- A part in the same scopes, in which some names were completed. -/
theorem Copied.along (hx : x.Copied) (length : x.walk.scopes.length = x.whole.length) (names : List String)
    (scopes : y.walk.scopes = settle names x.walk.scopes) (whole : y.whole = x.whole)
    (opens : x.code.OpensCopies → y.code.OpensCopies)
    (first : ∀ n ∈ x.code.firstName, n ∈ names ∨ n ∈ y.code.firstName) : y.Copied := by
  refine hx.same whole opens (fun d n h => h.settle scopes) fun opened n hn => ?_
  refine (first n hn).imp_left fun mem => Walk.namesAt_settle ?_ mem scopes
  rintro none
  exact opened (List.eq_nil_of_length_eq_zero (by rw [← length, none]; rfl))

/-- A part in the same scopes as they were. -/
theorem Copied.alone (hx : x.Copied) (scopes : y.walk.scopes = x.walk.scopes) (whole : y.whole = x.whole)
    (opens : x.code.OpensCopies → y.code.OpensCopies) (first : ∀ n ∈ x.code.firstName, n ∈ y.code.firstName) :
    y.Copied := by
  have kept : y.walk.scopes = settle [] x.walk.scopes := by
    rw [scopes, settle_nil]
  exact hx.same whole opens (fun d n h => h.settle kept) fun _ n hn => .inr (first n hn)

/-- A part in a scope of its own. -/
theorem Copied.inside (hx : x.Copied) (names : List String) {scope own : Declarations}
    (nothing : x.code.firstName = [])
    (scopes : y.walk.scopes = scope :: settle names x.walk.scopes) (whole : y.whole = own :: x.whole)
    (opens : own.contains slotName = true → y.code.OpensCopies)
    (copy : x.code.OpensCopies → ∀ n, own.contains n = true → n ∈ y.code.firstName) : y.Copied where
  inSlot own' outer hw slot := by
    rw [whole] at hw
    cases hw
    exact opens slot
  named d own' outer hd ho slot n hn := by
    rw [whole] at hd ho
    cases d with
    | zero =>
      cases hd
      cases hx' : x.whole with
      | nil =>
        rw [hx'] at ho
        cases ho
      | cons head rest =>
        rw [hx'] at ho
        cases ho
        exact .inr ⟨rfl, copy (hx.inSlot _ rest hx' slot) n hn⟩
    | succ d =>
      rcases hx.named d own' outer hd ho slot n hn with there | ⟨-, hf⟩
      · refine .inl (Walk.NamesAt.inner (w := ⟨settle names x.walk.scopes, x.walk.table, x.walk.errors⟩) ?_ scopes)
        exact there.settle rfl
      · rw [nothing] at hf
        cases hf

/-! ## Parts -/

theorem Copied.exprParts {a : Surroundings} {w : Walk} {d : List Declarations} {e : Expr}
    (hx : Copied ⟨.expr e, a, w, d⟩) (h : y ∈ exprParts a w d e) : y.Copied := by
  cases e with
  | literal _ | ref _ _ | self _ _ | super _ _ _ => exact absurd h List.not_mem_nil
  | unary _ e | group e | get e _ | assign _ _ e =>
    cases List.mem_singleton.1 h
    exact hx.alone rfl rfl id nofun
  | binary _ l r | logical _ l r | call f _ es | set o _ v =>
    obtain rfl | rfl := List.mem_pair.1 h
    · exact hx.alone rfl rfl id nofun
    · exact hx.alone (Expr.scopes_walk _ _ _) rfl id nofun

/-- The scopes of a class have its words, and not the slot. -/
theorem not_slot_of_word {w : Walk} {word : String} {outer : List Declarations} (other : word ≠ slotName)
    (scopes : w.scopes = Bindings.empty.set word true :: outer) : w.innermost.contains slotName ≠ true := by
  simp [Walk.innermost, scopes, other.symm, Bindings.contains]

theorem Copied.classParts {a : Surroundings} {w : Walk} {d : List Declarations} {name : Token}
    {rs : List (Routine Stmt)} {e : Option Expr} (hx : Copied ⟨.stmt (.classDecl name e rs), a, w, d⟩)
    (length : w.scopes.length = d.length) (h : y ∈ classParts a w d name rs e) : y.Copied := by
  have this : thisName ≠ slotName := by decide
  have super : superName ≠ slotName := by decide
  cases e with
  | none =>
    cases List.mem_singleton.1 h
    have scopes : ((w.introduce name).openWordScope thisName).scopes =
        Bindings.empty.set thisName true :: settle [name.lexeme] w.scopes := by simp
    refine hx.inside [name.lexeme] rfl scopes rfl (fun slot => absurd slot ?_) nofun
    exact not_slot_of_word this ((scopes_walkMethods ..).trans scopes)
  | some e =>
    obtain rfl | rfl := List.mem_pair.1 h
    · exact hx.along length [name.lexeme] (by simp) rfl nofun nofun
    · -- the scope for the instance is in one for the superclass
      let outside := (e.walk .subclass ((w.introduce name).checkSuperclass name e)).openWordScope superName
      let last := walkMethods .subclass rs (outside.openWordScope thisName)
      have scopes : outside.scopes = Bindings.empty.set superName true :: settle [name.lexeme] w.scopes := by
        simp [outside]
      have ended : last.scopes = Bindings.empty.set thisName true :: outside.scopes := scopes_walkMethods ..
      have around : Copied ⟨.methods rs, a, outside, last.closeScope.innermost :: d⟩ := by
        refine hx.inside [name.lexeme] rfl scopes rfl (fun slot => absurd slot ?_) nofun
        exact not_slot_of_word super ((congrArg List.tail ended).trans scopes)
      have inner : (outside.openWordScope thisName).scopes =
          Bindings.empty.set thisName true :: settle [] outside.scopes := by simp
      refine around.inside [] rfl inner rfl (fun slot => absurd slot ?_) nofun
      exact not_slot_of_word this ended

/-- What a block of its own has is what its statements declare. -/
theorem contains_innermost_block {a : Surroundings} {body : List Stmt} {w : Walk} {n : String} :
    (Stmt.walkAll a body w.openScope).innermost.contains n = true ↔ n ∈ Stmt.declaredAll body := by
  have nothing : ¬ (Bindings.empty : Declarations).contains n = true := nofun
  rw [Walk.innermost, Stmt.scopes_walkAll, Walk.scopes_openScope, settle, List.headD_cons,
    Declarations.contains_complete]
  exact or_iff_left nothing

theorem Copied.stmtParts {a : Surroundings} {w : Walk} {d : List Declarations} {s : Stmt}
    (hx : Copied ⟨.stmt s, a, w, d⟩) (length : w.scopes.length = d.length) (copying : (Code.stmt s).Copying)
    (h : y ∈ stmtParts a w d s) : y.Copied := by
  cases s with
  | expression e | print e =>
    cases List.mem_singleton.1 h
    exact hx.alone rfl rfl (fun _ => trivial) nofun
  | varDecl name initial =>
    cases initial with
    | none => exact absurd h List.not_mem_nil
    | some e =>
      cases List.mem_singleton.1 h
      refine hx.same rfl (fun _ => trivial) (fun _ _ h => h.declare name) fun opened n hn => ?_
      cases List.mem_singleton.1 hn
      refine .inl (Walk.namesAt_declare (fun none => opened ?_) name)
      exact List.eq_nil_of_length_eq_zero (by rw [← length, none]; rfl)
  | block body =>
    cases List.mem_singleton.1 h
    refine hx.inside [] rfl (by rw [settle_nil]; rfl) rfl (fun slot => copying (contains_innermost_block.1 slot)) ?_
    intro copies n hn
    have declared := contains_innermost_block.1 hn
    cases body with
    | nil => cases copies
    | cons first rest =>
      cases first with
      | varDecl name initial =>
        have nothing : Stmt.declaredAll rest = [] := copies
        have only : Stmt.declaredAll (.varDecl name initial :: rest) = [name.lexeme] :=
          congrArg (name.lexeme :: ·) nothing
        rwa [only] at declared
      | _ => cases copies
  | ifElse c yes no =>
    cases no with
    | none =>
      obtain rfl | rfl := List.mem_pair.1 h
      · exact hx.alone rfl rfl nofun nofun
      · exact hx.alone (Expr.scopes_walk _ _ _) rfl nofun nofun
    | some no =>
      rcases List.mem_cons.1 h with rfl | h
      · exact hx.alone rfl rfl nofun nofun
      obtain rfl | rfl := List.mem_pair.1 h
      · exact hx.alone (Expr.scopes_walk _ _ _) rfl nofun nofun
      · exact hx.along length yes.declared (by simp [Stmt.scopes_walk]) rfl nofun nofun
  | whileDo c body =>
    obtain rfl | rfl := List.mem_pair.1 h
    · exact hx.alone rfl rfl nofun nofun
    · exact hx.alone (Expr.scopes_walk _ _ _) rfl nofun nofun
  | funDecl r =>
    cases List.mem_singleton.1 h
    exact hx.along length [r.name.lexeme] (by simp) rfl nofun nofun
  | ret k value =>
    cases value with
    | none => exact absurd h List.not_mem_nil
    | some e =>
      cases List.mem_singleton.1 h
      exact hx.alone (by simp) rfl nofun nofun
  | classDecl name superclass rs => exact hx.classParts length h

/-- In a routine there is no slot that it declares itself. -/
theorem Copied.routineParts {a : Surroundings} {w : Walk} {d : List Declarations} {r : Routine Stmt}
    (hx : Copied ⟨.routine r, a, w, d⟩) (copying : (Code.routine r).Copying) (h : y ∈ routineParts a w d r) :
    y.Copied := by
  cases List.mem_singleton.1 h
  have scopes : (r.parameters.foldl Walk.introduce w.openScope).scopes =
      Declarations.complete (r.parameters.map (·.lexeme)) .empty :: settle [] w.scopes := by
    rw [Walk.scopes_introduceAll, settle_nil]
    rfl
  refine hx.inside [] rfl scopes rfl (fun slot => ?_) nofun
  rw [Walk.innermost, Stmt.scopes_walkAll, scopes, settle, List.headD_cons, Declarations.contains_complete,
    Declarations.contains_complete] at slot
  rcases slot with body | parameter | none
  · exact absurd body copying.2
  · exact absurd parameter copying.1
  · cases none

/-- What holds of the scopes of copies holds at the parts too. -/
theorem Copied.part (hx : x.Copied) (length : x.walk.scopes.length = x.whole.length)
    (copying : ∀ c ∈ x.code.within, c.Copying) (h : y ∈ x.parts) : y.Copied := by
  obtain ⟨code, a, w, d⟩ := x
  cases code with
  | expr e => exact hx.exprParts h
  | stmt s => exact hx.stmtParts length (copying _ s.mem_within) h
  | exprs es =>
    cases es with
    | nil => exact absurd h List.not_mem_nil
    | cons e es =>
      obtain rfl | rfl := List.mem_pair.1 h
      · exact hx.alone rfl rfl id nofun
      · exact hx.alone (Expr.scopes_walk _ _ _) rfl id nofun
  | stmts ss =>
    cases ss with
    | nil => exact absurd h List.not_mem_nil
    | cons s ss =>
      have first : ∀ n ∈ (Code.stmts (s :: ss)).firstName, n ∈ s.declared ∧ n ∈ (Code.stmt s).firstName := by
        cases s with
        | varDecl name _ => exact fun n hn => ⟨hn, hn⟩
        | _ => nofun
      obtain rfl | rfl := List.mem_pair.1 h
      · exact hx.alone rfl rfl (fun copies => copies s List.mem_cons_self) fun n hn => (first n hn).2
      · exact hx.along length s.declared (s.scopes_walk a w) rfl (fun copies t ht => copies t (.tail _ ht))
          fun n hn => .inl (first n hn).1
  | routine r =>
    obtain ⟨name, parameters, body⟩ := r
    exact hx.routineParts (copying _ List.mem_cons_self) h
  | methods rs =>
    cases rs with
    | nil => exact absurd h List.not_mem_nil
    | cons r rs =>
      obtain rfl | rfl := List.mem_pair.1 h
      · exact hx.alone rfl rfl id nofun
      · exact hx.alone (scopes_walkRoutine _ _ _) rfl id nofun

end Stop

/-! ## Programs -/

/-- Where scopes with the slot are there for copies only, each stop has the names of the copies that are open. -/
theorem Visits.copied {statements : List Stmt} {table : Table} (resolved : Resolved statements table)
    (copying : ∀ c ∈ Stmt.withinAll statements, c.Copying) {x : Stop} (h : Visits statements x) : x.Copied := by
  refine (h.induct (P := fun x => Visits statements x ∧ x.Copied) ⟨.start statements, nofun, nofun⟩ ?_).2
  intro x ⟨visits, hx⟩ y hy
  refine ⟨visits.part hy, hx.part (resolved.checked visits).fits.length (fun c hc => copying c ?_) hy⟩
  exact visits.within hc

end Lox
