/-
What the scopes that are open at a stop hold. They hold no more than when they are closed; only in the innermost
one, and only inside a variable's own initializer, is a declaration not complete; and the words of classes are
where the kind of class says they are.
-/
import Lox.Proofs.Binding.Lies
import Mathlib.Data.List.Forall2

namespace Lox

/-! ## One scope -/

/-- Whether a scope has only names that another one has. -/
def Declarations.Within (scope whole : Declarations) : Prop :=
  ∀ n, scope.contains n = true → whole.contains n = true

/-- Whether every declaration of a scope is complete. -/
def Declarations.Complete (scope : Declarations) : Prop :=
  ∀ n, scope.contains n = true → scope.get? n = some true

/-- Whether a scope has the words of classes, complete, if it ever gets them. -/
def Declarations.Worded (scope whole : Declarations) : Prop :=
  ∀ n, ¬ Nameable n → whole.contains n = true → scope.get? n = some true

namespace Declarations

variable {scope whole : Declarations}

theorem within_complete (names : List String) (scope : Declarations) : scope.Within (scope.complete names) :=
  fun n h => (contains_complete names scope n).2 (.inr h)

theorem Complete.complete (h : scope.Complete) (names : List String) : (scope.complete names).Complete := by
  intro n hn
  rw [contains_complete] at hn
  rw [get?_complete]
  split
  · rfl
  · next hmem => exact h n (hn.resolve_left hmem)

theorem Worded.complete (h : scope.Worded whole) (names : List String) : (scope.complete names).Worded whole := by
  intro n hn hw
  rw [get?_complete, h n hn hw, ite_self]

theorem complete_empty : Complete .empty := fun _ h => by cases h

/-- A scope that declares one word. -/
theorem complete_word (word : String) : Complete (Bindings.empty.set word true) := by
  intro n hn
  have : n = word := by simpa [Bindings.contains] using hn
  simp [this]

/-- A scope gets the words of classes only when it is opened. -/
theorem worded_complete {names : List String} (hn : ∀ n ∈ names, Nameable n) (hs : scope.Complete) :
    scope.Worded (scope.complete names) := by
  intro n hword hc
  exact hs n (((contains_complete names scope n).1 hc).resolve_left fun h => hword (hn n h))

end Declarations

/-! ## Stacks of scopes -/

theorem within_of_settle {scopes whole : List Declarations} (names : List String)
    (h : List.Forall₂ Declarations.Within (settle names scopes) whole) :
    List.Forall₂ Declarations.Within scopes whole := by
  cases scopes with
  | nil => exact h
  | cons scope outer =>
    cases h with
    | cons hd tl => exact .cons (fun n hn => hd n (Declarations.within_complete names scope n hn)) tl

theorem worded_settle {scopes whole : List Declarations} (names : List String)
    (h : List.Forall₂ Declarations.Worded scopes whole) :
    List.Forall₂ Declarations.Worded (settle names scopes) whole := by
  cases h with
  | nil => exact .nil
  | cons hd tl => exact .cons (hd.complete names) tl

theorem complete_settle {scopes : List Declarations} (names : List String)
    (h : ∀ scope ∈ scopes, Declarations.Complete scope) :
    ∀ scope ∈ settle names scopes, Declarations.Complete scope := by
  cases scopes with
  | nil => exact h
  | cons scope outer =>
    rw [List.forall_mem_cons] at h
    exact List.forall_mem_cons.2 ⟨h.1.complete names, h.2⟩

/-- Completing declarations of other names does not change where a name is found. -/
theorem findIdx?_settle {names : List String} {name : String} (h : name ∉ names) (scopes : List Declarations) :
    (settle names scopes).findIdx? (·.contains name) = scopes.findIdx? (·.contains name) := by
  cases scopes with
  | nil => rfl
  | cons scope outer =>
    have : (scope.complete names).contains name = scope.contains name := by
      rw [Bool.eq_iff_iff, Declarations.contains_complete]
      simp [h]
    simp [settle, List.findIdx?_cons, this]

/-- The start of a declaration changes at most the innermost scope, which then has the name, but not complete. -/
theorem Walk.scopes_declare (w : Walk) (name : Token) :
    (w.declare name).scopes = w.scopes ∨
      ∃ scope outer, w.scopes = scope :: outer ∧
        (w.declare name).scopes = scope.set name.lexeme false :: outer := by
  unfold declare
  split
  · exact .inl rfl
  · cases h : w.scopes with
    | nil => exact .inl (by simp [mark, h])
    | cons scope outer => exact .inr ⟨scope, outer, rfl, by simp [mark, h]⟩

theorem Walk.tail_scopes_declare (w : Walk) (name : Token) : (w.declare name).scopes.tail = w.scopes.tail := by
  obtain h | ⟨scope, outer, hw, h⟩ := w.scopes_declare name
  · rw [h]
  · rw [h, hw]
    rfl

theorem Walk.findIdx?_declare {w : Walk} {name : Token} {other : String} (hne : other ≠ name.lexeme) :
    (w.declare name).scopes.findIdx? (·.contains other) = w.scopes.findIdx? (·.contains other) := by
  obtain h | ⟨scope, outer, hw, h⟩ := w.scopes_declare name
  · rw [h]
  · simp [h, hw, List.findIdx?_cons, hne]

theorem Walk.worded_declare {w : Walk} {name : Token} {whole : List Declarations} (hn : Nameable name.lexeme)
    (h : List.Forall₂ Declarations.Worded w.scopes whole) :
    List.Forall₂ Declarations.Worded (w.declare name).scopes whole := by
  obtain hs | ⟨scope, outer, hw, hs⟩ := w.scopes_declare name
  · rwa [hs]
  · rw [hw] at h
    rw [hs]
    cases h with
    | cons hd tl =>
      refine .cons (fun n hword hc => ?_) tl
      have : n ≠ name.lexeme := fun e => hword (e ▸ hn)
      rw [Bindings.get?_set, if_neg this]
      exact hd n hword hc

/-! ## What open scopes hold -/

namespace Stop

variable {x y : Stop}

/-- The innermost scope after a part that stands in a scope of its own. -/
theorem innermost_after {scope : Declarations} {outer : List Declarations} (h : y.walk.scopes = scope :: outer) :
    y.after.innermost = scope.complete y.code.declared := by
  simp [Walk.innermost, scopes_after, h, settle]

/-- What the scopes hold that are open at a stop. -/
structure Fits (x : Stop) : Prop where
  /-- No more than when they are closed. -/
  within : List.Forall₂ Declarations.Within x.after.scopes x.whole
  worded : List.Forall₂ Declarations.Worded x.walk.scopes x.whole
  /-- Declarations are complete in the scopes that are not the innermost. -/
  outer : ∀ scope ∈ x.walk.scopes.tail, Declarations.Complete scope
  /-- Between statements they are complete in all. -/
  complete : ¬ x.code.IsExpr → ∀ scope ∈ x.walk.scopes, Declarations.Complete scope

theorem Fits.length (h : x.Fits) : x.walk.scopes.length = x.whole.length := h.worded.length_eq

theorem Fits.before (h : x.Fits) : List.Forall₂ Declarations.Within x.walk.scopes x.whole := by
  have := h.within
  rw [scopes_after] at this
  exact within_of_settle _ this

/-- What a part declares, the innermost scope has when it is closed. -/
theorem Fits.declared (h : x.Fits) {n : String} (hn : n ∈ x.code.declared) {own : Declarations}
    {outer : List Declarations} (hw : x.whole = own :: outer) : own.contains n = true := by
  have within := h.within
  rw [scopes_after, hw] at within
  cases hs : x.walk.scopes with
  | nil =>
    rw [hs] at within
    cases within
  | cons scope rest =>
    rw [hs] at within
    cases within with
    | cons head _ => exact head n ((Declarations.contains_complete _ _ _).2 (.inl hn))

theorem Fits.part (h : y ∈ x.parts) (formed : y.code.Formed) (hf : x.code.Formed) (hx : x.Fits) : y.Fits := by
  have within := hx.within
  rw [scopes_after] at within
  cases lies_of_mem_parts h with
  | along names more expr declared rest scopes whole home =>
    refine ⟨?_, ?_, ?_, fun hy => ?_⟩
    · -- what is completed after the part is the rest of what the whole declares
      rw [scopes_after, scopes, ← settle_append, whole]
      rw [declared, ← List.append_assoc, settle_append] at within
      exact within_of_settle more within
    · rw [scopes, whole]
      exact worded_settle names hx.worded
    · rw [scopes, tail_settle]
      exact hx.outer
    · rw [scopes]
      exact complete_settle names (hx.complete fun hx => hy (expr hx))
  | initial name e var part =>
    subst part
    have hn : Nameable name.lexeme := by
      rw [var] at hf
      exact hf.1
    refine ⟨?_, Walk.worded_declare hn hx.worded, ?_, fun hy => absurd trivial hy⟩
    · -- completing the declaration that was started gives the scopes after the whole
      rw [var, show Code.declared (.stmt (.varDecl name (some e))) = [name.lexeme] from rfl,
        ← Walk.settle_scopes_declare] at within
      rw [scopes_after]
      simpa [Code.declared] using within_of_settle _ within
    · rw [Walk.tail_scopes_declare]
      exact hx.outer
  | body names opens declared nameable scopes whole around =>
    have inner := innermost_after scopes
    have nameable := nameable hf
    refine ⟨?_, ?_, ?_, fun _ => ?_⟩
    · rw [scopes_after, scopes, whole, inner]
      exact .cons (fun n hn => hn) (within_of_settle _ within)
    · rw [scopes, whole, inner]
      exact .cons (Declarations.worded_complete formed.declared (Declarations.complete_empty.complete names)) hx.worded
    · rw [scopes]
      exact hx.complete opens
    · rw [scopes]
      exact List.forall_mem_cons.2 ⟨Declarations.complete_empty.complete names, hx.complete opens⟩
  | methods name declared scopes whole home =>
    have word := Declarations.complete_word thisName
    have inner := innermost_after scopes
    rw [declared] at within
    have complete := complete_settle [name] (hx.complete (not_isExpr_of_declared declared))
    refine ⟨?_, ?_, ?_, fun _ => ?_⟩
    · rw [scopes_after, scopes, whole, inner]
      exact .cons (fun n hn => hn) within
    · rw [scopes, whole, inner]
      exact .cons (Declarations.worded_complete formed.declared word) (worded_settle _ hx.worded)
    · rw [scopes]
      exact complete
    · rw [scopes]
      exact List.forall_mem_cons.2 ⟨word, complete⟩
  | inheriting name declared scopes whole home =>
    have word := Declarations.complete_word
    have inner := innermost_after scopes
    have outside : y.after.closeScope.innermost = Bindings.empty.set superName true := by
      simp [Walk.innermost, scopes_after, scopes, settle]
    rw [declared] at within
    have complete := complete_settle [name] (hx.complete (not_isExpr_of_declared declared))
    refine ⟨?_, ?_, ?_, fun _ => ?_⟩
    · rw [scopes_after, scopes, whole, inner, outside]
      exact .cons (fun n hn => hn) (.cons (fun n hn => hn) within)
    · rw [scopes, whole, inner, outside]
      exact .cons (Declarations.worded_complete formed.declared (word thisName))
        (.cons (fun n _ hc => word superName n hc) (worded_settle _ hx.worded))
    · rw [scopes]
      exact List.forall_mem_cons.2 ⟨word superName, complete⟩
    · rw [scopes]
      exact List.forall_mem_cons.2 ⟨word thisName, List.forall_mem_cons.2 ⟨word superName, complete⟩⟩

/-- Where the open scopes have the words of classes, if the stop stands in this kind of class. -/
def WordsAt (scopes : List Declarations) : Home → Prop
  | .noClass => True
  | .plainClass => ∃ i, scopes.findIdx? (·.contains thisName) = some i
  | .subclass =>
    ∃ i, scopes.findIdx? (·.contains thisName) = some i ∧ scopes.findIdx? (·.contains superName) = some (i + 1)

/-- Whether the open scopes have the words of the class that the stop stands in. A superclass, which counts as
standing in the class that names it, is a name and no word. -/
def Housed (x : Stop) : Prop := (∃ e, x.code = .expr e ∧ e.NamesClass) ∨ WordsAt x.walk.scopes x.around.home

/-- The words are where they were if the scopes have them at the same places. -/
theorem WordsAt.same {scopes scopes' : List Declarations} {home : Home} (h : WordsAt scopes home)
    (hs : ∀ n, ¬ Nameable n → scopes'.findIdx? (·.contains n) = scopes.findIdx? (·.contains n)) :
    WordsAt scopes' home := by
  have this := hs thisName fun h => h.1 rfl
  have super := hs superName fun h => h.2 rfl
  cases home with
  | noClass => trivial
  | plainClass =>
    obtain ⟨i, hi⟩ := h
    exact ⟨i, this.trans hi⟩
  | subclass =>
    obtain ⟨i, hi, hj⟩ := h
    exact ⟨i, this.trans hi, super.trans hj⟩

/-- The words are one scope further out after a scope without them was opened. -/
theorem WordsAt.inner {scope : Declarations} {scopes : List Declarations} {home : Home} (h : WordsAt scopes home)
    (hs : ∀ n, ¬ Nameable n → scope.contains n = false) : WordsAt (scope :: scopes) home := by
  have this := hs thisName fun h => h.1 rfl
  have super := hs superName fun h => h.2 rfl
  cases home with
  | noClass => trivial
  | plainClass =>
    obtain ⟨i, hi⟩ := h
    exact ⟨i + 1, by simp [List.findIdx?_cons, this, hi]⟩
  | subclass =>
    obtain ⟨i, hi, hj⟩ := h
    exact ⟨i + 1, by simp [List.findIdx?_cons, this, hi], by simp [List.findIdx?_cons, super, hj]⟩

/-- A superclass has no parts. -/
theorem Housed.words (hx : x.Housed) (h : y ∈ x.parts) : WordsAt x.walk.scopes x.around.home := by
  refine hx.resolve_left ?_
  rintro ⟨_, hc, id, name, rfl, -⟩
  simp [parts, hc, exprParts] at h

theorem Housed.part (h : y ∈ x.parts) (hf : x.code.Formed) (hx : x.Housed) : y.Housed := by
  have words := hx.words h
  cases lies_of_mem_parts h with
  | along names more expr declared rest scopes whole home =>
    rcases home with home | ⟨e, hc, superclass⟩
    · right
      rw [home, scopes]
      refine words.same fun n hn => findIdx?_settle (fun hmem => hn (hf.declared n ?_)) _
      rw [declared]
      exact List.mem_append_left _ hmem
    · exact .inl ⟨e, hc, superclass hf⟩
  | initial name e var part =>
    subst part
    have hn : Nameable name.lexeme := by
      rw [var] at hf
      exact hf.1
    exact .inr (words.same fun n hword => Walk.findIdx?_declare fun e => hword (e ▸ hn))
  | body names opens declared nameable scopes whole around =>
    right
    rw [around, scopes]
    refine words.inner fun n hword => ?_
    have : n ∉ names := fun hmem => hword (nameable hf n hmem)
    rw [Bool.eq_false_iff, ne_eq, Declarations.contains_complete]
    simp [this, Bindings.contains]
  | methods name declared scopes whole home =>
    right
    rw [home, scopes]
    exact ⟨0, by simp [List.findIdx?_cons]⟩
  | inheriting name declared scopes whole home =>
    right
    rw [home, scopes]
    have : superName ≠ thisName := by decide
    exact ⟨0, by simp [List.findIdx?_cons], by simp [List.findIdx?_cons, this, Bindings.contains]⟩

end Stop

end Lox
