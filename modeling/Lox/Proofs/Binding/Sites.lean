/-
The tokens at which a walk finds errors. Errors are only added, each at the token that it is recorded with; so if all
errors found before are at tokens of some kind, so are those found after a small move that is made at such a token.
-/
import Lox.Proofs.Binding.Initial

namespace Lox.Walk

/-- A name that has been completed in the innermost scope is not being declared. -/
theorem not_beingDeclared_of_settle {w : Walk} {names : List String} {scopes : List Declarations}
    (h : w.scopes = settle names scopes) {n : String} (hn : n ∈ names) : w.beingDeclared n = false := by
  rw [Bool.eq_false_iff]
  intro being
  obtain ⟨scope, outer, same, incomplete⟩ := beingDeclared_iff.1 being
  rw [h] at same
  cases scopes with
  | nil => cases same
  | cons own rest =>
    cases same
    rw [Declarations.get?_complete, if_pos hn] at incomplete
    cases incomplete

/-- Whether all errors found so far are at tokens of this kind. -/
def Sited (site : Token → Prop) (w : Walk) : Prop := ∀ e ∈ w.errors, site e.site

namespace Sited

variable {site : Token → Prop} {w w' : Walk} {name : Token}

theorem start : Sited site .start := by
  intro e he
  cases Array.not_mem_empty e he

theorem of_eq (h : w.Sited site) (same : w'.errors = w.errors) : w'.Sited site := by
  intro e he
  rw [same] at he
  exact h e he

theorem record (h : w.Sited site) (fault : BindingFault) (hs : site name) : (w.record fault name).Sited site := by
  intro e he
  rcases Array.mem_push.1 he with he | rfl
  · exact h e he
  · exact hs

theorem recordIf {condition : Bool} (h : w.Sited site) (fault : BindingFault) (hs : condition = true → site name) :
    (Walk.recordIf condition fault name w).Sited site := by
  unfold Walk.recordIf
  split
  · next holds => exact h.record fault (hs holds)
  · exact h

theorem mark (h : w.Sited site) (name : String) (complete : Bool) : (w.mark name complete).Sited site :=
  h.of_eq (errors_mark w name complete)

theorem bind (h : w.Sited site) (id : UseId) (name : String) : (w.bind id name).Sited site :=
  h.of_eq (errors_bind w id name)

theorem openScope (h : w.Sited site) : w.openScope.Sited site := h.of_eq rfl

theorem closeScope (h : w.Sited site) : w.closeScope.Sited site := h.of_eq rfl

theorem openWordScope (h : w.Sited site) (word : String) : (w.openWordScope word).Sited site :=
  h.of_eq (errors_openWordScope w word)

theorem define (h : w.Sited site) (name : Token) : (w.define name).Sited site := h.mark name.lexeme true

theorem declare (h : w.Sited site) (hs : site name) : (w.declare name).Sited site := by
  unfold Walk.declare
  split
  · exact h.record _ hs
  · exact h.mark _ _

/-- A declaration that is the first of its name in its scope breaks no rule. -/
theorem declare_new (h : w.Sited site) (new : w.declared name.lexeme = false) : (w.declare name).Sited site := by
  unfold Walk.declare
  rw [new]
  exact h.mark _ _

theorem introduce (h : w.Sited site) (hs : site name) : (w.introduce name).Sited site := (h.declare hs).define name

theorem introduceAll {names : List Token} (h : w.Sited site) (hs : ∀ name ∈ names, site name) :
    (names.foldl Walk.introduce w).Sited site := by
  induction names generalizing w with
  | nil => exact h
  | cons name names ih =>
    obtain ⟨first, rest⟩ := List.forall_mem_cons.1 hs
    exact ih (h.introduce first) rest

theorem self (h : w.Sited site) (home : Home) (id : UseId) (hs : site name) : (w.self home id name).Sited site := by
  unfold Walk.self
  split
  · exact h.record _ hs
  · exact h.bind _ _

theorem super (h : w.Sited site) (home : Home) (id : UseId) (hs : site name) : (w.super home id name).Sited site := by
  unfold Walk.super
  split
  · exact (h.record _ hs).bind _ _
  · exact h.bind _ _

theorem checkSuperclass {e : Expr} (h : w.Sited site) (name : Token)
    (hs : ∀ id parent, e = .ref id parent → site parent) : (w.checkSuperclass name e).Sited site := by
  unfold Walk.checkSuperclass
  split
  · next id parent => exact h.recordIf _ fun _ => hs id parent rfl
  · exact h

theorem checkReturn (h : w.Sited site) (body : Body) (hasValue : Bool) (hs : site name) :
    (w.checkReturn body name hasValue).Sited site :=
  (h.recordIf _ fun _ => hs).recordIf _ fun _ => hs

end Sited

end Lox.Walk
