/-
Two walks beside each other, through parts that belong together. Each small move of the one has a counterpart in the
other, which finds no error if the first finds none, and which keeps the open scopes linked. As long as there are no
passes of loops, the same entries are made on both sides.
-/
import Lox.Proofs.Binding.Checked
import Lox.Proofs.Pair.Mirror

namespace Lox

/-! ## Moves on both sides -/

/-- A walk on the left and one on the right. It is `straight` ahead if there is no pass of a loop on the way. -/
structure Walk.Beside (c : Change) (straight : Prop) (links : List Link) (w w' : Walk) : Prop where
  scopes : Mirrors c links w.scopes w'.scopes
  errors : w'.errors = #[]
  single : straight → ∀ link ∈ links, link.Single
  table : straight → w'.table = w.table

namespace Walk.Beside

variable {c : Change} {straight : Prop} {links : List Link} {w w' : Walk} {name name' : Token} {n n' : String}

theorem openScope (h : Beside c straight links w w') (tie : Tie) :
    Beside c straight (.scope tie :: links) w.openScope w'.openScope :=
  ⟨.scope (Declarations.mirror_empty c tie) h.scopes, h.errors,
    fun hs => List.forall_mem_cons.2 ⟨trivial, h.single hs⟩, h.table⟩

theorem closeScope {tie : Tie} (h : Beside c straight (.scope tie :: links) w w') :
    Beside c straight links w.closeScope w'.closeScope := by
  refine ⟨?_, h.errors, fun hs => (List.forall_mem_cons.1 (h.single hs)).2, h.table⟩
  have scopes := h.scopes
  rw [scopes_closeScope, scopes_closeScope]
  cases hw : w.scopes with
  | nil =>
    rw [hw] at scopes
    cases scopes
  | cons own outer =>
    cases hw' : w'.scopes with
    | nil =>
      rw [hw, hw'] at scopes
      cases scopes
    | cons own' outer' =>
      rw [hw, hw'] at scopes
      cases scopes with
      | scope _ rest => exact rest

theorem mark (h : Beside c straight links w w') (hn : Declares c links n n') (complete : Bool) :
    Beside c straight links (w.mark n complete) (w'.mark n' complete) := by
  refine ⟨?_, ?_, h.single, fun hs => ?_⟩
  · obtain ⟨scopes, table, errors⟩ := w
    obtain ⟨scopes', table', errors'⟩ := w'
    have mirrors : Mirrors c links scopes scopes' := h.scopes
    cases mirrors with
    | beyond =>
      rw [hn.1]
      cases scopes <;> exact .beyond _
    | scope mirror rest => exact .scope (mirror.set hn complete) rest
    | pass => exact hn.elim
  · rw [errors_mark]
    exact h.errors
  · rw [table_mark, table_mark]
    exact h.table hs

theorem define (h : Beside c straight links w w') (hn : Declares c links name.lexeme name'.lexeme) :
    Beside c straight links (w.define name) (w'.define name') :=
  h.mark hn true

theorem declare (h : Beside c straight links w w') (hn : Declares c links name.lexeme name'.lexeme)
    (clean : (w.declare name).errors = #[]) : Beside c straight links (w.declare name) (w'.declare name') := by
  have left := not_declared clean
  have right : w'.declared name'.lexeme = false := (h.scopes.declared hn).trans left
  unfold Walk.declare
  rw [left, right]
  exact h.mark hn false

theorem introduce (h : Beside c straight links w w') (hn : Declares c links name.lexeme name'.lexeme)
    (clean : (w.introduce name).errors = #[]) : Beside c straight links (w.introduce name) (w'.introduce name') :=
  (h.declare hn ((Leads.define _ name).errors clean)).define hn

theorem introduceAll {names names' : List Token} (h : Beside c straight links w w')
    (hn : List.Forall₂ (fun p p' : Token => Declares c links p.lexeme p'.lexeme) names names')
    (clean : (names.foldl Walk.introduce w).errors = #[]) :
    Beside c straight links (names.foldl Walk.introduce w) (names'.foldl Walk.introduce w') := by
  induction hn generalizing w w' with
  | nil => exact h
  | @cons p p' names names' hd _ ih => exact ih (h.introduce hd ((Leads.introduceAll names _).errors clean)) clean

theorem recordIf {condition condition' : Bool} {fault : BindingFault} {site : Token} (site' : Token)
    (h : Beside c straight links w w') (clean : (recordIf condition fault site w).errors = #[])
    (hc : condition' = true → condition = true) :
    Beside c straight links (Walk.recordIf condition fault site w) (Walk.recordIf condition' fault site' w') := by
  have left := recordIf_clean clean
  have right : condition' = false := Bool.eq_false_iff.2 fun h => by
    rw [hc h] at left
    cases left
  rw [left, right]
  exact h

/-- A use that is found on both sides as the links have it is entered on both sides. -/
theorem bind (h : Beside c straight links w w') (id : UseId)
    (finds : Finds c links (w.scopes.findIdx? (·.contains n)) (w'.scopes.findIdx? (·.contains n')) n n') :
    Beside c straight links (w.bind id n) (w'.bind id n') := by
  refine ⟨?_, ?_, h.single, fun hs => ?_⟩
  · rw [scopes_bind, scopes_bind]
    exact h.scopes
  · rw [errors_bind]
    exact h.errors
  · unfold Walk.bind
    rw [finds.eq_of_single (h.single hs)]
    split
    · rw [h.table hs]
    · exact h.table hs

theorem checkReturn (h : Beside c straight links w w') {body : Body} {keyword : Token} {hasValue : Bool}
    (clean : (w.checkReturn body keyword hasValue).errors = #[]) :
    Beside c straight links (w.checkReturn body keyword hasValue) (w'.checkReturn body keyword hasValue) :=
  (h.recordIf keyword ((Leads.recordIf _ _ _ _).errors clean) id).recordIf keyword clean id

/-- A class that does not name itself on the left does not do so on the right. -/
theorem checkSuperclass {manner : Manner} {e e' : Expr} (h : Beside c straight links w w')
    (alike : Alike c manner links (.expr e) (.expr e')) (allows : c.Allows name.lexeme)
    (clean : (w.checkSuperclass name e).errors = #[]) :
    Beside c straight links (w.checkSuperclass name e) (w'.checkSuperclass name e') := by
  obtain ⟨_, parent, parent', rfl, rfl, like⟩ | ⟨left, right⟩ := alike.ref_iff
  · refine h.recordIf parent' clean fun hc => ?_
    rcases like with rfl | ⟨old, rfl⟩
    · exact hc
    · have new : c.new = name.lexeme := beq_iff_eq.1 hc
      rw [old, ← allows new.symm, new]
      exact beq_self_eq_true _
  · unfold Walk.checkSuperclass
    split
    · next id parent => exact absurd rfl (left id parent)
    · exact h

theorem openWordScope (h : Beside c straight links w w') (proper : c.Proper) (word : String) (hw : ¬ Nameable word) :
    Beside c straight (.scope .same :: links) (w.openWordScope word) (w'.openWordScope word) :=
  (h.openScope .same).mark (Tie.names_self (t := .same) trivial (proper.leaves hw)) true

end Walk.Beside

end Lox
