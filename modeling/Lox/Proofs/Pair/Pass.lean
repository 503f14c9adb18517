/-
The scopes of a pass of a loop over a variable. On the left the variable is copied into a slot and from there into a
new variable, which the body sees; when the body is done, it is copied back. Meanwhile the new variable is the one that
belongs to the variable on the right.
-/
import Lox.Proofs.Pair.Frames

namespace Lox

namespace Sides

variable {p : Pairing} {s : Sides} {since : ScopeId} {links : List Link}

theorem Sound.addWith (h : Sound p s) (outer : ScopeId) (name : String) (v : Value) :
    Grows s ⟨s.tie, s.left.addWith outer name v, s.right⟩ ∧ Sound p ⟨s.tie, s.left.addWith outer name v, s.right⟩ := by
  obtain ⟨grows, sound⟩ := h.addLeft outer .empty
  have alone : ∀ i' n', ¬ Shares p ⟨s.tie, s.left.addScope ⟨some outer, .empty⟩, s.right⟩ s.left.nextScope i' name n' := by
    rintro i' n' (⟨e, -⟩ | ⟨t, ht, -⟩)
    · exact absurd e (Nat.ne_of_gt h.start.1)
    · cases (h.tie_eq_none (Nat.le_refl s.left.scopes.size)).symm.trans ht
  obtain ⟨grows', sound'⟩ := sound.defineLeft (s.left.nextScope_lt_addScope _) alone v
  exact ⟨grows.trans grows', sound'⟩

/-! ## Into a pass -/

/-- The copy of a variable of the scope `var` is in a new scope, in the scope of the slot, and belongs from now on to
what the variable belonged to. -/
def startPass (s : Sides) (name : String) (outer var : ScopeId) (v : Value) : Sides :=
  Sides.hand
    ⟨s.tie, (s.left.addWith outer ForLoop.slotName v).addWith s.left.nextScope name v, s.right⟩
    var (s.left.nextScope + 1)

/-- The scopes of a loop with its variable `name`, and the scope `outer` in which a pass starts. -/
structure Loops (p : Pairing) (s : Sides) (since : ScopeId) (links : List Link) (id : UseId) (name : Token) (far : Nat)
    (outer var i' var' : ScopeId) : Prop where
  stands : Stands s since (.scope (.only name.lexeme) :: links) var var'
  young : since ≤ s.left.scopes.size
  copies : Copies p.table id (some far)
  other : name.lexeme ≠ ForLoop.slotName
  toVar : s.left.ancestor? outer far = some var
  inner : s.right.parent? i' = some var'

variable {id : UseId} {name : Token} {far : Nat} {outer var i' var' : ScopeId} {v : Value}

theorem Loops.tied (h : Loops p s since links id name far outer var i' var') :
    s.tie var = some (var', .only name.lexeme) := by
  cases h.stands with
  | scope tied _ _ _ _ _ => exact tied

theorem Grows.loops {s' : Sides} (h : Grows s s') (hl : Loops p s since links id name far outer var i' var') :
    Loops p s' since links id name far outer var i' var' :=
  ⟨h.stands hl.stands, Nat.le_trans hl.young h.left.size, hl.copies, hl.other, h.left.ancestor hl.toVar,
    h.right.parent _ _ hl.inner⟩

/-- When the copy is handed back, nothing has been tied but what was before. -/
theorem Sound.grows_handBack (h : Sound p s) (hl : Loops p s since links id name far outer var i' var') (v : Value) :
    Grows s ((s.startPass name.lexeme outer var v).hand (s.left.nextScope + 1) var) := by
  obtain ⟨grows, sound⟩ := h.addWith outer ForLoop.slotName v
  have grows' := (sound.addWith s.left.nextScope name.lexeme v).1
  have lt := (h.tied _ _ _ hl.tied).1.2
  rw [startPass, hand_hand]
  · exact grows.trans grows'
  · exact Nat.ne_of_lt (Nat.lt_succ_of_lt lt)
  · exact h.tie_eq_none (Nat.le_succ _)

theorem Sound.startPass (h : Sound p s) (hl : Loops p s since links id name far outer var i' var')
    (hv : s.left.valueIn? var name.lexeme = some v) :
    Sound p (s.startPass name.lexeme outer var v) ∧
      Pass p (s.startPass name.lexeme outer var v) since id name (s.left.nextScope + 1) s.left.nextScope outer var var' ∧
      Stands (s.startPass name.lexeme outer var v) since (.pass name.lexeme (far + 2) :: links) (s.left.nextScope + 1)
        i' := by
  obtain ⟨grows₁, sound₁⟩ := h.addWith outer ForLoop.slotName v
  obtain ⟨grows₂, sound₂⟩ := sound₁.addWith s.left.nextScope name.lexeme v
  have grows := grows₁.trans grows₂
  obtain ⟨⟨gt, lt⟩, -⟩ := h.tied _ _ _ hl.tied
  have next := s.left.nextScope_addWith outer ForLoop.slotName v
  obtain ⟨scopes, stays, copied⟩ := Store.passScopes_addWith hl.copies hl.toVar hv
  have copy := (copied name.lexeme).trans (if_pos rfl)
  have ne : s.left.nextScope ≠ s.left.nextScope + 1 := Nat.ne_of_lt (Nat.lt_succ_self _)
  have ne' : var ≠ s.left.nextScope := Nat.ne_of_lt lt
  have ne'' : var ≠ s.left.nextScope + 1 := Nat.ne_of_lt (Nat.lt_succ_of_lt lt)
  have untied : ∀ i, s.left.scopes.size ≤ i → s.tie i = none := fun i => h.tie_eq_none
  have inside : s.left.nextScope + 1 <
      (Store.addWith (s.left.addWith outer ForLoop.slotName v) s.left.nextScope name.lexeme v).scopes.size := by
    show _ < Store.nextScope _
    rw [Store.nextScope_addWith, next]
    exact Nat.lt_succ_self _
  refine ⟨sound₂.hand name.lexeme hl.tied (untied _ (Nat.le_succ _)) ⟨Nat.succ_pos _, inside⟩
    (copy.trans stays.symm), ?_, ?_⟩
  · exact {
      other := hl.other
      tied := (hand_tie_to _ _ _).trans hl.tied
      slotAlone := (hand_tie_other _ (Ne.symm ne') ne).trans (untied _ (Nat.le_refl _))
      varAlone := hand_tie_from _ ne''
      inSlot := scopes.inSlot
      around := scopes.around
      toVar := scopes.toVar
      hasCopy := scopes.hasCopy
      hasSlot := scopes.hasSlot
      hasVar := scopes.hasVar
      young := by
        cases hl.stands with
        | scope _ young _ _ _ _ => exact ⟨Nat.le_succ_of_le hl.young, young.resolve_left fun h => h⟩
      inside := gt }
  · -- around the copy are the slot, what is between it and the variable, and the scopes of the loop
    cases hl.stands with
    | @scope _ _ _ _ j j' tied _ outward parent parent' rest =>
    refine .pass ((hand_tie_to _ _ _).trans hl.tied) (Nat.lt_trans outward (Nat.lt_succ_of_lt lt)) ?_ hl.inner parent'
      ((grows.stands rest).hand outward (Nat.lt_trans outward (Nat.lt_succ_of_lt lt)))
    have toVar := Store.ancestor?_next scopes.around (grows.left.ancestor hl.toVar)
    exact Store.ancestor?_last (Store.ancestor?_next scopes.inSlot toVar) (grows.left.parent _ _ parent)

/-! ## Out of a pass -/

/-- The copy of a variable is written into the slot and then into the variable, which has its tie again. -/
def endPass (s : Sides) (name : String) (copy slot var : ScopeId) (v : Value) : Sides :=
  Sides.hand ⟨s.tie, (s.left.define slot ForLoop.slotName v).define var name v, s.right⟩ copy var

theorem Sound.endPass (h : Sound p s) {copy slot : ScopeId} (pass : Pass p s since id name copy slot outer var var')
    (hv : s.left.valueIn? copy name.lexeme = some v) :
    Grows (s.hand copy var) (s.endPass name.lexeme copy slot var v) ∧
      Sound p (s.endPass name.lexeme copy slot var v) := by
  have alone : ∀ i' n', ¬ Shares p s slot i' ForLoop.slotName n' := by
    rintro i' n' (⟨e, -⟩ | ⟨t, ht, -⟩)
    · cases (e ▸ pass.around).symm.trans h.outermost.1
    · cases pass.slotAlone.symm.trans ht
  obtain ⟨grows₁, sound₁⟩ := h.defineLeft pass.slot_lt alone v
  have alone' : ∀ i' n', ¬ Shares p ⟨s.tie, s.left.define slot ForLoop.slotName v, s.right⟩ var i' name.lexeme n' := by
    rintro i' n' (⟨e, -⟩ | ⟨t, ht, -⟩)
    · exact absurd e (Nat.ne_of_gt pass.inside)
    · cases pass.varAlone.symm.trans ht
  have lt := Nat.lt_of_lt_of_le pass.var_lt grows₁.left.size
  obtain ⟨grows₂, sound₂⟩ := sound₁.defineLeft lt alone' v
  have grows := grows₁.trans grows₂
  refine ⟨grows.hand pass.copy_lt, ?_⟩
  refine sound₂.hand name.lexeme pass.tied pass.varAlone ⟨pass.inside, Nat.lt_of_lt_of_le lt grows₂.left.size⟩
    ?_
  show Store.valueIn? (Store.define _ var name.lexeme v) var name.lexeme =
    Store.valueIn? (Store.define _ var name.lexeme v) copy name.lexeme
  rw [Store.valueIn?_define _ _ _ _ _ _ lt, if_pos ⟨rfl, rfl⟩, Store.valueIn?_define _ _ _ _ _ _ lt,
    if_neg fun e => pass.var_ne_copy e.1, Store.valueIn?_define _ _ _ _ _ _ pass.slot_lt,
    if_neg fun e => pass.other e.2, hv]

end Sides

end Lox
