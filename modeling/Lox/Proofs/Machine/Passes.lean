/-
A pass of a loop over a variable takes so many steps before its body starts, in which the variable is copied into a slot
and from there into a new variable; and so many after the body has ended, in which the copy is written back the same way.
-/
import Lox.Machine.Step
import Lox.Proofs.Binding.Passes
import Lox.Proofs.Store.Later
import Mathlib.Logic.Function.Iterate

namespace Lox

/-- What is left to do in a pass of a loop after the body: the copy goes back into the slot, and from there into the
variable. -/
def ForLoop.copyingBack (id : UseId) (name : Token) (slot outer : ScopeId) : List Frame :=
  [.sequence [.expression (.assign (id + 2) (ForLoop.slot name) (.ref (id + 1) name))], .leaveScope slot,
    .sequence [.expression (.assign (id + 5) name (.ref (id + 4) (ForLoop.slot name)))], .leaveScope outer]

/-- The scopes of a pass: `copy` has the copy of the variable, and it is in the scope of the slot, in the scope `outer`
where the pass started; the scope of the variable is around that. -/
structure Store.PassScopes (s : Store) (table : Table) (id : UseId) (name : Token) (copy slot outer var : ScopeId) :
    Prop where
  inSlot : s.parent? copy = some slot
  around : s.parent? slot = some outer
  toVar : ∃ far, Copies table id (some far) ∧ s.ancestor? outer far = some var
  hasCopy : s.binds copy name.lexeme = true
  hasSlot : s.binds slot ForLoop.slotName = true
  hasVar : s.binds var name.lexeme = true

/-- The scopes of a pass stay what they are. -/
theorem Store.Later.passScopes {s s' : Store} (h : s.Later s') {table : Table} {id : UseId} {name : Token}
    {copy slot outer var : ScopeId} (scopes : s.PassScopes table id name copy slot outer var) :
    s'.PassScopes table id name copy slot outer var where
  inSlot := h.parent _ _ scopes.inSlot
  around := h.parent _ _ scopes.around
  toVar := by
    obtain ⟨far, copies, toVar⟩ := scopes.toVar
    exact ⟨far, copies, h.ancestor toVar⟩
  hasCopy := h.binds _ _ scopes.hasCopy
  hasSlot := h.binds _ _ scopes.hasSlot
  hasVar := h.binds _ _ scopes.hasVar

/-- The scopes of a pass are made one in the other, each with the value of the variable. -/
theorem Store.passScopes_addWith {s : Store} {table : Table} {id : UseId} {name : Token} {outer var : ScopeId} {far : Nat}
    {v : Value} (copies : Copies table id (some far)) (toVar : s.ancestor? outer far = some var)
    (hv : s.valueIn? var name.lexeme = some v) :
    ((s.addWith outer ForLoop.slotName v).addWith s.nextScope name.lexeme v).PassScopes table id name (s.nextScope + 1)
        s.nextScope outer var ∧
      ((s.addWith outer ForLoop.slotName v).addWith s.nextScope name.lexeme v).valueIn? var name.lexeme = some v ∧
      ∀ n, ((s.addWith outer ForLoop.slotName v).addWith s.nextScope name.lexeme v).valueIn? (s.nextScope + 1) n =
        if n = name.lexeme then some v else none := by
  have next := s.nextScope_addWith outer ForLoop.slotName v
  have lt : var < s.nextScope := lt_size_of_binds ((binds_iff _ _ _).2 ⟨v, hv⟩)
  have ne : var ≠ s.nextScope := Nat.ne_of_lt lt
  have ne' : var ≠ s.nextScope + 1 := Nat.ne_of_lt (Nat.lt_succ_of_lt lt)
  have slot : s.nextScope ≠ s.nextScope + 1 := Nat.ne_of_lt (Nat.lt_succ_self _)
  have copied (n : String) : ((s.addWith outer ForLoop.slotName v).addWith s.nextScope name.lexeme v).valueIn?
      (s.nextScope + 1) n = if n = name.lexeme then some v else none := by
    rw [valueIn?_addWith, if_pos next.symm]
  have stays : ((s.addWith outer ForLoop.slotName v).addWith s.nextScope name.lexeme v).valueIn? var name.lexeme =
      some v := by
    rw [valueIn?_addWith, next, if_neg ne', valueIn?_addWith, if_neg ne, hv]
  have later := (s.later_addWith outer ForLoop.slotName v).trans (later_addWith _ s.nextScope name.lexeme v)
  refine ⟨?_, stays, copied⟩
  exact {
    inSlot := next ▸ parent?_addWith _ _ _ v
    around := (later_addWith _ _ _ v).parent _ _ (s.parent?_addWith outer ForLoop.slotName v)
    toVar := ⟨far, copies, later.ancestor toVar⟩
    hasCopy := (binds_iff _ _ _).2 ⟨v, (copied _).trans (if_pos rfl)⟩
    hasSlot := by
      refine (binds_iff _ _ _).2 ⟨v, ?_⟩
      rw [valueIn?_addWith, next, if_neg slot, valueIn?_addWith, if_pos rfl, if_pos rfl]
    hasVar := (binds_iff _ _ _).2 ⟨v, stays⟩ }

namespace Machine

/-! ## Steps of a pass -/

section

variable {table : Table} {frames : List Frame} {scope depth : Nat} {store : Store} {sink : Sink}

theorem step_ref {id : UseId} {name : Token} {v : Value}
    (hv : store.read? scope (table.place id) name.lexeme = some v) :
    step table.place ⟨.eval (.ref id name), frames, scope, depth, store, sink⟩ =
      ⟨.value v, frames, scope, depth, store, sink⟩ := by
  show giveVariable _ _ _ = _
  unfold giveVariable
  rw [hv]
  rfl

/-- A variable is declared in a new block, with the value of another one. -/
theorem iterate_declare {id : UseId} {name other : Token} {rest : List Stmt} {v : Value}
    (hv : (store.addScope ⟨some scope, .empty⟩).read? store.nextScope (table.place id) other.lexeme = some v) :
    (step table.place)^[5]
        ⟨.exec (.block (.varDecl name (some (.ref id other)) :: rest)), frames, scope, depth, store, sink⟩ =
      ⟨.finished .normal, .sequence rest :: .leaveScope scope :: frames, store.nextScope, depth,
        store.addWith scope name.lexeme v, sink⟩ := by
  show step table.place (step table.place ⟨.eval (.ref id other), _, store.nextScope, depth,
    store.addScope ⟨some scope, .empty⟩, sink⟩) = _
  rw [step_ref hv]
  rfl

/-- A variable gets the value of another one, at the end of a block. -/
theorem iterate_assign {id id' : UseId} {name other : Token} {outer : ScopeId} {v : Value} {store' : Store}
    (hv : store.read? scope (table.place id') other.lexeme = some v)
    (hw : store.write? scope (table.place id) name.lexeme v = some store') :
    (step table.place)^[8] ⟨.finished .normal,
        .sequence [.expression (.assign id name (.ref id' other))] :: .leaveScope outer :: frames, scope, depth, store,
        sink⟩ = ⟨.finished .normal, frames, outer, depth, store', sink⟩ := by
  show (step table.place)^[4] (step table.place ⟨.eval (.ref id' other), _, scope, depth, store, sink⟩) = _
  rw [step_ref hv]
  show (step table.place)^[3] (assignVariable _ (table.place id) name v) = _
  unfold assignVariable
  rw [show Store.write? _ _ _ _ _ = _ from hw]
  rfl

/-- The body of a pass starts. -/
theorem iterate_pass {id : UseId} {name : Token} {s : Stmt} {far : Nat} {var : ScopeId} {v : Value}
    (copies : Copies table id (some far)) (toVar : store.ancestor? scope far = some var)
    (hv : store.valueIn? var name.lexeme = some v) :
    (step table.place)^[12] ⟨.exec (ForLoop.pass id name s), frames, scope, depth, store, sink⟩ =
      ⟨.exec s, ForLoop.copyingBack id name store.nextScope scope ++ frames, store.nextScope + 1, depth,
        (store.addWith scope ForLoop.slotName v).addWith store.nextScope name.lexeme v, sink⟩ := by
  have lt : var < store.nextScope := Store.lt_size_of_binds ((Store.binds_iff _ _ _).2 ⟨v, hv⟩)
  have parent (s : Store) (i : ScopeId) : (s.addScope ⟨some i, .empty⟩).parent? s.nextScope = some i := by
    rw [Store.parent?_addScope, if_pos rfl]
  -- the slot takes the value of the variable
  have intoSlot : (store.addScope ⟨some scope, .empty⟩).read? store.nextScope (table.place (id + 3)) name.lexeme =
      some v := by
    rw [Table.place, copies.intoSlot]
    refine Store.read?_hops (Store.ancestor?_next (parent _ _) ((Store.later_addScope _ _).ancestor toVar)) ?_
    rw [Store.valueIn?_addScope, if_neg (Nat.ne_of_lt lt), hv]
  -- and the copy takes that of the slot
  have next := store.nextScope_addWith scope ForLoop.slotName v
  have fromSlot : ((store.addWith scope ForLoop.slotName v).addScope ⟨some store.nextScope, .empty⟩).read?
      (store.addWith scope ForLoop.slotName v).nextScope (table.place id) (ForLoop.slot name).lexeme = some v := by
    rw [Table.place, copies.fromSlot]
    refine Store.read?_hops (Store.ancestor?_one (parent _ _)) ?_
    rw [Store.valueIn?_addScope, next, if_neg (Nat.ne_of_lt (Nat.lt_succ_self _)), Store.valueIn?_addWith, if_pos rfl]
    exact if_pos rfl
  let rest : List Stmt :=
    [s, .expression (.assign (id + 2) (ForLoop.slot name) (.ref (id + 1) name))]
  let back : List Stmt := [.expression (.assign (id + 5) name (.ref (id + 4) (ForLoop.slot name)))]
  have outside : (step table.place)^[6] ⟨.exec (ForLoop.pass id name s), frames, scope, depth, store, sink⟩ =
      ⟨.exec (.block (.varDecl name (some (.ref id (ForLoop.slot name))) :: rest)),
        .sequence back :: .leaveScope scope :: frames, store.nextScope, depth,
        store.addWith scope ForLoop.slotName v, sink⟩ := by
    rw [Function.iterate_succ_apply', ForLoop.pass, iterate_declare intoSlot]
    rfl
  rw [show 12 = 6 + 6 from rfl, Function.iterate_add_apply, outside, Function.iterate_succ_apply',
    iterate_declare fromSlot, next]
  rfl

/-- The copy of a pass is written back. -/
theorem iterate_copyingBack (frames : List Frame) (depth : Nat) (sink : Sink) {store : Store} {id : UseId} {name : Token}
    {copy slot outer var : ScopeId} {v : Value} (scopes : store.PassScopes table id name copy slot outer var)
    (hv : store.valueIn? copy name.lexeme = some v) :
    (step table.place)^[16]
        ⟨.finished .normal, ForLoop.copyingBack id name slot outer ++ frames, copy, depth, store, sink⟩ =
      ⟨.finished .normal, frames, outer, depth,
        (store.define slot ForLoop.slotName v).define var name.lexeme v, sink⟩ := by
  obtain ⟨far, copies, toVar⟩ := scopes.toVar
  have lt := Store.lt_size_of_binds scopes.hasSlot
  have later := Store.later_define lt ForLoop.slotName v
  have read : store.read? copy (table.place (id + 1)) name.lexeme = some v := by
    rw [Table.place, copies.copy]
    exact Store.read?_hops rfl hv
  have write : store.write? copy (table.place (id + 2)) (ForLoop.slot name).lexeme v =
      some (store.define slot ForLoop.slotName v) := by
    rw [Table.place, copies.backIntoSlot]
    exact Store.write?_hops (Store.ancestor?_one scopes.inSlot) scopes.hasSlot v
  have read' : (store.define slot ForLoop.slotName v).read? slot (table.place (id + 4)) (ForLoop.slot name).lexeme =
      some v := by
    rw [Table.place, copies.backFromSlot]
    refine Store.read?_hops rfl ?_
    rw [Store.valueIn?_define _ _ _ _ _ _ lt, if_pos ⟨rfl, rfl⟩]
  have write' : (store.define slot ForLoop.slotName v).write? slot (table.place (id + 5)) name.lexeme v =
      some ((store.define slot ForLoop.slotName v).define var name.lexeme v) := by
    rw [Table.place, copies.back]
    exact Store.write?_hops (Store.ancestor?_next (later.parent _ _ scopes.around) (later.ancestor toVar))
      (later.binds _ _ scopes.hasVar) v
  rw [show 16 = 8 + 8 from rfl, Function.iterate_add_apply, ForLoop.copyingBack, List.cons_append, List.cons_append,
    iterate_assign read write]
  exact iterate_assign read' write'

end

end Machine

end Lox
