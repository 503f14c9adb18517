/-
Passes of a loop on both sides. Where a pass starts and where it ends, the left side takes more steps than the right
one, to copy the variable; then both go on side by side. A `return` goes on at the call, past whatever passes it leaves.
-/
import Lox.Proofs.Pair.Declarations
import Lox.Proofs.Pair.Pass
import Lox.Proofs.Program.Bound
import Mathlib.Logic.Function.Iterate

namespace Lox

namespace Machine

open Sides

/-! ## Meeting again -/

/-- Two machines that take some steps, and then go on side by side or fail alike. -/
def Meets (p : Pairing) (m m' : Machine) : Prop :=
  ∃ n n', Next p ((step p.table.place)^[n + 1] m) ((step p.table'.place)^[n' + 1] m')

variable {p : Pairing} {tie : ScopeId → Option (ScopeId × Tie)} {since : ScopeId} {m m' : Machine} {links : List Link}

theorem Next.meets (h : Next p (m.step p.table.place) (m'.step p.table'.place)) : Meets p m m' := ⟨0, 0, h⟩

theorem Meets.after (n n' : Nat)
    (h : Meets p ((step p.table.place)^[n] m) ((step p.table'.place)^[n'] m')) : Meets p m m' := by
  obtain ⟨k, k', h⟩ := h
  rw [← Function.iterate_add_apply, ← Function.iterate_add_apply, Nat.add_right_comm, Nat.add_right_comm k'] at h
  exact ⟨k + n, k' + n', h⟩

/-! ## Starting a pass -/

/-- The body of a pass starts. The left side is at the pass, the right one at the body, in the scopes where the last
clause of the loop will stand, if there is one. -/
theorem Twins.startPass (frames frames' : List Frame) (depth : Nat) (sink : Sink) {outer i' var var' : ScopeId}
    {store store' : Store} {id : UseId} {name : Token} {s s' : Stmt} {far : Nat}
    (sound : Sound p ⟨tie, store, store'⟩) (loops : Loops p ⟨tie, store, store'⟩ since links id name far outer var i' var')
    (bound : store.binds var name.lexeme = true)
    (alike : p.Alike (.pass name.lexeme (far + 2) :: links) (.stmt s) (.stmt s'))
    (frames_ : ∀ s : Sides, Pass p s since id name (store.nextScope + 1) store.nextScope outer var var' →
      Grows ⟨tie, store, store'⟩ (s.hand (store.nextScope + 1) var) →
        Frames p s since .ending (store.nextScope + 1) i'
          (ForLoop.copyingBack id name store.nextScope outer ++ frames) frames') :
    Together p ((step p.table.place)^[12] ⟨.exec (ForLoop.pass id name s), frames, outer, depth, store, sink⟩)
      ⟨.exec s', frames', i', depth, store', sink⟩ := by
  obtain ⟨v, hv⟩ := (Store.binds_iff _ _ _).1 bound
  rw [iterate_pass loops.copies loops.toVar hv]
  obtain ⟨sound', pass, stands⟩ := sound.startPass loops hv
  have grows := sound.grows_handBack loops v
  exact ⟨_, since, .ending, ⟨sound', frames_ _ pass grows, Nat.le_trans loops.young grows.left.size, rfl, rfl⟩,
    .exec ⟨_, stands, alike⟩⟩

/-- Where a pass starts the variable of the loop has a value. -/
theorem Conforms.binds_variable {statements : List Stmt} {table : Table} (resolved : Resolved statements table)
    {frames : List Frame} {outer depth : Nat} {store : Store} {sink : Sink} {id : UseId} {name : Token} {s : Stmt}
    (h : Conforms statements ⟨.exec (ForLoop.pass id name s), frames, outer, depth, store, sink⟩) {far : Nat}
    {var : ScopeId} (copies : Copies table id (some far)) (toVar : store.ancestor? outer far = some var)
    (lt : var < store.scopes.size) : store.binds var name.lexeme = true := by
  -- in the scope of the slot the variable is read
  have reads := ((h.step resolved).step resolved).step resolved
  obtain ⟨v, ⟨place, there, hv⟩, -⟩ := (reads.finds resolved copies.intoSlot).ref name rfl
  have parent : (store.addScope ⟨some outer, .empty⟩).parent? store.nextScope = some outer := by
    rw [Store.parent?_addScope, if_pos rfl]
  have found := Store.ancestor?_next parent ((store.later_addScope _).ancestor toVar)
  cases found.symm.trans there
  have hv : (store.addScope ⟨some outer, .empty⟩).valueIn? var name.lexeme = some v := hv
  have ne : var ≠ store.nextScope := Nat.ne_of_lt lt
  rw [Store.valueIn?_addScope, if_neg ne] at hv
  exact (Store.binds_iff _ _ _).2 ⟨v, hv⟩

/-- What is repeated in a loop starts on both sides. -/
theorem Twins.loopPasses {statements : List Stmt} (resolved : Resolved statements p.table)
    (h : Twins p tie since .ending m m') {id : UseId} {name : Token} {e e' : Expr} {s s' : Stmt}
    {increment increment' : Option Expr}
    (stands : Stands ⟨tie, m.store, m'.store⟩ since (.scope (.only name.lexeme) :: links) m.scope m'.scope)
    (other : name.lexeme ≠ ForLoop.slotName) (copies : Copies p.table id (some (ForLoop.scopesAround increment - 2)))
    (clause : p.Alike (.scope .same :: .scope (.only name.lexeme) :: links) (.stmts (ForLoop.lastClause increment))
      (.stmts (ForLoop.lastClause increment')))
    (body : p.Alike (.pass name.lexeme (ForLoop.scopesAround increment) :: links) (.stmt s) (.stmt s'))
    (takes : Takes p ⟨tie, m.store, m'.store⟩ since .ending m.scope m'.scope
      (.again e (ForLoop.withIncrement increment (ForLoop.pass id name s)))
      (.again e' (.block (s' :: ForLoop.lastClause increment'))) .ending m.scope m'.scope)
    (conforms : Conforms statements (m.perform (ForLoop.withIncrement increment (ForLoop.pass id name s))
      (.again e (ForLoop.withIncrement increment (ForLoop.pass id name s))))) :
    ∃ n n', Together p
      ((step p.table.place)^[n] (m.perform (ForLoop.withIncrement increment (ForLoop.pass id name s))
        (.again e (ForLoop.withIncrement increment (ForLoop.pass id name s)))))
      ((step p.table'.place)^[n'] (m'.perform (.block (s' :: ForLoop.lastClause increment'))
        (.again e' (.block (s' :: ForLoop.lastClause increment'))))) := by
  obtain ⟨control, frames, scope, depth, store, sink⟩ := m
  obtain ⟨control', frames', scope', depth', store', sink'⟩ := m'
  have hd : depth' = depth := h.depth
  have hs : sink' = sink := h.sink
  subst hd hs
  have lt := (h.sound.stands_lt stands).1
  have again := (h.push takes).frames
  cases increment with
  | none =>
    cases increment' with
    | some _ => cases clause
    | none =>
    -- on the right a scope is opened for the body
    obtain ⟨grows, sound⟩ := h.sound.addRight scope' .empty
    have inner : (store'.addScope ⟨some scope', .empty⟩).parent? store'.nextScope = some scope' := by
      rw [Store.parent?_addScope, if_pos rfl]
    have loops : Loops p ⟨tie, store, store'.addScope ⟨some scope', .empty⟩⟩ since links id name 0 scope scope
        store'.nextScope scope' := ⟨grows.stands stands, h.young, copies, other, rfl, inner⟩
    exact ⟨12, 2, Twins.startPass _ _ depth' sink' sound loops (conforms.binds_variable resolved copies rfl lt) body
      fun s pass later => .pass pass ((grows.trans later).frames again)⟩
  | some last =>
    cases increment' with
    | none => cases clause
    | some last' =>
    -- both sides open a scope, in which the last clause stands
    have opened := h.sound.toOrdered.grows_openScope .same ⟨some scope, .empty⟩ ⟨some scope', .empty⟩
    have sound := h.sound.openScope .same scope scope' .empty .empty
      fun _ _ _ => ⟨rfl, fun _ e => by cases e⟩
    have place := stands.openScope h.sound.toOrdered .same h.young .empty .empty
    have inner (s : Store) (i : ScopeId) : (s.addScope ⟨some i, .empty⟩).parent? s.nextScope = some i := by
      rw [Store.parent?_addScope, if_pos rfl]
    have toVar := Store.ancestor?_one (inner store scope)
    have loops : Loops p (Sides.openScope ⟨tie, store, store'⟩ .same ⟨some scope, .empty⟩ ⟨some scope', .empty⟩) since
        links id name 1 store.nextScope scope store'.nextScope scope' :=
      ⟨opened.stands stands, Nat.le_trans h.young opened.left.size, copies, other, toVar, inner _ _⟩
    have inside := (conforms.step resolved).step resolved
    have bound := inside.binds_variable resolved copies toVar (Nat.lt_of_lt_of_le lt opened.left.size)
    have started := Twins.startPass (.sequence [.expression last] :: .leaveScope scope :: _)
      (.sequence [.expression last'] :: .leaveScope scope' :: _) depth' sink' sound loops bound body fun s pass later =>
        .clause pass (later.at ⟨_, place, clause⟩) (.cons .leaveScope ((opened.trans later).frames again))
    exact ⟨14, 2, started⟩

/-! ## Ending a pass -/

/-- After the copy is written back, the left side is where the pass started. -/
theorem exists_endPass {id : UseId} {name : Token} {copy slot outer var var' : ScopeId} {store store' : Store}
    (pass : Pass p ⟨tie, store, store'⟩ since id name copy slot outer var var') (sound : Sound p ⟨tie, store, store'⟩)
    (frames : List Frame) (depth : Nat) (sink : Sink) :
    ∃ tie' store₂, Sound p ⟨tie', store₂, store'⟩ ∧
      Grows (Sides.hand ⟨tie, store, store'⟩ copy var) ⟨tie', store₂, store'⟩ ∧
      (step p.table.place)^[16]
          ⟨.finished .normal, ForLoop.copyingBack id name slot outer ++ frames, copy, depth, store, sink⟩ =
        ⟨.finished .normal, frames, outer, depth, store₂, sink⟩ := by
  obtain ⟨v, hv⟩ := (Store.binds_iff _ _ _).1 pass.hasCopy
  obtain ⟨grows, ended⟩ := sound.endPass pass hv
  exact ⟨_, (store.define slot ForLoop.slotName v).define var name.lexeme v, ended, grows,
    iterate_copyingBack frames depth sink
      ⟨pass.inSlot, pass.around, pass.toVar, pass.hasCopy, pass.hasSlot, pass.hasVar⟩ hv⟩

end Machine

end Lox
