/-
What is written on the way from a store to a later one: of the variables of the scopes that there were, only those that
are named may have other values (`Writes`). A scope stays as deep as it was made, and at most one scope of a chain is so
deep.
-/
import Lox.Proofs.Store.Grounded
import Lox.Proofs.Store.Later

namespace Lox

namespace Store

/-! ## Writing -/

/-- From a store to a later one, with other values at most in these variables of the scopes that there were. -/
structure Writes (written : ScopeId → String → Prop) (s s' : Store) : Prop extends Later s s' where
  value : ∀ id < s.scopes.size, ∀ n, ¬ written id n → s'.valueIn? id n = s.valueIn? id n

variable {written : ScopeId → String → Prop} {s s' s'' : Store} {id : ScopeId} {name : String}

namespace Writes

theorem refl (s : Store) : Writes written s s := ⟨.refl s, fun _ _ _ _ => rfl⟩

theorem trans (h : Writes written s s') (h' : Writes written s' s'') : Writes written s s'' where
  toLater := h.toLater.trans h'.toLater
  value id hid n hn := (h'.value id (Nat.lt_of_lt_of_le hid h.size) n hn).trans (h.value id hid n hn)

end Writes

theorem writes_of_scopes_eq (scopes : s'.scopes = s.scopes)
    (closures : ∀ (id : Nat) (f : Closure), s.closures[id]? = some f → s'.closures[id]? = some f) :
    Writes written s s' :=
  ⟨later_of_scopes_eq scopes closures, fun _ _ _ _ => valueIn?_congr scopes⟩

theorem writes_define (hid : id < s.scopes.size) (v : Value) (h : written id name) :
    Writes written s (s.define id name v) := by
  refine ⟨later_define hid name v, fun other _ n hn => ?_⟩
  rw [valueIn?_define _ _ _ _ _ _ hid, if_neg]
  rintro ⟨rfl, rfl⟩
  exact hn h

theorem writes_addScope (s : Store) (scope : Scope) : Writes written s (s.addScope scope) := by
  refine ⟨later_addScope s scope, fun other hid n _ => ?_⟩
  have old : other ≠ s.nextScope := Nat.ne_of_lt hid
  rw [valueIn?_addScope, if_neg old]

theorem writes_addClosure (s : Store) (closure : Closure) : Writes written s (s.addClosure closure) :=
  writes_of_scopes_eq rfl fun _ _ hf => getElem?_push_of_some hf closure

theorem writes_addInstance (s : Store) (object : Instance) : Writes written s (s.addInstance object) :=
  writes_of_scopes_eq rfl fun _ _ h => h

theorem writes_setField (s : Store) (id : InstanceId) (name : String) (v : Value) :
    Writes written s (s.setField id name v) :=
  writes_of_scopes_eq rfl fun _ _ h => h

theorem writes_boundTo (s : Store) (method : Closure) (object : InstanceId) :
    Writes written s (s.boundTo method object).1 :=
  writes_addScope s _

/-! ## Depth -/

/-- A scope is at one depth only. -/
theorem depth_unique (last : s.parent? globalScope = none) {n n' : Nat} (h : s.ancestor? id n = some globalScope)
    (h' : s.ancestor? id n' = some globalScope) : n = n' := by
  have le {n n' : Nat} (h : s.ancestor? id n = some globalScope) (h' : s.ancestor? id n' = some globalScope) :
      n' ≤ n := by
    refine Nat.le_of_not_lt fun lt => ?_
    obtain ⟨k, rfl⟩ := Nat.exists_eq_add_of_lt lt
    rw [Nat.add_assoc, ancestor?_add, h] at h'
    cases (ancestor?_outermost last k).symm.trans h'
  exact Nat.le_antisymm (le h' h) (le h h')

/-- What is in sight from a scope, and from what is further in as well, is as much further out. -/
theorem ancestor?_between {inner outer : ScopeId} {n k : Nat} (near : s.ancestor? id n = some inner)
    (far : s.ancestor? id k = some outer) (le : n ≤ k) : s.ancestor? inner (k - n) = some outer := by
  have split := s.ancestor?_add id n (k - n)
  rwa [Nat.add_sub_cancel' le, far, near, Option.bind_some, eq_comm] at split

end Store

end Lox
