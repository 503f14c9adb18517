/-
What the operations of a store do to scopes: which scope is around which, and what variables they have. A chain
of scopes leads outwards to smaller numbers, so that the search for a variable sees the whole chain
(`holder?_eq`).
-/
import Lox.Machine.Store

namespace Lox

namespace Store

variable (s : Store) (id other : ScopeId) (name : String)

/-! ## New scopes and variables -/

theorem scopes_size_addScope (scope : Scope) : (s.addScope scope).scopes.size = s.scopes.size + 1 := by
  simp [addScope]

theorem getElem?_addScope (scope : Scope) :
    (s.addScope scope).scopes[id]? = if id = s.nextScope then some scope else s.scopes[id]? := by
  exact Array.getElem?_push

theorem parent?_addScope (scope : Scope) :
    (s.addScope scope).parent? id = if id = s.nextScope then scope.parent else s.parent? id := by
  unfold parent?
  rw [getElem?_addScope]
  split <;> rfl

theorem valueIn?_addScope (scope : Scope) :
    (s.addScope scope).valueIn? id name =
      if id = s.nextScope then scope.bindings.get? name else s.valueIn? id name := by
  unfold valueIn?
  rw [getElem?_addScope]
  split <;> rfl

@[simp] theorem parent?_define (v : Value) : (s.define other name v).parent? id = s.parent? id := by
  unfold parent? define
  rw [Array.getElem?_modify]
  split
  · cases s.scopes[id]? <;> rfl
  · rfl

theorem scopes_size_define (v : Value) : (s.define id name v).scopes.size = s.scopes.size := by
  simp [define]

theorem valueIn?_define (v : Value) (m : String) (h : other < s.scopes.size) :
    (s.define other name v).valueIn? id m = if id = other ∧ m = name then some v else s.valueIn? id m := by
  unfold valueIn? define
  rw [Array.getElem?_modify]
  by_cases hid : id = other
  · subst hid
    simp [h]
  · simp [hid, Ne.symm hid]

theorem binds_define (v : Value) (m : String) (h : other < s.scopes.size) :
    (s.define other name v).binds id m = (decide (id = other ∧ m = name) || s.binds id m) := by
  unfold binds
  rw [valueIn?_define s id other name v m h]
  split <;> simp [*]

theorem binds_iff : s.binds id name = true ↔ ∃ v, s.valueIn? id name = some v := Option.isSome_iff_exists

/-- A scope that is not there has no variables. -/
theorem valueIn?_eq_none (h : s.scopes.size ≤ id) : s.valueIn? id name = none := by
  simp [valueIn?, h]

theorem parent?_eq_none (h : s.scopes.size ≤ id) : s.parent? id = none := by
  simp [parent?, h]

/-! ## The chain outwards -/

/-- Whether scopes are younger than those around them. -/
def Outward (s : Store) : Prop := ∀ id outer : Nat, s.parent? id = some outer → outer < id

variable {s id name}

theorem Outward.define (h : s.Outward) (id : ScopeId) (name : String) (v : Value) : (s.define id name v).Outward :=
  fun inner outer link => h inner outer ((parent?_define s inner id name v).symm.trans link)

theorem Outward.addScope (h : s.Outward) (hid : id < s.scopes.size) (vars : Bindings Value) :
    (s.addScope ⟨some id, vars⟩).Outward := by
  intro inner outer link
  rw [parent?_addScope] at link
  split at link
  · next new =>
    cases link
    exact new ▸ hid
  · exact h inner outer link

theorem holderFrom?_eq (h : s.Outward) :
    ∀ (id fuel : Nat), id < fuel → s.holderFrom? name fuel id = s.holderFrom? name (id + 1) id := by
  intro id
  induction id using Nat.strongRecOn with
  | _ id ih =>
    intro fuel hf
    obtain ⟨fuel, rfl⟩ : ∃ k, fuel = k + 1 := ⟨fuel - 1, by omega⟩
    unfold holderFrom?
    split
    · rfl
    · cases hp : s.parent? id with
      | none => rfl
      | some outer =>
        have := h id outer hp
        simp only [Option.bind_some]
        rw [ih outer this fuel (by omega), ih outer this id this]

/-- The nearest scope with a variable is the scope itself, or else the nearest from the scope around it on. -/
theorem holder?_eq (h : s.Outward) (id : ScopeId) (name : String) :
    s.holder? id name =
      if s.binds id name = true then some id else (s.parent? id).bind fun outer => s.holder? outer name := by
  unfold holder?
  rw [holderFrom?]
  split
  · rfl
  · cases hp : s.parent? id with
    | none => rfl
    | some outer => exact holderFrom?_eq h outer id (h id outer hp)

theorem holder?_self (h : s.binds id name = true) : s.holder? id name = some id := by
  unfold holder?
  rw [holderFrom?, if_pos h]

theorem ancestor?_succ (id : ScopeId) (n : Nat) :
    s.ancestor? id (n + 1) = (s.parent? id).bind fun outer => s.ancestor? outer n := rfl

theorem ancestor?_add (id : ScopeId) (n k : Nat) :
    s.ancestor? id (n + k) = (s.ancestor? id n).bind fun outer => s.ancestor? outer k := by
  induction n generalizing id with
  | zero =>
    rw [Nat.zero_add]
    rfl
  | succ n ih =>
    rw [Nat.succ_add, ancestor?_succ, ancestor?_succ, Option.bind_assoc]
    congr 1
    funext outer
    exact ih outer

/-- Around a scope that is the outermost there is no other one. -/
theorem ancestor?_outermost {id : ScopeId} (h : s.parent? id = none) (n : Nat) : s.ancestor? id (n + 1) = none := by
  rw [ancestor?_succ, h]
  rfl

theorem lt_size_of_parent? {id outer : ScopeId} (h : s.parent? id = some outer) : id < s.scopes.size := by
  refine Nat.lt_of_not_le fun hge => ?_
  rw [parent?_eq_none _ _ hge] at h
  cases h

theorem lt_size_of_binds {i : ScopeId} {n : String} (h : s.binds i n = true) : i < s.scopes.size := by
  refine Nat.lt_of_not_le fun hge => ?_
  rw [binds, valueIn?_eq_none _ _ _ hge] at h
  cases h

/-! ## Stores with the same scopes -/

variable {s' : Store}

theorem parent?_congr (h : s'.scopes = s.scopes) : s'.parent? id = s.parent? id := by
  unfold parent?
  rw [h]

theorem valueIn?_congr (h : s'.scopes = s.scopes) : s'.valueIn? id name = s.valueIn? id name := by
  unfold valueIn?
  rw [h]

theorem binds_congr (h : s'.scopes = s.scopes) : s'.binds id name = s.binds id name := by
  unfold binds
  rw [valueIn?_congr h]

theorem Outward.congr (outward : s.Outward) (h : s'.scopes = s.scopes) : s'.Outward :=
  fun inner outer link => outward inner outer ((parent?_congr h).symm.trans link)

end Store

/-! ## Places -/

/-- The place of a variable that is this many scopes out, or else global. -/
def Place.ofDistance? : Option Nat → Place
  | some distance => .hops distance
  | none => .globals

theorem Table.place_eq (table : Table) (use : UseId) : table.place use = .ofDistance? (table.get? use) := by
  unfold place Place.ofDistance?
  cases table.get? use <;> rfl

end Lox
