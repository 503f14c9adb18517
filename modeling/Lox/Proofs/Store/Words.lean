/-
From one store to a later one (`KeepsWords`): scopes stay in the scopes around them, functions and classes stay as they
are, and no scope gets one of the words of classes after it was made. So what is found outwards from a scope under
such a word never changes.
-/
import Lox.Proofs.Store.Chain
import Lox.Proofs.Tree.Code

namespace Lox

namespace Store

/-- From one store to a later one. -/
structure KeepsWords (s s' : Store) : Prop where
  size : s.scopes.size ≤ s'.scopes.size
  parent : ∀ id < s.scopes.size, s'.parent? id = s.parent? id
  /-- Variables change, but not what the words of classes stand for. -/
  words : ∀ id < s.scopes.size, ∀ n, ¬ Nameable n → s'.valueIn? id n = s.valueIn? id n
  closures : ∀ (id : ClosureId) (c : Closure), s.closures[id]? = some c → s'.closures[id]? = some c
  classes : ∀ (id : ClassId) (cls : Class), s.classes[id]? = some cls → s'.classes[id]? = some cls

variable {s s' s'' : Store} {id found : ScopeId} {name : String}

namespace KeepsWords

theorem refl (s : Store) : s.KeepsWords s :=
  ⟨Nat.le_refl _, fun _ _ => rfl, fun _ _ _ _ => rfl, fun _ _ h => h, fun _ _ h => h⟩

theorem trans (h : s.KeepsWords s') (h' : s'.KeepsWords s'') : s.KeepsWords s'' where
  size := Nat.le_trans h.size h'.size
  parent id hid := (h'.parent id (Nat.lt_of_lt_of_le hid h.size)).trans (h.parent id hid)
  words id hid n hn := (h'.words id (Nat.lt_of_lt_of_le hid h.size) n hn).trans (h.words id hid n hn)
  closures id c hc := h'.closures id c (h.closures id c hc)
  classes id cls hc := h'.classes id cls (h.classes id cls hc)

theorem binds (h : s.KeepsWords s') (hid : id < s.scopes.size) (hn : ¬ Nameable name) :
    s'.binds id name = s.binds id name := by
  unfold Store.binds
  rw [h.words id hid name hn]

end KeepsWords

/-! ## Outwards from a scope -/

/-- A scope that is around another is in the store if that is. -/
theorem Outward.lt_size (h : s.Outward) (hid : id < s.scopes.size) {outer : ScopeId}
    (link : s.parent? id = some outer) : outer < s.scopes.size := Nat.lt_trans (h id outer link) hid

theorem le_of_holderFrom? (h : s.Outward) :
    ∀ {fuel : Nat} {id : ScopeId}, s.holderFrom? name fuel id = some found → found ≤ id
  | 0, _, hf => by cases hf
  | fuel + 1, id, hf => by
    unfold holderFrom? at hf
    split at hf
    · cases hf
      exact Nat.le_refl _
    · obtain ⟨outer, link, hf⟩ := Option.bind_eq_some_iff.1 hf
      exact Nat.le_trans (le_of_holderFrom? h hf) (Nat.le_of_lt (h id outer link))

/-- What is found outwards from a scope is no younger than that. -/
theorem le_of_holder? (h : s.Outward) (hf : s.holder? id name = some found) : found ≤ id := le_of_holderFrom? h hf

namespace KeepsWords

theorem holderFrom? (h : s.KeepsWords s') (outward : s.Outward) (hn : ¬ Nameable name) :
    ∀ (fuel : Nat) {id : ScopeId}, id < s.scopes.size → s'.holderFrom? name fuel id = s.holderFrom? name fuel id
  | 0, _, _ => rfl
  | fuel + 1, id, hid => by
    unfold Store.holderFrom?
    rw [h.binds hid hn, h.parent id hid]
    cases link : s.parent? id with
    | none => rfl
    | some outer =>
      rw [Option.bind_some, Option.bind_some, h.holderFrom? outward hn fuel (outward.lt_size hid link)]

/-- The nearest scope with a word of classes stays the nearest. -/
theorem holder? (h : s.KeepsWords s') (outward : s.Outward) (hn : ¬ Nameable name) (hid : id < s.scopes.size) :
    s'.holder? id name = s.holder? id name := h.holderFrom? outward hn _ hid

theorem ancestor? (h : s.KeepsWords s') (outward : s.Outward) :
    ∀ (n : Nat) {id : ScopeId}, id < s.scopes.size → s'.ancestor? id n = s.ancestor? id n
  | 0, _, _ => rfl
  | n + 1, id, hid => by
    rw [ancestor?_succ, ancestor?_succ, h.parent id hid]
    cases link : s.parent? id with
    | none => rfl
    | some outer => exact h.ancestor? outward n (outward.lt_size hid link)

end KeepsWords

/-! ## Operations -/

theorem keepsWords_define (v : Value) (hid : id < s.scopes.size) (hn : Nameable name) :
    s.KeepsWords (s.define id name v) where
  size := Nat.le_of_eq (scopes_size_define s id name v).symm
  parent other _ := parent?_define s other id name v
  words other _ n hw := by
    rw [valueIn?_define s other id name v n hid, if_neg]
    rintro ⟨-, rfl⟩
    exact hw hn
  closures _ _ h := h
  classes _ _ h := h

theorem keepsWords_addScope (s : Store) (scope : Scope) : s.KeepsWords (s.addScope scope) where
  size := by rw [scopes_size_addScope]; exact Nat.le_succ _
  parent id hid := (parent?_addScope s id scope).trans (if_neg (Nat.ne_of_lt hid))
  words id hid n _ := (valueIn?_addScope s id n scope).trans (if_neg (Nat.ne_of_lt hid))
  closures _ _ h := h
  classes _ _ h := h

theorem keepsWords_addClosure (s : Store) (closure : Closure) : s.KeepsWords (s.addClosure closure) where
  size := Nat.le_refl _
  parent _ _ := rfl
  words _ _ _ _ := rfl
  closures id c h := by
    have := (Array.getElem?_eq_some_iff.1 h).1
    rw [addClosure, Array.getElem?_push, if_neg (Nat.ne_of_lt this), h]
  classes _ _ h := h

theorem keepsWords_addClass (s : Store) (cls : Class) : s.KeepsWords (s.addClass cls) where
  size := Nat.le_refl _
  parent _ _ := rfl
  words _ _ _ _ := rfl
  closures _ _ h := h
  classes id c h := by
    have := (Array.getElem?_eq_some_iff.1 h).1
    rw [addClass, Array.getElem?_push, if_neg (Nat.ne_of_lt this), h]

theorem keepsWords_addInstance (s : Store) (object : Instance) : s.KeepsWords (s.addInstance object) :=
  ⟨Nat.le_refl _, fun _ _ => rfl, fun _ _ _ _ => rfl, fun _ _ h => h, fun _ _ h => h⟩

theorem keepsWords_setField (s : Store) (id : InstanceId) (name : String) (v : Value) :
    s.KeepsWords (s.setField id name v) :=
  ⟨Nat.le_refl _, fun _ _ => rfl, fun _ _ _ _ => rfl, fun _ _ h => h, fun _ _ h => h⟩

end Store

end Lox
