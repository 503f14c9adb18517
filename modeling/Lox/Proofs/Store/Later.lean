/-
From a store to a later one: scopes stay in the scopes around them and keep their variables, and functions stay. So what
is so many scopes out stays there, and a place that says how many finds its variable there.
-/
import Lox.Proofs.Store.Chain

namespace Lox

namespace Store

/-! ## Later stores -/

section

variable {s : Store}

/-- From a store to a later one: scopes stay where they are and keep their variables, and functions stay. -/
structure Later (s s' : Store) : Prop where
  parent : ∀ i j, s.parent? i = some j → s'.parent? i = some j
  binds : ∀ i n, s.binds i n = true → s'.binds i n = true
  closures : ∀ (id : Nat) (f : Closure), s.closures[id]? = some f → s'.closures[id]? = some f
  size : s.scopes.size ≤ s'.scopes.size

theorem Later.refl (s : Store) : Later s s :=
  ⟨fun _ _ h => h, fun _ _ h => h, fun _ _ h => h, Nat.le_refl _⟩

theorem Later.trans {s t u : Store} (h : Later s t) (h' : Later t u) : Later s u :=
  ⟨fun i j hj => h'.parent i j (h.parent i j hj), fun i n hb => h'.binds i n (h.binds i n hb),
    fun id f hf => h'.closures id f (h.closures id f hf), Nat.le_trans h.size h'.size⟩

theorem Later.ancestor {s s' : Store} (h : Later s s') {n : Nat} {i j : ScopeId} (hj : s.ancestor? i n = some j) :
    s'.ancestor? i n = some j := by
  induction n generalizing i with
  | zero => exact hj
  | succ n ih =>
    rw [ancestor?_succ] at hj ⊢
    obtain ⟨k, hk, hj⟩ := Option.bind_eq_some_iff.1 hj
    rw [h.parent i k hk]
    exact ih hj

theorem later_define {i : ScopeId} (hi : i < s.scopes.size) (n : String) (v : Value) : Later s (s.define i n v) := by
  refine ⟨fun k j hj => ?_, fun k m hm => ?_, fun _ _ h => h, Nat.le_of_eq (scopes_size_define s i n v).symm⟩
  · rw [parent?_define]
    exact hj
  · rw [binds_define _ _ _ _ _ _ hi, hm, Bool.or_true]

theorem later_addScope (s : Store) (scope : Scope) : Later s (s.addScope scope) := by
  refine ⟨fun i j hj => ?_, fun i n hn => ?_, fun _ _ h => h, ?_⟩
  · rw [parent?_addScope, if_neg, hj]
    rintro rfl
    rw [parent?_eq_none _ s.nextScope (Nat.le_refl _)] at hj
    cases hj
  · obtain ⟨v, hv⟩ := (binds_iff _ _ _).1 hn
    rw [binds_iff]
    refine ⟨v, ?_⟩
    rw [valueIn?_addScope, if_neg, hv]
    rintro rfl
    rw [valueIn?_eq_none _ s.nextScope _ (Nat.le_refl _)] at hv
    cases hv
  · rw [scopes_size_addScope]
    exact Nat.le_succ _

theorem later_of_scopes_eq {s' : Store} (h : s'.scopes = s.scopes)
    (closures : ∀ (id : Nat) (f : Closure), s.closures[id]? = some f → s'.closures[id]? = some f) : Later s s' := by
  refine ⟨fun i j hj => ?_, fun i n hn => ?_, closures, Nat.le_of_eq (by rw [h])⟩
  · rw [parent?_congr h, hj]
  · rw [binds_congr h, hn]

end

/-! ## Scopes with one variable -/

/-- A new scope with one variable. -/
def addWith (s : Store) (outer : ScopeId) (name : String) (v : Value) : Store :=
  (s.addScope ⟨some outer, .empty⟩).define s.nextScope name v

variable (s : Store) (outer : ScopeId) (name : String) (v : Value)

theorem nextScope_lt_addScope (scope : Scope) : s.nextScope < (s.addScope scope).scopes.size := by
  rw [scopes_size_addScope]
  exact Nat.lt_succ_self _

theorem nextScope_addWith : (s.addWith outer name v).nextScope = s.nextScope + 1 := by
  unfold addWith nextScope
  rw [scopes_size_define, scopes_size_addScope]

theorem later_addWith : Later s (s.addWith outer name v) :=
  (s.later_addScope _).trans (later_define (s.nextScope_lt_addScope _) name v)

theorem parent?_addWith : (s.addWith outer name v).parent? s.nextScope = some outer := by
  rw [addWith, parent?_define, parent?_addScope, if_pos rfl]

theorem valueIn?_addWith (i : ScopeId) (n : String) :
    (s.addWith outer name v).valueIn? i n =
      if i = s.nextScope then if n = name then some v else none else s.valueIn? i n := by
  rw [addWith, valueIn?_define _ _ _ _ _ _ (s.nextScope_lt_addScope _), valueIn?_addScope]
  by_cases hi : i = s.nextScope <;> simp [hi]

variable {s}

theorem read?_hops {i found : ScopeId} {d : Nat} {name : String} {v : Value} (ha : s.ancestor? i d = some found)
    (hv : s.valueIn? found name = some v) : s.read? i (.hops d) name = some v := by
  have hb : s.binds found name = true := (binds_iff _ _ _).2 ⟨v, hv⟩
  simp only [read?, target?, ha, Option.filter, hb, if_true, Option.bind_some, hv]

theorem write?_hops {i found : ScopeId} {d : Nat} {name : String} (ha : s.ancestor? i d = some found)
    (hb : s.binds found name = true) (v : Value) : s.write? i (.hops d) name v = some (s.define found name v) := by
  simp only [write?, target?, ha, Option.filter, hb, if_true]

theorem ancestor?_one {i outer : ScopeId} (h : s.parent? i = some outer) : s.ancestor? i 1 = some outer := by
  rw [ancestor?_succ, h]
  rfl

theorem ancestor?_next {i outer found : ScopeId} {d : Nat} (h : s.parent? i = some outer)
    (ha : s.ancestor? outer d = some found) : s.ancestor? i (d + 1) = some found := by
  rw [ancestor?_succ, h]
  exact ha

theorem ancestor?_last {i outer found : ScopeId} {d : Nat} (ha : s.ancestor? i d = some outer)
    (h : s.parent? outer = some found) : s.ancestor? i (d + 1) = some found := by
  rw [ancestor?_add, ha]
  exact ancestor?_one h

end Store

end Lox
