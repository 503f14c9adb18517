/-
The operations of a store keep its world sound and let it grow: variables that are planned, new scopes whose
variables are planned, and new functions, classes and instances.
-/
import Lox.Proofs.Machine.World

namespace Lox

namespace World

variable {statements : List Stmt} {w : World}

/-! ## Variables -/

theorem Sound.grows_define (h : Sound statements w) {id : ScopeId} {d : List Declarations}
    (hd : w.plan[id]? = some d) (n : String) (v : Value) :
    Grows w { w with store := w.store.define id n v } := by
  refine ⟨fun _ _ h => h, fun other outer ho => ?_, fun other m hm => ?_, fun _ _ h => h⟩
  · rw [Store.parent?_define]
    exact ho
  · rw [Store.binds_define _ _ _ _ _ _ (h.lt_size hd), hm, Bool.or_true]

/-- A variable that is planned for its scope gets a value. -/
theorem Sound.define (h : Sound statements w) {id : ScopeId} {d : List Declarations} {n : String} {v : Value}
    (hd : w.plan[id]? = some d) (planned : ∀ own outer, d = own :: outer → own.contains n = true)
    (hv : Holds statements { w with store := w.store.define id n v } v) (hf : v.FitsWord n) :
    Grows w { w with store := w.store.define id n v } ∧
      Sound statements { w with store := w.store.define id n v } := by
  have hlt := h.lt_size hd
  have grows := h.grows_define hd n v
  refine ⟨grows, ?_, ?_, h.only, ?_, ?_, ?_, ?_⟩
  · rw [Store.scopes_size_define]
    exact h.size
  · rw [Store.parent?_define]
    exact h.globals
  · intro other own outer ho
    obtain ⟨vars, next, hn, lt, hp⟩ := h.planned other own outer ho
    refine ⟨fun m hm => ?_, next, ?_, lt, hp⟩
    · rw [Store.binds_define _ _ _ _ _ _ hlt, Bool.or_eq_true, decide_eq_true_iff] at hm
      rcases hm with ⟨rfl, rfl⟩ | hm
      · cases hd.symm.trans ho
        exact planned own outer rfl
      · exact vars m hm
    · rw [Store.parent?_define]
      exact hn
  · intro other m x hx
    rw [Store.valueIn?_define _ _ _ _ _ _ hlt] at hx
    split at hx
    · next e =>
      obtain ⟨rfl, rfl⟩ := e
      cases hx
      exact ⟨hv, hf⟩
    · exact grows.holds_values (h.values other m x hx)
  · exact fun other i hi m x hx => grows.holds (h.fields other i hi m x hx)
  · intro other cls hc m method hm
    obtain ⟨c, x, hcl, hx⟩ := h.methods other cls hc m method hm
    exact ⟨c, x, hcl, grows.method hx⟩

/-! ## Scopes -/

/-- A world with one more scope. -/
def addScope (w : World) (d : List Declarations) (scope : Scope) : World :=
  ⟨w.plan ++ [d], w.store.addScope scope⟩

theorem Sound.planned_addScope (h : Sound statements w) (d : List Declarations) (scope : Scope) :
    (w.addScope d scope).plan[w.store.nextScope]? = some d := by
  rw [Store.nextScope, ← h.size]
  exact List.getElem?_concat_length

theorem grows_addScope (w : World) (d : List Declarations) (scope : Scope) : Grows w (w.addScope d scope) := by
  refine ⟨fun id e he => ?_, fun id outer ho => ?_, fun id m hm => ?_, fun _ _ h => h⟩
  · have := (List.getElem?_eq_some_iff.1 he).1
    rw [addScope, List.getElem?_append_left this, he]
  · rw [addScope, Store.parent?_addScope, if_neg, ho]
    rintro rfl
    rw [Store.parent?_eq_none _ w.store.nextScope (Nat.le_refl _)] at ho
    cases ho
  · obtain ⟨v, hv⟩ := (Store.binds_iff _ _ _).1 hm
    rw [Store.binds_iff]
    refine ⟨v, ?_⟩
    rw [addScope, Store.valueIn?_addScope, if_neg, hv]
    rintro rfl
    rw [Store.valueIn?_eq_none _ w.store.nextScope _ (Nat.le_refl _)] at hv
    cases hv

/-- A scope in another one is new, and its variables are planned. -/
theorem Sound.addScope (h : Sound statements w) {outer : ScopeId} (own : Declarations) {d : List Declarations}
    (vars : Bindings Value) (hd : w.plan[outer]? = some d)
    (planned : ∀ n, vars.contains n = true → own.contains n = true)
    (values : ∀ n v, vars.get? n = some v → Holds statements w v ∧ v.FitsWord n) :
    Sound statements (w.addScope (own :: d) ⟨some outer, vars⟩) := by
  have grows := w.grows_addScope (own :: d) ⟨some outer, vars⟩
  have new := h.planned_addScope (own :: d) ⟨some outer, vars⟩
  have hsize : w.plan.length = w.store.nextScope := h.size
  -- a planned scope is the new one, or it was planned before
  have old : ∀ (id : Nat) e, (w.addScope (own :: d) ⟨some outer, vars⟩).plan[id]? = some e →
      (id = w.store.nextScope ∧ e = own :: d) ∨ (id ≠ w.store.nextScope ∧ w.plan[id]? = some e) := by
    intro id e he
    by_cases hid : id = w.store.nextScope
    · subst hid
      exact .inl ⟨rfl, Option.some.inj (he.symm.trans new)⟩
    · refine .inr ⟨hid, ?_⟩
      have hlt := (List.getElem?_eq_some_iff.1 he).1
      simp only [World.addScope, List.length_append, List.length_singleton] at hlt
      rwa [World.addScope, List.getElem?_append_left (by omega)] at he
  have parent : ∀ id, id ≠ w.store.nextScope →
      (w.addScope (own :: d) ⟨some outer, vars⟩).store.parent? id = w.store.parent? id := fun id hid => by
    rw [World.addScope, Store.parent?_addScope, if_neg hid]
  have value : ∀ id n, id ≠ w.store.nextScope →
      (w.addScope (own :: d) ⟨some outer, vars⟩).store.valueIn? id n = w.store.valueIn? id n := fun id n hid => by
    rw [World.addScope, Store.valueIn?_addScope, if_neg hid]
  -- the global variables are not in the new scope
  have global : Store.globalScope ≠ w.store.nextScope := fun e => by
    have := h.lt_size h.globals.1
    rw [e] at this
    exact Nat.lt_irrefl _ this
  refine ⟨?_, ⟨grows.plan _ _ h.globals.1, ?_⟩, fun id hid => ?_, fun id own' outer' hid => ?_, fun id n v hv => ?_,
    fun id i hi n v hv => grows.holds (h.fields id i hi n v hv), fun id cls hc n m hm => ?_⟩
  · rw [World.addScope, Store.scopes_size_addScope, List.length_append, h.size]
    rfl
  · rw [parent _ global, h.globals.2]
  · rcases old id [] hid with ⟨-, e⟩ | ⟨-, hid⟩
    · cases e
    · exact h.only id hid
  · rcases old id _ hid with ⟨rfl, e⟩ | ⟨hne, hid⟩
    · cases e
      refine ⟨fun n hn => planned n ?_, outer, ?_, h.lt_size hd, grows.plan _ _ hd⟩
      · rw [Store.binds, World.addScope, Store.valueIn?_addScope, if_pos rfl] at hn
        exact hn
      · rw [World.addScope, Store.parent?_addScope, if_pos rfl]
    · obtain ⟨vars, next, hn, lt, hp⟩ := h.planned id own' outer' hid
      refine ⟨fun n hn => vars n ?_, next, by rw [parent id hne, hn], lt, grows.plan _ _ hp⟩
      rwa [Store.binds, value id n hne] at hn
  · by_cases hid : id = w.store.nextScope
    · subst hid
      rw [World.addScope, Store.valueIn?_addScope, if_pos rfl] at hv
      exact grows.holds_values (values n v hv)
    · rw [value id n hid] at hv
      exact grows.holds_values (h.values id n v hv)
  · obtain ⟨c, x, hcl, hx⟩ := h.methods id cls hc n m hm
    exact ⟨c, x, hcl, grows.method hx⟩

/-! ## Functions, classes and instances -/

/-- What a store keeps true if its scopes stay, and its functions too. -/
theorem Sound.sameScopes (h : Sound statements w) {s : Store} (hs : s.scopes = w.store.scopes)
    (hc : ∀ (id : Nat) (c : Closure), w.store.closures[id]? = some c → s.closures[id]? = some c)
    (hf : ∀ (id : Nat) (i : Instance), s.instances[id]? = some i →
      ∀ n v, i.fields.get? n = some v → Holds statements w v)
    (hm : ∀ (id : Nat) (cls : Class), s.classes[id]? = some cls →
      ∀ n m, cls.methods.get? n = some m → ∃ c x, w.store.closures[m]? = some c ∧ Method statements w c x) :
    Grows w { w with store := s } ∧ Sound statements { w with store := s } := by
  have grows : Grows w { w with store := s } := by
    refine ⟨fun _ _ h => h, fun id outer ho => ?_, fun id n hn => ?_, hc⟩
    · rw [Store.parent?_congr hs, ho]
    · rw [Store.binds_congr hs, hn]
  refine ⟨grows, by rw [hs]; exact h.size, by rw [Store.parent?_congr hs]; exact h.globals, h.only, ?_, ?_,
    fun id i hi n v hv => grows.holds (hf id i hi n v hv), fun id cls hcls n m hmeth => ?_⟩
  · intro id own outer hid
    obtain ⟨vars, next, hn, lt, hp⟩ := h.planned id own outer hid
    refine ⟨fun n hb => vars n ?_, next, by rw [Store.parent?_congr hs, hn], lt, hp⟩
    rwa [Store.binds_congr hs] at hb
  · intro id n v hv
    rw [Store.valueIn?_congr hs] at hv
    exact grows.holds_values (h.values id n v hv)
  · obtain ⟨c, x, hcl, hx⟩ := hm id cls hcls n m hmeth
    exact ⟨c, x, hc _ _ hcl, grows.method hx⟩

theorem closures_addClosure {s : Store} {c c' : Closure} {id : Nat} (h : s.closures[id]? = some c) :
    (s.addClosure c').closures[id]? = some c := by
  have hlt := (Array.getElem?_eq_some_iff.1 h).1
  rw [Store.addClosure, Array.getElem?_push, if_neg (by omega), h]

theorem Sound.addClosure (h : Sound statements w) (c : Closure) :
    Grows w { w with store := w.store.addClosure c } ∧ Sound statements { w with store := w.store.addClosure c } :=
  h.sameScopes rfl (fun _ _ => closures_addClosure) h.fields h.methods

theorem Sound.addClass (h : Sound statements w) (cls : Class)
    (hm : ∀ n m, cls.methods.get? n = some m → ∃ c x, w.store.closures[m]? = some c ∧ Method statements w c x) :
    Grows w { w with store := w.store.addClass cls } ∧ Sound statements { w with store := w.store.addClass cls } := by
  refine h.sameScopes rfl (fun _ _ h => h) h.fields fun id cls' hc => ?_
  rw [Store.addClass, Array.getElem?_push] at hc
  split at hc
  · cases hc
    exact hm
  · exact h.methods id cls' hc

theorem Sound.addInstance (h : Sound statements w) (cls : ClassId) :
    Grows w { w with store := w.store.addInstance ⟨cls, .empty⟩ } ∧
      Sound statements { w with store := w.store.addInstance ⟨cls, .empty⟩ } := by
  refine h.sameScopes rfl (fun _ _ h => h) (fun id i hi n v hv => ?_) h.methods
  rw [Store.addInstance, Array.getElem?_push] at hi
  split at hi
  · cases hi
    cases hv
  · exact h.fields id i hi n v hv

theorem Sound.setField (h : Sound statements w) (id : InstanceId) (name : String) {v : Value}
    (hv : Holds statements w v) :
    Grows w { w with store := w.store.setField id name v } ∧
      Sound statements { w with store := w.store.setField id name v } := by
  refine h.sameScopes rfl (fun _ _ h => h) (fun other i hi n x hx => ?_) h.methods
  rw [Store.setField, Array.getElem?_modify] at hi
  split at hi
  · obtain ⟨old, ho, rfl⟩ := Option.map_eq_some_iff.1 hi
    rw [Bindings.get?_set] at hx
    split at hx
    · cases hx
      exact hv
    · exact h.fields other old ho n x hx
  · exact h.fields other i hi n x hx

end World

end Lox
