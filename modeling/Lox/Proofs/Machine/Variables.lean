/-
Finding variables while a program runs. What a place finds has a value of the right kind, and the scope to which
the table sends a use is there. A use whose declaration was complete when the walk came to it finds its variable
there; the only other uses are assignments to a variable inside its own initializer.
-/
import Lox.Proofs.Binding.Initial
import Lox.Proofs.Machine.Moves

namespace Lox

variable {statements : List Stmt} {table : Table} {x : Stop}

/-! ## Reading and writing -/

namespace Store

variable {s : Store}

theorem binds_of_holderFrom? {name : String} {found : ScopeId} :
    ∀ {fuel : Nat} {id : ScopeId}, s.holderFrom? name fuel id = some found → s.binds found name = true
  | 0, _, h => by cases h
  | fuel + 1, id, h => by
    unfold holderFrom? at h
    split at h
    · next hb =>
      cases h
      exact hb
    · obtain ⟨next, -, h⟩ := Option.bind_eq_some_iff.1 h
      exact binds_of_holderFrom? h

/-- A place finds a variable only in a scope that has it. -/
theorem binds_of_target? {current found : ScopeId} {place : Place} {name : String}
    (h : s.target? current place name = some found) : s.binds found name = true := by
  cases place with
  | hops distance => exact (Option.filter_eq_some_iff.1 h).2
  | globals | nearest => exact binds_of_holderFrom? h

theorem target?_hops {id place : ScopeId} {i : Nat} {name : String} (hp : s.ancestor? id i = some place)
    (hb : s.binds place name = true) : s.target? id (.hops i) name = some place := by
  simp only [target?, hp, Option.filter, hb, if_true]

end Store

namespace World

variable {w : World} {current : ScopeId}

theorem Sound.read? (h : Sound statements w) {place : Place} {name : String} {v : Value}
    (hr : w.store.read? current place name = some v) : Holds statements w v ∧ v.FitsWord name := by
  obtain ⟨id, -, hv⟩ := Option.bind_eq_some_iff.1 hr
  exact h.values id name v hv

/-- A variable that is there gets a value. -/
theorem Sound.assign (h : Sound statements w) {id : ScopeId} {name : String} {v : Value}
    (hb : w.store.binds id name = true) (hv : Holds statements w v) (hf : v.FitsWord name) :
    Grows w { w with store := w.store.define id name v } ∧
      Sound statements { w with store := w.store.define id name v } := by
  have hlt : id < w.store.scopes.size := by
    by_contra hge
    rw [Store.binds, Store.valueIn?_eq_none _ _ _ (Nat.le_of_not_lt hge)] at hb
    cases hb
  have hd : w.plan[id]? = some _ := List.getElem?_eq_getElem (h.size ▸ hlt)
  refine h.define hd (fun own outer e => ?_) ((h.grows_define hd name v).holds hv) hf
  exact (h.planned id own outer (hd.trans (congrArg some e))).1 name hb

theorem Sound.write? (h : Sound statements w) {place : Place} {name : String} {v : Value}
    (hv : Holds statements w v) (hf : v.FitsWord name) {s : Store}
    (hw : w.store.write? current place name v = some s) :
    Grows w { w with store := s } ∧ Sound statements { w with store := s } := by
  unfold Store.write? at hw
  split at hw
  · next id ht =>
    cases hw
    exact h.assign (Store.binds_of_target? ht) hv hf
  · cases hw

/-! ## Where the table sends a use -/

/-- The scope that the walk found for a name is there. -/
theorem At.ancestor {id : ScopeId} (h : At statements w id x) {name : String} {i : Nat}
    (hi : x.walk.scopes.findIdx? (·.contains name) = some i) :
    ∃ scope place, x.walk.scopes[i]? = some scope ∧ scope.contains name = true ∧
      w.store.ancestor? id i = some place ∧ (scope.get? name = some true → w.store.binds place name = true) := by
  obtain ⟨hlt, hc, -⟩ := List.findIdx?_eq_some_iff_getElem.1 hi
  obtain ⟨place, hp, hb⟩ := h.ready.ancestor (List.getElem?_eq_getElem hlt)
  exact ⟨_, place, List.getElem?_eq_getElem hlt, hc, hp, hb name⟩

end World

/-- The word of a class is complete wherever it is found. -/
theorem Stop.Fits.word (h : x.Fits) {name : String} (hn : ¬ Nameable name) {i : Nat} {scope : Declarations}
    (hi : x.walk.scopes[i]? = some scope) (hc : scope.contains name = true) : scope.get? name = some true := by
  obtain ⟨hlt, hs⟩ := List.getElem?_eq_some_iff.1 hi
  have hlt' : i < x.whole.length := h.length ▸ hlt
  have within := h.before.get hlt hlt'
  have worded := h.worded.get hlt hlt'
  simp only [List.get_eq_getElem, hs] at within worded
  exact worded name hn (within name hc)

namespace World

variable {w : World} {id : ScopeId}

/-- The word of a class is there where the walk found it. -/
theorem At.word (h : At statements w id x) (fits : x.Fits) {name : String} (hn : ¬ Nameable name) {i : Nat}
    (hi : x.walk.scopes.findIdx? (·.contains name) = some i) :
    ∃ place, w.store.ancestor? id i = some place ∧ w.store.binds place name = true := by
  obtain ⟨scope, place, hs, hc, hp, hb⟩ := h.ancestor hi
  exact ⟨place, hp, hb (fits.word hn hs hc)⟩

/-- The value of a name that a scope further out has. -/
theorem read?_hops {i : Nat} {place : ScopeId} {name : String} (hp : w.store.ancestor? id i = some place)
    (hb : w.store.binds place name = true) :
    ∃ v, w.store.read? id (.hops i) name = some v ∧ w.store.valueIn? place name = some v := by
  obtain ⟨v, hv⟩ := (Store.binds_iff _ _ _).1 hb
  refine ⟨v, ?_, hv⟩
  rw [Store.read?, Store.target?_hops hp hb]
  exact hv

end World

/-! ## Uses that are evaluated -/

namespace Stop

/-- The table has for a use that is evaluated at a stop the innermost open scope with its name. For a superclass,
which the walk comes to after the name of the class, that name makes no difference. -/
theorem Evaluates.get?_use {e : Expr} (he : x.Evaluates e) (resolved : Resolved statements table)
    (visits : Visits statements x) {use : UseId} {name : String} (hu : e.use? = some (use, name)) :
    table.get? use = x.walk.scopes.findIdx? (·.contains name) := by
  rcases he with hc | ⟨cls, rs, hc⟩
  · exact (resolved.checked visits).clean.get?_use hc hu
  · have checked := resolved.checked visits
    obtain ⟨id, parent, rfl, -⟩ := checked.namesClass hc
    cases hu
    have other : parent.lexeme ∉ [cls.lexeme] := by
      simpa using checked.clean.other_superclass hc
    obtain ⟨code, a, w, d⟩ := x
    cases hc
    -- the stop at the superclass comes after the name of the class, which is another one
    have := (resolved.checked (visits.part List.mem_cons_self)).clean.get?_use rfl rfl
    rw [this, Walk.scopes_checkSuperclass, Walk.scopes_introduce, findIdx?_settle other]

/-- A name that is used has a complete declaration where it is found, but for an assignment in the initializer of
its own variable. -/
theorem Evaluates.get?_name {e : Expr} (he : x.Evaluates e) (resolved : Resolved statements table)
    (visits : Visits statements x) {use : UseId} {name : String} (hu : e.use? = some (use, name))
    (other : ∀ target value, e = .assign use target value → use ∉ Stmt.ownWrites statements) {i : Nat}
    {scope : Declarations} (hi : x.walk.scopes[i]? = some scope) (hn : scope.contains name = true) :
    scope.get? name = some true := by
  have checked := resolved.checked visits
  rcases he with hc | ⟨cls, rs, hc⟩
  · cases e with
    | literal _ | unary _ _ | binary _ _ _ | logical _ _ _ | group _ | call _ _ _ | get _ _ | set _ _ _ => cases hu
    | ref id name =>
      cases hu
      exact checked.fits.get?_of_not_beingDeclared (checked.clean.not_beingDeclared hc) hi hn
    | assign id name value =>
      cases hu
      refine checked.fits.get?_of_not_beingDeclared ?_ hi hn
      exact Bool.eq_false_iff.2 fun hd => other _ _ rfl (visits.mem_ownWrites hc hd)
    | self id keyword =>
      cases hu
      exact checked.fits.word (fun h => h.1 rfl) hi hn
    | super id keyword method =>
      cases hu
      exact checked.fits.word (fun h => h.2 rfl) hi hn
  · exact checked.fits.complete (by rw [hc]; exact id) scope (List.mem_of_getElem? hi) name hn

end Stop

/-- The scope to which the table sends a use that is evaluated is there, and it has the variable, unless the use is an
assignment in the initializer of that variable. -/
theorem World.At.finds {w : World} {id : ScopeId} (place : At statements w id x) (resolved : Resolved statements table)
    {e : Expr} (he : x.Evaluates e) {use : UseId} {name : String} (hu : e.use? = some (use, name)) {d : Nat}
    (entry : table.get? use = some d) :
    ∃ found, w.store.ancestor? id d = some found ∧
      ((∀ target value, e = .assign use target value → use ∉ Stmt.ownWrites statements) →
        w.store.binds found name = true) := by
  rw [he.get?_use resolved place.visits hu] at entry
  obtain ⟨scope, found, hs, hc, hf, hb⟩ := place.ancestor entry
  exact ⟨found, hf, fun other => hb (he.get?_name resolved place.visits hu other hs hc)⟩

/-- A method of a subclass finds the superclass and its instance. -/
theorem Machine.superParts?_isSome {m : Machine} {plan : List (List Declarations)}
    (sound : World.Sound statements ⟨plan, m.store⟩) (place : World.At statements ⟨plan, m.store⟩ m.scope x)
    (checked : x.Checked table) {use : UseId} {keyword method : Token}
    (hc : x.code = .expr (.super use keyword method)) :
    ∃ cls object, m.superParts? (table.place use) = some (cls, object) := by
  obtain ⟨i, hi, hj⟩ := checked.super_at hc
  have entry := checked.clean.get?_use hc rfl
  obtain ⟨p, hp, hb⟩ := place.word checked.fits (fun h => h.1 rfl) hi
  obtain ⟨q, hq, hb'⟩ := place.word checked.fits (fun h => h.2 rfl) hj
  obtain ⟨v, hv, this⟩ := World.read?_hops hp hb
  obtain ⟨v', hv', super⟩ := World.read?_hops hq hb'
  obtain ⟨object, rfl⟩ := (sound.values p thisName v this).2.1 rfl
  obtain ⟨cls, rfl⟩ := (sound.values q superName v' super).2.2 rfl
  refine ⟨cls, object, ?_⟩
  have hplace : table.place use = .hops (i + 1) := by rw [Table.place, entry, hj]
  simp only [superParts?, hplace, thisPlace, Nat.add_sub_cancel]
  rw [show m.store.read? m.scope (.hops (i + 1)) superName = _ from hv',
    show m.store.read? m.scope (.hops i) thisName = _ from hv]

end Lox
