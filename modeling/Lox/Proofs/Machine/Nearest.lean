/-
Finding variables without the table. If the names mentioned in a program are settled, then the nearest scope that has a
variable is the one to which the table sends the use: the scopes further in do not have it, for they never will, and the
scope that the walk found has it already. So it makes no difference to a step which of the two places is used.
-/
import Lox.Proofs.Binding.Order
import Lox.Proofs.Machine.Steps

namespace Lox

/-! ## The nearest scope -/

namespace Store

variable {s : Store} {id outer : ScopeId} {name : String}

/-- One scope further out. -/
theorem target?_succ (link : s.parent? id = some outer) (distance : Option Nat) :
    s.target? id (.ofDistance? (distance.map (· + 1))) name = s.target? outer (.ofDistance? distance) name := by
  cases distance with
  | none => rfl
  | some d => simp [Place.ofDistance?, target?, ancestor?_succ, link]

theorem holder?_outer (h : s.Outward) (hb : s.binds id name = false) (link : s.parent? id = some outer) :
    s.holder? id name = s.holder? outer name := by
  simp [holder?_eq h id, hb, link]

theorem read?_congr {place place' : Place} (h : s.target? id place name = s.target? id place' name) :
    s.read? id place name = s.read? id place' name := by
  rw [read?, read?, h]

theorem write?_congr {place place' : Place} (h : s.target? id place name = s.target? id place' name) (v : Value) :
    s.write? id place name v = s.write? id place' name v := by
  rw [write?, write?, h]

end Store

namespace World

variable {statements : List Stmt} {w : World}

/-- The nearest scope that has a settled name is the innermost one that had it in the walk. -/
theorem Sound.target?_nearest (h : Sound statements w) {name : String} {scopes whole : List Declarations} {id : ScopeId}
    (planned : w.plan[id]? = some whole) (ready : w.store.Ready id scopes)
    (within : List.Forall₂ Declarations.Within scopes whole)
    (settled : List.Forall₂ (Declarations.Knows name) scopes whole) :
    w.store.target? id (.ofDistance? (scopes.findIdx? (·.contains name))) name = w.store.target? id .nearest name := by
  induction settled generalizing id with
  | nil =>
    cases h.only id planned
    rfl
  | @cons scope own scopes rest knows _ ih =>
    obtain ⟨ready, next, link, outer⟩ := ready
    obtain ⟨within, inner⟩ := List.forall₂_cons.1 within
    obtain ⟨names, parent, link', -, plannedNext⟩ := h.planned id own rest planned
    cases link.symm.trans link'
    cases hc : scope.contains name with
    | true =>
      have hb : w.store.binds id name = true := ready name (knows (within name hc))
      simp [List.findIdx?_cons, hc, Place.ofDistance?, Store.target?, Store.ancestor?, Store.holder?_self hb, hb]
    | false =>
      -- the scope will never have the name, or the walk would have found it there
      have hb : w.store.binds id name = false := by
        refine Bool.eq_false_iff.2 fun hb => ?_
        have : scope.contains name = true := (Bindings.contains_iff _ _).2 ⟨true, knows (names name hb)⟩
        rw [hc] at this
        cases this
      rw [List.findIdx?_cons, hc, if_neg (by decide), Store.target?_succ link, ih plannedNext outer inner]
      exact (Store.holder?_outer h.outward hb link).symm

end World

/-! ## Uses -/

variable {statements : List Stmt} {table : Table} {x : Stop}

/-- The word of a class is settled wherever it stands. -/
theorem Stop.Fits.knows_word (h : x.Fits) {name : String} (hn : ¬ Nameable name) :
    List.Forall₂ (Declarations.Knows name) x.walk.scopes x.whole :=
  h.worded.imp fun _ _ worded => worded name hn

theorem Stop.Settled.knows (h : x.Settled) {n : String} (hn : n ∈ x.code.mentions) (hd : n ∉ x.code.declared) :
    List.Forall₂ (Declarations.Knows n) x.walk.scopes x.whole := by
  have := h n hn
  rw [Stop.scopes_after] at this
  exact Declarations.knows_of_settle hd this

/-- The name of a use that is evaluated is settled. -/
theorem Stop.Evaluates.knows {e : Expr} (he : x.Evaluates e) (resolved : Resolved statements table)
    (orderly : Stmt.Orderly statements) (visits : Visits statements x) {use : UseId} {name : String}
    (hu : e.use? = some (use, name)) : List.Forall₂ (Declarations.Knows name) x.walk.scopes x.whole := by
  have settled := visits.settled resolved orderly
  have checked := resolved.checked visits
  rcases he with hc | ⟨cls, rs, hc⟩
  · cases e with
    | literal _ | unary _ _ | binary _ _ _ | logical _ _ _ | group _ | call _ _ _ | get _ _ | set _ _ _ => cases hu
    | ref id name =>
      cases hu
      refine settled.knows ?_ (by rw [hc]; exact List.not_mem_nil)
      rw [hc]
      exact List.mem_singleton_self _
    | assign id name value =>
      cases hu
      refine settled.knows ?_ (by rw [hc]; exact List.not_mem_nil)
      rw [hc]
      exact List.mem_cons_self
    | self id keyword =>
      cases hu
      exact checked.fits.knows_word fun h => h.1 rfl
    | super id keyword method =>
      cases hu
      exact checked.fits.knows_word fun h => h.2 rfl
  · obtain ⟨id, parent, rfl, -⟩ := checked.namesClass hc
    cases hu
    have other := checked.clean.other_superclass hc
    refine settled.knows ?_ (by rw [hc]; simpa [Code.declared, Stmt.declared] using other)
    rw [hc]
    exact List.mem_cons_self

namespace World

variable {w : World} {id : ScopeId}

/-- A use that is evaluated finds its variable in the nearest scope that has one. -/
theorem At.target?_use (place : At statements w id x) (sound : Sound statements w)
    (resolved : Resolved statements table) (orderly : Stmt.Orderly statements) {e : Expr} (he : x.Evaluates e)
    {use : UseId} {name : String} (hu : e.use? = some (use, name)) :
    w.store.target? id (table.place use) name = w.store.target? id .nearest name := by
  have knows := he.knows resolved orderly place.visits hu
  rw [table.place_eq, he.get?_use resolved place.visits hu]
  exact sound.target?_nearest place.planned place.ready (resolved.checked place.visits).fits.before knows

/-- The method of a superclass is found by way of the nearest `super` and the nearest `this`. -/
theorem At.superParts?_use {m : Machine} {plan : List (List Declarations)}
    (place : At statements ⟨plan, m.store⟩ m.scope x) (sound : Sound statements ⟨plan, m.store⟩)
    (resolved : Resolved statements table) (orderly : Stmt.Orderly statements) {use : UseId} {keyword method : Token}
    (hc : x.code = .expr (.super use keyword method)) :
    m.superParts? (table.place use) = m.superParts? .nearest := by
  have checked := resolved.checked place.visits
  obtain ⟨i, hi, hj⟩ := checked.super_at hc
  have entry : table.place use = .hops (i + 1) := by
    rw [table.place_eq, checked.clean.get?_use hc rfl, hj]
    rfl
  have super := place.target?_use sound resolved orderly (.inl hc) rfl
  have this := sound.target?_nearest place.planned place.ready checked.fits.before
    (checked.fits.knows_word fun h : Nameable thisName => h.1 rfl)
  rw [entry] at super
  rw [hi] at this
  have super : m.store.read? m.scope (.hops (i + 1)) superName = _ := Store.read?_congr super
  have this : m.store.read? m.scope (.hops i) thisName = _ := Store.read?_congr this
  simp only [Machine.superParts?, entry, Machine.thisPlace, Nat.add_sub_cancel, super, this]

end World

/-! ## Steps -/

namespace Machine

open World

variable {m : Machine}

/-- The place of every use in an interpreter that looks for variables in the nearest scopes. -/
def nearest : UseId → Place := fun _ => .nearest

theorem evaluate_nearest {plan : List (List Declarations)} (sound : Sound statements ⟨plan, m.store⟩)
    (resolved : Resolved statements table) (orderly : Stmt.Orderly statements) {e : Expr}
    (place : At statements ⟨plan, m.store⟩ m.scope x) (he : x.Evaluates e) :
    m.evaluate table.place e = m.evaluate nearest e := by
  have checked := resolved.checked place.visits
  have same {use : UseId} {name : String} (hu : e.use? = some (use, name)) :=
    Store.read?_congr (place.target?_use sound resolved orderly he hu)
  cases e with
  | literal _ | unary _ _ | binary _ _ _ | logical _ _ _ | group _ | call _ _ _ | get _ _ | set _ _ _
  | assign _ _ _ => rfl
  | ref id name =>
    show m.giveVariable (table.place id) name = m.giveVariable .nearest name
    rw [giveVariable, giveVariable, same rfl]
  | self id keyword =>
    obtain ⟨word, -⟩ := checked.this_at (he.code_eq checked fun _ _ h => by cases h)
    show m.giveVariable (table.place id) keyword = m.giveVariable .nearest keyword
    rw [giveVariable, giveVariable, word, same rfl]
  | super id keyword method =>
    have hc := he.code_eq checked fun _ _ h => by cases h
    show m.giveSuper (table.place id) keyword method = m.giveSuper .nearest keyword method
    rw [giveSuper, giveSuper, place.superParts?_use sound resolved orderly hc]

theorem receive_nearest {plan : List (List Declarations)} (sound : Sound statements ⟨plan, m.store⟩)
    (resolved : Resolved statements table) (orderly : Stmt.Orderly statements) {frame : Frame} {d d' : Demand}
    {id : ScopeId} (takes : Takes statements ⟨plan, m.store⟩ d m.scope frame d' id) (v : Value) :
    receive table.place m v frame = receive nearest m v frame := by
  cases frame with
  | assign use name =>
    obtain ⟨x, e, place, hc⟩ := takes.at_assign
    have same := place.target?_use sound resolved orderly (.inl hc) rfl
    show m.assignVariable (table.place use) name v = m.assignVariable .nearest name v
    rw [assignVariable, assignVariable, Store.write?_congr same]
  | _ => rfl

/-- A step with the table is a step without it. -/
theorem Conforms.step_nearest (resolved : Resolved statements table) (orderly : Stmt.Orderly statements)
    (h : Conforms statements m) : m.step table.place = m.step nearest := by
  obtain ⟨plan, d, ⟨sound, stacked⟩, gives⟩ := h
  obtain ⟨control, frames, scope, depth, store, sink⟩ := m
  cases control with
  | exec s => rfl
  | eval e =>
    obtain ⟨-, x, place, he⟩ := gives
    exact evaluate_nearest sound resolved orderly place he
  | value v =>
    cases stacked with
    | nil => rfl
    | @cons _ _ f d' id' rest takes below =>
      exact receive_nearest (m := ⟨.value v, rest, scope, depth, store, sink⟩) sound resolved orderly takes v
  | finished c => cases frames <;> rfl
  | failed e => cases frames <;> rfl

theorem Conforms.run_nearest (resolved : Resolved statements table) (orderly : Stmt.Orderly statements) (fuel : Nat)
    (h : Conforms statements m) : run table.place fuel m = run nearest fuel m := by
  induction fuel generalizing m with
  | zero => rfl
  | succ fuel ih =>
    rw [run, run, ih (h.step resolved), h.step_nearest resolved orderly]

end Machine

end Lox
