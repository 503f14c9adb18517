/-
The small moves of a machine keep it conforming: going on with a value or after a statement, failing, starting
a part for which a frame waits, and giving the current scope a variable that the walk found declared there.
-/
import Lox.Proofs.Machine.Frames

namespace Lox

variable {statements : List Stmt} {table : Table} {plan : List (List Declarations)} {d : Demand} {m : Machine}
  {x y : Stop}

/-! ## Scopes that are ready -/

theorem Store.Ready.settle {s : Store} {id : ScopeId} {scopes : List Declarations} {names : List String}
    (h : s.Ready id scopes) (hn : ∀ n ∈ names, s.binds id n = true) : s.Ready id (settle names scopes) := by
  cases scopes with
  | nil => trivial
  | cons scope outer =>
    obtain ⟨own, rest⟩ := h
    refine ⟨fun n hc => ?_, rest⟩
    rw [Declarations.get?_complete] at hc
    split at hc
    · next hmem => exact hn n hmem
    · exact own n hc

/-- The start of a declaration asks for no more than was ready before. -/
theorem Store.Ready.declare {s : Store} {id : ScopeId} {w : Walk} (h : s.Ready id w.scopes) (name : Token) :
    s.Ready id (w.declare name).scopes := by
  obtain hs | ⟨scope, outer, hw, hs⟩ := w.scopes_declare name
  · rwa [hs]
  · rw [hw] at h
    rw [hs]
    refine ⟨fun n hn => h.1 n ?_, h.2⟩
    rw [Bindings.get?_set] at hn
    split at hn
    · cases hn
    · exact hn

theorem Store.Ready.ancestor {s : Store} :
    ∀ {scopes : List Declarations} {id : ScopeId} {i : Nat} {scope : Declarations},
      s.Ready id scopes → scopes[i]? = some scope →
      ∃ place, s.ancestor? id i = some place ∧ ∀ n, scope.get? n = some true → s.binds place n = true
  | scope :: _, id, 0, _, h, hi => by
    cases hi
    exact ⟨id, rfl, h.1⟩
  | _ :: outer, id, i + 1, scope, ⟨_, next, hn, h⟩, hi => by
    obtain ⟨place, hp, hb⟩ := h.ancestor (i := i) hi
    exact ⟨place, by rw [ancestor?_succ, hn]; exact hp, hb⟩

namespace World

variable {w : World} {id : ScopeId}

/-- A part in the same scopes can run where the whole can. -/
theorem At.part (h : At statements w id x) (hy : y ∈ x.parts) (scopes : y.walk.scopes = x.walk.scopes)
    (whole : y.whole = x.whole) : At statements w id y :=
  ⟨h.visits.part hy, by rw [whole]; exact h.planned, by rw [scopes]; exact h.ready⟩

/-- Of two parts of which the first is an expression, the second can run where the whole can. -/
theorem At.second {code rest : Code} {a : Surroundings} {walk : Walk} {d : List Declarations} {e : Expr}
    (h : At statements w id ⟨code, a, walk, d⟩)
    (parts : Stop.parts ⟨code, a, walk, d⟩ = [⟨.expr e, a, walk, d⟩, ⟨rest, a, e.walk a.home walk, d⟩]) :
    At statements w id ⟨rest, a, e.walk a.home walk, d⟩ :=
  h.part (parts ▸ List.mem_cons_of_mem _ (List.mem_singleton_self _)) (e.scopes_walk _ _) rfl

end World

namespace Machine

open World

/-! ## Going on -/

theorem Owes.give (h : Owes statements plan .value m) {v : Value} (hv : Holds statements ⟨plan, m.store⟩ v) :
    Conforms statements (m.give v) := ⟨plan, .value, ⟨h.sound, h.stacked⟩, rfl, hv⟩

theorem Owes.finish {b : Body} {scopes : List Declarations} (h : Owes statements plan (.ending b scopes) m)
    {c : Completion} (hc : Ends statements ⟨plan, m.store⟩ b scopes m.scope c) : Conforms statements (m.finish c) :=
  ⟨plan, _, ⟨h.sound, h.stacked⟩, b, scopes, rfl, hc⟩

/-- A statement that declares nothing ends. -/
theorem Owes.done (h : Owes statements plan x.ending m) (place : At statements ⟨plan, m.store⟩ m.scope x)
    (none : x.code.declared = []) : Conforms statements (m.finish .normal) := by
  refine Owes.finish h ?_
  show m.store.Ready m.scope x.after.scopes
  rw [Stop.scopes_after, none, settle_nil]
  exact place.ready

theorem Owes.fail (h : Owes statements plan d m) {fault : RuntimeFault} (site : Token)
    (hs : fault ≠ .superOutsideClass) (ho : ∀ lexeme, fault ≠ .unknownOperator lexeme) :
    Conforms statements (m.fail fault site) := ⟨plan, d, ⟨h.sound, h.stacked⟩, hs, ho⟩

/-! ## Starting a part -/

theorem Owes.eval (h : Owes statements plan .value m) (place : At statements ⟨plan, m.store⟩ m.scope x) {e : Expr}
    (he : x.Evaluates e) : Conforms statements { m with control := .eval e } :=
  ⟨plan, .value, ⟨h.sound, h.stacked⟩, rfl, x, place, he⟩

theorem Owes.exec (h : Owes statements plan x.ending m) (place : At statements ⟨plan, m.store⟩ m.scope x) {s : Stmt}
    (hs : x.code = .stmt s) : Conforms statements { m with control := .exec s } :=
  ⟨plan, x.ending, ⟨h.sound, h.stacked⟩, x, place, hs, rfl⟩

/-- A frame more, which takes what is demanded from now on. -/
theorem Owes.push (h : Owes statements plan d m) {d' : Demand} (frame : Frame)
    (takes : Takes statements ⟨plan, m.store⟩ d' m.scope frame d m.scope) :
    Owes statements plan d' { m with frames := frame :: m.frames } := ⟨h.sound, .cons takes h.stacked⟩

theorem Owes.await (h : Owes statements plan d m) (place : At statements ⟨plan, m.store⟩ m.scope x) {e : Expr}
    (he : x.Evaluates e) {frame : Frame} (takes : Takes statements ⟨plan, m.store⟩ .value m.scope frame d m.scope) :
    Conforms statements (m.await e frame) :=
  ⟨plan, .value, ⟨h.sound, .cons takes h.stacked⟩, rfl, x, place, he⟩

theorem Owes.perform (h : Owes statements plan d m) (place : At statements ⟨plan, m.store⟩ m.scope x) {s : Stmt}
    (hs : x.code = .stmt s) {frame : Frame}
    (takes : Takes statements ⟨plan, m.store⟩ x.ending m.scope frame d m.scope) :
    Conforms statements (m.perform s frame) :=
  ⟨plan, x.ending, ⟨h.sound, .cons takes h.stacked⟩, x, place, hs, rfl⟩

/-! ## Changing the store -/

theorem Owes.grow (h : Owes statements plan d m) {plan' : List (List Declarations)} {s : Store}
    (grown : Grows ⟨plan, m.store⟩ ⟨plan', s⟩ ∧ Sound statements ⟨plan', s⟩) :
    Owes statements plan' d { m with store := s } := ⟨grown.2, grown.1.stacked h.stacked⟩

/-- A declaration that consists of giving its name a value ends. -/
theorem Owes.declare (h : Owes statements plan x.ending m) (place : At statements ⟨plan, m.store⟩ m.scope x)
    (checked : x.Checked table) {n : String} (hn : x.code.declared = [n]) {v : Value}
    (hv : Holds statements ⟨plan, m.store.define m.scope n v⟩ v) :
    Conforms statements ((m.defineHere n v).finish .normal) := by
  have mem : n ∈ x.code.declared := by rw [hn]; exact List.mem_singleton_self n
  have grown := h.sound.define place.planned (fun _ _ hw => checked.fits.declared mem hw) hv
    (Value.fitsWord_of_nameable (checked.formed.declared n mem) v)
  refine Owes.finish (h.grow grown) ?_
  show (m.store.define m.scope n v).Ready m.scope x.after.scopes
  rw [Stop.scopes_after, hn]
  refine (grown.1.at place).ready.settle fun k hk => ?_
  cases List.mem_singleton.1 hk
  rw [Store.binds_define _ _ _ _ _ _ (h.sound.lt_size place.planned)]
  simp

end Machine

end Lox
