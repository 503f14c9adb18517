/-
The scopes of a running program and those of the walk before it are in lock step. Wherever a part of the program
starts, the chain from the current scope outwards has one scope for each that was open when the walk came to the
part, in the same order, and then the global variables; and a scope of the chain has only variables that the
scope of the walk declares. So the distance in the table leads to the scope that the walk chose.
-/
import Lox.Proofs.Binding.Single
import Lox.Proofs.Program.Run

namespace Lox

/-- The scopes from `id` outwards are one for each of these scopes of the walk, in the same order, and then come the
global variables. Each has only variables that its scope of the walk declares. -/
inductive Store.LockStep (s : Store) : ScopeId → List Declarations → Prop
  | globals (last : s.parent? globalScope = none) : LockStep s globalScope []
  | inner {id outer : ScopeId} {own : Declarations} {rest : List Declarations} (link : s.parent? id = some outer)
      (names : ∀ n, s.binds id n = true → own.contains n = true) (tail : LockStep s outer rest) :
    LockStep s id (own :: rest)

/-- What the scopes open at a stop hold when they are closed is in lock step with the current scope, and it is what
they held when the walk came to the stop and maybe more. -/
structure Machine.InStep (m : Machine) (x : Stop) : Prop where
  chain : m.store.LockStep m.scope x.whole
  opened : List.Forall₂ Declarations.Within x.walk.scopes x.whole

/-- The table sends a use at a stop to the scope that the walk chose for its name: the innermost open one that had
the name, or the global variables. -/
structure Machine.Reaches (table : Table) (m : Machine) (x : Stop) (use : UseId) (name : String) : Prop where
  chosen : table.get? use = x.walk.scopes.findIdx? (·.contains name)
  there : ∀ d, table.get? use = some d →
    ∃ place, m.store.ancestor? m.scope d = some place ∧ m.store.LockStep place (x.whole.drop d)

theorem World.Sound.lockStep {statements : List Stmt} {w : World} (h : Sound statements w) :
    ∀ {d : List Declarations} {id : ScopeId}, w.plan[id]? = some d → w.store.LockStep id d
  | [], id, hd => by
    cases h.only id hd
    exact .globals h.globals.2
  | own :: rest, id, hd => by
    obtain ⟨names, next, link, -, planned⟩ := h.planned id own rest hd
    exact .inner link names (h.lockStep planned)

/-- Further out the scopes are in lock step too. -/
theorem Store.LockStep.ancestor {s : Store} :
    ∀ {d : Nat} {id : ScopeId} {scopes : List Declarations}, s.LockStep id scopes → d ≤ scopes.length →
      ∃ place, s.ancestor? id d = some place ∧ s.LockStep place (scopes.drop d)
  | 0, id, _, h, _ => ⟨id, rfl, h⟩
  | d + 1, id, _ :: rest, .inner link _ tail, hd => by
    obtain ⟨place, hp, h⟩ := tail.ancestor (Nat.le_of_succ_le_succ hd)
    exact ⟨place, by rw [ancestor?_succ, link]; exact hp, h⟩

section

variable {source : String} {program : Program} {x : Stop}

theorem Machine.InStep.reaches {m : Machine} {table : Table} (h : m.InStep x) (clean : x.Clean table) {e : Expr}
    (hc : x.code = .expr e) {use : UseId} {name : String} (hu : e.use? = some (use, name)) :
    m.Reaches table x use name := by
  have chosen := clean.get?_use hc hu
  refine ⟨chosen, fun d hd => h.chain.ancestor ?_⟩
  rw [chosen] at hd
  have := (List.findIdx?_eq_some_iff_getElem.1 hd).1
  rw [h.opened.length_eq] at this
  exact Nat.le_of_lt this

/-- At every moment when a part of an accepted program starts, the walk came to that part with as many scopes open as
there are scopes around the current one, in lock step with them. If the part has a use of a variable, then the walk
came to it just once; and if it is itself a use, then the table leads to the scope that the walk chose. So it does
when an assignment has got its value. -/
theorem Program.lock_step (accepted : Program.ofSource source = .ok program) (sink : Sink) (n : Nat) :
    (∀ code, (program.after sink n).control.code? = some code →
      (∃ x, Visits program.statements x ∧ x.code = code ∧ (program.after sink n).InStep x) ∧
        ∀ x, Visits program.statements x → x.code = code → code.uses ≠ [] →
          (program.after sink n).InStep x ∧
            ∀ e use name, code = .expr e → e.use? = some (use, name) →
              (program.after sink n).Reaches program.table x use name) ∧
      ∀ use name v, (program.after sink n).assigning? = some (use, name, v) →
        ∃ x e, Visits program.statements x ∧ x.code = .expr (.assign use name e) ∧
          (program.after sink n).InStep x ∧ (program.after sink n).Reaches program.table x use name.lexeme := by
  have resolved := resolved_of_ofSource accepted
  obtain ⟨plan, d, ⟨sound, stacked⟩, gives⟩ := program.conforms_after accepted sink n
  have inStep : ∀ {x : Stop}, Visits program.statements x → plan[(program.after sink n).scope]? = some x.whole →
      (program.after sink n).InStep x :=
    fun visits planned => ⟨sound.lockStep planned, (resolved.checked visits).fits.before⟩
  constructor
  · intro code hc
    obtain ⟨x, visits, hx, planned⟩ := gives.exists_stop hc
    refine ⟨⟨x, visits, hx, inStep visits planned⟩, fun y visitsY hy uses => ?_⟩
    -- uses are numbered apart, so the walk came to this part only once
    cases visits.eq_of_code_eq resolved visitsY (hx.trans hy.symm) (hx ▸ uses)
    refine ⟨inStep visits planned, fun e use name he hu => ?_⟩
    exact (inStep visits planned).reaches (resolved.checked visits).clean (hx.trans he) hu
  · intro use name v hv
    obtain ⟨-, rest, hf⟩ := Machine.assigning?_eq hv
    rw [hf] at stacked
    obtain ⟨_, _, takes, -⟩ := stacked.top
    obtain ⟨x, e, place, hc⟩ := takes.at_assign
    have step := inStep place.visits place.planned
    exact ⟨x, e, place.visits, hc, step, step.reaches (resolved.checked place.visits).clean hc rfl⟩

/-- In a method, at the word `this`. -/
theorem Program.lock_step_this :
    ∃ program use e x,
      Program.ofSource "\x7b class A \x7b m() \x7b print this; \x7d \x7d A().m(); \x7d" = .ok program ∧
        (program.after .unlimited 16).control = .eval e ∧ e.use? = some (use, thisName) ∧
        Visits program.statements x ∧ x.code = .expr e ∧ (program.after .unlimited 16).InStep x ∧
        (program.after .unlimited 16).Reaches program.table x use thisName := by
  have ran : (Program.ofSource "\x7b class A \x7b m() \x7b print this; \x7d \x7d A().m(); \x7d").toOption.any
      (fun p => (p.after .unlimited 16).control.use?.any (·.2 == thisName)) = true := by decide +kernel
  obtain ⟨program, accepted, ran⟩ := Program.exists_ofSource ran
  obtain ⟨⟨use, name⟩, hu, hn⟩ := (Option.any_eq_true _ _).1 ran
  cases (beq_iff_eq.1 hn : name = thisName)
  obtain ⟨e, hc, hu⟩ := Control.use?_eq hu
  have code : (program.after .unlimited 16).control.code? = some (.expr e) := by
    rw [hc]
    rfl
  obtain ⟨⟨x, visits, hx, step⟩, every⟩ := (program.lock_step accepted .unlimited 16).1 _ code
  obtain ⟨-, reaches⟩ := every x visits hx (List.ne_nil_of_mem (Expr.mem_uses hu))
  exact ⟨program, use, e, x, accepted, hc, hu, visits, hx, step, reaches e _ _ rfl hu⟩

end

end Lox
