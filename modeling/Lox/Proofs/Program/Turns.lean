/-
The turns of a loop over a variable in the run of a program. In each turn the body runs in a scope that was made for it,
with a copy of the variable (`Program.Turn.begins`). All these scopes are equally deep, and deeper than those of the
variable itself; so in none of the others the scope of a copy is in sight (`Program.Turn.unseen`).
-/
import Lox.Proofs.Machine.Nested
import Lox.Proofs.Machine.Passes
import Lox.Proofs.Program.Extended
import Lox.Proofs.Program.LockStep
import Lox.Proofs.Program.OneByOne
import Lox.Proofs.Program.PlainLoop
import Lox.Proofs.Program.Rooted

namespace Lox

/-! ## Loops over a variable -/

/-- A loop over a variable. -/
structure VarLoop where
  name : Token
  initial : Option Expr
  condition : Option Expr
  increment : Option Expr
  /-- From here on the uses are numbered that a pass has of its own. -/
  id : UseId
  body : Stmt

namespace VarLoop

variable (l : VarLoop)

/-- The loop as a statement. -/
def stmt : Stmt := ForLoop.copying l.name l.initial l.condition l.increment l.id l.body

/-- What is done in a turn of the loop before its last clause. -/
def pass : Stmt := ForLoop.pass l.id l.name l.body

/-- What is repeated in the loop. -/
def repeated : Stmt := ForLoop.withIncrement l.increment l.pass

/-- What is left to do of a turn after the pass: the last clause, if there is one, in a block in the scope `var` of the
variable, and then the next turn. -/
def waiting (var : ScopeId) : List Frame :=
  match l.increment with
  | none => [.again (ForLoop.test l.condition) l.repeated]
  | some e => [.sequence [.expression e], .leaveScope var, .again (ForLoop.test l.condition) l.repeated]

/-- How many steps there are from the decision for a turn to the pass. -/
def opening : Nat := if l.increment.isSome then 3 else 1

/-- How many scopes there are between a pass and the scope of the variable. -/
def far : Nat := ForLoop.scopesAround l.increment - 2

end VarLoop

/-- The uses that a pass has of its own find the variable around the pass, where the loop has declared it. -/
theorem Reached.copies {table : Table} {a : Surroundings} {w : Walk} {l : VarLoop}
    (h : Reached table a (.stmt l.stmt) w) (own : ForLoop.Sealed l.name l.body) : Copies table l.id (some l.far) :=
  (Reached.bodyOfLoop h own.other own.declares).1

/-! ## Callers -/

/-- Above the frames of a caller all scopes are given back. -/
theorem Caller.Stacked.foldl_outer {caller : Caller} :
    ∀ (above : List Frame) {d : Awaited} {scope : ScopeId} {depth : Nat},
      caller.Stacked d scope depth (above ++ caller.frames) →
        above.foldl (fun id f => f.outer id) scope = caller.scope
  | [], _, _, _, h => h.at_caller.2.1
  | f :: above, d, scope, depth, h => by
    rcases h.at_or_above with same | ⟨g, rest, d', same, -, below⟩
    · have length := congrArg List.length same
      simp only [List.cons_append, List.length_cons, List.length_append] at length
      omega
    · cases same
      exact below.foldl_outer above

/-- When a block has ended, the next step goes on with the frames below it. -/
theorem Machine.isBack_step {m : Machine} {place : UseId → Place} {outer : ScopeId} {frames : List Frame}
    (back : m.IsBack (.leaveScope outer :: frames)) (gives : m.control.Gives (.ending true)) :
    (m.step place).IsBack frames := by
  obtain ⟨control, _, scope, depth, store, sink⟩ := m
  obtain ⟨rfl, done⟩ := back
  cases control with
  | exec _ | eval _ => cases done
  | value _ => cases gives
  | finished _ | failed _ => exact ⟨rfl, rfl⟩

namespace Program

/-! ## Runs -/

section

variable (p : Program) (sink : Sink)

theorem goes_after (n : Nat) :
    (p.after sink n).Goes ((p.after sink n).Writing p.table.place) (p.after sink (n + 1)) := by
  rw [after_succ]
  exact Machine.goes_step _ (p.grounded_after sink n).scope

theorem later_after {n k : Nat} (h : n ≤ k) : (p.after sink n).store.Later (p.after sink k).store := by
  obtain ⟨d, rfl⟩ := Nat.exists_eq_add_of_le h
  rw [after_add]
  exact (Machine.extends_after _ _ d).store.later

/-- However far a program has run, the frames lead outwards. -/
theorem nested_after (n : Nat) : (p.after sink n).Nested := by
  induction n with
  | zero => exact ⟨trivial, trivial⟩
  | succ n ih => exact (p.goes_after sink n).nested ih

end

/-! ## Turns -/

/-- The statement that is started after `j` steps has not ended after `i`. -/
def Going (p : Program) (sink : Sink) (j i : Nat) : Prop :=
  j < i ∧ ∀ t, j < t → t ≤ i → ¬ (p.after sink t).IsBack (p.after sink j).frames

/-- The scope that the statement started after `j` steps opens first, if it is a block. For a loop over a variable it is
the scope of the variable. -/
def loopScope (p : Program) (sink : Sink) (j : Nat) : ScopeId := (p.after sink j).store.nextScope

/-- The scope of the copy in a pass that is started after `k` steps, the second scope that is opened then. -/
def passScope (p : Program) (sink : Sink) (k : Nat) : ScopeId := (p.after sink k).store.nextScope + 1

/-- What is left to do after a loop that is started after `j` steps has decided that it is over. -/
def afterLoop (p : Program) (sink : Sink) (j : Nat) : List Frame :=
  .sequence [] :: .leaveScope (p.after sink j).scope :: (p.after sink j).frames

/-- A loop that is started after `j` steps decides after `i` steps that it goes on. -/
structure Decides (p : Program) (sink : Sink) (l : VarLoop) (j i : Nat) : Prop where
  going : p.Going sink j i
  decided : ∃ v, (p.after sink i).control = .value v ∧ v.isTruthy = true
  frames : (p.after sink i).frames = .test (ForLoop.test l.condition) l.repeated :: p.afterLoop sink j

/-- A loop that is started after `j` steps starts a turn after `k` steps. -/
structure Turn (p : Program) (sink : Sink) (l : VarLoop) (j k : Nat) : Prop where
  loop : (p.after sink j).control = .exec l.stmt
  going : p.Going sink j k
  pass : (p.after sink k).control = .exec l.pass
  frames : (p.after sink k).frames = l.waiting (p.loopScope sink j) ++ p.afterLoop sink j

/-- The scopes in which a loop has its variable, whenever it is run, and those of the copies for all turns but one. -/
def Others (p : Program) (sink : Sink) (l : VarLoop) (k : Nat) (id : ScopeId) : Prop :=
  ∃ j' k', p.Turn sink l j' k' ∧ (id = p.loopScope sink j' ∨ k' ≠ k ∧ id = p.passScope sink k')

variable {p : Program} {sink : Sink} {l : VarLoop} {j k i : Nat}

/-- While a loop goes on, it is run for what is left to do after its block, in the scope of its variable. -/
theorem Going.runsFor (going : p.Going sink j i) (loop : (p.after sink j).control = .exec l.stmt) :
    (p.after sink i).RunsFor ⟨.ending true, .leaveScope (p.after sink j).scope :: (p.after sink j).frames,
      p.loopScope sink j, (p.after sink j).depth⟩ := by
  obtain ⟨lt, busy⟩ := going
  induction lt with
  | refl =>
    rw [Nat.succ_eq_add_one, after_succ, Machine.step_exec loop]
    exact ⟨.ending true, .cons (.sequence (Stmt.endsAll_true _)) .nil, .inr rfl⟩
  | @step i lt ih =>
    have runs := ih fun t ht le => busy t ht (Nat.le_succ_of_le le)
    rw [Nat.succ_eq_add_one, after_succ]
    refine Machine.runsFor_step runs fun back => ?_
    -- if the block had ended, the loop would end with the next step
    refine busy (i + 1) (Nat.lt_succ_of_lt lt) (Nat.le_refl _) ?_
    rw [after_succ]
    exact Machine.isBack_step back (runs.at_caller back.1).2.2

/-- As long as more is to be done than after a statement, it goes on. -/
theorem Going.extend (going : p.Going sink j i) (more : ∀ t, i < t → t ≤ k →
    (p.after sink j).frames.length < (p.after sink t).frames.length) (le : i ≤ k) : p.Going sink j k := by
  refine ⟨Nat.lt_of_lt_of_le going.1 le, fun t lt le' back => ?_⟩
  rcases Nat.lt_or_ge i t with past | before
  · exact absurd (congrArg List.length back.1) (Nat.ne_of_gt (more t past le'))
  · exact going.2 t lt before back

namespace Decides

variable (decides : p.Decides sink l j i)
include decides

/-- A loop decides in the scope of its variable. -/
theorem scope (loop : (p.after sink j).control = .exec l.stmt) : (p.after sink i).scope = p.loopScope sink j := by
  obtain ⟨d, owed, -⟩ := decides.going.runsFor loop
  unfold Caller.Owed at owed
  rw [decides.frames] at owed
  exact owed.foldl_outer [.test _ _, .sequence []]

/-- When the loop decides that it goes on, what is repeated comes next. -/
theorem repeats : p.after sink (i + 1) =
    { p.after sink i with
      control := .exec l.repeated
      frames := .again (ForLoop.test l.condition) l.repeated :: p.afterLoop sink j } := by
  obtain ⟨v, control, truthy⟩ := decides.decided
  rw [after_succ, Machine.step_value control decides.frames, Machine.receive, if_pos truthy]
  rfl

/-- Around the last clause there is a block. -/
theorem opens (loop : (p.after sink j).control = .exec l.stmt) {e : Expr} (last : l.increment = some e) :
    p.after sink (i + 2) =
      { p.after sink i with
        control := .finished .normal
        frames := .sequence [l.pass, .expression e] :: .leaveScope (p.loopScope sink j) ::
          .again (ForLoop.test l.condition) l.repeated :: p.afterLoop sink j
        scope := (p.after sink i).store.nextScope
        store := (p.after sink i).store.addScope ⟨some (p.loopScope sink j), .empty⟩ } := by
  have block : l.repeated = .block [l.pass, .expression e] := by
    rw [VarLoop.repeated, last]
    rfl
  have starts : (p.after sink (i + 1)).control = .exec (.block [l.pass, .expression e]) := by
    rw [decides.repeats, block]
  rw [after_succ, Machine.step_exec starts, decides.repeats, ← decides.scope loop]
  rfl

/-- When the loop decides that it goes on, it starts a turn. -/
theorem turn (loop : (p.after sink j).control = .exec l.stmt) : p.Turn sink l j (i + l.opening) := by
  have more (f : Frame) : (p.after sink j).frames.length < (f :: p.afterLoop sink j).length :=
    Nat.lt_succ_of_lt (Nat.lt_succ_of_lt (Nat.lt_succ_self _))
  unfold VarLoop.opening
  cases last : l.increment with
  | none =>
    have pass : l.repeated = l.pass := by
      rw [VarLoop.repeated, last]
      rfl
    refine ⟨loop, decides.going.extend (fun t lt le => ?_) (Nat.le_succ _), ?_, ?_⟩
    · obtain rfl : t = i + 1 := Nat.le_antisymm le lt
      rw [decides.repeats]
      exact more _
    · exact (congrArg Machine.control decides.repeats).trans (congrArg Control.exec pass)
    · refine (congrArg Machine.frames decides.repeats).trans ?_
      rw [VarLoop.waiting, last]
      rfl
  | some e =>
    have opens := decides.opens loop last
    have starts : p.after sink (i + 3) =
        { p.after sink (i + 2) with
          control := .exec l.pass
          frames := .sequence [.expression e] :: .leaveScope (p.loopScope sink j) ::
            .again (ForLoop.test l.condition) l.repeated :: p.afterLoop sink j } := by
      rw [after_succ, opens]
      rfl
    refine ⟨loop, decides.going.extend (fun t lt le => ?_) (Nat.le_add_right _ _), ?_, ?_⟩
    · have le : t ≤ i + 3 := le
      obtain rfl | rfl | rfl : t = i + 1 ∨ t = i + 2 ∨ t = i + 3 := by omega
      · rw [decides.repeats]
        exact more _
      · rw [opens]
        exact Nat.lt_succ_of_lt (Nat.lt_succ_of_lt (more _))
      · rw [starts]
        exact Nat.lt_succ_of_lt (Nat.lt_succ_of_lt (more _))
    · exact congrArg Machine.control starts
    · refine (congrArg Machine.frames starts).trans ?_
      rw [VarLoop.waiting, last]
      rfl

end Decides

namespace Turn

variable (turn : p.Turn sink l j k)
include turn

/-- The scope of the variable is so many scopes out from the one where the pass starts. -/
theorem toVar : (p.after sink k).store.ancestor? (p.after sink k).scope l.far = some (p.loopScope sink j) := by
  obtain ⟨d, owed, -⟩ := turn.going.runsFor turn.loop
  have nested := p.nested_after sink k
  unfold Caller.Owed at owed
  unfold Machine.Nested at nested
  have frames := turn.frames
  unfold VarLoop.waiting at frames
  unfold VarLoop.far
  cases hi : l.increment with
  | none =>
    rw [hi] at frames
    rw [frames] at owed
    have scope := owed.foldl_outer [.again _ _, .sequence []]
    exact congrArg some scope
  | some e =>
    rw [hi] at frames
    rw [frames] at nested
    exact Store.ancestor?_one nested.2.1

/-- The scope of the variable was made when the loop started. -/
theorem loopScope_lt : p.loopScope sink j < (p.after sink k).store.scopes.size := by
  have later := (p.later_after sink turn.going.1).size
  refine Nat.lt_of_lt_of_le ?_ later
  rw [Nat.succ_eq_add_one, after_succ, Machine.step_exec turn.loop]
  exact (p.after sink j).store.nextScope_lt_addScope _

/-- In a turn that is started later the copy is in a later scope. -/
theorem passScope_lt {k' : Nat} (h : k < k') : p.passScope sink k < p.passScope sink k' := by
  have later := (p.later_after sink h).size
  rw [Nat.succ_eq_add_one, after_succ, Machine.step_exec turn.pass] at later
  exact Nat.succ_lt_succ (Nat.lt_of_lt_of_le ((p.after sink k).store.nextScope_lt_addScope _) later)

end Turn

section

variable {source : String} {program : Program}

theorem Turn.copies (accepted : Program.ofSource source = .ok program) (turn : program.Turn sink l j k) :
    Copies program.table l.id (some l.far) := by
  have code : (program.after sink j).control.code? = some (.stmt l.stmt) := by
    rw [turn.loop]
    rfl
  obtain ⟨⟨x, visits, hx, -⟩, -⟩ := (program.lock_step accepted sink j).1 _ code
  obtain ⟨_, a, w, d⟩ := x
  cases hx
  have reached : Reached program.table a (.stmt l.stmt) w := ⟨d, (resolved_of_ofSource accepted).checked visits⟩
  refine reached.copies ((program.keepsSlot accepted).sealed _ ?_ l.id l.name l.body rfl)
  exact visits.within ForLoop.mem_within_copying

/-- In a turn the body starts in a new scope, with the value that the variable has at that moment. -/
theorem Turn.begins (accepted : Program.ofSource source = .ok program) (turn : program.Turn sink l j k) :
    ∃ v, (program.after sink k).store.valueIn? (program.loopScope sink j) l.name.lexeme = some v ∧
      program.after sink (k + 12) =
        { program.after sink k with
          control := .exec l.body
          frames := ForLoop.copyingBack l.id l.name (program.after sink k).store.nextScope (program.after sink k).scope ++
            (program.after sink k).frames
          scope := program.passScope sink k
          store := ((program.after sink k).store.addWith (program.after sink k).scope ForLoop.slotName v).addWith
            (program.after sink k).store.nextScope l.name.lexeme v } := by
  have copies := turn.copies accepted
  have toVar := turn.toVar
  have bound : (program.after sink k).store.binds (program.loopScope sink j) l.name.lexeme = true := by
    have conforms := program.conforms_after accepted sink k
    have lt := turn.loopScope_lt
    have pass := turn.pass
    generalize program.after sink k = m at conforms toVar lt pass
    obtain ⟨control, frames, scope, depth, store, out⟩ := m
    cases pass
    exact conforms.binds_variable (resolved_of_ofSource accepted) copies toVar lt
  obtain ⟨v, hv⟩ := (Store.binds_iff _ _ _).1 bound
  refine ⟨v, hv, ?_⟩
  rw [after_add]
  have pass := turn.pass
  unfold passScope
  generalize program.after sink k = m at toVar hv pass
  obtain ⟨control, frames, scope, depth, store, out⟩ := m
  cases pass
  exact Machine.iterate_pass copies toVar hv

/-- From the start of the body on, the scopes of the pass are what they are. -/
theorem Turn.passScopes (accepted : Program.ofSource source = .ok program) (turn : program.Turn sink l j k)
    (h : k + 12 ≤ i) :
    (program.after sink i).store.PassScopes program.table l.id l.name (program.passScope sink k)
      (program.after sink k).store.nextScope (program.after sink k).scope (program.loopScope sink j) := by
  obtain ⟨v, hv, begun⟩ := turn.begins accepted
  have later := program.later_after sink h
  rw [begun] at later
  exact later.passScopes (Store.passScopes_addWith (turn.copies accepted) turn.toVar hv).1

/-! ## Depths -/

/-- Wherever the passes of a loop are started, there are equally many scopes around. -/
theorem exists_depth (accepted : Program.ofSource source = .ok program) (sink : Sink) (l : VarLoop) :
    ∃ h, ∀ j k, program.Turn sink l j k →
      (program.after sink k).store.ancestor? (program.after sink k).scope h = some Store.globalScope := by
  by_cases some_ : ∃ j k, program.Turn sink l j k
  · obtain ⟨j, k, turn⟩ := some_
    have code {j k : Nat} (turn : program.Turn sink l j k) :
        (program.after sink k).control.code? = some (.stmt l.pass) := by
      rw [turn.pass]
      rfl
    obtain ⟨⟨x, visits, hx, -⟩, -⟩ := (program.lock_step accepted sink k).1 _ (code turn)
    refine ⟨x.whole.length, fun j' k' turn' => ?_⟩
    -- the walk came to the pass only once
    have uses : (Code.stmt l.pass).uses ≠ [] := nofun
    have inStep := (((program.lock_step accepted sink k').1 _ (code turn')).2 x visits hx uses).1
    obtain ⟨place, reach, rest⟩ := inStep.chain.ancestor (Nat.le_refl _)
    rw [List.drop_length] at rest
    cases rest
    exact reach
  · exact ⟨0, fun j k turn => absurd ⟨j, k, turn⟩ some_⟩

/-- From the scopes in which the loop has its variable, and from those of the copies for other turns, the scope of the
copy for a turn is not in sight. -/
theorem Turn.unseen (accepted : Program.ofSource source = .ok program) (turn : program.Turn sink l j k) {id : ScopeId}
    (other : program.Others sink l k id) (i d : Nat) :
    (program.after sink i).store.ancestor? id d ≠ some (program.passScope sink k) := by
  intro sight
  obtain ⟨j', k', turn', place⟩ := other
  obtain ⟨h, depth⟩ := program.exists_depth accepted sink l
  -- everything is still there at some later moment
  let T := i + (k + 12) + (k' + 12)
  have stays {t : Nat} (le : t ≤ T) {id found : ScopeId} {n : Nat}
      (reach : (program.after sink t).store.ancestor? id n = some found) :
      (program.after sink T).store.ancestor? id n = some found :=
    (program.later_after sink le).ancestor reach
  have last : (program.after sink T).store.parent? Store.globalScope = none :=
    (program.grounded_after sink T).store.parent?_globalScope
  have copy {j k : Nat} (turn : program.Turn sink l j k) (le : k + 12 ≤ T) :
      (program.after sink T).store.ancestor? (program.passScope sink k) (h + 2) = some Store.globalScope := by
    have scopes := turn.passScopes accepted le
    have outside := stays (by omega) (depth j k turn)
    exact Store.ancestor?_next scopes.inSlot (Store.ancestor?_next scopes.around outside)
  have outer := copy turn (by omega)
  have whole : (program.after sink T).store.ancestor? id (d + (h + 2)) = some Store.globalScope := by
    rw [Store.ancestor?_add, stays (by omega) sight]
    exact outer
  rcases place with rfl | ⟨ne, rfl⟩
  · -- the scope of the variable is around the pass
    have reach := stays (by omega) turn'.toVar
    have le : l.far + (d + (h + 2)) = h := by
      refine Store.depth_unique last ?_ (stays (by omega) (depth j' k' turn'))
      rw [Store.ancestor?_add, reach]
      exact whole
    omega
  · have same := Store.depth_unique last whole (copy turn' (by omega))
    obtain rfl : d = 0 := by omega
    have copies : program.passScope sink k' = program.passScope sink k := Option.some.inj sight
    rcases Nat.lt_or_gt_of_ne ne with lt | lt
    · exact absurd copies (Nat.ne_of_lt (turn'.passScope_lt lt))
    · exact absurd copies (Nat.ne_of_gt (turn.passScope_lt lt))

end

end Program

end Lox
