/-
Uses that have an entry in the table find their variables. When the word `this` or a variable is read, the scope at
the distance in the table is there and has it, so that the read does not fail. When a variable is assigned to, the
scope is there too; and the scope has the variable, unless the assignment stands in the initializer of that, for the
walk before the run asks only of reads that they do not come too early (`own_write_fails`).
-/
import Lox.Proofs.Program.Run

namespace Lox

namespace Machine

/-- The scope at this distance from the current one has this value under the name. -/
def HasAt (m : Machine) (d : Nat) (name : String) (v : Value) : Prop :=
  ∃ place, m.store.ancestor? m.scope d = some place ∧ m.store.valueIn? place name = some v

/-- What a machine that runs statements makes of a use with this entry in the table, if the use is evaluated just now,
or if it is an assignment that has got its value. -/
structure Finds (statements : List Stmt) (table : Table) (m : Machine) (use : UseId) (d : Nat) : Prop where
  ref : ∀ name, m.control = .eval (.ref use name) →
    ∃ v, m.HasAt d name.lexeme v ∧ (m.step table.place).control = .value v
  self : ∀ keyword, m.control = .eval (.self use keyword) →
    ∃ v, m.HasAt d keyword.lexeme v ∧ (m.step table.place).control = .value v
  assign : ∀ name value, m.control = .eval (.assign use name value) →
    ∃ place, m.store.ancestor? m.scope d = some place ∧
      (use ∉ Stmt.ownWrites statements → m.store.binds place name.lexeme = true)
  write : ∀ name v, m.assigning? = some (use, name, v) →
    ∃ place, m.store.ancestor? m.scope d = some place ∧
      (use ∉ Stmt.ownWrites statements → m.store.binds place name.lexeme = true ∧
        (m.step table.place).control = .value v ∧
        (m.step table.place).store = m.store.define place name.lexeme v)

variable {statements : List Stmt} {table : Table} {m : Machine} {place : UseId → Place}

/-! ## One step -/

theorem step_exec {s : Stmt} (h : m.control = .exec s) : m.step place = m.execute s := by
  obtain ⟨control, frames, scope, depth, store, sink⟩ := m
  cases h
  rfl

theorem step_eval {e : Expr} (h : m.control = .eval e) : m.step place = m.evaluate place e := by
  obtain ⟨control, frames, scope, depth, store, sink⟩ := m
  cases h
  rfl

theorem step_value {v : Value} {frame : Frame} {rest : List Frame} (h : m.control = .value v)
    (hf : m.frames = frame :: rest) : m.step place = receive place { m with frames := rest } v frame := by
  obtain ⟨control, frames, scope, depth, store, sink⟩ := m
  cases h
  cases hf
  rfl

theorem control_giveVariable {v : Value} {p : Place} {name : Token}
    (h : m.store.read? m.scope p name.lexeme = some v) : (m.giveVariable p name).control = .value v := by
  rw [giveVariable, h]
  rfl

theorem assignVariable_eq {v : Value} {p : Place} {name : Token} {found : ScopeId}
    (h : m.store.target? m.scope p name.lexeme = some found) :
    m.assignVariable p name v = { m with store := m.store.define found name.lexeme v }.give v := by
  rw [assignVariable, Store.write?, h]

/-- A machine that conforms makes of a use with an entry in the table what `Finds` says. -/
theorem Conforms.finds (resolved : Resolved statements table) (h : Conforms statements m) {use : UseId} {d : Nat}
    (entry : table.get? use = some d) : m.Finds statements table use d := by
  obtain ⟨plan, demand, ⟨sound, stacked⟩, gives⟩ := h
  have sent : table.place use = .hops d := by rw [Table.place, entry]
  have found {e : Expr} {name : String} (he : m.control = .eval e) (hu : e.use? = some (use, name)) :
      ∃ place, m.store.ancestor? m.scope d = some place ∧
        ((∀ target value, e = .assign use target value → use ∉ Stmt.ownWrites statements) →
          m.store.binds place name = true) := by
    rw [he] at gives
    obtain ⟨-, x, place, evaluates⟩ := gives
    exact place.finds resolved evaluates hu entry
  have read {e : Expr} {name : Token} (he : m.control = .eval e) (hu : e.use? = some (use, name.lexeme))
      (noWrite : ∀ target value, e ≠ .assign use target value)
      (reads : m.evaluate table.place e = m.giveVariable (table.place use) name) :
      ∃ v, m.HasAt d name.lexeme v ∧ (m.step table.place).control = .value v := by
    obtain ⟨place, hp, hb⟩ := found he hu
    have hb := hb fun target value h => absurd h (noWrite target value)
    obtain ⟨v, hr, hv⟩ := World.read?_hops (w := ⟨plan, m.store⟩) hp hb
    refine ⟨v, ⟨place, hp, hv⟩, ?_⟩
    rw [step_eval he, reads, sent]
    exact control_giveVariable hr
  constructor
  case ref =>
    intro name he
    exact read he rfl (fun _ _ h => by cases h) rfl
  case self =>
    intro keyword he
    have word : keyword.lexeme = thisName := by
      rw [he] at gives
      obtain ⟨-, x, place, evaluates⟩ := gives
      have checked := resolved.checked place.visits
      exact (checked.this_at (evaluates.code_eq checked fun _ _ h => by cases h)).1
    exact read he (by rw [word]; rfl) (fun _ _ h => by cases h) rfl
  case assign =>
    intro name value he
    obtain ⟨place, hp, hb⟩ := found he rfl
    exact ⟨place, hp, fun other => hb fun _ _ _ => other⟩
  case write =>
    intro name v hw
    obtain ⟨hv, rest, hf⟩ := assigning?_eq hw
    rw [hf] at stacked
    obtain ⟨_, _, takes, -⟩ := stacked.top
    -- the frame stands at the stop of the assignment, whose scopes are still ready
    obtain ⟨x, e, stands, hc⟩ := takes.at_assign
    obtain ⟨place, hp, hb⟩ := stands.finds resolved (.inl hc) rfl entry
    refine ⟨place, hp, fun other => ?_⟩
    have hb := hb fun _ _ _ => other
    have moved :
        m.step table.place = { m with frames := rest, store := m.store.define place name.lexeme v }.give v := by
      rw [step_value hv hf, receive, sent]
      exact assignVariable_eq (Store.target?_hops hp hb)
    rw [moved]
    exact ⟨hb, rfl, rfl⟩

end Machine

/-! ## Runs -/

section

variable {source : String} {program : Program}

/-- Wherever the run of an accepted program comes to, a use with an entry in the table finds its variable there, but
for an assignment in the initializer of that variable, which finds the scope. -/
theorem Program.finds_local (accepted : Program.ofSource source = .ok program) (sink : Sink) (n : Nat) {use : UseId}
    {d : Nat} (entry : program.table.get? use = some d) :
    (program.after sink n).Finds program.statements program.table use d :=
  (program.conforms_after accepted sink n).finds (resolved_of_ofSource accepted) entry

/-- In a function that assigns to a variable of the block around it. -/
theorem Program.finds_local_outer :
    ∃ program use name,
      Program.ofSource "\x7b var a; fun f() \x7b a = true; \x7d f(); \x7d" = .ok program ∧
        program.table.get? use = some 1 ∧ (program.after .unlimited 15).assigning? = some (use, name, .bool true) ∧
        (program.after .unlimited 15).Finds program.statements program.table use 1 ∧
        use ∉ Stmt.ownWrites program.statements ∧
        ((program.after .unlimited 15).step program.table.place).control = .value (.bool true) := by
  have ran : (Program.ofSource "\x7b var a; fun f() \x7b a = true; \x7d f(); \x7d").toOption.any
      (fun p => (p.after .unlimited 15).assigning?.any fun (use, _, v) =>
        decide (v = .bool true ∧ p.table.get? use = some 1 ∧ use ∉ Stmt.ownWrites p.statements)) = true := by
    decide +kernel
  obtain ⟨program, accepted, ran⟩ := Program.exists_ofSource ran
  obtain ⟨⟨use, name, v⟩, hw, ran⟩ := (Option.any_eq_true _ _).1 ran
  obtain ⟨rfl, entry, other⟩ := of_decide_eq_true ran
  have finds := program.finds_local accepted .unlimited 15 entry
  obtain ⟨_, -, found⟩ := finds.write name _ hw
  exact ⟨program, use, name, accepted, entry, hw, finds, other, (found other).2.1⟩

/-- An assignment in the initializer of its own variable has an entry, but the scope does not have the variable, and
the program fails. -/
theorem Program.own_write_fails :
    ∃ program use name,
      Program.ofSource "\x7b var a = a = nil; \x7d" = .ok program ∧ program.table.get? use = some 0 ∧
        (program.after .unlimited 6).assigning? = some (use, name, .nil) ∧ name.lexeme = "a" ∧
        (program.after .unlimited 6).store.binds (program.after .unlimited 6).scope "a" = false ∧
        (program.after .unlimited 7).failure? = some (.runtime ⟨.undefinedVariable "a", name⟩) := by
  have ran : (Program.ofSource "\x7b var a = a = nil; \x7d").toOption.any
      (fun p => (p.after .unlimited 6).assigning?.any fun (use, name, v) =>
        decide (v = .nil ∧ p.table.get? use = some 0 ∧ name.lexeme = "a" ∧
          (p.after .unlimited 6).store.binds (p.after .unlimited 6).scope "a" = false ∧
          (p.after .unlimited 7).failure? = some (.runtime ⟨.undefinedVariable "a", name⟩))) = true := by
    decide +kernel
  obtain ⟨program, accepted, ran⟩ := Program.exists_ofSource ran
  obtain ⟨⟨use, name, v⟩, hw, ran⟩ := (Option.any_eq_true _ _).1 ran
  obtain ⟨rfl, entry, called, unbound, failed⟩ := of_decide_eq_true ran
  exact ⟨program, use, name, accepted, entry, hw, called, unbound, failed⟩

end

end Lox
