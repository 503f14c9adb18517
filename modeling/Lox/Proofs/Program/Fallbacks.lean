/-
What the checks before a run rule out. A `return` is always inside a call, the words `this` and `super` find what
they stand for, operators are known, and an initializer gives back its instance and nothing else. The runtime has
an answer for each of these cases, and never gives it.
-/
import Lox.Proofs.Program.Run

namespace Lox

/-- The function whose body gives back a value just now, if one does, and the value. -/
def Machine.returning? (m : Machine) : Option (Closure × Value) :=
  match m.control, m.frames with
  | .finished (.returned v), .body closure _ :: _ => some (closure, v)
  | _, _ => none

theorem Machine.returning?_eq {m : Machine} {closure : Closure} {v : Value}
    (h : m.returning? = some (closure, v)) :
    m.control = .finished (.returned v) ∧ ∃ caller rest, m.frames = .body closure caller :: rest := by
  unfold returning? at h
  split at h
  · next hc hf =>
    cases h
    exact ⟨hc, _, _, hf⟩
  · cases h

/-- What a running program that was checked does not come to. -/
structure Machine.Guarded (table : Table) (m : Machine) : Prop where
  /-- A value that is given back is on its way to the end of a body, and not to that of the program. -/
  returns : ∀ v, m.control = .finished (.returned v) → ∃ closure caller, .body closure caller ∈ m.frames
  faults : ∀ e, m.control = .failed (.runtime e) →
    e.fault ≠ .superOutsideClass ∧ ∀ lexeme, e.fault ≠ .unknownOperator lexeme
  this : ∀ use keyword, m.control = .eval (.self use keyword) →
    ∃ object, m.store.read? m.scope (table.place use) keyword.lexeme = some (.object object)
  /-- An initializer that runs has an instance. -/
  instance_ : ∀ closure caller, .body closure caller ∈ m.frames → closure.initializer = true →
    ∃ object, m.store.valueIn? closure.scope thisName = some (.object object)
  initializer : ∀ closure v, m.returning? = some (closure, v) → closure.initializer = true → v = .nil

variable {statements : List Stmt} {w : World}

/-! ## Frames -/

theorem World.Stacked.mem {d : Demand} {id : ScopeId} {frames : List Frame} (h : Stacked statements w d id frames)
    {f : Frame} (hf : f ∈ frames) : ∃ d id d' id', Takes statements w d id f d' id' := by
  induction h with
  | nil => cases hf
  | cons takes below ih =>
    rcases List.mem_cons.1 hf with rfl | hf
    · exact ⟨_, _, _, _, takes⟩
    · exact ih hf

/-- The end of a statement that stands in a routine is awaited inside a call. -/
theorem World.Stacked.exists_body {body : Body} {scopes : List Declarations} {id : ScopeId} {frames : List Frame}
    (h : Stacked statements w (.ending body scopes) id frames) (hb : body ≠ .top) :
    ∃ closure caller, .body closure caller ∈ frames := by
  generalize hd : Demand.ending body scopes = d at h
  induction h generalizing scopes with
  | nil =>
    cases hd
    exact absurd rfl hb
  | cons takes below ih =>
    cases takes with
    | body callable => exact ⟨_, _, List.mem_cons_self⟩
    | sequence _ _ _ | again _ _ | leaveScope _ _ =>
      cases hd
      obtain ⟨closure, caller, hmem⟩ := ih rfl
      exact ⟨closure, caller, List.mem_cons_of_mem _ hmem⟩
    | _ => cases hd

/-- A body that runs is that of a function that can be called. -/
theorem World.Takes.at_body {d d' : Demand} {id id' : ScopeId} {closure : Closure} {caller : ScopeId}
    (h : Takes statements w d id (.body closure caller) d' id') :
    ∃ x scopes, d = .ending x.around.body scopes ∧ Callable statements w closure x := by
  cases h with
  | body callable => exact ⟨_, _, rfl, callable⟩

/-! ## Words of classes -/

/-- The word `this` finds an instance. -/
theorem World.At.read?_this {table : Table} {id : ScopeId} {x : Stop} (place : At statements w id x)
    (sound : Sound statements w) (checked : x.Checked table) {use : UseId} {keyword : Token}
    (hc : x.code = .expr (.self use keyword)) :
    ∃ object, w.store.read? id (table.place use) keyword.lexeme = some (.object object) := by
  obtain ⟨word, i, hi⟩ := checked.this_at hc
  obtain ⟨p, hp, hb⟩ := place.word checked.fits (fun h => h.1 rfl) hi
  obtain ⟨v, hv, this⟩ := read?_hops hp hb
  obtain ⟨object, rfl⟩ := (sound.values p thisName v this).2.1 rfl
  have hplace : table.place use = .hops i := by rw [Table.place, checked.clean.get?_use hc rfl, hi]
  exact ⟨object, by rw [hplace, word, hv]⟩

/-! ## Runs -/

section

variable {source : String} {program : Program}

/-- Wherever the run of an accepted program comes to, a value that is given back is inside a call, no `super` is
outside of a class, no operator is unknown, `this` is an instance, an initializer has one, and it gives nothing
back. -/
theorem Program.guarded (accepted : Program.ofSource source = .ok program) (sink : Sink) (n : Nat) :
    (program.after sink n).Guarded program.table := by
  have resolved := resolved_of_ofSource accepted
  obtain ⟨plan, d, ⟨sound, stacked⟩, gives⟩ := program.conforms_after accepted sink n
  constructor
  case returns =>
    intro v hv
    rw [hv] at gives
    obtain ⟨body, scopes, rfl, -, inside, -⟩ := gives
    exact stacked.exists_body inside
  case faults =>
    intro e he
    rw [he] at gives
    exact gives
  case this =>
    intro use keyword he
    rw [he] at gives
    obtain ⟨-, x, place, evaluates⟩ := gives
    have checked := resolved.checked place.visits
    exact place.read?_this sound checked (evaluates.code_eq checked fun _ _ h => by cases h)
  case instance_ =>
    intro closure caller hf hi
    obtain ⟨_, _, _, _, takes⟩ := stacked.mem hf
    obtain ⟨x, _, -, callable⟩ := takes.at_body
    obtain ⟨v, hv⟩ := (Store.binds_iff _ _ _).1 (callable.instance_ hi)
    -- whatever scope has `this` has an instance there
    obtain ⟨object, rfl⟩ := (sound.values _ _ v hv).2.1 rfl
    exact ⟨object, hv⟩
  case initializer =>
    intro closure v hr hi
    obtain ⟨hv, caller, rest, hf⟩ := Machine.returning?_eq hr
    rw [hv] at gives
    obtain ⟨body, scopes, rfl, -, -, nothing⟩ := gives
    rw [hf] at stacked
    obtain ⟨_, _, takes, -⟩ := stacked.top
    obtain ⟨x, _, e, callable⟩ := takes.at_body
    cases e
    exact nothing (callable.declares.initializer.2 hi)

/-- At the end of an initializer that returns. -/
theorem Program.guarded_initializer :
    ∃ program closure,
      Program.ofSource "class A \x7b init() \x7b return; \x7d \x7d A();" = .ok program ∧
        (program.after .unlimited 10).Guarded program.table ∧
        (program.after .unlimited 10).returning? = some (closure, .nil) ∧ closure.initializer = true ∧
        ∃ object, (program.after .unlimited 10).store.valueIn? closure.scope thisName = some (.object object) := by
  have ran : (Program.ofSource "class A \x7b init() \x7b return; \x7d \x7d A();").toOption.any
      (fun p => (p.after .unlimited 10).returning?.any (·.1.initializer)) = true := by decide +kernel
  obtain ⟨program, accepted, ran⟩ := Program.exists_ofSource ran
  obtain ⟨⟨closure, v⟩, hr, hi⟩ := (Option.any_eq_true _ _).1 ran
  have guarded := program.guarded accepted .unlimited 10
  obtain ⟨-, caller, rest, hf⟩ := Machine.returning?_eq hr
  obtain ⟨object, this⟩ := guarded.instance_ closure caller (by rw [hf]; exact List.mem_cons_self) hi
  cases guarded.initializer closure v hr hi
  exact ⟨program, closure, accepted, guarded, hr, hi, object, this⟩

end

end Lox
