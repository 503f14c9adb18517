/-
Each turn of a loop over a variable has a variable of its own (`Program.own_variable`). Where the scope of a copy is in
sight, the walk before the run had the name there too, so a use of the name finds the copy, or what is declared further
in, and nothing that is further out.
-/
import Lox.Proofs.Binding.Copied
import Lox.Proofs.Program.Turns

namespace Lox

variable {source : String} {program : Program} {sink : Sink} {l : VarLoop} {j k i d : Nat}

/-! ## Uses in sight of a copy -/

/-- In an accepted program scopes with the slot are there for copies only. -/
theorem Program.copied (accepted : Program.ofSource source = .ok program) {x : Stop}
    (visits : Visits program.statements x) : x.Copied := by
  obtain ⟨read, statements⟩ := parse_of_ofSource accepted
  refine visits.copied (resolved_of_ofSource accepted) fun c hc => ?_
  rw [← statements] at hc
  have kept := (written_parse read).keepsCopying
    ((unslotted_scan source).mono fun _ ht => (List.takeWhile_sublist _).mem ht)
  exact kept.within c hc

/-- Where the scope of a copy is in sight of an expression, the walk finds the name of the copy there or further in. -/
theorem Machine.InStep.findIdx?_copy {m : Machine} {x : Stop} {e : Expr} {copy slot outer : ScopeId} {n : String}
    (h : m.InStep x) (copied : x.Copied) (hc : x.code = .expr e) (sight : m.store.ancestor? m.scope d = some copy)
    (inSlot : m.store.parent? copy = some slot) (around : m.store.parent? slot = some outer)
    (hasCopy : m.store.binds copy n = true) (hasSlot : m.store.binds slot ForLoop.slotName = true) :
    ∃ e ≤ d, x.walk.scopes.findIdx? (·.contains n) = some e := by
  have le : d ≤ x.whole.length := by
    refine Nat.le_of_not_lt fun lt => ?_
    obtain ⟨place, reach, rest⟩ := h.chain.ancestor (Nat.le_refl _)
    rw [List.drop_length] at rest
    cases rest with
    | globals last =>
      obtain ⟨n, rfl⟩ := Nat.exists_eq_add_of_lt lt
      rw [Nat.add_assoc, Store.ancestor?_add, reach, Option.bind_some, Store.ancestor?_outermost last] at sight
      cases sight
  obtain ⟨place, reach, rest⟩ := h.chain.ancestor le
  cases reach.symm.trans sight
  have at_ (n : Nat) : x.whole[d + n]? = (x.whole.drop d)[n]? := List.getElem?_drop.symm
  generalize x.whole.drop d = scopes at rest at_
  cases rest with
  | globals last => cases last.symm.trans inSlot
  | inner link names tail =>
    cases link.symm.trans inSlot
    cases tail with
    | globals last => cases last.symm.trans around
    | inner _ slotNames _ =>
      have named := copied.named d _ _ (at_ 0) (at_ 1) (slotNames _ hasSlot) n (names n hasCopy)
      refine (named.resolve_right ?_).findIdx?
      rw [hc]
      exact fun first => List.not_mem_nil first.2

namespace Program

/-- After `i` steps the scope of the copy for a turn that is started after `k` steps is so many steps out. -/
def InSight (p : Program) (sink : Sink) (k i d : Nat) : Prop :=
  (p.after sink i).store.ancestor? (p.after sink i).scope d = some (p.passScope sink k)

/-- A use is sent to a scope, to that of the copy or to one that is further in. -/
structure Sends (p : Program) (sink : Sink) (l : VarLoop) (k i d : Nat) (use : UseId) (place : ScopeId) : Prop where
  entry : ∃ e ≤ d, p.table.get? use = some e ∧ (p.after sink i).store.ancestor? (p.after sink i).scope e = some place ∧
    (e = d → place = p.passScope sink k)
  apart : ¬ p.Others sink l k place

/-- In the turn that a loop over a variable, started after `j` steps, starts after `k` steps, it has a variable for this
turn only. -/
structure OwnVariable (p : Program) (sink : Sink) (l : VarLoop) (j k : Nat) : Prop where
  /-- The body starts in a new scope, which has a copy of the variable and nothing else. -/
  begins : ∃ v, (p.after sink k).store.valueIn? (p.loopScope sink j) l.name.lexeme = some v ∧
    (p.after sink k).store.scopes.size ≤ p.passScope sink k ∧ (p.after sink (k + 12)).control = .exec l.body ∧
    (p.after sink (k + 12)).scope = p.passScope sink k ∧
    ∀ n, (p.after sink (k + 12)).store.valueIn? (p.passScope sink k) n = if n = l.name.lexeme then some v else none
  /-- It is none of the scopes of the variable itself, and of those of the copies for other turns. -/
  apart : ¬ p.Others sink l k (p.passScope sink k)
  /-- While the body of a function runs from whose scope the copy is in sight, it is in sight there too. -/
  inside : ∀ i above closure caller below d, (p.after sink i).frames = above ++ .body closure caller :: below →
    (∀ f ∈ above, f.isBody = false) →
    (p.after sink i).store.ancestor? closure.scope d = some (p.passScope sink k) → ∃ d', p.InSight sink k i d'
  /-- Where the copy is in sight, a use of its name reads it, or a variable that is declared further in. -/
  reads : ∀ i d, k + 12 ≤ i → p.InSight sink k i d → ∀ use name, name.lexeme = l.name.lexeme →
    (p.after sink i).control = .eval (.ref use name) →
    ∃ place v, p.Sends sink l k i d use place ∧ (p.after sink i).store.valueIn? place l.name.lexeme = some v ∧
      (p.after sink (i + 1)).control = .value v
  /-- And so it is with writing. -/
  writes : ∀ i d, k + 12 ≤ i → p.InSight sink k i d → ∀ use name v, name.lexeme = l.name.lexeme →
    (p.after sink i).assigning? = some (use, name, v) →
    ∃ place, p.Sends sink l k i d use place ∧ (place = p.passScope sink k →
      (p.after sink (i + 1)).store = (p.after sink i).store.define place l.name.lexeme v)
  /-- Where the copy is in sight, no step writes the variable itself or a copy for another turn. -/
  keeps : ∀ i d, k + 12 ≤ i → p.InSight sink k i d → ∀ id < (p.after sink i).store.scopes.size,
    p.Others sink l k id →
    (p.after sink (i + 1)).store.valueIn? id l.name.lexeme = (p.after sink i).store.valueIn? id l.name.lexeme
  /-- When the body has ended and does not return, the variable gets the value that the copy has, and then comes the
  last clause. -/
  ends : ∀ i, k + 12 ≤ i → (∀ t, k + 12 ≤ t → t < i → ¬ (p.after sink t).IsBack (p.after sink (k + 12)).frames) →
    (p.after sink i).frames = (p.after sink (k + 12)).frames → (p.after sink i).control = .finished .normal →
    ∃ v, (p.after sink i).store.valueIn? (p.passScope sink k) l.name.lexeme = some v ∧
      (p.after sink (i + 16)).store.valueIn? (p.loopScope sink j) l.name.lexeme = some v ∧
      (p.after sink (i + 16)).control = .finished .normal ∧ (p.after sink (i + 16)).frames = (p.after sink k).frames ∧
      ∀ e, l.increment = some e → (p.after sink (i + 17)).control = .exec (.expression e)

section

variable (accepted : Program.ofSource source = .ok program) (turn : program.Turn sink l j k)
include accepted turn

/-! ## Uses -/

/-- Where the copy is in sight of a use of its name, the walk has sent the use there or further in. -/
theorem Turn.sends (le : k + 12 ≤ i) (sight : program.InSight sink k i d) {x : Stop} {e : Expr} {use : UseId}
    (visits : Visits program.statements x) (hc : x.code = .expr e) (inStep : (program.after sink i).InStep x)
    (reaches : (program.after sink i).Reaches program.table x use l.name.lexeme) :
    ∃ place, program.Sends sink l k i d use place := by
  have scopes := turn.passScopes accepted le
  obtain ⟨e, near, found⟩ := inStep.findIdx?_copy (program.copied accepted visits) hc sight scopes.inSlot scopes.around
    scopes.hasCopy scopes.hasSlot
  have entry := reaches.chosen.trans found
  obtain ⟨place, reach, -⟩ := reaches.there e entry
  refine ⟨place, ⟨e, near, entry, reach, ?_⟩, fun other => ?_⟩
  · rintro rfl
    exact Option.some.inj (reach.symm.trans sight)
  · exact turn.unseen accepted other i _ (Store.ancestor?_between reach sight near)

theorem Turn.sends_ref (le : k + 12 ≤ i) (sight : program.InSight sink k i d) {use : UseId} {name : Token}
    (same : name.lexeme = l.name.lexeme) (hc : (program.after sink i).control = .eval (.ref use name)) :
    ∃ place, program.Sends sink l k i d use place := by
  have code : (program.after sink i).control.code? = some (.expr (.ref use name)) := by
    rw [hc]
    rfl
  obtain ⟨⟨x, visits, hx, -⟩, every⟩ := (program.lock_step accepted sink i).1 _ code
  obtain ⟨inStep, reaches⟩ := every x visits hx (List.cons_ne_nil _ _)
  exact turn.sends accepted le sight visits hx inStep (same ▸ reaches _ use _ rfl rfl)

theorem Turn.sends_assign (le : k + 12 ≤ i) (sight : program.InSight sink k i d) {use : UseId} {name : Token} {v : Value}
    (same : name.lexeme = l.name.lexeme) (hw : (program.after sink i).assigning? = some (use, name, v)) :
    ∃ place, program.Sends sink l k i d use place := by
  obtain ⟨x, e, visits, hx, inStep, reaches⟩ := (program.lock_step accepted sink i).2 use name v hw
  exact turn.sends accepted le sight visits hx inStep (same ▸ reaches)

/-! ## Steps -/

/-- Where the copy is in sight of an assignment to its name, and the assignment is sent to it, it gets the value. -/
theorem Turn.store_assign (le : k + 12 ≤ i) {use : UseId} {name : Token} {v : Value} {place : ScopeId}
    (same : name.lexeme = l.name.lexeme) (hw : (program.after sink i).assigning? = some (use, name, v))
    (sends : program.Sends sink l k i d use place) (copy : place = program.passScope sink k) :
    (program.after sink (i + 1)).store = (program.after sink i).store.define place l.name.lexeme v := by
  obtain ⟨e, -, entry, reach, -⟩ := sends.entry
  obtain ⟨hv, rest, hf⟩ := Machine.assigning?_eq hw
  have bound := (turn.passScopes accepted le).hasCopy
  rw [← copy, ← same] at bound
  rw [after_succ, Machine.step_value hv hf, Machine.receive, Table.place, entry, ← same]
  have found := Store.target?_hops reach bound
  exact congrArg Machine.store (Machine.assignVariable_eq (m := { program.after sink i with frames := rest }) found)

/-- A step that has the copy in sight writes none of the others. -/
theorem Turn.value_step (le : k + 12 ≤ i) (sight : program.InSight sink k i d) {id : ScopeId}
    (lt : id < (program.after sink i).store.scopes.size) (other : program.Others sink l k id) :
    (program.after sink (i + 1)).store.valueIn? id l.name.lexeme =
      (program.after sink i).store.valueIn? id l.name.lexeme := by
  refine (program.goes_after sink i).writes.value id lt _ ?_
  rintro (rfl | ⟨use, name, v, hw, same, target⟩)
  · exact turn.unseen accepted other i d sight
  · obtain ⟨place, ⟨e, -, entry, reach, -⟩, apart⟩ := turn.sends_assign accepted le sight same hw
    rw [Table.place, entry, Store.target?, reach] at target
    cases (Option.filter_eq_some_iff.1 target).1
    exact apart other

/-- The body ends in the scope of the copy. -/
theorem Turn.scope_of_back (le : k + 12 ≤ i)
    (busy : ∀ t, k + 12 ≤ t → t < i → ¬ (program.after sink t).IsBack (program.after sink (k + 12)).frames)
    (frames : (program.after sink i).frames = (program.after sink (k + 12)).frames) :
    (program.after sink i).scope = program.passScope sink k := by
  obtain ⟨v, -, begun⟩ := turn.begins accepted
  have control : (program.after sink (k + 12)).control = .exec l.body := by rw [begun]
  have scope : (program.after sink (k + 12)).scope = program.passScope sink k := by rw [begun]
  have runs : (program.after sink (k + 12)).RunsFor ((program.after sink (k + 12)).caller (.ending true)) := by
    refine ⟨.ending true, .nil, ?_⟩
    rw [control]
    exact l.body.ends_true
  obtain ⟨n, rfl⟩ := Nat.exists_eq_add_of_le le
  rw [after_add] at frames ⊢
  rw [← scope]
  refine ((Machine.runsFor_iterate runs fun t ht => ?_).at_caller frames).1
  rw [← after_add]
  exact busy _ (Nat.le_add_right _ _) (Nat.add_lt_add_left ht _)

/-- From the end of the body to the last clause. -/
theorem Turn.after_back (le : k + 12 ≤ i)
    (busy : ∀ t, k + 12 ≤ t → t < i → ¬ (program.after sink t).IsBack (program.after sink (k + 12)).frames)
    (frames : (program.after sink i).frames = (program.after sink (k + 12)).frames)
    (control : (program.after sink i).control = .finished .normal) :
    ∃ v, (program.after sink i).store.valueIn? (program.passScope sink k) l.name.lexeme = some v ∧
      (program.after sink (i + 16)).store.valueIn? (program.loopScope sink j) l.name.lexeme = some v ∧
      (program.after sink (i + 16)).control = .finished .normal ∧
      (program.after sink (i + 16)).frames = (program.after sink k).frames ∧
      ∀ e, l.increment = some e → (program.after sink (i + 17)).control = .exec (.expression e) := by
  have scope := turn.scope_of_back accepted le busy frames
  have scopes := turn.passScopes accepted le
  obtain ⟨v, hv⟩ := (Store.binds_iff _ _ _).1 scopes.hasCopy
  obtain ⟨_, -, begun⟩ := turn.begins accepted
  have waits : (program.after sink i).frames = ForLoop.copyingBack l.id l.name
      (program.after sink k).store.nextScope (program.after sink k).scope ++ (program.after sink k).frames := by
    rw [frames, begun]
  -- what the last steps of the pass do
  have back := Machine.iterate_copyingBack (program.after sink k).frames (program.after sink i).depth
    (program.after sink i).sink scopes hv
  have here : program.after sink i = ⟨.finished .normal, ForLoop.copyingBack l.id l.name
      (program.after sink k).store.nextScope (program.after sink k).scope ++ (program.after sink k).frames,
      program.passScope sink k, (program.after sink i).depth, (program.after sink i).store,
      (program.after sink i).sink⟩ := by
    rw [← control, ← waits, ← scope]
  rw [← here, ← after_add] at back
  have lt := Store.lt_size_of_binds scopes.hasVar
  refine ⟨v, hv, ?_, by rw [back], by rw [back], fun e increment => ?_⟩
  · rw [back]
    refine (Store.valueIn?_define _ _ _ _ _ _ ?_).trans (if_pos ⟨rfl, rfl⟩)
    rwa [Store.scopes_size_define]
  · have waiting := turn.frames
    rw [VarLoop.waiting, increment] at waiting
    rw [after_succ, back, waiting]
    rfl

end

/-- Each turn of a loop over a variable, whenever the loop is run in an accepted program, has a variable of its own. And
the loop starts a turn each time it decides that it goes on. -/
theorem own_variable (accepted : Program.ofSource source = .ok program) (sink : Sink) (l : VarLoop) (j : Nat)
    (loop : (program.after sink j).control = .exec l.stmt) :
    (∀ i, program.Decides sink l j i → program.Turn sink l j (i + l.opening)) ∧
      ∀ k, program.Turn sink l j k → program.OwnVariable sink l j k := by
  refine ⟨fun i decides => decides.turn loop, fun k turn => ?_⟩
  obtain ⟨v, hv, begun⟩ := turn.begins accepted
  constructor
  case begins =>
    refine ⟨v, hv, Nat.le_succ _, by rw [begun], by rw [begun], fun n => ?_⟩
    rw [begun]
    exact (Store.passScopes_addWith (turn.copies accepted) turn.toVar hv).2.2 n
  case apart => exact fun other => turn.unseen accepted other k 0 rfl
  case inside =>
    intro i above closure caller below d frames quiet sight
    have nested := program.nested_after sink i
    unfold Machine.Nested at nested
    rw [frames] at nested
    obtain ⟨n, reach⟩ := nested.exists_ancestor? quiet
    refine ⟨n + 1 + d, ?_⟩
    rw [InSight, Store.ancestor?_add, reach]
    exact sight
  case reads =>
    intro i d le sight use name same hc
    obtain ⟨place, sends⟩ := turn.sends_ref accepted le sight same hc
    obtain ⟨e, -, entry, reach, -⟩ := sends.entry
    obtain ⟨v, ⟨place', reach', hv⟩, control⟩ := (program.finds_local accepted sink i entry).ref name hc
    cases reach.symm.trans reach'
    exact ⟨place, v, sends, same ▸ hv, by rw [after_succ, control]⟩
  case writes =>
    intro i d le sight use name v same hw
    obtain ⟨place, sends⟩ := turn.sends_assign accepted le sight same hw
    exact ⟨place, sends, turn.store_assign accepted le same hw sends⟩
  case keeps => exact fun i d le sight id lt other => turn.value_step accepted le sight lt other
  case ends => exact fun i le busy frames control => turn.after_back accepted le busy frames control

/-- A loop without clauses but for the variable decides at once that it goes on. -/
theorem decides_endless {name : Token} {id : UseId} {body : Stmt}
    (loop : (program.after sink j).control = .exec (VarLoop.mk name none none none id body).stmt) :
    program.Decides sink ⟨name, none, none, none, id, body⟩ j (j + 6) := by
  have steps (t : Nat) := program.after_add sink j t
  have rest : program.afterLoop sink j = .sequence [] :: .leaveScope (program.after sink j).scope ::
      (program.after sink j).frames := rfl
  rcases hm : program.after sink j with ⟨control, waiting, scope, depth, store, out⟩
  rw [hm] at loop steps rest
  cases loop
  have busy : ∀ d, 0 < d → d ≤ 6 → ¬ (program.after sink (j + d)).IsBack waiting := by
    rintro d pos le ⟨frames, -⟩
    rw [steps] at frames
    -- the frames of the block are there, and when the condition is evaluated one more
    interval_cases d
    all_goals
      first
      | exact absurd (show waiting.length + 2 = waiting.length from congrArg List.length frames) (by omega)
      | exact absurd (show waiting.length + 3 = waiting.length from congrArg List.length frames) (by omega)
  refine ⟨⟨Nat.lt_add_of_pos_right (by decide), fun t lt le => ?_⟩, ⟨.bool true, ?_, rfl⟩, ?_⟩
  · obtain ⟨d, rfl⟩ := Nat.exists_eq_add_of_le (Nat.le_of_lt lt)
    rw [hm]
    exact busy d (by omega) (by omega)
  · rw [steps]
    rfl
  · rw [steps, rest]
    rfl

/-- Whether a program is one loop over a variable of this name without a value, a condition or a last clause. -/
def isEndless (n : String) : List Stmt → Bool
  | [.block [.varDecl name none, .whileDo (.literal (.bool true)) (.block [.varDecl s₀ (some (.ref i₃ n₃)),
      .block [.varDecl n₀ (some (.ref i₀ s₁)), _, .expression (.assign i₂ s₂ (.ref i₁ n₁))],
      .expression (.assign i₅ n₅ (.ref i₄ s₄))])]] =>
    decide (name.lexeme = n ∧ (s₀ = ForLoop.slot name ∧ s₁ = s₀ ∧ s₂ = s₀ ∧ s₄ = s₀) ∧
      (n₀ = name ∧ n₁ = name ∧ n₃ = name ∧ n₅ = name) ∧
      i₁ = i₀ + 1 ∧ i₂ = i₀ + 2 ∧ i₃ = i₀ + 3 ∧ i₄ = i₀ + 4 ∧ i₅ = i₀ + 5)
  | _ => false

theorem exists_of_isEndless {n : String} {ss : List Stmt} (form : isEndless n ss = true) :
    ∃ name id body, name.lexeme = n ∧ ss = [(VarLoop.mk name none none none id body).stmt] := by
  unfold isEndless at form
  split at form
  · obtain ⟨named, ⟨rfl, rfl, rfl, rfl⟩, ⟨rfl, rfl, rfl, rfl⟩, rfl, rfl, rfl, rfl, rfl⟩ := of_decide_eq_true form
    exact ⟨_, _, _, named, rfl⟩
  · cases form

/-- A function that is declared in the body of a loop assigns to the variable of the loop. -/
theorem own_variable_closure :
    ∃ program l use name,
      Program.ofSource "for (var a;;) \x7b fun f() \x7b a = true; \x7d f(); \x7d" = .ok program ∧
        (program.after .unlimited 1).control = .exec l.stmt ∧ program.Decides .unlimited l 1 7 ∧
        program.Turn .unlimited l 1 8 ∧ program.OwnVariable .unlimited l 1 8 ∧
        (program.after .unlimited 32).assigning? = some (use, name, .bool true) ∧ name.lexeme = l.name.lexeme ∧
        program.InSight .unlimited 8 32 2 ∧
        (program.after .unlimited 33).store = (program.after .unlimited 32).store.define
          (program.passScope .unlimited 8) l.name.lexeme (.bool true) := by
  have ran : (Program.ofSource "for (var a;;) \x7b fun f() \x7b a = true; \x7d f(); \x7d").toOption.any
      (fun p => isEndless "a" p.statements && (p.after .unlimited 32).assigning?.any fun (use, name, v) =>
        decide (v = .bool true ∧ name.lexeme = "a" ∧ p.table.get? use = some 2 ∧
          (p.after .unlimited 32).store.ancestor? (p.after .unlimited 32).scope 2 =
            some (p.passScope .unlimited 8))) = true := by
    decide +kernel
  obtain ⟨program, accepted, ran⟩ := Program.exists_ofSource ran
  obtain ⟨form, called⟩ := Bool.and_eq_true_iff.1 ran
  obtain ⟨⟨use, name, v⟩, hw, called⟩ := (Option.any_eq_true _ _).1 called
  obtain ⟨rfl, same, entry, sight⟩ := of_decide_eq_true called
  obtain ⟨variable_, id, body, named, statements⟩ := exists_of_isEndless form
  have loop : (program.after .unlimited 1).control = .exec (VarLoop.mk variable_ none none none id body).stmt := by
    unfold Program.after
    rw [statements]
    rfl
  have same := same.trans named.symm
  obtain ⟨turns, own⟩ := program.own_variable accepted .unlimited _ 1 loop
  have decides := program.decides_endless loop
  have turn := turns 7 decides
  have own := own 8 turn
  obtain ⟨place, sends, written⟩ := own.writes 32 2 (by decide) sight use name _ same hw
  obtain ⟨e, -, entry', -, copy⟩ := sends.entry
  cases entry.symm.trans entry'
  obtain rfl := copy rfl
  exact ⟨program, _, use, name, accepted, loop, decides, turn, own, hw, same, sight, written rfl⟩

end Program

end Lox
