/-
Every step keeps a machine recorded, with the births that led to it: what starts is part of what ran before, and what
is put on the stack too. A step with which a class is born adds the birth (`Recorded.step`).
-/
import Lox.Proofs.Super.Moves

namespace Lox

namespace Machine

/-- The birth that the next step brings, if a class with a superclass is declared by it. -/
def birth? (m : Machine) : Option Birth :=
  match m.control, m.frames with
  | .value (.cls superclass), .inherit name _ methods :: _ => some (.next name methods superclass m.store)
  | _, _ => none

/-- The births that `n` steps from a machine bring. -/
def births (place : UseId → Place) (m : Machine) (n : Nat) : List Birth :=
  (List.range n).filterMap fun k => ((step place)^[k] m).birth?

theorem birth?_eq {m : Machine} {b : Birth} (h : m.birth? = some b) :
    ∃ superclass name e methods rest, m.control = .value (.cls superclass) ∧
      m.frames = .inherit name e methods :: rest ∧ b = .next name methods superclass m.store := by
  unfold birth? at h
  split at h
  · next superclass name e methods rest hv hf =>
    cases h
    exact ⟨superclass, name, e, methods, rest, hv, hf, rfl⟩
  · cases h

/-- Nothing is born where no superclass is awaited. -/
theorem birth?_of_plain {m : Machine} {frame : Frame} {rest : List Frame} (hf : m.frames = frame :: rest)
    (plain : ∀ name e methods, frame ≠ .inherit name e methods) : m.birth? = none := by
  refine Option.eq_none_iff_forall_ne_some.2 fun b h => ?_
  obtain ⟨_, name, e, methods, _, -, hf', -⟩ := birth?_eq h
  exact plain name e methods (List.cons.inj (hf.symm.trans hf')).1

/-- A frame that awaits a value leaves the current scope as it is. -/
theorem outer_of_takes {statements : List Stmt} {w : World} {id id' : ScopeId} {frame : Frame} {d : Demand}
    (h : World.Takes statements w .value id frame d id') : frame.outer id = id := by
  cases h <;> rfl

variable {statements : List Stmt} {table : Table} {births births' : List Birth} {m : Machine}
  {plan : List (List Declarations)} {x : Stop} {uses : List UseId}

namespace Waits

/-! ## Statements and expressions -/

theorem execute (h : Waits statements births m) (sound : World.Sound statements ⟨plan, m.store⟩)
    (resolved : Resolved statements table) (place : World.At statements ⟨plan, m.store⟩ m.scope x) {s : Stmt}
    (hc : x.code = .stmt s) (runs : Chronicle.Runs ⟨births, m.store⟩ m.scope s.ownUses) :
    Recorded statements births (m.execute s) := by
  have nameable {n : String} (hn : n ∈ s.declared) : Nameable n := resolved.nameable place.visits hc hn
  cases s with
  | block body => exact h.openBlock sound.outward runs
  | funDecl r => exact h.declareRoutine sound.outward (nameable (List.mem_singleton_self _)) runs
  | classDecl name e rs =>
    cases e with
    | none =>
      have alone : (none : Option ClassId).isSome = (none : Option Expr).isSome := rfl
      have declared := h.declareClass sound resolved place hc alone
      rwa [Option.map_none, Option.toList_none, List.append_nil] at declared
    | some e => exact h.await runs (List.Subset.refl _) (List.nil_subset _) rfl
  | expression e | print e => exact h.await runs (List.Subset.refl _) (List.nil_subset _) rfl
  | varDecl name initial =>
    cases initial with
    | none => exact (h.defineHere sound.outward (nameable (List.mem_singleton_self _)) _).finish .normal
    | some e => exact h.await runs (List.Subset.refl _) (List.nil_subset _) rfl
  | ifElse condition yes no =>
    cases no with
    | none | some no => exact h.await runs (List.subset_append_left _ _) (List.subset_append_right _ _) rfl
  | whileDo condition body => exact h.await runs (List.subset_append_left _ _) (List.Subset.refl _) rfl
  | ret keyword value =>
    cases value with
    | none => exact h.finish _
    | some e => exact h.await runs (List.Subset.refl _) (List.nil_subset _) rfl

theorem giveVariable (h : Waits statements births m) (place : Place) (name : Token) :
    Recorded statements births (m.giveVariable place name) := by
  unfold Machine.giveVariable
  split
  · exact h.give _
  · exact h.fail _ _

theorem assignVariable (h : Waits statements births m) (outward : m.store.Outward) (place : Place) {name : Token}
    (hn : Nameable name.lexeme) (v : Value) : Recorded statements births (m.assignVariable place name v) := by
  unfold Machine.assignVariable
  split
  · next s hs =>
    unfold Store.write? at hs
    split at hs
    · next found ht =>
      cases hs
      have lt := Store.lt_size_of_binds (Store.binds_of_target? ht)
      exact (h.later outward (h.sound.define outward lt hn v)).give v
    · cases hs
  · exact h.fail _ _

theorem evaluate (h : Waits statements births m) (outward : m.store.Outward) (place : UseId → Place) {e : Expr}
    (runs : Chronicle.Runs ⟨births, m.store⟩ m.scope e.uses) : Recorded statements births (m.evaluate place e) := by
  cases e with
  | literal value => exact h.give _
  | group e => exact h.eval runs (List.Subset.refl _)
  | unary operator e =>
    have operand : e.uses ⊆ (Expr.unary operator e).uses := List.Subset.refl _
    exact h.await runs operand (List.nil_subset _) rfl
  | binary operator l r | logical operator l r =>
    exact h.await runs (List.subset_append_left _ _) (List.subset_append_right _ _) rfl
  | ref id name => exact h.giveVariable _ name
  | assign id name e => exact h.await runs (List.subset_append_left _ _) (List.nil_subset _) rfl
  | call f paren es => exact h.await runs (List.subset_append_left _ _) (List.subset_append_right _ _) rfl
  | get o name =>
    have object : o.uses ⊆ (Expr.get o name).uses := List.Subset.refl _
    exact h.await runs object (List.nil_subset _) rfl
  | set o name v => exact h.await runs (List.subset_append_right _ _) (List.subset_append_left _ _) rfl
  | self id keyword => exact h.giveVariable _ keyword
  | super id keyword method => exact h.giveSuper outward _ keyword method

/-! ## Values -/

theorem printValue (h : Waits statements births m) (v : Value) : Recorded statements births (m.printValue v) := by
  unfold Machine.printValue
  dsimp only
  split <;> exact ⟨h.sound, h.stacked.runs, h.stacked⟩

theorem branch (h : Waits statements births m) (v : Value) {yes : Stmt} {no : Option Stmt}
    (runs : Chronicle.Runs ⟨births, m.store⟩ m.scope (Frame.choose yes no).ownUses) :
    Recorded statements births (m.branch v yes no) := by
  unfold Machine.branch
  cases no with
  | none =>
    split
    · exact h.exec runs (List.Subset.refl _)
    · exact h.finish .normal
  | some no =>
    split
    · exact h.exec runs (List.subset_append_left _ _)
    · exact h.exec runs (List.subset_append_right _ _)

/-- A value is handed to a frame with which no class is declared. -/
theorem receive (h : Waits statements births m) (sound : World.Sound statements ⟨plan, m.store⟩)
    (resolved : Resolved statements table) {frame : Frame} {d d' : Demand} {id : ScopeId}
    (takes : World.Takes statements ⟨plan, m.store⟩ d m.scope frame d' id) {v : Value}
    (hv : World.Holds statements ⟨plan, m.store⟩ v)
    (runs : Chronicle.Runs ⟨births, m.store⟩ m.scope frame.ownUses) (value : d = .value)
    (plain : ∀ name e methods, frame ≠ .inherit name e methods) :
    Recorded statements births (Machine.receive table.place m v frame) := by
  cases takes with
  | discard _ _ | giveBack _ _ => exact h.finish _
  | print _ _ => exact h.printValue v
  | define place hc =>
    have nameable := resolved.nameable place.visits hc (List.mem_singleton_self _)
    exact (h.defineHere sound.outward nameable v).finish .normal
  | choose _ _ => exact h.branch v runs
  | test _ _ =>
    simp only [Machine.receive]
    split
    · exact h.perform runs (List.subset_append_right _ _) (List.Subset.refl _) rfl
    · exact h.finish .normal
  | inherit _ _ => exact absurd rfl (plain _ _ _)
  | unary _ _ | right _ _ => exact h.giveResult _ _
  | left _ _ => exact h.await runs (List.Subset.refl _) (List.nil_subset _) rfl
  | logical _ _ =>
    simp only [Machine.receive]
    split
    · exact h.give v
    · exact h.eval runs (List.Subset.refl _)
  | assign place hc =>
    have formed := (resolved.checked place.visits).formed
    rw [hc] at formed
    exact h.assignVariable sound.outward _ formed.1 v
  | callee _ _ => exact h.nextArgument sound resolved hv runs
  | argument _ _ holds _ => exact h.nextArgument sound resolved holds runs
  | property =>
    simp only [Machine.receive]
    split
    · exact h.giveProperty sound.outward _ _
    · exact h.fail _ _
  | target _ _ =>
    simp only [Machine.receive]
    split
    · exact h.await runs (List.Subset.refl _) (List.nil_subset _) rfl
    · exact h.fail _ _
  | store => exact (h.later sound.outward (h.sound.setField sound.outward _ _ v)).give v
  | construct => exact h.give _
  | leave => exact give (m := { m with depth := m.depth - 1 }) ⟨h.sound, h.stacked⟩ v
  | sequence _ _ _ | again _ _ | leaveScope _ _ | body _ => cases value

/-! ## Ends of statements and failures -/

/-- The end of a statement is handed to the frame that takes it. -/
theorem resume {frame : Frame} (sound : Chronicle.Sound statements ⟨births, m.store⟩)
    (runs : Chronicle.Runs ⟨births, m.store⟩ m.scope frame.ownUses)
    (below : Chronicle.Stacked ⟨births, m.store⟩ (frame.outer m.scope) m.frames) {d' : Demand} {id : ScopeId}
    {b : Body} {scopes : List Declarations}
    (takes : World.Takes statements ⟨plan, m.store⟩ (.ending b scopes) m.scope frame d' id) (c : Completion) :
    Recorded statements births (Machine.resume m c frame) := by
  cases takes with
  | sequence visits planned hc =>
    rename_i x rest
    have h : Waits statements births m := ⟨sound, below⟩
    cases c with
    | returned v => exact h.finish _
    | normal =>
      cases rest with
      | nil => exact h.finish .normal
      | cons s rest => exact h.perform runs (List.subset_append_left _ _) (List.subset_append_right _ _) rfl
  | again _ _ =>
    have h : Waits statements births m := ⟨sound, below⟩
    cases c with
    | returned v => exact h.finish _
    | normal => exact h.await runs (List.subset_append_left _ _) (List.Subset.refl _) rfl
  | leaveScope _ _ | body _ => exact ⟨sound, below.runs, below⟩

/-- A frame is taken off a failed machine. -/
theorem unwind {frame : Frame} (sound : Chronicle.Sound statements ⟨births, m.store⟩)
    (below : Chronicle.Stacked ⟨births, m.store⟩ (frame.outer m.scope) m.frames) (e : Failure) :
    Recorded statements births (Machine.unwind m e frame) := by
  cases frame <;> exact ⟨sound, below.runs, below⟩

end Waits

/-! ## Steps and runs -/

theorem Recorded.unborn (h : Recorded statements births m) {b : Option Birth} (none : b = none) :
    Recorded statements (births ++ b.toList) m := by
  subst none
  exact (List.append_nil births).symm ▸ h

/-- A step keeps a machine recorded and adds the birth that it brings. -/
theorem Recorded.step (h : Recorded statements births m) (conforms : Conforms statements m)
    (resolved : Resolved statements table) :
    Recorded statements (births ++ m.birth?.toList) (m.step table.place) := by
  obtain ⟨plan, d, ⟨sound, stacked⟩, gives⟩ := conforms
  obtain ⟨known, runs, below⟩ := h
  obtain ⟨control, frames, scope, depth, store, sink⟩ := m
  cases control with
  | exec s =>
    obtain ⟨x, place, hc, -⟩ := gives
    exact unborn (Waits.execute ⟨known, below⟩ sound resolved place hc runs) rfl
  | eval e => exact unborn (Waits.evaluate ⟨known, below⟩ sound.outward _ runs) rfl
  | value v =>
    obtain ⟨rfl, hv⟩ := gives
    cases stacked with
    | @cons _ _ f d' id' rest takes _ =>
      have waits : Waits statements births ⟨.value v, rest, scope, depth, store, sink⟩ :=
        ⟨known, outer_of_takes takes ▸ below.2⟩
      -- a birth needs a class that is handed to a declaration
      by_cases plain : ∀ name e methods, f ≠ .inherit name e methods
      · exact unborn (waits.receive sound resolved takes hv below.1 rfl plain) (birth?_of_plain rfl plain)
      · simp only [not_forall, not_not] at plain
        obtain ⟨name, e, methods, rfl⟩ := plain
        cases takes with
        | inherit place hc =>
          cases v with
          | cls superclass =>
            have given : (some superclass).isSome = (some e).isSome := rfl
            exact waits.declareClass sound resolved place hc given
          | nil | bool _ | number _ | string _ | closure _ | object _ => exact unborn (waits.fail _ _) rfl
  | finished c =>
    obtain ⟨b, scopes, rfl, -⟩ := gives
    cases stacked with
    | nil => exact unborn ⟨known, runs, below⟩ rfl
    | @cons _ _ f d' id' rest takes _ =>
      have resumed := Waits.resume (m := ⟨.finished c, rest, scope, depth, store, sink⟩) known below.1 below.2 takes c
      exact unborn resumed rfl
  | failed e =>
    cases stacked with
    | nil => exact unborn ⟨known, runs, below⟩ rfl
    | @cons _ _ f d' id' rest takes _ =>
      exact unborn (Waits.unwind (m := ⟨.failed e, rest, scope, depth, store, sink⟩) known below.2 e) rfl

theorem not_binds_initial (id : ScopeId) (name : String) : Store.initial.binds id name ≠ true := by
  cases id <;> nofun

theorem sound_unborn (statements : List Stmt) : Chronicle.Sound statements ⟨[], Store.initial⟩ where
  born _ hb := by cases hb
  super id hb := absurd hb (not_binds_initial id _)
  this id hb := absurd hb (not_binds_initial id _)
  methods _ _ hc := by cases hc
  closures _ _ hf := by cases hf

theorem recorded_start (statements : List Stmt) (sink : Sink) : Recorded statements [] (start sink statements) := by
  have runs (uses : List UseId) : Chronicle.Runs ⟨[], Store.initial⟩ Store.globalScope uses :=
    ⟨Nat.zero_lt_one, Bool.eq_false_iff.2 (not_binds_initial _ _), fun _ hb => absurd hb List.not_mem_nil⟩
  exact ⟨sound_unborn statements, runs [], runs _, runs []⟩

theorem births_succ (place : UseId → Place) (m : Machine) (n : Nat) :
    m.births place (n + 1) = m.births place n ++ ((step place)^[n] m).birth?.toList := by
  rw [births, List.range_succ, List.filterMap_append]
  rfl

theorem mem_births {place : UseId → Place} {m : Machine} {n : Nat} {b : Birth} :
    b ∈ m.births place n ↔ ∃ k < n, ((step place)^[k] m).birth? = some b := by
  simp [births]

/-- However far a program runs, the machine is recorded with the births on the way. -/
theorem recorded_iterate (resolved : Resolved statements table) (sink : Sink) (n : Nat) :
    Recorded statements ((start sink statements).births table.place n)
      ((step table.place)^[n] (start sink statements)) := by
  induction n with
  | zero => exact recorded_start statements sink
  | succ n ih =>
    rw [Function.iterate_succ_apply', births_succ]
    exact ih.step (conforms_iterate resolved sink n) resolved

end Machine

end Lox
