/-
Every step keeps a machine conforming: starting a statement or an expression, handing a value or an end to the
frame that takes it, and taking a frame off a failed machine. So a machine that starts with the statements of a
program conforms however far it runs (`conforms_iterate`).
-/
import Lox.Proofs.Machine.Calls
import Lox.Proofs.Machine.Classes
import Lox.Proofs.Machine.Runs

namespace Lox

variable {statements : List Stmt} {table : Table} {plan : List (List Declarations)} {m : Machine} {x : Stop}

/-! ## Operators -/

namespace Operator

/-- What an operator gives: a value that is no function, or a fault of its operands. -/
def Plain : Except RuntimeFault Value → Prop
  | .ok v => ∀ id, v ≠ .closure id
  | .error fault => fault ≠ .superOutsideClass ∧ ∀ lexeme, fault ≠ .unknownOperator lexeme

theorem plain_arithmetic (f : Float → Float → Float) (a b : Value) : Plain (arithmetic f a b) := by
  unfold arithmetic
  split
  · exact nofun
  · exact ⟨nofun, nofun⟩

theorem plain_comparison (f : Float → Float → Bool) (a b : Value) : Plain (comparison f a b) := by
  unfold comparison
  split
  · exact nofun
  · exact ⟨nofun, nofun⟩

theorem plain_add (a b : Value) : Plain (add a b) := by
  unfold add
  split
  · exact nofun
  · exact nofun
  · exact ⟨nofun, nofun⟩

theorem plain_binary {operator : Token} (h : operator.kind ∈ binaryKinds) (a b : Value) :
    Plain (binary operator a b) := by
  unfold binary
  split
  · exact plain_add a b
  · exact plain_arithmetic _ a b
  · exact plain_arithmetic _ a b
  · exact plain_arithmetic _ a b
  · exact plain_comparison _ a b
  · exact plain_comparison _ a b
  · exact plain_comparison _ a b
  · exact plain_comparison _ a b
  · exact nofun
  · exact nofun
  · simp_all [binaryKinds]

theorem plain_unary {operator : Token} (h : operator.kind ∈ signs) (v : Value) : Plain (unary operator v) := by
  unfold unary
  split
  · unfold negate
    split
    · exact nofun
    · exact ⟨nofun, nofun⟩
  · exact nofun
  · simp_all [signs]

end Operator

namespace Machine

open World

theorem Owes.giveResult (h : Owes statements plan .value m) {result : Except RuntimeFault Value}
    (hr : Operator.Plain result) (site : Token) : Conforms statements (m.giveResult result site) := by
  cases result with
  | ok v => exact h.give (holds_of_ne hr)
  | error fault => exact h.fail site hr.1 hr.2

/-! ## Statements -/

theorem Owes.openBlock (h : Owes statements plan x.ending m)
    (place : At statements ⟨plan, m.store⟩ m.scope x) {body : List Stmt} (hc : x.code = .stmt (.block body)) :
    Conforms statements (m.openBlock body) := by
  obtain ⟨code, a, w, d⟩ := x
  cases hc
  let own := (Stmt.walkAll a body w.openScope).innermost
  let y : Stop := ⟨.stmts body, a, w.openScope, own :: d⟩
  have hy : y ∈ Stop.parts ⟨.stmt (.block body), a, w, d⟩ := List.mem_singleton_self y
  let scope : Scope := ⟨some m.scope, .empty⟩
  have grows := World.grows_addScope ⟨plan, m.store⟩ (own :: d) scope
  have sound := h.sound.addScope own .empty place.planned nofun nofun
  have new := h.sound.planned_addScope (own :: d) scope
  refine ⟨plan ++ [own :: d], .ending a.body y.walk.scopes, ⟨sound, ?_⟩, a.body, _, rfl, nofun, m.scope, ?_, ?_⟩
  · refine .cons (.sequence (place.visits.part hy) new rfl) ?_
    exact .cons (.leaveScope (x := ⟨.stmt (.block body), a, w, d⟩) (grows.at place) rfl) (grows.stacked h.stacked)
  · show (m.store.addScope scope).parent? m.store.nextScope = _
    rw [Store.parent?_addScope, if_pos rfl]
  · exact grows.ready place.ready

theorem Owes.declareRoutine (h : Owes statements plan x.ending m) (resolved : Resolved statements table)
    (place : At statements ⟨plan, m.store⟩ m.scope x) {r : Routine Stmt} (hc : x.code = .stmt (.funDecl r)) :
    Conforms statements (m.declareRoutine r) := by
  have checked := resolved.checked place.visits
  obtain ⟨code, a, w, d⟩ := x
  cases hc
  have added := h.sound.addClosure ⟨r, m.scope, false⟩
  let y : Stop := ⟨.routine r, { a with body := .function }, w.introduce r.name, d⟩
  have hy : y ∈ Stop.parts ⟨.stmt (.funDecl r), a, w, d⟩ := List.mem_singleton_self y
  have place' := added.1.at place
  refine Owes.declare (m := { m with store := m.store.addClosure ⟨r, m.scope, false⟩ }) (h.grow added) place' checked
    rfl ?_
  -- the function can be called once its name is bound
  intro id e
  cases e
  have grows := added.2.grows_define place'.planned r.name.lexeme (.closure m.store.nextClosure)
  refine ⟨⟨r, m.scope, false⟩, y, grows.closures _ _ ?_, ⟨place.visits.part hy, rfl, nofun, nofun, nofun⟩,
    ⟨place.visits.part hy, place.planned, ?_⟩, nofun⟩
  · simp [Store.addClosure, Store.nextClosure]
  · show Store.Ready _ m.scope (w.introduce r.name).scopes
    rw [Walk.scopes_introduce]
    refine (grows.at place').ready.settle fun n hn => ?_
    cases List.mem_singleton.1 hn
    show (Store.define _ _ _ _).binds _ _ = true
    rw [Store.binds_define _ _ _ _ _ _ (added.2.lt_size place'.planned)]
    simp

theorem Owes.execute (h : Owes statements plan x.ending m) (resolved : Resolved statements table)
    (place : At statements ⟨plan, m.store⟩ m.scope x) {s : Stmt} (hc : x.code = .stmt s) :
    Conforms statements (m.execute s) := by
  have checked := resolved.checked place.visits
  cases s with
  | block body => exact h.openBlock place hc
  | funDecl r => exact h.declareRoutine resolved place hc
  | classDecl name e rs =>
    cases e with
    | none =>
      show Conforms statements (m.declareClass name none rs)
      exact h.declareClass resolved place hc rfl
    | some e => exact h.await place (.inr ⟨name, rs, hc⟩) (.inherit place hc)
  | expression e =>
    obtain ⟨code, a, w, d⟩ := x
    cases hc
    exact h.await (place.part (List.mem_singleton_self _) rfl rfl) (.inl rfl) (.discard place rfl)
  | print e =>
    obtain ⟨code, a, w, d⟩ := x
    cases hc
    exact h.await (place.part (List.mem_singleton_self _) rfl rfl) (.inl rfl) (.print place rfl)
  | varDecl name initial =>
    cases initial with
    | none => exact h.declare place checked (by rw [hc]; rfl) (holds_of_ne nofun)
    | some e =>
      obtain ⟨code, a, w, d⟩ := x
      cases hc
      -- the name is only being declared, so nothing more has to be ready
      have inside : At statements ⟨plan, m.store⟩ m.scope ⟨.expr e, a, w.declare name, d⟩ :=
        ⟨place.visits.part (List.mem_singleton_self _), place.planned, place.ready.declare name⟩
      exact h.await inside (.inl rfl) (.define place rfl)
  | ifElse condition yes no =>
    obtain ⟨code, a, w, d⟩ := x
    cases hc
    have first : (⟨.expr condition, a, w, d⟩ : Stop) ∈ Stop.parts ⟨.stmt (.ifElse condition yes no), a, w, d⟩ := by
      cases no <;> exact List.mem_cons_self
    exact h.await (place.part first rfl rfl) (.inl rfl) (.choose place rfl)
  | whileDo condition body =>
    obtain ⟨code, a, w, d⟩ := x
    cases hc
    exact h.await (place.part List.mem_cons_self rfl rfl) (.inl rfl) (.test place rfl)
  | ret keyword value =>
    have inside := checked.clean.return_inside hc
    cases value with
    | none => exact Owes.finish h ⟨holds_of_ne nofun, inside.1, fun _ => rfl⟩
    | some e =>
      obtain ⟨code, a, w, d⟩ := x
      cases hc
      have part := place.part (y := ⟨.expr e, a, w.checkReturn a.body keyword true, d⟩) (List.mem_singleton_self _)
        (Walk.scopes_checkReturn _ _ _ _) rfl
      exact h.await part (.inl rfl) (.giveBack place rfl)

/-! ## Expressions -/

theorem Owes.giveVariable (h : Owes statements plan .value m) (place : Place) (name : Token) :
    Conforms statements (m.giveVariable place name) := by
  unfold Machine.giveVariable
  split
  · next v hv => exact h.give (h.sound.read? hv).1
  · exact h.fail name nofun nofun

theorem Owes.assignVariable (h : Owes statements plan .value m) (place : Place) {name : Token}
    (nameable : Nameable name.lexeme) {v : Value} (hv : Holds statements ⟨plan, m.store⟩ v) :
    Conforms statements (m.assignVariable place name v) := by
  unfold Machine.assignVariable
  split
  · next s hs =>
    have written := h.sound.write? hv (Value.fitsWord_of_nameable nameable v) hs
    exact (h.grow written).give (written.1.holds hv)
  · exact h.fail name nofun nofun

theorem Owes.evaluate (h : Owes statements plan .value m) (resolved : Resolved statements table)
    (place : At statements ⟨plan, m.store⟩ m.scope x) {e : Expr} (he : x.Evaluates e) :
    Conforms statements (m.evaluate table.place e) := by
  have checked := resolved.checked place.visits
  rcases he with hc | ⟨name, rs, hc⟩
  · obtain ⟨code, a, w, d⟩ := x
    cases hc
    cases e with
    | literal value => exact h.give (holds_of_ne (by cases value <;> nofun))
    | group e => exact h.eval (place.part (List.mem_singleton_self _) rfl rfl) (.inl rfl)
    | unary operator e =>
      exact h.await (place.part (List.mem_singleton_self _) rfl rfl) (.inl rfl) (.unary place rfl)
    | binary operator l r => exact h.await (place.part List.mem_cons_self rfl rfl) (.inl rfl) (.left place rfl)
    | logical operator l r => exact h.await (place.part List.mem_cons_self rfl rfl) (.inl rfl) (.logical place rfl)
    | ref id name => exact h.giveVariable _ name
    | assign id name e =>
      exact h.await (place.part (List.mem_singleton_self _) rfl rfl) (.inl rfl) (.assign place rfl)
    | call f paren es => exact h.await (place.part List.mem_cons_self rfl rfl) (.inl rfl) (.callee place rfl)
    | get o name => exact h.await (place.part (List.mem_singleton_self _) rfl rfl) (.inl rfl) .property
    | set o name v => exact h.await (place.second rfl) (.inl rfl) (.target place rfl)
    | self id keyword => exact h.giveVariable _ keyword
    | super id keyword method => exact h.giveSuper resolved place rfl
  · -- a superclass is a variable, whatever its place
    obtain ⟨id, parent, rfl, -⟩ := checked.namesClass hc
    exact h.giveVariable _ parent

/-! ## Values -/

theorem Owes.printValue (h : Owes statements plan x.ending m) (place : At statements ⟨plan, m.store⟩ m.scope x)
    (none : x.code.declared = []) (v : Value) : Conforms statements (m.printValue v) := by
  unfold Machine.printValue
  dsimp only
  split
  · exact Owes.done (m := { m with sink := _ }) ⟨h.sound, h.stacked⟩ place none
  · exact ⟨plan, _, ⟨h.sound, h.stacked⟩, trivial⟩

/-- A branch or a loop's body ends where the whole statement does, for it declares nothing. -/
theorem Owes.inside {y : Stop} (h : Owes statements plan x.ending m) (body : y.around.body = x.around.body)
    (scopes : y.walk.scopes = x.walk.scopes) (hx : x.code.declared = []) (hy : y.code.declared = []) :
    Owes statements plan y.ending m := by
  have same : y.ending = x.ending := by simp only [Stop.ending, Stop.scopes_after, body, scopes, hx, hy]
  exact same ▸ h

theorem Owes.branch (h : Owes statements plan x.ending m) (resolved : Resolved statements table)
    (place : At statements ⟨plan, m.store⟩ m.scope x) {condition : Expr} {yes : Stmt} {no : Option Stmt}
    (hc : x.code = .stmt (.ifElse condition yes no)) (v : Value) : Conforms statements (m.branch v yes no) := by
  have checked := resolved.checked place.visits
  obtain ⟨code, a, w, d⟩ := x
  cases hc
  have scopes := Expr.scopes_walk a.home condition w
  let first : Stop := ⟨.stmt yes, a, condition.walk a.home w, d⟩
  unfold Machine.branch
  cases no with
  | none =>
    have quiet : yes.declared = [] := checked.formed.2.2
    have mem : first ∈ Stop.parts ⟨.stmt (.ifElse condition yes none), a, w, d⟩ :=
      List.mem_cons_of_mem _ (List.mem_singleton_self _)
    split
    · exact (h.inside (y := first) rfl scopes quiet quiet).exec (place.part mem scopes rfl) rfl
    · exact h.done place quiet
  | some no =>
    obtain ⟨-, ⟨-, quiet⟩, -, quiet'⟩ := checked.formed
    have none : yes.declared ++ no.declared = [] := by rw [quiet, quiet']; rfl
    have mem : first ∈ Stop.parts ⟨.stmt (.ifElse condition yes (some no)), a, w, d⟩ :=
      List.mem_cons_of_mem _ List.mem_cons_self
    let second : Stop := ⟨.stmt no, a, yes.walk a (condition.walk a.home w), d⟩
    have mem' : second ∈ Stop.parts ⟨.stmt (.ifElse condition yes (some no)), a, w, d⟩ :=
      List.mem_cons_of_mem _ (List.mem_cons_of_mem _ (List.mem_singleton_self _))
    have scopes' : second.walk.scopes = w.scopes := by
      show (yes.walk a (condition.walk a.home w)).scopes = w.scopes
      rw [Stmt.scopes_walk, quiet, settle_nil, scopes]
    split
    · exact (h.inside (y := first) rfl scopes none quiet).exec (place.part mem scopes rfl) rfl
    · exact (h.inside (y := second) rfl scopes' none quiet').exec (place.part mem' scopes' rfl) rfl

theorem Owes.loop (h : Owes statements plan x.ending m) (resolved : Resolved statements table)
    (place : At statements ⟨plan, m.store⟩ m.scope x) {condition : Expr} {body : Stmt}
    (hc : x.code = .stmt (.whileDo condition body)) :
    Conforms statements (m.perform body (.again condition body)) := by
  have checked := resolved.checked place.visits
  obtain ⟨code, a, w, d⟩ := x
  cases hc
  have scopes := Expr.scopes_walk a.home condition w
  let inner : Stop := ⟨.stmt body, a, condition.walk a.home w, d⟩
  have mem : inner ∈ Stop.parts ⟨.stmt (.whileDo condition body), a, w, d⟩ :=
    List.mem_cons_of_mem _ (List.mem_singleton_self _)
  exact Owes.perform (x := inner) h (place.part mem scopes rfl) rfl
    (.again (x := ⟨.stmt (.whileDo condition body), a, w, d⟩) place rfl)

/-- A value is handed to the frame that takes it. -/
theorem receive_conforms (resolved : Resolved statements table) (sound : Sound statements ⟨plan, m.store⟩)
    {frame : Frame} {d : Demand} {id : ScopeId} (takes : Takes statements ⟨plan, m.store⟩ .value m.scope frame d id)
    (below : Stacked statements ⟨plan, m.store⟩ d id m.frames) {v : Value}
    (hv : Holds statements ⟨plan, m.store⟩ v) : Conforms statements (receive table.place m v frame) := by
  cases takes with
  | discard place hc => exact Owes.done ⟨sound, below⟩ place (by rw [hc]; rfl)
  | print place hc => exact Owes.printValue ⟨sound, below⟩ place (by rw [hc]; rfl) v
  | define place hc =>
    have grows := sound.grows_define place.planned
    exact Owes.declare ⟨sound, below⟩ place (resolved.checked place.visits) (by rw [hc]; rfl) ((grows _ v).holds hv)
  | choose place hc => exact Owes.branch ⟨sound, below⟩ resolved place hc v
  | test place hc =>
    have quiet := (hc ▸ (resolved.checked place.visits).formed).2.2
    simp only [receive]
    split
    · exact Owes.loop ⟨sound, below⟩ resolved place hc
    · exact Owes.done ⟨sound, below⟩ place (by rw [hc]; exact quiet)
  | giveBack place hc =>
    have inside := (resolved.checked place.visits).clean.return_inside hc
    exact Owes.finish ⟨sound, below⟩ ⟨hv, inside.1, fun hb => nomatch inside.2 hb⟩
  | inherit place hc =>
    simp only [receive]
    split
    · exact Owes.declareClass ⟨sound, below⟩ resolved place hc rfl
    · exact Owes.fail ⟨sound, below⟩ _ nofun nofun
  | unary place hc =>
    have formed := (resolved.checked place.visits).formed
    rw [hc] at formed
    exact Owes.giveResult ⟨sound, below⟩ (Operator.plain_unary formed.1 v) _
  | left place hc =>
    rename_i x operator l r
    obtain ⟨code, a, w, d⟩ := x
    cases hc
    exact Owes.await ⟨sound, below⟩ (place.second rfl) (.inl rfl) (.right place rfl)
  | right place hc =>
    have formed := (resolved.checked place.visits).formed
    rw [hc] at formed
    exact Owes.giveResult ⟨sound, below⟩ (Operator.plain_binary formed.1 _ v) _
  | logical place hc =>
    rename_i x operator l r
    obtain ⟨code, a, w, d⟩ := x
    cases hc
    simp only [receive]
    split
    · exact Owes.give ⟨sound, below⟩ hv
    · exact Owes.eval ⟨sound, below⟩ (place.second rfl) (.inl rfl)
  | assign place hc =>
    have formed := (resolved.checked place.visits).formed
    rw [hc] at formed
    exact Owes.assignVariable ⟨sound, below⟩ _ formed.1 hv
  | callee place hc =>
    rename_i x f paren arguments
    obtain ⟨code, a, w, d⟩ := x
    cases hc
    exact Owes.nextArgument ⟨sound, below⟩ resolved (place.second rfl) rfl hv nofun
  | argument place hc holds given =>
    rename_i x e rest paren callee values
    obtain ⟨code, a, w, d⟩ := x
    cases hc
    exact Owes.nextArgument ⟨sound, below⟩ resolved (place.second rfl) rfl holds (List.forall_mem_cons.2 ⟨hv, given⟩)
  | property =>
    simp only [receive]
    split
    · exact Owes.giveProperty ⟨sound, below⟩ resolved _ _
    · exact Owes.fail ⟨sound, below⟩ _ nofun nofun
  | target place hc =>
    rename_i x o name e
    obtain ⟨code, a, w, d⟩ := x
    cases hc
    simp only [receive]
    split
    · exact Owes.await ⟨sound, below⟩ (place.part List.mem_cons_self rfl rfl) (.inl rfl) .store
    · exact Owes.fail ⟨sound, below⟩ _ nofun nofun
  | store =>
    rename_i object name
    have stored := sound.setField object name.lexeme hv
    exact Owes.give (Owes.grow ⟨sound, below⟩ stored) (stored.1.holds hv)
  | construct => exact Owes.give ⟨sound, below⟩ (holds_of_ne nofun)
  | leave =>
    exact Owes.give (m := { m with depth := m.depth - 1 }) ⟨sound, below⟩ hv

/-! ## Ends of statements -/

/-- The value of a call whose body has ended. -/
theorem holds_bodyValue {w : World} (sound : Sound statements w) (c : Closure) {completion : Completion} {b : Body}
    {scopes : List Declarations} {id : ScopeId} (ends : Ends statements w b scopes id completion) :
    Holds statements w (bodyValue w.store c completion) := by
  unfold bodyValue
  split
  · cases hv : w.store.valueIn? c.scope thisName with
    | none => exact holds_of_ne nofun
    | some v => exact (sound.values _ _ v hv).1
  · cases completion with
    | normal => exact holds_of_ne nofun
    | returned v => exact ends.1

/-- The end of a statement is handed to the frame that takes it. -/
theorem resume_conforms (sound : Sound statements ⟨plan, m.store⟩)
    {frame : Frame} {b : Body} {scopes : List Declarations} {d : Demand} {id : ScopeId}
    (takes : Takes statements ⟨plan, m.store⟩ (.ending b scopes) m.scope frame d id)
    (below : Stacked statements ⟨plan, m.store⟩ d id m.frames) {c : Completion}
    (ends : Ends statements ⟨plan, m.store⟩ b scopes m.scope c) : Conforms statements (resume m c frame) := by
  cases takes with
  | sequence visits planned hc =>
    rename_i x rest
    obtain ⟨code, a, w, whole⟩ := x
    cases hc
    cases c with
    | returned v => exact Owes.finish ⟨sound, below⟩ ends
    | normal =>
      cases rest with
      | nil => exact Owes.finish ⟨sound, below⟩ ends
      | cons s rest =>
        have place : At statements ⟨plan, m.store⟩ m.scope ⟨.stmt s, a, w, whole⟩ :=
          ⟨visits.part List.mem_cons_self, planned, ends⟩
        have later := visits.part (y := ⟨.stmts rest, a, s.walk a w, whole⟩)
          (List.mem_cons_of_mem _ (List.mem_singleton_self _))
        exact Owes.perform (x := ⟨.stmt s, a, w, whole⟩) ⟨sound, below⟩ place rfl
          (.sequence (x := ⟨.stmts rest, a, s.walk a w, whole⟩) later planned rfl)
  | again place hc =>
    rename_i x condition body
    cases c with
    | returned v => exact Owes.finish ⟨sound, below⟩ ends
    | normal =>
      obtain ⟨code, a, w, whole⟩ := x
      cases hc
      exact Owes.await ⟨sound, below⟩ (place.part List.mem_cons_self rfl rfl) (.inl rfl) (.test place rfl)
  | leaveScope place hc =>
    rename_i x body
    have back : Owes statements plan x.ending { m with scope := id } := ⟨sound, below⟩
    cases c with
    | returned v => exact Owes.finish back ends
    | normal => exact Owes.done back place (by rw [hc]; rfl)
  | body callable =>
    rename_i closure x
    have back : Owes statements plan .value { m with scope := id } := ⟨sound, below⟩
    exact back.give (holds_bodyValue sound closure ends)

/-! ## Failures -/

/-- A frame is taken off a failed machine. -/
theorem unwind_conforms (sound : Sound statements ⟨plan, m.store⟩) {frame : Frame} {d d' : Demand} {id : ScopeId}
    (takes : Takes statements ⟨plan, m.store⟩ d m.scope frame d' id)
    (below : Stacked statements ⟨plan, m.store⟩ d' id m.frames) {e : Failure} (possible : e.Possible) :
    Conforms statements (unwind m e frame) := by
  cases takes <;> exact ⟨plan, _, ⟨sound, below⟩, possible⟩

/-! ## Steps and runs -/

/-- A step keeps a machine conforming. -/
theorem Conforms.step (resolved : Resolved statements table) (h : Conforms statements m) :
    Conforms statements (m.step table.place) := by
  obtain ⟨plan, d, ⟨sound, stacked⟩, gives⟩ := h
  obtain ⟨control, frames, scope, depth, store, sink⟩ := m
  cases control with
  | exec s =>
    obtain ⟨x, place, hc, rfl⟩ := gives
    exact Owes.execute ⟨sound, stacked⟩ resolved place hc
  | eval e =>
    obtain ⟨rfl, x, place, he⟩ := gives
    exact Owes.evaluate ⟨sound, stacked⟩ resolved place he
  | value v =>
    obtain ⟨rfl, hv⟩ := gives
    cases stacked with
    | @cons _ _ f d' id' rest takes below =>
      exact receive_conforms (m := ⟨.value v, rest, scope, depth, store, sink⟩) resolved sound takes below hv
  | finished c =>
    obtain ⟨b, scopes, rfl, ends⟩ := gives
    cases stacked with
    | nil => exact ⟨plan, _, ⟨sound, .nil⟩, .top, [], rfl, ends⟩
    | @cons _ _ f d' id' rest takes below =>
      exact resume_conforms (m := ⟨.finished c, rest, scope, depth, store, sink⟩) sound takes below ends
  | failed e =>
    cases stacked with
    | nil => exact ⟨plan, _, ⟨sound, .nil⟩, gives⟩
    | @cons _ _ f d' id' rest takes below =>
      exact unwind_conforms (m := ⟨.failed e, rest, scope, depth, store, sink⟩) sound takes below gives

theorem sound_initial (statements : List Stmt) : Sound statements ⟨[[]], Store.initial⟩ where
  size := rfl
  globals := ⟨rfl, rfl⟩
  only
    | 0, _ => rfl
  planned
    | 0, _, _, h => by cases h
  values
    | 0, _, _, h => by cases h
  fields _ _ h := by cases h
  methods _ _ h := by cases h

theorem conforms_start (statements : List Stmt) (sink : Sink) : Conforms statements (start sink statements) := by
  have ends : (Stop.start statements).ending = .ending .top [] := by
    rw [Stop.ending, Stop.scopes_after]
    rfl
  have below : Stacked statements ⟨[[]], Store.initial⟩ (Stop.start statements).ending Store.globalScope [] :=
    ends ▸ .nil
  exact ⟨[[]], .ending .top [], ⟨sound_initial statements, .cons (.sequence (.start statements) rfl rfl) below⟩,
    .top, [], rfl, trivial⟩

/-- However far a program runs, the machine conforms. -/
theorem conforms_iterate (resolved : Resolved statements table) (sink : Sink) (n : Nat) :
    Conforms statements ((step table.place)^[n] (start sink statements)) := by
  induction n with
  | zero => exact conforms_start statements sink
  | succ n ih =>
    rw [Function.iterate_succ_apply']
    exact ih.step resolved

end Machine

end Lox
