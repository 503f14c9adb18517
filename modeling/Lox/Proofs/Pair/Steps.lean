/-
Every step on both sides leads on side by side, or to failures that are alike: starting a statement or an expression,
and handing a value or an end to the frames that wait for it. Where a pass of a loop starts or ends, or a call is left by
`return`, it takes more than one step.
-/
import Lox.Proofs.Machine.Steps
import Lox.Proofs.Pair.Loop

namespace Lox

/-! ## Values -/

/-- What an operator between two values gives is no function. -/
theorem Operator.binary_ne_closure {operator : Token} {a b v : Value} (h : binary operator a b = .ok v)
    (id : ClosureId) : v ≠ .closure id := by
  by_cases hk : operator.kind ∈ binaryKinds
  · have plain := plain_binary hk a b
    rw [h] at plain
    exact plain id
  · unfold binary at h
    split at h
    all_goals simp_all [binaryKinds]

/-- What an operator before a value gives is no function. -/
theorem Operator.unary_ne_closure {operator : Token} {a v : Value} (h : unary operator a = .ok v) (id : ClosureId) :
    v ≠ .closure id := by
  by_cases hk : operator.kind ∈ signs
  · have plain := plain_unary hk a
    rw [h] at plain
    exact plain id
  · unfold unary at h
    split at h
    all_goals simp_all [signs]

theorem Value.ofLiteral_ne_closure (value : Literal) (id : ClosureId) : ofLiteral value ≠ .closure id := by
  cases value
  all_goals
    rintro ⟨⟩

namespace Machine

open Sides

variable {p : Pairing} {tie : ScopeId → Option (ScopeId × Tie)} {since : ScopeId} {m m' : Machine} {links : List Link}

namespace Twins

theorem giveResult (h : Twins p tie since .value m m') {result : Except RuntimeFault Value}
    (plain : ∀ v, result = .ok v → ∀ id, v ≠ .closure id) (site : Token) :
    Next p (m.giveResult result site) (m'.giveResult result site) := by
  cases result with
  | ok v => exact h.give (holds_of_ne (plain v rfl))
  | error fault => exact h.fail fault site

/-! ## Starting -/

theorem execute (h : Twins p tie since .ending m m') {s s' : Stmt}
    (place : At p ⟨tie, m.store, m'.store⟩ since m.scope m'.scope (.stmt s) (.stmt s')) :
    Next p (m.execute s) (m'.execute s') := by
  obtain ⟨links, stands, alike⟩ := place
  cases alike with
  | expression e => exact h.await ⟨links, stands, e⟩ .discard
  | print e => exact h.await ⟨links, stands, e⟩ .print
  | varDecl _ declares => exact h.declare (stands.shares_declared declares) (holds_of_ne fun _ e => by cases e)
  | varInit _ declares e => exact h.await ⟨links, stands, e⟩ (.define (stands.shares_declared declares))
  | block t body => exact h.openBlock stands body
  | ifThen e yes => exact h.await ⟨links, stands, e⟩ (.choose ⟨links, stands, .ifThen e yes⟩)
  | ifElse e yes no => exact h.await ⟨links, stands, e⟩ (.choose ⟨links, stands, .ifElse e yes no⟩)
  | whileDo e body => exact h.await ⟨links, stands, e⟩ (.test ⟨links, stands, .whileDo e body⟩)
  | passes other copies e clause body =>
    exact h.await ⟨_, stands, e⟩ (.test ⟨_, stands, .passes other copies e clause body⟩)
  | funDecl plain declares r => exact h.declareRoutine stands plain declares r
  | ret keyword =>
    refine h.finish _ fun v e => ?_
    cases e
    exact holds_of_ne fun _ e => by cases e
  | retValue keyword e => exact h.await ⟨links, stands, e⟩ .giveBack
  | classDecl plain declares methods => exact h.declareClass stands plain declares none methods
  | subclass plain declares e methods =>
    exact h.await ⟨links, stands, e⟩ (.inherit ⟨links, stands, .subclass plain declares e methods⟩)
  | forLoop loops => exact loops.elim

theorem evaluate (h : Twins p tie since .value m m') {e e' : Expr}
    (place : At p ⟨tie, m.store, m'.store⟩ since m.scope m'.scope (.expr e) (.expr e')) :
    Next p (m.evaluate p.table.place e) (m'.evaluate p.table'.place e') := by
  obtain ⟨links, stands, alike⟩ := place
  cases alike with
  | literal value => exact h.give (holds_of_ne (Value.ofLiteral_ne_closure value))
  | group e => exact h.eval ⟨links, stands, e⟩
  | unary operator e => exact h.await ⟨links, stands, e⟩ .unary
  | binary operator l r => exact h.await ⟨links, stands, l⟩ (.left ⟨links, stands, r⟩)
  | logical operator l r => exact h.await ⟨links, stands, l⟩ (.logical ⟨links, stands, r⟩)
  | @ref _ id _ _ like finds =>
    simp only [Machine.evaluate, Table.place_eq]
    exact h.giveVariable stands like finds
  | assign like finds e => exact h.await ⟨links, stands, e⟩ (.assign ⟨links, stands, .assign like finds e⟩)
  | call paren f es => exact h.await ⟨links, stands, f⟩ (.callee ⟨links, stands, es⟩)
  | get name o => exact h.await ⟨links, stands, o⟩ .property
  | set name o v => exact h.await ⟨links, stands, o⟩ (.target ⟨links, stands, v⟩)
  | @self _ id keyword word finds =>
    simp only [Machine.evaluate, Table.place_eq]
    exact h.giveVariable stands (.inl rfl) (word.symm ▸ finds)
  | @super _ id keyword method finds =>
    obtain ⟨i, j, entry, entry', super, this⟩ := finds
    simp only [Machine.evaluate, Table.place_eq, entry, entry']
    exact h.giveSuper stands super this keyword method

/-! ## Handing on a value -/

theorem branch (h : Twins p tie since .ending m m') {e e' : Expr} {yes yes' : Stmt} {no no' : Option Stmt}
    (place : At p ⟨tie, m.store, m'.store⟩ since m.scope m'.scope (.stmt (.ifElse e yes no))
      (.stmt (.ifElse e' yes' no'))) (v : Value) : Next p (m.branch v yes no) (m'.branch v yes' no') := by
  obtain ⟨links, stands, alike⟩ := place
  unfold Machine.branch
  cases alike with
  | ifThen _ yes =>
    split
    · exact h.exec ⟨links, stands, yes⟩
    · exact h.done
  | ifElse _ yes no =>
    split
    · exact h.exec ⟨links, stands, yes⟩
    · exact h.exec ⟨links, stands, no⟩

theorem inherit (h : Twins p tie since .ending m m') {name : Token} {e e' : Expr} {rs rs' : List (Routine Stmt)}
    (place : At p ⟨tie, m.store, m'.store⟩ since m.scope m'.scope (.stmt (.classDecl name (some e) rs))
      (.stmt (.classDecl name (some e') rs'))) (v : Value) :
    Next p (receive p.table.place m v (.inherit name e rs)) (receive p.table'.place m' v (.inherit name e' rs')) := by
  obtain ⟨links, stands, alike⟩ := place
  cases alike with
  | subclass plain declares superclass methods =>
  have site : (superclassSite name e).Like p.change (superclassSite name e') := by
    rcases Alike.ref_iff superclass with ⟨id, parent, parent', rfl, rfl, like⟩ | ⟨no, no'⟩
    · exact like
    · have own (e : Expr) (h : ∀ id parent, e ≠ .ref id parent) : superclassSite name e = name := by
        unfold superclassSite
        split
        · exact absurd rfl (h _ _)
        · rfl
      rw [own e no, own e' no']
      exact .inl rfl
  cases v with
  | cls id => exact h.declareClass stands plain declares (some id) methods
  | nil | bool _ | number _ | string _ | closure _ | object _ => exact h.failAt _ site

/-- A loop goes on or ends. If a pass of a loop over a variable starts, both sides take some steps more. -/
theorem test {statements : List Stmt} (resolved : Resolved statements p.table) (h : Twins p tie since .ending m m')
    {e e' : Expr} {body body' : Stmt}
    (place : At p ⟨tie, m.store, m'.store⟩ since m.scope m'.scope (.stmt (.whileDo e body)) (.stmt (.whileDo e' body')))
    (v : Value) (conforms : Conforms statements (Machine.receive p.table.place m v (.test e body))) :
    ∃ n n', Next p ((step p.table.place)^[n] (Machine.receive p.table.place m v (.test e body)))
      ((step p.table'.place)^[n'] (Machine.receive p.table'.place m' v (.test e' body'))) := by
  obtain ⟨links, stands, alike⟩ := place
  by_cases truthy : v.isTruthy = true
  · simp only [Machine.receive, if_pos truthy] at conforms ⊢
    cases alike with
    | whileDo test body =>
      exact ⟨0, 0, h.perform ⟨links, stands, body⟩ (.again ⟨links, stands, .whileDo test body⟩)⟩
    | passes other copies test clause body =>
      have takes := Takes.again (p := p) ⟨_, stands, .passes other copies test clause body⟩
      obtain ⟨n, n', together⟩ := h.loopPasses resolved stands other copies clause body takes conforms
      exact ⟨n, n', .inl together⟩
  · simp only [Machine.receive, if_neg truthy]
    exact ⟨0, 0, h.done⟩

/-- A value is handed to the frames that wait for it. -/
theorem receive {statements : List Stmt} (resolved : Resolved statements p.table) {a : Awaits}
    (h : Twins p tie since a m m') {frame frame' : Frame}
    (takes : Takes p ⟨tie, m.store, m'.store⟩ since .value m.scope m'.scope frame frame' a m.scope m'.scope) {v : Value}
    (hv : Holds p ⟨tie, m.store, m'.store⟩ v)
    (conforms : Conforms statements (Machine.receive p.table.place m v frame)) :
    ∃ n n', Next p ((step p.table.place)^[n] (Machine.receive p.table.place m v frame))
      ((step p.table'.place)^[n'] (Machine.receive p.table'.place m' v frame')) := by
  cases takes with
  | test place => exact h.test resolved place v conforms
  | discard => exact ⟨0, 0, h.done⟩
  | print => exact ⟨0, 0, h.printValue hv⟩
  | define shares => exact ⟨0, 0, h.declare shares hv⟩
  | choose place => exact ⟨0, 0, h.branch place v⟩
  | giveBack =>
    refine ⟨0, 0, h.finish (.returned v) fun x e => ?_⟩
    cases e
    exact hv
  | inherit place => exact ⟨0, 0, h.inherit place v⟩
  | @unary _ _ operator => exact ⟨0, 0, h.giveResult (fun _ => Operator.unary_ne_closure) operator⟩
  | left place => exact ⟨0, 0, h.await place .right⟩
  | @right _ _ operator _ => exact ⟨0, 0, h.giveResult (fun _ => Operator.binary_ne_closure) operator⟩
  | logical place =>
    refine ⟨0, 0, ?_⟩
    simp only [Function.iterate_zero, id, Machine.receive]
    split
    · exact h.give hv
    · exact h.eval place
  | assign place =>
    obtain ⟨links, stands, alike⟩ := place
    cases alike with
    | assign like finds _ =>
      refine ⟨0, 0, ?_⟩
      simp only [Function.iterate_zero, id, Machine.receive, Table.place_eq]
      exact h.assignVariable stands like finds hv
  | callee place => exact ⟨0, 0, h.nextArgument place hv fun _ hm => absurd hm List.not_mem_nil⟩
  | argument place holds given => exact ⟨0, 0, h.nextArgument place holds (List.forall_mem_cons.2 ⟨hv, given⟩)⟩
  | @property _ _ name =>
    cases v with
    | object id => exact ⟨0, 0, h.giveProperty id name⟩
    | nil | bool _ | number _ | string _ | closure _ | cls _ => exact ⟨0, 0, h.fail _ name⟩
  | @target _ _ name _ _ place =>
    cases v with
    | object id => exact ⟨0, 0, h.await place .store⟩
    | nil | bool _ | number _ | string _ | closure _ | cls _ => exact ⟨0, 0, h.fail _ name⟩
  | @store _ _ object name =>
    have grown := h.sound.setField object name.lexeme hv
    exact ⟨0, 0, (h.grow grown).give (grown.1.holds hv)⟩
  | construct => exact ⟨0, 0, h.give (holds_of_ne fun _ e => by cases e)⟩
  | leave =>
    have left : Twins p tie since .value { m with depth := m.depth - 1 } { m' with depth := m'.depth - 1 } :=
      ⟨h.sound, h.frames, h.young, congrArg (· - 1) h.depth, h.sink⟩
    exact ⟨0, 0, left.give hv⟩

end Twins

/-! ## Handing on an end -/

/-- Both sides give the same value for a call whose body has ended. -/
theorem bodyValue_eq {s : Sides} (h : Sound p s) {f f' : Closure} (initializer : f'.initializer = f.initializer)
    (word : f.initializer = true → Shares p s f.scope f'.scope thisName thisName) {c : Completion}
    (hc : ∀ v, c = .returned v → Holds p s v) :
    bodyValue s.right f' c = bodyValue s.left f c ∧ Holds p s (bodyValue s.left f c) := by
  unfold bodyValue
  rw [initializer]
  split
  · next hi =>
    obtain ⟨same, holds⟩ := h.values _ _ _ _ (word hi)
    rw [same]
    refine ⟨rfl, ?_⟩
    cases hv : s.left.valueIn? f.scope thisName with
    | none => exact holds_of_ne fun _ e => by cases e
    | some v => exact holds v hv
  · cases c with
    | normal => exact ⟨rfl, holds_of_ne fun _ e => by cases e⟩
    | returned v => exact ⟨rfl, hc v rfl⟩

/-- The end of a call: the callers go on with the same value. -/
theorem next_body {s earlier : Sides} {since₀ : ScopeId} (sound : Sound p s) (grows : Grows earlier s)
    (young : since₀ ≤ earlier.left.scopes.size) {f f' : Closure} (initializer : f'.initializer = f.initializer)
    (word : f.initializer = true → Shares p earlier f.scope f'.scope thisName thisName) {caller caller' : ScopeId}
    {frames frames' : List Frame} (below : Frames p earlier since₀ .value caller caller' frames frames')
    {c : Completion} (hc : ∀ v, c = .returned v → Holds p s v) (depth : Nat) (sink : Sink) :
    Together p ⟨.value (bodyValue s.left f c), frames, caller, depth, s.left, sink⟩
      ⟨.value (bodyValue s.right f' c), frames', caller', depth, s.right, sink⟩ := by
  obtain ⟨same, holds⟩ := bodyValue_eq sound initializer (fun hi => grows.shares (word hi)) hc
  rw [same]
  exact ⟨s.tie, since₀, .value, ⟨sound, grows.frames below, Nat.le_trans young grows.left.size, rfl, rfl⟩,
    .value holds⟩

/-- A `return` goes on past all frames of the body it stands in. The ties that the passes on the way have handed on
stay where they are, for no frame below the call knows them. -/
theorem meets_returned {s : Sides} {a : Awaits} {i i' : ScopeId} {frames frames' : List Frame}
    (hf : Frames p s since a i i' frames frames') (ha : a = .ending) {now : Sides} (sound : Sound p now)
    (left : now.left = s.left) (right : now.right = s.right) (same : ∀ k, k < since → now.tie k = s.tie k) {v : Value}
    (hv : Holds p now v) (depth : Nat) (sink : Sink) :
    frames = [] ∧ frames' = [] ∨
      Meets p ⟨.finished (.returned v), frames, i, depth, now.left, sink⟩
        ⟨.finished (.returned v), frames', i', depth, now.right, sink⟩ := by
  have holds : ∀ x, Completion.returned v = .returned x → Holds p now x := fun x e => by
    cases e
    exact hv
  -- once some frames are gone, either none are left or the others go as well
  have gone {since : ScopeId} {s : Sides} {i i' j j' : ScopeId} {frames frames' all all' : List Frame} (n n' : Nat)
      (below : Frames p s since .ending i i' frames frames')
      (h : frames = [] ∧ frames' = [] ∨
        Meets p ⟨.finished (.returned v), frames, i, depth, now.left, sink⟩
          ⟨.finished (.returned v), frames', i', depth, now.right, sink⟩)
      (steps : (step p.table.place)^[n + 1] ⟨.finished (.returned v), all, j, depth, now.left, sink⟩ =
        ⟨.finished (.returned v), frames, i, depth, now.left, sink⟩)
      (steps' : (step p.table'.place)^[n' + 1] ⟨.finished (.returned v), all', j', depth, now.right, sink⟩ =
        ⟨.finished (.returned v), frames', i', depth, now.right, sink⟩) :
      Meets p ⟨.finished (.returned v), all, j, depth, now.left, sink⟩
        ⟨.finished (.returned v), all', j', depth, now.right, sink⟩ := by
    rcases h with ⟨rfl, rfl⟩ | h
    · refine ⟨n, n', ?_⟩
      rw [steps, steps']
      cases below
      exact .inl ⟨now.tie, 0, .ending, ⟨sound, .nil, Nat.zero_le _, rfl, rfl⟩, .finished _ holds⟩
    · rw [← steps, ← steps'] at h
      exact h.after (n + 1) (n' + 1)
  induction hf with
  | nil => exact .inl ⟨rfl, rfl⟩
  | cons takes below ih =>
    subst ha
    cases takes with
    | sequence _ | again _ | leaveScope => exact .inr (gone 0 0 below (ih rfl left right same) rfl rfl)
  | @body s earlier since since₀ i i' f f' caller caller' frames frames' grows bound size young initializer word below =>
    have later : Grows earlier now := by
      refine ⟨fun k x hx => ?_, fun k lt hx => ?_, left ▸ grows.left, right ▸ grows.right⟩
      · have lt : k < since := by
          by_contra ge
          cases (bound k (Nat.le_of_not_lt ge)).symm.trans hx
        rw [same k lt]
        exact grows.tied k x hx
      · rw [same k (Nat.lt_of_lt_of_le lt size)]
        exact grows.untied k lt hx
    exact .inr (Next.meets (.inl (next_body sound later young initializer word below holds depth sink)))
  | pass pass below ih =>
    refine .inr (gone 3 1 below (ih rfl left right fun k lt => ?_) rfl rfl)
    rw [same k lt, hand_tie_other _ (Nat.ne_of_lt (Nat.lt_of_lt_of_le lt pass.young.1))
      (Nat.ne_of_lt (Nat.lt_of_lt_of_le lt pass.young.2))]
  | clause pass _ below ih =>
    refine .inr (gone 4 0 below (ih rfl left right fun k lt => ?_) rfl rfl)
    rw [same k lt, hand_tie_other _ (Nat.ne_of_lt (Nat.lt_of_lt_of_le lt pass.young.1))
      (Nat.ne_of_lt (Nat.lt_of_lt_of_le lt pass.young.2))]

/-- The statements of a sequence follow one another. -/
theorem Twins.nextStatement (h : Twins p tie since .ending m m') {rest rest' : List Stmt}
    (place : At p ⟨tie, m.store, m'.store⟩ since m.scope m'.scope (.stmts rest) (.stmts rest')) :
    Next p (resume m .normal (.sequence rest)) (resume m' .normal (.sequence rest')) := by
  obtain ⟨links, stands, alike⟩ := place
  cases alike with
  | noStmts => exact h.done
  | moreStmts first rest => exact h.perform ⟨links, stands, first⟩ (.sequence ⟨links, stands, rest⟩)

/-- An end without a `return` is handed to the frames that wait for it. -/
theorem meets_normal {s : Sides} {i i' : ScopeId} {frames frames' : List Frame}
    (hf : Frames p s since .ending i i' frames frames') (sound : Sound p s) (young : since ≤ s.left.scopes.size)
    (depth : Nat) (sink : Sink) :
    frames = [] ∧ frames' = [] ∨
      Meets p ⟨.finished .normal, frames, i, depth, s.left, sink⟩ ⟨.finished .normal, frames', i', depth, s.right, sink⟩ := by
  have nothing : ∀ v, Completion.normal = .returned v → Holds p s v := fun v e => by cases e
  have twins {s : Sides} {i i' : ScopeId} {frames frames' : List Frame} (sound : Sound p s)
      (young : since ≤ s.left.scopes.size) (hf : Frames p s since .ending i i' frames frames') :
      Twins p s.tie since .ending ⟨.finished .normal, frames, i, depth, s.left, sink⟩
        ⟨.finished .normal, frames', i', depth, s.right, sink⟩ := ⟨sound, hf, young, rfl, rfl⟩
  generalize ha : Awaits.ending = a at hf
  cases hf with
  | nil => exact .inl ⟨rfl, rfl⟩
  | cons takes below =>
    subst ha
    cases takes with
    | sequence place => exact .inr (Next.meets ((twins sound young below).nextStatement place))
    | again place =>
      obtain ⟨links, stands, alike⟩ := place
      have tested : p.Alike links (.expr _) (.expr _) := Alike.tested alike
      exact .inr (Next.meets ((twins sound young below).await ⟨links, stands, tested⟩ (.test ⟨links, stands, alike⟩)))
    | leaveScope => exact .inr (Next.meets (twins sound young below).done)
  | body grows bound size young₀ initializer word below =>
    exact .inr (Next.meets (.inl (next_body sound grows young₀ initializer word below nothing depth sink)))
  | @pass _ _ _ _ _ _ _ _ _ frames _ pass below =>
    obtain ⟨tie', store, ended, grows, steps⟩ := exists_endPass pass sound frames depth sink
    refine .inr ⟨15, 1, ?_⟩
    rw [steps]
    exact (twins ended (Nat.le_trans young grows.left.size) (grows.frames below)).done
  | @clause _ _ _ _ _ _ _ _ _ _ rest _ frames _ pass place below =>
    obtain ⟨tie', store, ended, grows, steps⟩ := exists_endPass pass sound (.sequence rest :: frames) depth sink
    refine .inr ⟨16, 0, ?_⟩
    rw [Function.iterate_succ_apply', steps]
    exact (twins ended (Nat.le_trans young grows.left.size) (grows.frames below)).nextStatement (grows.at place)

end Machine

end Lox
