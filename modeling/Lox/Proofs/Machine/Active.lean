/-
What a step does to the calls that are active. It starts a call, ends the last one that has started, or leaves all of them
as they are and the frames that wait for them as well (`callStep`). The body of a function has a frame of its own, just
above that of its call (`Bracketed`), so that never more bodies run than calls are active.
-/
import Lox.Proofs.Machine.Atop
import Mathlib.Data.List.Count

namespace Lox

/-! ## Calls -/

/-- How many arguments a value takes when it is called, if it can be called. -/
def Store.arity? (s : Store) : Value → Option Nat
  | .closure id => s.closures[id]?.map Closure.arity
  | .cls id => some (s.classArity id)
  | _ => none

namespace Machine

/-- The call that is made in the next step, if one is, with the callee and the arguments that have been evaluated. -/
def calling? (m : Machine) : Option (Token × Value × List Value) :=
  match m.control, m.frames with
  | .value v, .callee paren [] :: _ => some (paren, v, [])
  | .value v, .argument paren callee values [] :: _ => some (paren, callee, (v :: values).reverse)
  | _, _ => none

/-- A machine that has taken up its first frame. -/
def popped (m : Machine) : Machine := { m with frames := m.frames.tail }

/-- Runs what is called: a function its body, and a class makes an instance and sets it up. -/
def launch (m : Machine) (callee : Value) (arguments : List Value) : Machine :=
  match callee with
  | .closure id =>
    match m.store.closures[id]? with
    | some closure => m.enter closure arguments
    | none => m
  | .cls id => m.construct id arguments
  | _ => m

/-- Whether a call starts in the next step: one is made, and it does not fail. -/
def Starts (place : UseId → Place) (m : Machine) : Prop :=
  m.calling?.isSome = true ∧ (m.step place).failure? = none

variable {place : UseId → Place} {m m' : Machine}

theorem calling?_eq {paren : Token} {callee : Value} {arguments : List Value}
    (h : m.calling? = some (paren, callee, arguments)) :
    (∃ rest, m.control = .value callee ∧ m.frames = .callee paren [] :: rest ∧ arguments = []) ∨
      ∃ v values rest, m.control = .value v ∧ m.frames = .argument paren callee values [] :: rest ∧
        arguments = (v :: values).reverse := by
  unfold calling? at h
  split at h
  · next hc hf =>
    cases h
    exact .inl ⟨_, hc, hf, rfl⟩
  · next hc hf =>
    cases h
    exact .inr ⟨_, _, _, hc, hf, rfl⟩
  · cases h

/-- The step in which a call is made. -/
theorem step_calling {paren : Token} {callee : Value} {arguments : List Value}
    (h : m.calling? = some (paren, callee, arguments)) : m.step place = m.popped.call paren callee arguments := by
  obtain ⟨control, frames, scope, depth, store, sink⟩ := m
  obtain ⟨rest, rfl, rfl, rfl⟩ | ⟨v, values, rest, rfl, rfl, rfl⟩ := calling?_eq h
  · rfl
  · rfl

end Machine

/-! ## Frames -/

/-- Whether a frame stands neither for a call nor for a body. -/
def Frame.Quiet : Frame → Prop
  | .leave | .body _ _ => False
  | _ => True

theorem Frame.Quiet.ne_leave {f : Frame} (h : f.Quiet) : f ≠ .leave := by
  rintro rfl
  exact h

/-- Whether a frame is that of an active call. -/
def Frame.isLeave : Frame → Bool
  | .leave => true
  | _ => false

/-- Whether a frame is that of a body that runs. -/
def Frame.isBody : Frame → Bool
  | .body _ _ => true
  | _ => false

/-- Frames in which every body is that of the call below it, be it of a function or of the initializer of a class. -/
inductive Bracketed : List Frame → Prop
  | nil : Bracketed []
  | other {f frames} : f.isBody = false → Bracketed frames → Bracketed (f :: frames)
  | function {closure caller frames} : Bracketed frames → Bracketed (.body closure caller :: .leave :: frames)
  | initializer {closure caller object frames} : Bracketed frames →
    Bracketed (.body closure caller :: .construct object :: .leave :: frames)

namespace Bracketed

variable {f : Frame} {frames : List Frame}

theorem tail (h : Bracketed (f :: frames)) : Bracketed frames := by
  cases h with
  | other _ below => exact below
  | function below => exact .other rfl below
  | initializer below => exact .other rfl (.other rfl below)

theorem append_quiet (h : Bracketed frames) {above : List Frame} (quiet : ∀ f ∈ above, f.Quiet) :
    Bracketed (above ++ frames) := by
  induction above with
  | nil => exact h
  | cons f above ih =>
    obtain ⟨first, rest⟩ := List.forall_mem_cons.1 quiet
    refine .other ?_ (ih rest)
    cases f with
    | body _ _ => cases first
    | _ => rfl

/-- Never more bodies run than calls are active. -/
theorem count_le (h : Bracketed frames) : frames.countP Frame.isBody ≤ frames.countP Frame.isLeave := by
  induction h with
  | nil => exact Nat.le_refl _
  | other hf _ ih =>
    simp only [List.countP_cons, hf, Bool.false_eq_true, if_false]
    omega
  | function _ ih | initializer _ ih =>
    simp only [List.countP_cons, Frame.isBody, Frame.isLeave, Bool.false_eq_true, if_false, if_true]
    omega

end Bracketed

namespace Machine

variable {place : UseId → Place} {m m' : Machine}

/-- From one machine to a later one with the same calls: quiet frames may have come on top of those there are. -/
def Keeps (m m' : Machine) : Prop :=
  ∃ above, m'.frames = above ++ m.frames ∧ (∀ f ∈ above, f.Quiet) ∧ m'.depth = m.depth

/-! ## Small moves -/

theorem keeps_frames (frames : m'.frames = m.frames) (depth : m'.depth = m.depth) : m.Keeps m' :=
  ⟨[], frames, List.forall_mem_nil _, depth⟩

theorem keeps_push {f : Frame} (frames : m'.frames = f :: m.frames) (quiet : f.Quiet) (depth : m'.depth = m.depth) :
    m.Keeps m' :=
  ⟨[f], frames, List.forall_mem_singleton.2 quiet, depth⟩

theorem keeps_give (v : Value) : m.Keeps (m.give v) := keeps_frames rfl rfl

theorem keeps_finish (c : Completion) : m.Keeps (m.finish c) := keeps_frames rfl rfl

theorem keeps_fail (fault : RuntimeFault) (site : Token) : m.Keeps (m.fail fault site) := keeps_frames rfl rfl

theorem keeps_giveResult (result : Except RuntimeFault Value) (site : Token) : m.Keeps (m.giveResult result site) := by
  cases result with
  | ok v => exact keeps_give v
  | error fault => exact keeps_fail fault site

theorem keeps_giveVariable (place : Place) (name : Token) : m.Keeps (m.giveVariable place name) := by
  unfold giveVariable
  split
  · exact keeps_give _
  · exact keeps_fail _ _

theorem keeps_assignVariable (place : Place) (name : Token) (v : Value) : m.Keeps (m.assignVariable place name v) := by
  unfold assignVariable
  split
  · exact keeps_frames rfl rfl
  · exact keeps_fail _ _

theorem keeps_declareClass (name : Token) (superclass : Option ClassId) (methods : List (Routine Stmt)) :
    m.Keeps (m.declareClass name superclass methods) := by
  unfold declareClass
  dsimp only
  split
  · exact keeps_frames rfl rfl
  · exact keeps_fail _ _

theorem keeps_printValue (v : Value) : m.Keeps (m.printValue v) := by
  unfold printValue
  dsimp only
  split
  · exact keeps_frames rfl rfl
  · exact keeps_frames rfl rfl

theorem keeps_branch (condition : Value) (yes : Stmt) (no : Option Stmt) : m.Keeps (m.branch condition yes no) := by
  unfold branch
  split
  · exact keeps_frames rfl rfl
  · cases no with
    | none => exact keeps_finish _
    | some s => exact keeps_frames rfl rfl

theorem keeps_giveMethod (method : ClosureId) (object : InstanceId) (name : Token) :
    m.Keeps (m.giveMethod method object name) := by
  unfold giveMethod
  split
  · exact keeps_fail _ _
  · exact keeps_frames rfl rfl

theorem keeps_giveProperty (object : InstanceId) (name : Token) : m.Keeps (m.giveProperty object name) := by
  unfold giveProperty
  split
  · exact keeps_fail _ _
  · split
    · exact keeps_give _
    · split
      · exact keeps_giveMethod _ _ _
      · exact keeps_fail _ _

theorem keeps_giveSuper (place : Place) (keyword method : Token) : m.Keeps (m.giveSuper place keyword method) := by
  unfold giveSuper
  split
  · exact keeps_fail _ _
  · split
    · exact keeps_giveMethod _ _ _
    · exact keeps_fail _ _

theorem keeps_execute (s : Stmt) : m.Keeps (m.execute s) := by
  cases s with
  | expression e | print e | ifElse e _ _ | whileDo e _ => exact keeps_push rfl trivial rfl
  | varDecl name initial =>
    cases initial with
    | none => exact keeps_frames rfl rfl
    | some e => exact keeps_push rfl trivial rfl
  | block body =>
    refine ⟨[.sequence body, .leaveScope m.scope], rfl, ?_, rfl⟩
    exact List.forall_mem_cons.2 ⟨trivial, List.forall_mem_singleton.2 trivial⟩
  | funDecl routine => exact keeps_frames rfl rfl
  | ret keyword value =>
    cases value with
    | none => exact keeps_finish _
    | some e => exact keeps_push rfl trivial rfl
  | classDecl name superclass methods =>
    cases superclass with
    | none => exact keeps_declareClass name none methods
    | some e => exact keeps_push rfl trivial rfl

theorem keeps_evaluate (place : UseId → Place) (e : Expr) : m.Keeps (m.evaluate place e) := by
  cases e with
  | literal value => exact keeps_give _
  | group inner => exact keeps_frames rfl rfl
  | ref id name | self id name => exact keeps_giveVariable _ _
  | super id keyword method => exact keeps_giveSuper _ _ _
  | unary _ e | binary _ e _ | logical _ e _ | assign _ _ e | call e _ _ | get e _ | set e _ _ =>
    exact keeps_push rfl trivial rfl

/-- A frame that takes a value keeps the calls, unless it makes one or is that of one. -/
theorem keeps_receive (place : UseId → Place) (v : Value) {frame : Frame}
    (idle : { m with control := .value v, frames := frame :: m.frames }.calling? = none) (quiet : frame.Quiet) :
    m.Keeps (m.receive place v frame) := by
  cases frame with
  | discard => exact keeps_finish _
  | print => exact keeps_printValue v
  | define name => exact keeps_frames rfl rfl
  | choose yes no => exact keeps_branch v yes no
  | test condition body =>
    simp only [receive]
    split
    · exact keeps_push rfl trivial rfl
    · exact keeps_finish _
  | giveBack => exact keeps_finish _
  | inherit name superclass methods =>
    cases v with
    | cls id => exact keeps_declareClass name (some id) methods
    | nil | bool _ | number _ | string _ | closure _ | object _ => exact keeps_fail _ _
  | unary operator | right operator _ => exact keeps_giveResult _ operator
  | left operator e => exact keeps_push rfl trivial rfl
  | logical operator e =>
    simp only [receive]
    split
    · exact keeps_give v
    · exact keeps_frames rfl rfl
  | assign id name => exact keeps_assignVariable _ name v
  | callee paren arguments =>
    cases arguments with
    | nil => cases idle
    | cons e rest => exact keeps_push rfl trivial rfl
  | argument paren callee values arguments =>
    cases arguments with
    | nil => cases idle
    | cons e rest => exact keeps_push rfl trivial rfl
  | property name =>
    cases v with
    | object id => exact keeps_giveProperty id name
    | nil | bool _ | number _ | string _ | closure _ | cls _ => exact keeps_fail _ _
  | target name e =>
    cases v with
    | object id => exact keeps_push rfl trivial rfl
    | nil | bool _ | number _ | string _ | closure _ | cls _ => exact keeps_fail _ _
  | store object name => exact keeps_frames rfl rfl
  | construct object => exact keeps_give _
  | leave | body _ _ => cases quiet
  | sequence _ | again _ _ | leaveScope _ => exact keeps_push rfl trivial rfl

/-- A frame that takes the end of a statement keeps the calls, and that of a body is gone then. -/
theorem keeps_resume (c : Completion) {frame : Frame} (other : frame ≠ .leave) : m.Keeps (m.resume c frame) := by
  cases frame with
  | sequence rest =>
    cases c with
    | returned v => exact keeps_finish _
    | normal =>
      cases rest with
      | nil => exact keeps_finish _
      | cons s rest => exact keeps_push rfl trivial rfl
  | again condition body =>
    cases c with
    | returned v => exact keeps_finish _
    | normal => exact keeps_push rfl trivial rfl
  | leaveScope outer | body closure caller => exact keeps_frames rfl rfl
  | leave => exact absurd rfl other
  | _ => exact keeps_push rfl trivial rfl

theorem keeps_unwind (e : Failure) {frame : Frame} (other : frame ≠ .leave) : m.Keeps (m.unwind e frame) := by
  cases frame with
  | leave => exact absurd rfl other
  | _ => exact keeps_frames rfl rfl

/-! ## Calls that are made -/

/-- A call with as many arguments as are taken starts if not too many calls are active, and fails otherwise. -/
theorem call_of_arity {callee : Value} {arguments : List Value} (h : m.store.arity? callee = some arguments.length)
    (paren : Token) : m.call paren callee arguments =
      if callLimit ≤ m.depth then m.fail .stackOverflow paren else m.activate.launch callee arguments := by
  cases callee with
  | closure id =>
    obtain ⟨closure, found, arity⟩ := Option.map_eq_some_iff.1 h
    have found' : m.activate.store.closures[id]? = some closure := found
    simp only [call, launch, found, found']
    rw [guardCall, if_neg (not_not.2 arity.symm)]
  | cls id =>
    have arity : m.store.classArity id = arguments.length := Option.some.inj h
    simp only [call, launch]
    rw [guardCall, if_neg (not_not.2 arity.symm)]
  | nil | bool _ | number _ | string _ | object _ => cases h

/-- Every other call fails. -/
theorem call_of_not_arity {callee : Value} {arguments : List Value}
    (h : m.store.arity? callee ≠ some arguments.length) (paren : Token) :
    ∃ fault, m.call paren callee arguments = m.fail fault paren := by
  cases callee with
  | closure id =>
    unfold call
    dsimp only
    split
    · next closure found =>
      have other : arguments.length ≠ closure.arity := fun same => h (by rw [Store.arity?, found, same]; rfl)
      exact ⟨_, if_pos other⟩
    · exact ⟨_, rfl⟩
  | cls id =>
    have other : arguments.length ≠ m.store.classArity id := fun same => h (by rw [Store.arity?, same])
    exact ⟨_, if_pos other⟩
  | nil | bool _ | number _ | string _ | object _ => exact ⟨_, rfl⟩

/-- What is launched has at most a body of its own, that of the function or of the initializer. -/
theorem frames_launch {callee : Value} {arity : Nat} (arguments : List Value) (h : m.store.arity? callee = some arity) :
    ∃ above, (m.launch callee arguments).frames = above ++ m.frames ∧ (m.launch callee arguments).depth = m.depth ∧
      (m.launch callee arguments).failure? = none ∧ (∀ f ∈ above, f ≠ .leave) ∧
      ∀ frames, Bracketed frames → Bracketed (above ++ .leave :: frames) := by
  cases callee with
  | closure id =>
    obtain ⟨closure, found, -⟩ := Option.map_eq_some_iff.1 h
    simp only [launch, found]
    refine ⟨[.sequence closure.routine.body, .body closure m.scope], rfl, rfl, rfl, by simp, fun frames below => ?_⟩
    exact .other rfl (.function below)
  | cls id =>
    simp only [launch]
    unfold construct
    dsimp only
    split
    · exact ⟨[], rfl, rfl, rfl, List.forall_mem_nil _, fun frames below => .other rfl below⟩
    · next closure found =>
      refine ⟨[.sequence _, .body _ m.scope, .construct m.store.nextInstance], rfl, rfl, rfl, by simp, fun frames below => ?_⟩
      exact .other rfl (.initializer below)
  | nil | bool _ | number _ | string _ | object _ => cases h

/-! ## Steps -/

/-- What a step does to the calls that are active. -/
inductive CallStep (place : UseId → Place) (m : Machine) : Prop
  /-- One more call is active, with frames above its own; the frame that made it is gone. -/
  | starts (above : List Frame) (starts : m.Starts place) (room : m.depth < callLimit)
    (frames : (m.step place).frames = above ++ .leave :: m.frames.tail) (noCall : ∀ f ∈ above, f ≠ .leave)
    (noCall' : ∀ f ∈ m.frames.head?, f ≠ .leave)
    (bracketed : ∀ frames, Bracketed frames → Bracketed (above ++ .leave :: frames))
    (depth : (m.step place).depth = m.depth + 1)
  /-- The last call that has started ends. -/
  | ends (rest : List Frame) (frames : m.frames = .leave :: rest) (back : (m.step place).IsBack rest)
    (depth : (m.step place).depth = m.depth - 1)
  /-- At most the first frame is gone, which is not that of a call. -/
  | keeps (gone above rest : List Frame) (idle : ¬m.Starts place) (before : m.frames = gone ++ rest)
    (after : (m.step place).frames = above ++ rest) (first : ∀ f ∈ gone, f ≠ .leave) (quiet : ∀ f ∈ above, Frame.Quiet f)
    (depth : (m.step place).depth = m.depth)

theorem not_starts_of_calling? (h : m.calling? = none) : ¬m.Starts place := by
  rintro ⟨made, -⟩
  rw [h] at made
  cases made

theorem CallStep.ofKeeps {gone : List Frame} (m' : Machine) (idle : ¬m.Starts place) (frames : m.frames = gone ++ m'.frames)
    (first : ∀ f ∈ gone, f ≠ .leave) (depth : m'.depth = m.depth) (keeps : m'.Keeps (m.step place)) :
    m.CallStep place := by
  obtain ⟨above, after, quiet, depth'⟩ := keeps
  exact .keeps gone above m'.frames idle frames after first quiet (depth'.trans depth)

/-- A call that is made starts, or fails at once. -/
theorem callStep_of_calling {paren : Token} {callee : Value} {arguments : List Value}
    (h : m.calling? = some (paren, callee, arguments)) : m.CallStep place := by
  have step : m.step place = m.popped.call paren callee arguments := step_calling h
  obtain ⟨frame, own, other⟩ : ∃ frame, m.frames = frame :: m.frames.tail ∧ frame ≠ .leave := by
    obtain ⟨rest, -, frames, -⟩ | ⟨v, values, rest, -, frames, -⟩ := calling?_eq h
    · exact ⟨.callee paren [], by rw [frames]; rfl, nofun⟩
    · exact ⟨.argument paren callee values [], by rw [frames]; rfl, nofun⟩
  have fails {fault : RuntimeFault} (same : m.step place = m.popped.fail fault paren) :
      m.CallStep place := by
    refine .ofKeeps m.popped ?_ own (List.forall_mem_singleton.2 other) rfl ?_
    · rintro ⟨-, success⟩
      rw [same] at success
      cases success
    · rw [same]
      exact keeps_frames rfl rfl
  by_cases arity : m.popped.store.arity? callee = some arguments.length
  · rw [call_of_arity arity] at step
    split at step
    · exact fails step
    · next room =>
      obtain ⟨above, frames, depth, success, noCall, bracketed⟩ :=
        frames_launch (m := m.popped.activate) arguments arity
      rw [← step] at frames depth success
      refine .starts above ⟨by rw [h]; rfl, success⟩ (Nat.lt_of_not_le room) frames noCall ?_ bracketed depth
      rw [own]
      rintro _ ⟨⟩
      exact other
  · obtain ⟨fault, failed⟩ := call_of_not_arity (m := m.popped) arity paren
    exact fails (step.trans failed)

theorem callStep (place : UseId → Place) (m : Machine) : m.CallStep place := by
  cases hc : m.calling? with
  | some call =>
    obtain ⟨paren, callee, arguments⟩ := call
    exact callStep_of_calling hc
  | none =>
    have idle : ¬m.Starts place := not_starts_of_calling? hc
    obtain ⟨control, frames, scope, depth, store, sink⟩ := m
    have none : ∀ f ∈ ([] : List Frame), f ≠ .leave := List.forall_mem_nil _
    cases control with
    | exec s => exact .ofKeeps _ idle rfl none rfl (keeps_execute s)
    | eval e => exact .ofKeeps _ idle rfl none rfl (keeps_evaluate place e)
    | value v =>
      cases frames with
      | nil => exact .ofKeeps _ idle rfl none rfl (keeps_frames rfl rfl)
      | cons frame frames =>
        have one (other : frame ≠ .leave) : ∀ f ∈ [frame], f ≠ .leave := List.forall_mem_singleton.2 other
        let m' : Machine := ⟨.value v, frames, scope, depth, store, sink⟩
        cases frame with
        | leave => exact .ends frames rfl ⟨rfl, rfl⟩ rfl
        | body closure caller => exact .ofKeeps _ idle rfl none rfl (keeps_frames rfl rfl)
        | _ => exact .ofKeeps m' idle rfl (one nofun) rfl (keeps_receive place v hc trivial)
    | finished c =>
      cases frames with
      | nil => exact .ofKeeps _ idle rfl none rfl (keeps_frames rfl rfl)
      | cons frame frames =>
        by_cases other : frame = .leave
        · rw [other] at idle ⊢
          exact .ofKeeps _ idle rfl none rfl (keeps_frames rfl rfl)
        · let m' : Machine := ⟨.finished c, frames, scope, depth, store, sink⟩
          exact .ofKeeps m' idle rfl (List.forall_mem_singleton.2 other) rfl (keeps_resume c other)
    | failed e =>
      cases frames with
      | nil => exact .ofKeeps _ idle rfl none rfl (keeps_frames rfl rfl)
      | cons frame frames =>
        by_cases other : frame = .leave
        · rw [other]
          exact .ends frames rfl ⟨rfl, rfl⟩ rfl
        · let m' : Machine := ⟨.failed e, frames, scope, depth, store, sink⟩
          exact .ofKeeps m' idle rfl (List.forall_mem_singleton.2 other) rfl (keeps_unwind e other)

/-- Every body stays just above its call. -/
theorem bracketed_step (h : Bracketed m.frames) : Bracketed (m.step place).frames := by
  cases callStep place m with
  | starts above _ _ frames _ _ bracketed _ =>
    rw [frames]
    refine bracketed _ ?_
    cases hf : m.frames with
    | nil => exact .nil
    | cons f rest =>
      rw [hf] at h
      exact h.tail
  | ends rest frames back _ =>
    rw [back.1]
    rw [frames] at h
    exact h.tail
  | keeps gone above rest _ before after first quiet _ =>
    rw [after]
    rw [before] at h
    refine Bracketed.append_quiet ?_ quiet
    clear before
    induction gone with
    | nil => exact h
    | cons f gone ih => exact ih h.tail (List.forall_mem_cons.1 first).2

end Machine

end Lox
