/-
The number of active calls is what it says. At every moment of a run it counts the calls that have started and not come
back, to a value or to an error; a call starts just if there are fewer than the limit, and fails where it stands otherwise
(`call_depth`).
-/
import Lox.Diagnostic
import Lox.Program
import Lox.Proofs.Machine.Active
import Lox.Proofs.Program.OneByOne
import Mathlib.Data.Set.Card

namespace Lox.Machine

variable {place : UseId → Place} {m start : Machine} {n : Nat}

/-! ## Calls that have not come back -/

/-- The moments before the `n`th at which a call started whose caller has not got a result since. -/
def activeCalls (place : UseId → Place) (start : Machine) (n : Nat) : Set Nat :=
  {i | i < n ∧ ((step place)^[i] start).Starts place ∧
    ∀ j, i < j → j ≤ n → ¬((step place)^[j] start).IsBack ((step place)^[i] start).popped.frames}

/-- How many bodies of functions run. -/
def bodies (m : Machine) : Nat := m.frames.countP Frame.isBody

theorem mem_activeCalls_succ {i : Nat} : i ∈ activeCalls place start (n + 1) ↔
    (i ∈ activeCalls place start n ∨ i = n ∧ ((step place)^[n] start).Starts place) ∧
      ¬((step place)^[n + 1] start).IsBack ((step place)^[i] start).popped.frames := by
  constructor
  · rintro ⟨lt, starts, busy⟩
    refine ⟨?_, busy (n + 1) lt (Nat.le_refl _)⟩
    rcases Nat.lt_succ_iff_lt_or_eq.1 lt with before | rfl
    · exact .inl ⟨before, starts, fun j hj hn => busy j hj (Nat.le_succ_of_le hn)⟩
    · exact .inr ⟨rfl, starts⟩
  · rintro ⟨⟨lt, starts, busy⟩ | ⟨rfl, starts⟩, now⟩
    · refine ⟨Nat.lt_succ_of_lt lt, starts, fun j hj hn => ?_⟩
      rcases Nat.le_succ_iff.1 hn with before | rfl
      · exact busy j hj before
      · exact now
    · refine ⟨Nat.lt_succ_self _, starts, fun j hj hn => ?_⟩
      obtain rfl : j = i + 1 := Nat.le_antisymm hn hj
      exact now

/-! ## Their frames -/

/-- The frames of calls, from the last call on: below each of them are the frames that waited when it started. -/
inductive Tracks (place : UseId → Place) (start : Machine) : List Nat → List Frame → Prop
  | nil : Tracks place start [] []
  | other {calls f frames} : f ≠ .leave → Tracks place start calls frames → Tracks place start calls (f :: frames)
  | call {i calls frames} : ((step place)^[i] start).popped.frames = frames → Tracks place start calls frames →
    Tracks place start (i :: calls) (.leave :: frames)

namespace Tracks

variable {calls : List Nat} {frames : List Frame}

/-- There is more on the stack than what waits for a call. -/
theorem length_lt (h : Tracks place start calls frames) :
    ∀ i ∈ calls, ((step place)^[i] start).popped.frames.length < frames.length := by
  induction h with
  | nil => exact List.forall_mem_nil _
  | other _ _ ih => exact fun i hi => Nat.lt_succ_of_lt (ih i hi)
  | call waits _ ih =>
    refine List.forall_mem_cons.2 ⟨?_, fun i hi => Nat.lt_succ_of_lt (ih i hi)⟩
    rw [waits]
    exact Nat.lt_succ_self _

theorem not_isBack (h : Tracks place start calls m.frames) {i : Nat} (hi : i ∈ calls) :
    ¬m.IsBack ((step place)^[i] start).popped.frames := by
  rintro ⟨frames, -⟩
  have := h.length_lt i hi
  rw [frames] at this
  exact Nat.lt_irrefl _ this

theorem drop {gone : List Frame} (h : Tracks place start calls (gone ++ frames)) (first : ∀ f ∈ gone, f ≠ .leave) :
    Tracks place start calls frames := by
  induction gone with
  | nil => exact h
  | cons f gone ih =>
    obtain ⟨own, rest⟩ := List.forall_mem_cons.1 first
    cases h with
    | other _ below => exact ih below rest
    | call _ _ => exact absurd rfl own

theorem append {above : List Frame} (h : Tracks place start calls frames) (noCall : ∀ f ∈ above, f ≠ .leave) :
    Tracks place start calls (above ++ frames) := by
  induction above with
  | nil => exact h
  | cons f above ih =>
    obtain ⟨own, rest⟩ := List.forall_mem_cons.1 noCall
    exact .other own (ih rest)

theorem count_eq (h : Tracks place start calls frames) : frames.countP Frame.isLeave = calls.length := by
  induction h with
  | nil => rfl
  | @other _ f _ other _ ih =>
    have own : f.isLeave = false := by
      cases f with
      | leave => exact absurd rfl other
      | _ => rfl
    rw [List.countP_cons_of_neg (by rw [own]; nofun), ih]
  | call _ _ ih => rw [List.countP_cons_of_pos rfl, ih, List.length_cons]

end Tracks

/-- Whether the frames of the calls that are active, and only of these, are on the stack. -/
structure Counted (place : UseId → Place) (start : Machine) (n : Nat) (calls : List Nat) : Prop where
  tracks : Tracks place start calls ((step place)^[n] start).frames
  nodup : calls.Nodup
  mem : ∀ i, i ∈ calls ↔ i ∈ activeCalls place start n
  depth : ((step place)^[n] start).depth = calls.length
  limit : calls.length ≤ callLimit
  bracketed : Bracketed ((step place)^[n] start).frames

/-- The calls whose frames are on the stack after a step are the active ones, if they were active or start with it and all
others that were or do come back. -/
theorem Tracks.mem_iff {calls : List Nat} (tracks : Tracks place start calls ((step place)^[n + 1] start).frames)
    (kept : ∀ i ∈ calls, i ∈ activeCalls place start n ∨ i = n ∧ ((step place)^[n] start).Starts place)
    (others : ∀ i, i ∈ activeCalls place start n ∨ i = n ∧ ((step place)^[n] start).Starts place → i ∉ calls →
      ((step place)^[n + 1] start).IsBack ((step place)^[i] start).popped.frames) (i : Nat) :
    i ∈ calls ↔ i ∈ activeCalls place start (n + 1) := by
  rw [mem_activeCalls_succ]
  constructor
  · exact fun mem => ⟨kept i mem, tracks.not_isBack mem⟩
  · rintro ⟨active, busy⟩
    by_contra gone
    exact busy (others i active gone)

namespace Counted

variable {calls : List Nat} {above rest : List Frame}

theorem bracketed_succ (h : Counted place start n calls) : Bracketed ((Machine.step place)^[n + 1] start).frames := by
  rw [Function.iterate_succ_apply']
  exact bracketed_step h.bracketed

/-- A call that starts is counted. -/
theorem push (h : Counted place start n calls) (starts : ((Machine.step place)^[n] start).Starts place)
    (room : ((Machine.step place)^[n] start).depth < callLimit)
    (frames : ((Machine.step place)^[n + 1] start).frames = above ++ .leave :: ((Machine.step place)^[n] start).frames.tail)
    (noCall : ∀ f ∈ above, f ≠ .leave) (noCall' : ∀ f ∈ ((Machine.step place)^[n] start).frames.head?, f ≠ .leave)
    (depth : ((Machine.step place)^[n + 1] start).depth = ((Machine.step place)^[n] start).depth + 1) :
    Counted place start (n + 1) (n :: calls) := by
  have below : Tracks place start calls ((Machine.step place)^[n] start).frames.tail := by
    have tracks := h.tracks
    cases hf : ((Machine.step place)^[n] start).frames with
    | nil =>
      rw [hf] at tracks
      exact tracks
    | cons f rest =>
      rw [hf] at tracks noCall'
      exact Tracks.drop (show Tracks place start calls ([f] ++ rest) from tracks)
        (List.forall_mem_singleton.2 (noCall' f rfl))
  have tracks : Tracks place start (n :: calls) ((Machine.step place)^[n + 1] start).frames := by
    rw [frames]
    exact .append (.call rfl below) noCall
  have new : n ∉ calls := fun mem => Nat.lt_irrefl n ((h.mem n).1 mem).1
  refine ⟨tracks, List.nodup_cons.2 ⟨new, h.nodup⟩, tracks.mem_iff (fun i mem => ?_) fun i active gone => ?_, ?_, ?_,
    h.bracketed_succ⟩
  · rcases List.mem_cons.1 mem with rfl | mem
    · exact .inr ⟨rfl, starts⟩
    · exact .inl ((h.mem i).1 mem)
  · rcases active with active | ⟨rfl, -⟩
    · exact absurd (List.mem_cons_of_mem _ ((h.mem i).2 active)) gone
    · exact absurd List.mem_cons_self gone
  · rw [depth, h.depth, List.length_cons]
  · rw [List.length_cons, ← h.depth]
    exact room

/-- The call that ends, which is the last that has started, is counted no more. -/
theorem pop (h : Counted place start n calls) (frames : ((Machine.step place)^[n] start).frames = .leave :: rest)
    (back : ((Machine.step place)^[n + 1] start).IsBack rest)
    (depth : ((Machine.step place)^[n + 1] start).depth = ((Machine.step place)^[n] start).depth - 1) :
    Counted place start (n + 1) calls.tail := by
  have tracks := h.tracks
  rw [frames] at tracks
  cases tracks with
  | other own _ => exact absurd rfl own
  | @call last calls _ waits below =>
    have tracks : Tracks place start calls ((Machine.step place)^[n + 1] start).frames := by
      rw [back.1]
      exact below
    have idle : ¬((Machine.step place)^[n] start).Starts place := by
      refine not_starts_of_calling? ?_
      unfold calling?
      rw [frames]
      split <;> simp_all
    refine ⟨tracks, (List.nodup_cons.1 h.nodup).2, tracks.mem_iff (fun i mem => ?_) fun i active gone => ?_, ?_,
      Nat.le_of_succ_le h.limit, h.bracketed_succ⟩
    · exact .inl ((h.mem i).1 (List.mem_cons_of_mem _ mem))
    · rcases active with active | ⟨-, starts⟩
      · rcases List.mem_cons.1 ((h.mem i).2 active) with rfl | mem
        · rw [waits]
          exact back
        · exact absurd mem gone
      · exact absurd starts idle
    · rw [depth, h.depth, List.length_cons, Nat.add_sub_cancel, List.tail_cons]

/-- Where no call starts or ends, the same calls are counted. -/
theorem keep {gone : List Frame} (h : Counted place start n calls)
    (idle : ¬((Machine.step place)^[n] start).Starts place)
    (before : ((Machine.step place)^[n] start).frames = gone ++ rest)
    (after : ((Machine.step place)^[n + 1] start).frames = above ++ rest) (first : ∀ f ∈ gone, f ≠ .leave)
    (quiet : ∀ f ∈ above, f.Quiet)
    (depth : ((Machine.step place)^[n + 1] start).depth = ((Machine.step place)^[n] start).depth) :
    Counted place start (n + 1) calls := by
  have tracks : Tracks place start calls ((Machine.step place)^[n + 1] start).frames := by
    rw [after]
    have below := h.tracks
    rw [before] at below
    exact (below.drop first).append fun f hf => Frame.Quiet.ne_leave (quiet f hf)
  refine ⟨tracks, h.nodup, tracks.mem_iff (fun i mem => .inl ((h.mem i).1 mem)) fun i active gone => ?_,
    depth.trans h.depth, h.limit, h.bracketed_succ⟩
  rcases active with active | ⟨-, starts⟩
  · exact absurd ((h.mem i).2 active) gone
  · exact absurd starts idle

/-- A step counts the call that starts, and counts no more the one that ends. -/
theorem step (h : Counted place start n calls) : ∃ calls', Counted place start (n + 1) calls' := by
  have next := Function.iterate_succ_apply' (Machine.step place) n start
  cases callStep place ((Machine.step place)^[n] start) with
  | starts above starts room frames noCall noCall' _ depth =>
    rw [← next] at frames depth
    exact ⟨n :: calls, h.push starts room frames noCall noCall' depth⟩
  | ends rest frames back depth =>
    rw [← next] at back depth
    exact ⟨calls.tail, h.pop frames back depth⟩
  | keeps gone above rest idle before after first quiet depth =>
    rw [← next] at after depth
    exact ⟨calls, h.keep idle before after first quiet depth⟩

end Counted

theorem exists_counted (depth : start.depth = 0) (noCall : ∀ f ∈ start.frames, f.Quiet) (n : Nat) :
    ∃ calls, Counted place start n calls := by
  induction n with
  | zero =>
    have tracks : Tracks place start [] (start.frames ++ []) :=
      Tracks.nil.append fun f hf => Frame.Quiet.ne_leave (noCall f hf)
    have bracketed : Bracketed (start.frames ++ []) := Bracketed.nil.append_quiet noCall
    rw [List.append_nil] at tracks bracketed
    refine ⟨[], tracks, List.nodup_nil, fun i => ⟨fun mem => ?_, fun active => ?_⟩, depth, Nat.zero_le _, bracketed⟩
    · cases mem
    · exact absurd active.1 (Nat.not_lt_zero i)
  | succ n ih =>
    obtain ⟨calls, counted⟩ := ih
    exact counted.step

/-! ## The limit -/

/-- Where a call is made, it starts or fails as the number of active calls says; a call that fails does nothing else. -/
theorem starts_iff_of_arity (place : UseId → Place) {paren : Token} {callee : Value} {arguments : List Value}
    (h : m.calling? = some (paren, callee, arguments)) (arity : m.store.arity? callee = some arguments.length) :
    (m.Starts place ↔ m.depth < callLimit) ∧
      (m.depth < callLimit → m.step place = m.popped.activate.launch callee arguments) ∧
      (callLimit ≤ m.depth → m.step place = m.popped.fail .stackOverflow paren) := by
  have step : m.step place = _ := (step_calling h).trans (call_of_arity (m := m.popped) arity paren)
  have room (lt : m.depth < callLimit) : m.step place = m.popped.activate.launch callee arguments := by
    rw [step]
    exact if_neg (Nat.not_le_of_lt lt)
  have full (ge : callLimit ≤ m.depth) : m.step place = m.popped.fail .stackOverflow paren := by
    rw [step]
    exact if_pos ge
  refine ⟨⟨fun starts => ?_, fun lt => ⟨by rw [h]; rfl, ?_⟩⟩, room, full⟩
  · by_contra ge
    have failed := starts.2
    rw [full (Nat.le_of_not_lt ge)] at failed
    cases failed
  · obtain ⟨-, -, -, success, -⟩ := frames_launch (m := m.popped.activate) arguments arity
    rw [room lt]
    exact success

/-- At every moment of every program of a session the depth is the number of the calls that have started and not come
back, which is never beyond the limit, and no more bodies run than calls are active. A call that can be made starts just
if there is room for one more; otherwise it fails at its closing parenthesis and changes nothing. -/
theorem call_depth {sink : Sink} (session : Session place sink m) (statements : List Stmt) (n : Nat) :
    let now := (step place)^[n] (m.load statements)
    let active := (activeCalls place (m.load statements) n).ncard
    now.depth = active ∧ active ≤ callLimit ∧ now.bodies ≤ callLimit ∧
      ∀ paren callee arguments, now.calling? = some (paren, callee, arguments) →
        now.store.arity? callee = some arguments.length →
          (now.Starts place ↔ active < callLimit) ∧
          (active < callLimit → now.step place = now.popped.activate.launch callee arguments) ∧
          (callLimit ≤ active → now.step place = now.popped.fail .stackOverflow paren) ∧
          (Diagnostic.runtime ⟨.stackOverflow, paren⟩).render =
            "Stack overflow.\n[line " ++ toString paren.line ++ "]" := by
  intro now active
  have quiet : ∀ f ∈ (m.load statements).frames, f.Quiet := List.forall_mem_singleton.2 trivial
  have none : (m.load statements).depth = 0 := session.at_home.2
  obtain ⟨calls, counted⟩ : ∃ calls, Counted place (m.load statements) n calls := exists_counted none quiet n
  have card : active = calls.length := by
    have same : activeCalls place (m.load statements) n = ↑calls.toFinset := by
      ext i
      rw [← counted.mem, List.coe_toFinset]
      rfl
    show (activeCalls place (m.load statements) n).ncard = _
    rw [same, Set.ncard_coe_finset, List.toFinset_card_of_nodup counted.nodup]
  have depth : now.depth = active := counted.depth.trans card.symm
  refine ⟨depth, card ▸ counted.limit, ?_, fun paren callee arguments called arity => ?_⟩
  · exact Nat.le_trans counted.bracketed.count_le (counted.tracks.count_eq ▸ counted.limit)
  · obtain ⟨iff, room, full⟩ := starts_iff_of_arity place called arity
    rw [depth] at iff room full
    exact ⟨iff, room, full, rfl⟩

/-- While the initializer of a class runs, a function is called: the call of the class is active and the body of the
initializer runs, and there is room for the call. -/
theorem call_depth_initializer : ∃ statements paren callee,
    let now := (step fun _ => .globals)^[13] ((initial .unlimited).load statements)
    now.calling? = some (paren, callee, []) ∧ now.store.arity? callee = some 0 ∧ now.bodies = 1 ∧
      (activeCalls (fun _ => .globals) ((initial .unlimited).load statements) 13).ncard = 1 ∧
      now.Starts fun _ => .globals := by
  obtain ⟨statements, h⟩ : ∃ statements : List Stmt, statements =
      (parse (scan "class A \x7b init() \x7b g(); \x7d \x7d fun g() \x7b\x7d A();").tokens).statements := ⟨_, rfl⟩
  obtain ⟨now, hnow⟩ : ∃ now : Machine, now = (step fun _ => .globals)^[13] ((initial .unlimited).load statements) :=
    ⟨_, rfl⟩
  have ran : (∃ call ∈ now.calling?, call.2.2 = [] ∧ now.store.arity? call.2.1 = some 0) ∧ now.bodies = 1 ∧
      now.depth = 1 := by
    rw [hnow, h]
    decide +kernel
  obtain ⟨⟨⟨paren, callee, arguments⟩, called, given, arity⟩, bodies, one⟩ := ran
  obtain rfl : arguments = [] := given
  have session : Session (fun _ => .globals) .unlimited (initial .unlimited) := .fresh
  have limit := call_depth session statements 13
  rw [← hnow] at limit
  obtain ⟨depth, -, -, calls⟩ := limit
  have active := depth.symm.trans one
  refine ⟨statements, paren, callee, ?_⟩
  rw [← hnow]
  refine ⟨called, arity, bodies, active, (calls paren callee [] called arity).1.2 ?_⟩
  rw [active]
  decide

end Lox.Machine
