/-
What a rule of the grammar takes when it finds nothing wrong. `Takes r c post` says of a rule at a cursor that errors
are only added to those found, and that if none is added and the rule does not stop, then the tokens it has taken and
what it gives are as `post` says. There is one lemma for each way to put rules together, and one for each rule that
reads a token.
-/
import Lox.Proofs.Grammar.Rule

namespace Lox

/-! ## Rules that never stop -/

theorem SureRule.outcome_bind {α β : Type} (r : SureRule α) (f : α → SureRule β) (c : Cursor) :
    outcome (r >>= f) c = outcome (f (outcome r c).1) (outcome r c).2 := rfl

section

variable {α : Type} {done : Cursor → Bool} {c : Cursor}

/-- A sequence that is done gives what it has found. -/
theorem Rule.outcome_sequence_of_done (h : done c = true) (r : SureRule (Option α)) (fuel : Nat) (found : List α) :
    SureRule.outcome (sequence done r fuel found) c = (found.reverse, c) := by
  cases fuel with
  | zero => rfl
  | succ fuel =>
    show SureRule.outcome (if done c = true then _ else _) c = _
    rw [if_pos h]
    rfl

/-- A sequence that is not done goes on after what its rule gives, if that is anything. -/
theorem Rule.outcome_sequence (h : ¬done c = true) (r : SureRule (Option α)) (fuel : Nat) (found : List α) :
    SureRule.outcome (sequence done r (fuel + 1) found) c =
      SureRule.outcome (sequence done r fuel ((SureRule.outcome r c).1.toList ++ found)) (SureRule.outcome r c).2 := by
  show SureRule.outcome (if done c = true then _ else _) c = _
  rw [if_neg h, SureRule.outcome_bind]
  cases SureRule.outcome r c with | mk o c₁
  cases o <;> rfl

end

/-- What a rule that never stops has taken, if it has found nothing wrong. -/
def SureRule.Takes {α : Type} (r : SureRule α) (c : Cursor) (post : List Token → α → Prop) : Prop :=
  c.errors.size ≤ (outcome r c).2.errors.size ∧
    ((outcome r c).2.errors.size = c.errors.size →
      ∃ w, c.rest = w ++ (outcome r c).2.rest ∧ (∀ t ∈ w, t.kind ≠ .endOfInput) ∧ post w (outcome r c).1)

namespace SureRule.Takes

variable {α β : Type} {c : Cursor} {post : List Token → α → Prop}

theorem pure {a : α} (h : post [] a) : Takes (Pure.pure a) c post :=
  ⟨Nat.le_refl _, fun _ => ⟨[], rfl, List.forall_mem_nil _, h⟩⟩

theorem bind {r : SureRule α} {f : α → SureRule β} {mid : List Token → α → Prop} {post : List Token → β → Prop}
    (h : Takes r c mid) (h' : ∀ a c', Takes (f a) c' fun v b => ∀ u, mid u a → post (u ++ v) b) :
    Takes (r >>= f) c post := by
  obtain ⟨le, taken⟩ := h
  obtain ⟨le', taken'⟩ := h' (outcome r c).1 (outcome r c).2
  refine ⟨Nat.le_trans le le', fun same => ?_⟩
  have same : (outcome (f (outcome r c).1) (outcome r c).2).2.errors.size = c.errors.size := same
  obtain ⟨u, hu, endless, mid⟩ := taken (by omega)
  obtain ⟨v, hv, endless', post⟩ := taken' (by omega)
  refine ⟨u ++ v, ?_, ?_, post u mid⟩
  · rw [hu, hv, List.append_assoc]
    rfl
  · exact fun t ht => (List.mem_append.1 ht).elim (endless t) (endless' t)

theorem mono {r : SureRule α} {post' : List Token → α → Prop} (h : Takes r c post)
    (hp : ∀ w a, post w a → post' w a) : Takes r c post' :=
  ⟨h.1, fun same =>
    have ⟨w, hw, endless, given⟩ := h.2 same
    ⟨w, hw, endless, hp _ _ given⟩⟩

theorem get {post : List Token → Cursor → Prop} (h : post [] c) : Takes (MonadState.get : SureRule Cursor) c post :=
  ⟨Nat.le_refl _, fun _ => ⟨[], rfl, List.forall_mem_nil _, h⟩⟩

/-- A rule that adds an error has found something wrong. -/
theorem fault {r : SureRule α} (h : c.errors.size < (outcome r c).2.errors.size) : Takes r c post :=
  ⟨Nat.le_of_lt h, fun same => absurd same (Nat.ne_of_gt h)⟩

end SureRule.Takes

/-! ## Rules that can stop -/

/-- What a rule has taken, if it has found nothing wrong and not stopped. -/
def Rule.Takes {α : Type} (r : Rule α) (c : Cursor) (post : List Token → α → Prop) : Prop :=
  SureRule.Takes r.run c fun w result => ∀ a, result = .ok a → post w a

namespace Rule.Takes

variable {α β : Type} {c : Cursor} {post : List Token → α → Prop}

theorem pure {a : α} (h : post [] a) : Takes (Pure.pure a) c post :=
  ⟨Nat.le_refl _, fun _ => ⟨[], rfl, List.forall_mem_nil _, fun _ e => by cases e; exact h⟩⟩

theorem throw (e : SyntaxError) : Takes (MonadExcept.throw e) c post :=
  ⟨Nat.le_refl _, fun _ => ⟨[], rfl, List.forall_mem_nil _, nofun⟩⟩

theorem bind {r : Rule α} {f : α → Rule β} {mid : List Token → α → Prop} {post : List Token → β → Prop}
    (h : Takes r c mid) (h' : ∀ a c', Takes (f a) c' fun v b => ∀ u, mid u a → post (u ++ v) b) :
    Takes (r >>= f) c post := by
  show SureRule.Takes (r.run >>= ExceptT.bindCont f) c _
  refine SureRule.Takes.bind h fun result c' => ?_
  cases result with
  | ok a => exact (h' a c').mono fun v b given u mid b' e => given b' e u (mid a rfl)
  | error e => exact .pure fun _ _ _ => nofun

theorem mono {r : Rule α} {post' : List Token → α → Prop} (h : Takes r c post)
    (hp : ∀ w a, post w a → post' w a) : Takes r c post' :=
  SureRule.Takes.mono h fun w _ given a e => hp w a (given a e)

/-- A rule that never stops, as one that could. -/
theorem lift {r : SureRule α} (h : SureRule.Takes r c post) : Takes (liftM r : Rule α) c post :=
  ⟨h.1, fun same =>
    have ⟨w, hw, endless, given⟩ := h.2 same
    ⟨w, hw, endless, fun _ e => by cases e; exact given⟩⟩

/-- The cursor itself can be looked at. -/
theorem get {f : Cursor → Rule α} (h : Takes (f c) c post) : Takes (MonadState.get >>= f) c post := h

end Rule.Takes

/-! ## Tokens -/

namespace Rule

variable {α : Type} {c : Cursor} {post : List Token → α → Prop}

theorem stop_takes (fault : SyntaxFault) : Takes (stop fault) c post :=
  ⟨Nat.le_refl _, fun _ => ⟨[], rfl, List.forall_mem_nil _, nofun⟩⟩

theorem peek_takes {f : Token → Rule α} (h : Takes (f c.peek) c post) : Takes (peek >>= f) c post := h

theorem check_takes {kind : Kind} {f : Bool → Rule α} (h : Takes (f (c.check kind)) c post) :
    Takes (check kind >>= f) c post := h

/-- A token that is not the end is the first that is left. -/
theorem rest_eq_of_peek (h : c.peek.kind ≠ .endOfInput) : c.rest = c.peek :: c.advance.rest := by
  have atEnd : c.atEnd = false := by simpa [Cursor.atEnd] using h
  rw [Cursor.advance, atEnd]
  unfold Cursor.peek at h ⊢
  cases hr : c.rest with
  | nil =>
    rw [hr] at h
    exact absurd rfl h
  | cons t rest => rfl

theorem errors_advance : c.advance.errors = c.errors := by
  unfold Cursor.advance
  split <;> rfl

/-- The next token is taken, if it is not the end. -/
theorem advance_takes {f : Unit → Rule α} (h : c.peek.kind ≠ .endOfInput)
    (h' : ∀ c', Takes (f ()) c' fun v a => post (c.peek :: v) a) : Takes (advance >>= f) c post := by
  have step : Takes advance c fun w _ => w = [c.peek] := by
    refine ⟨Nat.le_of_eq (congrArg Array.size errors_advance).symm, fun _ => ⟨[c.peek], rest_eq_of_peek h, ?_, ?_⟩⟩
    · exact fun t ht => List.mem_singleton.1 ht ▸ h
    · exact fun _ _ => rfl
  refine .bind step fun _ c' => (h' c').mono ?_
  rintro v a given _ rfl
  exact given

theorem peek_ne_of_check {kind : Kind} (h : c.check kind = true) : c.peek.kind ≠ .endOfInput := by
  unfold Cursor.check Cursor.atEnd at h
  rw [Bool.and_eq_true] at h
  simpa using h.1

/-- One way with the next token, if it is of a kind, and another if it is not. -/
theorem accept_takes {kind : Kind} {yes no : Rule α}
    (hy : ∀ (t : Token) c', t.kind = kind → Takes yes c' fun v a => post (t :: v) a) (hn : Takes no c post) :
    Takes (accept kind >>= fun b => if b = true then yes else no) c post := by
  unfold accept
  rw [bind_assoc]
  refine check_takes ?_
  split
  · next h =>
    rw [bind_assoc]
    exact advance_takes (peek_ne_of_check h) fun c' => hy c.peek c' (kind_of_check h)
  · rw [pure_bind]
    exact hn

/-- One way with the next token, if it is of one of the kinds, and another if it is not. -/
theorem acceptAny?_takes {kinds : List Kind} {f : Option Token → Rule α}
    (hs : ∀ (t : Token) c', t.kind ∈ kinds → Takes (f (some t)) c' fun v a => post (t :: v) a)
    (hn : Takes (f none) c post) : Takes (acceptAny? kinds >>= f) c post := by
  unfold acceptAny?
  rw [bind_assoc]
  refine .get ?_
  split
  · next h =>
    obtain ⟨kind, mem, hk⟩ := List.any_eq_true.1 h
    rw [bind_assoc]
    exact advance_takes (peek_ne_of_check hk) fun c' => hs c.peek c' (kind_of_check hk ▸ mem)
  · rw [pure_bind]
    exact hn

/-- The next token, if it is of the kind that is expected. -/
theorem expect_takes {expected : Expectation} {f : Token → Rule α}
    (h : ∀ (t : Token) c', t.kind = expected.kind → Takes (f t) c' fun v a => post (t :: v) a) :
    Takes (expect expected >>= f) c post := by
  unfold expect
  rw [bind_assoc]
  refine .get ?_
  split
  · next hk =>
    rw [bind_assoc]
    exact advance_takes (peek_ne_of_check hk) fun c' => h c.peek c' (kind_of_check hk)
  · exact ⟨Nat.le_refl _, fun _ => ⟨[], rfl, List.forall_mem_nil _, nofun⟩⟩

theorem newUses_takes {count : Nat} {f : UseId → Rule α} (h : ∀ id c', Takes (f id) c' post) :
    Takes (newUses count >>= f) c post := by
  have step : Takes (newUses count) c fun w _ => w = [] :=
    ⟨Nat.le_refl _, fun _ => ⟨[], rfl, List.forall_mem_nil _, fun _ _ => rfl⟩⟩
  refine .bind step fun id c' => (h id c').mono ?_
  rintro v a given _ rfl
  exact given

/-- What comes after a fault is recorded adds no less errors; nothing is said of it. -/
theorem record_takes {f : Unit → Rule α} {post' : List Token → α → Prop} (fault : SyntaxFault) (site : Token)
    (h : ∀ c', Takes (f ()) c' post') : Takes (record fault site >>= f) c post := by
  have step : Takes (record fault site) c fun _ _ => False := by
    refine SureRule.Takes.fault ?_
    show c.errors.size < (c.errors.push _).size
    rw [Array.size_push]
    exact Nat.lt_succ_self _
  exact .bind step fun _ c' => (h c').mono fun _ _ _ _ => False.elim

end Rule

/-! ## Recovery -/

theorem Cursor.errors_skipToBoundary : ∀ (fuel : Nat) (c : Cursor), (c.skipToBoundary fuel).errors = c.errors
  | 0, _ => rfl
  | fuel + 1, c => by
    unfold skipToBoundary
    split
    · rfl
    · exact (errors_skipToBoundary fuel _).trans Rule.errors_advance

theorem Cursor.errors_recover (c : Cursor) : c.recover.errors = c.errors :=
  (errors_skipToBoundary _ _).trans Rule.errors_advance

end Lox
