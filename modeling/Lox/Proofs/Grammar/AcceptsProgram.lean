/-
Every derived program is read. The grammar leaves it open which `if` an `else` belongs to, and the rules give it to the
nearest; so a derived statement is first brought into a form in which no statement before an `else` ends in an `if`
without one (`Settled`), and a statement of that form is read wherever no `else` follows that could still belong to it.
-/
import Lox.Grammar.Program
import Lox.Proofs.Grammar.AcceptsExpression
import Lox.Proofs.Grammar.TakesProgram

namespace Lox

/-! ## Statements that are derived -/

/-- Whether a rule for declarations takes some tokens before others and finds nothing wrong. -/
def SureRule.Accepts {α : Type} (r : SureRule (Option α)) (w rest : List Token) (post : α → Prop) : Prop :=
  ∀ c : Cursor, c.rest = w ++ rest →
    ∃ a c', outcome r c = (some a, c') ∧ c'.rest = rest ∧ c'.errors = c.errors ∧ post a

/-- Whether tokens are read as a statement; `ifs` says if an `else` after them would belong to an `if` in them. -/
structure ReadAsStatement (ifs : Bool) (w : List Token) : Prop where
  starts : HeadNot (· ∈ [.elseWord, .rightBrace, .endOfInput, .classWord, .funWord, .varWord]) w
  pos : 0 < w.length
  accepts : ∀ fuel rest, w.length ≤ fuel → (ifs = true → HeadNot (· = .elseWord) rest) →
    (Rule.statement fuel).Accepts w rest fun _ => True

/-- Whether tokens are read as a declaration. -/
structure ReadAsDeclaration (w : List Token) : Prop where
  starts : HeadNot (· ∈ [.elseWord, .rightBrace, .endOfInput]) w
  pos : 0 < w.length
  accepts : ∀ fuel rest, w.length ≤ fuel → HeadNot (· = .elseWord) rest →
    (Rule.declaration fuel).Accepts w rest fun _ => True

/-- An `if` with its condition. -/
inductive IfHeader : List Token → Prop
  | intro {word left right : Token} {e : Expr} {u : List Token} :
      word.kind = .ifWord → left.kind = .leftParen → e.Written 0 u → right.kind = .rightParen →
      IfHeader (word :: left :: (u ++ [right]))

/-- A `while` or `for` with what stands in its parentheses. -/
inductive LoopHeader : List Token → Prop
  | whileDo {word left right : Token} {e : Expr} {u : List Token} :
      word.kind = .whileWord → left.kind = .leftParen → e.Written 0 u → right.kind = .rightParen →
      LoopHeader (word :: left :: (u ++ [right]))
  | forLoop {word left close right : Token} {first : Option Stmt} {condition increment : Option Expr}
      {a b c : List Token} :
      word.kind = .forWord → left.kind = .leftParen → Stmt.WrittenStart first a → Expr.WrittenOption condition b →
      close.kind = .semicolon → Expr.WrittenOption increment c → right.kind = .rightParen →
      LoopHeader (word :: left :: (a ++ (b ++ close :: (c ++ [right]))))

/-- A statement in which each `else` belongs to the nearest `if`; `ifs` says if another one would belong to it. -/
inductive Settled : Bool → List Token → Prop
  | whole {w : List Token} : ReadAsStatement false w → Settled false w
  | loop {ifs : Bool} {h w : List Token} : LoopHeader h → Settled ifs w → Settled ifs (h ++ w)
  | ifThen {ifs : Bool} {h w : List Token} : IfHeader h → Settled ifs w → Settled true (h ++ w)
  | ifElse {ifs : Bool} {h u v : List Token} {other : Token} :
      IfHeader h → Settled false u → other.kind = .elseWord → Settled ifs v → Settled ifs (h ++ (u ++ other :: v))

/-- An `else` after a statement that can take it belongs to an `if` in it. -/
theorem Settled.attach {w v : List Token} {other : Token} (hw : Settled true w) (ho : other.kind = .elseWord)
    {ifs : Bool} (hv : Settled ifs v) : ∃ ifs', Settled ifs' (w ++ other :: v) := by
  generalize hopen : true = opened at hw
  induction hw with
  | whole => cases hopen
  | loop hh _ ih =>
    obtain ⟨ifs', h⟩ := ih hopen
    rw [List.append_assoc]
    exact ⟨ifs', .loop hh h⟩
  | @ifThen ifs' _ _ hh hw ih =>
    rw [List.append_assoc]
    cases ifs' with
    | true =>
      obtain ⟨_, h⟩ := ih rfl
      exact ⟨true, .ifThen hh h⟩
    | false => exact ⟨ifs, .ifElse hh hw ho hv⟩
  | ifElse hh hu ho' _ _ ih =>
    obtain ⟨ifs', h⟩ := ih hopen
    rw [List.append_assoc, List.append_assoc, List.cons_append]
    exact ⟨ifs', .ifElse hh hu ho' h⟩

namespace Rule

variable {α : Type} {rest u v w : List Token} {fuel : Nat}

/-! ## Parts of statements -/

theorem ended_accepts {e : Expr} {t : Token} {close : Expectation} (he : e.Written 0 u) (short : u.length ≤ fuel)
    (ht : t.kind = close.kind) (hc : close.kind = .rightParen ∨ close.kind = .semicolon) :
    (ended (expression fuel) close).Accepts (u ++ [t]) rest fun e' => e'.shape = e.shape := by
  have ends : EndsBefore 0 ([t] ++ rest) := by
    rcases hc with hc | hc <;> exact endsBefore_of_kind (ht.trans hc) (by decide)
  exact .bind (he.accepts short ends) fun _ same => expect_accepts ht (.pure same)

theorem unless?_accepts {o : Option Expr} {t : Token} {kind : Kind} (ho : Expr.WrittenOption o u)
    (short : u.length ≤ fuel) (ht : t.kind = kind) (hk : kind = .rightParen ∨ kind = .semicolon) :
    (unless? kind (expression fuel)).Accepts u (t :: rest) fun _ => True := by
  cases ho with
  | none =>
    refine check_accepts ht ?_ (.pure trivial)
    rcases hk with rfl | rfl <;> nofun
  | some he =>
    refine check_accepts_not (he.headNot ?_) (.bind_last (he.accepts short ?_) fun _ _ => .pure trivial)
    · rcases hk with rfl | rfl <;> decide
    · rcases hk with rfl | rfl <;> exact endsBefore_of_kind ht (by decide)

theorem initializer?_accepts {o : Option Expr} {t : Token} (ho : Expr.WrittenInitial o u) (short : u.length ≤ fuel)
    (ht : t.kind = .semicolon) : (initializer? (expression fuel)).Accepts u (t :: rest) fun _ => True := by
  cases ho with
  | none => exact accept_accepts_not (HeadNot.cons (by rw [ht]; nofun)) (.pure trivial)
  | some heq he =>
    rw [List.length_cons] at short
    refine accept_accepts heq nofun (.bind_last (he.accepts (by omega) ?_) fun _ _ => .pure trivial)
    exact endsBefore_of_kind ht (by decide)

theorem varDeclaration_accepts {s : Stmt} (rest : List Token) (h : s.Written .varDecl w) (short : w.length ≤ fuel) :
    ∃ word v, w = word :: v ∧ word.kind = .varWord ∧
      (varDeclaration (expression fuel)).Accepts v rest fun _ => True := by
  cases h with
  | @varDecl word name close initial v hw hn hi hc =>
    simp only [List.length_cons, List.length_append] at short
    refine ⟨word, _, rfl, hw, expect_accepts hn (.bind (initializer?_accepts hi (by omega) hc) fun _ _ => ?_)⟩
    exact expect_accepts hc (.pure trivial)

theorem forStart_accepts {first : Option Stmt} (h : Stmt.WrittenStart first u) (short : u.length ≤ fuel) :
    (forStart (expression fuel)).Accepts u rest fun _ => True := by
  cases h with
  | none hc => exact accept_accepts hc nofun (.pure trivial)
  | @some symbol s w hs h =>
    rcases hs with rfl | rfl
    · obtain ⟨word, v, rfl, hw, accepts⟩ := varDeclaration_accepts rest h short
      refine accept_accepts_not (HeadNot.cons (by rw [hw]; nofun)) (accept_accepts hw nofun ?_)
      exact .bind_last accepts fun _ _ => .pure trivial
    · cases h with
      | @exprStmt close e w he hc =>
        rw [List.length_append] at short
        have head : ∀ kind ∉ Kind.starters, HeadNot (· = kind) (w ++ [close] ++ rest) := by
          intro kind hk
          rw [List.append_assoc]
          exact he.headNot fun _ mem h => hk (h ▸ mem)
        refine accept_accepts_not (head _ (by decide)) (accept_accepts_not (head _ (by decide)) ?_)
        exact .bind_last (ended_accepts he (by omega) hc (.inr rfl)) fun _ _ => .pure trivial

theorem forBody_accepts (first : Option Stmt) (body : Stmt) : (forBody first body).Accepts [] rest fun _ => True := by
  unfold forBody
  split
  · exact newUses_accepts fun _ => .pure trivial
  · exact .pure trivial

/-! ## Statements -/

/-- A loop's header, and a body that is read as a statement, are read as a statement. -/
theorem loop_accepts {ifs : Bool} {h : List Token} (hh : LoopHeader h) (hw : ReadAsStatement ifs w) :
    ReadAsStatement ifs (h ++ w) := by
  refine ⟨?_, ?_, fun fuel rest short hrest => ?_⟩
  · cases hh with
    | whileDo hword | forLoop hword => exact HeadNot.cons (by rw [hword]; decide)
  · cases hh <;> simp
  obtain ⟨fuel, rfl⟩ : ∃ f, fuel = f + 1 := ⟨fuel - 1, by
    have := hw.pos
    rw [List.length_append] at short
    omega⟩
  cases hh with
  | @whileDo word left right e u hword hl he hr =>
    simp only [List.length_append, List.length_cons, List.length_nil] at short
    refine peek_accepts ?_
    rw [hword]
    refine advance_accepts (by rw [hword]; nofun) (expect_accepts hl ?_)
    refine .bind (ended_accepts he (by omega) hr (.inl rfl)) fun _ _ => ?_
    exact .bind_last (hw.accepts fuel rest (by omega) hrest) fun _ _ => .pure trivial
  | @forLoop word left close right first condition increment a b c hword hl ha hb hc hi hr =>
    simp only [List.length_append, List.length_cons, List.length_nil] at short
    rw [show word :: left :: (a ++ (b ++ close :: (c ++ [right]))) ++ w =
      word :: left :: (a ++ (b ++ close :: (c ++ right :: w))) by simp]
    refine peek_accepts ?_
    rw [hword]
    refine advance_accepts (by rw [hword]; nofun) (expect_accepts hl ?_)
    refine .bind (forStart_accepts ha (by omega)) fun first _ => ?_
    refine .bind (unless?_accepts hb (by omega) hc (.inr rfl)) fun _ _ => expect_accepts hc ?_
    refine .bind (unless?_accepts hi (by omega) hr (.inl rfl)) fun _ _ => expect_accepts hr ?_
    refine .bind_last (hw.accepts fuel rest (by omega) hrest) fun body _ => ?_
    exact .bind_last (forBody_accepts first body) fun _ _ => .pure trivial

/-- A choice is read, up to what comes after the statement that is chosen if its condition holds. -/
theorem if_accepts {h : List Token} (hh : IfHeader h) {fuel : Nat} {post : Stmt → Prop}
    (short : (h ++ w).length ≤ fuel + 1)
    (hw : ∀ e, Accepts (do
      let yes ← statement fuel
      return .ifElse e yes (← elseBranch? (statement fuel))) w rest post) :
    (statement (fuel + 1)).Accepts (h ++ w) rest post := by
  cases hh with
  | @intro word left right e u hword hl he hr =>
    simp only [List.length_append, List.length_cons, List.length_nil] at short
    refine peek_accepts ?_
    rw [hword]
    refine advance_accepts (by rw [hword]; nofun) (expect_accepts hl ?_)
    exact .bind (ended_accepts he (by omega) hr (.inl rfl)) fun e _ => hw e

/-- What belongs to an `if` before the statements to choose from starts a statement. -/
theorem if_starts {h : List Token} (hh : IfHeader h) :
    0 < h.length ∧ HeadNot (· ∈ [.elseWord, .rightBrace, .endOfInput, .classWord, .funWord, .varWord]) h := by
  cases hh with
  | intro hword => exact ⟨by simp, HeadNot.cons (by rw [hword]; decide)⟩

end Rule

open Rule in
/-- A statement in which each `else` belongs to the nearest `if` is read. -/
theorem Settled.read {ifs : Bool} {w : List Token} (h : Settled ifs w) : ReadAsStatement ifs w := by
  induction h with
  | whole h => exact h
  | loop hh _ ih => exact loop_accepts hh ih
  | @ifThen ifs h w hh _ ih =>
    obtain ⟨pos, starts⟩ := if_starts hh
    refine ⟨starts.append pos, by rw [List.length_append]; omega, fun fuel rest short hrest => ?_⟩
    obtain ⟨fuel, rfl⟩ : ∃ f, fuel = f + 1 := ⟨fuel - 1, by rw [List.length_append] at short; omega⟩
    refine if_accepts hh short fun e => ?_
    rw [List.length_append] at short
    refine .bind_last (ih.accepts fuel rest (by omega) fun _ => hrest rfl) fun yes _ => ?_
    have none : (elseBranch? (statement fuel)).Accepts [] rest fun _ => True :=
      accept_accepts_not (hrest rfl) (.pure trivial)
    exact .bind_last none fun _ _ => .pure trivial
  | @ifElse ifs h u v other hh _ ho _ ihu ihv =>
    obtain ⟨pos, starts⟩ := if_starts hh
    refine ⟨starts.append pos, by rw [List.length_append]; omega, fun fuel rest short hrest => ?_⟩
    obtain ⟨fuel, rfl⟩ : ∃ f, fuel = f + 1 := ⟨fuel - 1, by rw [List.length_append] at short; omega⟩
    refine if_accepts hh short fun e => ?_
    simp only [List.length_append, List.length_cons] at short
    refine .bind (ihu.accepts fuel _ (by omega) nofun) fun yes _ => ?_
    have other : (elseBranch? (statement fuel)).Accepts (other :: v) rest fun _ => True :=
      accept_accepts ho nofun (.bind_last (ihv.accepts fuel rest (by omega) hrest) fun _ _ => .pure trivial)
    exact .bind_last other fun _ _ => .pure trivial

namespace Rule

variable {α : Type} {rest u v w : List Token} {fuel : Nat}

/-- What starts like an expression is read as one that a semicolon ends. -/
theorem exprStmt_accepts {e : Expr} {close : Token} (rest : List Token) (he : e.Written 0 w) (hc : close.kind = .semicolon)
    (short : (w ++ [close]).length ≤ fuel) :
    (statement fuel).Accepts (w ++ [close]) rest fun s => ∃ e', s = .expression e' ∧ e'.shape = e.shape := by
  rw [List.length_append, List.length_singleton] at short
  obtain ⟨fuel, rfl⟩ : ∃ f, fuel = f + 1 := ⟨fuel - 1, by omega⟩
  have read : Accepts (do return Stmt.expression (← ended (expression (fuel + 1)) .expressionEnd)) (w ++ [close]) rest
      fun s => ∃ e', s = .expression e' ∧ e'.shape = e.shape :=
    .bind_last (ended_accepts he (by omega) hc (.inr rfl)) fun e' same => .pure ⟨e', rfl, same⟩
  have starts := he.starts
  cases w with
  | nil => exact absurd he.length_pos (by decide)
  | cons t w =>
    have starts : t.kind ∈ Kind.starters := Decidable.not_not.1 (starts t rfl)
    refine peek_accepts ?_
    split
    case h_7 => exact read
    all_goals
      next h =>
        rw [h] at starts
        exact absurd starts (by decide)

/-- A statement with no other statement in it is read. -/
theorem simple_accepts {symbol : Symbol} {s : Stmt} (h : s.Written symbol w) (ne : symbol ≠ .varDecl) :
    ReadAsStatement false w := by
  cases h with
  | varDecl => exact absurd rfl ne
  | exprStmt he hc =>
    refine ⟨he.headNot (by decide), by simp, fun fuel rest short _ => ?_⟩
    exact (exprStmt_accepts _ he hc short).mono fun _ _ => trivial
  | @printStmt word close e w hw he hc =>
    refine ⟨HeadNot.cons (by rw [hw]; decide), by simp, fun fuel rest short _ => ?_⟩
    simp only [List.length_append, List.length_cons, List.length_nil] at short
    obtain ⟨fuel, rfl⟩ : ∃ f, fuel = f + 1 := ⟨fuel - 1, by omega⟩
    refine peek_accepts ?_
    rw [hw]
    refine advance_accepts (by rw [hw]; nofun) (.bind_last (ended_accepts he (by omega) hc (.inr rfl)) fun _ _ => ?_)
    exact .pure trivial
  | @returnStmt word close o w hw ho hc =>
    refine ⟨HeadNot.cons (by rw [hw]; decide), by simp, fun fuel rest short _ => ?_⟩
    simp only [List.length_append, List.length_cons, List.length_nil] at short
    obtain ⟨fuel, rfl⟩ : ∃ f, fuel = f + 1 := ⟨fuel - 1, by omega⟩
    refine peek_accepts ?_
    rw [hw]
    refine advance_accepts (by rw [hw]; nofun) (.bind (unless?_accepts ho (by omega) hc (.inr rfl)) fun _ _ => ?_)
    exact expect_accepts hc (.pure trivial)

/-! ## Sequences -/

/-- A rule that never stops, as one that could. -/
theorem Accepts.lift {r : SureRule α}
    (h : ∀ c : Cursor, c.rest = w ++ rest → ∃ a c', r.outcome c = (a, c') ∧ c'.rest = rest ∧ c'.errors = c.errors) :
    Accepts (liftM r : Rule α) w rest fun _ => True := by
  intro c hc
  obtain ⟨a, c', run, hc', errors⟩ := h c hc
  refine ⟨a, c', ?_, hc', errors, trivial⟩
  show SureRule.outcome (r >>= fun a => Pure.pure (Except.ok a)) c = _
  rw [SureRule.outcome_bind, run]
  rfl

theorem recovering_accepts {r : Rule α} {post : α → Prop} (h : r.Accepts w rest post) :
    (recovering r).Accepts w rest post := by
  intro c hc
  obtain ⟨a, c', run, hc', errors, given⟩ := h c hc
  refine ⟨a, c', ?_, hc', errors, given⟩
  unfold recovering
  rw [SureRule.outcome_bind, run]
  rfl

theorem atEnd_of_headNot {c : Cursor} (h : HeadNot (· = .endOfInput) c.rest) (pos : 0 < c.rest.length) :
    c.atEnd = false := by
  cases hr : c.rest with
  | nil =>
    rw [hr] at pos
    cases pos
  | cons t l =>
    rw [Cursor.atEnd, Cursor.peek_of_rest hr]
    rw [hr] at h
    simpa using h t rfl

/-- A body in braces has more to read where neither its closing brace nor the end is next. -/
theorem bodyDone_of_headNot {c : Cursor} (h : HeadNot (· ∈ [.elseWord, .rightBrace, .endOfInput]) c.rest)
    (pos : 0 < c.rest.length) : bodyDone c = false := by
  rw [bodyDone, atEnd_of_headNot (h.mono fun kind hk => by rw [hk]; decide) pos, Bool.or_false]
  exact Bool.eq_false_iff.2 (Cursor.check_of_headNot (h.mono fun kind hk => by rw [hk]; decide))

/-- What can follow a declaration in a list of them: another one, or what follows them all. -/
theorem headNot_flatten {us : List (List Token)} (h : ∀ u ∈ us, HeadNot (· ∈ [.elseWord, .rightBrace, .endOfInput]) u ∧
    0 < u.length) (hrest : HeadNot (· = .elseWord) rest) : HeadNot (· = .elseWord) (us.flatten ++ rest) := by
  cases us with
  | nil => exact hrest
  | cons u us =>
    obtain ⟨starts, pos⟩ := h u (by simp)
    rw [List.flatten_cons, List.append_assoc]
    exact (starts.append pos).mono fun kind hk => by rw [hk]; decide

/-- Declarations are read one after another, up to where the sequence is done. -/
theorem sequence_accepts {done : Cursor → Bool} {f : Nat}
    (more : ∀ c : Cursor, HeadNot (· ∈ [.elseWord, .rightBrace, .endOfInput]) c.rest → 0 < c.rest.length →
      done c = false)
    (last : ∀ c : Cursor, c.rest = rest → done c = true) (hrest : HeadNot (· = .elseWord) rest) :
    ∀ (us : List (List Token)) (n : Nat) (found : List Stmt), us.length ≤ n →
      (∀ u ∈ us, ReadAsDeclaration u ∧ u.length ≤ f) → ∀ c : Cursor, c.rest = us.flatten ++ rest →
        ∃ ss c', (sequence done (declaration f) n found).outcome c = (ss, c') ∧ c'.rest = rest ∧ c'.errors = c.errors
  | [], n, found, _, _, c, hc => ⟨_, c, outcome_sequence_of_done (last c hc) _ n found, hc, rfl⟩
  | u :: us, n + 1, found, short, each, c, hc => by
    obtain ⟨⟨first, fits⟩, each⟩ := List.forall_mem_cons.1 each
    have starts : HeadNot (· ∈ [.elseWord, .rightBrace, .endOfInput]) c.rest := by
      rw [hc, List.flatten_cons, List.append_assoc]
      exact first.starts.append first.pos
    have pos : 0 < c.rest.length := by
      have := first.pos
      simp only [hc, List.flatten_cons, List.length_append]
      omega
    have next := headNot_flatten (fun u mem => ⟨(each u mem).1.starts, (each u mem).1.pos⟩) hrest
    obtain ⟨s, c₁, run, hc₁, errors, -⟩ := first.accepts f (us.flatten ++ rest) fits next c
      (by rw [hc, List.flatten_cons, List.append_assoc])
    obtain ⟨ss, c₂, run', hc₂, errors'⟩ := sequence_accepts more last hrest us n (s :: found)
      (Nat.le_of_succ_le_succ short) each c₁ hc₁
    refine ⟨ss, c₂, ?_, hc₂, errors'.trans errors⟩
    rw [outcome_sequence (by rw [more c starts pos]; nofun), run]
    exact run'

end Rule

/-- There are no more sequences than tokens in them, if none is empty. -/
theorem length_le_of_pos {us : List (List Token)} (h : ∀ u ∈ us, 0 < u.length) : us.length ≤ us.flatten.length := by
  induction us with
  | nil => exact Nat.zero_le _
  | cons u us ih =>
    obtain ⟨first, rest⟩ := List.forall_mem_cons.1 h
    have := ih rest
    simp only [List.length_cons, List.flatten_cons, List.length_append]
    omega

theorem length_le_flatten {us : List (List Token)} {u : List Token} (h : u ∈ us) : u.length ≤ us.flatten.length :=
  (List.sublist_flatten_of_mem h).length_le

/-- Whether tokens are read as a block, after its opening brace. -/
def ReadAsBlock (w : List Token) : Prop :=
  ∃ left v, left.kind = .leftBrace ∧ w = left :: v ∧
    ∀ f rest, v.length ≤ f → (Rule.block (f + 1) (Rule.declaration f)).Accepts v rest fun _ => True

/-- Whether tokens are read as a routine. -/
structure ReadAsRoutine (w : List Token) : Prop where
  starts : HeadNot (· ∈ [.elseWord, .rightBrace, .endOfInput]) w
  pos : 0 < w.length
  accepts : ∀ role f rest, w.length ≤ f + 1 →
    (Rule.routine role (f + 1) (Rule.declaration f)).Accepts w rest fun _ => True

open Rule in
theorem readAsBlock {left right : Token} {us : List (List Token)} (hl : left.kind = .leftBrace)
    (each : ∀ u ∈ us, ReadAsDeclaration u) (hr : right.kind = .rightBrace) :
    ReadAsBlock (left :: (us.flatten ++ [right])) := by
  refine ⟨left, _, hl, rfl, fun f rest short => ?_⟩
  rw [List.length_append, List.length_singleton] at short
  have count := length_le_of_pos fun u mem => (each u mem).pos
  refine .bind (.lift fun c hc => ?_) fun _ _ => expect_accepts hr (.pure trivial)
  refine sequence_accepts (fun c => bodyDone_of_headNot) (fun c hc => ?_) (HeadNot.cons (by rw [hr]; nofun)) us (f + 1) []
    (by omega) (fun u mem => ⟨each u mem, ?_⟩) c hc
  · rw [bodyDone, Cursor.check_of_rest hc hr nofun]
    rfl
  · have := length_le_flatten mem
    omega

/-! ## Declarations -/

namespace Rule

variable {rest u v w : List Token} {f : Nat}

/-- What no declaration starts with is left to the rule for statements. -/
theorem declaration_accepts {fuel : Nat} {post : Stmt → Prop} (pos : 0 < w.length)
    (starts : HeadNot (· ∈ [.elseWord, .rightBrace, .endOfInput, .classWord, .funWord, .varWord]) w)
    (h : (statement (fuel + 1)).Accepts w rest post) : (declaration (fuel + 1)).Accepts w rest post := by
  cases w with
  | nil => cases pos
  | cons t w =>
    have starts := starts t rfl
    refine recovering_accepts (peek_accepts ?_)
    split
    case h_4 => exact h
    all_goals
      next h =>
        rw [h] at starts
        exact absurd (by decide) starts

/-- What is read as a statement is read as a declaration. -/
theorem declaration_of_statement {ifs : Bool} (h : ReadAsStatement ifs w) : ReadAsDeclaration w := by
  refine ⟨h.starts.mono fun kind hk => ?_, h.pos, fun fuel rest short hrest => ?_⟩
  · revert kind
    decide
  · obtain ⟨fuel, rfl⟩ : ∃ f, fuel = f + 1 := ⟨fuel - 1, by have := h.pos; omega⟩
    exact declaration_accepts h.pos h.starts (h.accepts (fuel + 1) rest short fun _ => hrest)

theorem declaration_of_varDecl {s : Stmt} (h : s.Written .varDecl w) : ReadAsDeclaration w := by
  have ⟨word, v, hw, hword, _⟩ := varDeclaration_accepts [] h (Nat.le_refl _)
  refine ⟨by rw [hw]; exact HeadNot.cons (by rw [hword]; decide), by simp [hw], fun fuel rest short _ => ?_⟩
  obtain ⟨fuel, rfl⟩ : ∃ f, fuel = f + 1 := ⟨fuel - 1, by rw [hw, List.length_cons] at short; omega⟩
  obtain ⟨word, v, rfl, hword, read⟩ := varDeclaration_accepts rest h short
  refine recovering_accepts (peek_accepts ?_)
  rw [hword]
  exact advance_accepts (by rw [hword]; nofun) read

theorem parameters_accepts {ps : List Token} {close : Token} {n : Nat} (names : ∀ p ∈ ps, p.kind = .identifier)
    (limit : ps.length ≤ arityLimit) (sep : Separated (ps.map ([·])) u) (hclose : close.kind = .rightParen)
    (short : u.length < n) : (parameters n).Accepts u (close :: rest) fun _ => True := by
  have sep : Separated ((ps.map fun p => (p, [p])).map (·.2)) u := by rwa [List.map_map]
  refine (listed_accepts .tooManyParameters (fun _ => ()) hclose ?_ ?_ sep (by simpa using limit) short).mono
    fun _ _ => trivial
  · intro e he
    obtain ⟨p, mem, rfl⟩ := List.mem_map.1 he
    exact ⟨HeadNot.cons (by rw [names p mem]; nofun), by simp⟩
  · intro e he t rest _
    obtain ⟨p, mem, rfl⟩ := List.mem_map.1 he
    rw [← bind_pure (expect .parameterName)]
    exact expect_accepts (names p mem) (.pure rfl)

/-- A routine is read whose parameters are listed and whose body is read as a block. -/
theorem readAsRoutine {name left right : Token} {ps : List Token} (hn : name.kind = .identifier)
    (hl : left.kind = .leftParen) (names : ∀ p ∈ ps, p.kind = .identifier) (limit : ps.length ≤ arityLimit)
    (sep : Separated (ps.map ([·])) u) (hr : right.kind = .rightParen) (hv : ReadAsBlock v) :
    ReadAsRoutine (name :: left :: (u ++ right :: v)) := by
  obtain ⟨brace, v, hb, rfl, body⟩ := hv
  refine ⟨HeadNot.cons (by rw [hn]; decide), by simp, fun role f rest short => ?_⟩
  simp only [List.length_append, List.length_cons] at short
  refine expect_accepts hn (expect_accepts hl ?_)
  refine .bind (parameters_accepts names limit sep hr (by omega)) fun _ _ => expect_accepts hr (expect_accepts hb ?_)
  exact .bind_last (body f rest (by omega)) fun _ _ => .pure trivial

theorem declaration_of_routine {word : Token} (hword : word.kind = .funWord) (h : ReadAsRoutine w) :
    ReadAsDeclaration (word :: w) := by
  refine ⟨HeadNot.cons (by rw [hword]; decide), by simp, fun fuel rest short _ => ?_⟩
  rw [List.length_cons] at short
  obtain ⟨fuel, rfl⟩ : ∃ f, fuel = f + 1 := ⟨fuel - 1, by omega⟩
  refine recovering_accepts (peek_accepts ?_)
  rw [hword]
  refine advance_accepts (by rw [hword]; nofun) ?_
  exact .bind_last (h.accepts .function fuel rest (by omega)) fun _ _ => .pure trivial

/-- Methods are read one after another, up to the closing brace. -/
theorem methods_accepts {close : Token} (hclose : close.kind = .rightBrace) :
    ∀ (us : List (List Token)) (n : Nat) (found : List (Routine Stmt)), us.length ≤ n →
      (∀ u ∈ us, ReadAsRoutine u ∧ u.length ≤ f + 1) →
      (methods (routine .method (f + 1) (declaration f)) n found).Accepts us.flatten (close :: rest) fun _ => True
  | [], 0, _, _, _ => .pure trivial
  | [], n + 1, found, _, _ => by
    intro c hc
    have done : bodyDone c = true := by
      rw [bodyDone, Cursor.check_of_rest hc hclose nofun]
      rfl
    refine ⟨found.reverse, c, ?_, hc, rfl, trivial⟩
    show SureRule.outcome (if bodyDone c = true then _ else _ : Rule _).run c = _
    rw [if_pos done]
    rfl
  | u :: us, n + 1, found, short, each => by
    obtain ⟨⟨first, fits⟩, each⟩ := List.forall_mem_cons.1 each
    intro c hc
    have more : bodyDone c = false := by
      have pos := first.pos
      refine bodyDone_of_headNot ?_ (by simp only [hc, List.flatten_cons, List.length_append]; omega)
      rw [hc, List.flatten_cons, List.append_assoc]
      exact first.starts.append first.pos
    have read := Accepts.bind (first.accepts .method f (us.flatten ++ close :: rest) fits) fun r _ =>
      methods_accepts hclose us n (r :: found) (Nat.le_of_succ_le_succ short) each
    obtain ⟨rs, c', run, given⟩ := read c hc
    refine ⟨rs, c', ?_, given⟩
    show SureRule.outcome (if bodyDone c = true then _ else _ : Rule _).run c = _
    rw [if_neg (by rw [more]; nofun)]
    exact run

theorem superclass?_accepts {o : Option Expr} (h : Expr.WrittenSuperclass o u) {t : Token} (ht : t.kind = .leftBrace) :
    superclass?.Accepts u (t :: rest) fun _ => True := by
  cases h with
  | none => exact accept_accepts_not (HeadNot.cons (by rw [ht]; nofun)) (.pure trivial)
  | some hl hn => exact accept_accepts hl nofun (expect_accepts hn (newUses_accepts fun _ => .pure trivial))

theorem declaration_of_class {word name left right : Token} {o : Option Expr} {us : List (List Token)}
    (hword : word.kind = .classWord) (hn : name.kind = .identifier) (ho : Expr.WrittenSuperclass o u)
    (hl : left.kind = .leftBrace) (each : ∀ u ∈ us, ReadAsRoutine u) (hr : right.kind = .rightBrace) :
    ReadAsDeclaration (word :: name :: (u ++ left :: (us.flatten ++ [right]))) := by
  refine ⟨HeadNot.cons (by rw [hword]; decide), by simp, fun fuel rest short _ => ?_⟩
  simp only [List.length_append, List.length_cons, List.length_nil] at short
  obtain ⟨fuel, rfl⟩ : ∃ f, fuel = f + 1 := ⟨fuel - 1, by omega⟩
  have count := length_le_of_pos fun u mem => (each u mem).pos
  refine recovering_accepts (peek_accepts ?_)
  rw [hword]
  refine advance_accepts (by rw [hword]; nofun) (expect_accepts hn ?_)
  refine .bind (superclass?_accepts ho hl) fun _ _ => expect_accepts hl ?_
  refine .bind (methods_accepts hr us (fuel + 1) [] (by omega) fun u mem => ⟨each u mem, ?_⟩) fun _ _ => ?_
  · have := length_le_flatten mem
    omega
  · exact expect_accepts hr (.pure trivial)

/-- A block is read as a statement. -/
theorem statement_of_block (h : ReadAsBlock w) : ReadAsStatement false w := by
  obtain ⟨left, v, hl, rfl, read⟩ := h
  refine ⟨HeadNot.cons (by rw [hl]; decide), by simp, fun fuel rest short _ => ?_⟩
  rw [List.length_cons] at short
  obtain ⟨fuel, rfl⟩ : ∃ f, fuel = f + 1 := ⟨fuel - 1, by omega⟩
  refine peek_accepts ?_
  rw [hl]
  exact advance_accepts (by rw [hl]; nofun) (.bind_last (read fuel rest (by omega)) fun _ _ => .pure trivial)

end Rule

/-- Where tokens come to their end, the first of them is the end token, if there is one. -/
theorem headNot_of_beforeEnd {rest : List Token} (h : beforeEnd rest = []) : HeadNot (· ≠ .endOfInput) rest := by
  intro t ht ne
  cases rest with
  | nil => cases ht
  | cons t' rest =>
    cases ht
    rw [beforeEnd, List.takeWhile_cons, if_pos (by simpa using ne)] at h
    cases h

/-- Declarations one after another are read as a program. -/
theorem errors_parse {us : List (List Token)} {rest : List Token} (each : ∀ u ∈ us, ReadAsDeclaration u)
    (hrest : beforeEnd rest = []) : (parse (us.flatten ++ rest)).errors = [] := by
  have head := headNot_of_beforeEnd hrest
  have last : ∀ c : Cursor, c.rest = rest → c.atEnd = true := by
    intro c hc
    rw [Cursor.atEnd, Cursor.peek, hc]
    cases rest with
    | nil => rfl
    | cons t rest =>
      have := head t rfl
      simpa using this
  have count := length_le_of_pos fun u mem => (each u mem).pos
  have fits : ∀ u ∈ us, u.length ≤ (us.flatten ++ rest).length := by
    intro u mem
    have := length_le_flatten mem
    rw [List.length_append]
    omega
  obtain ⟨ss, c, run, -, errors⟩ := Rule.sequence_accepts (f := (us.flatten ++ rest).length)
    (fun c h => Rule.atEnd_of_headNot (h.mono fun kind hk => by rw [hk]; decide)) last
    (head.mono fun kind hk => by rw [hk]; decide) us (us.flatten ++ rest).length []
    (by rw [List.length_append]; omega) (fun u mem => ⟨each u mem, fits u mem⟩) (.start (us.flatten ++ rest)) rfl
  show ((Rule.program _).outcome _).2.errors.toList = []
  rw [Rule.program, run]
  exact congrArg Array.toList errors

end Lox
