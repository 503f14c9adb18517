/-
Every way to write an expression is read. What follows the expression must not be able to go on with it; then the rule
of its level takes just its tokens and gives it, up to the numbers of uses.

The rules for calls and for operators between operands are loops, while such an expression has its left part inside
it. So what is shown for them, by going down that left part, is how far the loop has come when all of the expression is
read: some fuel is spent, less than there are tokens, and the loop goes on with the expression in hand (`Loops`).
-/
import Lox.Proofs.Grammar.Accepts
import Lox.Proofs.Grammar.Written
import Lox.Proofs.Tree.Shape

namespace Lox

/-! ## What can go on -/

/-- Whether a token of a kind goes on with an expression of a level. -/
def Kind.Continues (k : Nat) (kind : Kind) : Prop :=
  (k = 0 ∧ kind = .equal) ∨ (∃ rank, kind.rank? = some rank ∧ k ≤ rank) ∨ (k ≤ 8 ∧ (kind = .leftParen ∨ kind = .dot))

/-- Whether an expression of a level ends where the next tokens are these. -/
def EndsBefore (k : Nat) (rest : List Token) : Prop := HeadNot (Kind.Continues k) rest

theorem EndsBefore.mono {j k : Nat} {rest : List Token} (h : EndsBefore j rest) (le : j ≤ k) : EndsBefore k rest := by
  refine HeadNot.mono h fun kind hk => ?_
  rcases hk with ⟨rfl, hk⟩ | ⟨rank, hr, le'⟩ | ⟨le', hk⟩
  · exact .inl ⟨Nat.le_zero.1 le, hk⟩
  · exact .inr (.inl ⟨rank, hr, Nat.le_trans le le'⟩)
  · exact .inr (.inr ⟨Nat.le_trans le le', hk⟩)

/-- An operator of a level can follow an operand, which is of a tighter level. -/
theorem endsBefore_of_rank {rank : Nat} {t : Token} {rest : List Token} (h : t.kind.rank? = some rank) :
    EndsBefore (rank + 1) (t :: rest) := by
  refine HeadNot.cons ?_
  rintro (⟨h', -⟩ | ⟨rank', hr, le⟩ | ⟨-, hk⟩)
  · cases h'
  · rw [h, Option.some.injEq] at hr
    omega
  · rcases hk with hk | hk <;> rw [hk] at h <;> cases h

/-- A token that is no operator ends any expression, unless it opens arguments or asks for a property. -/
theorem endsBefore_of_kind {k : Nat} {t : Token} {rest : List Token} {kind : Kind} (h : t.kind = kind)
    (hk : kind ≠ .equal ∧ kind.rank? = none ∧ kind ≠ .leftParen ∧ kind ≠ .dot) : EndsBefore k (t :: rest) := by
  refine HeadNot.cons ?_
  rw [h]
  rintro (⟨-, h'⟩ | ⟨rank', hr, -⟩ | ⟨-, h' | h'⟩)
  · exact hk.1 h'
  · rw [hk.2.1] at hr
    cases hr
  · exact hk.2.2.1 h'
  · exact hk.2.2.2 h'

/-! ## The rules of the levels -/

/-- The level of operators in the table whose operators have a rank. -/
theorem exists_level {rank : Nat} {kind : Kind} (h : kind.rank? = some rank) :
    ∃ i level, rank = i + 1 ∧ levels[i]? = some level ∧ kind ∈ level.operators ∧
      level.build = if rank ≤ 2 then .logical else .binary := by
  cases kind <;> cases h
  all_goals
    first
    | exact ⟨0, _, rfl, rfl, by decide, rfl⟩
    | exact ⟨1, _, rfl, rfl, by decide, rfl⟩
    | exact ⟨2, _, rfl, rfl, by decide, rfl⟩
    | exact ⟨3, _, rfl, rfl, by decide, rfl⟩
    | exact ⟨4, _, rfl, rfl, by decide, rfl⟩
    | exact ⟨5, _, rfl, rfl, by decide, rfl⟩

theorem rank_of_level {i : Nat} {level : Level} (h : levels[i]? = some level) :
    ∀ kind ∈ level.operators, kind.rank? = some (i + 1) := by
  match i with
  | 0 | 1 | 2 | 3 | 4 | 5 =>
    cases h
    decide
  | _ + 6 => cases h

namespace Rule

/-- The rule for expressions of a level. -/
def ofLevel (fuel : Nat) (inner : Rule Expr) : Nat → Rule Expr
  | 0 => assignment fuel inner
  | 8 => call fuel inner
  | 9 => primary inner
  | k + 1 => (levels.drop k).foldr (leftAssociative fuel) (signed fuel inner)

/-- The loop in the rule of a level: suffixes, or the operators of the level. -/
def loop (fuel : Nat) (inner : Rule Expr) (k n : Nat) (e : Expr) : Rule Expr :=
  match levels[k - 1]? with
  | some level => chain level (ofLevel fuel inner (k + 1)) n e
  | none => suffixes inner n e

/-- The levels whose rules are loops. -/
def Looping (k : Nat) : Prop := 0 < k ∧ k ≠ 7 ∧ k < 9

instance (k : Nat) : Decidable (Looping k) := inferInstanceAs (Decidable (_ ∧ _ ∧ _))

theorem ofLevel_looping {fuel : Nat} {inner : Rule Expr} {k : Nat} (h : Looping k) :
    ofLevel fuel inner k = ofLevel fuel inner (k + 1) >>= loop fuel inner k fuel := by
  obtain ⟨lo, ne, hi⟩ := h
  match k with
  | 1 | 2 | 3 | 4 | 5 | 6 | 8 => rfl
  | 7 => exact absurd rfl ne

/-! ## Reading one expression -/

/-- Whether a level's rule reads an expression that is followed by something that does not go on with it. -/
def Reads (f k : Nat) (e : Expr) (w : List Token) : Prop :=
  ∀ rest, EndsBefore k rest → (ofLevel (f + 1) (expression f) k).Accepts w rest fun e' => e'.shape = e.shape

/-- Whether a level's loop comes to have an expression in hand, with some fuel spent. -/
def Loops (f k : Nat) (e : Expr) (w : List Token) : Prop :=
  ∃ spent, spent < w.length ∧ ∀ v rest post, EndsBefore (k + 1) (v ++ rest) →
    (∀ e', e'.shape = e.shape → (loop (f + 1) (expression f) k (f + 1 - spent) e').Accepts v rest post) →
    (ofLevel (f + 1) (expression f) k).Accepts (w ++ v) rest post

/-- The signs still to come, the operand, and the signs already found, which come last first. -/
def signedAfter (fuel : Nat) (inner : Rule Expr) (n : Nat) (found : List Token) : Rule Expr := do
  let found ← leadingSigns n found
  let operand ← call fuel inner
  return found.foldl (fun e sign => .unary sign e) operand

/-- Whether an operand is read with its signs, after signs already found. -/
def ReadsSigned (f : Nat) (e : Expr) (w : List Token) : Prop :=
  ∀ n found rest, w.length ≤ n → EndsBefore 7 rest →
    (signedAfter (f + 1) (expression f) n found).Accepts w rest fun e' =>
      ∃ e'', e''.shape = e.shape ∧ e' = found.foldl (fun e sign => .unary sign e) e''

variable {f k : Nat} {e : Expr} {w : List Token}

/-- A loop with an expression in hand that ends here gives it. -/
theorem loop_ends {n : Nat} {rest : List Token} (hk : Looping k) (h : EndsBefore k rest) {post : Expr → Prop}
    (he : post e) : (loop (f + 1) (expression f) k n e).Accepts [] rest post := by
  unfold loop
  split
  · next level hl =>
    cases n with
    | zero => exact .pure he
    | succ n =>
      refine acceptAny?_accepts_not (HeadNot.mono h fun kind mem => ?_) (.pure he)
      exact .inr (.inl ⟨_, rank_of_level hl kind mem, by have := hk.1; omega⟩)
  · next hl =>
    have le : k ≤ 8 := Nat.le_of_lt_succ hk.2.2
    cases n with
    | zero => exact .pure he
    | succ n =>
      refine accept_accepts_not (HeadNot.mono h fun kind mem => ?_)
        (accept_accepts_not (HeadNot.mono h fun kind mem => ?_) (.pure he))
      · exact .inr (.inr ⟨le, .inl mem⟩)
      · exact .inr (.inr ⟨le, .inr mem⟩)

theorem Loops.reads (hk : Looping k) (h : Loops f k e w) : Reads f k e w := by
  obtain ⟨spent, -, h⟩ := h
  intro rest hrest
  have := h [] rest (fun e' => e'.shape = e.shape) (hrest.mono (Nat.le_succ k)) fun e' he => loop_ends hk hrest he
  rwa [List.append_nil] at this

/-- What the next level reads is what the loop starts from. -/
theorem Reads.loops (hk : Looping k) (pos : 0 < w.length) (h : Reads f (k + 1) e w) : Loops f k e w := by
  refine ⟨0, pos, fun v rest post hrest go => ?_⟩
  rw [ofLevel_looping hk]
  exact .bind (h _ hrest) fun e' he => go e' he

theorem ReadsSigned.reads (hw : w.length ≤ f + 1) (h : ReadsSigned f e w) : Reads f 7 e w := by
  intro rest hrest
  refine (h (f + 1) [] rest hw hrest).mono ?_
  rintro _ ⟨e', same, rfl⟩
  exact same

/-- A call, or what is tighter, is an operand without signs. -/
theorem Reads.signed (hw : HeadNot (· ∈ signs) w) (pos : 0 < w.length) (h : Reads f 8 e w) : ReadsSigned f e w := by
  intro n found rest hn hrest
  obtain ⟨n, rfl⟩ : ∃ m, n = m + 1 := ⟨n - 1, by omega⟩
  have none : (leadingSigns (n + 1) found).Accepts [] (w ++ rest) fun all => all = found :=
    acceptAny?_accepts_not (show HeadNot _ (w ++ rest) from hw.append pos) (.pure rfl)
  refine .bind (u := []) none ?_
  rintro _ rfl
  exact .bind_last (h rest (hrest.mono (by decide))) fun e' he => .pure ⟨e', he, rfl⟩

/-- An operation is an expression, where no assignment follows. -/
theorem Reads.expression (h : Reads f 1 e w) : Reads f 0 e w := by
  intro rest hrest
  refine .bind_last (h rest (hrest.mono (by decide))) fun e' he => acceptAny?_accepts_not ?_ (.pure he)
  exact HeadNot.mono hrest fun kind mem => .inl ⟨rfl, List.mem_singleton.1 mem⟩

end Rule

/-! ## Reading at every level -/

/-- The kinds of token that an expression can start with. -/
def Kind.starters : List Kind :=
  [.bang, .minus, .number, .string, .trueWord, .falseWord, .nilWord, .thisWord, .superWord, .identifier, .leftParen]

theorem Token.constant?_starts {t : Token} {value : Literal} (h : t.constant? = some value) :
    t.kind ∈ Kind.starters ∧ t.kind ∉ signs := by
  unfold Token.constant? at h
  split at h <;> first | (next hk => rw [hk]; decide) | cases h

theorem Expr.Written.starts {k : Nat} {e : Expr} {w : List Token} (h : e.Written k w) :
    HeadNot (· ∉ Kind.starters) w := by
  induction h with
  | literal _ ht => exact .cons (not_not_intro (Token.constant?_starts ht).1)
  | ref _ ht | self _ ht | super _ ht _ _ | group _ ht _ _ | assign ht _ _ => exact .cons (by rw [ht]; decide)
  | unary _ ht _ _ =>
    refine .cons (not_not_intro ?_)
    simp only [signs, List.mem_cons, List.not_mem_nil, or_false] at ht
    rcases ht with ht | ht <;> rw [ht] <;> decide
  | call _ _ _ he _ _ _ ih _ | get _ _ _ he ih | logical _ _ _ he _ ih _ | binary _ _ _ he _ ih _
  | set _ _ _ he _ ih _ => exact ih.append he.length_pos

/-- An expression does not start with a token of another kind. -/
theorem Expr.Written.headNot {k : Nat} {e : Expr} {w rest : List Token} (h : e.Written k w) {p : Kind → Prop}
    (hp : ∀ kind ∈ Kind.starters, ¬p kind) : HeadNot p (w ++ rest) :=
  (h.starts.append h.length_pos).mono fun kind hk mem => hp kind mem hk

/-- What is written at the level of calls does not start with a sign. -/
theorem Expr.Written.headNot_signs {k : Nat} {e : Expr} {w : List Token} (h : e.Written k w) (hk : 8 ≤ k) :
    HeadNot (· ∈ signs) w := by
  have call : ∀ {u v : List Token} {e : Expr}, e.Written 8 u → HeadNot (· ∈ signs) u → HeadNot (· ∈ signs) (u ++ v) :=
    fun he => HeadNot.append he.length_pos
  induction h with
  | literal _ ht => exact .cons (Token.constant?_starts ht).2
  | ref _ ht | self _ ht | super _ ht _ _ | group _ ht _ _ => exact .cons (by rw [ht]; decide)
  | call _ _ _ he _ _ _ ih _ => exact call he (ih (Nat.le_refl _))
  | get _ _ _ he ih => exact call he (ih (Nat.le_refl _))
  | unary le _ _ => omega
  | logical le hr _ _ _ | binary le hr _ _ _ =>
    obtain ⟨-, hi, -⟩ := derives_operators hr
    omega
  | assign | set => cases hk

namespace Rule

/-- How an expression is read by the rule of a level. -/
structure Read (f k : Nat) (e : Expr) (w : List Token) : Prop where
  reads : Reads f k e w
  loops : Looping k → Loops f k e w
  signed : k = 7 → ReadsSigned f e w

variable {f k : Nat} {e : Expr} {w : List Token}

theorem Read.of_loops (hk : Looping k) (h : Loops f k e w) : Read f k e w :=
  ⟨h.reads hk, fun _ => h, fun h7 => absurd h7 hk.2.1⟩

/-- What is read at a level is read at the next looser one. -/
theorem Read.descend (h : Read f (k + 1) e w) (hw : e.Written (k + 1) w) (short : w.length ≤ f + 1) (hk : k < 9) :
    Read f k e w := by
  by_cases hl : Looping k
  · exact .of_loops hl (h.reads.loops hl hw.length_pos)
  · obtain rfl | rfl : k = 0 ∨ k = 7 := by unfold Looping at hl; omega
    · exact ⟨h.reads.expression, fun hl => absurd hl.1 (by decide), nofun⟩
    · have signed := h.reads.signed (hw.headNot_signs (Nat.le_refl _)) hw.length_pos
      exact ⟨signed.reads short, fun hl => absurd rfl hl.2.1, fun _ => signed⟩

theorem Read.lower {j : Nat} (h : Read f k e w) (hw : e.Written k w) (short : w.length ≤ f + 1) (le : j ≤ k)
    (hk : k ≤ 9) : Read f j e w := by
  induction le with
  | refl => exact h
  | @step k le ih => exact ih (h.descend hw short (by omega)) (hw.lower (Nat.le_succ k)) (by omega)

/-- What a primary expression's rule takes is read at every level. -/
theorem Read.of_primary (hk : k ≤ 9) (hw : e.Written 9 w) (short : w.length ≤ f + 1)
    (h : ∀ rest, (primary (expression f)).Accepts w rest fun e' => e'.shape = e.shape) : Read f k e w :=
  Read.lower (k := 9) ⟨fun rest _ => h rest, fun hl => absurd hl.2.2 (by decide), nofun⟩ hw short hk (Nat.le_refl _)

theorem primary_constant {t : Token} {value : Literal} {inner : Rule Expr} (h : t.constant? = some value)
    (rest : List Token) : (primary inner).Accepts [t] rest fun e => e.shape = .literal value := by
  refine peek_accepts ?_
  unfold Token.constant? at h
  split at h
  · next hk =>
    rw [hk]
    cases h
    exact advance_accepts (by rw [hk]; nofun) (.pure rfl)
  · next hk =>
    rw [hk]
    cases h
    exact advance_accepts (by rw [hk]; nofun) (.pure rfl)
  · next hk =>
    rw [hk]
    cases h
    exact advance_accepts (by rw [hk]; nofun) (.pure rfl)
  · next hk =>
    rw [hk]
    refine advance_accepts (by rw [hk]; nofun) ?_
    rw [h]
    exact .pure rfl
  · next hk =>
    rw [hk]
    refine advance_accepts (by rw [hk]; nofun) ?_
    rw [h]
    exact .pure rfl
  · cases h

/-- A variable is read. -/
theorem Read.ref {id : UseId} {name : Token} (hk : k ≤ 9) (hn : name.kind = .identifier) :
    Read f k (.ref id name) [name] := by
  refine .of_primary hk (.ref (Nat.le_refl _) hn) (by simp) fun rest => peek_accepts ?_
  rw [hn]
  exact advance_accepts (by rw [hn]; nofun) (newUses_accepts fun _ => .pure rfl)

/-- A property of what is read at the level of calls is read there. -/
theorem Loops.get {object : Expr} {dot name : Token} {u : List Token} (hd : dot.kind = .dot)
    (hn : name.kind = .identifier) (short : u.length ≤ f) (h : Loops f 8 object u) :
    Loops f 8 (.get object name) (u ++ [dot, name]) := by
  obtain ⟨spent, lt, h⟩ := h
  refine ⟨spent + 1, by simp; omega, fun v rest post _ go => ?_⟩
  rw [List.append_assoc]
  refine h ([dot, name] ++ v) rest post (HeadNot.cons (by simp [Kind.Continues, hd, Kind.rank?])) fun object' same => ?_
  obtain ⟨n, hfuel⟩ : ∃ n, f + 1 - spent = n + 1 := ⟨f - spent, by omega⟩
  have go := go (.get object' name) (by rw [Expr.shape, Expr.shape, same])
  rw [show f + 1 - (spent + 1) = n by omega] at go
  rw [hfuel]
  refine accept_accepts_not (HeadNot.cons (by rw [hd]; decide)) (accept_accepts hd (by decide) ?_)
  exact expect_accepts hn go

/-! ## Lists -/

/-- Entries are read after those found, if they are not too many in all. -/
theorem entries_accepts {α β : Type} (tooMany : SyntaxFault) {entry : Rule α} (key : α → β) {close : Token}
    {rest : List Token} (hclose : close.kind = .rightParen) :
    ∀ (n : Nat) (more : List (α × List Token)) (found : List α) {v : List Token},
      (∀ e ∈ more, ∀ t rest, t.kind = .comma ∨ t.kind = .rightParen →
        entry.Accepts e.2 (t :: rest) fun a => key a = key e.1) →
      Separated (more.map (·.2)) v → more ≠ [] → found.length + more.length ≤ arityLimit → more.length ≤ n →
      (entries tooMany entry n found).Accepts v (close :: rest) fun all =>
        all.map key = found.reverse.map key ++ more.map fun e => key e.1
  | _, [], _, _, _, _, ne, _, _ => absurd rfl ne
  | n + 1, (a, u) :: more, found, v, each, sep, _, room, short => by
    obtain ⟨first, each⟩ := List.forall_mem_cons.1 each
    rw [List.length_cons] at room short
    have room' : ¬arityLimit ≤ found.length := by omega
    unfold entries
    rw [if_neg room']
    rw [List.map_cons] at sep
    generalize hws : more.map (·.2) = ws at sep
    cases sep with
    | one =>
      refine .bind_last (first close rest (.inr hclose)) fun a' same => ?_
      refine accept_accepts_not (HeadNot.cons (by rw [hclose]; nofun)) (.pure ?_)
      simp [List.map_eq_nil_iff.1 hws, same]
    | @cons comma _ _ v hc ne sep =>
      subst hws
      refine .bind (first comma _ (.inl hc)) fun a' same => accept_accepts hc nofun ?_
      have ne : more ≠ [] := fun h => ne (by rw [h]; rfl)
      refine (entries_accepts tooMany key hclose n more (a' :: found) each sep ne ?_ (by omega)).mono fun all h => ?_
      · rw [List.length_cons]
        omega
      · simp [h, same]

/-- A list of entries is read up to a closing parenthesis, if they are not too many. -/
theorem listed_accepts {α β : Type} (tooMany : SyntaxFault) {entry : Rule α} (key : α → β) {close : Token}
    {rest : List Token} (hclose : close.kind = .rightParen) {n : Nat} {more : List (α × List Token)} {v : List Token}
    (start : ∀ e ∈ more, HeadNot (· = .rightParen) e.2 ∧ 0 < e.2.length)
    (each : ∀ e ∈ more, ∀ t rest, t.kind = .comma ∨ t.kind = .rightParen →
      entry.Accepts e.2 (t :: rest) fun a => key a = key e.1)
    (sep : Separated (more.map (·.2)) v) (room : more.length ≤ arityLimit) (short : v.length < n) :
    Accepts (do if ← check .rightParen then return [] else entries tooMany entry n []) v (close :: rest) fun all =>
      all.map key = more.map fun e => key e.1 := by
  have short : more.length ≤ n := by
    have := sep.length_le_succ
    rw [List.length_map] at this
    omega
  cases more with
  | nil =>
    cases sep
    exact check_accepts hclose nofun (.pure rfl)
  | cons e more =>
    obtain ⟨first, pos⟩ := start e (by simp)
    have head : HeadNot (· = .rightParen) (v ++ close :: rest) := by
      rw [List.map_cons] at sep
      generalize more.map (·.2) = ws at sep
      cases sep with
      | one => exact first.append pos
      | cons =>
        rw [List.append_assoc]
        exact first.append pos
    refine check_accepts_not head ?_
    exact entries_accepts tooMany key hclose n (e :: more) [] each sep (by simp) (by simpa using room) short

/-! ## Every expression -/

/-- An operation is read by its level's loop, if its left side is and its right side is read at the next level. -/
theorem Loops.build {i : Nat} {level : Level} (hl : levels[i]? = some level) {operator : Token} {a b : Expr}
    {u v : List Token} (hop : operator.kind ∈ level.operators)
    (same : ∀ a' b' : Expr, a'.shape = a.shape → b'.shape = b.shape →
      (level.build operator a' b').shape = (level.build operator a b).shape)
    (short : u.length ≤ f) (ha : Loops f (i + 1) a u) (hb : Reads f (i + 2) b v) :
    Loops f (i + 1) (level.build operator a b) (u ++ operator :: v) := by
  obtain ⟨spent, lt', ha⟩ := ha
  have rank := rank_of_level hl _ hop
  refine ⟨spent + 1, by simp; omega, fun v' rest post hrest go => ?_⟩
  rw [List.append_assoc]
  refine ha (operator :: v ++ v') rest post (endsBefore_of_rank rank) fun a' sa => ?_
  obtain ⟨n, hfuel⟩ : ∃ n, f + 1 - spent = n + 1 := ⟨f - spent, by omega⟩
  rw [show f + 1 - (spent + 1) = n by omega] at go
  have unfold_loop : ∀ n e, loop (f + 1) (expression f) (i + 1) n e =
      chain level (ofLevel (f + 1) (expression f) (i + 2)) n e := by
    intro n e
    rw [loop, Nat.add_sub_cancel, hl]
  rw [hfuel, unfold_loop]
  refine acceptAny?_accepts hop ?_ (.bind (hb _ hrest) fun b' sb => ?_)
  · intro he
    rw [he] at rank
    cases rank
  · rw [← unfold_loop]
    exact go _ (same a' b' sa sb)

/-- A call is read by the loop of calls, if what is called is and its arguments are read. -/
theorem Loops.call {callee : Expr} {left paren : Token} {entries : List (Expr × List Token)} {u v : List Token}
    (hl : left.kind = .leftParen) (hr : paren.kind = .rightParen) (hc : Loops f 8 callee u)
    (written : ∀ e ∈ entries, e.1.Written 0 e.2) (limit : entries.length ≤ arityLimit)
    (sep : Separated (entries.map (·.2)) v) (short : u.length + v.length ≤ f)
    (each : ∀ e ∈ entries, ∀ rest, EndsBefore 0 rest →
      (expression f).Accepts e.2 rest fun e' => e'.shape = e.1.shape) :
    Loops f 8 (.call callee paren (entries.map (·.1))) (u ++ left :: (v ++ [paren])) := by
  obtain ⟨spent, lt, hc⟩ := hc
  refine ⟨spent + 1, by simp; omega, fun v' rest post _ go => ?_⟩
  rw [List.append_assoc]
  refine hc _ rest post (HeadNot.cons (by simp [Kind.Continues, hl, Kind.rank?])) fun callee' same => ?_
  obtain ⟨n, hfuel⟩ : ∃ n, f + 1 - spent = n + 1 := ⟨f - spent, by omega⟩
  rw [show f + 1 - (spent + 1) = n by omega] at go
  rw [hfuel, List.cons_append, List.append_assoc]
  have arguments : (arguments (n + 1) (expression f)).Accepts v (paren :: (v' ++ rest)) fun es =>
      es.map Expr.shape = entries.map fun e => e.1.shape := by
    refine listed_accepts .tooManyArguments Expr.shape hr (fun e mem => ⟨?_, (written e mem).length_pos⟩) ?_ sep limit
      (by omega)
    · exact (written e mem).starts.mono fun kind hk => by rw [hk]; decide
    · intro e mem t rest ht
      refine each e mem _ ?_
      rcases ht with ht | ht <;> exact endsBefore_of_kind ht (by decide)
  refine accept_accepts hl nofun (.bind arguments fun es hes => expect_accepts hr (go _ ?_))
  rw [Expr.shape, Expr.shape, same, Expr.shapeAll_eq, Expr.shapeAll_eq, hes, List.map_map]
  rfl

/-- One more sign before an operand is read with the others. -/
theorem ReadsSigned.unary {operator : Token} (hop : operator.kind ∈ signs) (h : ReadsSigned f e w) :
    ReadsSigned f (.unary operator e) (operator :: w) := by
  intro n found rest short hrest
  rw [List.length_cons] at short
  obtain ⟨n, rfl⟩ : ∃ m, n = m + 1 := ⟨n - 1, by omega⟩
  have inner := h n (operator :: found) rest (by omega) hrest
  unfold signedAfter leadingSigns
  rw [bind_assoc]
  refine acceptAny?_accepts hop (by intro h; rw [h] at hop; cases hop; contradiction) (inner.mono ?_)
  rintro _ ⟨e', same, rfl⟩
  exact ⟨.unary operator e', by rw [Expr.shape, Expr.shape, same], rfl⟩

/-- An operation is read at its level and at the looser ones, if its left side is read at its level and its right side at
the next. -/
theorem Read.operation {rank : Nat} {operator : Token} {build : Token → Expr → Expr → Expr} {a b : Expr}
    {u v : List Token} (hop : operator.kind.rank? = some rank)
    (form : build = if rank ≤ 2 then .logical else .binary)
    (same : ∀ a' b' : Expr, a'.shape = a.shape → b'.shape = b.shape →
      (build operator a' b').shape = (build operator a b).shape)
    (written : (build operator a b).Written rank (u ++ operator :: v)) (short : u.length + (v.length + 1) ≤ f + 1)
    (pos : 0 < v.length) (ha : Read f rank a u) (hb : Read f (rank + 1) b v) (hk : k ≤ rank) :
    Read f k (build operator a b) (u ++ operator :: v) := by
  obtain ⟨-, hi, -⟩ := derives_operators hop
  obtain ⟨i, level, rfl, hl, mem, hbuild⟩ := exists_level hop
  obtain rfl : level.build = build := hbuild.trans form.symm
  have looping : Looping (i + 1) := ⟨by omega, by omega, by omega⟩
  have loops := Loops.build hl mem same (by omega) (ha.loops looping) hb.reads
  exact (Read.of_loops looping loops).lower written (by simpa using short) hk (by omega)

end Rule

open Rule in
/-- However an expression is written at a level, the rule of the level reads it. -/
theorem Expr.Written.read {k : Nat} {e : Expr} {w : List Token} (h : e.Written k w) :
    ∀ f, w.length ≤ f + 1 → Read f k e w := by
  induction h with
  | literal hk ht => exact fun f short => .of_primary hk (.literal (Nat.le_refl _) ht) short (primary_constant ht)
  | ref hk ht => exact fun f _ => .ref hk ht
  | self hk ht =>
    refine fun f short => .of_primary hk (.self (Nat.le_refl _) ht) short fun rest => peek_accepts ?_
    rw [ht]
    exact advance_accepts (by rw [ht]; decide) (newUses_accepts fun _ => .pure rfl)
  | super hk ht hd hm =>
    refine fun f short => .of_primary hk (.super (Nat.le_refl _) ht hd hm) short fun rest => peek_accepts ?_
    rw [ht]
    refine advance_accepts (by rw [ht]; decide) (expect_accepts hd (expect_accepts hm ?_))
    exact newUses_accepts fun _ => .pure rfl
  | @group k left right e w hk hl hr he ih =>
    intro f short
    simp only [List.length_cons, List.length_append, List.length_nil] at short
    refine .of_primary hk (.group (Nat.le_refl _) hl hr he) (by simp; omega) fun rest => peek_accepts ?_
    rw [hl]
    obtain ⟨f, rfl⟩ : ∃ f', f = f' + 1 := ⟨f - 1, by omega⟩
    refine advance_accepts (by rw [hl]; decide) (.bind ((ih f (by omega)).reads _ ?_) fun e' same => ?_)
    · exact endsBefore_of_kind hr (by decide)
    · exact expect_accepts hr (.pure (by rw [Expr.shape, Expr.shape, same]))
  | @call k callee left paren entries u v hk hl hr he hes limit sep ihc ihs =>
    intro f short
    have written := Expr.Written.call (Nat.le_refl 8) hl hr he hes limit sep
    simp only [List.length_cons, List.length_append, List.length_nil] at short
    have loops := (ihc f (by omega)).loops (by decide)
    have pos := he.length_pos
    obtain ⟨f, rfl⟩ : ∃ f', f = f' + 1 := ⟨f - 1, by omega⟩
    have each : ∀ e ∈ entries, ∀ rest, EndsBefore 0 rest →
        (expression (f + 1)).Accepts e.2 rest fun e' => e'.shape = e.1.shape := fun e mem rest hrest =>
      (ihs e mem f (by have := sep.length_le (List.mem_map_of_mem mem); omega)).reads rest hrest
    have := Loops.call hl hr loops hes limit sep (by omega) each
    exact (Read.of_loops (by decide) this).lower written (by simp; omega) hk (by decide)
  | @get k object dot name u hk hd hn ho ih =>
    intro f short
    simp only [List.length_cons, List.length_append, List.length_nil] at short
    have := ((ih f (by omega)).loops (by decide)).get hd hn (by omega)
    exact (Read.of_loops (by decide) this).lower (.get (Nat.le_refl _) hd hn ho) (by simp; omega) hk (by decide)
  | @unary k operator e w hk hop he ih =>
    intro f short
    rw [List.length_cons] at short
    have signed := ((ih f (by omega)).signed rfl).unary hop
    exact Read.lower (k := 7) ⟨signed.reads short, fun hl => absurd rfl hl.2.1, fun _ => signed⟩
      (.unary (Nat.le_refl _) hop he) short hk (by decide)
  | @logical k rank operator a b u v hk hop hr ha hb iha ihb =>
    intro f short
    simp only [List.length_cons, List.length_append] at short
    have pos := hb.length_pos
    exact Read.operation hop (by rw [if_pos hr]) (fun a' b' sa sb => by rw [Expr.shape, Expr.shape, sa, sb])
      (.logical (Nat.le_refl _) hop hr ha hb) short pos (iha f (by omega)) (ihb f (by omega)) hk
  | @binary k rank operator a b u v hk hop hr ha hb iha ihb =>
    intro f short
    simp only [List.length_cons, List.length_append] at short
    have pos := hb.length_pos
    exact Read.operation hop (by rw [if_neg (Nat.not_le_of_lt hr)])
      (fun a' b' sa sb => by rw [Expr.shape, Expr.shape, sa, sb]) (.binary (Nat.le_refl _) hop hr ha hb) short pos
      (iha f (by omega)) (ihb f (by omega)) hk
  | @assign id name equals e v hn heq he ih =>
    intro f short
    simp only [List.length_cons] at short
    have pos := he.length_pos
    obtain ⟨f, rfl⟩ : ∃ f', f = f' + 1 := ⟨f - 1, by omega⟩
    refine ⟨fun rest hrest => ?_, fun hl => absurd hl.1 (by decide), fun h => absurd h (by decide)⟩
    have read : Read (f + 1) 1 (.ref id name) [name] := .ref (by decide) hn
    have target := read.reads (equals :: (v ++ rest))
      (HeadNot.cons (by simp [Kind.Continues, heq, Kind.rank?]))
    refine .bind (u := [name]) (v := equals :: v) target fun target same => ?_
    obtain ⟨id', rfl⟩ := Expr.eq_ref_of_shape same
    refine acceptAny?_accepts (by rw [heq]; decide) (by rw [heq]; decide) ?_
    refine .bind_last ((ih f (by omega)).reads rest hrest) fun value same => newUses_accepts fun _ => .pure ?_
    rw [Expr.shape, Expr.shape, same]
  | @set object e dot name equals u v hd hn heq ho he iho ihe =>
    intro f short
    simp only [List.length_cons, List.length_append] at short
    have pos := he.length_pos
    have loops := ((iho f (by omega)).loops (by decide)).get hd hn (by omega)
    have get : Read f 1 (.get object name) (u ++ [dot, name]) :=
      (Read.of_loops (by decide) loops).lower (.get (Nat.le_refl _) hd hn ho) (by simp; omega) (by decide) (by decide)
    obtain ⟨f, rfl⟩ : ∃ f', f = f' + 1 := ⟨f - 1, by omega⟩
    refine ⟨fun rest hrest => ?_, fun hl => absurd hl.1 (by decide), fun h => absurd h (by decide)⟩
    have target := get.reads (equals :: (v ++ rest)) (HeadNot.cons (by simp [Kind.Continues, heq, Kind.rank?]))
    rw [show u ++ dot :: name :: equals :: v = (u ++ [dot, name]) ++ equals :: v by simp]
    refine .bind target fun target same => ?_
    obtain ⟨object', rfl, ho'⟩ := Expr.eq_get_of_shape same
    refine acceptAny?_accepts (by rw [heq]; decide) (by rw [heq]; decide) ?_
    refine .bind_last ((ihe f (by omega)).reads rest hrest) fun value same' => .pure ?_
    rw [Expr.shape, Expr.shape, ho', same']

/-- A written expression is read, wherever nothing goes on with it. -/
theorem Expr.Written.accepts {e : Expr} {w rest : List Token} {fuel : Nat} (h : e.Written 0 w)
    (short : w.length ≤ fuel) (hrest : EndsBefore 0 rest) :
    (Rule.expression fuel).Accepts w rest fun e' => e'.shape = e.shape := by
  have pos := h.length_pos
  obtain ⟨f, rfl⟩ : ∃ f, fuel = f + 1 := ⟨fuel - 1, by omega⟩
  exact (h.read f short).reads rest hrest

end Lox
