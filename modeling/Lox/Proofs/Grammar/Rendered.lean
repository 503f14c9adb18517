/-
Expressions and the tokens they are written with correspond one to one. The rendering of an expression whose operands
stand at the levels that the grammar asks for is read as that expression, and an expression that is read renders to the
tokens it was read from.
-/
import Lox.Proofs.Grammar.Derivable

namespace Lox

/-! ## Levels -/

/-- The level of an expression: the tightest place in the grammar that it can stand in. -/
def Expr.rank : Expr → Nat
  | .assign .. | .set .. => 0
  | .logical operator .. | .binary operator .. => operator.kind.rank?.getD 0
  | .unary .. => 7
  | .call .. | .get .. => 8
  | _ => 9

mutual

/-- Whether the parts of an expression stand at the levels that the grammar asks for. -/
def Expr.Leveled : Expr → Prop
  | .literal _ => True
  | .unary operator e => operator.kind ∈ signs ∧ 7 ≤ e.rank ∧ e.Leveled
  | .binary operator a b => (∃ rank, operator.kind.rank? = some rank ∧ 2 < rank ∧ rank ≤ a.rank ∧ rank < b.rank) ∧
      a.Leveled ∧ b.Leveled
  | .logical operator a b => (∃ rank, operator.kind.rank? = some rank ∧ rank ≤ 2 ∧ rank ≤ a.rank ∧ rank < b.rank) ∧
      a.Leveled ∧ b.Leveled
  | .group e => e.Leveled
  | .ref _ name => name.kind = .identifier
  | .assign _ name e => name.kind = .identifier ∧ e.Leveled
  | .call callee paren arguments => paren.kind = .rightParen ∧ arguments.length ≤ arityLimit ∧ 8 ≤ callee.rank ∧
      callee.Leveled ∧ Expr.LeveledAll arguments
  | .get object name => name.kind = .identifier ∧ 8 ≤ object.rank ∧ object.Leveled
  | .set object name e => name.kind = .identifier ∧ 8 ≤ object.rank ∧ object.Leveled ∧ e.Leveled
  | .self _ keyword => keyword.kind = .thisWord
  | .super _ keyword method => keyword.kind = .superWord ∧ method.kind = .identifier

/-- Whether the parts of expressions stand at the levels that the grammar asks for. -/
def Expr.LeveledAll : List Expr → Prop
  | [] => True
  | e :: es => e.Leveled ∧ Expr.LeveledAll es

end

/-! ## Rendering -/

/-- A constant's token. -/
def Literal.token : Literal → Token
  | .nil => ⟨.nilWord, "nil", none, 0⟩
  | .bool true => ⟨.trueWord, "true", none, 0⟩
  | .bool false => ⟨.falseWord, "false", none, 0⟩
  | .number x => ⟨.number, Number.tokenText x, some (.number x), 0⟩
  | .string s => ⟨.string, "\"" ++ s ++ "\"", some (.string s), 0⟩

namespace Token

/-- The tokens that a tree does not keep. -/
def leftParen : Token := ⟨.leftParen, "(", none, 0⟩

@[inherit_doc leftParen]
def rightParen : Token := ⟨.rightParen, ")", none, 0⟩

@[inherit_doc leftParen]
def comma : Token := ⟨.comma, ",", none, 0⟩

@[inherit_doc leftParen]
def dot : Token := ⟨.dot, ".", none, 0⟩

@[inherit_doc leftParen]
def equal : Token := ⟨.equal, "=", none, 0⟩

@[inherit_doc leftParen]
def semicolon : Token := ⟨.semicolon, ";", none, 0⟩

end Token

/-- Sequences of tokens with commas between them. -/
def separate : List (List Token) → List Token
  | [] => []
  | [w] => w
  | w :: ws => w ++ Token.comma :: separate ws

mutual

/-- The tokens that an expression is rendered to. -/
def Expr.tokens : Expr → List Token
  | .literal value => [value.token]
  | .unary operator e => operator :: e.tokens
  | .binary operator a b => a.tokens ++ operator :: b.tokens
  | .logical operator a b => a.tokens ++ operator :: b.tokens
  | .group e => Token.leftParen :: (e.tokens ++ [Token.rightParen])
  | .ref _ name => [name]
  | .assign _ name e => name :: Token.equal :: e.tokens
  | .call callee paren arguments => callee.tokens ++ Token.leftParen :: (separate (Expr.tokensAll arguments) ++ [paren])
  | .get object name => object.tokens ++ [Token.dot, name]
  | .set object name e => object.tokens ++ Token.dot :: name :: Token.equal :: e.tokens
  | .self _ keyword => [keyword]
  | .super _ keyword method => [keyword, Token.dot, method]

/-- The tokens that each of some expressions is rendered to. -/
def Expr.tokensAll : List Expr → List (List Token)
  | [] => []
  | e :: es => e.tokens :: Expr.tokensAll es

end

/-- What a token says, wherever it stands: its kind, its name and its constant. -/
structure Sense where
  kind : Kind
  name : Option String
  constant : Option Literal
  deriving DecidableEq

namespace Token

/-- What a token says. -/
def sense (t : Token) : Sense := ⟨t.kind, if t.kind = .identifier then some t.lexeme else none, t.constant?⟩

/-- A token with the kind of the constant that it carries. -/
def regular (t : Token) : Token :=
  match t.constant? with
  | some value => { t with kind := value.token.kind }
  | none => t

end Token

/-! ## Renderings are written -/

theorem separated_separate : ∀ ws : List (List Token), Separated ws (separate ws)
  | [] => .nil
  | [w] => .one w
  | _ :: w :: ws => .cons rfl (List.cons_ne_nil w ws) (separated_separate (w :: ws))

theorem Literal.constant?_token (value : Literal) : value.token.constant? = some value := by
  cases value with
  | bool b => cases b <;> rfl
  | _ => rfl

theorem Expr.tokensAll_eq (es : List Expr) : tokensAll es = es.map tokens := by
  induction es with
  | nil => rfl
  | cons e es ih => rw [tokensAll, List.map_cons, ih]

theorem Expr.leveledAll_iff {es : List Expr} : LeveledAll es ↔ ∀ e ∈ es, e.Leveled := by
  induction es with
  | nil => simp [LeveledAll]
  | cons e es ih => simp [LeveledAll, ih]

mutual

/-- An expression is written as it is rendered. -/
theorem Expr.Leveled.written : ∀ {e : Expr}, e.Leveled → e.Written e.rank e.tokens
  | .literal value, _ => .literal (Nat.le_refl _) value.constant?_token
  | .unary _ _, ⟨hop, le, he⟩ => .unary (Nat.le_refl _) hop (he.written.lower le)
  | .binary _ _ _, ⟨⟨rank, hop, two, la, lb⟩, ha, hb⟩ => by
    rw [Expr.rank, hop]
    exact .binary (Nat.le_refl _) hop two (ha.written.lower la) (hb.written.lower lb)
  | .logical _ _ _, ⟨⟨rank, hop, two, la, lb⟩, ha, hb⟩ => by
    rw [Expr.rank, hop]
    exact .logical (Nat.le_refl _) hop two (ha.written.lower la) (hb.written.lower lb)
  | .group e, he => .group (Nat.le_refl _) rfl rfl ((Expr.Leveled.written (e := e) he).lower (Nat.zero_le _))
  | .ref _ _, hn => .ref (Nat.le_refl _) hn
  | .assign _ _ _, ⟨hn, he⟩ => .assign hn rfl (he.written.lower (Nat.zero_le _))
  | .call callee paren arguments, ⟨hp, limit, le, hc, hes⟩ => by
    have each : ∀ entry ∈ arguments.map fun e => (e, e.tokens), entry.1.Written 0 entry.2 := by
      intro entry hentry
      obtain ⟨e, mem, rfl⟩ := List.mem_map.1 hentry
      exact (hes.written e mem).lower (Nat.zero_le _)
    have sep : Separated ((arguments.map fun e => (e, e.tokens)).map (·.2)) (separate (Expr.tokensAll arguments)) := by
      rw [Expr.tokensAll_eq, List.map_map]
      exact separated_separate _
    have := Expr.Written.call (Nat.le_refl 8) (show Token.leftParen.kind = .leftParen from rfl) hp
      (hc.written.lower le) each (by simpa using limit) sep
    rwa [List.map_map, show (fun entry : Expr × List Token => entry.1) ∘ (fun e => (e, e.tokens)) = id from rfl,
      List.map_id] at this
  | .get _ _, ⟨hn, le, ho⟩ => .get (Nat.le_refl _) rfl hn (ho.written.lower le)
  | .set _ _ _, ⟨hn, le, ho, he⟩ => .set rfl hn rfl (ho.written.lower le) (he.written.lower (Nat.zero_le _))
  | .self _ _, hk => .self (Nat.le_refl _) hk
  | .super _ _ _, ⟨hk, hm⟩ => .super (Nat.le_refl _) hk rfl hm

/-- Expressions are each written as they are rendered. -/
theorem Expr.LeveledAll.written : ∀ {es : List Expr}, Expr.LeveledAll es → ∀ e ∈ es, e.Written e.rank e.tokens
  | [], _ => nofun
  | _ :: _, ⟨he, hes⟩ => List.forall_mem_cons.2 ⟨he.written, Expr.LeveledAll.written hes⟩

end

/-! ## What is written renders to what it was written as -/

/-- Whether the tokens of a kind stand for no constant. -/
def Kind.Constantless (kind : Kind) : Prop :=
  kind ≠ .nilWord ∧ kind ≠ .trueWord ∧ kind ≠ .falseWord ∧ kind ≠ .number ∧ kind ≠ .string

instance (kind : Kind) : Decidable kind.Constantless := inferInstanceAs (Decidable (_ ∧ _))

theorem Kind.constantless_of_rank {kind : Kind} {rank : Nat} (h : kind.rank? = some rank) : kind.Constantless := by
  cases kind <;> first | cases h; done | decide

namespace Token

variable {t t' : Token} {kind : Kind}

theorem constant?_of_kind (hk : t.kind.Constantless) : t.constant? = none := by
  obtain ⟨h₁, h₂, h₃, h₄, h₅⟩ := hk
  unfold constant?
  split <;> first | contradiction | rfl

/-- A token without a constant says what it says with its own kind. -/
theorem sense_regular (hk : t.kind.Constantless) : t.regular.sense = t.sense := by
  rw [regular, constant?_of_kind hk]

/-- Tokens of a kind that has neither names nor constants say the same. -/
theorem sense_of_kind (h : t.kind = kind) (h' : t'.kind = kind) (hk : kind.Constantless) (hn : kind ≠ .identifier) :
    t.regular.sense = t'.sense := by
  rw [sense_regular (h ▸ hk), sense, sense, constant?_of_kind (h ▸ hk), constant?_of_kind (h' ▸ hk), h, h', if_neg hn,
    if_neg hn]

theorem sense_constant {value : Literal} (h : t.constant? = some value) : t.regular.sense = value.token.sense := by
  have kind : value.token.kind ≠ .identifier := by
    cases value with
    | bool b => cases b <;> nofun
    | _ => nofun
  have carried : t.regular.constant? = some value := by
    have literal : t.literal = some value → ({ t with kind := value.token.kind } : Token).constant? = some value := by
      intro h
      cases value with
      | bool b => cases b <;> rfl
      | nil => rfl
      | number | string => exact h
    rw [regular, h]
    unfold constant? at h
    split at h
    · cases h
      rfl
    · cases h
      rfl
    · cases h
      rfl
    · exact literal h
    · exact literal h
    · cases h
  have same : t.regular.kind = value.token.kind := by rw [regular, h]
  rw [sense, sense, same, carried, Literal.constant?_token, if_neg kind, if_neg kind]

end Token

/-- What the tokens of a list say, each of them with the kind of the constant that it carries. -/
def senses (w : List Token) : List Sense := w.map fun t => t.regular.sense

theorem senses_append (u v : List Token) : senses (u ++ v) = senses u ++ senses v := List.map_append

theorem senses_cons (t : Token) (w : List Token) : senses (t :: w) = t.regular.sense :: senses w := rfl

/-- Sequences that say the same say the same with commas between them. -/
theorem senses_separate {ws : List (List Token)} {v : List Token} (h : Separated ws v) :
    ∀ {us : List (List Token)}, us.map (·.map Token.sense) = ws.map senses → (separate us).map Token.sense = senses v := by
  induction h with
  | nil =>
    intro us hus
    rw [List.map_eq_nil_iff.1 hus]
    rfl
  | one w =>
    intro us hus
    match us, hus with
    | [u], hus => exact (List.cons.inj hus).1
    | _ :: _ :: _, hus => cases (List.cons.inj hus).2
  | @cons comma w ws v hc ne _ ih =>
    intro us hus
    match us, hus with
    | [_], hus => exact absurd (List.map_eq_nil_iff.1 (List.cons.inj hus).2.symm) ne
    | u :: u' :: us, hus =>
      obtain ⟨first, rest⟩ := List.cons.inj hus
      have comma : Token.comma.sense = comma.regular.sense := (Token.sense_of_kind hc rfl (by decide) nofun).symm
      rw [separate, List.map_append, List.map_cons, ih rest, senses_append, senses_cons, comma]
      · exact congrArg (· ++ _) first
      · exact nofun

/-- What is written at a level has its parts at the levels that the grammar asks for, and renders to what it was
written as. -/
theorem Expr.Written.rendered {k : Nat} {e : Expr} {w : List Token} (h : e.Written k w) :
    k ≤ e.rank ∧ e.Leveled ∧ e.tokens.map Token.sense = senses w := by
  have invented : ∀ {t t' : Token} {kind : Kind}, t.kind = kind → t'.kind = kind → kind.Constantless →
      kind ≠ .identifier → t'.sense = t.regular.sense := fun h h' hk hn => (Token.sense_of_kind h h' hk hn).symm
  have kept : ∀ {t : Token} {kind : Kind}, t.kind = kind → kind.Constantless → t.sense = t.regular.sense :=
    fun h hk => (Token.sense_regular (h ▸ hk)).symm
  induction h with
  | literal hk ht => exact ⟨hk, trivial, by rw [senses_cons, Token.sense_constant ht]; rfl⟩
  | ref hk ht => exact ⟨hk, ht, by rw [senses_cons, ← kept ht (by decide)]; rfl⟩
  | self hk ht => exact ⟨hk, ht, by rw [senses_cons, ← kept ht (by decide)]; rfl⟩
  | super hk ht hd hm =>
    refine ⟨hk, ⟨ht, hm⟩, ?_⟩
    rw [senses_cons, senses_cons, senses_cons, ← kept ht (by decide), ← kept hm (by decide),
      ← invented hd (show Token.dot.kind = .dot from rfl) (by decide) nofun]
    rfl
  | group hk hl hr _ ih =>
    refine ⟨hk, ih.2.1, ?_⟩
    rw [tokens, List.map_cons, List.map_append, ih.2.2, senses_cons, senses_append, senses_cons,
      ← invented hl (show Token.leftParen.kind = .leftParen from rfl) (by decide) nofun,
      ← invented hr (show Token.rightParen.kind = .rightParen from rfl) (by decide) nofun]
    rfl
  | @call k callee left paren entries u v hk hl hr _ _ limit sep ihc ihs =>
    have each : LeveledAll (entries.map (·.1)) := by
      refine leveledAll_iff.2 fun e he => ?_
      obtain ⟨entry, mem, rfl⟩ := List.mem_map.1 he
      exact (ihs entry mem).2.1
    have same : (separate (tokensAll (entries.map (·.1)))).map Token.sense = senses v := by
      refine senses_separate sep ?_
      rw [tokensAll_eq, List.map_map, List.map_map, List.map_map]
      exact List.map_congr_left fun entry mem => (ihs entry mem).2.2
    refine ⟨hk, ⟨hr, by simpa using limit, ihc.1, ihc.2.1, each⟩, ?_⟩
    rw [tokens, List.map_append, List.map_cons, List.map_append, ihc.2.2, same, senses_append, senses_cons,
      senses_append, senses_cons, ← invented hl (show Token.leftParen.kind = .leftParen from rfl) (by decide) nofun,
      ← kept hr (by decide)]
    rfl
  | get hk hd hn _ ih =>
    refine ⟨hk, ⟨hn, ih.1, ih.2.1⟩, ?_⟩
    rw [tokens, List.map_append, ih.2.2, senses_append, senses_cons, senses_cons,
      ← invented hd (show Token.dot.kind = .dot from rfl) (by decide) nofun, ← kept hn (by decide)]
    rfl
  | unary hk hop _ ih =>
    refine ⟨hk, ⟨hop, ih.1, ih.2.1⟩, ?_⟩
    have : ∀ kind ∈ signs, kind.Constantless := by decide
    rw [tokens, List.map_cons, ih.2.2, senses_cons, ← kept rfl (this _ hop)]
  | logical hk hop two _ _ iha ihb =>
    refine ⟨?_, ⟨⟨_, hop, two, iha.1, ihb.1⟩, iha.2.1, ihb.2.1⟩, ?_⟩
    · rw [rank, hop]
      exact hk
    · rw [tokens, List.map_append, List.map_cons, iha.2.2, ihb.2.2, senses_append, senses_cons,
        ← kept rfl (Kind.constantless_of_rank hop)]
  | binary hk hop two _ _ iha ihb =>
    refine ⟨?_, ⟨⟨_, hop, two, iha.1, ihb.1⟩, iha.2.1, ihb.2.1⟩, ?_⟩
    · rw [rank, hop]
      exact hk
    · rw [tokens, List.map_append, List.map_cons, iha.2.2, ihb.2.2, senses_append, senses_cons,
        ← kept rfl (Kind.constantless_of_rank hop)]
  | assign hn heq _ ih =>
    refine ⟨Nat.le_refl _, ⟨hn, ih.2.1⟩, ?_⟩
    rw [tokens, List.map_cons, List.map_cons, ih.2.2, senses_cons, senses_cons, ← kept hn (by decide),
      ← invented heq (show Token.equal.kind = .equal from rfl) (by decide) nofun]
  | set hd hn heq _ _ iho ihe =>
    refine ⟨Nat.le_refl _, ⟨hn, iho.1, iho.2.1, ihe.2.1⟩, ?_⟩
    rw [tokens, List.map_append, List.map_cons, List.map_cons, List.map_cons, iho.2.2, ihe.2.2, senses_append,
      senses_cons, senses_cons, senses_cons, ← kept hn (by decide),
      ← invented hd (show Token.dot.kind = .dot from rfl) (by decide) nofun,
      ← invented heq (show Token.equal.kind = .equal from rfl) (by decide) nofun]

/-! ## Expression statements -/

/-- An expression is read from what it is written as and a semicolon. -/
theorem parse_written {e : Expr} {w : List Token} {close : Token} (he : e.Written 0 w) (hc : close.kind = .semicolon) :
    (parse (w ++ [close])).errors = [] ∧
      ∃ e', (parse (w ++ [close])).statements = [.expression e'] ∧ e'.shape = e.shape := by
  have pos := he.length_pos
  obtain ⟨n, hn⟩ : ∃ n, (w ++ [close]).length = n + 2 := ⟨w.length - 1, by simp; omega⟩
  have statement := Rule.exprStmt_accepts [] he hc (Nat.le_of_eq hn)
  have declaration := Rule.declaration_accepts (by omega) (he.headNot (by decide)) statement
  obtain ⟨s, c, run, hrest, errors, e', rfl, same⟩ := declaration (.start (w ++ [close])) (List.append_nil _).symm
  have more : (Cursor.start (w ++ [close])).atEnd = false := by
    refine Rule.atEnd_of_headNot (he.headNot (by decide)) ?_
    show 0 < (w ++ [close]).length
    omega
  have last : c.atEnd = true := by
    rw [Cursor.atEnd, Cursor.peek, hrest]
    rfl
  have program : (Rule.program (n + 2)).outcome (.start (w ++ [close])) = ([.expression e'], c) := by
    show SureRule.outcome (if (Cursor.start (w ++ [close])).atEnd = true then _ else _) _ = _
    rw [more, if_neg Bool.false_ne_true, SureRule.outcome_bind, run]
    show SureRule.outcome (if c.atEnd = true then _ else _) _ = _
    rw [if_pos last]
    rfl
  unfold parse
  rw [hn]
  have parsed : (Rule.program (n + 2)).run (.start (w ++ [close])) = ([.expression e'], c) := program
  rw [parsed]
  exact ⟨congrArg Array.toList errors, e', rfl, same⟩

/-- An expression as a statement is written as the expression, and then a semicolon. -/
theorem Code.Written.exprStmt {symbol : Symbol} {e : Expr} {w : List Token}
    (h : (Code.stmt (.expression e)).Written symbol w) :
    ∃ u close, w = u ++ [close] ∧ close.kind = .semicolon ∧ e.Written 0 u := by
  generalize hcode : Code.stmt (.expression e) = code at h
  induction h with
  | simple h =>
    cases hcode
    cases h with
    | exprStmt he hc => exact ⟨_, _, rfl, hc, he⟩
  | statement _ _ ih | declaration _ _ ih => exact ih hcode
  | @forStmt _ _ _ _ first =>
    injection hcode with h
    cases first <;> cases h
  | _ => cases hcode

/-- A program of one expression is written as that expression. -/
theorem written_of_parse {tokens : List Token} {e : Expr} (h : (parse tokens).errors = [])
    (hs : (parse tokens).statements = [.expression e]) :
    ∃ u close, beforeEnd tokens = u ++ [close] ∧ close.kind = .semicolon ∧ e.Written 0 u := by
  have written := written_parse h
  rw [hs] at written
  generalize beforeEnd tokens = w at written
  generalize hcode : Code.stmts [Stmt.expression e] = code at written
  cases written with
  | @program entries each =>
    injection hcode with h
    match entries, h with
    | [(_, w)], rfl => simpa using (each _ (List.mem_singleton_self _)).exprStmt
  | _ => cases hcode

/--
Expressions and token sequences correspond. The rendering of an expression whose parts stand at their levels is read as
that expression, up to the numbers of uses; and the expression of a program that is one expression renders to the
tokens of the program, each with the kind of the constant it carries.
-/
theorem parse_rendering :
    (∀ e : Expr, e.Leveled → ∀ close : Token, close.kind = .semicolon →
      (parse (e.tokens ++ [close])).errors = [] ∧
        ∃ e', (parse (e.tokens ++ [close])).statements = [.expression e'] ∧ e'.shape = e.shape) ∧
    ∀ tokens e, (parse tokens).errors = [] → (parse tokens).statements = [.expression e] →
      e.Leveled ∧ (e.tokens ++ [Token.semicolon]).map Token.sense = senses (beforeEnd tokens) := by
  refine ⟨fun e he close hc => parse_written (he.written.lower (Nat.zero_le _)) hc, fun tokens e h hs => ?_⟩
  obtain ⟨u, close, hu, hc, he⟩ := written_of_parse h hs
  obtain ⟨-, leveled, same⟩ := he.rendered
  refine ⟨leveled, ?_⟩
  have semicolon := Token.sense_of_kind hc (show Token.semicolon.kind = .semicolon from rfl) (by decide) nofun
  rw [hu, List.map_append, same, senses_append, senses_cons, semicolon]
  rfl

/-- `a.b = -1` stands at its levels, and what is read from its rendering renders to the same again. -/
theorem parse_rendering_set :
    let name (lexeme : String) : Token := ⟨.identifier, lexeme, none, 1⟩
    let e : Expr := .set (.ref 0 (name "a")) (name "b") (.unary ⟨.minus, "-", none, 1⟩ (.literal (.number 1)))
    let tokens := e.tokens ++ [Token.semicolon]
    e.Leveled ∧ (parse tokens).errors = [] ∧
      ∃ e', (parse tokens).statements = [.expression e'] ∧ e'.Leveled ∧
        (e'.tokens ++ [Token.semicolon]).map Token.sense = senses (beforeEnd tokens) := by
  intro name e tokens
  have leveled : e.Leveled := by
    simp only [e, Expr.Leveled, Expr.rank]
    decide
  obtain ⟨errors, e', statements, -⟩ := parse_rendering.1 e leveled Token.semicolon rfl
  exact ⟨leveled, errors, e', statements, parse_rendering.2 tokens e' errors statements⟩

/-- A number's token that carries `nil` is read as `nil`, and so comes back as another token. -/
theorem number_carrying_nil :
    ¬∀ tokens e, (parse tokens).errors = [] → (parse tokens).statements = [.expression e] →
      (e.tokens ++ [Token.semicolon]).map Token.sense = (beforeEnd tokens).map Token.sense := by
  intro h
  have := h [⟨.number, "1", some .nil, 1⟩, ⟨.semicolon, ";", none, 1⟩] (.literal .nil) rfl rfl
  revert this
  decide

end Lox
