/-
The grammar of the language as a table of rules, and the token sequences that it derives. The tokens of a program
stand without an end token here. What a sequence says is judged by the kinds of its tokens; the only bound is that on
the number of parameters and arguments.
-/
import Lox.Token.Basic

namespace Lox

/-! ## Rules -/

/-- The names of the rules of the grammar. -/
inductive Symbol
  | program
  | declaration
  | classDecl
  | funDecl
  | function
  | varDecl
  | statement
  | exprStmt
  | forStmt
  | ifStmt
  | printStmt
  | returnStmt
  | whileStmt
  | block
  | parameters
  | expression
  | assignment
  | logicOr
  | logicAnd
  | equality
  | comparison
  | term
  | factor
  | unary
  | call
  | arguments
  | primary
  deriving DecidableEq, Repr

/-- What can stand on the right side of a rule. -/
inductive Phrase
  /-- One token of this kind. -/
  | word (kind : Kind)
  /-- What a rule of the grammar derives. -/
  | part (symbol : Symbol)
  | nothing
  | seq (first second : Phrase)
  | alt (one other : Phrase)
  | opt (phrase : Phrase)
  | many (phrase : Phrase)
  /-- A phrase at most so many times. -/
  | upTo (count : Nat) (phrase : Phrase)
  deriving Repr

namespace Phrase

/-- Phrases one after another. -/
def all : List Phrase → Phrase
  | [] => nothing
  | [p] => p
  | p :: ps => seq p (all ps)

/-- One of several phrases. -/
def any (p : Phrase) : List Phrase → Phrase
  | [] => p
  | q :: ps => alt p (any q ps)

/-- One of several kinds of token. -/
def anyWord (kind : Kind) (kinds : List Kind) : Phrase := any (word kind) (kinds.map word)

/-- Operands with operators between them. -/
def chain (operand : Symbol) (operators : Phrase) : Phrase := seq (part operand) (many (seq operators (part operand)))

/-- At least one entry, and at most 255, with commas between them. -/
def list (entry : Phrase) : Phrase := seq entry (upTo 254 (seq (word .comma) entry))

end Phrase

open Phrase in
/-- The right sides of the rules. -/
def Symbol.rule : Symbol → Phrase
  | program => many (part declaration)
  | declaration => any (part classDecl) [part funDecl, part varDecl, part statement]
  | classDecl =>
    all [word .classWord, word .identifier, opt (seq (word .less) (word .identifier)), word .leftBrace,
      many (part function), word .rightBrace]
  | funDecl => seq (word .funWord) (part function)
  | function =>
    all [word .identifier, word .leftParen, opt (part parameters), word .rightParen, part block]
  | varDecl =>
    all [word .varWord, word .identifier, opt (seq (word .equal) (part expression)), word .semicolon]
  | statement =>
    any (part exprStmt)
      [part forStmt, part ifStmt, part printStmt, part returnStmt, part whileStmt, part block]
  | exprStmt => seq (part expression) (word .semicolon)
  | forStmt =>
    all [word .forWord, word .leftParen, any (part varDecl) [part exprStmt, word .semicolon],
      opt (part expression), word .semicolon, opt (part expression), word .rightParen, part statement]
  | ifStmt =>
    all [word .ifWord, word .leftParen, part expression, word .rightParen, part statement,
      opt (seq (word .elseWord) (part statement))]
  | printStmt => all [word .printWord, part expression, word .semicolon]
  | returnStmt => all [word .returnWord, opt (part expression), word .semicolon]
  | whileStmt => all [word .whileWord, word .leftParen, part expression, word .rightParen, part statement]
  | block => all [word .leftBrace, many (part declaration), word .rightBrace]
  | parameters => list (word .identifier)
  | expression => part assignment
  | assignment =>
    alt (all [opt (seq (part call) (word .dot)), word .identifier, word .equal, part assignment]) (part logicOr)
  | logicOr => chain logicAnd (word .orWord)
  | logicAnd => chain equality (word .andWord)
  | equality => chain comparison (anyWord .bangEqual [.equalEqual])
  | comparison => chain term (anyWord .greater [.greaterEqual, .less, .lessEqual])
  | term => chain factor (anyWord .minus [.plus])
  | factor => chain unary (anyWord .slash [.star])
  | unary => alt (seq (anyWord .bang [.minus]) (part unary)) (part call)
  | call =>
    seq (part primary)
      (many (alt (all [word .leftParen, opt (part arguments), word .rightParen]) (seq (word .dot) (word .identifier))))
  | arguments => list (part expression)
  | primary =>
    any (word .number)
      [word .string, word .trueWord, word .falseWord, word .nilWord, word .thisWord, word .identifier,
        all [word .leftParen, part expression, word .rightParen],
        all [word .superWord, word .dot, word .identifier]]

/-! ## Derivations -/

/-- The token sequences that a phrase derives. -/
inductive Derives : Phrase → List Token → Prop
  | word (t : Token) : Derives (.word t.kind) [t]
  | part {symbol w} : Derives symbol.rule w → Derives (.part symbol) w
  | nothing : Derives .nothing []
  | seq {p q u v} : Derives p u → Derives q v → Derives (.seq p q) (u ++ v)
  | left {p q w} : Derives p w → Derives (.alt p q) w
  | right {p q w} : Derives q w → Derives (.alt p q) w
  | none {p} : Derives (.opt p) []
  | some {p w} : Derives p w → Derives (.opt p) w
  | manyNil {p} : Derives (.many p) []
  | manyCons {p u v} : Derives p u → Derives (.many p) v → Derives (.many p) (u ++ v)
  | upToNil {n p} : Derives (.upTo n p) []
  | upToCons {n p u v} : Derives p u → Derives (.upTo n p) v → Derives (.upTo (n + 1) p) (u ++ v)

/-- The token sequences of a phrase, if those of the rules are known. -/
def Phrase.Language (rules : Symbol → List Token → Prop) : Phrase → List Token → Prop
  | word kind, w => ∃ t : Token, t.kind = kind ∧ w = [t]
  | part symbol, w => rules symbol w
  | nothing, w => w = []
  | seq p q, w => ∃ u v, w = u ++ v ∧ p.Language rules u ∧ q.Language rules v
  | alt p q, w => p.Language rules w ∨ q.Language rules w
  | opt p, w => w = [] ∨ p.Language rules w
  | many p, w => ∃ us : List (List Token), w = us.flatten ∧ ∀ u ∈ us, p.Language rules u
  | upTo n p, w => ∃ us : List (List Token), us.length ≤ n ∧ w = us.flatten ∧ ∀ u ∈ us, p.Language rules u

/-- What is closed under the rules has all that they derive. -/
theorem Derives.language {rules : Symbol → List Token → Prop}
    (closed : ∀ symbol w, symbol.rule.Language rules w → rules symbol w) {p : Phrase} {w : List Token}
    (h : Derives p w) : p.Language rules w := by
  induction h with
  | word t => exact ⟨t, rfl, rfl⟩
  | part _ ih => exact closed _ _ ih
  | nothing => rfl
  | seq _ _ ihp ihq => exact ⟨_, _, rfl, ihp, ihq⟩
  | left _ ih => exact .inl ih
  | right _ ih => exact .inr ih
  | none => exact .inl rfl
  | some _ ih => exact .inr ih
  | manyNil => exact ⟨[], rfl, List.forall_mem_nil _⟩
  | manyCons _ _ ihp ihq =>
    obtain ⟨us, rfl, hus⟩ := ihq
    exact ⟨_ :: us, rfl, List.forall_mem_cons.2 ⟨ihp, hus⟩⟩
  | upToNil => exact ⟨[], Nat.zero_le _, rfl, List.forall_mem_nil _⟩
  | upToCons _ _ ihp ihq =>
    obtain ⟨us, le, rfl, hus⟩ := ihq
    exact ⟨_ :: us, Nat.succ_le_succ le, rfl, List.forall_mem_cons.2 ⟨ihp, hus⟩⟩

namespace Derives

variable {p q : Phrase} {u v w : List Token}

theorem word_of {t : Token} {kind : Kind} (h : t.kind = kind) : Derives (.word kind) [t] := h ▸ word t

/-- A token of a kind, and then what the rest of a sequence derives. -/
theorem cons {t : Token} {kind : Kind} (h : t.kind = kind) (hq : Derives q v) :
    Derives (.seq (.word kind) q) (t :: v) := seq (word_of h) hq

theorem many_of_forall {us : List (List Token)} (h : ∀ u ∈ us, Derives p u) : Derives (.many p) us.flatten := by
  induction us with
  | nil => exact manyNil
  | cons u us ih =>
    obtain ⟨first, rest⟩ := List.forall_mem_cons.1 h
    exact manyCons first (ih rest)

theorem anyWord {t : Token} {kind : Kind} {kinds : List Kind} (h : t.kind ∈ kind :: kinds) :
    Derives (.anyWord kind kinds) [t] := by
  induction kinds generalizing kind with
  | nil => exact word_of (List.mem_singleton.1 h)
  | cons other kinds ih =>
    rcases List.mem_cons.1 h with h | h
    · exact left (word_of h)
    · exact right (ih h)

end Derives

theorem Phrase.language_anyWord {rules : Symbol → List Token → Prop} {kind : Kind} {kinds : List Kind} {w : List Token}
    (h : (anyWord kind kinds).Language rules w) : ∃ t : Token, t.kind ∈ kind :: kinds ∧ w = [t] := by
  induction kinds generalizing kind with
  | nil =>
    obtain ⟨t, hk, rfl⟩ := h
    exact ⟨t, List.mem_singleton.2 hk, rfl⟩
  | cons other kinds ih =>
    rcases h with ⟨t, hk, rfl⟩ | h
    · exact ⟨t, List.mem_cons.2 (.inl hk), rfl⟩
    · obtain ⟨t, hk, rfl⟩ := ih h
      exact ⟨t, List.mem_cons_of_mem _ hk, rfl⟩

end Lox
