/-
How expressions are written. The relation between a tree and the tokens that it stands for follows the levels of the
grammar: 0 for a whole expression, 1 to 6 for the operators between operands from the loosest to the tightest, 7 for
signs, 8 for calls and properties, 9 for primary expressions. What is written at some level is derived by the rule of
that level, and what that rule derives is written so.
-/
import Lox.Grammar.Cursor
import Lox.Grammar.Expression
import Lox.Proofs.Grammar.Derivation

namespace Lox

/-! ## Tokens -/

/-- The level of an operator that stands between its operands. -/
def Kind.rank? : Kind → Option Nat
  | .orWord => some 1
  | .andWord => some 2
  | .bangEqual | .equalEqual => some 3
  | .greater | .greaterEqual | .less | .lessEqual => some 4
  | .minus | .plus => some 5
  | .slash | .star => some 6
  | _ => none

/-- The constant that a token stands for. -/
def Token.constant? (t : Token) : Option Literal :=
  match t.kind with
  | .nilWord => some .nil
  | .trueWord => some (.bool true)
  | .falseWord => some (.bool false)
  | .number | .string => t.literal
  | _ => none

/-- Sequences one after another, with commas between them. -/
inductive Separated : List (List Token) → List Token → Prop
  | nil : Separated [] []
  | one (w : List Token) : Separated [w] w
  | cons {comma : Token} {w : List Token} {ws : List (List Token)} {v : List Token} :
      comma.kind = .comma → ws ≠ [] → Separated ws v → Separated (w :: ws) (w ++ comma :: v)

theorem Separated.length_le_succ {ws : List (List Token)} {v : List Token} (h : Separated ws v) :
    ws.length ≤ v.length + 1 := by
  induction h with
  | nil | one => simp
  | cons _ _ _ ih =>
    simp only [List.length_cons, List.length_append]
    omega

theorem Separated.length_le {ws : List (List Token)} {w u : List Token} (h : Separated ws w) (hu : u ∈ ws) :
    u.length ≤ w.length := by
  induction h with
  | nil => cases hu
  | one => exact Nat.le_of_eq (congrArg List.length (List.mem_singleton.1 hu))
  | cons _ _ _ ih =>
    rw [List.length_append, List.length_cons]
    rcases List.mem_cons.1 hu with rfl | hu
    · omega
    · have := ih hu
      omega

/-! ## Expressions -/

/-- How an expression is written where the grammar asks for one of a level. -/
inductive Expr.Written : Nat → Expr → List Token → Prop
  | literal {k : Nat} {t : Token} {value : Literal} : k ≤ 9 → t.constant? = some value → Written k (.literal value) [t]
  | ref {k : Nat} {id : UseId} {name : Token} : k ≤ 9 → name.kind = .identifier → Written k (.ref id name) [name]
  | self {k : Nat} {id : UseId} {keyword : Token} :
      k ≤ 9 → keyword.kind = .thisWord → Written k (.self id keyword) [keyword]
  | super {k : Nat} {id : UseId} {keyword dot method : Token} :
      k ≤ 9 → keyword.kind = .superWord → dot.kind = .dot → method.kind = .identifier →
      Written k (.super id keyword method) [keyword, dot, method]
  | group {k : Nat} {left right : Token} {e : Expr} {w : List Token} :
      k ≤ 9 → left.kind = .leftParen → right.kind = .rightParen → Written 0 e w →
      Written k (.group e) (left :: (w ++ [right]))
  | call {k : Nat} {callee : Expr} {left paren : Token} {entries : List (Expr × List Token)} {u v : List Token} :
      k ≤ 8 → left.kind = .leftParen → paren.kind = .rightParen → Written 8 callee u →
      (∀ entry ∈ entries, Written 0 entry.1 entry.2) → entries.length ≤ arityLimit →
      Separated (entries.map (·.2)) v →
      Written k (.call callee paren (entries.map (·.1))) (u ++ left :: (v ++ [paren]))
  | get {k : Nat} {object : Expr} {dot name : Token} {u : List Token} :
      k ≤ 8 → dot.kind = .dot → name.kind = .identifier → Written 8 object u →
      Written k (.get object name) (u ++ [dot, name])
  | unary {k : Nat} {operator : Token} {e : Expr} {w : List Token} :
      k ≤ 7 → operator.kind ∈ signs → Written 7 e w → Written k (.unary operator e) (operator :: w)
  | logical {k rank : Nat} {operator : Token} {a b : Expr} {u v : List Token} :
      k ≤ rank → operator.kind.rank? = some rank → rank ≤ 2 → Written rank a u → Written (rank + 1) b v →
      Written k (.logical operator a b) (u ++ operator :: v)
  | binary {k rank : Nat} {operator : Token} {a b : Expr} {u v : List Token} :
      k ≤ rank → operator.kind.rank? = some rank → 2 < rank → Written rank a u → Written (rank + 1) b v →
      Written k (.binary operator a b) (u ++ operator :: v)
  | assign {id : UseId} {name equals : Token} {e : Expr} {v : List Token} :
      name.kind = .identifier → equals.kind = .equal → Written 0 e v →
      Written 0 (.assign id name e) (name :: equals :: v)
  | set {object e : Expr} {dot name equals : Token} {u v : List Token} :
      dot.kind = .dot → name.kind = .identifier → equals.kind = .equal → Written 8 object u → Written 0 e v →
      Written 0 (.set object name e) (u ++ dot :: name :: equals :: v)

namespace Expr.Written

variable {e : Expr} {w : List Token}

/-- What is written at a level can stand where a looser one is asked for. -/
theorem lower {j k : Nat} (h : Written k e w) (le : j ≤ k) : Written j e w := by
  cases h with
  | literal hk ht => exact .literal (Nat.le_trans le hk) ht
  | ref hk ht => exact .ref (Nat.le_trans le hk) ht
  | self hk ht => exact .self (Nat.le_trans le hk) ht
  | super hk ht hd hm => exact .super (Nat.le_trans le hk) ht hd hm
  | group hk hl hr he => exact .group (Nat.le_trans le hk) hl hr he
  | call hk hl hr hc hes limit sep => exact .call (Nat.le_trans le hk) hl hr hc hes limit sep
  | get hk hd hn ho => exact .get (Nat.le_trans le hk) hd hn ho
  | unary hk hop he => exact .unary (Nat.le_trans le hk) hop he
  | logical hk hop hr ha hb => exact .logical (Nat.le_trans le hk) hop hr ha hb
  | binary hk hop hr ha hb => exact .binary (Nat.le_trans le hk) hop hr ha hb
  | assign hn heq he =>
    obtain rfl := Nat.le_zero.1 le
    exact .assign hn heq he
  | set hd hn heq ho he =>
    obtain rfl := Nat.le_zero.1 le
    exact .set hd hn heq ho he

/-- Every expression takes at least one token. -/
theorem length_pos {k : Nat} (h : Written k e w) : 0 < w.length := by
  cases h <;> simp only [List.length_append, List.length_cons] <;> omega

end Expr.Written

/-- An operator of a level with operands around it, as the level builds it. -/
theorem written_build {i : Nat} {level : Level} (hl : levels[i]? = some level) {operator : Token}
    (hop : operator.kind ∈ level.operators) {a b : Expr} {u v : List Token} (ha : a.Written (i + 1) u)
    (hb : b.Written (i + 2) v) : (level.build operator a b).Written (i + 1) (u ++ operator :: v) := by
  have rank : ∀ (i : Nat) (level : Level), levels[i]? = some level → ∀ kind ∈ level.operators,
      kind.rank? = some (i + 1) ∧ level.build = if i + 1 ≤ 2 then .logical else .binary := by
    intro i level hl
    match i with
    | 0 | 1 | 2 | 3 | 4 | 5 =>
      cases hl
      exact fun kind mem => ⟨by revert kind; decide, rfl⟩
    | _ + 6 => cases hl
  obtain ⟨hr, hbuild⟩ := rank i level hl _ hop
  rw [hbuild]
  split
  · next le => exact .logical (Nat.le_refl _) hr le ha hb
  · next le => exact .binary (Nat.le_refl _) hr (Nat.lt_of_not_le le) ha hb

/-! ## Derivations -/

/-- The rule of the grammar for expressions of a level. -/
def Symbol.ofLevel : Nat → Symbol
  | 0 => assignment
  | 1 => logicOr
  | 2 => logicAnd
  | 3 => equality
  | 4 => comparison
  | 5 => term
  | 6 => factor
  | 7 => unary
  | 8 => call
  | _ => primary

/-- The operators that the rule of a level has between its operands. -/
def Phrase.operators : Nat → Phrase
  | 1 => word .orWord
  | 2 => word .andWord
  | 3 => anyWord .bangEqual [.equalEqual]
  | 4 => anyWord .greater [.greaterEqual, .less, .lessEqual]
  | 5 => anyWord .minus [.plus]
  | _ => anyWord .slash [.star]

/-- The levels of operators between operands have rules of one form. -/
theorem Symbol.rule_ofLevel {k : Nat} (lo : 0 < k) (hi : k < 7) :
    (ofLevel k).rule = .chain (ofLevel (k + 1)) (.operators k) := by
  match k, lo, hi with
  | 1, _, _ | 2, _, _ | 3, _, _ | 4, _, _ | 5, _, _ | 6, _, _ => rfl

theorem derives_operators {t : Token} {rank : Nat} (h : t.kind.rank? = some rank) :
    0 < rank ∧ rank < 7 ∧ Derives (.operators rank) [t] := by
  cases hk : t.kind <;> rw [hk] at h <;> cases h <;> refine ⟨by decide, by decide, ?_⟩
  all_goals first | exact .word_of hk | exact .anyWord (by rw [hk]; decide)

theorem rank_of_operators {rules : Symbol → List Token → Prop} {k : Nat} (lo : 0 < k) (hi : k < 7) {w : List Token}
    (h : (Phrase.operators k).Language rules w) : ∃ t : Token, t.kind.rank? = some k ∧ w = [t] := by
  have any : ∀ (kind : Kind) (kinds : List Kind), Phrase.operators k = Phrase.anyWord kind kinds →
      (∀ kind' ∈ kind :: kinds, kind'.rank? = some k) → ∃ t : Token, t.kind.rank? = some k ∧ w = [t] := by
    intro kind kinds same ranks
    obtain ⟨t, hk, rfl⟩ := Phrase.language_anyWord (same ▸ h)
    exact ⟨t, ranks _ hk, rfl⟩
  obtain rfl | rfl | rfl | rfl | rfl | rfl : k = 1 ∨ k = 2 ∨ k = 3 ∨ k = 4 ∨ k = 5 ∨ k = 6 := by omega
  · exact any .orWord [] rfl (by decide)
  · exact any .andWord [] rfl (by decide)
  · exact any .bangEqual [.equalEqual] rfl (by decide)
  · exact any .greater [.greaterEqual, .less, .lessEqual] rfl (by decide)
  · exact any .minus [.plus] rfl (by decide)
  · exact any .slash [.star] rfl (by decide)

namespace Derives

variable {p : Phrase} {u v w : List Token}

theorem many_append (hu : Derives (.many p) u) (hv : Derives (.many p) v) : Derives (.many p) (u ++ v) := by
  generalize hq : Phrase.many p = q at hu
  induction hu with
  | manyNil =>
    cases hq
    exact hv
  | manyCons hp _ _ ih =>
    cases hq
    rw [List.append_assoc]
    exact manyCons hp (ih rfl)
  | _ => cases hq

theorem many_one (h : Derives p w) : Derives (.many p) w := by simpa using manyCons h manyNil

theorem seq_manyNil {q : Phrase} (h : Derives p w) : Derives (.seq p (.many q)) w := by
  have := seq h (manyNil (p := q))
  rwa [List.append_nil] at this

/-- A sequence that ends in repetitions can go on with more of them. -/
theorem seq_many_append {q : Phrase} (h : Derives (.seq p (.many q)) u) (hv : Derives (.many q) v) :
    Derives (.seq p (.many q)) (u ++ v) := by
  cases h with
  | seq hp hq =>
    rw [List.append_assoc]
    exact seq hp (hq.many_append hv)

/-- At most 255 sequences of a phrase, but not none, with commas between them. -/
theorem list {ws : List (List Token)} (sep : Separated ws w) (some : ws ≠ []) (limit : ws.length ≤ arityLimit)
    (h : ∀ u ∈ ws, Derives p u) : Derives (.list p) w := by
  have more : ∀ {n : Nat} {comma : Token} {ws : List (List Token)} {v : List Token}, comma.kind = .comma →
      Separated ws v → ws ≠ [] → ws.length ≤ n → (∀ u ∈ ws, Derives p u) →
      Derives (.upTo n (.seq (.word .comma) p)) (comma :: v) := by
    intro n comma ws v hc sep some limit h
    induction sep generalizing n comma with
    | nil => exact absurd rfl some
    | one w =>
      obtain ⟨n, rfl⟩ : ∃ k, n = k + 1 := ⟨n - 1, by rw [List.length_singleton] at limit; omega⟩
      simpa using upToCons (cons hc (h w (by simp))) upToNil
    | @cons comma' w ws v hc' some' _ ih =>
      obtain ⟨n, rfl⟩ : ∃ k, n = k + 1 := ⟨n - 1, by rw [List.length_cons] at limit; omega⟩
      obtain ⟨first, rest⟩ := List.forall_mem_cons.1 h
      exact upToCons (cons hc first) (ih hc' some' (Nat.le_of_succ_le_succ limit) rest)
  cases sep with
  | nil => exact absurd rfl some
  | one =>
    have := seq (h w (by simp)) (upToNil (n := 254) (p := .seq (.word .comma) p))
    rwa [List.append_nil] at this
  | cons hc some' sep =>
    obtain ⟨first, rest⟩ := List.forall_mem_cons.1 h
    exact seq first (more hc sep some' (Nat.le_of_succ_le_succ limit) rest)

/-- What a level derives can stand where a looser one is asked for. -/
theorem lower {j k : Nat} (h : Derives (.part (.ofLevel k)) w) (le : j ≤ k) (hk : k ≤ 9) :
    Derives (.part (.ofLevel j)) w := by
  induction le with
  | refl => exact h
  | @step k le ih =>
    refine ih (.part ?_) (by omega)
    have chained : 0 < k → k < 7 → Derives (Symbol.ofLevel k).rule w := fun lo hi => by
      rw [Symbol.rule_ofLevel lo hi]
      exact seq_manyNil h
    match k, hk with
    | 0, _ => exact right h
    | 1, _ | 2, _ | 3, _ | 4, _ | 5, _ | 6, _ => exact chained (by decide) (by decide)
    | 7, _ => exact right h
    | 8, _ => exact seq_manyNil h

end Derives

/-- A token that stands for a constant is a primary expression. -/
theorem derives_constant {t : Token} {value : Literal} (h : t.constant? = some value) :
    Derives (.part .primary) [t] := by
  unfold Token.constant? at h
  refine .part ?_
  split at h
  · next hk => exact .right (.right (.right (.right (.left (.word_of hk)))))
  · next hk => exact .right (.right (.left (.word_of hk)))
  · next hk => exact .right (.right (.right (.left (.word_of hk))))
  · next hk => exact .left (.word_of hk)
  · next hk => exact .right (.left (.word_of hk))
  · cases h

/-- An expression's tokens are derived by the rule of its level. -/
theorem Expr.Written.derives {k : Nat} {e : Expr} {w : List Token} (h : e.Written k w) :
    Derives (.part (.ofLevel k)) w := by
  have primary : ∀ {k : Nat} {w : List Token}, k ≤ 9 → Derives Symbol.primary.rule w →
      Derives (.part (.ofLevel k)) w := fun hk h => Derives.lower (k := 9) (.part h) hk (by decide)
  have operation : ∀ {k rank : Nat} {operator : Token} {u v : List Token}, k ≤ rank →
      operator.kind.rank? = some rank → Derives (.part (.ofLevel rank)) u → Derives (.part (.ofLevel (rank + 1))) v →
      Derives (.part (.ofLevel k)) (u ++ operator :: v) := by
    intro k rank operator u v hk hop ha hb
    obtain ⟨lo, hi, op⟩ := derives_operators hop
    refine Derives.lower (.part ?_) hk (by omega)
    cases ha with
    | part ha =>
      rw [Symbol.rule_ofLevel lo hi] at ha ⊢
      exact ha.seq_many_append (.many_one (.seq op hb))
  have suffix : ∀ {k : Nat} {u v : List Token}, k ≤ 8 → Derives (.part .call) u →
      Derives (.alt (.all [.word .leftParen, .opt (.part .arguments), .word .rightParen])
        (.seq (.word .dot) (.word .identifier))) v → Derives (.part (.ofLevel k)) (u ++ v) := by
    intro k u v hk hu hv
    refine Derives.lower (k := 8) (.part ?_) hk (by decide)
    cases hu with
    | part hu => exact hu.seq_many_append (.many_one hv)
  induction h with
  | literal hk ht => exact Derives.lower (k := 9) (derives_constant ht) hk (by decide)
  | ref hk ht =>
    exact primary hk (.right (.right (.right (.right (.right (.right (.left (.word_of ht))))))))
  | self hk ht => exact primary hk (.right (.right (.right (.right (.right (.left (.word_of ht)))))))
  | super hk ht hd hm =>
    refine primary hk (.right (.right (.right (.right (.right (.right (.right (.right ?_))))))))
    exact .cons ht (.cons hd (.word_of hm))
  | group hk hl hr _ ih =>
    refine primary hk (.right (.right (.right (.right (.right (.right (.right (.left ?_))))))))
    exact .cons hl (.seq (.part ih) (.word_of hr))
  | @call k callee left paren entries u v hk hl hr _ _ limit sep ihc ihs =>
    refine suffix hk ihc (.left (.cons hl (.seq ?_ (.word_of hr))))
    cases entries with
    | nil =>
      cases sep
      exact .none
    | cons entry entries =>
      refine .some (.part (.list sep (by simp) (by simpa using limit) ?_))
      intro w hw
      obtain ⟨entry', mem, rfl⟩ := List.mem_map.1 hw
      exact .part (ihs entry' mem)
  | get hk hd hn _ ih => exact suffix hk ih (.right (.cons hd (.word_of hn)))
  | unary hk hop _ ih =>
    refine Derives.lower (k := 7) (.part ?_) hk (by decide)
    exact .left (.seq (show Derives (.anyWord .bang [.minus]) [_] from .anyWord hop) ih)
  | logical hk hop _ _ _ iha ihb => exact operation hk hop iha ihb
  | binary hk hop _ _ _ iha ihb => exact operation hk hop iha ihb
  | assign hn heq _ ih => exact .part (.left (.seq .none (.cons hn (.cons heq ih))))
  | set hd hn heq _ _ iho ihe =>
    refine .part (.left ?_)
    have := Derives.seq (.some (.seq iho (.word_of hd))) (.cons hn (.cons heq ihe))
    rwa [List.append_assoc] at this

end Lox
