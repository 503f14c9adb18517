/-
How statements and whole programs are written. The tree of a `for` loop is the one that it stands for; otherwise a
statement is written as its tree has it. What is written as a part of some rule is derived by that rule.
-/
import Lox.Grammar.ForLoop
import Lox.Proofs.Grammar.Written
import Lox.Proofs.Tree.Code

namespace Lox

/-! ## Parts of statements -/

/-- How an expression is written that may be missing. -/
inductive Expr.WrittenOption : Option Expr → List Token → Prop
  | none : WrittenOption none []
  | some {e : Expr} {w : List Token} : e.Written 0 w → WrittenOption (some e) w

/-- How the value of a variable is written, if it has one. -/
inductive Expr.WrittenInitial : Option Expr → List Token → Prop
  | none : WrittenInitial none []
  | some {equals : Token} {e : Expr} {w : List Token} :
      equals.kind = .equal → e.Written 0 w → WrittenInitial (some e) (equals :: w)

/-- How a superclass is written, if there is one. -/
inductive Expr.WrittenSuperclass : Option Expr → List Token → Prop
  | none : WrittenSuperclass none []
  | some {id : UseId} {less name : Token} :
      less.kind = .less → name.kind = .identifier → WrittenSuperclass (some (.ref id name)) [less, name]

/-- How a statement is written that has no other statement in it. -/
inductive Stmt.Written : Symbol → Stmt → List Token → Prop
  | varDecl {word name close : Token} {initial : Option Expr} {w : List Token} :
      word.kind = .varWord → name.kind = .identifier → Expr.WrittenInitial initial w → close.kind = .semicolon →
      Written .varDecl (.varDecl name initial) (word :: name :: (w ++ [close]))
  | exprStmt {close : Token} {e : Expr} {w : List Token} :
      e.Written 0 w → close.kind = .semicolon → Written .exprStmt (.expression e) (w ++ [close])
  | printStmt {word close : Token} {e : Expr} {w : List Token} :
      word.kind = .printWord → e.Written 0 w → close.kind = .semicolon →
      Written .printStmt (.print e) (word :: (w ++ [close]))
  | returnStmt {keyword close : Token} {value : Option Expr} {w : List Token} :
      keyword.kind = .returnWord → Expr.WrittenOption value w → close.kind = .semicolon →
      Written .returnStmt (.ret keyword value) (keyword :: (w ++ [close]))

/-- How the first clause of a `for` loop is written, with its semicolon. -/
inductive Stmt.WrittenStart : Option Stmt → List Token → Prop
  | none {close : Token} : close.kind = .semicolon → WrittenStart none [close]
  | some {symbol : Symbol} {s : Stmt} {w : List Token} :
      symbol = .varDecl ∨ symbol = .exprStmt → s.Written symbol w → WrittenStart (some s) w

/-- The body of a `for` loop that starts with `first`, with its uses numbered from `id` on. -/
def ForLoop.body (first : Option Stmt) (id : UseId) (body : Stmt) : Stmt :=
  match first with
  | some (.varDecl name _) => pass id name body
  | _ => body

/-! ## Statements -/

/-- How a part of a program is written as what a rule of the grammar asks for. -/
inductive Code.Written : Symbol → Code → List Token → Prop
  | simple {symbol : Symbol} {s : Stmt} {w : List Token} : s.Written symbol w → Written symbol (.stmt s) w
  | ifThen {word left right : Token} {e : Expr} {s : Stmt} {u v : List Token} :
      word.kind = .ifWord → left.kind = .leftParen → e.Written 0 u → right.kind = .rightParen →
      Written .statement (.stmt s) v →
      Written .ifStmt (.stmt (.ifElse e s none)) (word :: left :: (u ++ right :: v))
  | ifElse {word left right other : Token} {e : Expr} {s s' : Stmt} {u v v' : List Token} :
      word.kind = .ifWord → left.kind = .leftParen → e.Written 0 u → right.kind = .rightParen →
      Written .statement (.stmt s) v → other.kind = .elseWord → Written .statement (.stmt s') v' →
      Written .ifStmt (.stmt (.ifElse e s (some s'))) (word :: left :: (u ++ right :: (v ++ other :: v')))
  | whileStmt {word left right : Token} {e : Expr} {s : Stmt} {u v : List Token} :
      word.kind = .whileWord → left.kind = .leftParen → e.Written 0 u → right.kind = .rightParen →
      Written .statement (.stmt s) v → Written .whileStmt (.stmt (.whileDo e s)) (word :: left :: (u ++ right :: v))
  | forStmt {word left close right : Token} {first : Option Stmt} {condition increment : Option Expr} {id : UseId}
      {s : Stmt} {a b c v : List Token} :
      word.kind = .forWord → left.kind = .leftParen → Stmt.WrittenStart first a → Expr.WrittenOption condition b →
      close.kind = .semicolon → Expr.WrittenOption increment c → right.kind = .rightParen →
      Written .statement (.stmt s) v →
      Written .forStmt
        (.stmt (ForLoop.whole first condition (ForLoop.withIncrement increment (ForLoop.body first id s))))
        (word :: left :: (a ++ (b ++ close :: (c ++ right :: v))))
  | block {left right : Token} {entries : List (Stmt × List Token)} :
      left.kind = .leftBrace → (∀ entry ∈ entries, Written .declaration (.stmt entry.1) entry.2) →
      right.kind = .rightBrace →
      Written .block (.stmts (entries.map (·.1))) (left :: ((entries.map (·.2)).flatten ++ [right]))
  | blockStmt {ss : List Stmt} {w : List Token} : Written .block (.stmts ss) w → Written .statement (.stmt (.block ss)) w
  | statement {symbol : Symbol} {s : Stmt} {w : List Token} :
      symbol ∈ [.exprStmt, .forStmt, .ifStmt, .printStmt, .returnStmt, .whileStmt] → Written symbol (.stmt s) w →
      Written .statement (.stmt s) w
  | function {name left right : Token} {parameters : List Token} {body : List Stmt} {u v : List Token} :
      name.kind = .identifier → left.kind = .leftParen → (∀ p ∈ parameters, p.kind = .identifier) →
      parameters.length ≤ arityLimit → Separated (parameters.map ([·])) u → right.kind = .rightParen →
      Written .block (.stmts body) v → Written .function (.routine ⟨name, parameters, body⟩) (name :: left :: (u ++ right :: v))
  | funDecl {word : Token} {r : Routine Stmt} {w : List Token} :
      word.kind = .funWord → Written .function (.routine r) w → Written .funDecl (.stmt (.funDecl r)) (word :: w)
  | classDecl {word name left right : Token} {superclass : Option Expr} {entries : List (Routine Stmt × List Token)}
      {u : List Token} :
      word.kind = .classWord → name.kind = .identifier → Expr.WrittenSuperclass superclass u →
      left.kind = .leftBrace → (∀ entry ∈ entries, Written .function (.routine entry.1) entry.2) →
      right.kind = .rightBrace →
      Written .classDecl (.stmt (.classDecl name superclass (entries.map (·.1))))
        (word :: name :: (u ++ left :: ((entries.map (·.2)).flatten ++ [right])))
  | declaration {symbol : Symbol} {s : Stmt} {w : List Token} :
      symbol ∈ [.classDecl, .funDecl, .varDecl, .statement] → Written symbol (.stmt s) w →
      Written .declaration (.stmt s) w
  | program {entries : List (Stmt × List Token)} :
      (∀ entry ∈ entries, Written .declaration (.stmt entry.1) entry.2) →
      Written .program (.stmts (entries.map (·.1))) (entries.map (·.2)).flatten

/-- Every declaration takes at least one token. -/
theorem Code.Written.length_pos {s : Stmt} {w : List Token} {symbol : Symbol} (h : (Code.stmt s).Written symbol w) :
    0 < w.length := by
  generalize hc : Code.stmt s = code at h
  induction h generalizing s with
  | simple h => cases h <;> simp
  | blockStmt h => cases h; simp
  | statement _ _ ih | declaration _ _ ih => exact ih hc
  | block | function | program => cases hc
  | _ => simp

/-! ## Derivations -/

theorem Expr.WrittenOption.derives {e : Option Expr} {w : List Token} (h : Expr.WrittenOption e w) :
    Derives (.opt (.part .expression)) w := by
  cases h with
  | none => exact .none
  | some he => exact .some (.part he.derives)

theorem Expr.WrittenInitial.derives {e : Option Expr} {w : List Token} (h : Expr.WrittenInitial e w) :
    Derives (.opt (.seq (.word .equal) (.part .expression))) w := by
  cases h with
  | none => exact .none
  | some heq he => exact .some (.cons heq (.part he.derives))

theorem Expr.WrittenSuperclass.derives {e : Option Expr} {w : List Token} (h : Expr.WrittenSuperclass e w) :
    Derives (.opt (.seq (.word .less) (.word .identifier))) w := by
  cases h with
  | none => exact .none
  | some hl hn => exact .some (.cons hl (.word_of hn))

theorem Stmt.Written.derives {symbol : Symbol} {s : Stmt} {w : List Token} (h : s.Written symbol w) :
    Derives (.part symbol) w := by
  refine .part ?_
  cases h with
  | varDecl hw hn hi hc => exact .cons hw (.cons hn (.seq hi.derives (.word_of hc)))
  | exprStmt he hc => exact .seq (.part he.derives) (.word_of hc)
  | printStmt hw he hc => exact .cons hw (.seq (.part he.derives) (.word_of hc))
  | returnStmt hk hv hc => exact .cons hk (.seq hv.derives (.word_of hc))

theorem Stmt.WrittenStart.derives {first : Option Stmt} {w : List Token} (h : Stmt.WrittenStart first w) :
    Derives (.any (.part .varDecl) [.part .exprStmt, .word .semicolon]) w := by
  cases h with
  | none hc => exact .right (.right (.word_of hc))
  | some hs h =>
    rcases hs with rfl | rfl
    · exact .left h.derives
    · exact .right (.left h.derives)

/-- Parts one after another are derived by repeating a rule. -/
theorem derives_flatten {α : Type} {symbol : Symbol} {entries : List (α × List Token)}
    (h : ∀ entry ∈ entries, Derives (.part symbol) entry.2) : Derives (.many (.part symbol)) (entries.map (·.2)).flatten := by
  refine .many_of_forall fun w hw => ?_
  obtain ⟨entry, mem, rfl⟩ := List.mem_map.1 hw
  exact h entry mem

/-- The tokens of a part of a program are derived by the rule that asks for it. -/
theorem Code.Written.derives {symbol : Symbol} {code : Code} {w : List Token} (h : code.Written symbol w) :
    Derives (.part symbol) w := by
  induction h with
  | simple h => exact h.derives
  | ifThen hw hl he hr _ ih =>
    refine .part (.cons hw (.cons hl (.seq (.part he.derives) (.cons hr ?_))))
    have := Derives.seq ih (.none (p := .seq (.word .elseWord) (.part .statement)))
    rwa [List.append_nil] at this
  | ifElse hw hl he hr _ ho _ ih ih' =>
    exact .part (.cons hw (.cons hl (.seq (.part he.derives) (.cons hr (.seq ih (.some (.cons ho ih')))))))
  | whileStmt hw hl he hr _ ih => exact .part (.cons hw (.cons hl (.seq (.part he.derives) (.cons hr ih))))
  | forStmt hw hl hf hc hclose hi hr _ ih =>
    exact .part (.cons hw (.cons hl (.seq hf.derives (.seq hc.derives (.cons hclose (.seq hi.derives (.cons hr ih)))))))
  | block hl _ hr ih => exact .part (.cons hl (.seq (derives_flatten ih) (.word_of hr)))
  | blockStmt _ ih => exact .part (.right (.right (.right (.right (.right (.right ih))))))
  | @statement symbol _ _ hs _ ih =>
    refine .part ?_
    simp only [List.mem_cons, List.not_mem_nil, or_false] at hs
    rcases hs with rfl | rfl | rfl | rfl | rfl | rfl
    · exact .left ih
    · exact .right (.left ih)
    · exact .right (.right (.left ih))
    · exact .right (.right (.right (.left ih)))
    · exact .right (.right (.right (.right (.left ih))))
    · exact .right (.right (.right (.right (.right (.left ih)))))
  | @function name left right parameters body u v hn hl hps limit sep hr _ ih =>
    refine .part (.cons hn (.cons hl (.seq ?_ (.cons hr ih))))
    cases parameters with
    | nil =>
      cases sep
      exact .none
    | cons p ps =>
      refine .some (.part (.list sep (by simp) (by simpa using limit) fun w hw => ?_))
      obtain ⟨q, mem, rfl⟩ := List.mem_map.1 hw
      exact .word_of (hps q mem)
  | funDecl hw _ ih => exact .part (.cons hw ih)
  | classDecl hw hn hs hl _ hr ih =>
    exact .part (.cons hw (.cons hn (.seq hs.derives (.cons hl (.seq (derives_flatten ih) (.word_of hr))))))
  | declaration hs _ ih =>
    refine .part ?_
    simp only [List.mem_cons, List.not_mem_nil, or_false] at hs
    rcases hs with rfl | rfl | rfl | rfl
    · exact .left ih
    · exact .right (.left ih)
    · exact .right (.right (.left ih))
    · exact .right (.right (.right ih))
  | program _ ih => exact .part (derives_flatten ih)

end Lox
