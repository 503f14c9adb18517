/-
Syntax trees as text: every node is a list in parentheses, every token its lexeme and its line.
-/
import Lox.Tree.Basic
import Lox.Text.Quoted

namespace Lox

/-- Items between parentheses. -/
def parenthesized (items : List String) : String := "(" ++ String.intercalate " " items ++ ")"

/-- A token in an outline. -/
def Token.outline (t : Token) : String := t.lexeme ++ "@" ++ toString t.line

/-- A node's word with the number of its use of a variable. -/
def numbered (word : String) (id : UseId) : String := word ++ "#" ++ toString id

/-- A constant in an outline. -/
def Literal.outline : Literal → String
  | .nil => "nil"
  | .bool b => if b then "true" else "false"
  | .number x => Number.display x
  | .string s => Text.quote s

mutual

/-- The outline of an expression. -/
def Expr.outline : Expr → String
  | .literal value => value.outline
  | .unary operator operand => parenthesized [operator.outline, operand.outline]
  | .binary operator left right => parenthesized [operator.outline, left.outline, right.outline]
  | .logical operator left right =>
    parenthesized ["logical", operator.outline, left.outline, right.outline]
  | .group inner => parenthesized ["group", inner.outline]
  | .ref id name => parenthesized [numbered "ref" id, name.outline]
  | .assign id name value => parenthesized [numbered "assign" id, name.outline, value.outline]
  | .call callee paren arguments =>
    parenthesized (("call@" ++ toString paren.line) :: callee.outline :: Expr.outlines arguments)
  | .get object name => parenthesized ["get", object.outline, name.outline]
  | .set object name value => parenthesized ["set", object.outline, name.outline, value.outline]
  | .self id keyword => parenthesized [numbered "this" id, keyword.outline]
  | .super id keyword method => parenthesized [numbered "super" id, keyword.outline, method.outline]

/-- The outlines of expressions. -/
def Expr.outlines : List Expr → List String
  | [] => []
  | e :: es => e.outline :: Expr.outlines es

end

/-- The outline of an expression that may be missing, as a list of at most one item. -/
def optionalOutline : Option Expr → List String
  | none => []
  | some e => [e.outline]

mutual

/-- The outline of a statement. -/
def Stmt.outline : Stmt → String
  | .expression e => parenthesized ["expr", e.outline]
  | .print e => parenthesized ["print", e.outline]
  | .varDecl name initial => parenthesized ("var" :: name.outline :: optionalOutline initial)
  | .block body => parenthesized ("block" :: Stmt.outlines body)
  | .ifElse condition yes none => parenthesized ["if", condition.outline, yes.outline]
  | .ifElse condition yes (some no) =>
    parenthesized ["if", condition.outline, yes.outline, no.outline]
  | .whileDo condition body => parenthesized ["while", condition.outline, body.outline]
  | .funDecl routine => routineOutline routine
  | .ret keyword value => parenthesized ("return" :: keyword.outline :: optionalOutline value)
  | .classDecl name superclass methods =>
    parenthesized ("class" :: name.outline ::
      (superclass.map Expr.outline).getD "-" :: routineOutlines methods)

/-- The outlines of statements. -/
def Stmt.outlines : List Stmt → List String
  | [] => []
  | s :: ss => s.outline :: Stmt.outlines ss

/-- The outline of a function or method. -/
def routineOutline : Routine Stmt → String
  | ⟨name, parameters, body⟩ =>
    parenthesized ("fun" :: name.outline :: parenthesized (parameters.map Token.outline) ::
      Stmt.outlines body)

/-- The outlines of methods. -/
def routineOutlines : List (Routine Stmt) → List String
  | [] => []
  | r :: rs => routineOutline r :: routineOutlines rs

end

end Lox
