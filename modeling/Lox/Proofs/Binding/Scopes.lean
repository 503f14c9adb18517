/-
What a walk does to the open scopes: walking through a part of a program opens and closes scopes in pairs, and
afterwards the innermost scope has, completed, the names that the part declares in it, and nothing else has
changed. The rest of the walk's state is in `Leads`: only uses of the part are entered in the table, and
errors are only added.
-/
import Lox.Binding.Walk
import Lox.Proofs.Bindings
import Lox.Proofs.Tree.Code

namespace Lox

/-! ## Completed names -/

/-- A scope with completed declarations of some more names. -/
def Declarations.complete (names : List String) (scope : Declarations) : Declarations :=
  names.foldl (fun scope name => scope.set name true) scope

/-- Completes declarations of names in the innermost of the open scopes, if there is one. -/
def settle (names : List String) : List Declarations → List Declarations
  | [] => []
  | scope :: outer => scope.complete names :: outer

@[simp] theorem settle_nil (scopes : List Declarations) : settle [] scopes = scopes := by
  cases scopes <;> rfl

theorem settle_append (a b : List String) (scopes : List Declarations) :
    settle (a ++ b) scopes = settle b (settle a scopes) := by
  cases scopes <;> simp [settle, Declarations.complete]

@[simp] theorem tail_settle (names : List String) (scopes : List Declarations) :
    (settle names scopes).tail = scopes.tail := by
  cases scopes <;> rfl

theorem Declarations.get?_complete (names : List String) (scope : Declarations) (name : String) :
    (scope.complete names).get? name = if name ∈ names then some true else scope.get? name := by
  induction names generalizing scope with
  | nil => simp [complete]
  | cons n names ih =>
    have step : scope.complete (n :: names) = Declarations.complete names (scope.set n true) := rfl
    rw [step, ih, Bindings.get?_set]
    by_cases h : name ∈ names <;> by_cases h' : name = n <;> simp [h, h']

theorem Declarations.contains_complete (names : List String) (scope : Declarations) (name : String) :
    (scope.complete names).contains name = true ↔ name ∈ names ∨ scope.contains name = true := by
  unfold Bindings.contains
  rw [get?_complete]
  by_cases h : name ∈ names <;> simp [h]

/-! ## Scopes after small moves -/

namespace Walk

@[simp] theorem scopes_record (w : Walk) (fault : BindingFault) (site : Token) :
    (w.record fault site).scopes = w.scopes := rfl

@[simp] theorem scopes_recordIf (w : Walk) (condition : Bool) (fault : BindingFault) (site : Token) :
    (recordIf condition fault site w).scopes = w.scopes := by
  unfold recordIf; split <;> rfl

@[simp] theorem scopes_bind (w : Walk) (id : UseId) (name : String) : (w.bind id name).scopes = w.scopes := by
  unfold bind; split <;> rfl

@[simp] theorem scopes_openScope (w : Walk) : w.openScope.scopes = .empty :: w.scopes := rfl

@[simp] theorem scopes_closeScope (w : Walk) : w.closeScope.scopes = w.scopes.tail := rfl

@[simp] theorem scopes_define (w : Walk) (name : Token) :
    (w.define name).scopes = settle [name.lexeme] w.scopes := by
  unfold define mark; cases h : w.scopes <;> simp [h, settle, Declarations.complete]

@[simp] theorem scopes_introduce (w : Walk) (name : Token) :
    (w.introduce name).scopes = settle [name.lexeme] w.scopes := by
  unfold introduce declare
  split
  · simp
  · cases h : w.scopes <;> simp [mark, h, settle, Declarations.complete]

/-- Completing a declaration after it was started is completing it. -/
theorem settle_scopes_declare (w : Walk) (name : Token) :
    settle [name.lexeme] (w.declare name).scopes = settle [name.lexeme] w.scopes := by
  unfold declare
  split
  · rfl
  · cases h : w.scopes <;> simp [mark, h, settle, Declarations.complete]

@[simp] theorem scopes_openWordScope (w : Walk) (word : String) :
    (w.openWordScope word).scopes = Bindings.empty.set word true :: w.scopes := rfl

@[simp] theorem scopes_self (w : Walk) (home : Home) (id : UseId) (keyword : Token) :
    (w.self home id keyword).scopes = w.scopes := by
  unfold self; split <;> simp

@[simp] theorem scopes_super (w : Walk) (home : Home) (id : UseId) (keyword : Token) :
    (w.super home id keyword).scopes = w.scopes := by
  unfold super; split <;> simp

@[simp] theorem scopes_checkSuperclass (w : Walk) (name : Token) (superclass : Expr) :
    (w.checkSuperclass name superclass).scopes = w.scopes := by
  unfold checkSuperclass; split <;> simp

@[simp] theorem scopes_checkReturn (w : Walk) (body : Body) (keyword : Token) (hasValue : Bool) :
    (w.checkReturn body keyword hasValue).scopes = w.scopes := by
  simp [checkReturn]

@[simp] theorem scopes_introduceAll (w : Walk) (names : List Token) :
    (names.foldl introduce w).scopes = settle (names.map (·.lexeme)) w.scopes := by
  induction names generalizing w with
  | nil => simp
  | cons n names ih =>
    rw [List.foldl_cons, ih, scopes_introduce, ← settle_append]
    rfl

end Walk

/-! ## Scopes after a walk -/

mutual

@[simp] theorem Expr.scopes_walk (home : Home) :
    ∀ (e : Expr) (w : Walk), (e.walk home w).scopes = w.scopes
  | .literal _, w => by simp [Expr.walk]
  | .unary _ operand, w => by simp [Expr.walk, operand.scopes_walk home]
  | .binary _ left right, w => by simp [Expr.walk, left.scopes_walk home, right.scopes_walk home]
  | .logical _ left right, w => by simp [Expr.walk, left.scopes_walk home, right.scopes_walk home]
  | .group inner, w => by simp [Expr.walk, inner.scopes_walk home]
  | .ref _ _, w => by simp [Expr.walk]
  | .assign _ _ value, w => by simp [Expr.walk, value.scopes_walk home]
  | .call callee _ arguments, w => by
    simp [Expr.walk, callee.scopes_walk home, Expr.scopes_walkAll home arguments]
  | .get object _, w => by simp [Expr.walk, object.scopes_walk home]
  | .set object _ value, w => by simp [Expr.walk, object.scopes_walk home, value.scopes_walk home]
  | .self _ _, w => by simp [Expr.walk]
  | .super _ _ _, w => by simp [Expr.walk]

@[simp] theorem Expr.scopes_walkAll (home : Home) :
    ∀ (es : List Expr) (w : Walk), (Expr.walkAll home es w).scopes = w.scopes
  | [], w => by simp [Expr.walkAll]
  | e :: es, w => by simp [Expr.walkAll, e.scopes_walk home, Expr.scopes_walkAll home es]

end

@[simp] theorem Expr.scopes_walkOption (home : Home) (e : Option Expr) (w : Walk) :
    (Expr.walkOption home e w).scopes = w.scopes := by
  cases e <;> simp [Expr.walkOption]

mutual

/-- After a statement the names it declares are completed in the innermost scope, and the scopes are otherwise
as before. -/
theorem Stmt.scopes_walk (a : Surroundings) :
    ∀ (s : Stmt) (w : Walk), (s.walk a w).scopes = settle s.declared w.scopes
  | .expression e, w => by simp [Stmt.walk, Stmt.declared]
  | .print e, w => by simp [Stmt.walk, Stmt.declared]
  | .varDecl name initial, w => by simp [Stmt.walk, Stmt.declared, Walk.settle_scopes_declare]
  | .block body, w => by simp [Stmt.walk, Stmt.declared, Stmt.scopes_walkAll a body]
  | .ifElse condition yes none, w => by simp [Stmt.walk, Stmt.declared, yes.scopes_walk a]
  | .ifElse condition yes (some no), w => by
    simp [Stmt.walk, Stmt.declared, yes.scopes_walk a, no.scopes_walk a, settle_append]
  | .whileDo condition body, w => by simp [Stmt.walk, Stmt.declared, body.scopes_walk a]
  | .funDecl routine, w => by simp [Stmt.walk, Stmt.declared, scopes_walkRoutine _ routine]
  | .ret keyword value, w => by simp [Stmt.walk, Stmt.declared]
  | .classDecl name none methods, w => by
    simp [Stmt.walk, Stmt.declared, scopes_walkMethods _ methods]
  | .classDecl name (some superclass) methods, w => by
    simp [Stmt.walk, Stmt.declared, scopes_walkMethods _ methods]

/-- After statements the names they declare are completed in the innermost scope. -/
theorem Stmt.scopes_walkAll (a : Surroundings) :
    ∀ (ss : List Stmt) (w : Walk),
      (Stmt.walkAll a ss w).scopes = settle (Stmt.declaredAll ss) w.scopes
  | [], w => by simp [Stmt.walkAll, Stmt.declaredAll]
  | s :: ss, w => by
    rw [Stmt.walkAll, Stmt.scopes_walkAll a ss, s.scopes_walk a, ← settle_append]
    rfl

theorem scopes_walkRoutine (a : Surroundings) :
    ∀ (r : Routine Stmt) (w : Walk), (walkRoutine a r w).scopes = w.scopes
  | ⟨_, parameters, body⟩, w => by simp [walkRoutine, Stmt.scopes_walkAll a body]

theorem scopes_walkMethods (home : Home) :
    ∀ (rs : List (Routine Stmt)) (w : Walk), (walkMethods home rs w).scopes = w.scopes
  | [], w => by simp [walkMethods]
  | r :: rs, w => by simp [walkMethods, scopes_walkMethods home rs, scopes_walkRoutine _ r]

end

end Lox
