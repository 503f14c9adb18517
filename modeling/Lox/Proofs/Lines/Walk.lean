/-
The walk does not look at lines: in a tree without lines every use has the same entry, and the same rules are broken at
the same places up to lines (`resolve_lineless`).
-/
import Lox.Binding.Walk
import Lox.Proofs.Lines.Tree

namespace Lox

/-- An error without its line. -/
def BindingError.lineless (e : BindingError) : BindingError := { e with site := e.site.lineless }

namespace Walk

/-- A walk whose errors are on no line. -/
def lineless (w : Walk) : Walk := { w with errors := w.errors.map BindingError.lineless }

variable (w : Walk)

theorem record_lineless (fault : BindingFault) (site : Token) :
    w.lineless.record fault site.lineless = (w.record fault site).lineless := by
  simp [record, lineless, BindingError.lineless]

theorem recordIf_lineless (condition : Bool) (fault : BindingFault) (site : Token) :
    w.lineless.recordIf condition fault site.lineless = (w.recordIf condition fault site).lineless := by
  unfold recordIf
  split
  · exact w.record_lineless fault site
  · rfl

theorem mark_lineless (name : String) (complete : Bool) :
    w.lineless.mark name complete = (w.mark name complete).lineless := by
  unfold mark lineless
  dsimp only
  split <;> rfl

theorem declare_lineless (name : Token) : w.lineless.declare name.lineless = (w.declare name).lineless := by
  have declared : w.lineless.declared name.lineless.lexeme = w.declared name.lexeme := rfl
  unfold declare
  rw [declared]
  split
  · exact w.record_lineless .declaredTwice name
  · exact w.mark_lineless name.lexeme false

theorem define_lineless (name : Token) : w.lineless.define name.lineless = (w.define name).lineless :=
  w.mark_lineless name.lexeme true

theorem introduce_lineless (name : Token) : w.lineless.introduce name.lineless = (w.introduce name).lineless := by
  rw [introduce, declare_lineless, define_lineless, introduce]

theorem foldl_introduce_lineless (names : List Token) :
    (names.map Token.lineless).foldl introduce w.lineless = (names.foldl introduce w).lineless := by
  induction names generalizing w with
  | nil => rfl
  | cons name names ih => rw [List.map_cons, List.foldl_cons, introduce_lineless, ih, List.foldl_cons]

theorem bind_lineless (id : UseId) (name : String) : w.lineless.bind id name = (w.bind id name).lineless := by
  unfold bind lineless
  dsimp only
  split <;> rfl

theorem openScope_lineless : w.lineless.openScope = w.openScope.lineless := rfl

theorem closeScope_lineless : w.lineless.closeScope = w.closeScope.lineless := rfl

theorem openWordScope_lineless (word : String) : w.lineless.openWordScope word = (w.openWordScope word).lineless := by
  rw [openWordScope, openScope_lineless, mark_lineless, openWordScope]

theorem super_lineless (home : Home) (id : UseId) (keyword : Token) :
    w.lineless.super home id keyword.lineless = (w.super home id keyword).lineless := by
  unfold super
  cases home.superFault? with
  | none => exact w.bind_lineless id superName
  | some fault =>
    dsimp only
    rw [record_lineless, bind_lineless]

theorem self_lineless (home : Home) (id : UseId) (keyword : Token) :
    w.lineless.self home id keyword.lineless = (w.self home id keyword).lineless := by
  unfold self
  split
  · exact w.record_lineless _ keyword
  · exact w.bind_lineless id thisName

theorem checkSuperclass_lineless (name : Token) (superclass : Expr) :
    w.lineless.checkSuperclass name.lineless superclass.lineless = (w.checkSuperclass name superclass).lineless := by
  cases superclass with
  | ref id parent => exact w.recordIf_lineless _ _ parent
  | _ => rfl

theorem checkReturn_lineless (body : Body) (keyword : Token) (hasValue : Bool) :
    w.lineless.checkReturn body keyword.lineless hasValue = (w.checkReturn body keyword hasValue).lineless := by
  rw [checkReturn, recordIf_lineless, recordIf_lineless, checkReturn]

end Walk

/-! ## Expressions -/

mutual

theorem Expr.walk_lineless (home : Home) (e : Expr) (w : Walk) :
    e.lineless.walk home w.lineless = (e.walk home w).lineless := by
  cases e with
  | literal _ => rfl
  | group inner => exact inner.walk_lineless home w
  | unary _ operand => exact operand.walk_lineless home w
  | binary _ left right | logical _ left right =>
    simp only [Expr.lineless, Expr.walk]
    rw [left.walk_lineless home w, right.walk_lineless home _]
  | ref id name =>
    simp only [Expr.lineless, Expr.walk]
    rw [← Walk.bind_lineless, ← Walk.recordIf_lineless]
    rfl
  | assign id name value =>
    simp only [Expr.lineless, Expr.walk]
    rw [value.walk_lineless home w, ← Walk.bind_lineless]
    rfl
  | call callee _ arguments =>
    simp only [Expr.lineless, Expr.walk]
    rw [callee.walk_lineless home w, Expr.walkAll_lineless home arguments _]
  | get object _ => exact object.walk_lineless home w
  | set object _ value =>
    simp only [Expr.lineless, Expr.walk]
    rw [value.walk_lineless home w, object.walk_lineless home _]
  | self id keyword => exact w.self_lineless home id keyword
  | super id keyword _ => exact w.super_lineless home id keyword

theorem Expr.walkAll_lineless (home : Home) (es : List Expr) (w : Walk) :
    Expr.walkAll home (Expr.linelessAll es) w.lineless = (Expr.walkAll home es w).lineless := by
  cases es with
  | nil => rfl
  | cons e es =>
    simp only [Expr.linelessAll, Expr.walkAll]
    rw [e.walk_lineless home w, Expr.walkAll_lineless home es _]

end

theorem Expr.walkOption_lineless (home : Home) (e : Option Expr) (w : Walk) :
    Expr.walkOption home (e.map Expr.lineless) w.lineless = (Expr.walkOption home e w).lineless := by
  cases e with
  | none => rfl
  | some e => exact e.walk_lineless home w

/-! ## Statements -/

mutual

theorem Stmt.walk_lineless (around : Surroundings) (s : Stmt) (w : Walk) :
    s.lineless.walk around w.lineless = (s.walk around w).lineless := by
  cases s with
  | expression e | print e => exact e.walk_lineless around.home w
  | varDecl name initial =>
    simp only [Stmt.lineless, Stmt.walk]
    rw [Walk.declare_lineless, Expr.walkOption_lineless, Walk.define_lineless]
  | block body =>
    simp only [Stmt.lineless, Stmt.walk]
    rw [Walk.openScope_lineless, Stmt.walkAll_lineless around body _, Walk.closeScope_lineless]
  | ifElse condition yes no =>
    cases no with
    | none =>
      simp only [Stmt.lineless, Stmt.walk]
      rw [condition.walk_lineless around.home w, yes.walk_lineless around _]
    | some no =>
      simp only [Stmt.lineless, Stmt.walk]
      rw [condition.walk_lineless around.home w, yes.walk_lineless around _, no.walk_lineless around _]
  | whileDo condition body =>
    simp only [Stmt.lineless, Stmt.walk]
    rw [condition.walk_lineless around.home w, body.walk_lineless around _]
  | funDecl routine =>
    simp only [Stmt.lineless, Stmt.walk]
    rw [name_routineLineless, Walk.introduce_lineless, walkRoutine_lineless _ routine _]
  | ret keyword value =>
    have given : (value.map Expr.lineless).isSome = value.isSome := Option.isSome_map
    simp only [Stmt.lineless, Stmt.walk]
    rw [given, Walk.checkReturn_lineless, Expr.walkOption_lineless]
  | classDecl name superclass methods =>
    cases superclass with
    | none =>
      simp only [Stmt.lineless, Stmt.walk, Option.map_none]
      rw [Walk.introduce_lineless, Walk.openWordScope_lineless, walkMethods_lineless _ methods _,
        Walk.closeScope_lineless]
    | some superclass =>
      simp only [Stmt.lineless, Stmt.walk, Option.map_some]
      rw [Walk.introduce_lineless, Walk.checkSuperclass_lineless, superclass.walk_lineless .subclass _,
        Walk.openWordScope_lineless, Walk.openWordScope_lineless, walkMethods_lineless _ methods _,
        Walk.closeScope_lineless, Walk.closeScope_lineless]

theorem Stmt.walkAll_lineless (around : Surroundings) (ss : List Stmt) (w : Walk) :
    Stmt.walkAll around (Stmt.linelessAll ss) w.lineless = (Stmt.walkAll around ss w).lineless := by
  cases ss with
  | nil => rfl
  | cons s ss =>
    simp only [Stmt.linelessAll, Stmt.walkAll]
    rw [s.walk_lineless around w, Stmt.walkAll_lineless around ss _]

theorem walkRoutine_lineless (inside : Surroundings) (r : Routine Stmt) (w : Walk) :
    walkRoutine inside (routineLineless r) w.lineless = (walkRoutine inside r w).lineless := by
  obtain ⟨name, parameters, body⟩ := r
  simp only [routineLineless, walkRoutine]
  rw [Walk.openScope_lineless, Walk.foldl_introduce_lineless, Stmt.walkAll_lineless inside body _,
    Walk.closeScope_lineless]

theorem walkMethods_lineless (home : Home) (rs : List (Routine Stmt)) (w : Walk) :
    walkMethods home (methodsLineless rs) w.lineless = (walkMethods home rs w).lineless := by
  cases rs with
  | nil => rfl
  | cons r rs =>
    simp only [methodsLineless, walkMethods]
    rw [Routine.methodBody, isInitializer_routineLineless, ← Routine.methodBody, walkRoutine_lineless _ r w,
      walkMethods_lineless home rs _]

end

/-! ## Programs -/

/-- Without lines a program has the same table, and breaks the same rules up to lines. -/
theorem resolve_lineless (statements : List Stmt) :
    resolve (Stmt.linelessAll statements) =
      ⟨(resolve statements).table, (resolve statements).errors.map BindingError.lineless⟩ := by
  have start : Walk.start.lineless = Walk.start := by simp [Walk.lineless, Walk.start]
  have walked := Stmt.walkAll_lineless .outermost statements .start
  rw [start] at walked
  simp only [resolve, walked, Walk.lineless, Array.toList_map]

end Lox
