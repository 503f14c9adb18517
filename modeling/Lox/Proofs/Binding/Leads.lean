/-
From one state of a walk to a later one nothing is taken back: errors are only added, and only the uses of what
was walked through are entered in the table.
-/
import Lox.Binding.Walk
import Lox.Proofs.Tree.Code

namespace Lox

/-! ## What moves leave alone -/

namespace Walk

variable (w : Walk)

@[simp] theorem errors_mark (name : String) (complete : Bool) : (w.mark name complete).errors = w.errors := by
  unfold mark; split <;> rfl

@[simp] theorem table_mark (name : String) (complete : Bool) : (w.mark name complete).table = w.table := by
  unfold mark; split <;> rfl

@[simp] theorem errors_bind (id : UseId) (name : String) : (w.bind id name).errors = w.errors := by
  unfold bind; split <;> rfl

@[simp] theorem errors_openWordScope (word : String) : (w.openWordScope word).errors = w.errors := errors_mark _ _ _

/-- A declaration that is no error was not made before. -/
theorem not_declared {w : Walk} {name : Token} (h : (w.declare name).errors = #[]) : w.declared name.lexeme = false := by
  unfold declare at h
  split at h
  · simp [record] at h
  · next hd => exact Bool.eq_false_iff.2 hd

end Walk

/-! ## Small moves -/

/-- From one state of a walk to a later one no errors were taken back, and only these uses were entered. -/
structure Walk.Leads (ids : List UseId) (w w' : Walk) : Prop where
  errors : w'.errors = #[] → w.errors = #[]
  table : ∀ id ∉ ids, w'.table.get? id = w.table.get? id

namespace Walk.Leads

theorem of_eq {w w' : Walk} (hE : w'.errors = w.errors) (hT : w'.table = w.table) : Leads [] w w' :=
  ⟨fun h => hE ▸ h, fun _ _ => by rw [hT]⟩

theorem refl (w : Walk) : Leads [] w w := of_eq rfl rfl

theorem trans {a b : List UseId} {w w' w'' : Walk} (h : Leads a w w') (h' : Leads b w' w'') :
    Leads (a ++ b) w w'' := by
  refine ⟨fun hE => h.errors (h'.errors hE), fun id hid => ?_⟩
  rw [List.mem_append, not_or] at hid
  rw [h'.table id hid.2, h.table id hid.1]

theorem record (w : Walk) (fault : BindingFault) (site : Token) : Leads [] w (w.record fault site) :=
  ⟨fun h => by simp [Walk.record] at h, fun _ _ => rfl⟩

theorem recordIf (w : Walk) (condition : Bool) (fault : BindingFault) (site : Token) :
    Leads [] w (Walk.recordIf condition fault site w) := by
  unfold Walk.recordIf
  split
  · exact record w fault site
  · exact refl w

theorem bind (w : Walk) (id : UseId) (name : String) : Leads [id] w (w.bind id name) := by
  unfold Walk.bind
  split
  · refine ⟨fun h => h, fun other hne => ?_⟩
    rw [List.mem_singleton] at hne
    simp [hne]
  · exact ⟨fun h => h, fun _ _ => rfl⟩

theorem openScope (w : Walk) : Leads [] w w.openScope := of_eq rfl rfl

theorem closeScope (w : Walk) : Leads [] w w.closeScope := of_eq rfl rfl

theorem mark (w : Walk) (name : String) (complete : Bool) : Leads [] w (w.mark name complete) := by
  unfold Walk.mark; split <;> exact of_eq rfl rfl

theorem declare (w : Walk) (name : Token) : Leads [] w (w.declare name) := by
  unfold Walk.declare
  split
  · exact record w _ _
  · exact mark w _ _

theorem define (w : Walk) (name : Token) : Leads [] w (w.define name) := mark w _ _

theorem introduce (w : Walk) (name : Token) : Leads [] w (w.introduce name) :=
  (declare w name).trans (define _ name)

theorem introduceAll : ∀ (names : List Token) (w : Walk), Leads [] w (names.foldl Walk.introduce w)
  | [], w => refl w
  | n :: names, w => (introduce w n).trans (introduceAll names _)

theorem openWordScope (w : Walk) (word : String) : Leads [] w (w.openWordScope word) :=
  (openScope w).trans (mark _ _ _)

/-- Opening both scopes of a subclass. -/
theorem openWords (w : Walk) : Leads [] w ((w.openWordScope superName).openWordScope thisName) :=
  (openWordScope w superName).trans (openWordScope _ thisName)

theorem self (w : Walk) (home : Home) (id : UseId) (keyword : Token) :
    Leads [id] w (w.self home id keyword) := by
  unfold Walk.self
  split
  · exact (record w _ _).trans (b := [id]) ⟨fun h => h, fun _ _ => rfl⟩
  · exact bind w id thisName

theorem super (w : Walk) (home : Home) (id : UseId) (keyword : Token) :
    Leads [id] w (w.super home id keyword) := by
  unfold Walk.super
  split
  · exact (record w _ _).trans (bind _ id superName)
  · exact bind w id superName

theorem checkSuperclass (w : Walk) (name : Token) (superclass : Expr) :
    Leads [] w (w.checkSuperclass name superclass) := by
  unfold Walk.checkSuperclass
  split
  · exact recordIf w _ _ _
  · exact refl w

theorem checkReturn (w : Walk) (body : Body) (keyword : Token) (hasValue : Bool) :
    Leads [] w (w.checkReturn body keyword hasValue) :=
  (recordIf w _ _ _).trans (recordIf _ _ _ _)

end Walk.Leads

/-! ## Walks -/

mutual

theorem Expr.walk_leads (home : Home) : ∀ (e : Expr) (w : Walk), Walk.Leads e.uses w (e.walk home w)
  | .literal _, w => .refl w
  | .unary _ operand, w => operand.walk_leads home w
  | .binary _ left right, w => (left.walk_leads home w).trans (right.walk_leads home _)
  | .logical _ left right, w => (left.walk_leads home w).trans (right.walk_leads home _)
  | .group inner, w => inner.walk_leads home w
  | .ref id name, w => (Walk.Leads.recordIf w _ _ _).trans (.bind _ id name.lexeme)
  | .assign id name value, w => (value.walk_leads home w).trans (.bind _ id name.lexeme)
  | .call callee _ arguments, w => (callee.walk_leads home w).trans (Expr.walkAll_leads home arguments _)
  | .get object _, w => object.walk_leads home w
  | .set object _ value, w => (value.walk_leads home w).trans (object.walk_leads home _)
  | .self id keyword, w => .self w home id keyword
  | .super id keyword _, w => .super w home id keyword

theorem Expr.walkAll_leads (home : Home) :
    ∀ (es : List Expr) (w : Walk), Walk.Leads (Expr.usesAll es) w (Expr.walkAll home es w)
  | [], w => .refl w
  | e :: es, w => (e.walk_leads home w).trans (Expr.walkAll_leads home es _)

end

theorem Expr.walkOption_leads (home : Home) (e : Option Expr) (w : Walk) :
    Walk.Leads (Expr.usesOption e) w (Expr.walkOption home e w) := by
  cases e with
  | none => exact .refl w
  | some e => exact e.walk_leads home w

/-- A scope that is closed again makes no difference to errors and entries. -/
theorem Walk.Leads.inner {ids : List UseId} {w w' w'' : Walk} (h : Leads [] w w') (h' : Leads ids w' w'') :
    Leads ids w w''.closeScope := by
  have := (h.trans h').trans (.closeScope w'')
  rwa [List.nil_append, List.append_nil] at this

/-- The two scopes of a subclass make no difference to errors and entries when they are closed again. -/
theorem Walk.Leads.inWords {ids : List UseId} {w w' : Walk}
    (h : Leads ids ((w.openWordScope superName).openWordScope thisName) w') :
    Leads ids w w'.closeScope.closeScope := by
  have := ((openWords w).inner h).trans (.closeScope _)
  rwa [List.append_nil] at this

mutual

theorem Stmt.walk_leads (a : Surroundings) : ∀ (s : Stmt) (w : Walk), Walk.Leads s.uses w (s.walk a w)
  | .expression e, w => e.walk_leads a.home w
  | .print e, w => e.walk_leads a.home w
  | .varDecl name initial, w => by
    have := ((Walk.Leads.declare w name).trans (Expr.walkOption_leads a.home initial _)).trans (.define _ name)
    simpa [Stmt.uses, Stmt.walk] using this
  | .block body, w => (Walk.Leads.openScope w).inner (Stmt.walkAll_leads a body _)
  | .ifElse condition yes none, w => (condition.walk_leads a.home w).trans (yes.walk_leads a _)
  | .ifElse condition yes (some no), w =>
    (condition.walk_leads a.home w).trans ((yes.walk_leads a _).trans (no.walk_leads a _))
  | .whileDo condition body, w => (condition.walk_leads a.home w).trans (body.walk_leads a _)
  | .funDecl routine, w => (Walk.Leads.introduce w routine.name).trans (walkRoutine_leads _ routine _)
  | .ret keyword value, w => (Walk.Leads.checkReturn w _ _ _).trans (Expr.walkOption_leads a.home value _)
  | .classDecl name none methods, w =>
    ((Walk.Leads.introduce w name).trans (.openWordScope _ thisName)).inner (walkMethods_leads .plainClass methods _)
  | .classDecl name (some superclass) methods, w => by
    have start := (Walk.Leads.introduce w name).trans (.checkSuperclass _ name superclass)
    exact (start.trans (superclass.walk_leads .subclass _)).trans
      (Walk.Leads.inWords (walkMethods_leads .subclass methods _))

theorem Stmt.walkAll_leads (a : Surroundings) :
    ∀ (ss : List Stmt) (w : Walk), Walk.Leads (Stmt.usesAll ss) w (Stmt.walkAll a ss w)
  | [], w => .refl w
  | s :: ss, w => (s.walk_leads a w).trans (Stmt.walkAll_leads a ss _)

theorem walkRoutine_leads (a : Surroundings) :
    ∀ (r : Routine Stmt) (w : Walk), Walk.Leads (routineUses r) w (walkRoutine a r w)
  | ⟨_, parameters, body⟩, w =>
    ((Walk.Leads.openScope w).trans (.introduceAll parameters _)).inner (Stmt.walkAll_leads a body _)

theorem walkMethods_leads (home : Home) :
    ∀ (rs : List (Routine Stmt)) (w : Walk), Walk.Leads (methodUses rs) w (walkMethods home rs w)
  | [], w => .refl w
  | r :: rs, w => (walkRoutine_leads _ r w).trans (walkMethods_leads home rs _)

end

end Lox
