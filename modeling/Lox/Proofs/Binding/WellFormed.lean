/-
The walk finds no error in just the well-formed programs (`errors_resolve_iff`). Of the layers around a part it keeps
the kind of code and the kind of class, and of each scope the names; that is enough to tell whether the part keeps the
rules.
-/
import Lox.Proofs.Binding.Initial
import Lox.Proofs.Tree.Placed

namespace Lox

/-! ## What the walk knows of layers -/

namespace Layer

/-- The kind of code that a layer is, if it is a function or a method. -/
def body? : Layer → Option Body
  | function => some .function
  | method name => some (if name.lexeme == initializerName then .initializer else .method)
  | block | cls _ => none

/-- The kind of class that a layer is, if it is a class. -/
def home? : Layer → Option Home
  | cls true => some .subclass
  | cls false => some .plainClass
  | block | function | method _ => none

end Layer

/-- What surrounds a place with these layers around it. -/
def surroundings (around : List Layer) : Surroundings :=
  ⟨(around.findSome? Layer.body?).getD .top, (around.findSome? Layer.home?).getD .noClass⟩

section

variable {around : List Layer}

@[simp] theorem surroundings_nil : surroundings [] = .outermost := rfl

@[simp] theorem surroundings_block : surroundings (.block :: around) = surroundings around := rfl

@[simp] theorem surroundings_function :
    surroundings (.function :: around) = { surroundings around with body := .function } := rfl

@[simp] theorem surroundings_method (name : Token) : surroundings (.method name :: around) =
    { surroundings around with body := if name.lexeme == initializerName then .initializer else .method } := rfl

@[simp] theorem surroundings_plainClass :
    surroundings (.cls false :: around) = { surroundings around with home := .plainClass } := rfl

@[simp] theorem surroundings_subclass :
    surroundings (.cls true :: around) = { surroundings around with home := .subclass } := rfl

theorem body_surroundings_ne_top : (surroundings around).body ≠ .top ↔ ∃ layer ∈ around, layer.isRoutine = true := by
  induction around with
  | nil => simp [Surroundings.outermost]
  | cons layer around ih =>
    cases layer with
    | block => simpa [Layer.isRoutine] using ih
    | cls inherits => cases inherits <;> simpa [Layer.isRoutine] using ih
    | function => simp [Layer.isRoutine]
    | method name =>
      refine iff_of_true ?_ ⟨_, List.mem_cons_self, rfl⟩
      rw [surroundings_method]
      dsimp only
      split <;> decide

theorem body_surroundings_ne_initializer : (surroundings around).body ≠ .initializer ↔
    ∀ name, around.find? Layer.isRoutine = some (.method name) → name.lexeme ≠ initializerName := by
  induction around with
  | nil => simp [Surroundings.outermost]
  | cons layer around ih =>
    cases layer with
    | block => simpa [Layer.isRoutine] using ih
    | cls inherits => cases inherits <;> simpa [Layer.isRoutine] using ih
    | function => simp [Layer.isRoutine]
    | method name =>
      by_cases h : name.lexeme = initializerName <;> simp [h, Layer.isRoutine]

theorem home_surroundings_ne_noClass :
    (surroundings around).home ≠ .noClass ↔ ∃ layer ∈ around, layer.isClass = true := by
  induction around with
  | nil => simp [Surroundings.outermost]
  | cons layer around ih =>
    cases layer with
    | block | function | method _ => simpa [Layer.isClass] using ih
    | cls inherits => cases inherits <;> simp [Layer.isClass]

theorem home_surroundings_eq_subclass :
    (surroundings around).home = .subclass ↔ around.find? Layer.isClass = some (.cls true) := by
  induction around with
  | nil => simp [Surroundings.outermost]
  | cons layer around ih =>
    cases layer with
    | block | function | method _ => simpa [Layer.isClass] using ih
    | cls inherits => cases inherits <;> simp [Layer.isClass]

end

/-! ## Names that can be declared -/

namespace Walk

variable {w w' : Walk}

/-- Whether names can be declared in the innermost scope: it has none of them, and none of them comes twice. -/
def Admits (w : Walk) (names : List String) : Prop :=
  w.scopes = [] ∨ names.Nodup ∧ ∀ n ∈ names, w.declared n = false

theorem admits_congr (h : w'.scopes = w.scopes) : w'.Admits = w.Admits := by
  funext names
  unfold Admits declared
  rw [h]

theorem admits_nil (w : Walk) : w.Admits [] := .inr ⟨.nil, List.forall_mem_nil _⟩

theorem admits_openScope {names : List String} : w.openScope.Admits names ↔ names.Nodup := by
  simp [Admits, declared, Bindings.contains]

/-- Names can be declared after others if all of them together can. -/
theorem admits_append {a b : List String} (h : w'.scopes = settle a w.scopes) :
    w.Admits (a ++ b) ↔ w.Admits a ∧ w'.Admits b := by
  unfold Admits declared
  rw [h]
  cases w.scopes with
  | nil => simp [settle]
  | cons scope outer =>
    have fresh : ∀ n, (scope.complete a).contains n = false ↔ n ∉ a ∧ scope.contains n = false := by
      intro n
      rw [Bool.eq_false_iff, ne_eq, Declarations.contains_complete, not_or, Bool.not_eq_true]
    simp only [settle, List.cons_ne_nil, false_or, List.head?_cons, Option.any_some, fresh, List.nodup_append,
      List.forall_mem_append]
    constructor
    · rintro ⟨⟨nodup, nodup', apart⟩, own, own'⟩
      exact ⟨⟨nodup, own⟩, nodup', fun n hn => ⟨fun mem => apart n mem n hn rfl, own' n hn⟩⟩
    · rintro ⟨⟨nodup, own⟩, nodup', own'⟩
      refine ⟨⟨nodup, nodup', ?_⟩, own, fun n hn => (own' n hn).2⟩
      rintro n mem _ hn rfl
      exact (own' n hn).1 mem

/-! ## Moves without an error -/

/-- From one state of a walk to a later one no error was added just if `P` holds. -/
def Silent (P : Prop) (w w' : Walk) : Prop := w'.errors = #[] ↔ w.errors = #[] ∧ P

namespace Silent

variable {w'' : Walk} {P Q : Prop} {around : List Layer}

theorem of_eq (h : w'.errors = w.errors) : Silent True w w' := by
  rw [Silent, h, and_true]

theorem refl (w : Walk) : Silent True w w := of_eq rfl

theorem congr (h : Silent P w w') (e : P ↔ Q) : Silent Q w w' := by
  rwa [Silent, ← e]

theorem trans (h : Silent P w w') (h' : Silent Q w' w'') : Silent (P ∧ Q) w w'' := by
  rw [Silent] at h h' ⊢
  rw [h', h, and_assoc]

/-- A move that is silent in any case, after one that is not. -/
theorem after (h : Silent P w w') (h' : w''.errors = w'.errors) : Silent P w w'' := by
  rwa [Silent, h']

/-- A move that is not silent in any case, after one that is. -/
theorem before (h : w'.errors = w.errors) (h' : Silent P w' w'') : Silent P w w'' := by
  rwa [Silent, ← h]

theorem recordIf (w : Walk) (condition : Bool) (fault : BindingFault) (site : Token) :
    Silent (condition = false) w (recordIf condition fault site w) := by
  cases condition <;> simp [Silent, Walk.recordIf, record]

theorem declare (w : Walk) (name : Token) : Silent (w.Admits [name.lexeme]) w (w.declare name) := by
  unfold Silent Walk.declare Admits
  by_cases h : w.declared name.lexeme = true
  · have inside : w.scopes ≠ [] := by
      intro none
      rw [declared, none] at h
      cases h
    simp [h, inside, record]
  · simp [h]

theorem introduce (w : Walk) (name : Token) : Silent (w.Admits [name.lexeme]) w (w.introduce name) :=
  (declare w name).after (errors_mark _ _ _)

theorem introduceAll (names : List Token) (w : Walk) :
    Silent (w.Admits (names.map (·.lexeme))) w (names.foldl Walk.introduce w) := by
  induction names generalizing w with
  | nil => exact (refl w).congr (iff_of_true trivial w.admits_nil)
  | cons name names ih => exact ((introduce w name).trans (ih _)).congr (admits_append (w.scopes_introduce name)).symm

theorem checkReturn (w : Walk) (keyword : Token) (value : Option Expr) :
    Silent ((Code.stmt (.ret keyword value)).WellPlaced around) w
      (w.checkReturn (surroundings around).body keyword value.isSome) := by
  refine ((recordIf w _ _ _).trans (recordIf _ _ _ _)).congr ?_
  rw [beq_eq_false_iff_ne, body_surroundings_ne_top]
  cases value with
  | none => simp [Code.WellPlaced]
  | some e =>
    rw [Option.isSome_some, Bool.true_and, beq_eq_false_iff_ne, body_surroundings_ne_initializer]
    rfl

theorem checkSuperclass (w : Walk) (name : Token) (superclass : Expr) (methods : List (Routine Stmt)) :
    Silent ((Code.stmt (.classDecl name (some superclass) methods)).WellPlaced around) w
      (w.checkSuperclass name superclass) := by
  cases superclass with
  | ref id parent => exact (recordIf w _ _ _).congr beq_eq_false_iff_ne
  | _ => exact refl w

theorem self (w : Walk) (id : UseId) (keyword : Token) :
    Silent ((Code.expr (.self id keyword)).WellPlaced around) w (w.self (surroundings around).home id keyword) := by
  refine congr ?_ home_surroundings_ne_noClass
  unfold Silent Walk.self
  split
  · next h => simp [h, record]
  · next h => simp [h]

theorem super (w : Walk) (id : UseId) (keyword method : Token) :
    Silent ((Code.expr (.super id keyword method)).WellPlaced around) w
      (w.super (surroundings around).home id keyword) := by
  refine congr ?_ home_surroundings_eq_subclass
  unfold Silent Walk.super
  cases (surroundings around).home <;> simp [Home.superFault?, record]

/-! ## Expressions -/

variable {P : Code → Prop} {c : Code} {cs cs' : List Code}

theorem cons (own : P c) (h : Silent (∀ x ∈ cs, P x) w w') : Silent (∀ x ∈ c :: cs, P x) w w' :=
  h.congr (by simp [own])

theorem append (h : Silent (∀ x ∈ cs, P x) w w') (h' : Silent (∀ x ∈ cs', P x) w' w'') :
    Silent (∀ x ∈ cs ++ cs', P x) w w'' :=
  (h.trans h').congr List.forall_mem_append.symm

end Silent

end Walk

/-- Whether a part keeps the rules, and reads no variable that is being declared in the innermost of these scopes. -/
def Code.Passes (around : List Layer) (scopes : List Declarations) (c : Code) : Prop :=
  c.WellPlaced around ∧
    ∀ id name, c = .expr (.ref id name) → ∀ scope ∈ scopes.head?, scope.get? name.lexeme ≠ some false

section

open Walk

variable (around : List Layer) {scopes : List Declarations}

/-- An expression that is no use itself. -/
theorem Code.passes_expr {e : Expr} (h : e.use? = none) : (Code.expr e).Passes around scopes := by
  refine ⟨?_, ?_⟩
  · cases e with
    | self _ _ | super _ _ _ => cases h
    | _ => trivial
  · rintro id name ⟨⟩
    cases h

mutual

/-- The walk through an expression finds no error just if every expression within it passes. -/
theorem Expr.walk_silent : ∀ (e : Expr) {w : Walk}, w.scopes = scopes →
    Silent (∀ c ∈ e.within, c.Passes around scopes) w (e.walk (surroundings around).home w)
  | .literal value, w, _ =>
    (Silent.refl w).congr (by simp [Expr.within, Code.passes_expr around (e := .literal value) rfl])
  | .unary _ e, _, hw | .group e, _, hw | .get e _, _, hw => .cons (Code.passes_expr around rfl) (e.walk_silent hw)
  | .binary _ l r, w, hw | .logical _ l r, w, hw =>
    .cons (Code.passes_expr around rfl)
      ((l.walk_silent hw).append (r.walk_silent ((l.scopes_walk _ w).trans hw)))
  | .call f _ es, w, hw =>
    .cons (Code.passes_expr around rfl)
      ((f.walk_silent hw).append (Expr.walkAll_silent es ((f.scopes_walk _ w).trans hw)))
  | .set o _ v, w, hw =>
    .cons (Code.passes_expr around rfl)
      ((v.walk_silent hw).append (o.walk_silent ((v.scopes_walk _ w).trans hw)))
  | .assign id name e, w, hw => by
    refine .cons ⟨trivial, nofun⟩ ((e.walk_silent hw).after ?_)
    exact errors_bind _ id name.lexeme
  | .ref id name, w, hw => by
    refine ((Silent.recordIf w _ _ _).after (errors_bind _ id name.lexeme)).congr ?_
    subst hw
    cases h : w.scopes <;> simp [beingDeclared, Expr.within, Code.Passes, Code.WellPlaced, h]
  | .self id keyword, w, _ => (Silent.self w id keyword).congr (by simp [Expr.within, Code.Passes])
  | .super id keyword method, w, _ => (Silent.super w id keyword method).congr (by simp [Expr.within, Code.Passes])

theorem Expr.walkAll_silent : ∀ (es : List Expr) {w : Walk}, w.scopes = scopes →
    Silent (∀ c ∈ Expr.withinAll es, c.Passes around scopes) w (Expr.walkAll (surroundings around).home es w)
  | [], w, _ => (Silent.refl w).congr (by simp [Expr.withinAll])
  | e :: es, w, hw => (e.walk_silent hw).append (Expr.walkAll_silent es ((e.scopes_walk _ w).trans hw))

end

end

/-! ## Statements -/

/-- Whether parts keep the rules where they stand. -/
def Kept (parts : List (List Layer × Code)) : Prop := ∀ part ∈ parts, part.2.WellPlaced part.1

@[simp] theorem kept_nil : Kept [] := List.forall_mem_nil _

@[simp] theorem kept_cons {around : List Layer} {c : Code} {parts : List (List Layer × Code)} :
    Kept ((around, c) :: parts) ↔ c.WellPlaced around ∧ Kept parts :=
  List.forall_mem_cons

@[simp] theorem kept_append {parts parts' : List (List Layer × Code)} :
    Kept (parts ++ parts') ↔ Kept parts ∧ Kept parts' :=
  List.forall_mem_append

theorem kept_placed {around : List Layer} {e : Expr} :
    Kept (e.placed around) ↔ ∀ c ∈ e.within, c.WellPlaced around := by
  simp [Kept, Expr.placed]

namespace Walk

/-- Whether no name is being declared in the innermost scope. -/
def Quiet (w : Walk) : Prop := ∀ scope ∈ w.scopes.head?, ∀ n, scope.get? n ≠ some false

/-- A walk between two statements that have these layers around them. -/
structure Stands (around : List Layer) (w : Walk) : Prop where
  quiet : w.Quiet
  local_iff : w.scopes ≠ [] ↔ ∃ layer ∈ around, layer.isScope = true

variable {around : List Layer} {w w' : Walk} {names : List String}

theorem Quiet.settle (h : w.Quiet) (hs : w'.scopes = settle names w.scopes) : w'.Quiet := by
  unfold Quiet at h ⊢
  rw [hs]
  cases hw : w.scopes with
  | nil => nofun
  | cons scope outer =>
    rintro _ ⟨⟩ n
    rw [Declarations.get?_complete]
    split
    · nofun
    · exact h scope (by rw [hw]; rfl) n

theorem Quiet.same (h : w.Quiet) (hs : w'.scopes = w.scopes) : w'.Quiet :=
  h.settle (show w'.scopes = Lox.settle [] w.scopes by rw [hs, settle_nil])

theorem quiet_openScope (w : Walk) : w.openScope.Quiet := by
  rintro _ ⟨⟩ n
  nofun

theorem Stands.settle (h : w.Stands around) (hs : w'.scopes = Lox.settle names w.scopes) : w'.Stands around := by
  refine ⟨h.quiet.settle hs, ?_⟩
  rw [← h.local_iff, hs]
  cases w.scopes <;> simp [Lox.settle]

theorem Stands.same (h : w.Stands around) (hs : w'.scopes = w.scopes) : w'.Stands around :=
  h.settle (show w'.scopes = Lox.settle [] w.scopes by rw [hs, settle_nil])

theorem stands_openScope (w : Walk) {layer : Layer} (hl : layer.isScope = true) :
    w.openScope.Stands (layer :: around) :=
  ⟨quiet_openScope w, iff_of_true (List.cons_ne_nil _ _) ⟨layer, List.mem_cons_self, hl⟩⟩

end Walk

open Walk

section

variable {around : List Layer} {w : Walk}

theorem Expr.walk_kept (e : Expr) (h : w.Quiet) :
    Silent (Kept (e.placed around)) w (e.walk (surroundings around).home w) := by
  refine (e.walk_silent around rfl).congr ?_
  rw [kept_placed]
  refine forall₂_congr fun c _ => and_iff_left ?_
  exact fun _ name _ scope hs => h scope hs name.lexeme

/-- An initializer may read everything but the variable that is being declared. -/
theorem passes_declare {name : Token} {e : Expr} (h : w.Quiet) (admits : w.Admits [name.lexeme]) :
    (∀ c ∈ e.within, c.Passes around (w.declare name).scopes) ↔
      Kept (e.placed around) ∧ (w.scopes ≠ [] → e.Avoids name.lexeme) := by
  have scopes : ∀ n, (∀ scope ∈ (w.declare name).scopes.head?, scope.get? n ≠ some false) ↔
      (w.scopes ≠ [] → n ≠ name.lexeme) := by
    intro n
    rcases admits with none | ⟨-, fresh⟩
    · simp [Walk.declare, declared, mark, none]
    · have fresh := fresh _ List.mem_cons_self
      cases hw : w.scopes with
      | nil => simp [Walk.declare, declared, mark, hw]
      | cons scope outer =>
        have quiet := h scope (by rw [hw]; rfl) n
        by_cases same : n = name.lexeme <;> simp [Walk.declare, fresh, mark, hw, Bindings.get?_set, same, quiet]
  rw [kept_placed]
  constructor
  · intro passes
    refine ⟨fun c hc => (passes c hc).1, fun inside id read mem => ?_⟩
    exact (scopes _).1 ((passes _ mem).2 id read rfl) inside
  · rintro ⟨placed, avoids⟩ c hc
    refine ⟨placed c hc, ?_⟩
    rintro id read rfl
    exact (scopes _).2 fun inside => avoids inside id read hc

theorem Expr.walkOption_kept (e : Option Expr) (h : w.Quiet) :
    Silent (Kept (e.toList.flatMap (·.placed around))) w (Expr.walkOption (surroundings around).home e w) := by
  cases e with
  | none => exact (Silent.refl w).congr (by simp)
  | some e => exact (e.walk_kept h).congr (by simp)

theorem varDecl_silent (name : Token) (initial : Option Expr) (h : w.Stands around) :
    Silent (Kept ((Stmt.varDecl name initial).placed around) ∧ w.Admits [name.lexeme]) w
      ((Stmt.varDecl name initial).walk (surroundings around) w) := by
  cases initial with
  | none =>
    refine (Silent.introduce w name).congr ?_
    simp [Stmt.placed, Code.WellPlaced]
  | some e =>
    have parts := (Silent.declare w name).trans (e.walk_silent around rfl)
    refine (parts.after (errors_mark _ _ _)).congr ?_
    rw [and_congr_right fun admits => passes_declare h.quiet admits, h.local_iff]
    simp [Stmt.placed, Code.WellPlaced, and_comm]

end

mutual

/-- The walk through a statement finds no error just if what is within it keeps the rules and the innermost scope admits
what it declares. -/
theorem Stmt.walk_silent : ∀ (s : Stmt) {around : List Layer} {w : Walk}, w.Stands around →
    Silent (Kept (s.placed around) ∧ w.Admits s.declared) w (s.walk (surroundings around) w)
  | .expression e, around, w, h | .print e, around, w, h => by
    refine (e.walk_kept h.quiet).congr ?_
    simp [Stmt.placed, Code.WellPlaced, Stmt.declared, admits_nil]
  | .varDecl name initial, around, w, h => varDecl_silent name initial h
  | .block body, around, w, h => by
    have stands : w.openScope.Stands (.block :: around) := w.stands_openScope rfl
    have inside := Stmt.walkAll_silent body stands
    refine (Silent.before (w := w) rfl (inside.after rfl)).congr ?_
    rw [admits_openScope]
    simp [Stmt.placed, Code.WellPlaced, Stmt.declared, admits_nil, and_comm]
  | .ifElse condition yes none, around, w, h => by
    have scopes := condition.scopes_walk (surroundings around).home w
    refine ((condition.walk_kept h.quiet).trans (yes.walk_silent (h.same scopes))).congr ?_
    rw [admits_congr scopes]
    simp [Stmt.placed, Code.WellPlaced, Stmt.declared, and_assoc]
  | .ifElse condition yes (some no), around, w, h => by
    have scopes := condition.scopes_walk (surroundings around).home w
    have stands := h.same scopes
    have scopes' := yes.scopes_walk (surroundings around) (condition.walk (surroundings around).home w)
    have all := ((condition.walk_kept h.quiet).trans (yes.walk_silent stands)).trans
      (no.walk_silent (stands.settle scopes'))
    refine all.congr ?_
    rw [Stmt.declared, ← admits_congr scopes, admits_append scopes']
    simp [Stmt.placed, Code.WellPlaced, and_assoc, and_left_comm]
  | .whileDo condition body, around, w, h => by
    have scopes := condition.scopes_walk (surroundings around).home w
    refine ((condition.walk_kept h.quiet).trans (body.walk_silent (h.same scopes))).congr ?_
    rw [admits_congr scopes]
    simp [Stmt.placed, Code.WellPlaced, Stmt.declared, and_assoc]
  | .funDecl r, around, w, h => by
    have body := @walkRoutine_silent r around .function rfl (w.introduce r.name)
    refine ((Silent.introduce w r.name).trans body).congr ?_
    simp [Stmt.placed, Code.WellPlaced, Stmt.declared, and_comm]
  | .ret keyword value, around, w, h => by
    have scopes := w.scopes_checkReturn (surroundings around).body keyword value.isSome
    refine ((Silent.checkReturn w keyword value).trans (Expr.walkOption_kept value (h.quiet.same scopes))).congr ?_
    simp [Stmt.placed, Stmt.declared, admits_nil]
  | .classDecl name none methods, around, w, h => by
    have inside := @walkMethods_silent methods (.cls false :: around) ((w.introduce name).openWordScope thisName)
    refine ((Silent.introduce w name).trans (.before (errors_openWordScope _ _) (inside.after rfl))).congr ?_
    simp [Stmt.placed, Code.WellPlaced, Stmt.declared, and_comm]
  | .classDecl name (some superclass) methods, around, w, h => by
    have quiet : ((w.introduce name).checkSuperclass name superclass).Quiet :=
      (h.quiet.settle (w.scopes_introduce name)).same (scopes_checkSuperclass _ name superclass)
    have parent : Silent (Kept (superclass.placed (.cls true :: around))) _ _ := superclass.walk_kept quiet
    have start := (Silent.introduce w name).trans
      ((@Silent.checkSuperclass around (w.introduce name) name superclass methods).trans parent)
    have inside := @walkMethods_silent methods (.cls true :: around)
      (((superclass.walk .subclass ((w.introduce name).checkSuperclass name superclass)).openWordScope
        superName).openWordScope thisName)
    refine (start.trans (.before (by rw [errors_openWordScope, errors_openWordScope]; rfl) (inside.after rfl))).congr ?_
    simp [Stmt.placed, Stmt.declared, and_assoc, and_comm]

theorem Stmt.walkAll_silent : ∀ (ss : List Stmt) {around : List Layer} {w : Walk}, w.Stands around →
    Silent (Kept (Stmt.placedAll around ss) ∧ w.Admits (Stmt.declaredAll ss)) w
      (Stmt.walkAll (surroundings around) ss w)
  | [], around, w, _ => (Silent.refl w).congr (by simp [Stmt.placedAll, Stmt.declaredAll, admits_nil])
  | s :: ss, around, w, h => by
    have scopes := s.scopes_walk (surroundings around) w
    refine ((s.walk_silent h).trans (Stmt.walkAll_silent ss (h.settle scopes))).congr ?_
    have both := admits_append (b := Stmt.declaredAll ss) scopes
    rw [show Stmt.declaredAll (s :: ss) = s.declared ++ Stmt.declaredAll ss from rfl, both]
    simp [Stmt.placedAll, and_assoc, and_left_comm]

theorem walkRoutine_silent : ∀ (r : Routine Stmt) {around : List Layer} {layer : Layer}, layer.isScope = true →
    ∀ w : Walk, Silent (Kept (routinePlaced (layer :: around) r)) w (walkRoutine (surroundings (layer :: around)) r w)
  | ⟨name, parameters, body⟩, around, layer, hl, w => by
    have scopes := scopes_introduceAll w.openScope parameters
    have stands : Stands (layer :: around) _ := (w.stands_openScope hl).settle scopes
    have inside := (Silent.introduceAll parameters w.openScope).trans (Stmt.walkAll_silent body stands)
    refine (Silent.before (w := w) rfl (inside.after rfl)).congr ?_
    have both := admits_append (b := Stmt.declaredAll body) scopes
    rw [admits_openScope] at both
    simp [routinePlaced, Code.WellPlaced, both, and_assoc, and_comm]

theorem walkMethods_silent : ∀ (rs : List (Routine Stmt)) {around : List Layer} (w : Walk),
    Silent (Kept (methodsPlaced around rs)) w (walkMethods (surroundings around).home rs w)
  | [], around, w => (Silent.refl w).congr (by simp [methodsPlaced])
  | r :: rs, around, w => by
    have first := @walkRoutine_silent r around (.method r.name) rfl w
    exact (first.trans (walkMethods_silent rs _)).congr (by simp [methodsPlaced])

end

/-- The statements of a program break no rule just if each of their parts keeps the rules where it stands. -/
theorem errors_resolve_kept (statements : List Stmt) :
    (resolve statements).errors = [] ↔ Kept (Stmt.placedAll [] statements) := by
  have stands : Walk.start.Stands [] := ⟨nofun, by simp [Walk.start]⟩
  have admits : Walk.start.Admits (Stmt.declaredAll statements) := .inl rfl
  have silent := Stmt.walkAll_silent statements stands
  rw [Silent, surroundings_nil] at silent
  rw [resolve, Array.toList_eq_nil_iff, silent]
  exact ⟨fun h => h.2.1, fun h => ⟨rfl, h, admits⟩⟩

/-- The statements of a program break no rule just if the program is well-formed. -/
theorem errors_resolve_iff (statements : List Stmt) : (resolve statements).errors = [] ↔ WellFormed statements :=
  (errors_resolve_kept statements).trans wellFormed_iff.symm

end Lox
