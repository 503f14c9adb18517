/-
A visit is balanced, and enters for each use the scope of the nearest declaration. Whatever the part of a program and
the state before, errors or not, the kinds of code and of class are as before after it, and so are all scopes but the
innermost, which loses no name (`Visitor.Balanced`). The uses in the part are looked up one after the other, and each
of them belongs to the nearest of the scopes open there that has its name (`Occurrence.Exact`).
-/
import Lox.Proofs.Binding.Lies
import Lox.Proofs.Binding.Visitor
import Lox.Proofs.Program.Uses

namespace Lox

/-! ## Occurrences -/

/-- A use of a name, the stop at it, and the distance that is entered for it, if there is one. -/
structure Occurrence where
  id : UseId
  name : String
  stop : Stop
  depth : Option Nat

/-- Enters an occurrence in a table. -/
def Occurrence.enter (table : Table) (o : Occurrence) : Table := o.depth.elim table (table.insert o.id)

/-- Whether what is entered for an occurrence is right for the scopes that are open at it. -/
inductive Occurrence.Exact : Occurrence → Prop
  /-- It belongs to an open scope that has the name, and no nearer one has it. -/
  | found {id name x depth} (use : x.code.use? = some (id, name)) (isOpen : depth < x.walk.scopes.length)
      (has : x.walk.scopes[depth].contains name = true)
      (nearest : ∀ nearer, (h : nearer < depth) → x.walk.scopes[nearer].contains name = false) :
      Exact ⟨id, name, x, some depth⟩
  /-- No open scope has the name. -/
  | free {id name x} (use : x.code.use? = some (id, name))
      (lacks : ∀ scope ∈ x.walk.scopes, scope.contains name = false) : Exact ⟨id, name, x, none⟩
  /-- It is the word `this` outside of classes. -/
  | misplaced {id keyword x} (word : x.code = .expr (.self id keyword)) (outside : x.around.home = .noClass) :
      Exact ⟨id, thisName, x, none⟩

/-! ## Moves that enter nothing, and the one that does -/

namespace Walk

variable (w : Walk) (name : Token)

/-- A name is entered with the distance of the nearest scope that has it. -/
theorem table_bind (id : UseId) (name : String) :
    (w.bind id name).table = (w.scopes.findIdx? (·.contains name)).elim w.table (w.table.insert id) := by
  unfold bind
  split
  · next found => rw [found, Option.elim_some]
  · next missing => rw [missing, Option.elim_none]

@[simp] theorem table_recordIf (condition : Bool) (fault : BindingFault) :
    (recordIf condition fault name w).table = w.table := by
  unfold recordIf
  split <;> rfl

@[simp] theorem table_declare : (w.declare name).table = w.table := by
  unfold declare
  split
  · rfl
  · exact table_mark _ _ _

@[simp] theorem table_define : (w.define name).table = w.table := table_mark _ _ _

@[simp] theorem table_introduce : (w.introduce name).table = w.table := by simp [introduce]

@[simp] theorem table_introduceAll (names : List Token) : (names.foldl introduce w).table = w.table := by
  induction names generalizing w with
  | nil => rfl
  | cons n names ih => rw [List.foldl_cons, ih, table_introduce]

@[simp] theorem table_checkSuperclass (superclass : Expr) : (w.checkSuperclass name superclass).table = w.table := by
  unfold checkSuperclass
  split
  · exact table_recordIf _ _ _ _
  · rfl

@[simp] theorem table_checkReturn (body : Body) (hasValue : Bool) :
    (w.checkReturn body name hasValue).table = w.table := by simp [checkReturn]

/-- The word `super` is looked up, errors or not. -/
theorem table_super (home : Home) (id : UseId) (keyword : Token) :
    (w.super home id keyword).table = (w.scopes.findIdx? (·.contains superName)).elim w.table (w.table.insert id) := by
  unfold super
  split
  · exact table_bind _ _ _
  · exact table_bind _ _ _

/-- The word `this` is looked up in classes only. -/
theorem table_self (home : Home) (id : UseId) (keyword : Token) :
    (w.self home id keyword).table = (if home = .noClass then none else
      w.scopes.findIdx? (·.contains thisName)).elim w.table (w.table.insert id) := by
  unfold self
  split
  · rfl
  · exact table_bind _ _ _

end Walk

namespace Stop

/-- Whether the part is the word `this` outside of classes, which is not looked up. -/
def misplaced (x : Stop) : Bool :=
  match x.code with
  | .expr (.self _ _) => x.around.home == .noClass
  | _ => false

/-- How far out the nearest scope with a name is, unless the part is no place for it. -/
def nearest? (x : Stop) (name : String) : Option Nat :=
  if x.misplaced then none else x.walk.scopes.findIdx? (·.contains name)

/-- The occurrence that the part is itself, if it is one. -/
def own (x : Stop) : List Occurrence :=
  x.code.use?.toList.map fun use => ⟨use.1, use.2, x, x.nearest? use.2⟩

/-- The occurrences in the part, in the order in which they are looked up. -/
def occurrences (x : Stop) : List Occurrence := x.parts.attach.flatMap (fun y => y.1.occurrences) ++ x.own
termination_by sizeOf x.code
decreasing_by exact sizeOf_lt_of_mem_parts y.2

theorem occurrences_eq (x : Stop) : x.occurrences = x.parts.flatMap occurrences ++ x.own := by
  rw [occurrences, ← List.flatMap_map, List.attach_map_subtype_val]

/-! ## Each occurrence is right -/

theorem exact_own (x : Stop) : ∀ o ∈ x.own, o.Exact := by
  intro o ho
  obtain ⟨⟨id, name⟩, hu, rfl⟩ := List.mem_map.1 ho
  have use : x.code.use? = some (id, name) := Option.mem_toList.1 hu
  show Occurrence.Exact ⟨id, name, x, x.nearest? name⟩
  unfold nearest?
  split
  · -- outside of classes `this` is not looked up
    next word =>
    obtain ⟨code, a, w, d⟩ := x
    unfold misplaced at word
    split at word
    · next _ keyword hc =>
      cases hc
      cases use
      exact .misplaced rfl (eq_of_beq word)
    · cases word
  · cases found : x.walk.scopes.findIdx? (·.contains name) with
    | none => exact .free use (by simpa using found)
    | some depth =>
      obtain ⟨isOpen, has, nearer⟩ := List.findIdx?_eq_some_iff_getElem.1 found
      exact .found use isOpen has fun n h => by simpa using nearer n h

theorem exact_occurrences (x : Stop) : ∀ o ∈ x.occurrences, o.Exact := by
  induction x using parts_induct with
  | step x ih =>
    intro o ho
    rw [occurrences_eq, List.mem_append, List.mem_flatMap] at ho
    obtain ⟨y, hy, mem⟩ | mem := ho
    · exact ih y hy o mem
    · exact x.exact_own o mem

/-! ## The entries of a visit -/

/-- Stops that follow one another, each with the entries with which the one before is left. -/
def Chained (table : Table) : List Stop → Table → Prop
  | [], last => last = table
  | y :: ys, last => y.walk.table = table ∧ Chained y.after.table ys last

theorem Chained.foldl_enter {xs : List Stop} {table last : Table} (h : Chained table xs last)
    (each : ∀ x ∈ xs, x.after.table = x.occurrences.foldl Occurrence.enter x.walk.table) :
    last = (xs.flatMap occurrences).foldl Occurrence.enter table := by
  induction xs generalizing table with
  | nil => exact h
  | cons x xs ih =>
    obtain ⟨rfl, later⟩ := h
    obtain ⟨first, others⟩ := List.forall_mem_cons.1 each
    rw [List.flatMap_cons, List.foldl_append, ← first]
    exact ih later others

/-- The use that a part is is entered after the walk through what is assigned to it. -/
theorem table_use {e : Expr} {a : Surroundings} {w : Walk} {d : List Declarations} (hu : e.use?.isSome) :
    let x : Stop := ⟨.expr e, a, w, d⟩
    x.after.table = x.own.foldl Occurrence.enter x.entering.table := by
  cases e with
  | literal _ | unary _ _ | binary _ _ _ | logical _ _ _ | group _ | call _ _ _ | get _ _ | set _ _ _ => cases hu
  | ref id name =>
    refine (Walk.table_bind _ id name.lexeme).trans ?_
    rw [Walk.scopes_recordIf, Walk.table_recordIf]
    rfl
  | assign id name value =>
    refine (Walk.table_bind _ id name.lexeme).trans ?_
    rw [Expr.scopes_walk]
    rfl
  | self id keyword =>
    refine (Walk.table_self w a.home id keyword).trans ?_
    simp [own, Code.use?, Expr.use?, nearest?, misplaced, entering, Occurrence.enter]
  | super id keyword method => exact Walk.table_super w a.home id keyword

/-- The parts of a class are walked through one after the other. -/
theorem chained_classParts (a : Surroundings) (w : Walk) (d : List Declarations) (name : Token)
    (rs : List (Routine Stmt)) (e : Option Expr) :
    Chained w.table (classParts a w d name rs e) ((Stmt.classDecl name e rs).walk a w).table := by
  cases e with
  | none => exact ⟨(Walk.table_mark _ _ _).trans (Walk.table_introduce w name), rfl⟩
  | some e =>
    refine ⟨?_, (Walk.table_mark _ _ _).trans (Walk.table_mark _ _ _), rfl⟩
    exact (Walk.table_checkSuperclass _ name e).trans (Walk.table_introduce w name)

/-- The parts of a statement are walked through one after the other. -/
theorem chained_stmtParts (a : Surroundings) (w : Walk) (d : List Declarations) (s : Stmt) :
    Chained w.table (stmtParts a w d s) (s.walk a w).table := by
  cases s with
  | expression _ | print _ | block _ => exact ⟨rfl, rfl⟩
  | whileDo _ _ => exact ⟨rfl, rfl, rfl⟩
  | funDecl r => exact ⟨Walk.table_introduce w r.name, rfl⟩
  | varDecl name e =>
    cases e with
    | none => exact Walk.table_introduce w name
    | some e => exact ⟨Walk.table_declare w name, Walk.table_define _ name⟩
  | ret keyword e =>
    cases e with
    | none => exact Walk.table_checkReturn w keyword a.body false
    | some e => exact ⟨Walk.table_checkReturn w keyword a.body true, rfl⟩
  | ifElse _ _ no =>
    cases no with
    | none => exact ⟨rfl, rfl, rfl⟩
    | some _ => exact ⟨rfl, rfl, rfl, rfl⟩
  | classDecl name e rs => exact chained_classParts a w d name rs e

/-- The parts of a part are walked through one after the other, and then it is entered itself if it is a use. -/
theorem chained_parts (x : Stop) :
    ∃ last, Chained x.walk.table x.parts last ∧ x.after.table = x.own.foldl Occurrence.enter last := by
  obtain ⟨code, a, w, d⟩ := x
  cases code with
  | expr e =>
    cases e with
    | literal _ => exact ⟨_, rfl, rfl⟩
    | unary _ _ | group _ | get _ _ => exact ⟨_, ⟨rfl, rfl⟩, rfl⟩
    | binary _ _ _ | logical _ _ _ | call _ _ _ | set _ _ _ => exact ⟨_, ⟨rfl, rfl, rfl⟩, rfl⟩
    | ref _ _ | self _ _ | super _ _ _ => exact ⟨_, rfl, table_use rfl⟩
    | assign _ _ _ => exact ⟨_, ⟨rfl, rfl⟩, table_use rfl⟩
  | stmt s => exact ⟨_, chained_stmtParts a w d s, rfl⟩
  | exprs l | stmts l | methods l =>
    cases l with
    | nil => exact ⟨_, rfl, rfl⟩
    | cons _ _ => exact ⟨_, ⟨rfl, rfl, rfl⟩, rfl⟩
  | routine r =>
    obtain ⟨_, parameters, _⟩ := r
    exact ⟨_, ⟨Walk.table_introduceAll w.openScope parameters, rfl⟩, rfl⟩

/-- A walk enters the occurrences in a part, and nothing else. -/
theorem table_after_eq (x : Stop) : x.after.table = x.occurrences.foldl Occurrence.enter x.walk.table := by
  induction x using parts_induct with
  | step x ih =>
    -- the entries of the parts come first, and then that of the part itself
    obtain ⟨last, chained, entered⟩ := x.chained_parts
    rw [entered, chained.foldl_enter ih, occurrences_eq, List.foldl_append]

/-! ## All uses are there -/

theorem map_id_occurrences (x : Stop) : x.occurrences.map (·.id) = x.code.uses := by
  induction x using parts_induct with
  | step x ih =>
    rw [occurrences_eq, ← uses_eq, List.map_append, List.map_flatMap, own, List.map_map]
    congr 1
    exact List.flatMap_congr ih

/-- The walk comes to every occurrence. -/
theorem reaches_occurrences (x : Stop) :
    ∀ o ∈ x.occurrences, Relation.ReflTransGen (fun x y => y ∈ x.parts) x o.stop := by
  induction x using parts_induct with
  | step x ih =>
    intro o ho
    rw [occurrences_eq, List.mem_append, List.mem_flatMap] at ho
    obtain ⟨y, hy, mem⟩ | mem := ho
    · exact .head hy (ih y hy o mem)
    · obtain ⟨use, -, rfl⟩ := List.mem_map.1 mem
      exact .refl

end Stop

/-! ## Visits -/

/-- The start of a visit to a part of a program. -/
def Visitor.at (v : Visitor) (c : Code) : Stop := ⟨c, v.around, v.walk, []⟩

/-- Whether a visitor is where it was before, with the scopes that were open; names can have come to the innermost. -/
structure Visitor.Balanced (v v' : Visitor) : Prop where
  body : v'.body = v.body
  home : v'.home = v.home
  count : v'.walk.scopes.length = v.walk.scopes.length
  outer : v'.walk.scopes.tail = v.walk.scopes.tail
  innermost : ∀ name, v.walk.innermost.contains name = true → v'.walk.innermost.contains name = true

theorem Code.visit_returns (c : Code) (v : Visitor) : v.Balanced (c.visit v) := by
  rw [c.visit_eq]
  have scopes : (v.move (c.walk v.around)).walk.scopes = settle c.declared v.walk.scopes := (v.at c).scopes_after
  refine ⟨rfl, rfl, ?_, ?_, fun name has => ?_⟩
  · rw [scopes]
    cases v.walk.scopes <;> rfl
  · rw [scopes, tail_settle]
  · unfold Walk.innermost at has ⊢
    rw [scopes]
    cases hs : v.walk.scopes with
    | nil => rwa [hs] at has
    | cons scope outer =>
      rw [hs] at has
      exact (Declarations.contains_complete c.declared scope name).2 (.inr has)

/--
A visit to any part of a program, from any state and errors or not, comes back with the kinds of code and of class and
with the open scopes as they were, but for names that came to the innermost of these. On the way it looks up the uses
in the part, each once and in their order, and enters nothing else. What it enters for a use is the distance of the
nearest scope open there that has the name; it enters nothing if none has it, or if the use is the word `this` outside
of classes.
-/
theorem Code.visit_balanced (c : Code) (v : Visitor) :
    v.Balanced (c.visit v) ∧
    (v.at c).occurrences.map (·.id) = c.uses ∧
    (c.visit v).walk.table = (v.at c).occurrences.foldl Occurrence.enter v.walk.table ∧
    ∀ o ∈ (v.at c).occurrences,
      Relation.ReflTransGen (fun x y => y ∈ x.parts) (v.at c) o.stop ∧ o.Exact := by
  refine ⟨c.visit_returns v, (v.at c).map_id_occurrences, ?_, fun o ho => ?_⟩
  · rw [c.visit_eq]
    exact (v.at c).table_after_eq
  · exact ⟨(v.at c).reaches_occurrences o ho, (v.at c).exact_occurrences o ho⟩

end Lox
