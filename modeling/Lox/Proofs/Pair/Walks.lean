/-
Walking through parts that are alike. If the walk on the left finds no error, then the walk on the right finds none,
and what both enter makes the parts alike when they run. By induction on how the parts are alike: the walks move beside
each other, and come to the parts of the parts with linked scopes.
-/
import Lox.Proofs.Pair.Entries

namespace Lox

variable {c : Change} {source : Manner} {table table' : Table} {straight : Prop} {links : List Link}

/-- Whether the walks through two parts keep beside each other, and make the parts alike in the running manner. -/
def KeepBeside (c : Change) (table table' : Table) (straight : Prop) (links : List Link) (code code' : Code) : Prop :=
  ∀ ⦃a w w' d d'⦄, Stop.Checked table ⟨code, a, w, d⟩ → Stop.Entered table' ⟨code', a, w', d'⟩ →
    (code.HasFree ForLoop.slotName → Covered ForLoop.slotName links w.scopes) →
    Walk.Beside c straight links w w' →
    Walk.Beside c straight links (code.walk a w) (code'.walk a w') ∧ Alike c (.running c table table') links code code'

namespace KeepBeside

/-! ## Uses -/

theorem ref (leads : source.Leads c table straight) {id : UseId} {name name' : Token} (like : name.Like c name')
    (use : source.use links id name.lexeme name'.lexeme) :
    KeepBeside c table table' straight links (.expr (.ref id name)) (.expr (.ref id name')) := by
  intro a w w' d d' checked entered covered beside
  have entry : table.get? id = w.scopes.findIdx? (·.contains name.lexeme) := checked.clean.get?_use rfl rfl
  have finds := leads.use _ _ _ _ _ _ use entry beside.scopes fun e => e ▸ covered e
  have clean := (Walk.Leads.bind _ id name.lexeme).errors checked.clean.errors
  have begun := beside.recordIf name' clean fun h => beside.scopes.beingDeclared finds h
  have found := finds
  rw [← Walk.scopes_recordIf w, ← Walk.scopes_recordIf w'] at found
  have after := begun.bind id found
  have entry' : table'.get? id = w'.scopes.findIdx? (·.contains name'.lexeme) :=
    (entered.clean after.errors).get?_use rfl rfl
  refine ⟨after, .ref like ?_⟩
  show Finds c links (table.get? id) (table'.get? id) _ _
  rw [entry, entry']
  exact finds

theorem assign (leads : source.Leads c table straight) {id : UseId} {name name' : Token} {e e' : Expr}
    (like : name.Like c name') (use : source.use links id name.lexeme name'.lexeme)
    (h : KeepBeside c table table' straight links (.expr e) (.expr e')) :
    KeepBeside c table table' straight links (.expr (.assign id name e)) (.expr (.assign id name' e')) := by
  intro a w w' d d' checked entered covered beside
  have entry : table.get? id = w.scopes.findIdx? (·.contains name.lexeme) := checked.clean.get?_use rfl rfl
  have finds := leads.use _ _ _ _ _ _ use entry beside.scopes fun e => e ▸ covered (.inl e)
  obtain ⟨begun, alike⟩ := h (checked.part List.mem_cons_self) (entered.part List.mem_cons_self)
    (fun hf => covered (.inr hf)) beside
  have found := finds
  rw [← Expr.scopes_walk a.home e w, ← Expr.scopes_walk a.home e' w'] at found
  have after := begun.bind id found
  have entry' : table'.get? id = w'.scopes.findIdx? (·.contains name'.lexeme) :=
    (entered.clean after.errors).get?_use rfl rfl
  refine ⟨after, .assign like ?_ alike⟩
  show Finds c links (table.get? id) (table'.get? id) _ _
  rw [entry, entry']
  exact finds

theorem self (proper : c.Proper) {id : UseId} {keyword : Token} (word : keyword.lexeme = thisName) :
    KeepBeside c table table' straight links (.expr (.self id keyword)) (.expr (.self id keyword)) := by
  intro a w w' d d' checked entered covered beside
  have entry : table.get? id = w.scopes.findIdx? (·.contains thisName) := checked.clean.get?_use rfl rfl
  have finds := beside.scopes.finds_word proper fun h : Nameable thisName => h.1 rfl
  have home : a.home ≠ .noClass := checked.clean.in_class rfl
  have moves (w : Walk) : (Code.expr (.self id keyword)).walk a w = w.bind id thisName := if_neg home
  have after := beside.bind id finds
  rw [← moves, ← moves] at after
  have entry' : table'.get? id = w'.scopes.findIdx? (·.contains thisName) :=
    (entered.clean after.errors).get?_use rfl rfl
  refine ⟨after, .self word ?_⟩
  show Finds c links (table.get? id) (table'.get? id) _ _
  rw [entry, entry']
  exact finds

theorem super (proper : c.Proper) {id : UseId} (keyword method : Token) :
    KeepBeside c table table' straight links (.expr (.super id keyword method))
      (.expr (.super id keyword method)) := by
  intro a w w' d d' checked entered covered beside
  have finds := beside.scopes.finds_word proper fun h : Nameable superName => h.2 rfl
  have this := beside.scopes.finds_word proper fun h : Nameable thisName => h.1 rfl
  have home : a.home = .subclass := checked.clean.in_subclass rfl
  have moves (w : Walk) : (Code.expr (.super id keyword method)).walk a w = w.bind id superName := by
    simp [Code.walk, Expr.walk, Walk.super, home, Home.superFault?]
  have after := beside.bind id finds
  rw [← moves, ← moves] at after
  obtain ⟨i, hi, hj⟩ := checked.super_at rfl
  have entry : table.get? id = w.scopes.findIdx? (·.contains superName) := checked.clean.get?_use rfl rfl
  have entry' : table'.get? id = w'.scopes.findIdx? (·.contains superName) :=
    (entered.clean after.errors).get?_use rfl rfl
  rw [hi] at this
  rw [hj] at finds entry
  -- on the right the words are one scope apart too
  obtain ⟨j, hj'⟩ := this.isSome
  obtain ⟨k, hk⟩ := finds.isSome
  rw [hj'] at this
  rw [hk] at finds entry'
  cases this.next finds
  exact ⟨after, .super keyword method ⟨i, j, entry, entry', finds, this⟩⟩

/-! ## Expressions -/

/-- Two parts of which the first is an expression, as parts of another one. -/
theorem two {code code' : Code} {e e' : Expr} {rest rest' : Code}
    (parts : ∀ a w d, Stop.parts ⟨code, a, w, d⟩ = [⟨.expr e, a, w, d⟩, ⟨rest, a, e.walk a.home w, d⟩])
    (parts' : ∀ a w d, Stop.parts ⟨code', a, w, d⟩ = [⟨.expr e', a, w, d⟩, ⟨rest', a, e'.walk a.home w, d⟩])
    (walk : ∀ a w, code.walk a w = rest.walk a (e.walk a.home w))
    (walk' : ∀ a w, code'.walk a w = rest'.walk a (e'.walk a.home w))
    (free : e.HasFree ForLoop.slotName ∨ rest.HasFree ForLoop.slotName → code.HasFree ForLoop.slotName)
    (alike : Alike c (.running c table table') links (.expr e) (.expr e') →
      Alike c (.running c table table') links rest rest' → Alike c (.running c table table') links code code')
    (first : KeepBeside c table table' straight links (.expr e) (.expr e'))
    (second : KeepBeside c table table' straight links rest rest') :
    KeepBeside c table table' straight links code code' := by
  intro a w w' d d' checked entered covered beside
  have mem := parts a w d
  have mem' := parts' a w' d'
  obtain ⟨middle, like⟩ := first (checked.part (by rw [mem]; exact List.mem_cons_self))
    (entered.part (by rw [mem']; exact List.mem_cons_self)) (fun hf => covered (free (.inl hf))) beside
  obtain ⟨after, like'⟩ := second (checked.part (by rw [mem]; exact .tail _ List.mem_cons_self))
    (entered.part (by rw [mem']; exact .tail _ List.mem_cons_self))
    (fun hf => by rw [Code.walk, Expr.scopes_walk]; exact covered (free (.inr hf))) middle
  rw [walk, walk']
  exact ⟨after, alike like like'⟩

/-- An expression as the only part. -/
theorem one {code code' : Code} {e e' : Expr}
    (parts : ∀ a w d, Stop.parts ⟨code, a, w, d⟩ = [⟨.expr e, a, w, d⟩])
    (parts' : ∀ a w d, Stop.parts ⟨code', a, w, d⟩ = [⟨.expr e', a, w, d⟩])
    (walk : ∀ a w, code.walk a w = e.walk a.home w) (walk' : ∀ a w, code'.walk a w = e'.walk a.home w)
    (free : e.HasFree ForLoop.slotName → code.HasFree ForLoop.slotName)
    (alike : Alike c (.running c table table') links (.expr e) (.expr e') →
      Alike c (.running c table table') links code code')
    (h : KeepBeside c table table' straight links (.expr e) (.expr e')) :
    KeepBeside c table table' straight links code code' := by
  intro a w w' d d' checked entered covered beside
  obtain ⟨after, like⟩ := h (checked.part (by rw [parts]; exact List.mem_cons_self))
    (entered.part (by rw [parts']; exact List.mem_cons_self)) (fun hf => covered (free hf)) beside
  rw [walk, walk']
  exact ⟨after, alike like⟩

/-! ## Statements -/

theorem varDecl {name name' : Token} (like : name.Like c name') (declares : Declares c links name.lexeme name'.lexeme) :
    KeepBeside c table table' straight links (.stmt (.varDecl name none)) (.stmt (.varDecl name' none)) := by
  intro a w w' d d' checked entered covered beside
  have clean := (Walk.Leads.define _ name).errors checked.clean.errors
  exact ⟨(beside.declare declares clean).define declares, .varDecl like declares⟩

theorem varInit {name name' : Token} {e e' : Expr} (like : name.Like c name')
    (declares : Declares c links name.lexeme name'.lexeme)
    (h : KeepBeside c table table' straight links (.expr e) (.expr e')) :
    KeepBeside c table table' straight links (.stmt (.varDecl name (some e))) (.stmt (.varDecl name' (some e'))) := by
  intro a w w' d d' checked entered covered beside
  have inside : Stop.Checked table ⟨.expr e, a, w.declare name, d⟩ := checked.part List.mem_cons_self
  have begun := beside.declare declares inside.clean.before
  obtain ⟨after, alike⟩ := h inside (entered.part List.mem_cons_self)
    (fun hf => (covered ⟨e, rfl, hf⟩).declare name) begun
  exact ⟨after.define declares, .varInit like declares alike⟩

theorem block (tie : Tie) {ss ss' : List Stmt}
    (h : KeepBeside c table table' straight (.scope tie :: links) (.stmts ss) (.stmts ss')) :
    KeepBeside c table table' straight links (.stmt (.block ss)) (.stmt (.block ss')) := by
  intro a w w' d d' checked entered covered beside
  obtain ⟨after, alike⟩ := h (checked.part List.mem_cons_self) (entered.part List.mem_cons_self)
    (fun hf => (covered hf).inner tie) (beside.openScope tie)
  exact ⟨after.closeScope, .block tie alike⟩

theorem ifElse {e e' : Expr} {s s' t t' : Stmt}
    (condition : KeepBeside c table table' straight links (.expr e) (.expr e'))
    (yes : KeepBeside c table table' straight links (.stmt s) (.stmt s'))
    (no : KeepBeside c table table' straight links (.stmt t) (.stmt t')) :
    KeepBeside c table table' straight links (.stmt (.ifElse e s (some t))) (.stmt (.ifElse e' s' (some t'))) := by
  intro a w w' d d' checked entered covered beside
  obtain ⟨first, alike⟩ := condition (checked.part List.mem_cons_self) (entered.part List.mem_cons_self)
    (fun hf => covered (.inl hf)) beside
  obtain ⟨second, alike'⟩ := yes (checked.part (.tail _ List.mem_cons_self)) (entered.part (.tail _ List.mem_cons_self))
    (fun hf => by rw [Code.walk, Expr.scopes_walk]; exact covered (.inr (.inl hf))) first
  obtain ⟨after, alike''⟩ := no (checked.part (.tail _ (.tail _ List.mem_cons_self)))
    (entered.part (.tail _ (.tail _ List.mem_cons_self)))
    (fun hf => by
      show Covered _ _ (s.walk a (e.walk a.home w)).scopes
      rw [Stmt.scopes_walk, Expr.scopes_walk]
      exact (covered (.inr (.inr hf))).settle _) second
  exact ⟨after, .ifElse alike alike' alike''⟩

theorem funDecl {r r' : Routine Stmt} (plain : ∀ link ∈ links, link.Plain)
    (declares : Declares c links r.name.lexeme r.name.lexeme) (same : r'.name = r.name)
    (h : KeepBeside c table table' straight links (.routine r) (.routine r')) :
    KeepBeside c table table' straight links (.stmt (.funDecl r)) (.stmt (.funDecl r')) := by
  intro a w w' d d' checked entered covered beside
  have inside : Stop.Checked table ⟨.routine r, { a with body := .function }, w.introduce r.name, d⟩ :=
    checked.part List.mem_cons_self
  have begun : Walk.Beside c straight links (w.introduce r.name) (w'.introduce r'.name) := by
    rw [same]
    exact beside.introduce declares inside.clean.before
  obtain ⟨after, alike⟩ := h inside (entered.part List.mem_cons_self)
    (fun hf => by rw [Walk.scopes_introduce]; exact (covered hf).settle _) begun
  exact ⟨after, .funDecl plain declares alike⟩

theorem retValue (keyword : Token) {e e' : Expr} (h : KeepBeside c table table' straight links (.expr e) (.expr e')) :
    KeepBeside c table table' straight links (.stmt (.ret keyword (some e))) (.stmt (.ret keyword (some e'))) := by
  intro a w w' d d' checked entered covered beside
  have inside : Stop.Checked table ⟨.expr e, a, w.checkReturn a.body keyword true, d⟩ :=
    checked.part List.mem_cons_self
  obtain ⟨after, alike⟩ := h inside (entered.part List.mem_cons_self)
    (fun hf => by rw [Walk.scopes_checkReturn]; exact covered ⟨e, rfl, hf⟩)
    (beside.checkReturn inside.clean.before)
  exact ⟨after, .retValue keyword alike⟩

theorem moreStmts {s s' : Stmt} {ss ss' : List Stmt} (declared : List.Forall₂ (Declares c links) s.declared s'.declared)
    (first : KeepBeside c table table' straight links (.stmt s) (.stmt s'))
    (rest : KeepBeside c table table' straight links (.stmts ss) (.stmts ss')) :
    KeepBeside c table table' straight links (.stmts (s :: ss)) (.stmts (s' :: ss')) := by
  intro a w w' d d' checked entered covered beside
  obtain ⟨middle, alike⟩ := first (checked.part List.mem_cons_self) (entered.part List.mem_cons_self)
    (fun hf => covered (.inl hf)) beside
  obtain ⟨after, alike'⟩ := rest (checked.part (.tail _ List.mem_cons_self)) (entered.part (.tail _ List.mem_cons_self))
    (fun hf => by
      rw [Code.walk, Stmt.scopes_walk]
      by_cases mem : ForLoop.slotName ∈ s.declared
      · exact .of_declared beside.scopes declared mem
      · exact (covered (.inr ⟨mem, hf⟩)).settle _) middle
  exact ⟨after, .moreStmts alike alike'⟩

/-! ## Routines and classes -/

theorem routine (name : Token) {tie : Tie} (plain : tie.Plain) {ps ps' : List Token} {ss ss' : List Stmt}
    (parameters : List.Forall₂ (fun p p' : Token => tie.Names c p.lexeme p'.lexeme) ps ps')
    (h : KeepBeside c table table' straight (.scope tie :: links) (.stmts ss) (.stmts ss')) :
    KeepBeside c table table' straight links (.routine ⟨name, ps, ss⟩) (.routine ⟨name, ps', ss'⟩) := by
  intro a w w' d d' checked entered covered beside
  have inside : Stop.Checked table ⟨.stmts ss, a, ps.foldl Walk.introduce w.openScope, _⟩ :=
    checked.part List.mem_cons_self
  have opened := (beside.openScope tie).introduceAll parameters inside.clean.before
  obtain ⟨after, alike⟩ := h inside (entered.part List.mem_cons_self)
    (fun hf => by
      rw [Walk.scopes_introduceAll]
      by_cases mem : ForLoop.slotName ∈ ps.map (·.lexeme)
      · exact .inl ((Declarations.contains_complete _ _ _).2 (.inl mem))
      · exact ((covered ⟨mem, hf⟩).inner tie).settle _) opened
  exact ⟨after.closeScope, .routine name tie plain parameters alike⟩

theorem moreMethods {r r' : Routine Stmt} {rs rs' : List (Routine Stmt)} (same : r'.name = r.name)
    (first : KeepBeside c table table' straight links (.routine r) (.routine r'))
    (rest : KeepBeside c table table' straight links (.methods rs) (.methods rs')) :
    KeepBeside c table table' straight links (.methods (r :: rs)) (.methods (r' :: rs')) := by
  intro a w w' d d' checked entered covered beside
  have body : r'.methodBody = r.methodBody := by rw [Routine.methodBody, Routine.isInitializer, same]; rfl
  have inside : Stop.Entered table' ⟨.routine r', ⟨r'.methodBody, a.home⟩, w', d'⟩ := entered.part List.mem_cons_self
  have others : Stop.Entered table' ⟨.methods rs', a, walkRoutine ⟨r'.methodBody, a.home⟩ r' w', d'⟩ :=
    entered.part (.tail _ List.mem_cons_self)
  rw [body] at inside others
  obtain ⟨middle, alike⟩ := first (checked.part List.mem_cons_self) inside (fun hf => covered (.inl hf)) beside
  obtain ⟨after, alike'⟩ := rest (checked.part (.tail _ List.mem_cons_self)) others
    (fun hf => by rw [Code.walk, scopes_walkRoutine]; exact covered (.inr hf)) middle
  refine ⟨?_, .moreMethods alike alike'⟩
  show Walk.Beside c straight links _ (walkMethods a.home rs' (walkRoutine ⟨r'.methodBody, a.home⟩ r' w'))
  rw [body]
  exact after

theorem classDecl {name : Token} {rs rs' : List (Routine Stmt)} (proper : c.Proper)
    (plain : ∀ link ∈ links, link.Plain) (declares : Declares c links name.lexeme name.lexeme)
    (h : KeepBeside c table table' straight (.scope .same :: links) (.methods rs) (.methods rs')) :
    KeepBeside c table table' straight links (.stmt (.classDecl name none rs)) (.stmt (.classDecl name none rs')) := by
  intro a w w' d d' checked entered covered beside
  have inside : Stop.Checked table ⟨.methods rs, { a with home := .plainClass },
      (w.introduce name).openWordScope thisName, _⟩ := checked.part List.mem_cons_self
  have begun := beside.introduce declares ((Walk.Leads.openWordScope _ thisName).errors inside.clean.before)
  have opened := begun.openWordScope proper thisName fun h => h.1 rfl
  obtain ⟨after, alike⟩ := h inside (entered.part List.mem_cons_self)
    (fun hf => by
      rw [Walk.scopes_openWordScope, Walk.scopes_introduce]
      exact ((covered hf).settle _).inner .same) opened
  exact ⟨after.closeScope, .classDecl plain declares alike⟩

theorem subclass {name : Token} {e e' : Expr} {rs rs' : List (Routine Stmt)} (proper : c.Proper)
    (plain : ∀ link ∈ links, link.Plain) (declares : Declares c links name.lexeme name.lexeme)
    (written : Alike c source links (.expr e) (.expr e'))
    (superclass : KeepBeside c table table' straight links (.expr e) (.expr e'))
    (h : KeepBeside c table table' straight (.scope .same :: .scope .same :: links) (.methods rs) (.methods rs')) :
    KeepBeside c table table' straight links (.stmt (.classDecl name (some e) rs))
      (.stmt (.classDecl name (some e') rs')) := by
  intro a w w' d d' checked entered covered beside
  have named : Stop.Checked table ⟨.expr e, { a with home := .subclass },
      (w.introduce name).checkSuperclass name e, d⟩ := checked.part List.mem_cons_self
  have clean := named.clean.before
  have begun := (beside.introduce declares ((Walk.Leads.checkSuperclass _ name e).errors clean)).checkSuperclass
    written (declares.allows plain) clean
  obtain ⟨middle, alike⟩ := superclass named (entered.part List.mem_cons_self)
    (fun hf => by
      rw [Walk.scopes_checkSuperclass, Walk.scopes_introduce]
      exact (covered (.inl hf)).settle _) begun
  have opened := (middle.openWordScope proper superName fun h => h.2 rfl).openWordScope proper thisName fun h => h.1 rfl
  obtain ⟨after, alike'⟩ := h (checked.part (.tail _ List.mem_cons_self)) (entered.part (.tail _ List.mem_cons_self))
    (fun hf => by
      rw [Walk.scopes_openWordScope, Walk.scopes_openWordScope, Code.walk, Expr.scopes_walk,
        Walk.scopes_checkSuperclass, Walk.scopes_introduce]
      exact (((covered (.inr hf)).settle _).inner .same).inner .same) opened
  exact ⟨after.closeScope.closeScope, .subclass plain declares alike alike'⟩

/-! ## Loops -/

/-- The scopes of a pass are linked to those of the plain loop. -/
theorem mirrors_pass {name : String} (nameable : Nameable name) (others : List Declarations)
    {scopes scopes' : List Declarations}
    (hidden : ∀ own ∈ others, ∀ n, own.contains n = false) (rest : Mirrors c links scopes scopes') :
    Mirrors c (.pass name (others.length + 2) :: links)
      (Bindings.empty.set name true :: Bindings.empty.set ForLoop.slotName true ::
        (others ++ Bindings.empty.set name true :: scopes))
      (.empty :: Bindings.empty.set name true :: scopes') := by
  have word (word n : String) : Bindings.contains (Bindings.empty.set word true) n = true ↔ n = word := by
    simp [Bindings.contains]
  have linked : Mirrors c (.pass name (others.length + 2) :: links)
      (Bindings.empty.set name true ::
        ((Bindings.empty.set ForLoop.slotName true :: (others ++ [Bindings.empty.set name true])) ++ scopes))
      (.empty :: Bindings.empty.set name true :: scopes') := by
    refine .pass nameable (by simp) (word name) (fun own ho n hn => ?_) (fun _ => rfl) (word name) (by simp) rest
    rcases List.mem_cons.1 ho with rfl | ho
    · exact .inr ((word _ n).1 hn)
    · rcases List.mem_append.1 ho with ho | ho
      · rw [hidden own ho n] at hn
        cases hn
      · cases List.mem_singleton.1 ho
        exact .inl ((word _ n).1 hn)
  simpa using linked

/-- Walks in which no error was found are beside each other if their scopes are linked, where there is a loop. -/
theorem beside_of_mirrors (turns : ¬ straight) {w w' : Walk} (scopes : Mirrors c links w.scopes w'.scopes)
    (errors : w'.errors = #[]) : Walk.Beside c straight links w w' :=
  ⟨scopes, errors, fun h => absurd h turns, fun h => absurd h turns⟩

/-- Statements that declare nothing leave the scopes linked as they are. -/
theorem mirrors_walk {s s' : Stmt} (nothing : s.declared = [] ∧ s'.declared = []) (a : Surroundings) {w w' : Walk}
    (h : Mirrors c links w.scopes w'.scopes) : Mirrors c links (s.walk a w).scopes (s'.walk a w').scopes := by
  rw [Stmt.scopes_walk, Stmt.scopes_walk, nothing.1, nothing.2, settle_nil, settle_nil]
  exact h

theorem forLoop (turns : ¬ straight) {id : UseId} {s s' : Stmt} {name : Token}
    {initial initial' condition condition' increment increment' : Option Expr} (nameable : Nameable name.lexeme)
    (other : name.lexeme ≠ ForLoop.slotName) (closed : ¬ s.HasFree ForLoop.slotName)
    (nothing : s.declared = [] ∧ s'.declared = [])
    (written : Alike c source (.scope .same :: .scope (.only name.lexeme) :: links)
      (.stmts (ForLoop.lastClause increment)) (.stmts (ForLoop.lastClause increment')))
    (first : KeepBeside c table table' straight (.scope (.only name.lexeme) :: links) (.stmt (.varDecl name initial))
      (.stmt (.varDecl name initial')))
    (test : KeepBeside c table table' straight (.scope (.only name.lexeme) :: links)
      (.expr (ForLoop.test condition)) (.expr (ForLoop.test condition')))
    (clause : KeepBeside c table table' straight (.scope .same :: .scope (.only name.lexeme) :: links)
      (.stmts (ForLoop.lastClause increment)) (.stmts (ForLoop.lastClause increment')))
    (body : KeepBeside c table table' straight (.pass name.lexeme (ForLoop.scopesAround increment) :: links) (.stmt s)
      (.stmt s')) :
    KeepBeside c table table' straight links (.stmt (ForLoop.copying name initial condition increment id s))
      (.stmt (ForLoop.plain name initial' condition' increment' s')) := by
  intro a w w' d d' checked entered covered beside
  have reached : Reached table a (.stmt (ForLoop.copying name initial condition increment id s)) w := ⟨d, checked⟩
  have slot : ForLoop.slotName ∉ (Stmt.varDecl name initial).declared := by simpa [Stmt.declared] using other.symm
  -- the variable is declared on both sides
  have declaration := entered.part List.mem_cons_self
  obtain ⟨_, left⟩ := reached.inBlock.first
  obtain ⟨begun, alike⟩ := first left (declaration.part List.mem_cons_self) (fun hf => (covered (.inl hf)).inner _)
    (beside.openScope _)
  have loop := (declaration.part (.tail _ List.mem_cons_self)).part List.mem_cons_self
  obtain ⟨_, left⟩ := reached.inBlock.rest.first
  obtain ⟨tested, alikeTest⟩ := test (left.part List.mem_cons_self) (loop.part List.mem_cons_self)
    (fun hf => by
      show Covered _ _ (Stmt.walk a (.varDecl name initial) w.openScope).scopes
      rw [Stmt.scopes_walk]
      exact ((covered (.inr ⟨slot, .inl (.inl hf)⟩)).inner _).settle _) begun
  -- on the right the body stands in a block in the scope of the variable
  have block := (loop.part (.tail _ List.mem_cons_self)).part List.mem_cons_self
  obtain ⟨copies, inside, others, ⟨_, stands⟩, around, hidden, opened⟩ := reached.bodyOfLoop other nothing.1
  have linked : Mirrors c (.pass name.lexeme (ForLoop.scopesAround increment) :: links) inside.scopes
      ((ForLoop.test condition').walk a.home ((Stmt.varDecl name initial').walk a w'.openScope)).openScope.scopes := by
    rw [opened, ← around, Walk.scopes_openScope, ForLoop.scopes_test]
    exact mirrors_pass nameable others hidden beside.scopes
  obtain ⟨after, alikeBody⟩ := body stands (block.part List.mem_cons_self) (fun hf => absurd hf closed)
    (beside_of_mirrors turns linked tested.errors)
  -- in the end all scopes of the loop are closed again
  have outside : Mirrors c links ((Code.stmt (ForLoop.copying name initial condition increment id s)).walk a w).scopes
      ((Code.stmt (ForLoop.plain name initial' condition' increment' s')).walk a w').scopes :=
    mirrors_walk ⟨rfl, rfl⟩ a beside.scopes
  cases increment with
  | none =>
    cases increment' with
    | some e => cases written
    | none =>
      refine ⟨beside_of_mirrors turns outside after.errors, .block _ (.moreStmts alike (.moreStmts ?_ .noStmts))⟩
      exact .passes other copies alikeTest .noStmts alikeBody
  | some e =>
    -- the last clause stands in an empty scope, after the pass on the left and after the body on the right
    have again : Reached table a (.stmt (ForLoop.withIncrement (some e) (ForLoop.pass id name s)))
        ((ForLoop.test condition).walk a.home ((Stmt.varDecl name initial).walk a w.openScope)) :=
      ⟨_, left.part (.tail _ List.mem_cons_self)⟩
    obtain ⟨_, last⟩ := again.inBlock.rest
    have tied : Mirrors c (.scope .same :: .scope (.only name.lexeme) :: links)
        ((ForLoop.test condition).walk a.home ((Stmt.varDecl name initial).walk a w.openScope)).openScope.scopes
        ((ForLoop.test condition').walk a.home ((Stmt.varDecl name initial').walk a w'.openScope)).openScope.scopes := by
      rw [Walk.scopes_openScope, Walk.scopes_openScope, ForLoop.scopes_test, ForLoop.scopes_test]
      have variable_ := (Declarations.mirror_empty c (.only name.lexeme)).set ⟨rfl, rfl⟩ true
      exact .scope (Declarations.mirror_empty c .same) (.scope variable_ beside.scopes)
    obtain ⟨finished, alikeClause⟩ := clause last (block.part (.tail _ List.mem_cons_self))
      (fun hf => by
        have free : (Stmt.whileDo (ForLoop.test condition)
            (ForLoop.withIncrement (some e) (ForLoop.pass id name s))).HasFree ForLoop.slotName :=
          .inr (.inr ⟨List.not_mem_nil, hf⟩)
        rw [Stmt.scopes_walk, Walk.scopes_openScope, ForLoop.scopes_test]
        exact (((covered (.inr ⟨slot, .inl free⟩)).inner _).inner _).settle _)
      (beside_of_mirrors turns (mirrors_walk ⟨rfl, nothing.2⟩ a tied) after.errors)
    refine ⟨beside_of_mirrors turns outside finished.errors, .block _ (.moreStmts alike (.moreStmts ?_ .noStmts))⟩
    exact .passes other copies alikeTest alikeClause alikeBody

end KeepBeside


theorem Alike.keepBeside {code code' : Code} (h : Alike c source links code code') (proper : c.Proper)
    (leads : source.Leads c table straight) : KeepBeside c table table' straight links code code' := by
  induction h with
  | literal value => exact fun _ _ _ _ _ _ _ _ beside => ⟨beside, .literal value⟩
  | unary operator _ ih =>
    exact .one (fun _ _ _ => rfl) (fun _ _ _ => rfl) (fun _ _ => rfl) (fun _ _ => rfl) id (.unary operator) ih
  | group _ ih => exact .one (fun _ _ _ => rfl) (fun _ _ _ => rfl) (fun _ _ => rfl) (fun _ _ => rfl) id .group ih
  | get name _ ih =>
    exact .one (fun _ _ _ => rfl) (fun _ _ _ => rfl) (fun _ _ => rfl) (fun _ _ => rfl) id (.get name) ih
  | expression _ ih =>
    exact .one (fun _ _ _ => rfl) (fun _ _ _ => rfl) (fun _ _ => rfl) (fun _ _ => rfl) id .expression ih
  | print _ ih => exact .one (fun _ _ _ => rfl) (fun _ _ _ => rfl) (fun _ _ => rfl) (fun _ _ => rfl) id .print ih
  | binary operator _ _ ih ih' =>
    exact .two (fun _ _ _ => rfl) (fun _ _ _ => rfl) (fun _ _ => rfl) (fun _ _ => rfl) id (.binary operator) ih ih'
  | logical operator _ _ ih ih' =>
    exact .two (fun _ _ _ => rfl) (fun _ _ _ => rfl) (fun _ _ => rfl) (fun _ _ => rfl) id (.logical operator) ih ih'
  | call paren _ _ ih ih' =>
    exact .two (fun _ _ _ => rfl) (fun _ _ _ => rfl) (fun _ _ => rfl) (fun _ _ => rfl) id (.call paren) ih ih'
  | set name _ _ ih ih' =>
    exact .two (fun _ _ _ => rfl) (fun _ _ _ => rfl) (fun _ _ => rfl) (fun _ _ => rfl) Or.symm
      (fun value object => .set name object value) ih' ih
  | moreExprs _ _ ih ih' =>
    exact .two (fun _ _ _ => rfl) (fun _ _ _ => rfl) (fun _ _ => rfl) (fun _ _ => rfl) id .moreExprs ih ih'
  | ifThen _ _ ih ih' =>
    exact .two (fun _ _ _ => rfl) (fun _ _ _ => rfl) (fun _ _ => rfl) (fun _ _ => rfl) id .ifThen ih ih'
  | whileDo _ _ ih ih' =>
    exact .two (fun _ _ _ => rfl) (fun _ _ _ => rfl) (fun _ _ => rfl) (fun _ _ => rfl) id .whileDo ih ih'
  | ref like use => exact .ref leads like use
  | assign like use _ ih => exact .assign leads like use ih
  | self word use => exact .self proper word
  | super keyword method use => exact .super proper keyword method
  | noExprs => exact fun _ _ _ _ _ _ _ _ beside => ⟨beside, .noExprs⟩
  | varDecl like declares => exact .varDecl like declares
  | varInit like declares _ ih => exact .varInit like declares ih
  | block tie _ ih => exact .block tie ih
  | ifElse _ _ _ ih ih' ih'' => exact .ifElse ih ih' ih''
  | funDecl plain declares h ih => exact .funDecl plain declares h.routine_eq.1 ih
  | ret keyword =>
    exact fun _ _ _ _ _ checked _ _ beside => ⟨beside.checkReturn checked.clean.errors, .ret keyword⟩
  | retValue keyword _ ih => exact .retValue keyword ih
  | classDecl plain declares _ ih => exact .classDecl proper plain declares ih
  | subclass plain declares superclass _ ih ih' => exact .subclass proper plain declares superclass ih ih'
  | noStmts => exact fun _ _ _ _ _ _ _ _ beside => ⟨beside, .noStmts⟩
  | moreStmts first _ ih ih' => exact .moreStmts first.declared ih ih'
  | routine name tie plain parameters _ ih => exact .routine name plain parameters ih
  | noMethods => exact fun _ _ _ _ _ _ _ _ beside => ⟨beside, .noMethods⟩
  | moreMethods first _ ih ih' => exact .moreMethods first.routine_eq.1 ih ih'
  | forLoop loops nameable other closed _ _ clause body ihFirst ihTest ihClause ihBody =>
    exact .forLoop (fun h => leads.loops h loops) nameable other closed body.declares_nothing clause ihFirst ihTest
      ihClause ihBody
  | passes _ copies _ _ _ => exact absurd copies (leads.copies _ _)

end Lox
