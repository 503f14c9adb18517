/-
Where the errors of a part of a program point that is written with tokens of some kind: the rules that it breaks and
the failures that it can come to are reported at these tokens (`Code.Written.reportsAt`). The only token that is made
up, the slot of a loop, is declared once in a scope of its own and completely, so no rule on names is ever broken there.
-/
import Lox.Proofs.Binding.Sites
import Lox.Proofs.Grammar.Slot
import Lox.Proofs.Tree.Sited

namespace Lox

open ForLoop

/-- Whether a part of a program breaks rules and fails at tokens of this kind only, and leaves the slot alone that is
declared where it stands. -/
structure Code.ReportsAt (site : Token → Prop) (code : Code) : Prop where
  fails : code.Sited site
  walk : ∀ around (w : Walk), w.Sited site → (code.walk around w).Sited site
  other : slotName ∉ code.declared

variable {site : Token → Prop}

/-! ## Expressions -/

theorem Expr.walkAll_sited {home : Home} {es : List Expr}
    (h : ∀ e ∈ es, ∀ w : Walk, w.Sited site → (e.walk home w).Sited site) :
    ∀ w : Walk, w.Sited site → (Expr.walkAll home es w).Sited site := by
  induction es with
  | nil => exact fun _ hw => hw
  | cons e es ih =>
    obtain ⟨first, rest⟩ := List.forall_mem_cons.1 h
    exact fun w hw => ih rest _ (first w hw)

theorem Code.reportsAt_ref {name : Token} (own : site name) (id : UseId) : (expr (.ref id name)).ReportsAt site := by
  refine ⟨List.forall_mem_singleton.2 (.inl own), fun around w hw => ?_, List.not_mem_nil⟩
  exact (hw.recordIf _ fun _ => own).bind _ _

theorem Expr.Written.reportsAt {k : Nat} {e : Expr} {w : List Token} (h : e.Written k w) (hw : ∀ t ∈ w, site t) :
    (Code.expr e).ReportsAt site := by
  induction h with
  | literal _ _ => exact ⟨List.forall_mem_singleton.2 trivial, fun _ _ hv => hv, List.not_mem_nil⟩
  | ref _ _ => exact Code.reportsAt_ref (hw _ List.mem_cons_self) _
  | self _ _ =>
    have own := hw _ List.mem_cons_self
    exact ⟨List.forall_mem_singleton.2 own, fun _ _ hv => hv.self _ _ own, List.not_mem_nil⟩
  | super _ _ _ _ =>
    simp only [List.forall_mem_cons] at hw
    exact ⟨List.forall_mem_singleton.2 ⟨hw.1, hw.2.2.1⟩, fun _ _ hv => hv.super _ _ hw.1, List.not_mem_nil⟩
  | group _ _ _ _ ih =>
    simp only [List.forall_mem_cons, List.forall_mem_append] at hw
    have inner := ih hw.2.1
    exact ⟨List.forall_mem_cons.2 ⟨trivial, inner.fails⟩, inner.walk, List.not_mem_nil⟩
  | @call _ callee _ paren entries _ _ _ _ _ _ _ _ separated ih ihs =>
    simp only [List.forall_mem_cons, List.forall_mem_append] at hw
    have callee := ih hw.1
    have arguments : ∀ e ∈ entries.map (·.1), (Code.expr e).ReportsAt site := by
      intro e he
      obtain ⟨entry, mem, rfl⟩ := List.mem_map.1 he
      exact ihs entry mem fun t ht => hw.2.2.1 t (separated.subset (List.mem_map_of_mem mem) t ht)
    refine ⟨List.forall_mem_cons.2 ⟨hw.2.2.2.1, List.forall_mem_append.2 ⟨callee.fails, ?_⟩⟩, ?_, List.not_mem_nil⟩
    · exact Code.sited_exprs fun e he => (arguments e he).fails
    · exact fun around v hv => Expr.walkAll_sited (fun e he => (arguments e he).walk around) _ (callee.walk around v hv)
  | get _ _ _ _ ih =>
    simp only [List.forall_mem_cons, List.forall_mem_append] at hw
    have object := ih hw.1
    exact ⟨List.forall_mem_cons.2 ⟨hw.2.2.1, object.fails⟩, object.walk, List.not_mem_nil⟩
  | unary _ _ _ ih =>
    simp only [List.forall_mem_cons] at hw
    have operand := ih hw.2
    exact ⟨List.forall_mem_cons.2 ⟨hw.1, operand.fails⟩, operand.walk, List.not_mem_nil⟩
  | logical _ _ _ _ _ ih ih' =>
    simp only [List.forall_mem_cons, List.forall_mem_append] at hw
    have left := ih hw.1
    have right := ih' hw.2.2
    refine ⟨List.forall_mem_cons.2 ⟨trivial, List.forall_mem_append.2 ⟨left.fails, right.fails⟩⟩, ?_, List.not_mem_nil⟩
    exact fun around v hv => right.walk around _ (left.walk around v hv)
  | binary _ _ _ _ _ ih ih' =>
    simp only [List.forall_mem_cons, List.forall_mem_append] at hw
    have left := ih hw.1
    have right := ih' hw.2.2
    refine ⟨List.forall_mem_cons.2 ⟨hw.2.1, List.forall_mem_append.2 ⟨left.fails, right.fails⟩⟩, ?_, List.not_mem_nil⟩
    exact fun around v hv => right.walk around _ (left.walk around v hv)
  | assign _ _ _ ih =>
    simp only [List.forall_mem_cons] at hw
    have value := ih hw.2.2
    refine ⟨List.forall_mem_cons.2 ⟨.inl hw.1, value.fails⟩, ?_, List.not_mem_nil⟩
    exact fun around v hv => (value.walk around v hv).bind _ _
  | set _ _ _ _ _ ih ih' =>
    simp only [List.forall_mem_cons, List.forall_mem_append] at hw
    have object := ih hw.1
    have value := ih' hw.2.2.2.2
    have parts := List.forall_mem_append.2 ⟨value.fails, object.fails⟩
    refine ⟨List.forall_mem_cons.2 ⟨hw.2.2.1, parts⟩, fun around v hv => ?_, List.not_mem_nil⟩
    exact object.walk around _ (value.walk around v hv)

theorem Expr.WrittenOption.reportsAt {e : Option Expr} {w : List Token} (h : Expr.WrittenOption e w)
    (hw : ∀ t ∈ w, site t) : ∀ x ∈ e, (Code.expr x).ReportsAt site := by
  cases h with
  | none => nofun
  | some h =>
    rintro _ ⟨⟩
    exact h.reportsAt hw

theorem Expr.WrittenInitial.reportsAt {e : Option Expr} {w : List Token} (h : Expr.WrittenInitial e w)
    (hw : ∀ t ∈ w, site t) : ∀ x ∈ e, (Code.expr x).ReportsAt site := by
  cases h with
  | none => nofun
  | some _ h =>
    rintro _ ⟨⟩
    exact h.reportsAt fun t ht => hw t (.tail _ ht)

theorem Expr.walkOption_sited {home : Home} {e : Option Expr} (h : ∀ x ∈ e, (Code.expr x).ReportsAt site) {w : Walk}
    (hw : w.Sited site) : (Expr.walkOption home e w).Sited site := by
  cases e with
  | none => exact hw
  | some e => exact (h e rfl).walk ⟨.top, home⟩ w hw

/-! ## Statements -/

namespace Code

theorem reportsAt_varDecl {name : Token} {initial : Option Expr} (own : site name) (ne : name.lexeme ≠ slotName)
    (h : ∀ e ∈ initial, (expr e).ReportsAt site) : (stmt (.varDecl name initial)).ReportsAt site := by
  have fails := sited_option fun e he => (h e he).fails
  refine ⟨List.forall_mem_cons.2 ⟨fun e => absurd e ne, fails⟩, fun around w hw => ?_, ?_⟩
  · exact (Expr.walkOption_sited h (hw.declare own)).define name
  · exact fun mem => ne (List.mem_singleton.1 mem).symm

theorem reportsAt_expression {e : Expr} (h : (expr e).ReportsAt site) : (stmt (.expression e)).ReportsAt site :=
  ⟨List.forall_mem_cons.2 ⟨trivial, h.fails⟩, h.walk, List.not_mem_nil⟩

theorem reportsAt_ifElse {e : Expr} {yes : Stmt} {no : Option Stmt} (he : (expr e).ReportsAt site)
    (hy : (stmt yes).ReportsAt site) (hn : ∀ s ∈ no, (stmt s).ReportsAt site) :
    (stmt (.ifElse e yes no)).ReportsAt site := by
  cases no with
  | none =>
    refine ⟨List.forall_mem_cons.2 ⟨trivial, List.forall_mem_append.2 ⟨he.fails, hy.fails⟩⟩, ?_, hy.other⟩
    exact fun around w hw => hy.walk around _ (he.walk around w hw)
  | some no =>
    have other := hn no rfl
    have branches := List.forall_mem_append.2 ⟨hy.fails, other.fails⟩
    refine ⟨List.forall_mem_cons.2 ⟨trivial, List.forall_mem_append.2 ⟨he.fails, branches⟩⟩, ?_, ?_⟩
    · exact fun around w hw => other.walk around _ (hy.walk around _ (he.walk around w hw))
    · exact fun mem => (List.mem_append.1 mem).elim hy.other other.other

theorem reportsAt_while {e : Expr} {s : Stmt} (he : (expr e).ReportsAt site) (hs : (stmt s).ReportsAt site) :
    (stmt (.whileDo e s)).ReportsAt site :=
  ⟨List.forall_mem_cons.2 ⟨trivial, List.forall_mem_append.2 ⟨he.fails, hs.fails⟩⟩,
    fun around w hw => hs.walk around _ (he.walk around w hw), hs.other⟩

theorem reportsAt_stmts {ss : List Stmt} (h : ∀ s ∈ ss, (stmt s).ReportsAt site) : (stmts ss).ReportsAt site := by
  refine ⟨sited_stmts fun s hs => (h s hs).fails, ?_, ?_⟩
  · induction ss with
    | nil => exact fun _ _ hw => hw
    | cons s ss ih =>
      obtain ⟨first, rest⟩ := List.forall_mem_cons.1 h
      exact fun around w hw => ih rest around _ (first.walk around w hw)
  · intro mem
    obtain ⟨s, hs, mem⟩ := List.mem_flatMap.1 mem
    exact (h s hs).other mem

theorem reportsAt_block {ss : List Stmt} (h : (stmts ss).ReportsAt site) : (stmt (.block ss)).ReportsAt site :=
  ⟨List.forall_mem_cons.2 ⟨trivial, h.fails⟩, fun around _ hw => (h.walk around _ hw.openScope).closeScope,
    List.not_mem_nil⟩

theorem reportsAt_methods {rs : List (Routine Stmt)} (h : ∀ r ∈ rs, (routine r).ReportsAt site) :
    (methods rs).ReportsAt site := by
  refine ⟨sited_methods fun r hr => (h r hr).fails, ?_, List.not_mem_nil⟩
  induction rs with
  | nil => exact fun _ _ hw => hw
  | cons r rs ih =>
    obtain ⟨first, rest⟩ := List.forall_mem_cons.1 h
    exact fun around w hw => ih rest around _ (first.walk _ w hw)

theorem reportsAt_routine {name : Token} {parameters : List Token} {body : List Stmt} (names : ∀ p ∈ parameters, site p)
    (h : (stmts body).ReportsAt site) : (routine ⟨name, parameters, body⟩).ReportsAt site := by
  refine ⟨List.forall_mem_cons.2 ⟨trivial, h.fails⟩, fun around w hw => ?_, List.not_mem_nil⟩
  exact (h.walk around _ (hw.openScope.introduceAll names)).closeScope

theorem reportsAt_function {r : Routine Stmt} (own : site r.name) (ne : r.name.lexeme ≠ slotName)
    (h : (routine r).ReportsAt site) : (stmt (.funDecl r)).ReportsAt site := by
  refine ⟨List.forall_mem_cons.2 ⟨trivial, h.fails⟩, fun around w hw => ?_, fun mem => ?_⟩
  · exact h.walk _ _ (hw.introduce own)
  · exact ne (List.mem_singleton.1 mem).symm

section

variable {name : Token} {rs : List (Routine Stmt)}

theorem reportsAt_plainClass (own : site name) (ne : name.lexeme ≠ slotName) (h : (methods rs).ReportsAt site) :
    (stmt (.classDecl name none rs)).ReportsAt site := by
  refine ⟨List.forall_mem_cons.2 ⟨⟨own, nofun⟩, h.fails⟩, fun around w hw => ?_, fun mem => ?_⟩
  · exact (h.walk ⟨.top, .plainClass⟩ _ ((hw.introduce own).openWordScope _)).closeScope
  · exact ne (List.mem_singleton.1 mem).symm

theorem reportsAt_subclass {parent : Token} (own : site name) (ne : name.lexeme ≠ slotName) (above : site parent)
    (id : UseId) (h : (methods rs).ReportsAt site) :
    (stmt (.classDecl name (some (.ref id parent)) rs)).ReportsAt site := by
  have named := reportsAt_ref above id
  have parts := List.forall_mem_append.2 ⟨named.fails, h.fails⟩
  refine ⟨List.forall_mem_cons.2 ⟨⟨own, ?_⟩, parts⟩, fun around w hw => ?_, fun mem => ?_⟩
  · rintro _ ⟨⟩
    exact above
  · have before : ((w.introduce name).checkSuperclass name (.ref id parent)).Sited site := by
      refine (hw.introduce own).checkSuperclass name ?_
      rintro _ _ ⟨⟩
      exact above
    have inside := ((named.walk ⟨.top, .subclass⟩ _ before).openWordScope superName).openWordScope thisName
    exact (h.walk ⟨.top, .subclass⟩ _ inside).closeScope.closeScope
  · exact ne (List.mem_singleton.1 mem).symm

end

end Code

/-! ## Loops -/

namespace ForLoop

variable {name : Token} {s : Stmt} {id : UseId}

/-- Where the variable of a loop is declared in a pass, the slot is not being declared. -/
theorem not_beingDeclared_slot (ne : name.lexeme ≠ slotName) (w : Walk) :
    (w.openScope.declare name).beingDeclared slotName = false := by
  rw [Bool.eq_false_iff]
  intro being
  obtain ⟨scope, outer, scopes, incomplete⟩ := Walk.beingDeclared_iff.1 being
  obtain same | ⟨own, rest, before, same⟩ := w.openScope.scopes_declare name
  · rw [same] at scopes
    cases scopes
    cases incomplete
  · cases before
    rw [same] at scopes
    cases scopes
    rw [Bindings.get?_set, if_neg ne.symm] at incomplete
    cases incomplete

/-- A pass reads and writes the slot only where its declaration is complete. -/
theorem pass_walk (own : site name) (ne : name.lexeme ≠ slotName) (hs : (Code.stmt s).ReportsAt site)
    (around : Surroundings) {w : Walk} (hw : w.Sited site) : ((pass id name s).walk around w).Sited site := by
  let value : Expr := .ref (id + 3) name
  let outer := (value.walk around.home (w.openScope.declare (slot name))).define (slot name)
  have opened : outer.Sited site :=
    (((hw.openScope.declare_new rfl).recordIf _ fun _ => own).bind _ _).define _
  let copied := ((Expr.ref id (slot name)).walk around.home (outer.openScope.declare name)).define name
  have inside : copied.Sited site := by
    refine (((opened.openScope.declare own).recordIf _ fun being => ?_).bind _ _).define _
    have not := not_beingDeclared_slot ne outer
    exact absurd (not.symm.trans being) Bool.false_ne_true
  let back : Expr := .assign (id + 2) (slot name) (.ref (id + 1) name)
  let closed := (back.walk around.home (s.walk around copied)).closeScope
  have left : closed.Sited site :=
    ((((hs.walk around _ inside).recordIf _ fun _ => own).bind _ _).bind _ _).closeScope
  -- the slot is in the innermost scope again, completely declared
  have complete : closed.beingDeclared slotName = false := by
    have scopes : closed.scopes = settle [slotName] (w.openScope.declare (slot name)).scopes := by
      simp [closed, back, copied, outer, value, Stmt.scopes_walk, Walk.tail_scopes_declare, slot]
    exact Walk.not_beingDeclared_of_settle scopes List.mem_cons_self
  have last : (closed.recordIf (closed.beingDeclared slotName) .usedInOwnInitializer (slot name)).Sited site :=
    left.recordIf _ fun being => absurd (complete.symm.trans being) Bool.false_ne_true
  exact ((last.bind _ _).bind _ _).closeScope

theorem reportsAt_pass (own : site name) (ne : name.lexeme ≠ slotName) (hs : (Code.stmt s).ReportsAt site) :
    (Code.stmt (pass id name s)).ReportsAt site := by
  refine ⟨?_, fun around w hw => pass_walk own ne hs around hw, List.not_mem_nil⟩
  -- the initializer of the slot reads the variable of the loop, and that of the variable reads the slot
  have first : (Code.stmt (.varDecl (slot name) (some (.ref (id + 3) name)))).Sited site := by
    refine List.forall_mem_cons.2 ⟨fun _ n hn mem => ?_, List.forall_mem_singleton.2 (.inl own)⟩
    have loop : n = name.lexeme := List.mem_singleton.1 hn
    exact ne (loop.symm.trans (List.mem_singleton.1 mem))
  have copy : (Code.stmt (.varDecl name (some (.ref id (slot name))))).Sited site :=
    List.forall_mem_cons.2 ⟨fun e => absurd e ne, List.forall_mem_singleton.2 (.inr rfl)⟩
  have back : (Code.stmt (.expression (.assign (id + 2) (slot name) (.ref (id + 1) name)))).Sited site :=
    List.forall_mem_cons.2 ⟨trivial, List.forall_mem_cons.2 ⟨.inr rfl, List.forall_mem_singleton.2 (.inl own)⟩⟩
  have last : (Code.stmt (.expression (.assign (id + 5) name (.ref (id + 4) (slot name))))).Sited site :=
    List.forall_mem_cons.2 ⟨trivial, List.forall_mem_cons.2 ⟨.inl own, List.forall_mem_singleton.2 (.inr rfl)⟩⟩
  have inner : (Code.stmt (.block [.varDecl name (some (.ref id (slot name))), s,
      .expression (.assign (id + 2) (slot name) (.ref (id + 1) name))])).Sited site := by
    refine Code.sited_block ?_
    simp only [List.forall_mem_cons]
    exact ⟨copy, hs.fails, back, nofun⟩
  refine Code.sited_block ?_
  simp only [List.forall_mem_cons]
  exact ⟨first, inner, last, nofun⟩

theorem reportsAt_withIncrement {increment : Option Expr} (hi : ∀ e ∈ increment, (Code.expr e).ReportsAt site)
    (hs : (Code.stmt s).ReportsAt site) : (Code.stmt (withIncrement increment s)).ReportsAt site := by
  cases increment with
  | none => exact hs
  | some e =>
    refine Code.reportsAt_block (Code.reportsAt_stmts ?_)
    simp only [List.forall_mem_cons]
    exact ⟨hs, Code.reportsAt_expression (hi e rfl), nofun⟩

theorem reportsAt_whole {first : Option Stmt} {condition : Option Expr} (hf : ∀ x ∈ first, (Code.stmt x).ReportsAt site)
    (hc : ∀ e ∈ condition, (Code.expr e).ReportsAt site) (hs : (Code.stmt s).ReportsAt site) :
    (Code.stmt (whole first condition s)).ReportsAt site := by
  have test : (Code.expr (condition.getD (.literal (.bool true)))).ReportsAt site := by
    cases condition with
    | none => exact ⟨List.forall_mem_singleton.2 trivial, fun _ _ hv => hv, List.not_mem_nil⟩
    | some e => exact hc e rfl
  have loop := Code.reportsAt_while test hs
  cases first with
  | none => exact loop
  | some x =>
    refine Code.reportsAt_block (Code.reportsAt_stmts ?_)
    simp only [List.forall_mem_cons]
    exact ⟨hf x rfl, loop, nofun⟩

end ForLoop

/-! ## Programs -/

theorem Stmt.Written.reportsAt {symbol : Symbol} {s : Stmt} {w : List Token} (h : s.Written symbol w)
    (hw : ∀ t ∈ w, site t) (free : Unslotted w) : (Code.stmt s).ReportsAt site := by
  cases h with
  | @varDecl _ name _ _ _ _ hn initial _ =>
    have ne : name.lexeme ≠ slotName := free name (.tail _ List.mem_cons_self) hn
    simp only [List.forall_mem_cons, List.forall_mem_append] at hw
    exact Code.reportsAt_varDecl hw.2.1 ne (initial.reportsAt hw.2.2.1)
  | exprStmt he _ =>
    exact Code.reportsAt_expression (he.reportsAt fun t ht => hw t (List.mem_append_left _ ht))
  | printStmt _ he _ =>
    simp only [List.forall_mem_cons, List.forall_mem_append] at hw
    have inner := he.reportsAt hw.2.1
    exact ⟨List.forall_mem_cons.2 ⟨trivial, inner.fails⟩, inner.walk, List.not_mem_nil⟩
  | returnStmt _ value _ =>
    simp only [List.forall_mem_cons, List.forall_mem_append] at hw
    have inner := value.reportsAt hw.2.1
    refine ⟨List.forall_mem_cons.2 ⟨trivial, Code.sited_option fun e he => (inner e he).fails⟩, ?_, List.not_mem_nil⟩
    exact fun around v hv => Expr.walkOption_sited inner (hv.checkReturn _ _ hw.1)

theorem Stmt.WrittenStart.reportsAt {first : Option Stmt} {w : List Token} (h : Stmt.WrittenStart first w)
    (hw : ∀ t ∈ w, site t) (free : Unslotted w) : ∀ s ∈ first, (Code.stmt s).ReportsAt site := by
  cases h with
  | none _ => nofun
  | some _ h =>
    rintro _ ⟨⟩
    exact h.reportsAt hw free

/-- A part of a program that is written with tokens of some kind breaks rules and fails at such tokens only. -/
theorem Code.Written.reportsAt {symbol : Symbol} {code : Code} {w : List Token} (h : code.Written symbol w)
    (hw : ∀ t ∈ w, site t) (free : Unslotted w) : code.ReportsAt site := by
  induction h with
  | simple h => exact h.reportsAt hw free
  | ifThen _ _ he _ _ ih =>
    have yes := ih (fun t ht => hw t (by simp [ht])) free.tail.tail.right.tail
    exact Code.reportsAt_ifElse (he.reportsAt fun t ht => hw t (by simp [ht])) yes nofun
  | ifElse _ _ he _ _ _ _ ih ih' =>
    have yes := ih (fun t ht => hw t (by simp [ht])) free.tail.tail.right.tail.left
    have no := ih' (fun t ht => hw t (by simp [ht])) free.tail.tail.right.tail.right.tail
    refine Code.reportsAt_ifElse (he.reportsAt fun t ht => hw t (by simp [ht])) yes ?_
    rintro _ ⟨⟩
    exact no
  | whileStmt _ _ he _ _ ih =>
    have body := ih (fun t ht => hw t (by simp [ht])) free.tail.tail.right.tail
    exact Code.reportsAt_while (he.reportsAt fun t ht => hw t (by simp [ht])) body
  | @forStmt _ _ _ _ first _ _ id s a _ _ _ _ _ start hc _ hi _ written ih =>
    have body := ih (fun t ht => hw t (by simp [ht])) free.tail.tail.right.right.tail.right.tail
    have starts : ∀ t ∈ a, site t := fun t ht => hw t (by simp [ht])
    refine ForLoop.reportsAt_whole (start.reportsAt starts free.tail.tail.left)
      (hc.reportsAt fun t ht => hw t (by simp [ht])) ?_
    refine ForLoop.reportsAt_withIncrement (hi.reportsAt fun t ht => hw t (by simp [ht])) ?_
    unfold ForLoop.body
    split
    · next name _ =>
      -- the variable of the passes is named in the first clause
      refine ForLoop.reportsAt_pass ?_ (start.other free.tail.tail.left) body
      cases start with
      | some _ h => exact starts name (Code.Written.simple h).varDecl_name.1
    · exact body
  | @block _ _ entries _ _ _ ih =>
    refine Code.reportsAt_stmts fun s hs => ?_
    obtain ⟨entry, mem, rfl⟩ := List.mem_map.1 hs
    have sub := mem_flatten_of_entry mem
    exact ih entry mem (fun t ht => hw t (.tail _ (List.mem_append_left _ (sub t ht)))) (free.tail.left.mono sub)
  | blockStmt _ ih => exact Code.reportsAt_block (ih hw free)
  | statement _ _ ih | declaration _ _ ih => exact ih hw free
  | function _ _ _ _ separated _ _ ih =>
    have body := ih (fun t ht => hw t (by simp [ht])) free.tail.tail.right.tail
    refine Code.reportsAt_routine (fun p hp => ?_) body
    have listed := separated.subset (List.mem_map_of_mem (f := ([·])) hp) p List.mem_cons_self
    exact hw p (.tail _ (.tail _ (List.mem_append_left _ listed)))
  | @funDecl _ r w _ written ih =>
    have routine := ih (fun t ht => hw t (.tail _ ht)) free.tail
    obtain ⟨mem, identifier⟩ : r.name ∈ w ∧ r.name.kind = .identifier := by
      cases written with
      | function hn => exact ⟨List.mem_cons_self, hn⟩
    exact Code.reportsAt_function (hw _ (.tail _ mem)) (free.tail r.name mem identifier) routine
  | @classDecl _ name _ _ superclass entries _ _ hn hs _ _ _ ih =>
    have own : site name := hw name (.tail _ List.mem_cons_self)
    have methods : (Code.methods (entries.map (·.1))).ReportsAt site := by
      refine Code.reportsAt_methods fun r hr => ?_
      obtain ⟨entry, mem, rfl⟩ := List.mem_map.1 hr
      have sub := mem_flatten_of_entry mem
      exact ih entry mem (fun t ht => hw t (by simp [sub t ht])) (free.tail.tail.right.tail.left.mono sub)
    have ne : name.lexeme ≠ slotName := free name (.tail _ List.mem_cons_self) hn
    cases hs with
    | none => exact Code.reportsAt_plainClass own ne methods
    | @some id _ parent _ _ => exact Code.reportsAt_subclass own ne (hw parent (by simp)) id methods
  | @program entries _ ih =>
    refine Code.reportsAt_stmts fun s hs => ?_
    obtain ⟨entry, mem, rfl⟩ := List.mem_map.1 hs
    have sub := mem_flatten_of_entry mem
    exact ih entry mem (fun t ht => hw t (sub t ht)) (free.mono sub)

/-- The rules that statements break are broken at tokens that they are written with. -/
theorem Code.ReportsAt.errors_resolve {statements : List Stmt} (h : (Code.stmts statements).ReportsAt site) :
    ∀ e ∈ (resolve statements).errors, site e.site := by
  intro e he
  exact h.walk .outermost .start .start e (Array.mem_toList_iff.1 he)

end Lox
