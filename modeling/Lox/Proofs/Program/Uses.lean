/-
Uses are told apart by their numbers. Whatever the tokens are, and whatever is wrong with them, no two uses in the
statements read from them have one number; so the walk through the statements enters each use once, and overwrites no
entry (`parse_identifies`).
-/
import Lox.Proofs.Binding.Single
import Lox.Proofs.Grammar.Statement

namespace Lox

/-! ## Entering a use -/

namespace Stop

variable {table : Table} {x : Stop} {e : Expr} {id : UseId} {name : String}

/-- The state in which a walk enters the use that a part is: for an assignment, after the walk through the value. -/
def entering (x : Stop) : Walk :=
  match x.code with
  | .expr (.assign _ _ value) => value.walk x.around.home x.walk
  | _ => x.walk

/-- There is no entry for a use before it is entered. -/
theorem Entered.get?_entering (h : x.Entered table) (use : x.IsUse id) : x.entering.table.get? id = none := by
  have fresh := h.fresh id use.mem_uses
  obtain ⟨code, a, w, d⟩ := x
  obtain ⟨e, name, rfl, hu⟩ := use
  cases e with
  | assign _ _ value =>
    cases hu
    have apart := (List.nodup_append.1 h.apart).2.2
    exact ((value.walk_leads a.home w).table id fun mem => apart id mem id (List.mem_singleton_self id) rfl).trans fresh
  | _ => exact fresh

/-- A walk enters the use that a part is, unless it is the word `this` outside of classes, and enters no other. -/
theorem table_after (hc : x.code = .expr e) (hu : e.use? = some (id, name)) :
    x.after.table = (x.entering.bind id name).table ∨ x.after.table = x.entering.table := by
  have bound : ∀ {w w' : Walk}, w.scopes = w'.scopes → w.table = w'.table →
      (w.bind id name).table = (w'.bind id name).table := by
    intro w w' scopes table
    unfold Walk.bind
    rw [scopes]
    split
    · exact congrArg (Table.insert · id _) table
    · exact table
  obtain ⟨code, a, w, d⟩ := x
  subst hc
  cases e with
  | literal _ | unary _ _ | binary _ _ _ | logical _ _ _ | group _ | call _ _ _ | get _ _ | set _ _ _ => cases hu
  | ref _ site =>
    cases hu
    have condition : (w.recordIf (w.beingDeclared site.lexeme) .usedInOwnInitializer site).table = w.table := by
      unfold Walk.recordIf
      split <;> rfl
    exact .inl (bound (Walk.scopes_recordIf _ _ _ _) condition)
  | assign _ _ value =>
    cases hu
    exact .inl rfl
  | self _ keyword =>
    cases hu
    show (Walk.self w a.home id keyword).table = _ ∨ (Walk.self w a.home id keyword).table = _
    unfold Walk.self
    split
    · exact .inr rfl
    · exact .inl rfl
  | super _ keyword method =>
    cases hu
    refine .inl (bound ?_ ?_)
    · cases a.home.superFault? <;> rfl
    · cases a.home.superFault? <;> rfl

end Stop

/-! ## Programs -/

/-- Only uses in the statements are entered. -/
theorem mem_usesAll_of_get? {statements : List Stmt} {id : UseId} {distance : Nat}
    (h : (resolve statements).table.get? id = some distance) : id ∈ Stmt.usesAll statements := by
  by_contra outside
  have none := (Stmt.walkAll_leads .outermost statements .start).table id outside
  rw [show (Stmt.walkAll .outermost statements .start).table.get? id = some distance from h] at none
  cases none.trans (Table.get?_empty id)

/--
In the statements read from any tokens, if no more uses are numbered than there are numbers of 32 bits, these have
different numbers of 32 bits.
When the walk comes to a use there is no entry for it yet, then at most that one entry is made, and it stays; and for each
entry in the table there is one use in the statements, which the walk comes to once.
-/
theorem parse_identifies {tokens : List Token} (few : (parse tokens).uses < UInt32.size) :
    ((Stmt.usesAll (parse tokens).statements).map UInt32.ofNat).Nodup ∧
    (∀ x, Visits (parse tokens).statements x → ∀ e id name, x.code = .expr e → e.use? = some (id, name) →
      x.entering.table.get? id = none ∧
      (x.after.table = (x.entering.bind id name).table ∨ x.after.table = x.entering.table) ∧
      (resolve (parse tokens).statements).table.get? id = x.after.table.get? id) ∧
    ∀ id distance, (resolve (parse tokens).statements).table.get? id = some distance →
      (Stmt.usesAll (parse tokens).statements).count id = 1 ∧
      ∃ x, Visits (parse tokens).statements x ∧ x.IsUse id ∧
        ∀ y, Visits (parse tokens).statements y → y.IsUse id → y = x := by
  obtain ⟨apart, within⟩ := numbered_parse tokens
  refine ⟨?_, fun x visits e id name hc hu => ?_, fun id distance entry => ?_⟩
  · refine (List.nodup_map_iff_inj_on apart).2 fun id mem id' mem' same => ?_
    have less := Nat.lt_trans (within id mem).2 few
    have less' := Nat.lt_trans (within id' mem').2 few
    have same := congrArg UInt32.toNat same
    rwa [UInt32.toNat_ofNat_of_lt' less, UInt32.toNat_ofNat_of_lt' less'] at same
  · have entered := visits.entered apart
    have use : x.IsUse id := ⟨e, name, hc, hu⟩
    exact ⟨entered.get?_entering use, Stop.table_after hc hu, entered.kept id use.mem_uses⟩
  · have mem := mem_usesAll_of_get? entry
    obtain ⟨x, visits, use⟩ := (Visits.start (parse tokens).statements).exists_isUse mem
    exact ⟨List.count_eq_one_of_mem apart mem, x, visits, use, fun y hy huy => hy.eq_of_isUse apart visits huy use⟩

/-- A loop over a variable in which an assignment is no good, before a declaration that breaks a rule of names. -/
theorem parse_identifies_faulty :
    let tokens := (scan "for (var i = a; i; i = b) f(i) = i; ) ; \x7b var a = a; \x7d").tokens
    (parse tokens).errors.map (·.fault) = [.invalidTarget, .missingExpression] ∧
      (resolve (parse tokens).statements).errors.map (·.fault) = [.usedInOwnInitializer] ∧
      (parse tokens).uses < UInt32.size ∧ ((Stmt.usesAll (parse tokens).statements).map UInt32.ofNat).Nodup ∧
      ∃ x, Visits (parse tokens).statements x ∧ x.IsUse 6 ∧
        ∀ y, Visits (parse tokens).statements y → y.IsUse 6 → y = x := by
  intro tokens
  have few : (parse tokens).uses < UInt32.size := by decide +kernel
  obtain ⟨apart, -, once⟩ := parse_identifies few
  have entry : (resolve (parse tokens).statements).table.get? 6 = some 0 := by decide +kernel
  exact ⟨by decide +kernel, by decide +kernel, few, apart, (once 6 0 entry).2⟩

end Lox
