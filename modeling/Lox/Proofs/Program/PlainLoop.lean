/-
A loop over a variable means what the plain loop with one binding means, as long as nothing in its body can keep the
binding of a pass: if no function and no class is declared there, the copies that the passes make are not to be told
from the variable itself.
-/
import Lox.Proofs.Grammar.Slot
import Lox.Proofs.Grammar.TakesProgram
import Lox.Proofs.Pair.Programs
import Lox.Proofs.Pair.Same
import Lox.Proofs.Program.Run

namespace Lox

/-! ## No change of names -/

/-- The change that leaves all names as they are. -/
def Change.nothing : Change := ⟨ForLoop.slotName, ForLoop.slotName⟩

theorem Change.proper_nothing : nothing.Proper := ⟨⟨by decide, by decide⟩, by decide, by decide⟩

theorem Change.allows_nothing (n : String) : nothing.Allows n := fun _ => rfl

theorem Token.Like.eq {t t' : Token} (h : t.Like .nothing t') : t' = t := by
  rcases h with rfl | ⟨old, rfl⟩
  · rfl
  · rw [show Change.nothing.new = t.lexeme from old.symm]

theorem RuntimeError.Like.eq {e e' : RuntimeError} (h : e.Like .nothing e') : e' = e := by
  obtain ⟨fault, site⟩ := e
  obtain ⟨fault', site'⟩ := e'
  obtain ⟨like, same⟩ := h
  cases (like.eq : site' = site)
  have same : fault' = fault := same.elim id fun h => h.2.trans h.1.symm
  rw [same]

/-- Where no name changes, outcomes that are alike are equal. -/
theorem Outcome.Like.eq {o o' : Outcome} (h : o.Like .nothing o') : o' = o := by
  obtain ⟨printed, ending⟩ := o
  obtain ⟨printed', ending'⟩ := o'
  obtain ⟨same, like⟩ := h
  cases (same : printed' = printed)
  cases ending with
  | rejected _ => exact like.elim
  | success =>
    cases ending' with
    | success => rfl
    | rejected _ | failed _ => exact like.elim
  | failed e =>
    cases ending' with
    | success | rejected _ => exact like.elim
    | failed e' =>
      cases e with
      | runtime e =>
        cases e' with
        | runtime e' => rw [RuntimeError.Like.eq like]
        | sink _ => exact like.elim
      | sink fault =>
        cases e' with
        | runtime _ => exact like.elim
        | sink fault' =>
          cases (like : fault' = fault)
          rfl

/-! ## The loop -/

/-- The manner in which a program is alike to one in which a loop is plain. -/
def Manner.plainLoop : Manner where
  use _ _ n n' := n' = n
  self _ _ := True
  super _ _ := True
  loops := True
  copies _ _ := False

theorem Manner.plainLoop_keeps (P : List Link → Prop) (inner : ∀ {links}, P links → P (.scope .same :: links)) :
    plainLoop.Keeps .nothing P :=
  ⟨inner, fun _ _ => rfl, fun _ => trivial, fun _ => trivial⟩

theorem Manner.plainLoop_leads (table : Table) : plainLoop.Leads .nothing table False where
  use links id n n' scopes scopes' use _ mirrors covered := by
    cases (use : n' = n)
    exact mirrors.finds_self (.inl rfl) covered
  loops := False.elim
  copies _ _ := id

namespace ForLoop

variable {links : List Link} {id : UseId} {name : Token} {initial condition increment : Option Expr} {body : Stmt}

/-- What the grammar promises about a loop over a variable it promises about the parts of the loop. -/
theorem formed_copying (h : (copying name initial condition increment id body).Formed) :
    Nameable name.lexeme ∧ Expr.FormedOption initial ∧ (test condition).Formed ∧ Expr.FormedOption increment ∧
      body.Formed := by
  obtain ⟨⟨nameable, first⟩, ⟨tested, repeated, -⟩, -⟩ := h
  cases increment with
  | none => exact ⟨nameable, first, tested, by rintro _ ⟨⟩, repeated.2.1.2.1⟩
  | some e =>
    refine ⟨nameable, first, tested, ?_, repeated.1.2.1.2.1⟩
    rintro _ ⟨⟩
    exact repeated.2.1

theorem mem_within_copying : Code.stmt (pass id name body) ∈ (copying name initial condition increment id body).within := by
  have own : Code.stmt (pass id name body) ∈ (withIncrement increment (pass id name body)).within := by
    cases increment with
    | none => exact List.mem_cons_self
    | some e => exact .tail _ (List.mem_append_left _ List.mem_cons_self)
  refine .tail _ (List.mem_append_right _ (List.mem_append_left _ ?_))
  exact .tail _ (List.mem_append_right _ own)

/-- A loop that keeps the slot for itself and declares no function and no class in its body is alike to the plain
loop. -/
theorem alike_plain (formed : (copying name initial condition increment id body).Formed) (own : Sealed name body)
    (flat : body.Flat) : Alike .nothing .plainLoop links (.stmt (copying name initial condition increment id body))
      (.stmt (plain name initial condition increment body)) := by
  have keeps : Manner.plainLoop.Keeps .nothing fun _ => True := Manner.plainLoop_keeps _ fun h => h
  have allowed (code : Code) : code.Allowed .nothing := fun _ _ n _ => Change.allows_nothing n
  have expr {e : Expr} {links : List Link} (he : e.Formed) : Alike .nothing .plainLoop links (.expr e) (.expr e) :=
    e.alike_self keeps trivial he (allowed _)
  obtain ⟨nameable, first, tested, last, formed⟩ := formed_copying formed
  refine .forLoop trivial nameable own.other own.closed ?_ (expr tested) ?_ ?_
  · cases initial with
    | none => exact .varDecl (.inl rfl) ⟨rfl, rfl⟩
    | some e => exact .varInit (.inl rfl) ⟨rfl, rfl⟩ (expr (first e rfl))
  · cases increment with
    | none => exact .noStmts
    | some e => exact .moreStmts (.expression (expr (last e rfl))) .noStmts
  · refine body.alike_self keeps trivial ⟨formed, allowed _, fun n hn => ?_, .inr flat⟩
    have hn : n ∈ body.declared := hn
    rw [own.declares] at hn
    cases hn

end ForLoop

/-! ## Programs -/

section

variable {source : String} {program : Program}

/-- In an accepted program the slot of a loop is used by passes only. -/
theorem Program.keepsSlot (accepted : Program.ofSource source = .ok program) :
    (Code.stmts program.statements).KeepsSlot := by
  obtain ⟨read, statements⟩ := parse_of_ofSource accepted
  rw [← statements]
  exact (written_parse read).keepsSlot ((unslotted_scan source).mono fun _ ht => (List.takeWhile_sublist _).mem ht)

variable {statements' : List Stmt} {name : Token} {initial condition increment : Option Expr} {id : UseId} {body : Stmt}

/-- If in an accepted program a loop over a variable, with no function and no class declared in its body, is exchanged
for the plain loop, then the program still breaks no rule and its uses are numbered apart. With the table that it is
given then, it has the same outcomes as before. -/
theorem Program.plain_loop (accepted : Program.ofSource source = .ok program) (flat : body.Flat)
    (swap : Swaps (.stmt (ForLoop.copying name initial condition increment id body))
      (.stmt (ForLoop.plain name initial condition increment body)) (.stmts program.statements) (.stmts statements')) :
    (Stmt.usesAll statements').Nodup ∧ (resolve statements').errors = [] ∧
      ∀ sink o, (∃ fuel, runStatements program.table.place fuel program.statements sink = some o) ↔
        ∃ fuel, runStatements (resolve statements').table.place fuel statements' sink = some o := by
  have resolved := resolved_of_ofSource accepted
  have own : ForLoop.Sealed name body :=
    (program.keepsSlot accepted).sealed _ (swap.within _ ForLoop.mem_within_copying) id name body rfl
  have written : Alike .nothing .plainLoop [] (.stmts program.statements) (.stmts statements') := by
    refine swap.alike (Manner.plainLoop_keeps _ AllSame.inner) ?_ (by rintro _ ⟨⟩) ?_
    · exact fun links _ stays => ForLoop.alike_plain stays.formed own flat
    · exact ⟨resolved.formed, fun _ _ n _ => Change.allows_nothing n, fun n _ => ⟨rfl, Change.allows_nothing n⟩,
        .inl (by rintro _ ⟨⟩)⟩
  obtain ⟨apart, errors, -, alike⟩ :=
    written.resolved resolved Change.proper_nothing (Manner.plainLoop_leads program.table)
  refine ⟨apart, errors, fun sink o => ?_⟩
  obtain ⟨forth, back⟩ := Machine.runStatements_alike
    (p := ⟨.nothing, Change.proper_nothing, program.table, (resolve statements').table⟩) resolved alike sink
  constructor
  · rintro ⟨fuel, ho⟩
    obtain ⟨fuel', o', ho', like⟩ := forth fuel o ho
    exact ⟨fuel', like.eq ▸ ho'⟩
  · rintro ⟨fuel', ho'⟩
    obtain ⟨fuel, o₀, ho, like⟩ := back fuel' o ho'
    exact ⟨fuel, like.eq ▸ ho⟩

/-- Whether a program is one loop over a variable, with a condition, a last clause and a flat body. -/
def ForLoop.isCopying : List Stmt → Bool
  | [.block [.varDecl name _, .whileDo _ (.block [.block [.varDecl s₀ (some (.ref i₃ n₃)),
      .block [.varDecl n₀ (some (.ref i₀ s₁)), body, .expression (.assign i₂ s₂ (.ref i₁ n₁))],
      .expression (.assign i₅ n₅ (.ref i₄ s₄))], .expression _])]] =>
    decide (body.Flat ∧ (s₀ = ForLoop.slot name ∧ s₁ = s₀ ∧ s₂ = s₀ ∧ s₄ = s₀) ∧
      (n₀ = name ∧ n₁ = name ∧ n₃ = name ∧ n₅ = name) ∧
      i₁ = i₀ + 1 ∧ i₂ = i₀ + 2 ∧ i₃ = i₀ + 3 ∧ i₄ = i₀ + 4 ∧ i₅ = i₀ + 5)
  | _ => false

theorem ForLoop.exists_of_isCopying {ss : List Stmt} (form : isCopying ss = true) :
    ∃ name initial condition increment id body,
      body.Flat ∧ ss = [copying name initial (some condition) (some increment) id body] := by
  unfold isCopying at form
  split at form
  · next name initial condition _ _ _ _ _ _ body _ _ _ _ _ _ _ _ increment =>
    obtain ⟨flat, ⟨rfl, rfl, rfl, rfl⟩, ⟨rfl, rfl, rfl, rfl⟩, rfl, rfl, rfl, rfl, rfl⟩ := of_decide_eq_true form
    exact ⟨_, initial, condition, increment, _, body, flat, rfl⟩
  · cases form

/-- A loop of one pass, whose last clause assigns to the variable. -/
theorem Program.plain_loop_once :
    ∃ program name initial condition increment id body statements',
      Program.ofSource "for (var i = nil; i == nil; i = true) print i;" = .ok program ∧
        program.statements = [ForLoop.copying name initial condition increment id body] ∧
        statements' = [ForLoop.plain name initial condition increment body] ∧ increment.isSome = true ∧
        (Stmt.usesAll statements').Nodup ∧ (resolve statements').errors = [] ∧
        ∃ fuel o, runStatements (resolve statements').table.place fuel statements' .unlimited = some o ∧
          o.printed = "nil\n".toUTF8 := by
  have ran : (Program.ofSource "for (var i = nil; i == nil; i = true) print i;").toOption.any (fun p =>
      (runStatements p.table.place 100 p.statements .unlimited).any (fun o => decide (o.printed = "nil\n".toUTF8)) &&
      ForLoop.isCopying p.statements) = true := by decide +kernel
  obtain ⟨program, accepted, ran⟩ := Program.exists_ofSource ran
  obtain ⟨ends, form⟩ := Bool.and_eq_true_iff.1 ran
  obtain ⟨o, ho, printed⟩ := (Option.any_eq_true _ _).1 ends
  obtain ⟨name, initial, test, e, id, body, flat, same⟩ := ForLoop.exists_of_isCopying form
  obtain ⟨apart, errors, outcomes⟩ := program.plain_loop accepted flat (by rw [same]; exact .first .here)
  obtain ⟨fuel, run⟩ := (outcomes .unlimited o).1 ⟨100, ho⟩
  exact ⟨program, _, initial, some test, some e, _, body, _, accepted, same, rfl, rfl, apart, errors, fuel, o, run,
    of_decide_eq_true printed⟩

end

end Lox
