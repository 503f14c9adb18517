/-
Where reports point. Every report on a text is about one of its lines, and every report on a program is about one of
the tokens that its text has, never about the slot of a loop, which the grammar makes up (`runSource_located`). Before
the run no rule is broken at the slot. In the run it is there wherever it is used, for each slot is declared in a scope
of its own that closes only when the pass is over.
-/
import Lox.Proofs.Binding.Held
import Lox.Proofs.Grammar.Derivable
import Lox.Proofs.Grammar.ExtendsProgram
import Lox.Proofs.Grammar.Sited
import Lox.Proofs.Machine.Runs
import Lox.Proofs.Machine.Sited
import Lox.Proofs.Program.Run
import Lox.Proofs.Token.Range

namespace Lox

open ForLoop

/-! ## Errors of the grammar -/

/-- Tokens that close with an end token are not run past, so what is wrong with them is found at one of them. -/
theorem sites_parse {tokens : List Token} (ends : ∃ t ∈ tokens, t.kind = .endOfInput) :
    ∀ e ∈ (parse tokens).errors, e.site ∈ tokens := by
  have start : (⟨(· ∈ tokens), [], 0⟩ : Extension).Within (.start tokens) :=
    ⟨fun _ ht => ht, .inr ends, fun e he => absurd he (Array.not_mem_empty e)⟩
  have read := Rule.declarations_extends (x := ⟨(· ∈ tokens), [], 0⟩) (by rintro _ ⟨⟩) (Nat.le_refl tokens.length)
    (Nat.le_refl tokens.length) (Nat.le_refl tokens.length) (Nat.le_refl tokens.length) start
  intro e he
  rw [parse_eq_declarations] at he
  exact (read.moves.within start).errors e (Array.mem_toList_iff.1 he)

/-! ## Slots -/

/-- Whether a program breaks rules and fails at tokens of some kind only, none of which is a slot, and uses no slots
but those that its loops declare. -/
structure Stmt.Located (site : Token → Prop) (statements : List Stmt) : Prop where
  reports : (Code.stmts statements).ReportsAt site
  closed : ¬ (Code.stmts statements).HasFree slotName
  proper : ∀ t, site t → t.lexeme ≠ slotName

variable {site : Token → Prop} {statements : List Stmt} {table : Table}

/-- The program of a text is located at its tokens. -/
theorem located_parse {source : String} (read : (parse (scan source).tokens).errors = []) :
    Stmt.Located (· ∈ (scan source).tokens) (parse (scan source).tokens).statements := by
  have written := written_parse read
  have within : ∀ t ∈ beforeEnd (scan source).tokens, t ∈ (scan source).tokens := fun _ => mem_of_mem_beforeEnd
  have free : Unslotted (beforeEnd (scan source).tokens) := (unslotted_scan source).mono within
  exact ⟨written.reportsAt within free, (written.keepsSlot free).closed, fun _ => lexeme_ne_slot⟩

theorem Program.located {source : String} {program : Program} (accepted : Program.ofSource source = .ok program) :
    Stmt.Located (· ∈ (scan source).tokens) program.statements := by
  obtain ⟨read, statements⟩ := parse_of_ofSource accepted
  rw [← statements]
  exact located_parse read

namespace Stmt.Located

/-- Where the slot is used, it is not being declared. -/
theorem not_beingDeclared (h : Located site statements) {x : Stop} (visits : Visits statements x) {e : Expr}
    (hc : x.code = .expr e) (uses : Code.variable? (.expr e) = some slotName) :
    x.walk.beingDeclared slotName = false := by
  rw [Bool.eq_false_iff]
  intro being
  obtain ⟨name, initial, same, mem, inside⟩ := visits.initial _ being
  rw [hc] at inside
  have mentioned : slotName ∈ (Code.expr initial).mentions :=
    List.mem_filterMap.2 ⟨_, inside e.mem_within, uses⟩
  exact h.reports.fails _ mem same slotName mentioned (List.mem_singleton.2 same.symm)

/-- A use of the slot finds it in the scope to which the table sends it. -/
theorem target?_slot (h : Located site statements) (resolved : Resolved statements table) {w : World} {id : ScopeId}
    {x : Stop} (place : World.At statements w id x) {e : Expr} (hc : x.code = .expr e)
    (uses : Code.variable? (.expr e) = some slotName) {use : UseId} (hu : e.use? = some (use, slotName)) :
    ∃ found, w.store.target? id (table.place use) slotName = some found ∧
      ∃ v, w.store.read? id (table.place use) slotName = some v := by
  have checked := resolved.checked place.visits
  have free : e.HasFree slotName := by
    cases e with
    | ref _ _ => exact Option.some.inj uses
    | assign _ _ _ => exact .inl (Option.some.inj uses)
    | _ => cases uses
  -- the walk has the slot in an open scope, and the scope that belongs to it in the run is as far away
  have held := place.visits.held h.closed h.reports.other (by rw [hc]; exact free)
  obtain ⟨i, hi⟩ := held.exists_findIdx?
  have entry : table.place use = .hops i := by rw [Table.place, checked.clean.get?_use hc hu, hi]
  obtain ⟨scope, found, hs, has, hf, hb⟩ := place.ancestor hi
  have bound := hb (checked.fits.get?_of_not_beingDeclared (h.not_beingDeclared place.visits hc uses) hs has)
  obtain ⟨v, hv, -⟩ := World.read?_hops hf bound
  rw [entry]
  exact ⟨found, Store.target?_hops hf bound, v, hv⟩

/-- A machine that conforms finds the slots that it uses. -/
theorem findsSlot (h : Located site statements) (resolved : Resolved statements table) {m : Machine}
    (conforms : m.Conforms statements) : m.FindsSlot table.place := by
  obtain ⟨plan, d, ⟨sound, stacked⟩, gives⟩ := conforms
  constructor
  case read =>
    intro use name he same
    rw [he] at gives
    obtain ⟨-, x, place, hc | ⟨cls, rs, hc⟩⟩ := gives
    · obtain ⟨-, -, v, hv⟩ := h.target?_slot resolved place hc (congrArg some same) (by rw [← same]; rfl)
      exact ⟨v, by rw [same]; exact hv⟩
    · -- a superclass is named by a token of the kind
      have within := place.visits.within
      rw [hc] at within
      have fails := h.reports.fails _ (within (Stmt.mem_within _))
      exact absurd same (h.proper name (fails.2 _ rfl))
  case write =>
    intro use name v rest hv hf same
    rw [hf] at stacked
    obtain ⟨_, _, takes, -⟩ := stacked.top
    obtain ⟨x, e, place, hc⟩ := takes.at_assign
    obtain ⟨found, there, -⟩ := h.target?_slot resolved place hc (congrArg some same) (by rw [← same]; rfl)
    exact ⟨found, by rw [same]; exact there⟩

end Stmt.Located

/-! ## Runs -/

namespace Machine

theorem sited_start (h : Stmt.Located site statements) (sink : Sink) : (start sink statements).Sited site := by
  refine ⟨⟨fun f hf => absurd hf (Array.not_mem_empty f), ?_⟩, trivial⟩
  exact List.forall_mem_singleton.2 h.reports.fails

/-- However far a program has run, it has failed at tokens of the kind, if at all. -/
theorem sited_iterate (h : Stmt.Located site statements) (resolved : Resolved statements table) (sink : Sink)
    (n : Nat) : ((step table.place)^[n] (start sink statements)).Sited site := by
  induction n with
  | zero => exact sited_start h sink
  | succ n ih =>
    rw [Function.iterate_succ_apply']
    exact sited_step ih (h.findsSlot resolved (conforms_iterate resolved sink n))

end Machine

/-! ## Reports -/

namespace Diagnostic

/-- The token that a report points at; what is wrong with the text itself or with the output is at none. -/
def site? : Diagnostic → Option Token
  | grammar e => some e.site
  | binding e => some e.site
  | runtime e => some e.site
  | lexical _ | sink _ => none

/-- Whether a report points at a token and is worded so: it has the line of the token and, if it was made before the
run, names the place of the token after that. -/
structure PointsAt (d : Diagnostic) (t : Token) : Prop where
  site : d.site? = some t
  line : d.line? = some t.line
  place : (∃ e, d = .runtime e) ∨ d.render = lineFirst t.line t.location d.bare

/-- Whether a report points into a text: at one of its lines and, unless it is about the text itself, at one of its
tokens. -/
structure PointsInto (d : Diagnostic) (source : String) : Prop where
  line : ∃ line, d.line? = some line ∧ 1 ≤ line ∧ line ≤ 1 + source.toList.count '\n'
  token : (∃ e, d = .lexical e) ∨ ∃ t ∈ (scan source).tokens, t.lexeme ≠ slotName ∧ d.PointsAt t

theorem PointsAt.pointsInto {d : Diagnostic} {t : Token} {source : String} (h : d.PointsAt t)
    (ht : t ∈ (scan source).tokens) : d.PointsInto source :=
  ⟨⟨t.line, h.line, (lines_of_scan source).1 t ht⟩, .inr ⟨t, ht, lexeme_ne_slot ht, h⟩⟩

end Diagnostic

open Diagnostic

/-- What stops a run is the output, or it points into the text of the program. -/
theorem pointsInto_of_failure {source : String} {m : Machine} (h : m.Sited (· ∈ (scan source).tokens)) {e : Failure}
    (he : m.verdict = some e) : (∃ fault, ofFailure e = .sink fault) ∨ (ofFailure e).PointsInto source := by
  unfold Machine.verdict Machine.failure? at he
  split at he
  · next failure found =>
    cases he
    split at found
    · next hc =>
      cases found
      have held := h.control
      rw [hc] at held
      cases e with
      | sink fault => exact .inl ⟨fault, rfl⟩
      | runtime e =>
        have mem : e.site ∈ (scan source).tokens := held
        exact .inr (PointsAt.pointsInto ⟨rfl, rfl, .inl ⟨e, rfl⟩⟩ mem)
    · cases found
  · obtain ⟨fault, -, rfl⟩ := Option.map_eq_some_iff.1 he
    exact .inl ⟨fault, rfl⟩

/-- The errors for which a text is not run point into it. -/
theorem pointsInto_of_rejected {source : String} {errors : List Diagnostic}
    (rejected : Program.ofSource source = .error errors) : ∀ d ∈ errors, d.PointsInto source := by
  unfold Program.ofSource at rejected
  dsimp only at rejected
  intro d hd
  split at rejected
  · cases rejected
    obtain ⟨e, he, rfl⟩ := List.mem_map.1 hd
    exact ⟨⟨e.line, rfl, (lines_of_scan source).2 e he⟩, .inl ⟨e, rfl⟩⟩
  split at rejected
  · cases rejected
    obtain ⟨e, he, rfl⟩ := List.mem_map.1 hd
    exact PointsAt.pointsInto ⟨rfl, rfl, .inr rfl⟩ (sites_parse (endOfInput_mem_scan source) e he)
  · next parsed =>
    split at rejected
    · cases rejected
      obtain ⟨e, he, rfl⟩ := List.mem_map.1 hd
      have located : Stmt.Located (· ∈ (scan source).tokens) _ := located_parse (by simpa using parsed)
      exact PointsAt.pointsInto ⟨rfl, rfl, .inr rfl⟩ (located.reports.errors_resolve e he)
    · cases rejected

/-- Whatever the text and however a program ends, every error that is reported is a loss of output or points into the
text. -/
theorem runSource_located {fuel : Nat} {source : String} {sink : Sink} {o : Outcome}
    (ends : runSource fuel source sink = some o) :
    ∀ d ∈ o.ending.errors, (∃ fault, d = .sink fault) ∨ d.PointsInto source := by
  unfold runSource at ends
  split at ends
  · next errors rejected =>
    cases ends
    exact fun d hd => .inr (pointsInto_of_rejected rejected d hd)
  · next program accepted =>
    obtain ⟨-, rfl⟩ := Machine.runStatements_eq_some_iff.1 ends
    have held := Machine.sited_iterate (program.located accepted) (resolved_of_ofSource accepted) sink fuel
    unfold Machine.outcome
    split
    · rintro _ ⟨⟩
    · next e he => exact List.forall_mem_singleton.2 (pointsInto_of_failure held he)

/-- In a function that a pass of a loop has left behind, when the loop is over. -/
theorem runSource_located_later :
    ∃ o d, runSource 100
        "var g;\nfor (var a; !a; a = true) \x7b fun f() \x7b return a.b; \x7d g = f; \x7d\ng();" .unlimited = some o ∧
      o.ending.errors = [d] ∧ d.render = "Only instances have properties.\n[line 2]" ∧
        d.PointsInto "var g;\nfor (var a; !a; a = true) \x7b fun f() \x7b return a.b; \x7d g = f; \x7d\ng();" := by
  have ran : ∃ o ∈ runSource 100
      "var g;\nfor (var a; !a; a = true) \x7b fun f() \x7b return a.b; \x7d g = f; \x7d\ng();" .unlimited,
      o.ending.errors.map render = ["Only instances have properties.\n[line 2]"] := by decide +kernel
  obtain ⟨o, ho, reports⟩ := ran
  obtain ⟨d, errors, report⟩ := List.map_eq_singleton_iff.1 reports
  refine ⟨o, d, ho, errors, report, ?_⟩
  rcases runSource_located ho d (by rw [errors]; exact List.mem_cons_self) with ⟨fault, rfl⟩ | into
  · cases fault <;> exact absurd report (by decide)
  · exact into

end Lox
