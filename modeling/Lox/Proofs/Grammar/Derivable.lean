/-
The parser accepts just its grammar: it finds nothing wrong in a list of tokens if and only if those before the first
end token are derived by the rule for programs (`errors_parse_iff`).
-/
import Lox.Proofs.Grammar.AcceptsProgram

namespace Lox

/-! ## Derived parts -/

/-- Whether the tokens of constants carry them. -/
def Carrying (w : List Token) : Prop := ∀ t ∈ w, t.kind = .number ∨ t.kind = .string → t.literal.isSome

theorem carrying_append {u v : List Token} : Carrying (u ++ v) ↔ Carrying u ∧ Carrying v := List.forall_mem_append

theorem Carrying.of_flatten {us : List (List Token)} (h : Carrying us.flatten) : ∀ u ∈ us, Carrying u :=
  fun _ hu t ht => h t (List.mem_flatten_of_mem hu ht)

/-- How the tokens are read that a rule of the grammar derives. -/
def Symbol.Read : Symbol → List Token → Prop
  | program, w => ∃ us : List (List Token), w = us.flatten ∧ ∀ u ∈ us, ReadAsDeclaration u
  | declaration, w | classDecl, w | funDecl, w => ReadAsDeclaration w
  | function, w => ReadAsRoutine w
  | varDecl, w => ∃ s : Stmt, s.Written varDecl w
  | exprStmt, w => ∃ s : Stmt, s.Written exprStmt w
  | printStmt, w => ∃ s : Stmt, s.Written printStmt w
  | returnStmt, w => ∃ s : Stmt, s.Written returnStmt w
  | statement, w | forStmt, w | ifStmt, w | whileStmt, w => ∃ ifs, Settled ifs w
  | block, w => ReadAsBlock w
  | parameters, w => ∃ ps : List Token, (∀ p ∈ ps, p.kind = .identifier) ∧ ps.length ≤ arityLimit ∧
      Separated (ps.map ([·])) w
  | arguments, w => ∃ entries : List (Expr × List Token), (∀ entry ∈ entries, entry.1.Written 0 entry.2) ∧
      entries.length ≤ arityLimit ∧ Separated (entries.map (·.2)) w
  | expression, w | assignment, w => ∃ e : Expr, e.Written 0 w
  | logicOr, w => ∃ e : Expr, e.Written 1 w
  | logicAnd, w => ∃ e : Expr, e.Written 2 w
  | equality, w => ∃ e : Expr, e.Written 3 w
  | comparison, w => ∃ e : Expr, e.Written 4 w
  | term, w => ∃ e : Expr, e.Written 5 w
  | factor, w => ∃ e : Expr, e.Written 6 w
  | unary, w => ∃ e : Expr, e.Written 7 w
  | call, w => ∃ e : Expr, e.Written 8 w
  | primary, w => ∃ e : Expr, e.Written 9 w

/-- What is known of the parts of a rule while it is looked at. -/
abbrev Symbol.Known (symbol : Symbol) (w : List Token) : Prop := Carrying w → symbol.Read w

theorem Symbol.read_ofLevel {k : Nat} (hk : k ≤ 9) {w : List Token} :
    (ofLevel k).Read w ↔ ∃ e : Expr, e.Written k w := by
  match k, hk with
  | 0, _ | 1, _ | 2, _ | 3, _ | 4, _ | 5, _ | 6, _ | 7, _ | 8, _ | 9, _ => exact Iff.rfl

/-! ## Lists -/

/-- What a list derives are some sequences, but not too many, with commas between them. -/
theorem separated_of_list {rules : Symbol → List Token → Prop} {p : Phrase} {w : List Token}
    (h : (Phrase.list p).Language rules w) :
    ∃ ws, ws.length ≤ arityLimit ∧ Separated ws w ∧ ∀ u ∈ ws, p.Language rules u := by
  have more : ∀ us : List (List Token), (∀ x ∈ us, (Phrase.seq (.word .comma) p).Language rules x) →
      ∀ u, p.Language rules u → ∃ ws, ws.length = us.length + 1 ∧ Separated ws (u ++ us.flatten) ∧
        ∀ u ∈ ws, p.Language rules u := by
    intro us
    induction us with
    | nil => exact fun _ u hu => ⟨[u], rfl, by simpa using Separated.one u, by simpa using hu⟩
    | cons x us ih =>
      intro each u hu
      obtain ⟨⟨_, v, rfl, ⟨comma, hc, rfl⟩, hv⟩, others⟩ := List.forall_mem_cons.1 each
      obtain ⟨ws, len, sep, all⟩ := ih others v hv
      refine ⟨u :: ws, by simp [len], ?_, List.forall_mem_cons.2 ⟨hu, all⟩⟩
      have ne : ws ≠ [] := fun h => by rw [h] at len; cases len
      simpa using Separated.cons hc ne sep
  obtain ⟨u, _, rfl, hu, us, le, rfl, each⟩ := h
  obtain ⟨ws, len, sep, all⟩ := more us each u hu
  exact ⟨ws, by rw [len]; exact Nat.succ_le_succ le, sep, all⟩

/-- Sequences that each stand for something, with what they stand for. -/
theorem exists_entries {α : Type} {good : α → List Token → Prop} {ws : List (List Token)}
    (h : ∀ w ∈ ws, ∃ a, good a w) :
    ∃ entries : List (α × List Token), entries.map (·.2) = ws ∧ ∀ entry ∈ entries, good entry.1 entry.2 := by
  induction ws with
  | nil => exact ⟨[], rfl, List.forall_mem_nil _⟩
  | cons w ws ih =>
    obtain ⟨⟨a, ha⟩, rest⟩ := List.forall_mem_cons.1 h
    obtain ⟨entries, rfl, each⟩ := ih rest
    exact ⟨(a, w) :: entries, rfl, List.forall_mem_cons.2 ⟨ha, each⟩⟩

theorem Separated.carrying {ws : List (List Token)} {w : List Token} (h : Separated ws w) (hw : Carrying w) :
    ∀ u ∈ ws, Carrying u := by
  induction h with
  | nil => exact List.forall_mem_nil _
  | one => exact fun u hu => List.mem_singleton.1 hu ▸ hw
  | cons _ _ _ ih =>
    obtain ⟨first, rest⟩ := carrying_append.1 hw
    exact List.forall_mem_cons.2 ⟨first, ih fun t ht => rest t (List.mem_cons_of_mem _ ht)⟩

/-! ## Expressions -/

/-- Operands with operators between them are written as a chain of operations. -/
theorem written_chain {k : Nat} (lo : 0 < k) (hi : k < 7) {w : List Token} (hw : Carrying w)
    (h : (Symbol.ofLevel k).rule.Language Symbol.Known w) : ∃ e : Expr, e.Written k w := by
  have next : ∀ {w}, Carrying w → (Symbol.ofLevel (k + 1)).Known w → ∃ e : Expr, e.Written (k + 1) w :=
    fun hw h => (Symbol.read_ofLevel (by omega)).1 (h hw)
  have more : ∀ us : List (List Token), Carrying us.flatten →
      (∀ x ∈ us, (Phrase.seq (.operators k) (.part (.ofLevel (k + 1)))).Language Symbol.Known x) →
      ∀ (u : List Token) (e : Expr), e.Written k u → ∃ e : Expr, e.Written k (u ++ us.flatten) := by
    intro us
    induction us with
    | nil => exact fun _ _ u e he => ⟨e, by simpa using he⟩
    | cons x us ih =>
      intro hus each u e he
      obtain ⟨⟨_, v, rfl, op, hv⟩, others⟩ := List.forall_mem_cons.1 each
      obtain ⟨operator, rank, rfl⟩ := rank_of_operators lo hi op
      obtain ⟨first, rest⟩ := carrying_append.1 hus
      obtain ⟨b, hb⟩ := next (carrying_append.1 first).2 hv
      have built : ∃ e' : Expr, e'.Written k (u ++ operator :: v) := by
        by_cases two : k ≤ 2
        · exact ⟨_, .logical (Nat.le_refl _) rank two he hb⟩
        · exact ⟨_, .binary (Nat.le_refl _) rank (Nat.lt_of_not_le two) he hb⟩
      obtain ⟨e', he'⟩ := built
      simpa using ih rest others _ e' he'
  rw [Symbol.rule_ofLevel lo hi] at h
  obtain ⟨u, _, rfl, hu, us, rfl, each⟩ := h
  obtain ⟨first, rest⟩ := carrying_append.1 hw
  obtain ⟨e, he⟩ := next first hu
  exact more us rest each u e (he.lower (Nat.le_succ k))

/-- A primary expression with calls and properties is written as a chain of them. -/
theorem written_call {w : List Token} (hw : Carrying w) (h : Symbol.call.rule.Language Symbol.Known w) :
    ∃ e : Expr, e.Written 8 w := by
  have more : ∀ us : List (List Token), Carrying us.flatten →
      (∀ x ∈ us, (Phrase.alt (.all [.word .leftParen, .opt (.part .arguments), .word .rightParen])
        (.seq (.word .dot) (.word .identifier))).Language Symbol.Known x) →
      ∀ (u : List Token) (e : Expr), e.Written 8 u → ∃ e : Expr, e.Written 8 (u ++ us.flatten) := by
    intro us
    induction us with
    | nil => exact fun _ _ u e he => ⟨e, by simpa using he⟩
    | cons x us ih =>
      intro hus each u e he
      obtain ⟨hx, others⟩ := List.forall_mem_cons.1 each
      obtain ⟨first, rest⟩ := carrying_append.1 hus
      have suffixed : ∃ e' : Expr, e'.Written 8 (u ++ x) := by
        rcases hx with ⟨_, _, rfl, ⟨left, hl, rfl⟩, v, _, rfl, arguments, ⟨right, hr, rfl⟩⟩ | hx
        · obtain ⟨entries, written, limit, sep⟩ : Symbol.arguments.Read v := by
            rcases arguments with rfl | arguments
            · exact ⟨[], List.forall_mem_nil _, Nat.zero_le _, .nil⟩
            · exact arguments (carrying_append.1 (carrying_append.1 first).2).1
          exact ⟨_, .call (Nat.le_refl _) hl hr he written limit sep⟩
        · obtain ⟨_, _, rfl, ⟨dot, hd, rfl⟩, ⟨name, hn, rfl⟩⟩ := hx
          exact ⟨_, .get (Nat.le_refl _) hd hn he⟩
      obtain ⟨e', he'⟩ := suffixed
      simpa using ih rest others _ e' he'
  obtain ⟨u, _, rfl, hu, us, rfl, each⟩ := h
  obtain ⟨first, rest⟩ := carrying_append.1 hw
  obtain ⟨e, he⟩ := hu first
  exact more us rest each u e (he.lower (by decide))

theorem written_primary {w : List Token} (hw : Carrying w) (h : Symbol.primary.rule.Language Symbol.Known w) :
    ∃ e : Expr, e.Written 9 w := by
  have constant : ∀ {t : Token} {value : Literal}, t.constant? = some value → ∃ e : Expr, e.Written 9 [t] :=
    fun h => ⟨_, .literal (Nat.le_refl _) h⟩
  have carried : ∀ {t : Token}, t.constant? = t.literal → t.literal.isSome → ∃ e : Expr, e.Written 9 [t] := by
    intro t ht some
    obtain ⟨value, hv⟩ := Option.isSome_iff_exists.1 some
    exact constant (ht.trans hv)
  rcases h with ⟨t, ht, rfl⟩ | ⟨t, ht, rfl⟩ | ⟨t, ht, rfl⟩ | ⟨t, ht, rfl⟩ | ⟨t, ht, rfl⟩ | ⟨t, ht, rfl⟩ | ⟨t, ht, rfl⟩ |
    h | h
  · exact carried (by rw [Token.constant?, ht]) (hw t (by simp) (.inl ht))
  · exact carried (by rw [Token.constant?, ht]) (hw t (by simp) (.inr ht))
  · exact constant (by rw [Token.constant?, ht])
  · exact constant (by rw [Token.constant?, ht])
  · exact constant (by rw [Token.constant?, ht])
  · exact ⟨.self 0 t, .self (Nat.le_refl _) ht⟩
  · exact ⟨.ref 0 t, .ref (Nat.le_refl _) ht⟩
  · obtain ⟨_, _, rfl, ⟨left, hl, rfl⟩, u, _, rfl, hu, ⟨right, hr, rfl⟩⟩ := h
    obtain ⟨e, he⟩ := hu (carrying_append.1 (carrying_append.1 hw).2).1
    exact ⟨_, .group (Nat.le_refl _) hl hr he⟩
  · obtain ⟨_, _, rfl, ⟨keyword, hk, rfl⟩, _, _, rfl, ⟨dot, hd, rfl⟩, ⟨method, hm, rfl⟩⟩ := h
    exact ⟨.super 0 keyword method, .super (Nat.le_refl _) hk hd hm⟩

theorem written_unary {w : List Token} (hw : Carrying w) (h : Symbol.unary.rule.Language Symbol.Known w) :
    ∃ e : Expr, e.Written 7 w := by
  rcases h with ⟨_, v, rfl, op, hv⟩ | h
  · obtain ⟨operator, mem, rfl⟩ := Phrase.language_anyWord op
    obtain ⟨e, he⟩ := hv (carrying_append.1 hw).2
    exact ⟨_, .unary (Nat.le_refl _) mem he⟩
  · obtain ⟨e, he⟩ := h hw
    exact ⟨e, he.lower (by decide)⟩

theorem written_assignment {w : List Token} (hw : Carrying w) (h : Symbol.assignment.rule.Language Symbol.Known w) :
    ∃ e : Expr, e.Written 0 w := by
  rcases h with ⟨x, _, rfl, hx, _, _, rfl, ⟨name, hn, rfl⟩, _, v, rfl, ⟨equals, heq, rfl⟩, hv⟩ | h
  · obtain ⟨e, he⟩ := hv (carrying_append.1 (carrying_append.1 (carrying_append.1 hw).2).2).2
    rcases hx with rfl | ⟨u, _, rfl, hu, ⟨dot, hd, rfl⟩⟩
    · exact ⟨.assign 0 name e, .assign hn heq he⟩
    · obtain ⟨object, ho⟩ := hu (carrying_append.1 (carrying_append.1 hw).1).1
      exact ⟨_, by simpa using Expr.Written.set hd hn heq ho he⟩
  · obtain ⟨e, he⟩ := h hw
    exact ⟨e, he.lower (by decide)⟩

/-! ## Statements -/

theorem writtenOption_of_opt {w : List Token} (hw : Carrying w)
    (h : (Phrase.opt (.part .expression)).Language Symbol.Known w) : ∃ o, Expr.WrittenOption o w := by
  rcases h with rfl | h
  · exact ⟨none, .none⟩
  · obtain ⟨e, he⟩ := h hw
    exact ⟨some e, .some he⟩

theorem written_varDecl {w : List Token} (hw : Carrying w) (h : Symbol.varDecl.rule.Language Symbol.Known w) :
    ∃ s : Stmt, s.Written .varDecl w := by
  obtain ⟨_, _, rfl, ⟨word, hword, rfl⟩, _, _, rfl, ⟨name, hn, rfl⟩, u, _, rfl, hu, ⟨close, hc, rfl⟩⟩ := h
  have hu' := (carrying_append.1 (carrying_append.1 (carrying_append.1 hw).2).2).1
  rcases hu with rfl | ⟨_, v, rfl, ⟨equals, heq, rfl⟩, hv⟩
  · exact ⟨_, .varDecl hword hn .none hc⟩
  · obtain ⟨e, he⟩ := hv (carrying_append.1 hu').2
    exact ⟨_, .varDecl hword hn (.some heq he) hc⟩

/-- The first clause of a `for` loop. -/
theorem written_start {w : List Token} (hw : Carrying w)
    (h : (Phrase.any (.part .varDecl) [.part .exprStmt, .word .semicolon]).Language Symbol.Known w) :
    ∃ first, Stmt.WrittenStart first w := by
  rcases h with h | h | ⟨close, hc, rfl⟩
  · obtain ⟨s, hs⟩ := h hw
    exact ⟨some s, .some (.inl rfl) hs⟩
  · obtain ⟨s, hs⟩ := h hw
    exact ⟨some s, .some (.inr rfl) hs⟩
  · exact ⟨none, .none hc⟩

theorem settled_for {w : List Token} (hw : Carrying w) (h : Symbol.forStmt.rule.Language Symbol.Known w) :
    ∃ ifs, Settled ifs w := by
  obtain ⟨_, _, rfl, ⟨word, hword, rfl⟩, _, _, rfl, ⟨left, hl, rfl⟩, a, _, rfl, ha, b, _, rfl, hb, _, _, rfl,
    ⟨close, hclose, rfl⟩, c, _, rfl, hc, _, v, rfl, ⟨right, hr, rfl⟩, hv⟩ := h
  simp only [carrying_append] at hw
  obtain ⟨-, -, wa, wb, -, wc, -, wv⟩ := hw
  obtain ⟨first, ha⟩ := written_start wa ha
  obtain ⟨condition, hb⟩ := writtenOption_of_opt wb hb
  obtain ⟨increment, hc⟩ := writtenOption_of_opt wc hc
  obtain ⟨ifs, hv⟩ := hv wv
  exact ⟨ifs, by simpa using Settled.loop (.forLoop hword hl ha hb hclose hc hr) hv⟩

theorem settled_while {w : List Token} (hw : Carrying w) (h : Symbol.whileStmt.rule.Language Symbol.Known w) :
    ∃ ifs, Settled ifs w := by
  obtain ⟨_, _, rfl, ⟨word, hword, rfl⟩, _, _, rfl, ⟨left, hl, rfl⟩, u, _, rfl, hu, _, v, rfl, ⟨right, hr, rfl⟩, hv⟩ := h
  simp only [carrying_append] at hw
  obtain ⟨-, -, wu, -, wv⟩ := hw
  obtain ⟨e, he⟩ := hu wu
  obtain ⟨ifs, hv⟩ := hv wv
  exact ⟨ifs, by simpa using Settled.loop (.whileDo hword hl he hr) hv⟩

theorem settled_if {w : List Token} (hw : Carrying w) (h : Symbol.ifStmt.rule.Language Symbol.Known w) :
    ∃ ifs, Settled ifs w := by
  obtain ⟨_, _, rfl, ⟨word, hword, rfl⟩, _, _, rfl, ⟨left, hl, rfl⟩, u, _, rfl, hu, _, _, rfl, ⟨right, hr, rfl⟩, v, x,
    rfl, hv, hx⟩ := h
  simp only [carrying_append] at hw
  obtain ⟨-, -, wu, -, wv, wx⟩ := hw
  obtain ⟨e, he⟩ := hu wu
  obtain ⟨ifs, hv⟩ := hv wv
  have header := IfHeader.intro hword hl he hr
  rcases hx with rfl | ⟨_, v', rfl, ⟨other, ho, rfl⟩, hv'⟩
  · exact ⟨true, by simpa using Settled.ifThen header hv⟩
  · obtain ⟨ifs', hv'⟩ := hv' (carrying_append.1 wx).2
    cases ifs with
    | false => exact ⟨ifs', by simpa using Settled.ifElse header hv ho hv'⟩
    | true =>
      -- the branch ends in an `if` of its own, and the `else` belongs to that one
      obtain ⟨_, h⟩ := hv.attach ho hv'
      exact ⟨true, by simpa using Settled.ifThen header h⟩

theorem readAsRoutine_of_rule {w : List Token} (hw : Carrying w) (h : Symbol.function.rule.Language Symbol.Known w) :
    ReadAsRoutine w := by
  obtain ⟨_, _, rfl, ⟨name, hn, rfl⟩, _, _, rfl, ⟨left, hl, rfl⟩, u, _, rfl, hu, _, v, rfl, ⟨right, hr, rfl⟩, hv⟩ := h
  simp only [carrying_append] at hw
  obtain ⟨-, -, wu, -, wv⟩ := hw
  obtain ⟨ps, names, limit, sep⟩ : Symbol.parameters.Read u := by
    rcases hu with rfl | hu
    · exact ⟨[], List.forall_mem_nil _, Nat.zero_le _, .nil⟩
    · exact hu wu
  exact Rule.readAsRoutine hn hl names limit sep hr (hv wv)

theorem readAsDeclaration_of_class {w : List Token} (hw : Carrying w)
    (h : Symbol.classDecl.rule.Language Symbol.Known w) : ReadAsDeclaration w := by
  obtain ⟨_, _, rfl, ⟨word, hword, rfl⟩, _, _, rfl, ⟨name, hn, rfl⟩, u, _, rfl, hu, _, _, rfl, ⟨left, hl, rfl⟩, _, _,
    rfl, ⟨us, rfl, hus⟩, ⟨right, hr, rfl⟩⟩ := h
  simp only [carrying_append] at hw
  obtain ⟨-, -, -, -, wus, -⟩ := hw
  obtain ⟨o, ho⟩ : ∃ o, Expr.WrittenSuperclass o u := by
    rcases hu with rfl | ⟨_, _, rfl, ⟨less, hless, rfl⟩, ⟨name, hname, rfl⟩⟩
    · exact ⟨none, .none⟩
    · exact ⟨some (.ref 0 name), .some hless hname⟩
  exact Rule.declaration_of_class hword hn ho hl (fun u mem => hus u mem (wus.of_flatten u mem)) hr

theorem readAsBlock_of_rule {w : List Token} (hw : Carrying w) (h : Symbol.block.rule.Language Symbol.Known w) :
    ReadAsBlock w := by
  obtain ⟨_, _, rfl, ⟨left, hl, rfl⟩, _, _, rfl, ⟨us, rfl, hus⟩, ⟨right, hr, rfl⟩⟩ := h
  simp only [carrying_append] at hw
  exact readAsBlock hl (fun u mem => hus u mem (hw.2.1.of_flatten u mem)) hr

theorem settled_statement {w : List Token} (hw : Carrying w) (h : Symbol.statement.rule.Language Symbol.Known w) :
    ∃ ifs, Settled ifs w := by
  have simple : ∀ {symbol : Symbol} {w : List Token}, (∃ s : Stmt, s.Written symbol w) → symbol ≠ .varDecl →
      ∃ ifs, Settled ifs w := fun ⟨_, hs⟩ ne => ⟨false, .whole (Rule.simple_accepts hs ne)⟩
  rcases h with h | h | h | h | h | h | h
  · exact simple (h hw) nofun
  · exact h hw
  · exact h hw
  · exact simple (h hw) nofun
  · exact simple (h hw) nofun
  · exact h hw
  · exact ⟨false, .whole (Rule.statement_of_block (h hw))⟩

/-- What a rule derives is read, if what its parts derive is. -/
theorem Symbol.read_of_rule (symbol : Symbol) (w : List Token) (h : symbol.rule.Language Known w) : symbol.Known w := by
  intro hw
  cases symbol with
  | program =>
    obtain ⟨us, rfl, hus⟩ := h
    exact ⟨us, rfl, fun u mem => hus u mem (hw.of_flatten u mem)⟩
  | declaration =>
    rcases h with h | h | h | h
    · exact h hw
    · exact h hw
    · exact (h hw).elim fun _ => Rule.declaration_of_varDecl
    · exact (h hw).elim fun _ hs => Rule.declaration_of_statement hs.read
  | classDecl => exact readAsDeclaration_of_class hw h
  | funDecl =>
    obtain ⟨_, v, rfl, ⟨word, hword, rfl⟩, hv⟩ := h
    exact Rule.declaration_of_routine hword (hv (carrying_append.1 hw).2)
  | function => exact readAsRoutine_of_rule hw h
  | varDecl => exact written_varDecl hw h
  | statement => exact settled_statement hw h
  | exprStmt =>
    obtain ⟨u, _, rfl, hu, ⟨close, hc, rfl⟩⟩ := h
    obtain ⟨e, he⟩ := hu (carrying_append.1 hw).1
    exact ⟨_, .exprStmt he hc⟩
  | forStmt => exact settled_for hw h
  | ifStmt => exact settled_if hw h
  | printStmt =>
    obtain ⟨_, _, rfl, ⟨word, hword, rfl⟩, u, _, rfl, hu, ⟨close, hc, rfl⟩⟩ := h
    obtain ⟨e, he⟩ := hu (carrying_append.1 (carrying_append.1 hw).2).1
    exact ⟨_, .printStmt hword he hc⟩
  | returnStmt =>
    obtain ⟨_, _, rfl, ⟨word, hword, rfl⟩, u, _, rfl, hu, ⟨close, hc, rfl⟩⟩ := h
    obtain ⟨o, ho⟩ := writtenOption_of_opt (carrying_append.1 (carrying_append.1 hw).2).1 hu
    exact ⟨_, .returnStmt hword ho hc⟩
  | whileStmt => exact settled_while hw h
  | block => exact readAsBlock_of_rule hw h
  | parameters =>
    obtain ⟨ws, limit, sep, all⟩ := separated_of_list h
    have words : ∀ u ∈ ws, ∃ p : Token, p.kind = .identifier ∧ u = [p] := fun u hu => all u hu
    obtain ⟨entries, rfl, each⟩ := exists_entries words
    refine ⟨entries.map (·.1), fun p hp => ?_, by simpa using limit, ?_⟩
    · obtain ⟨entry, mem, rfl⟩ := List.mem_map.1 hp
      exact (each entry mem).1
    · rw [List.map_map]
      rwa [show entries.map ((fun p => [p]) ∘ (·.1)) = entries.map (·.2) from
        List.map_congr_left fun entry mem => (each entry mem).2.symm]
  | expression => exact h hw
  | assignment => exact written_assignment hw h
  | logicOr => exact written_chain (by decide) (by decide) hw h
  | logicAnd => exact written_chain (by decide) (by decide) hw h
  | equality => exact written_chain (by decide) (by decide) hw h
  | comparison => exact written_chain (by decide) (by decide) hw h
  | term => exact written_chain (by decide) (by decide) hw h
  | factor => exact written_chain (by decide) (by decide) hw h
  | unary => exact written_unary hw h
  | call => exact written_call hw h
  | arguments =>
    obtain ⟨ws, limit, sep, all⟩ := separated_of_list h
    obtain ⟨entries, rfl, each⟩ := exists_entries fun u hu => all u hu (sep.carrying hw u hu)
    exact ⟨entries, each, by simpa using limit, sep⟩
  | primary => exact written_primary hw h

/-! ## Programs -/

theorem mem_of_mem_beforeEnd {t : Token} {tokens : List Token} (h : t ∈ beforeEnd tokens) : t ∈ tokens :=
  (List.takeWhile_sublist _).mem h

/-- What comes after the tokens of a program starts with its end token, if it has one. -/
theorem beforeEnd_dropWhile (tokens : List Token) : beforeEnd (tokens.dropWhile (·.kind != .endOfInput)) = [] := by
  induction tokens with
  | nil => rfl
  | cons t tokens ih =>
    rw [List.dropWhile_cons]
    split
    · exact ih
    · next h => rw [beforeEnd, List.takeWhile_cons, if_neg h]

/-- The parser finds nothing wrong in just the token lists of the grammar. -/
theorem errors_parse_iff {tokens : List Token}
    (carrying : ∀ t ∈ tokens, t.kind = .number ∨ t.kind = .string → t.literal.isSome) :
    (parse tokens).errors = [] ↔ Derives (.part .program) (beforeEnd tokens) := by
  refine ⟨fun h => (written_parse h).derives, fun h => ?_⟩
  obtain ⟨us, hus, each⟩ := h.language Symbol.read_of_rule fun t ht => carrying t (mem_of_mem_beforeEnd ht)
  have split : tokens = us.flatten ++ tokens.dropWhile (·.kind != .endOfInput) := by
    rw [← hus]
    exact List.takeWhile_append_dropWhile.symm
  rw [split]
  exact errors_parse each (beforeEnd_dropWhile tokens)

/-- An assignment to a property of a call's result is in the grammar, so the parser finds nothing wrong in it. -/
theorem errors_parse_set :
    let tokens : List Token := [⟨.identifier, "f", none, 1⟩, ⟨.leftParen, "(", none, 1⟩,
      ⟨.number, "1", some (.number 1), 1⟩, ⟨.rightParen, ")", none, 1⟩, ⟨.dot, ".", none, 1⟩,
      ⟨.identifier, "x", none, 1⟩, ⟨.equal, "=", none, 1⟩, ⟨.nilWord, "nil", none, 1⟩,
      ⟨.semicolon, ";", none, 1⟩, .endAt 1]
    (∀ t ∈ tokens, t.kind = .number ∨ t.kind = .string → t.literal.isSome) ∧
      Derives (.part .program) (beforeEnd tokens) := by
  intro tokens
  have carrying : ∀ t ∈ tokens, t.kind = .number ∨ t.kind = .string → t.literal.isSome := by
    simp [tokens, Token.endAt]
  exact ⟨carrying, (errors_parse_iff carrying).1 (by decide +kernel)⟩

end Lox
