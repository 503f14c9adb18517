/-
What the rules for expressions take, where they find nothing wrong, is how the expression they give is written.
The rules stop early where their fuel is used up, so this is said of at most as many tokens as there is fuel; a list of
entries that stops early has taken a comma for each unit of its fuel, and that is too many.
-/
import Lox.Proofs.Grammar.Takes
import Lox.Proofs.Grammar.Written

namespace Lox

/-- Whether a rule reads expressions of a level as they are written, from at most `fuel` tokens. -/
def Rule.ReadsWritten (r : Rule Expr) (k fuel : Nat) : Prop :=
  ∀ c : Cursor, r.Takes c fun w e => w.length ≤ fuel → e.Written k w

/-- Entries that are each as they should be, not too many of them, with commas between them. -/
def Listed {α : Type} (good : List Token → α → Prop) (w : List Token) (as : List α) : Prop :=
  ∃ entries : List (α × List Token), as = entries.map (·.1) ∧ (∀ entry ∈ entries, good entry.2 entry.1) ∧
    entries.length ≤ arityLimit ∧ Separated (entries.map (·.2)) w

/-- What is said of each entry may depend on there being no more tokens in it than in all of them. -/
theorem Listed.mono {α : Type} {good good' : List Token → α → Prop} {w : List Token} {as : List α}
    (h : Listed good w as) (hg : ∀ u a, u.length ≤ w.length → good u a → good' u a) : Listed good' w as := by
  obtain ⟨entries, rfl, each, limit, sep⟩ := h
  refine ⟨entries, rfl, fun entry mem => hg _ _ ?_ (each entry mem), limit, sep⟩
  exact sep.length_le (List.mem_map_of_mem mem)

namespace Rule

variable {c : Cursor} {inner : Rule Expr} {f : Nat}

/-! ## Lists -/

/-- At least one more entry is read, after those found; a fault is recorded if they are too many. -/
theorem entries_takes {α : Type} (tooMany : SyntaxFault) {entry : Rule α} {good : List Token → α → Prop}
    (he : ∀ c : Cursor, entry.Takes c good) :
    ∀ (fuel : Nat) {c : Cursor} {found : List α},
      (entries tooMany entry fuel found).Takes c fun w as =>
        w.length < fuel → ∃ more : List (α × List Token), as = found.reverse ++ more.map (·.1) ∧ more ≠ [] ∧
          (∀ entry ∈ more, good entry.2 entry.1) ∧ as.length ≤ arityLimit ∧ Separated (more.map (·.2)) w
  | 0, _, _ => .pure fun h => absurd h (Nat.not_lt_zero _)
  | fuel + 1, c, found => by
    have rest : ∀ c' : Cursor,
        Takes (do
          let found := (← entry) :: found
          if ← accept .comma then entries tooMany entry fuel found else return found.reverse) c' fun w as =>
          w.length < fuel + 1 → ∃ more : List (α × List Token), as = found.reverse ++ more.map (·.1) ∧ more ≠ [] ∧
            (∀ entry ∈ more, good entry.2 entry.1) ∧ (found.length < arityLimit → as.length ≤ arityLimit) ∧
            Separated (more.map (·.2)) w := by
      intro c'
      refine .bind (he c') fun a c₁ => accept_takes (fun comma c₂ hc => ?_) ?_
      · refine (entries_takes tooMany he fuel).mono fun v as read u first short => ?_
        rw [List.length_append, List.length_cons] at short
        obtain ⟨more, rfl, some, each, limit, sep⟩ := read (by omega)
        refine ⟨(a, u) :: more, by simp, by simp, List.forall_mem_cons.2 ⟨first, each⟩, fun _ => limit, ?_⟩
        exact .cons hc (by simpa using some) sep
      · refine .pure fun u first short => ⟨[(a, u)], by simp, by simp, by simpa using first, fun room => ?_, ?_⟩
        · simpa using Nat.succ_le_of_lt room
        · simpa using Separated.one u
    unfold entries
    split
    · exact peek_takes (record_takes _ _ rest)
    · next room =>
      refine (rest c).mono fun w as read short => ?_
      obtain ⟨more, eq, some, each, limit, sep⟩ := read short
      exact ⟨more, eq, some, each, limit (Nat.lt_of_not_le room), sep⟩

/-- A list of entries that is empty if a token of some kind is next. -/
theorem listed_takes {α : Type} (tooMany : SyntaxFault) {entry : Rule α} {good : List Token → α → Prop}
    (he : ∀ c : Cursor, entry.Takes c good) (close : Kind) (fuel : Nat) :
    Takes (do if ← check close then return [] else entries tooMany entry fuel []) c fun w as =>
      w.length < fuel → Listed good w as := by
  refine check_takes ?_
  split
  · exact .pure fun _ => ⟨[], rfl, List.forall_mem_nil _, Nat.zero_le _, .nil⟩
  · refine (entries_takes tooMany he fuel).mono fun w as read short => ?_
    obtain ⟨more, rfl, _, each, limit, sep⟩ := read short
    exact ⟨more, rfl, each, by simpa using limit, sep⟩

/-! ## Primary expressions, calls and properties -/

/-- A token that carries the value of a constant is read as that constant. -/
theorem carried_written {c : Cursor} (ne : c.peek.kind ≠ .endOfInput) (hv : c.peek.constant? = c.peek.literal) :
    Takes (do
      advance
      match c.peek.literal with
      | some value => return Expr.literal value
      | none => throw ⟨.missingExpression, c.peek⟩) c fun w e => w.length ≤ f + 1 → e.Written 9 w := by
  refine advance_takes ne fun _ => ?_
  split
  · next value h => exact .pure fun _ => .literal (Nat.le_refl _) (hv.trans h)
  · exact .throw _

theorem primary_written (hi : inner.ReadsWritten 0 f) : (primary inner).ReadsWritten 9 (f + 1) := by
  intro c
  refine peek_takes ?_
  have constant : ∀ {value : Literal}, c.peek.kind ≠ .endOfInput → c.peek.constant? = some value →
      Takes (do advance; return Expr.literal value) c fun w e => w.length ≤ f + 1 → e.Written 9 w :=
    fun ne hv => advance_takes ne fun _ => .pure fun _ => .literal (Nat.le_refl _) hv
  split
  · next h => exact constant (by rw [h]; decide) (by rw [Token.constant?, h])
  · next h => exact constant (by rw [h]; decide) (by rw [Token.constant?, h])
  · next h => exact constant (by rw [h]; decide) (by rw [Token.constant?, h])
  · next h => exact carried_written (by rw [h]; decide) (by rw [Token.constant?, h])
  · next h => exact carried_written (by rw [h]; decide) (by rw [Token.constant?, h])
  · next h =>
    refine advance_takes (by rw [h]; decide) fun _ => expect_takes fun dot _ hd => expect_takes fun method _ hm => ?_
    exact newUses_takes fun _ _ => .pure fun _ => .super (Nat.le_refl _) h hd hm
  · next h =>
    exact advance_takes (by rw [h]; decide) fun _ => newUses_takes fun _ _ => .pure fun _ => .self (Nat.le_refl _) h
  · next h =>
    exact advance_takes (by rw [h]; decide) fun _ => newUses_takes fun _ _ => .pure fun _ => .ref (Nat.le_refl _) h
  · next h =>
    refine advance_takes (by rw [h]; decide) fun c₁ => .bind (hi c₁) fun e c₂ => expect_takes fun right _ hr => ?_
    refine .pure fun w read short => .group (Nat.le_refl _) h hr (read ?_)
    simp only [List.length_cons, List.length_append] at short
    omega
  · exact stop_takes _

/-- Calls and properties are read after an expression that is already there. -/
theorem suffixes_written (hi : inner.ReadsWritten 0 f) :
    ∀ (n : Nat) {c : Cursor} {e : Expr}, n ≤ f + 1 →
      (suffixes inner n e).Takes c fun w e' => w.length ≤ n → ∀ u, e.Written 8 u → e'.Written 8 (u ++ w)
  | 0, _, e, _ => .pure fun _ u he => by rwa [List.append_nil]
  | n + 1, c, e, hn => by
    refine accept_takes (fun left c₁ hl => ?_) (accept_takes (fun dot c₁ hd => ?_) ?_)
    · refine .bind (listed_takes .tooManyArguments hi .rightParen (n + 1)) fun values c₂ => ?_
      refine expect_takes fun paren c₃ hr => (suffixes_written hi n (Nat.le_of_succ_le hn)).mono ?_
      intro v e' read a listed short u he
      simp only [List.length_cons, List.length_append] at short
      have listed : Listed (fun u e => e.Written 0 u) a values :=
        (listed (by omega)).mono fun u _ le given => given (by omega)
      obtain ⟨entries, rfl, each, limit, sep⟩ := listed
      have := read (by omega) _ (.call (Nat.le_refl _) hl hr he each limit sep)
      simpa using this
    · refine expect_takes fun name c₂ hname => (suffixes_written hi n (Nat.le_of_succ_le hn)).mono ?_
      intro v e' read short u he
      have := read (by simp only [List.length_cons] at short; omega) _ (.get (Nat.le_refl _) hd hname he)
      simpa using this
    · exact .pure fun _ u he => by rwa [List.append_nil]

theorem call_written (hi : inner.ReadsWritten 0 f) : (call (f + 1) inner).ReadsWritten 8 (f + 1) := by
  intro c
  refine .bind (primary_written hi c) fun e c₁ => (suffixes_written hi (f + 1) (Nat.le_refl _)).mono ?_
  intro v e' suffixes u primary short
  rw [List.length_append] at short
  exact suffixes (by omega) u ((primary (by omega)).lower (by decide))

/-! ## Operators -/

/-- Signs are read after those found, which come last first. -/
theorem leadingSigns_takes :
    ∀ (n : Nat) {c : Cursor} {found : List Token},
      (leadingSigns n found).Takes c fun w all => all = w.reverse ++ found ∧ ∀ t ∈ w, t.kind ∈ signs
  | 0, _, _ => .pure ⟨rfl, List.forall_mem_nil _⟩
  | n + 1, c, found => by
    refine acceptAny?_takes (fun sign c₁ hs => (leadingSigns_takes n).mono ?_) (.pure ⟨rfl, List.forall_mem_nil _⟩)
    rintro v _ ⟨rfl, signs⟩
    exact ⟨by simp, List.forall_mem_cons.2 ⟨hs, signs⟩⟩

theorem written_signs {w v : List Token} {e : Expr} (h : ∀ t ∈ w, t.kind ∈ signs) (he : e.Written 7 v) :
    (w.reverse.foldl (fun e sign => .unary sign e) e).Written 7 (w ++ v) := by
  induction w with
  | nil => exact he
  | cons sign w ih =>
    obtain ⟨first, rest⟩ := List.forall_mem_cons.1 h
    rw [List.reverse_cons, List.foldl_append]
    exact .unary (Nat.le_refl _) first (ih rest)

theorem signed_written (hi : inner.ReadsWritten 0 f) : (signed (f + 1) inner).ReadsWritten 7 (f + 1) := by
  intro c
  refine .bind (leadingSigns_takes (f + 1)) fun found c₁ => .bind (call_written hi c₁) fun e c₂ => .pure ?_
  rintro v operand w ⟨rfl, signs⟩ short
  simp only [List.length_append, List.length_nil, Nat.add_zero] at short
  rw [List.append_nil, List.append_nil]
  exact written_signs signs ((operand (by omega)).lower (by decide))

/-- Operators and their right operands are read after a left operand that is already there. -/
theorem chain_written {i : Nat} {level : Level} (hl : levels[i]? = some level) {operand : Rule Expr}
    (ho : operand.ReadsWritten (i + 2) f) :
    ∀ (n : Nat) {c : Cursor} {left : Expr},
      (chain level operand n left).Takes c fun w e =>
        w.length ≤ f → ∀ u, left.Written (i + 1) u → e.Written (i + 1) (u ++ w)
  | 0, _, _ => .pure fun _ u hu => by rwa [List.append_nil]
  | n + 1, c, left => by
    refine acceptAny?_takes (fun operator c₁ hop => ?_) (.pure fun _ u hu => by rwa [List.append_nil])
    refine .bind (ho c₁) fun right c₂ => (chain_written hl ho n).mono fun w e read v operand short u hu => ?_
    simp only [List.length_cons, List.length_append] at short
    have := read (by omega) _ (written_build hl hop hu (operand (by omega)))
    simpa using this

theorem operation_written (hi : inner.ReadsWritten 0 f) : (operation (f + 1) inner).ReadsWritten 1 (f + 1) := by
  have levelled : ∀ (ls : List Level) (i : Nat), ls = levels.drop i → i + ls.length = levels.length →
      (ls.foldr (leftAssociative (f + 1)) (signed (f + 1) inner)).ReadsWritten (i + 1) (f + 1) := by
    intro ls
    induction ls with
    | nil =>
      intro i _ hi'
      obtain rfl : i = 6 := hi'
      exact signed_written hi
    | cons level ls ih =>
      intro i hls hlen
      have hl : levels[i]? = some level := by rw [← List.head?_drop, ← hls]; rfl
      have rest : ls = levels.drop (i + 1) := by rw [← List.tail_drop, ← hls]; rfl
      have ho := ih (i + 1) rest (by rw [← hlen, List.length_cons]; omega)
      intro c
      refine .bind (ho c) fun left c₁ => (chain_written hl ho (f + 1)).mono fun w e read u operand short => ?_
      rw [List.length_append] at short
      exact read (by omega) u ((operand (by omega)).lower (Nat.le_succ _))
  exact levelled levels 0 rfl rfl

theorem assignment_written (hi : inner.ReadsWritten 0 f) : (assignment (f + 1) inner).ReadsWritten 0 (f + 1) := by
  intro c
  refine .bind (operation_written hi c) fun target c₁ => acceptAny?_takes (fun equals c₂ heq => ?_) ?_
  · refine .bind (hi c₂) fun value c₃ => ?_
    obtain heq := List.mem_singleton.1 heq
    split
    · refine newUses_takes fun id c₄ => .pure fun v read u target short => ?_
      simp only [List.length_append, List.length_cons, List.length_nil] at short
      cases target (by omega) with
      | ref _ hn =>
        rw [List.append_nil]
        exact .assign hn heq (read (by simp at short; omega))
    · refine .pure fun v read u target short => ?_
      simp only [List.length_append, List.length_cons, List.length_nil] at short
      have v_short : v.length ≤ f := by
        have := (target (by omega)).length_pos
        omega
      cases target (by omega) with
      | @get _ _ dot name u _ hd hn ho =>
        simpa using Expr.Written.set hd hn heq ho (read v_short)
    · exact record_takes _ _ fun _ => show Takes (pure target) _ fun _ _ => True from .pure trivial
  · exact .pure fun u target short => by
      rw [List.append_nil] at short ⊢
      exact (target short).lower (Nat.zero_le _)

/-- What is read as an expression is how the expression is written. -/
theorem expression_written (fuel : Nat) : (expression fuel).ReadsWritten 0 fuel := by
  induction fuel with
  | zero => exact fun _ => stop_takes _
  | succ fuel ih => exact assignment_written ih

end Rule

end Lox
