/-
The expressions that are read. From tidy tokens they are formed as the grammar promises, and from any tokens the uses
in one are numbered apart, from the next number at its start up to the next number at its end.
-/
import Lox.Proofs.Grammar.Rule

namespace Lox

/-! ## Numbers of uses -/

/-- Different numbers from `lo` up to `hi`, which is not one of them. -/
structure Numbered (lo hi : UseId) (ids : List UseId) : Prop where
  apart : ids.Nodup
  within : ∀ id ∈ ids, lo ≤ id ∧ id < hi

namespace Numbered

variable {lo mid hi : UseId} {a b : List UseId}

theorem nil : Numbered lo hi [] := ⟨.nil, List.forall_mem_nil _⟩

theorem one (id : UseId) : Numbered id (id + 1) [id] :=
  ⟨by simp, fun n h => by cases List.mem_singleton.1 h; exact ⟨Nat.le_refl _, Nat.lt_succ_self _⟩⟩

theorem widen {lo' hi' : UseId} (h : Numbered lo hi a) (hlo : lo' ≤ lo) (hhi : hi ≤ hi') : Numbered lo' hi' a :=
  ⟨h.apart, fun id hid => ⟨Nat.le_trans hlo (h.within id hid).1, Nat.lt_of_lt_of_le (h.within id hid).2 hhi⟩⟩

theorem append (h : Numbered lo mid a) (h' : Numbered mid hi b) (hlo : lo ≤ mid) (hhi : mid ≤ hi) :
    Numbered lo hi (a ++ b) := by
  refine ⟨List.nodup_append.2 ⟨h.apart, h'.apart, ?_⟩, fun id hid => ?_⟩
  · rintro id ha _ hb rfl
    have := (h.within id ha).2
    have := (h'.within id hb).1
    exact absurd this (Nat.not_le_of_lt ‹_›)
  · rcases List.mem_append.1 hid with hid | hid
    · exact (h.widen (Nat.le_refl _) hhi).within id hid
    · exact (h'.widen hlo (Nat.le_refl _)).within id hid

theorem perm (h : Numbered lo hi a) (p : a.Perm b) : Numbered lo hi b :=
  ⟨p.nodup_iff.1 h.apart, fun id hid => h.within id (p.mem_iff.2 hid)⟩

theorem comm (h : Numbered lo hi (a ++ b)) : Numbered lo hi (b ++ a) := h.perm List.perm_append_comm

end Numbered

/-- What is read between two numbers: it is formed as promised, and the uses in it have numbers between them. -/
structure Reads {α : Type} (formed : α → Prop) (uses : α → List UseId) (lo hi : UseId) (a : α) : Prop where
  formed : formed a
  numbered : Numbered lo hi (uses a)

theorem Reads.widen {α : Type} {formed : α → Prop} {uses : α → List UseId} {lo lo' hi hi' : UseId} {a : α}
    (h : Reads formed uses lo hi a) (hlo : lo' ≤ lo) (hhi : hi ≤ hi') : Reads formed uses lo' hi' a :=
  ⟨h.formed, h.numbered.widen hlo hhi⟩

/-- What is read one after another between two numbers, formed as promised if the tokens are tidy. -/
def ReadsAll {α : Type} (tidy : Prop) (formed : α → Prop) (uses : α → List UseId) (lo hi : UseId) (as : List α) : Prop :=
  Reads (tidy → ∀ a ∈ ·, formed a) (·.flatMap uses) lo hi as

section

variable {α : Type} {tidy : Prop} {formed : α → Prop} {uses : α → List UseId} {lo mid hi : UseId}

theorem ReadsAll.nil : ReadsAll tidy formed uses lo hi ([] : List α).reverse := ⟨by simp, .nil⟩

theorem ReadsAll.widen {lo' hi' : UseId} {as : List α} (h : ReadsAll tidy formed uses lo hi as) (hlo : lo' ≤ lo)
    (hhi : hi ≤ hi') : ReadsAll tidy formed uses lo' hi' as := Reads.widen h hlo hhi

/-- One more is read, and put before those already read, which are in reverse. -/
theorem ReadsAll.push {found : List α} {a : α} (h : ReadsAll tidy formed uses lo mid found.reverse)
    (ha : Reads (tidy → formed ·) uses mid hi a) (hlo : lo ≤ mid) (hhi : mid ≤ hi) :
    ReadsAll tidy formed uses lo hi (a :: found).reverse := by
  refine ⟨fun tidy x hx => ?_, ?_⟩
  · rw [List.reverse_cons, List.mem_append, List.mem_singleton] at hx
    rcases hx with hx | rfl
    · exact h.formed tidy x hx
    · exact ha.formed tidy
  · rw [List.reverse_cons, List.flatMap_append, List.flatMap_singleton]
    exact h.numbered.append ha.numbered hlo hhi

end

/-! ## Expressions -/

theorem Expr.formedAll_iff {es : List Expr} : Expr.FormedAll es ↔ ∀ e ∈ es, e.Formed := by
  induction es with
  | nil => simp [FormedAll]
  | cons e es ih => simp [FormedAll, ih]

theorem Expr.usesAll_eq (es : List Expr) : Expr.usesAll es = es.flatMap Expr.uses := by
  induction es with
  | nil => rfl
  | cons e es ih => simp [usesAll, ih]

/-- Whether a rule reads expressions with uses numbered apart, from tidy tokens as the grammar promises. -/
def Rule.ReadsExpr (tidy : Prop) (r : Rule Expr) : Prop :=
  ∀ c : Cursor, r.Gives tidy c fun next e => Reads (tidy → Expr.Formed ·) Expr.uses c.nextUse next e

/-- What a level promises: its operators with formed operands are formed, and their uses are looked up from left
to right. -/
structure Level.Sound (l : Level) : Prop where
  formed : ∀ {operator : Token} {a b : Expr}, operator.kind ∈ l.operators → a.Formed → b.Formed →
    (l.build operator a b).Formed
  uses : ∀ operator a b, (l.build operator a b).uses = a.uses ++ b.uses

theorem sound_levels : ∀ l ∈ levels, l.Sound := by
  have logical : ∀ kind, Level.Sound ⟨[kind], .logical⟩ := fun _ => ⟨fun _ ha hb => ⟨ha, hb⟩, fun _ _ _ => rfl⟩
  have binary : ∀ kinds : List Kind, (∀ k ∈ kinds, k ∈ binaryKinds) → Level.Sound ⟨kinds, .binary⟩ := fun _ hk =>
    ⟨fun hop ha hb => ⟨hk _ hop, ha, hb⟩, fun _ _ _ => rfl⟩
  simp only [levels, List.forall_mem_cons, List.not_mem_nil, false_imp_iff, implies_true, and_true]
  exact ⟨logical _, logical _, binary _ (by decide), binary _ (by decide), binary _ (by decide), binary _ (by decide)⟩

namespace Rule

variable {tidy : Prop} {c : Cursor}

theorem newUse_gives : Gives tidy newUse c fun next id => id = c.nextUse ∧ next = c.nextUse + 1 := newUses_gives 1

/-- Entries are read one after another, after those already read. -/
theorem entries_gives {α : Type} (formed : α → Prop) (uses : α → List UseId) (tooMany : SyntaxFault)
    {entry : Rule α} (he : ∀ c : Cursor, entry.Gives tidy c fun next a => Reads (tidy → formed ·) uses c.nextUse next a)
    {lo : UseId} : ∀ (fuel : Nat) {c : Cursor} {found : List α}, lo ≤ c.nextUse →
      ReadsAll tidy formed uses lo c.nextUse found.reverse →
      Gives tidy (entries tooMany entry fuel found) c fun next as => ReadsAll tidy formed uses lo next as
  | 0, _, _, _, h => .pure h
  | fuel + 1, c, found, hlo, h => by
    have rest : ∀ c' : Cursor, c.nextUse ≤ c'.nextUse →
        Gives tidy (do
          let found := (← entry) :: found
          if ← accept .comma then entries tooMany entry fuel found else return found.reverse) c'
          fun next as => ReadsAll tidy formed uses lo next as := by
      intro c' le
      refine .bind (he c') fun c₁ a le₁ read => ?_
      have all := (h.widen (Nat.le_refl lo) le).push read (Nat.le_trans hlo le) le₁
      refine .bind (accept_gives .comma) fun c₂ more le₂ _ => ?_
      have all := all.widen (Nat.le_refl lo) le₂
      split
      · exact entries_gives formed uses tooMany he fuel (Nat.le_trans hlo (Nat.le_trans le (Nat.le_trans le₁ le₂))) all
      · exact .pure all
    unfold entries
    split
    · refine .bind peek_gives fun c₁ t le₁ _ => .bind (record_gives _ _) fun c₂ _ le₂ _ => ?_
      exact rest c₂ (Nat.le_trans le₁ le₂)
    · exact rest c (Nat.le_refl _)

/-! ## Primary expressions, calls and properties -/

theorem primary_gives {inner : Rule Expr} (hi : inner.ReadsExpr tidy) : (primary inner).ReadsExpr tidy := by
  intro c
  refine .bind peek_gives fun c₁ t le₁ spelled => ?_
  split
  · exact .bind advance_gives fun _ _ _ _ => .pure ⟨fun _ => trivial, .nil⟩
  · exact .bind advance_gives fun _ _ _ _ => .pure ⟨fun _ => trivial, .nil⟩
  · exact .bind advance_gives fun _ _ _ _ => .pure ⟨fun _ => trivial, .nil⟩
  · refine .bind advance_gives fun _ _ _ _ => ?_
    split
    · exact .pure ⟨fun _ => trivial, .nil⟩
    · exact .throw _
  · refine .bind advance_gives fun _ _ _ _ => ?_
    split
    · exact .pure ⟨fun _ => trivial, .nil⟩
    · exact .throw _
  · -- a method of the superclass
    refine .bind advance_gives fun c₂ _ le₂ _ => ?_
    refine .bind (expect_gives .superDot) fun c₃ _ le₃ _ => ?_
    refine .bind (expect_gives .superMethodName) fun c₄ method le₄ _ => ?_
    refine .bind newUse_gives fun c₅ id _ hid => .pure ⟨fun _ => trivial, ?_⟩
    rw [hid.2, hid.1]
    exact (Numbered.one _).widen (Nat.le_trans le₁ (Nat.le_trans le₂ (Nat.le_trans le₃ le₄))) (Nat.le_refl _)
  · next hk =>
    refine .bind advance_gives fun c₂ _ le₂ _ => ?_
    refine .bind newUse_gives fun c₃ id _ hid => .pure ⟨fun tidy => (spelled tidy).2 hk, ?_⟩
    rw [hid.2, hid.1]
    exact (Numbered.one _).widen (Nat.le_trans le₁ le₂) (Nat.le_refl _)
  · next hk =>
    refine .bind advance_gives fun c₂ _ le₂ _ => ?_
    refine .bind newUse_gives fun c₃ id _ hid => .pure ⟨fun tidy => (spelled tidy).1 hk, ?_⟩
    rw [hid.2, hid.1]
    exact (Numbered.one _).widen (Nat.le_trans le₁ le₂) (Nat.le_refl _)
  · -- an expression in parentheses
    refine .bind advance_gives fun c₂ _ le₂ _ => ?_
    refine .bind (hi c₂) fun c₃ e le₃ read => ?_
    refine .bind (expect_gives .groupEnd) fun c₄ _ le₄ _ => .pure ?_
    have := read.widen (Nat.le_trans le₁ le₂) le₄
    exact ⟨this.formed, this.numbered⟩
  · exact stop_gives _ _

theorem arguments_gives {inner : Rule Expr} (hi : inner.ReadsExpr tidy) (fuel : Nat) :
    Gives tidy (arguments fuel inner) c fun next es => Reads (tidy → Expr.FormedAll ·) Expr.usesAll c.nextUse next es := by
  refine .bind (check_gives .rightParen) fun c₁ _ le₁ _ => ?_
  split
  · exact .pure ⟨fun _ => trivial, .nil⟩
  · refine (entries_gives _ _ .tooManyArguments hi fuel le₁ .nil).mono fun next es _ read => ?_
    exact ⟨fun tidy => Expr.formedAll_iff.2 (read.formed tidy), by rw [Expr.usesAll_eq]; exact read.numbered⟩

theorem suffixes_gives {inner : Rule Expr} (hi : inner.ReadsExpr tidy) {lo : UseId} :
    ∀ (fuel : Nat) {c : Cursor} {e : Expr}, lo ≤ c.nextUse → Reads (tidy → Expr.Formed ·) Expr.uses lo c.nextUse e →
      Gives tidy (suffixes inner fuel e) c fun next e => Reads (tidy → Expr.Formed ·) Expr.uses lo next e
  | 0, _, _, _, h => .pure h
  | fuel + 1, c, e, hlo, h => by
    refine .bind (accept_gives .leftParen) fun c₁ call le₁ _ => ?_
    have h₁ := h.widen (Nat.le_refl lo) le₁
    split
    · refine .bind (arguments_gives hi (fuel + 1)) fun c₂ values le₂ read => ?_
      refine .bind (expect_gives .argumentsEnd) fun c₃ paren le₃ _ => ?_
      have numbered := h₁.numbered.append read.numbered (Nat.le_trans hlo le₁) le₂
      have le := Nat.le_trans hlo (Nat.le_trans le₁ (Nat.le_trans le₂ le₃))
      exact suffixes_gives hi fuel le ⟨fun tidy => ⟨h.formed tidy, read.formed tidy⟩, numbered.widen (Nat.le_refl _) le₃⟩
    · refine .bind (accept_gives .dot) fun c₂ get le₂ _ => ?_
      split
      · refine .bind (expect_gives .propertyName) fun c₃ name le₃ _ => ?_
        have := h₁.widen (Nat.le_refl lo) (Nat.le_trans le₂ le₃)
        have le := Nat.le_trans hlo (Nat.le_trans le₁ (Nat.le_trans le₂ le₃))
        exact suffixes_gives hi fuel le ⟨this.formed, this.numbered⟩
      · exact .pure (h₁.widen (Nat.le_refl lo) le₂)

theorem call_gives {inner : Rule Expr} (hi : inner.ReadsExpr tidy) (fuel : Nat) : (call fuel inner).ReadsExpr tidy :=
  fun c => .bind (primary_gives hi c) fun _ _ le read => suffixes_gives hi fuel le read

/-! ## Operators -/

theorem leadingSigns_gives :
    ∀ (fuel : Nat) {c : Cursor} {found : List Token}, (∀ t ∈ found, t.kind ∈ signs) →
      Gives tidy (leadingSigns fuel found) c fun _ found => ∀ t ∈ found, t.kind ∈ signs
  | 0, _, _, h => .pure h
  | fuel + 1, c, found, h => by
    refine .bind (acceptAny?_gives signs) fun c₁ sign le₁ taken => ?_
    split
    · exact leadingSigns_gives fuel (List.forall_mem_cons.2 ⟨(taken _ rfl).1, h⟩)
    · exact .pure h

theorem reads_signs {lo hi : UseId} {found : List Token} {e : Expr} (h : ∀ t ∈ found, t.kind ∈ signs)
    (he : Reads (tidy → Expr.Formed ·) Expr.uses lo hi e) :
    Reads (tidy → Expr.Formed ·) Expr.uses lo hi (found.foldl (fun e sign => .unary sign e) e) := by
  induction found generalizing e with
  | nil => exact he
  | cons sign found ih =>
    obtain ⟨first, rest⟩ := List.forall_mem_cons.1 h
    exact ih rest ⟨fun tidy => ⟨first, he.formed tidy⟩, he.numbered⟩

theorem signed_gives {inner : Rule Expr} (hi : inner.ReadsExpr tidy) (fuel : Nat) : (signed fuel inner).ReadsExpr tidy := by
  intro c
  refine .bind (leadingSigns_gives fuel (List.forall_mem_nil _)) fun c₁ found le₁ hf => ?_
  refine .bind (call_gives hi fuel c₁) fun c₂ e _ read => .pure ?_
  exact reads_signs hf (read.widen le₁ (Nat.le_refl _))

theorem chain_gives {level : Level} (hl : level.Sound) {operand : Rule Expr} (ho : operand.ReadsExpr tidy) {lo : UseId} :
    ∀ (fuel : Nat) {c : Cursor} {left : Expr}, lo ≤ c.nextUse → Reads (tidy → Expr.Formed ·) Expr.uses lo c.nextUse left →
      Gives tidy (chain level operand fuel left) c fun next e => Reads (tidy → Expr.Formed ·) Expr.uses lo next e
  | 0, _, _, _, h => .pure h
  | fuel + 1, c, left, hlo, h => by
    refine .bind (acceptAny?_gives level.operators) fun c₁ operator le₁ taken => ?_
    have h₁ := h.widen (Nat.le_refl lo) le₁
    split
    · refine .bind (ho c₁) fun c₂ right le₂ read => ?_
      refine chain_gives hl ho fuel (Nat.le_trans hlo (Nat.le_trans le₁ le₂)) ⟨?_, ?_⟩
      · exact fun tidy => hl.formed (taken _ rfl).1 (h.formed tidy) (read.formed tidy)
      · rw [hl.uses]
        exact h₁.numbered.append read.numbered (Nat.le_trans hlo le₁) le₂
    · exact .pure h₁

theorem operation_gives {inner : Rule Expr} (hi : inner.ReadsExpr tidy) (fuel : Nat) : (operation fuel inner).ReadsExpr tidy := by
  have levelled : ∀ ls : List Level, (∀ l ∈ ls, l.Sound) →
      (ls.foldr (leftAssociative fuel) (signed fuel inner)).ReadsExpr tidy := by
    intro ls hls
    induction ls with
    | nil => exact signed_gives hi fuel
    | cons l ls ih =>
      obtain ⟨first, rest⟩ := List.forall_mem_cons.1 hls
      exact fun c => .bind (ih rest c) fun _ _ le read => chain_gives first (ih rest) fuel le read
  exact levelled levels sound_levels

theorem assignment_gives {inner : Rule Expr} (hi : inner.ReadsExpr tidy) (fuel : Nat) :
    (assignment fuel inner).ReadsExpr tidy := by
  intro c
  refine .bind (operation_gives hi fuel c) fun c₁ target le₁ read => ?_
  refine .bind (acceptAny?_gives [.equal]) fun c₂ equals le₂ _ => ?_
  have read₂ := read.widen (Nat.le_refl _) le₂
  split
  · exact .pure read₂
  · refine .bind (hi c₂) fun c₃ value le₃ readValue => ?_
    have le := Nat.le_trans le₁ le₂
    split
    · refine .bind newUse_gives fun c₄ id le₄ hid => .pure ⟨fun tidy => ⟨read.formed tidy, readValue.formed tidy⟩, ?_⟩
      rw [hid.2, hid.1]
      exact (readValue.numbered.widen le (Nat.le_refl _)).append (.one _) (Nat.le_trans le le₃) (Nat.le_succ _)
    · refine .pure ⟨fun tidy => ⟨read.formed tidy, readValue.formed tidy⟩, ?_⟩
      exact (read₂.numbered.append readValue.numbered le le₃).comm
    · exact .bind (record_gives _ _) fun c₄ _ le₄ _ => .pure (read₂.widen (Nat.le_refl _) (Nat.le_trans le₃ le₄))

theorem expression_gives : ∀ fuel : Nat, (expression fuel).ReadsExpr tidy
  | 0 => fun _ => stop_gives _ _
  | fuel + 1 => assignment_gives (expression_gives fuel) (fuel + 1)

end Rule

end Lox
