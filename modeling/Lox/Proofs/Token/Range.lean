/-
The lines of a text. The first line is line 1 and every newline starts another one, so a text has one line more than it
has newlines; every entry of its stream is on one of them (`lines_of_scan`).
-/
import Lox.Proofs.Token.Lexes

namespace Lox

/-- The line that an entry of a stream is on. -/
def Item.line : Item → Nat
  | token t => t.line
  | error e => e.line

/-- No entry is before the line on which the text starts, or beyond its last newline. -/
theorem Lexes.lines {line : Nat} {cs : List Char} {stream : List Item} (h : Lexes line cs stream) :
    ∀ item ∈ stream, line ≤ item.line ∧ item.line ≤ line + cs.count '\n' := by
  induction h with
  | done =>
    intro item hi
    cases List.mem_singleton.1 hi
    exact ⟨Nat.le_refl _, Nat.le_add_right _ _⟩
  | @blank line c cs _ _ _ ih =>
    intro item hi
    obtain ⟨lower, upper⟩ := ih item hi
    have split : (c :: cs).count '\n' = [c].count '\n' + cs.count '\n' := by
      rw [← List.count_append, List.singleton_append]
    omega
  | @comment line body cs _ _ _ _ ih =>
    intro item hi
    obtain ⟨lower, upper⟩ := ih item hi
    have rest : cs.count '\n' ≤ ('/' :: '/' :: (body ++ cs)).count '\n' :=
      ((List.suffix_append body cs).trans (List.suffix_append ['/', '/'] (body ++ cs))).sublist.count_le _
    omega
  | @lexeme line kind literal text cs _ _ _ _ _ ih =>
    have split : (text ++ cs).count '\n' = text.count '\n' + cs.count '\n' := List.count_append
    rintro item (_ | hi)
    · constructor
      · exact Nat.le_add_right _ _
      · show line + text.count '\n' ≤ _
        omega
    · next hi =>
      obtain ⟨lower, upper⟩ := ih item hi
      omega
  | @stray line c cs _ _ _ _ ih =>
    have rest : cs.count '\n' ≤ (c :: cs).count '\n' := (List.sublist_cons_self c cs).count_le _
    rintro item (_ | hi)
    · exact ⟨Nat.le_refl _, Nat.le_add_right _ _⟩
    · next hi =>
      obtain ⟨lower, upper⟩ := ih item hi
      omega
  | @openString line cs _ =>
    have rest : ('"' :: cs).count '\n' = cs.count '\n' := List.count_cons_of_ne (by decide)
    intro item hi
    rw [rest]
    have same : item.line = line + cs.count '\n' := by
      rcases List.mem_pair.1 hi with rfl | rfl
      · rfl
      · rfl
    omega

/-- The tokens and the errors of a text are on its lines. -/
theorem lines_of_scan (source : String) :
    (∀ t ∈ (scan source).tokens, 1 ≤ t.line ∧ t.line ≤ 1 + source.toList.count '\n') ∧
      ∀ e ∈ (scan source).errors, 1 ≤ e.line ∧ e.line ≤ 1 + source.toList.count '\n' := by
  have lines := (lexes_pieces 1 source.toList).lines
  constructor
  · intro t ht
    obtain ⟨item, hi, e⟩ := List.mem_filterMap.1 ht
    cases item with
    | token t' =>
      cases e
      exact lines _ hi
    | error _ => cases e
  · intro e he
    obtain ⟨item, hi, same⟩ := List.mem_filterMap.1 he
    cases item with
    | token _ => cases same
    | error e' =>
      cases same
      exact lines _ hi

/-- The tokens of a text close with its end token. -/
theorem endOfInput_mem_scan (source : String) : ∃ t ∈ (scan source).tokens, t.kind = .endOfInput := by
  obtain ⟨before, last, stream, -⟩ := (lexes_pieces 1 source.toList).ends
  refine ⟨.endAt last, List.mem_filterMap.2 ⟨.token (.endAt last), ?_, rfl⟩, rfl⟩
  show _ ∈ itemsFrom 1 (pieces source.toList)
  rw [stream]
  exact List.mem_append_right _ List.mem_cons_self

end Lox
