/-
Tokens up to the lines on which they end.
-/
import Lox.Token.Basic

namespace Lox.Token

/-- Whether two tokens are of one kind and have the same lexeme and the same constant, on whatever lines they end. -/
def Same (t t' : Token) : Prop := t'.kind = t.kind ∧ t'.lexeme = t.lexeme ∧ t'.literal = t.literal

/-- A token on no line. -/
def lineless (t : Token) : Token := { t with line := 0 }

theorem same_iff {t t' : Token} : Same t t' ↔ t'.lineless = t.lineless := by
  obtain ⟨kind, lexeme, literal, line⟩ := t
  obtain ⟨kind', lexeme', literal', line'⟩ := t'
  simp [Same, lineless]

end Lox.Token
