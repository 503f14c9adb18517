/-
How tokens that come from a text are spelled: an identifier is no word of the language, and the word `this` is
spelled so.
-/
import Lox.Proofs.Tree.Code
import Lox.Token.Stream

namespace Lox

/-- Whether the lexeme of an identifier can be a name, and that of the word `this` is the word. -/
def Token.Spelled (t : Token) : Prop :=
  (t.kind = .identifier → Nameable t.lexeme) ∧ (t.kind = .thisWord → t.lexeme = thisName)

/-- A token of another kind can be spelled in any way. -/
theorem Token.spelled_of_ne {t : Token} (hi : t.kind ≠ .identifier) (ht : t.kind ≠ .thisWord) : t.Spelled :=
  ⟨fun h => absurd h hi, fun h => absurd h ht⟩

theorem Token.spelled_missing : Token.missing.Spelled := spelled_of_ne nofun nofun

namespace Kind

/-- A word that is an identifier can be a name. -/
theorem nameable_of_ofWord {text : String} (h : ofWord text = .identifier) : Nameable text := by
  constructor
  · rintro rfl
    exact absurd h (by decide)
  · rintro rfl
    exact absurd h (by decide)

theorem eq_of_ofWord_this {text : String} (h : ofWord text = .thisWord) : text = thisName := by
  unfold ofWord at h
  cases hl : reserved.lookup text with
  | none =>
    rw [hl] at h
    cases h
  | some kind =>
    rw [hl] at h
    cases h
    obtain ⟨before, after, split, -⟩ := List.lookup_eq_some_iff.1 hl
    have mem : (text, thisWord) ∈ reserved := by
      rw [split]
      exact List.mem_append_right _ List.mem_cons_self
    simpa [reserved, thisName] using mem

end Kind

/-! ## Tokens of a text -/

namespace Piece

/-- Whether a piece that becomes a token becomes one that is spelled as it should be. -/
def Spelled (p : Piece) : Prop :=
  ∀ kind text, p = lexeme kind text →
    (kind = .identifier → Nameable (String.ofList text)) ∧ (kind = .thisWord → String.ofList text = thisName)

theorem spelled_of_ne (kind : Kind) (hi : kind ≠ .identifier) (ht : kind ≠ .thisWord) (text : List Char) :
    (lexeme kind text).Spelled := by
  intro kind' text' e
  cases e
  exact ⟨fun h => absurd h hi, fun h => absurd h ht⟩

theorem spelled_readString (cs : List Char) : (readString cs).1.Spelled := by
  unfold readString
  split
  · exact spelled_of_ne .string nofun nofun _
  · exact nofun

theorem spelled_readSlash (cs : List Char) : (readSlash cs).1.Spelled := by
  unfold readSlash
  split
  · exact nofun
  · exact spelled_of_ne .slash nofun nofun _

theorem spelled_readWord (c : Char) (cs : List Char) : (readWord c cs).1.Spelled := by
  intro kind text e
  cases e
  exact ⟨Kind.nameable_of_ofWord, Kind.eq_of_ofWord_this⟩

theorem spelled_mark {c : Char} {kind : Kind} (h : mark? c = some kind) (text : List Char) :
    (lexeme kind text).Spelled := by
  refine spelled_of_ne kind ?_ ?_ text
  all_goals
    rintro rfl
    unfold mark? at h
    split at h <;> cases h

theorem spelled_readComparison {c : Char} {alone withEqual : Kind} (h : comparison? c = some (alone, withEqual))
    (cs : List Char) : (readComparison c alone withEqual cs).1.Spelled := by
  have other : alone ≠ .identifier ∧ alone ≠ .thisWord ∧ withEqual ≠ .identifier ∧ withEqual ≠ .thisWord := by
    unfold comparison? at h
    split at h <;> cases h <;> exact ⟨nofun, nofun, nofun, nofun⟩
  unfold readComparison
  split
  · exact spelled_of_ne _ other.2.2.1 other.2.2.2 _
  · exact spelled_of_ne _ other.1 other.2.1 _

theorem spelled_read (c : Char) (cs : List Char) : (read c cs).1.Spelled := by
  unfold read
  split
  · exact nofun
  split
  · exact spelled_readString cs
  split
  · exact spelled_readSlash cs
  split
  · exact spelled_of_ne .number nofun nofun _
  split
  · exact spelled_readWord c cs
  split
  · next h => exact spelled_mark h _
  · next h => exact spelled_readComparison h cs
  · exact nofun

end Piece

/-- What holds of every piece that can be read holds of the pieces of a text. -/
theorem forall_pieces {P : Piece → Prop} (h : ∀ c cs, P (Piece.read c cs).1) (cs : List Char) :
    ∀ p ∈ pieces cs, P p := by
  induction hn : cs.length using Nat.strongRecOn generalizing cs with
  | ind n ih =>
    subst hn
    cases cs with
    | nil => simp
    | cons c cs =>
      have shorter := Nat.lt_succ_of_le (Piece.length_read_le c cs)
      rw [pieces_cons]
      exact List.forall_mem_cons.2 ⟨h c cs, ih _ shorter _ rfl⟩

/-- A token in a stream of pieces is the end token, or it comes from a lexeme. -/
theorem lexeme_of_itemsFrom {ps : List Piece} {line : Nat} {t : Token} (ht : .token t ∈ itemsFrom line ps) :
    (∃ line, t = .endAt line) ∨ ∃ text, .lexeme t.kind text ∈ ps ∧ t.lexeme = String.ofList text := by
  induction ps generalizing line with
  | nil => exact .inl ⟨line, by cases List.mem_singleton.1 ht; rfl⟩
  | cons p ps ih =>
    have later : ∀ {line : Nat}, .token t ∈ itemsFrom line ps →
        (∃ line, t = .endAt line) ∨ ∃ text, .lexeme t.kind text ∈ p :: ps ∧ t.lexeme = String.ofList text := by
      intro line ht
      refine (ih ht).imp_right ?_
      rintro ⟨text, mem, same⟩
      exact ⟨text, .tail _ mem, same⟩
    rw [itemsFrom] at ht
    cases p with
    | blank _ | comment _ => exact later ht
    | stray _ | openString _ =>
      rcases List.mem_cons.1 ht with e | ht
      · cases e
      · exact later ht
    | lexeme kind text =>
      rcases List.mem_cons.1 ht with e | ht
      · cases e
        exact .inr ⟨text, List.mem_cons_self, rfl⟩
      · exact later ht

/-- A token of a text is its end token, or it comes from a lexeme. -/
theorem lexeme_of_scan {source : String} {t : Token} (ht : t ∈ (scan source).tokens) :
    (∃ line, t = .endAt line) ∨ ∃ text, .lexeme t.kind text ∈ pieces source.toList ∧ t.lexeme = String.ofList text := by
  obtain ⟨item, hi, e⟩ := List.mem_filterMap.1 ht
  cases item with
  | token t' =>
    cases e
    exact lexeme_of_itemsFrom hi
  | error _ => cases e

/-- The tokens of a text are spelled as they should be. -/
theorem spelled_scan (source : String) : ∀ t ∈ (scan source).tokens, t.Spelled := by
  intro t ht
  obtain ⟨line, rfl⟩ | ⟨text, mem, same⟩ := lexeme_of_scan ht
  · exact Token.spelled_of_ne nofun nofun
  · unfold Token.Spelled
    rw [same]
    exact forall_pieces Piece.spelled_read _ _ mem _ _ rfl

end Lox
