/-
Nothing of a text is lost when it is cut up, and every lexeme is as long as it can be. The stream of a text is described
stretch by stretch, without saying how a stretch is found, and the stream that is computed is the only one that fits the
description (`items_correct`).
-/
import Lox.Proofs.Token.Lexeme

namespace Lox

/-! ## Streams -/

/-- Whether no lexeme at the start of the text `text ++ rest` is longer than `text`. -/
def Longest (text rest : List Char) : Prop :=
  ∀ kind literal other, Lexeme kind literal other → other <+: text ++ rest → other.length ≤ text.length

/-- `Lexes line cs stream` says that `stream` is a stream of the text `cs`, which starts on `line`: stretch after stretch
is taken off the text until none of it is left. -/
inductive Lexes : Nat → List Char → List Item → Prop
  /-- One end token closes the stream. -/
  | done {line} : Lexes line [] [.token (.endAt line)]
  | blank {line c cs stream} (h : Piece.isBlank c = true) (more : Lexes (line + [c].count '\n') cs stream) :
      Lexes line (c :: cs) stream
  /-- A comment goes up to the next newline, which is no part of it, or to the end of the text. -/
  | comment {line body cs stream} (h : '\n' ∉ body) (stop : cs = [] ∨ ['\n'] <+: cs) (more : Lexes line cs stream) :
      Lexes line ('/' :: '/' :: (body ++ cs)) stream
  | lexeme {line kind literal text cs stream} (h : Lexeme kind literal text) (longest : Longest text cs)
      (code : ¬ ['/', '/'] <+: text ++ cs) (more : Lexes (line + text.count '\n') cs stream) :
      Lexes line (text ++ cs) (.token ⟨kind, String.ofList text, literal, line + text.count '\n'⟩ :: stream)
  /-- A character that is no blank, and that no lexeme starts with. -/
  | stray {line c cs stream} (solid : Piece.isBlank c = false)
      (h : ∀ kind literal text, ¬ Lexeme kind literal (c :: text)) (more : Lexes line cs stream) :
      Lexes line (c :: cs) (.error ⟨.unexpectedCharacter, line⟩ :: stream)
  /-- A quotation mark that no other follows takes all text with it. -/
  | openString {line cs} (h : '"' ∉ cs) :
      Lexes line ('"' :: cs)
        [.error ⟨.unterminatedString, line + cs.count '\n'⟩, .token (.endAt (line + cs.count '\n'))]

/-! ## What is read -/

namespace Piece

/-- What can be read at the start of the text `c :: cs`: a piece, and the text after it. -/
inductive Opens (c : Char) (cs : List Char) : Piece × List Char → Prop
  | blank (h : isBlank c = true) : Opens c cs (blank c, cs)
  | comment {body rest} (slash : c = '/') (whole : cs = '/' :: (body ++ rest)) (h : '\n' ∉ body)
      (stop : rest = [] ∨ ['\n'] <+: rest) : Opens c cs (comment body, rest)
  | lexeme {kind text rest} (code : ¬ ['/', '/'] <+: c :: cs) : Opens c cs (lexeme kind text, rest)
  | stray (solid : isBlank c = false) (always : ∀ more, read c more = (stray c, more)) : Opens c cs (stray c, cs)
  | openString (quote : c = '"') (h : '"' ∉ cs) : Opens c cs (openString cs, [])

theorem not_comment_of_ne {c : Char} (h : c ≠ '/') (cs : List Char) : ¬ ['/', '/'] <+: c :: cs := by
  rw [List.cons_prefix_cons]
  exact fun slashes => h slashes.1.symm

/-- Without a second quotation mark, a string is read to the end of the text. -/
theorem readString_open {cs : List Char} (h : '"' ∉ cs) : readString cs = (openString cs, []) := by
  have other : ∀ c ∈ cs, (c != '"') = true := fun c hc => bne_iff_ne.2 fun e => h (e ▸ hc)
  obtain ⟨before, after⟩ := takeWhile_of_all other []
  rw [List.append_nil, List.takeWhile_nil, List.append_nil] at before
  rw [List.append_nil, List.dropWhile_nil] at after
  rw [readString, before, after]

theorem opens_readString (cs : List Char) : Opens '"' cs (readString cs) := by
  by_cases h : '"' ∈ cs
  · obtain ⟨body, rest, rfl, free⟩ := List.eq_append_cons_of_mem h
    rw [readString_append free]
    exact .lexeme (not_comment_of_ne (by decide) _)
  · rw [readString_open h]
    exact .openString rfl h

/-- A comment is read up to its newline. -/
theorem readSlash_comment {body rest : List Char} (h : '\n' ∉ body) (stop : rest = [] ∨ ['\n'] <+: rest) :
    readSlash ('/' :: (body ++ rest)) = (comment body, rest) := by
  have other : ∀ c ∈ body, (c != '\n') = true := fun c hc => bne_iff_ne.2 fun e => h (e ▸ hc)
  obtain ⟨before, after⟩ := takeWhile_of_all other rest
  rw [readSlash, before, after]
  rcases stop with rfl | ⟨more, rfl⟩
  · simp
  · rw [List.singleton_append, List.takeWhile_cons_of_neg (by decide), List.dropWhile_cons_of_neg (by decide),
      List.append_nil]

theorem opens_readSlash (cs : List Char) : Opens '/' cs (readSlash cs) := by
  unfold readSlash
  split
  · next cs =>
    refine .comment rfl (by rw [List.takeWhile_append_dropWhile]) (fun mem => ?_) ?_
    · simpa using List.mem_takeWhile_imp mem
    · cases h : cs.dropWhile (· != '\n') with
      | nil => exact .inl rfl
      | cons c rest =>
        have newline : c = '\n' := by
          have := List.head?_dropWhile_not (· != '\n') cs
          simpa [h] using this
        exact .inr ⟨rest, by rw [newline, List.singleton_append]⟩
  · next ne =>
    refine .lexeme ?_
    rw [List.cons_prefix_cons]
    rintro ⟨-, rest, e⟩
    exact ne _ e.symm

/-- The piece that is read is one that can be. -/
theorem opens_read (c : Char) (cs : List Char) : Opens c cs (read c cs) := by
  by_cases blank : isBlank c = true
  · rw [read_of_blank blank]
    exact .blank blank
  by_cases quote : c = '"'
  · subst quote
    exact opens_readString cs
  by_cases slash : c = '/'
  · subst slash
    exact opens_readSlash cs
  have code := not_comment_of_ne slash cs
  have plain := read_of_ne (c := c) (by simp_all [isBlank])
  by_cases digit : c.isDigit = true
  · rw [read_of_isDigit digit]
    exact .lexeme code
  by_cases start : startsWord c = true
  · rw [read_of_startsWord start]
    exact .lexeme code
  simp only [if_neg digit, if_neg start] at plain
  rw [plain]
  split
  · exact .lexeme code
  · unfold readComparison
    split
    · exact .lexeme code
    · exact .lexeme code
  · next marked compared =>
    refine .stray (Bool.eq_false_iff.2 blank) fun more => ?_
    rw [plain, marked, compared]

/-- A lexeme begins with no blank. -/
theorem not_isBlank_of_lexeme {c : Char} {cs : List Char} {kind : Kind} {literal : Option Literal}
    (h : Lexeme kind literal (c :: cs)) : ¬ isBlank c = true := by
  intro blank
  obtain ⟨_, _, same, read, -⟩ := h.read_alone
  cases same
  rw [read_of_blank blank] at read
  cases read

/-- No lexeme begins with a character that is read as a stray one. -/
theorem not_lexeme_of_stray {c : Char} (always : ∀ more, read c more = (stray c, more)) (kind : Kind)
    (literal : Option Literal) (cs : List Char) : ¬ Lexeme kind literal (c :: cs) := by
  intro h
  obtain ⟨_, _, same, read, -⟩ := h.read_alone
  cases same
  rw [always] at read
  cases read

theorem longest_of_read {c : Char} {cs : List Char} {kind : Kind} {text rest : List Char}
    (h : read c cs = (lexeme kind text, rest)) : Longest text rest := by
  intro kind' literal other shaped before
  have whole := read_text c cs
  rw [h] at whole
  obtain ⟨d, ds, rfl, -, -⟩ := shaped.read_alone
  obtain ⟨more, e⟩ := before
  rw [show text ++ rest = c :: cs from whole, List.cons_append] at e
  cases e
  have := shaped.length_le_read more
  rwa [h] at this

/-- The longest lexeme is read, except where a comment begins. -/
theorem read_of_longest {kind : Kind} {literal : Option Literal} {c : Char} {text rest : List Char}
    (h : Lexeme kind literal (c :: text)) (longest : Longest (c :: text) rest)
    (code : ¬ ['/', '/'] <+: c :: (text ++ rest)) : read c (text ++ rest) = (lexeme kind (c :: text), rest) := by
  have long := h.length_le_read rest
  have whole := read_text c (text ++ rest)
  have shaped := shaped_read c (text ++ rest)
  have opens := opens_read c (text ++ rest)
  generalize read c (text ++ rest) = r at long whole shaped opens ⊢
  cases opens with
  | blank blank => exact absurd blank (not_isBlank_of_lexeme h)
  | comment slash split _ _ =>
    rw [slash, split] at code
    exact absurd ⟨_, rfl⟩ code
  | @lexeme kind' text' rest' _ =>
    have whole : text' ++ rest' = c :: text ++ rest := whole
    have short := longest _ _ _ (shaped _ _ rfl) ⟨_, whole⟩
    obtain ⟨rfl, rfl⟩ := List.append_inj whole (Nat.le_antisymm short long)
    obtain ⟨rfl, -⟩ := h.unique (shaped _ _ rfl)
    rfl
  | stray _ always => exact absurd h (not_lexeme_of_stray always _ _ _)
  | openString quote noQuote =>
    subst quote
    obtain ⟨_, _, same, read, -⟩ := h.read_alone
    cases same
    rw [read_quote, readString_open fun mem => noQuote (List.mem_append_left _ mem)] at read
    cases read

/-- A character that is no blank and that no lexeme starts with is read as a stray one. -/
theorem read_of_stray {c : Char} (solid : isBlank c = false)
    (h : ∀ kind literal text, ¬ Lexeme kind literal (c :: text)) (cs : List Char) : read c cs = (stray c, cs) := by
  have splits := read_splits c cs
  have shaped := shaped_read c cs
  have opens := opens_read c cs
  generalize read c cs = r at splits shaped opens ⊢
  cases opens with
  | blank blank => rw [solid] at blank; cases blank
  | comment slash _ _ _ =>
    have lexeme : Lexeme .slash none ['/'] := .mark (by decide : ("/", Kind.slash) ∈ Kind.punctuation)
    exact absurd lexeme (slash ▸ h .slash none [])
  | @lexeme kind text rest _ =>
    obtain ⟨more, start⟩ := splits.1
    have shaped := shaped kind text rfl
    rw [show text = c :: more from start] at shaped
    exact absurd shaped (h _ _ _)
  | stray _ _ => rfl
  | openString quote _ =>
    have lexeme : Lexeme .string (some (.string (String.ofList []))) ('"' :: ([] ++ ['"'])) := .string List.not_mem_nil
    exact absurd lexeme (quote ▸ h .string _ _)

/-! ## Newlines in a piece -/

theorem newlines_comment {body : List Char} (h : '\n' ∉ body) : (comment body).newlines = 0 := by
  rw [newlines, List.count_eq_zero]
  simpa [text] using h

theorem newlines_stray {c : Char} (solid : isBlank c = false) : (stray c).newlines = 0 := by
  rw [newlines, List.count_eq_zero]
  intro mem
  rw [text, List.mem_singleton] at mem
  rw [← mem] at solid
  exact absurd solid (by decide)

theorem newlines_openString (cs : List Char) : (openString cs).newlines = cs.count '\n' :=
  List.count_cons_of_ne (by decide)

end Piece

/-! ## The stream -/

open Piece

/-- The stream that is computed is a stream of the text. -/
theorem lexes_pieces (line : Nat) (cs : List Char) : Lexes line cs (itemsFrom line (pieces cs)) := by
  induction h : cs.length using Nat.strongRecOn generalizing line cs with
  | ind n ih =>
    subst h
    cases cs with
    | nil =>
      rw [pieces_nil, itemsFrom]
      exact .done
    | cons c cs =>
      have more : ∀ line, Lexes line (read c cs).2 (itemsFrom line (pieces (read c cs).2)) :=
        fun line => ih _ (Nat.lt_succ_of_le (length_read_le c cs)) line _ rfl
      have whole := read_text c cs
      have shaped := shaped_read c cs
      have longest : ∀ kind text rest, read c cs = (.lexeme kind text, rest) → Longest text rest :=
        fun _ _ _ => longest_of_read
      have opens := opens_read c cs
      rw [pieces_cons, itemsFrom]
      generalize read c cs = r at more whole shaped longest opens ⊢
      cases opens with
      | blank h => exact .blank h (more _)
      | @comment body rest slash split h stop =>
        subst slash split
        rw [newlines_comment h]
        exact .comment h stop (more _)
      | @lexeme kind text rest code =>
        have whole : text ++ rest = c :: cs := whole
        rw [← whole] at code ⊢
        exact .lexeme (shaped _ _ rfl) (longest _ _ _ rfl) code (more _)
      | stray solid always =>
        rw [newlines_stray solid]
        exact .stray solid (not_lexeme_of_stray always) (more _)
      | openString quote h =>
        subst quote
        rw [newlines_openString, pieces_nil]
        exact .openString h

/-- A text has no other stream. -/
theorem Lexes.eq_itemsFrom {line : Nat} {cs : List Char} {stream : List Item} (h : Lexes line cs stream) :
    stream = itemsFrom line (pieces cs) := by
  induction h with
  | done => rw [pieces_nil, itemsFrom]
  | blank h _ ih =>
    rw [pieces_cons, read_of_blank h, itemsFrom]
    exact ih
  | comment h stop _ ih =>
    rw [pieces_cons, read_slash, readSlash_comment h stop, itemsFrom, newlines_comment h]
    exact ih
  | lexeme h longest code _ ih =>
    obtain ⟨c, rest, rfl, -, carried⟩ := h.read_alone
    rw [List.cons_append, pieces_cons, read_of_longest h longest code, itemsFrom, ih, ← carried]
    rfl
  | stray solid h _ ih =>
    rw [pieces_cons, read_of_stray solid h, itemsFrom, newlines_stray solid, ih]
    rfl
  | openString h =>
    rw [pieces_cons, read_quote, readString_open h, itemsFrom, pieces_nil, newlines_openString]
    rfl

theorem Lexeme.kind_ne {kind : Kind} {literal : Option Literal} {text : List Char} (h : Lexeme kind literal text) :
    kind ≠ .endOfInput := by
  rintro rfl
  cases h with
  | mark h => exact absurd rfl ((by decide : ∀ e ∈ Kind.punctuation, e.2 ≠ .endOfInput) _ h)
  | reserved h => exact absurd rfl ((by decide : ∀ e ∈ Kind.reserved, e.2 ≠ .endOfInput) _ h)

/-- An end token closes a stream, and no other stands before it. -/
theorem Lexes.ends {line : Nat} {cs : List Char} {stream : List Item} (h : Lexes line cs stream) :
    ∃ before last, stream = before ++ [.token (.endAt last)] ∧ ∀ t, .token t ∈ before → t.kind ≠ .endOfInput := by
  induction h with
  | done => exact ⟨[], _, rfl, fun _ => nofun⟩
  | blank _ _ ih | comment _ _ _ ih => exact ih
  | lexeme h _ _ _ ih =>
    obtain ⟨before, last, rfl, others⟩ := ih
    refine ⟨_ :: before, last, rfl, fun t ht => ?_⟩
    rcases List.mem_cons.1 ht with e | ht
    · cases e
      exact h.kind_ne
    · exact others t ht
  | stray _ _ _ ih =>
    obtain ⟨before, last, rfl, others⟩ := ih
    exact ⟨_ :: before, last, rfl, fun t ht => others t (by simpa using ht)⟩
  | openString _ => exact ⟨[_], _, rfl, by simp⟩

/-- The stream of a program's text is the one that cuts the whole text into longest lexemes, blanks, comments and
stretches that are errors; its last entry is an end token, the only one in it. -/
theorem items_correct (source : String) :
    (∀ stream, Lexes 1 source.toList stream ↔ stream = items source) ∧
      ∃ before last, items source = before ++ [.token (.endAt last)] ∧
        ∀ t, .token t ∈ before → t.kind ≠ .endOfInput := by
  refine ⟨fun stream => ⟨Lexes.eq_itemsFrom, ?_⟩, (lexes_pieces 1 source.toList).ends⟩
  rintro rfl
  exact lexes_pieces 1 source.toList

end Lox
