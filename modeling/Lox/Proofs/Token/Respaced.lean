/-
Lexemes written out again. If the lexemes of a text are written in their order, with blanks and comments between them as
long as each two are kept apart by a blank, then they are read again, and nothing else is (`scan_respaced`). For only a
string can have a blank in it, and that ends at its second quotation mark.
-/
import Lox.Proofs.Token.Lexes
import Lox.Proofs.Token.Same

namespace Lox

/-! ## What stands between lexemes -/

/-- Blanks, and comments with the newlines that end them, in any order. -/
inductive Gap : List Char → Prop
  | nil : Gap []
  | blank {c cs} (h : Piece.isBlank c = true) (more : Gap cs) : Gap (c :: cs)
  | comment {body cs} (h : '\n' ∉ body) (more : Gap cs) : Gap ('/' :: '/' :: (body ++ '\n' :: cs))

/-- What keeps two lexemes apart: a blank, and then whatever may stand between lexemes. -/
inductive Separator : List Char → Prop
  | mk {c cs} (h : Piece.isBlank c = true) (more : Gap cs) : Separator (c :: cs)

/-- `Spaced lexemes cs` says that the text `cs` consists of the lexemes, in this order, with a separator between each
two of them. -/
inductive Spaced : List String → List Char → Prop
  | none : Spaced [] []
  | one (lexeme : String) : Spaced [lexeme] lexeme.toList
  | more {next lexemes between cs} (lexeme : String) (apart : Separator between) (rest : Spaced (next :: lexemes) cs) :
      Spaced (lexeme :: next :: lexemes) (lexeme.toList ++ (between ++ cs))

/-- The tokens before the end token. -/
def Scan.lexemes (s : Scan) : List Token := s.tokens.filter (·.kind ≠ .endOfInput)

/-! ## Lexemes before a blank -/

section

variable {kind : Kind} {literal : Option Literal} {text : List Char}

open Piece

theorem solid_of_continuesWord {c : Char} (h : continuesWord c = true) : isBlank c = false := by
  rw [← Bool.not_eq_true]
  intro blank
  simp only [isBlank, Bool.or_eq_true, beq_iff_eq] at blank
  rcases blank with ((rfl | rfl) | rfl) | rfl <;> exact absurd h (by decide)

theorem continuesWord_of_startsWord {c : Char} (h : startsWord c = true) : continuesWord c = true := by
  unfold startsWord at h
  unfold continuesWord Char.isAlphanum
  rw [Bool.or_eq_true] at h ⊢
  exact h.imp_left fun alpha => by rw [alpha, Bool.true_or]

theorem continuesWord_of_isDigit {c : Char} (h : c.isDigit = true) : continuesWord c = true := by
  unfold continuesWord Char.isAlphanum
  rw [h, Bool.or_true, Bool.true_or]

theorem IsWord.solid (h : IsWord text) : ∀ c ∈ text, isBlank c = false := by
  cases text with
  | nil => exact h.elim
  | cons c cs =>
    refine List.forall_mem_cons.2 ⟨solid_of_continuesWord (continuesWord_of_startsWord h.1), fun d hd => ?_⟩
    exact solid_of_continuesWord (h.2 d hd)

theorem IsDigits.solid (h : IsDigits text) : ∀ c ∈ text, isBlank c = false :=
  fun c hc => solid_of_continuesWord (continuesWord_of_isDigit (h.2 c hc))

/-- A lexeme that is no string has no blank in it. -/
theorem Lexeme.solid (h : Lexeme kind literal text) (other : kind ≠ .string) : ∀ c ∈ text, isBlank c = false := by
  cases h with
  | mark h =>
    have solid := (by decide : ∀ e ∈ Kind.punctuation, e.1.toList.any isBlank = false) _ h
    exact fun c hc => Bool.eq_false_iff.2 (List.any_eq_false.1 solid c hc)
  | string _ => exact absurd rfl other
  | whole digits => exact digits.solid
  | decimal digits digits' =>
    exact List.forall_mem_append.2 ⟨digits.solid, List.forall_mem_cons.2 ⟨by decide, digits'.solid⟩⟩
  | reserved h => exact (isWord_of_reserved h).solid
  | identifier word _ => exact word.solid

/-- What begins with a quotation mark is a string, and has one more quotation mark, at its end. -/
theorem Lexeme.quoted {cs : List Char} (h : Lexeme kind literal ('"' :: cs)) :
    ∃ body, '"' ∉ body ∧ cs = body ++ ['"'] := by
  obtain ⟨_, _, same, read, -⟩ := h.read_alone
  cases same
  by_cases mem : '"' ∈ cs
  · obtain ⟨body, rest, rfl, free⟩ := List.eq_append_cons_of_mem mem
    rw [read_quote, readString_append free] at read
    obtain rfl : rest = [] := congrArg Prod.snd read
    exact ⟨body, free, rfl⟩
  · rw [read_quote, readString_open mem] at read
    cases read

/-- Where a lexeme begins, no string goes on beyond it. -/
theorem Lexeme.length_le_of_string {literal' : Option Literal} {other : List Char} (h : Lexeme kind literal text)
    (h' : Lexeme .string literal' other) (start : text <+: other) : other.length ≤ text.length := by
  by_contra longer
  obtain ⟨more, split⟩ := start
  obtain ⟨d, ds, rfl, -, -⟩ := h.read_alone
  cases h' with
  | @string body free =>
    obtain ⟨rfl, split⟩ := List.cons.inj split
    obtain ⟨body', -, rfl⟩ := h.quoted
    -- the second quotation mark of the lexeme stands in the body of the string
    have whole : body' ++ '"' :: more = body ++ ['"'] := by simpa using split
    have short : body'.length < body.length := by
      simp only [List.length_cons, List.length_append, List.length_nil] at longer
      omega
    have here := congrArg (·[body'.length]?) whole
    simp only [List.getElem?_append_right (Nat.le_refl _), Nat.sub_self, List.getElem?_cons_zero,
      List.getElem?_append_left short] at here
    exact free (List.mem_of_getElem? here.symm)
  | mark h => exact absurd rfl ((by decide : ∀ e ∈ Kind.punctuation, e.2 ≠ .string) _ h)
  | reserved h => exact absurd rfl ((by decide : ∀ e ∈ Kind.reserved, e.2 ≠ .string) _ h)

/-- At the end of a text a lexeme cannot go on. -/
theorem longest_nil (text : List Char) : Longest text [] := by
  intro _ _ other _ start
  rw [List.append_nil] at start
  exact start.length_le

/-- A lexeme that cannot go on in a text cannot go on over a blank after that text. -/
theorem Longest.before_blank {rest : List Char} (longest : Longest text rest) (h : Lexeme kind literal text) {c : Char}
    (blank : isBlank c = true) (more : List Char) : Longest text (rest ++ c :: more) := by
  intro kind' literal' other h' start
  rw [← List.append_assoc] at start
  by_cases short : other.length ≤ (text ++ rest).length
  · exact longest _ _ _ h' (List.prefix_of_prefix_length_le start (List.prefix_append _ _) short)
  -- the other lexeme has the blank in it
  have across : text ++ rest ++ [c] <+: other := by
    refine List.prefix_of_prefix_length_le ⟨more, by simp⟩ start ?_
    rw [List.length_append]
    exact Nat.lt_of_not_le short
  have inside : c ∈ other := across.subset (List.mem_append_right _ List.mem_cons_self)
  have string : kind' = .string := by
    by_contra ne
    have := h'.solid ne c inside
    rw [blank] at this
    cases this
  subst string
  rw [List.append_assoc] at across
  exact h.length_le_of_string h' ((List.prefix_append _ _).trans across)

/-- A lexeme does not go on over a blank. -/
theorem Lexeme.longest (h : Lexeme kind literal text) {c : Char} (blank : isBlank c = true) (rest : List Char) :
    Longest text (c :: rest) :=
  (longest_nil text).before_blank h blank rest

/-- No comment begins with a lexeme and a blank, or with a lexeme alone. -/
theorem Lexeme.not_comment (h : Lexeme kind literal text) {rest : List Char}
    (apart : ∀ c ∈ rest.head?, isBlank c = true) : ¬ ['/', '/'] <+: text ++ rest := by
  obtain ⟨d, ds, rfl, read, -⟩ := h.read_alone
  rw [List.cons_append, List.cons_prefix_cons]
  rintro ⟨rfl, start⟩
  cases ds with
  | nil =>
    obtain ⟨more, rfl⟩ := start
    exact absurd (apart '/' rfl) (by decide)
  | cons e es =>
    rw [List.cons_append, List.cons_prefix_cons] at start
    obtain ⟨rfl, -⟩ := start
    rw [read_slash] at read
    cases read

end

/-! ## Streams -/

theorem Lexes.gap {gap : List Char} (h : Gap gap) {line : Nat} {cs : List Char} {stream : List Item}
    (more : Lexes (line + gap.count '\n') cs stream) : Lexes line (gap ++ cs) stream := by
  induction h generalizing line with
  | nil => exact more
  | @blank c gap h _ ih =>
    refine .blank h (ih ?_)
    rwa [Nat.add_assoc, ← List.count_append, List.singleton_append]
  | @comment body gap h _ ih =>
    have newline : Lexes line ('\n' :: (gap ++ cs)) stream := by
      refine .blank (by decide) (ih ?_)
      rw [Nat.add_assoc, ← List.count_append, List.singleton_append]
      have none : body.count '\n' = 0 := List.count_eq_zero.2 h
      simpa [List.count_cons, none] using more
    have comment := Lexes.comment h (.inr ⟨_, rfl⟩) newline
    simpa using comment

/-- Every token of a stream is the end token or a lexeme. -/
theorem Lexes.lexeme_of_mem {line : Nat} {cs : List Char} {stream : List Item} (h : Lexes line cs stream) {t : Token}
    (ht : .token t ∈ stream) : t.kind = .endOfInput ∨ Lexeme t.kind t.literal t.lexeme.toList := by
  induction h with
  | done =>
    cases List.mem_singleton.1 ht
    exact .inl rfl
  | blank _ _ ih | comment _ _ _ ih => exact ih ht
  | lexeme h _ _ _ ih =>
    rcases List.mem_cons.1 ht with e | ht
    · cases e
      exact .inr (by rwa [String.toList_ofList])
    · exact ih ht
  | stray _ _ _ ih => exact ih (by simpa using ht)
  | openString _ =>
    rcases List.mem_cons.1 ht with e | ht
    · cases e
    · cases List.mem_singleton.1 ht
      exact .inl rfl

/-- Lexemes with separators between them are read again, and nothing else is. -/
theorem Spaced.lexes {tokens : List Token} {cs : List Char} (h : Spaced (tokens.map (·.lexeme)) cs)
    (lexemes : ∀ t ∈ tokens, Lexeme t.kind t.literal t.lexeme.toList) (line : Nat) :
    ∃ again last, Lexes line cs (again.map .token ++ [.token (.endAt last)]) ∧
      List.Forall₂ Token.Same tokens again := by
  induction tokens generalizing cs line with
  | nil =>
    cases h
    exact ⟨[], line, .done, .nil⟩
  | cons t ts ih =>
    obtain ⟨lexeme, later⟩ := List.forall_mem_cons.1 lexemes
    generalize hw : (t :: ts).map (·.lexeme) = written at h
    cases h with
    | none => cases hw
    | one word =>
      cases ts with
      | cons _ _ => cases hw
      | nil =>
        cases hw
        have read : Lexes line _ _ := .lexeme lexeme (longest_nil _) (lexeme.not_comment nofun) .done
        rw [List.append_nil, String.ofList_toList] at read
        exact ⟨[_], _, read, .cons ⟨rfl, rfl, rfl⟩ .nil⟩
    | more word apart spaced =>
      obtain ⟨rfl, tail⟩ := List.cons.inj hw
      obtain ⟨blank, gap⟩ := apart
      rw [← tail] at spaced
      obtain ⟨again, last, read, same⟩ := ih spaced later (line + t.lexeme.toList.count '\n' + (_ :: _).count '\n')
      have first := Lexes.lexeme lexeme (lexeme.longest blank _) (lexeme.not_comment (by rintro _ ⟨⟩; exact blank))
        (Lexes.gap (.blank blank gap) read)
      rw [String.ofList_toList] at first
      exact ⟨_ :: again, last, first, .cons ⟨rfl, rfl, rfl⟩ same⟩

/-- Whatever a text is, errors or not: its lexemes, written in their order with a separator between each two, are read
without an error as tokens of the same kinds with the same lexemes and constants, before the end token. -/
theorem scan_respaced {source text : String} (spaced : Spaced ((scan source).lexemes.map (·.lexeme)) text.toList) :
    (scan text).errors = [] ∧ ∃ tokens last, (scan text).tokens = tokens ++ [.endAt last] ∧
      List.Forall₂ Token.Same (scan source).lexemes tokens := by
  have lexemes : ∀ t ∈ (scan source).lexemes, Lexeme t.kind t.literal t.lexeme.toList := by
    intro t ht
    obtain ⟨mem, solid⟩ := List.mem_filter.1 ht
    obtain ⟨item, hi, e⟩ := List.mem_filterMap.1 mem
    cases item with
    | error _ => cases e
    | token t' =>
      cases e
      exact ((lexes_pieces 1 source.toList).lexeme_of_mem hi).resolve_left (by simpa using solid)
  obtain ⟨again, last, read, same⟩ := spaced.lexes lexemes 1
  have stream : items text = again.map .token ++ [.token (.endAt last)] := read.eq_itemsFrom.symm
  refine ⟨?_, again, last, ?_, same⟩
  · simp [scan, Scan.ofItems, stream, List.filterMap_append, List.filterMap_map]
  · simp [scan, Scan.ofItems, stream, List.filterMap_append, List.filterMap_map]

/-- A stray character is left out, a slash is kept apart from a comment, and a string has a newline in it. -/
theorem scan_respaced_comment :
    Spaced ((scan "a@!=/\"b\n\"").lexemes.map (·.lexeme)) "a\t// !\n !=\n/ \"b\n\"".toList ∧
      (scan "a\t// !\n !=\n/ \"b\n\"").errors = [] ∧
        ∃ tokens last, (scan "a\t// !\n !=\n/ \"b\n\"").tokens = tokens ++ [.endAt last] ∧
          List.Forall₂ Token.Same (scan "a@!=/\"b\n\"").lexemes tokens := by
  have written : (scan "a@!=/\"b\n\"").lexemes.map (·.lexeme) = ["a", "!=", "/", "\"b\n\""] := by decide +kernel
  have whole : "a\t// !\n !=\n/ \"b\n\"".toList =
      "a".toList ++ (['\t', '/', '/', ' ', '!', '\n', ' '] ++
        ("!=".toList ++ (['\n'] ++ ("/".toList ++ ([' '] ++ "\"b\n\"".toList))))) := by decide +kernel
  have spaced : Spaced ((scan "a@!=/\"b\n\"").lexemes.map (·.lexeme)) "a\t// !\n !=\n/ \"b\n\"".toList := by
    rw [written, whole]
    refine .more "a" (.mk rfl (@Gap.comment [' ', '!'] _ (by decide) (.blank rfl .nil))) ?_
    exact .more "!=" (.mk rfl .nil) (.more "/" (.mk rfl .nil) (.one _))
  exact ⟨spaced, scan_respaced spaced⟩

end Lox
