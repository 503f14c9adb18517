/-
The lexemes of the language, each described by its shape alone, and how the reading of one piece treats them: a lexeme
that stands alone is read as it is, a lexeme that is read is one, and no lexeme at the same place is longer than what
is read there.
-/
import Lox.Token.Stream
import Mathlib.Data.List.TakeWhile
import Mathlib.Tactic.FinCases

namespace Lox

/-! ## Shapes -/

/-- The marks and operators with their kinds. -/
def Kind.punctuation : List (String × Kind) :=
  [("(", leftParen), (")", rightParen), ("\x7b", leftBrace), ("\x7d", rightBrace), (",", comma), (".", dot),
    ("-", minus), ("+", plus), (";", semicolon), ("/", slash), ("*", star), ("!", bang), ("!=", bangEqual),
    ("=", equal), ("==", equalEqual), (">", greater), (">=", greaterEqual), ("<", less), ("<=", lessEqual)]

/-- Whether a text is a word, reserved or not. -/
def IsWord : List Char → Prop
  | [] => False
  | c :: cs => Piece.startsWord c = true ∧ ∀ d ∈ cs, Piece.continuesWord d = true

instance : DecidablePred IsWord
  | [] => inferInstanceAs (Decidable False)
  | _ :: cs =>
    -- named, because going through the text is not the only way to decide something of all its characters
    have := List.decidableBAll (fun d => Piece.continuesWord d = true) cs
    inferInstanceAs (Decidable (_ ∧ _))

/-- Whether a text consists of digits, of which there is at least one. -/
def IsDigits (text : List Char) : Prop := text ≠ [] ∧ ∀ d ∈ text, d.isDigit = true

/-- `Lexeme kind literal text` says that `text` is a lexeme of the kind, and that it stands for the constant if the
kind has constants. -/
inductive Lexeme : Kind → Option Literal → List Char → Prop
  | mark {spelling kind} (h : (spelling, kind) ∈ Kind.punctuation) : Lexeme kind none spelling.toList
  /-- A string may go over several lines; it stands for the text between its quotation marks. -/
  | string {body} (h : '"' ∉ body) : Lexeme .string (some (.string (String.ofList body))) ('"' :: (body ++ ['"']))
  | whole {digits} (h : IsDigits digits) :
      Lexeme .number (some (.number (Number.Decimal.ofDigits digits []).toFloat)) digits
  | decimal {digits decimals} (h : IsDigits digits) (h' : IsDigits decimals) :
      Lexeme .number (some (.number (Number.Decimal.ofDigits digits decimals).toFloat)) (digits ++ '.' :: decimals)
  | reserved {word kind} (h : (word, kind) ∈ Kind.reserved) : Lexeme kind none word.toList
  | identifier {text} (h : IsWord text) (free : ∀ kind, (String.ofList text, kind) ∉ Kind.reserved) :
      Lexeme .identifier none text

/-! ## Words -/

namespace Kind

theorem ofWord_of_mem {word : String} {kind : Kind} (h : (word, kind) ∈ reserved) : ofWord word = kind :=
  (by decide : ∀ e ∈ reserved, ofWord e.1 = e.2) _ h

theorem ofWord_of_free {word : String} (free : ∀ kind, (word, kind) ∉ reserved) : ofWord word = .identifier := by
  have none : reserved.lookup word = none := by
    rw [List.lookup_eq_none_iff]
    intro e he
    rw [bne_iff_ne]
    rintro rfl
    exact free e.2 he
  rw [ofWord, none, Option.getD_none]

/-- A word is reserved, or it is an identifier. -/
theorem mem_or_free (word : String) : (word, ofWord word) ∈ reserved ∨ ∀ kind, (word, kind) ∉ reserved := by
  by_cases h : ∃ kind, (word, kind) ∈ reserved
  · obtain ⟨kind, h⟩ := h
    exact .inl (by rwa [ofWord_of_mem h])
  · exact .inr fun kind mem => h ⟨kind, mem⟩

end Kind

theorem isWord_of_reserved {word : String} {kind : Kind} (h : (word, kind) ∈ Kind.reserved) : IsWord word.toList :=
  (by decide : ∀ e ∈ Kind.reserved, IsWord e.1.toList) _ h

/-- A word is a lexeme of the kind that the word as a whole has. -/
theorem Lexeme.ofWord {text : List Char} (h : IsWord text) : Lexeme (.ofWord (String.ofList text)) none text := by
  rcases Kind.mem_or_free (String.ofList text) with mem | free
  · simpa using Lexeme.reserved mem
  · rw [Kind.ofWord_of_free free]
    exact .identifier h free

theorem lexemeLiteral_ofWord (word : String) (text : List Char) : lexemeLiteral (.ofWord word) text = none := by
  have plain : ∀ e ∈ Kind.reserved, e.2 ≠ .number ∧ e.2 ≠ .string := by decide
  rcases Kind.mem_or_free word with mem | free
  · obtain ⟨number, string⟩ := plain _ mem
    unfold lexemeLiteral
    split
    · next h => exact absurd h number
    · next h => exact absurd h string
    · rfl
  · rw [Kind.ofWord_of_free free]
    rfl

/-! ## Constants -/

theorem stringValue_quoted (body : List Char) : stringValue ('"' :: (body ++ ['"'])) = String.ofList body := by
  rw [stringValue, List.drop_one, List.tail_cons, List.dropLast_concat]

theorem takeWhile_of_all {p : Char → Bool} {cs : List Char} (h : ∀ c ∈ cs, p c = true) (more : List Char) :
    (cs ++ more).takeWhile p = cs ++ more.takeWhile p ∧ (cs ++ more).dropWhile p = more.dropWhile p :=
  ⟨List.takeWhile_append_of_pos h, List.dropWhile_append_of_pos h⟩

theorem numberValue_whole {digits : List Char} (h : IsDigits digits) :
    numberValue digits = (Number.Decimal.ofDigits digits []).toFloat := by
  have whole := (takeWhile_of_all h.2 []).1
  rw [List.append_nil, List.takeWhile_nil, List.append_nil] at whole
  rw [numberValue, whole, List.drop_of_length_le (Nat.le_succ _)]

theorem numberValue_decimal {digits decimals : List Char} (h : IsDigits digits) :
    numberValue (digits ++ '.' :: decimals) = (Number.Decimal.ofDigits digits decimals).toFloat := by
  have whole := (takeWhile_of_all h.2 ('.' :: decimals)).1
  rw [List.takeWhile_cons_of_neg (by decide), List.append_nil] at whole
  simp [numberValue, whole]

/-! ## Which characters begin what -/

namespace Piece

theorem read_of_blank {c : Char} (h : isBlank c = true) (cs : List Char) : read c cs = (blank c, cs) := by
  rw [read, if_pos h]

theorem read_quote (cs : List Char) : read '"' cs = readString cs := rfl

theorem read_slash (cs : List Char) : read '/' cs = readSlash cs := rfl

/-- A character that is neither a blank nor a quotation mark nor a slash. -/
theorem read_of_ne {c : Char} (h : c ∉ [' ', '\r', '\t', '\n', '"', '/']) (cs : List Char) :
    read c cs = if c.isDigit then readNumber c cs else if startsWord c then readWord c cs else
      match mark? c, comparison? c with
      | some kind, _ => (lexeme kind [c], cs)
      | none, some (alone, withEqual) => readComparison c alone withEqual cs
      | none, none => (stray c, cs) := by
  simp only [List.mem_cons, List.not_mem_nil, or_false, not_or] at h
  obtain ⟨space, back, tab, newline, quote, slash⟩ := h
  have solid : ¬ isBlank c = true := by simp [isBlank, space, back, tab, newline]
  exact (if_neg solid).trans ((if_neg quote).trans (if_neg slash))

theorem not_mem_of_any_eq_false {p : Char → Bool} {cs : List Char} {c : Char} (none : cs.any p = false)
    (h : p c = true) : c ∉ cs :=
  fun mem => List.any_eq_false.1 none c mem h

theorem read_of_isDigit {c : Char} (h : c.isDigit = true) (cs : List Char) : read c cs = readNumber c cs := by
  rw [read_of_ne (not_mem_of_any_eq_false (by decide) h), if_pos h]

theorem not_isDigit_of_startsWord {c : Char} (h : startsWord c = true) : ¬ c.isDigit = true := by
  intro digit
  delta startsWord Char.isAlpha Char.isUpper Char.isLower at h
  delta Char.isDigit at digit
  simp only [Bool.or_eq_true, Bool.and_eq_true, beq_iff_eq, decide_eq_true_eq, ge_iff_le, UInt32.le_iff_toNat_le]
    at h digit
  change 48 ≤ c.toNat ∧ c.toNat ≤ 57 at digit
  change ((65 ≤ c.toNat ∧ c.toNat ≤ 90) ∨ (97 ≤ c.toNat ∧ c.toNat ≤ 122)) ∨ c = '_' at h
  rcases h with (upper | lower) | rfl
  · omega
  · omega
  · exact absurd digit (by decide)

theorem read_of_startsWord {c : Char} (h : startsWord c = true) (cs : List Char) : read c cs = readWord c cs := by
  have noDigit := not_isDigit_of_startsWord h
  rw [read_of_ne (not_mem_of_any_eq_false (by decide) h), if_neg noDigit, if_pos h]

/-! ## Reading a lexeme -/

theorem readString_append {body : List Char} (h : '"' ∉ body) (more : List Char) :
    readString (body ++ '"' :: more) = (lexeme .string ('"' :: (body ++ ['"'])), more) := by
  have other : ∀ c ∈ body, (c != '"') = true := fun c hc => bne_iff_ne.2 fun e => h (e ▸ hc)
  obtain ⟨before, after⟩ := takeWhile_of_all other ('"' :: more)
  rw [List.takeWhile_cons_of_neg (by decide), List.append_nil] at before
  rw [List.dropWhile_cons_of_neg (by decide)] at after
  rw [readString, before, after]
  rfl

/-- A number is read as far as its digits go. -/
theorem readNumber_append {c : Char} {cs : List Char} (h : ∀ d ∈ cs, d.isDigit = true) (more : List Char) :
    readNumber c (cs ++ more) =
      (lexeme .number (c :: (cs ++ more.takeWhile Char.isDigit) ++ (splitDecimals (more.dropWhile Char.isDigit)).1),
        (splitDecimals (more.dropWhile Char.isDigit)).2) := by
  obtain ⟨before, after⟩ := takeWhile_of_all h more
  rw [readNumber, before, after]

theorem splitDecimals_of_isDigits {decimals : List Char} (h : IsDigits decimals) (more : List Char) :
    splitDecimals ('.' :: (decimals ++ more)) =
      ('.' :: (decimals ++ more.takeWhile Char.isDigit), more.dropWhile Char.isDigit) := by
  obtain ⟨ne, all⟩ := h
  obtain ⟨d, ds, rfl⟩ := List.exists_cons_of_ne_nil ne
  obtain ⟨first, others⟩ := List.forall_mem_cons.1 all
  obtain ⟨before, after⟩ := takeWhile_of_all others more
  rw [List.cons_append, splitDecimals, if_pos first, before, after]
  rfl

theorem readWord_append {c : Char} {cs : List Char} (h : ∀ d ∈ cs, continuesWord d = true) (more : List Char) :
    ∃ kind, readWord c (cs ++ more) =
      (lexeme kind (c :: (cs ++ more.takeWhile continuesWord)), more.dropWhile continuesWord) := by
  obtain ⟨before, after⟩ := takeWhile_of_all h more
  rw [readWord, before, after]
  exact ⟨_, rfl⟩

/-- Marks and operators are read as they are, and longer ones are read to their ends. -/
theorem read_punctuation : ∀ e ∈ Kind.punctuation, ∃ c cs, e.1.toList = c :: cs ∧
    read c cs = (lexeme e.2 (c :: cs), []) ∧ lexemeLiteral e.2 (c :: cs) = none ∧
      (cs = [] ∨ ∀ more, (read c (cs ++ more)).1.text = c :: cs) := by
  intro e he
  fin_cases he
  all_goals first
    | exact ⟨_, _, rfl, rfl, rfl, .inl rfl⟩
    | exact ⟨_, _, rfl, rfl, rfl, .inr fun _ => rfl⟩

end Piece

namespace Lexeme

variable {kind : Kind} {literal : Option Literal} {text : List Char}

open Piece

/-- A lexeme that stands alone is read as it is. -/
theorem read_alone (h : Lexeme kind literal text) :
    ∃ c cs, text = c :: cs ∧ read c cs = (lexeme kind text, []) ∧ lexemeLiteral kind text = literal := by
  have word : ∀ {w : List Char}, IsWord w → ∃ c cs, w = c :: cs ∧
      read c cs = (lexeme (.ofWord (String.ofList w)) w, []) := by
    intro w hw
    cases w with
    | nil => exact hw.elim
    | cons c cs =>
      obtain ⟨before, after⟩ := takeWhile_of_all hw.2 []
      rw [List.append_nil, List.takeWhile_nil, List.append_nil] at before
      rw [List.append_nil, List.dropWhile_nil] at after
      exact ⟨c, cs, rfl, by rw [read_of_startsWord hw.1, readWord, before, after]⟩
  cases h with
  | mark h =>
    obtain ⟨c, cs, same, read, none, -⟩ := read_punctuation _ h
    exact ⟨c, cs, same, same ▸ read, same ▸ none⟩
  | string h => exact ⟨_, _, rfl, readString_append h [], congrArg _ (congrArg _ (stringValue_quoted _))⟩
  | whole h =>
    obtain ⟨c, cs, rfl⟩ := List.exists_cons_of_ne_nil h.1
    obtain ⟨first, others⟩ := List.forall_mem_cons.1 h.2
    have read := readNumber_append (c := c) others []
    refine ⟨c, cs, rfl, ?_, congrArg _ (congrArg _ (numberValue_whole h))⟩
    rw [read_of_isDigit first]
    simpa [splitDecimals] using read
  | @decimal digits decimals h h' =>
    obtain ⟨c, cs, rfl⟩ := List.exists_cons_of_ne_nil h.1
    obtain ⟨first, others⟩ := List.forall_mem_cons.1 h.2
    have read := readNumber_append (c := c) others ('.' :: decimals)
    have split := splitDecimals_of_isDigits h' []
    rw [List.append_nil] at split
    refine ⟨c, cs ++ '.' :: decimals, rfl, ?_, congrArg _ (congrArg _ (numberValue_decimal h))⟩
    rw [read_of_isDigit first, read, List.takeWhile_cons_of_neg (by decide), List.dropWhile_cons_of_neg (by decide), split]
    simp
  | reserved h =>
    obtain ⟨c, cs, same, read⟩ := word (isWord_of_reserved h)
    rw [String.ofList_toList, Kind.ofWord_of_mem h] at read
    exact ⟨c, cs, same, read, Kind.ofWord_of_mem h ▸ lexemeLiteral_ofWord _ _⟩
  | identifier h free =>
    obtain ⟨c, cs, same, read⟩ := word h
    rw [Kind.ofWord_of_free free] at read
    exact ⟨c, cs, same, read, rfl⟩

/-- A text is a lexeme in one way at most. -/
theorem unique {kind' : Kind} {literal' : Option Literal} (h : Lexeme kind literal text)
    (h' : Lexeme kind' literal' text) : kind' = kind ∧ literal' = literal := by
  obtain ⟨c, cs, same, read, carried⟩ := h.read_alone
  obtain ⟨c', cs', same', read', carried'⟩ := h'.read_alone
  cases same.symm.trans same'
  rw [read] at read'
  cases read'
  exact ⟨rfl, carried'.symm.trans carried⟩

/-- Where a lexeme begins, a piece is read that is at least as long. -/
theorem length_le_read {c : Char} {cs : List Char} (h : Lexeme kind literal (c :: cs)) (more : List Char) :
    (c :: cs).length ≤ (read c (cs ++ more)).1.text.length := by
  have word : IsWord (c :: cs) → (c :: cs).length ≤ (read c (cs ++ more)).1.text.length := by
    intro hw
    obtain ⟨kind, read⟩ := readWord_append (c := c) hw.2 more
    rw [read_of_startsWord hw.1, read]
    simp [Piece.text]
  generalize htext : c :: cs = text at h word ⊢
  cases h with
  | mark h =>
    obtain ⟨c', cs', same, -, -, single | whole⟩ := read_punctuation _ h
    all_goals cases htext.trans same
    · obtain ⟨more', start⟩ := (read_splits c (cs ++ more)).1
      rw [start, ← htext, single]
      exact Nat.succ_le_succ (Nat.zero_le _)
    · rw [whole, ← htext]
  | @string body h =>
    cases htext
    rw [List.append_assoc, read_quote, List.singleton_append, readString_append h more]
    exact Nat.le_refl _
  | whole h =>
    subst htext
    obtain ⟨first, others⟩ := List.forall_mem_cons.1 h.2
    rw [read_of_isDigit first, readNumber_append others]
    simp only [Piece.text, List.length_cons, List.length_append, List.cons_append]
    omega
  | @decimal digits decimals h h' =>
    obtain ⟨d, ds, rfl⟩ := List.exists_cons_of_ne_nil h.1
    rw [List.cons_append] at htext
    obtain ⟨rfl, rfl⟩ := List.cons.inj htext
    obtain ⟨first, others⟩ := List.forall_mem_cons.1 h.2
    rw [read_of_isDigit first, List.append_assoc, readNumber_append others, List.cons_append (a := '.'),
      List.takeWhile_cons_of_neg (by decide), List.dropWhile_cons_of_neg (by decide), splitDecimals_of_isDigits h']
    simp only [Piece.text, List.length_cons, List.length_append, List.cons_append]
    omega
  | reserved h => exact word (isWord_of_reserved h)
  | identifier h _ => exact word h

end Lexeme

/-! ## Read lexemes -/

namespace Piece

/-- Whether a piece that is a lexeme has the shape of one. -/
def Shaped (p : Piece) : Prop :=
  ∀ kind text, p = lexeme kind text → Lexeme kind (lexemeLiteral kind text) text

theorem Shaped.of_lexeme {kind : Kind} {literal : Option Literal} {text : List Char} (h : Lexeme kind literal text) :
    (lexeme kind text).Shaped := by
  intro kind' text' e
  cases e
  obtain ⟨-, -, -, -, rfl⟩ := h.read_alone
  exact h

theorem shaped_readString (cs : List Char) : (readString cs).1.Shaped := by
  unfold readString
  split
  · next quote rest h =>
    have isQuote : quote = '"' := by
      have := List.head?_dropWhile_not (· != '"') cs
      simpa [h] using this
    subst isQuote
    refine .of_lexeme (Lexeme.string fun mem => ?_)
    have := List.mem_takeWhile_imp mem
    simp at this
  · exact nofun

theorem shaped_punctuation {kind : Kind} {text : List Char} (h : (String.ofList text, kind) ∈ Kind.punctuation) :
    (lexeme kind text).Shaped :=
  .of_lexeme (by simpa using Lexeme.mark h)

theorem shaped_readSlash (cs : List Char) : (readSlash cs).1.Shaped := by
  unfold readSlash
  split
  · exact nofun
  · exact shaped_punctuation (by decide)

theorem isDigits_takeWhile {c : Char} (h : c.isDigit = true) (cs : List Char) :
    IsDigits (c :: cs.takeWhile Char.isDigit) :=
  ⟨List.cons_ne_nil _ _, List.forall_mem_cons.2 ⟨h, fun _ => List.mem_takeWhile_imp⟩⟩

/-- Decimals are a point and digits, or there are none. -/
theorem splitDecimals_shape (cs : List Char) :
    (splitDecimals cs).1 = [] ∨ ∃ decimals, IsDigits decimals ∧ (splitDecimals cs).1 = '.' :: decimals := by
  unfold splitDecimals
  split
  · split
    · next digit => exact .inr ⟨_, isDigits_takeWhile digit _, rfl⟩
    · exact .inl rfl
  · exact .inl rfl

theorem shaped_readNumber {c : Char} (h : c.isDigit = true) (cs : List Char) : (readNumber c cs).1.Shaped := by
  have digits := isDigits_takeWhile h cs
  have read := readNumber_append (c := c) (List.forall_mem_nil _) cs
  rw [List.nil_append, List.nil_append] at read
  rw [read]
  rcases splitDecimals_shape (cs.dropWhile Char.isDigit) with none | ⟨decimals, digits', some⟩
  · rw [none, List.append_nil]
    exact .of_lexeme (.whole digits)
  · rw [some]
    exact .of_lexeme (.decimal digits digits')

theorem shaped_readWord {c : Char} (h : startsWord c = true) (cs : List Char) : (readWord c cs).1.Shaped :=
  .of_lexeme (Lexeme.ofWord ⟨h, fun _ => List.mem_takeWhile_imp⟩)

theorem shaped_mark {c : Char} {kind : Kind} (h : mark? c = some kind) : (lexeme kind [c]).Shaped := by
  unfold mark? at h
  split at h
  all_goals first
    | cases h; done
    | cases h; exact shaped_punctuation (by decide)

theorem shaped_readComparison {c : Char} {alone withEqual : Kind} (h : comparison? c = some (alone, withEqual))
    (cs : List Char) : (readComparison c alone withEqual cs).1.Shaped := by
  unfold comparison? at h
  split at h
  all_goals cases h
  all_goals
    unfold readComparison
    split
    · exact shaped_punctuation (by decide)
    · exact shaped_punctuation (by decide)

/-- What is read as a lexeme is one. -/
theorem shaped_read (c : Char) (cs : List Char) : (read c cs).1.Shaped := by
  unfold read
  split
  · exact nofun
  split
  · exact shaped_readString cs
  split
  · exact shaped_readSlash cs
  split
  · next h => exact shaped_readNumber h cs
  split
  · next h => exact shaped_readWord h cs
  split
  · next h => exact shaped_mark h
  · next h => exact shaped_readComparison h cs
  · exact nofun

end Piece

end Lox
