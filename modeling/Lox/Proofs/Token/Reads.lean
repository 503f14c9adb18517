/-
A reader finds what is in its text. From the start of a piece it comes, byte by byte, to the end of the piece, with the
entry of the piece added to the stream (`Reader.reads_read`); so it ends with the stream of the text.
-/
import Lox.Proofs.Token.Boundary
import Lox.Proofs.Token.Respaced
import Mathlib.Logic.Relation

namespace Lox

namespace Reader

/-- A reader comes from one state to another. -/
def Reaches (source : String) : Reader → Reader → Prop := Relation.ReflTransGen fun r r' => r.step source = some r'

variable {source : String} {pre cs rest text : List Char} {c : Char} {start cursor line : Nat} {phase : Phase}
  {found : List Item}

/-! ## Bytes at a split -/

theorem byte?_split (split : source.toList = pre ++ cs) (i : Nat) :
    byte? source ((encoded pre).length + i) = (encoded cs)[i]? := by
  rw [byte?_eq, split, encoded_append, List.getElem?_append_right (Nat.le_add_right _ _), Nat.add_sub_cancel_left]

/-- A character of one byte is the next byte. -/
theorem byte?_here (split : source.toList = pre ++ c :: cs) (small : c.toNat < 128) :
    byte? source (encoded pre).length = some c := by
  have here := byte?_split split 0
  rwa [Nat.add_zero, encoded_cons, encoded_singleton small] at here

/-- The next byte is in a class of characters of one byte if the next character is. -/
theorem any_byte? {p : Char → Bool} (plain : Plain p) (split : source.toList = pre ++ cs) :
    (byte? source (encoded pre).length).any p = cs.head?.any p := by
  have here := byte?_split split 0
  rw [Nat.add_zero] at here
  rw [here, ← List.head?_eq_getElem?, plain.any_head?]

theorem getD_any {p : Char → Bool} (zero : p (.ofNat 0) = false) (o : Option Char) : p (o.getD (.ofNat 0)) = o.any p := by
  cases o with
  | none => exact zero
  | some c => rfl

/-- What is seen in the next byte holds of the next character. -/
theorem peek_split {p : Char → Bool} (plain : Plain p) (zero : p (.ofNat 0) = false)
    (split : source.toList = pre ++ cs) :
    p (peek source ⟨start, (encoded pre).length, line, phase, found⟩) = cs.head?.any p := by
  rw [peek, getD_any zero, any_byte? plain split]

/-- After a character of one byte the reader is at the next split. -/
theorem length_snoc (small : c.toNat < 128) : (encoded (pre ++ [c])).length = (encoded pre).length + 1 := by
  rw [encoded_append, encoded_singleton small]
  exact List.length_append

/-- The token for a part of the text that the reader has gone over. -/
theorem emitToken_eq (split : source.toList = pre ++ (text ++ rest)) (kind : Kind) (literal : Option Literal) :
    emitToken source kind literal ⟨(encoded pre).length, (encoded (pre ++ text)).length, line, phase, found⟩ =
      some ⟨(encoded pre).length, (encoded (pre ++ text)).length, line, .between,
        .token ⟨kind, String.ofList text, literal, line⟩ :: found⟩ := by
  rw [emitToken, slice?_eq split]
  rfl

/-- The expected character is taken. -/
theorem matchByte_hit (split : source.toList = pre ++ c :: cs) (small : c.toNat < 128) :
    matchByte source c ⟨start, (encoded pre).length, line, phase, found⟩ =
      some (true, ⟨start, (encoded (pre ++ [c])).length, line, phase, found⟩) := by
  have here := byte?_here split small
  rw [matchByte, if_pos ⟨lt_size_iff.2 ⟨c, here⟩, peek_eq here⟩, advance_eq here, length_snoc small]
  rfl

/-- Another character is not. -/
theorem matchByte_miss (split : source.toList = pre ++ cs) (small : c.toNat < 128) (zero : c ≠ .ofNat 0)
    (other : cs.head?.any (· == c) = false) :
    matchByte source c ⟨start, (encoded pre).length, line, phase, found⟩ =
      some (false, ⟨start, (encoded pre).length, line, phase, found⟩) := by
  have unseen : (peek source ⟨start, (encoded pre).length, line, phase, found⟩ == c) = cs.head?.any (· == c) :=
    peek_split (p := (· == c)) (plain_eq small) (beq_false_of_ne zero.symm) split
  rw [other] at unseen
  rw [matchByte, if_neg fun h => ne_of_beq_false unseen h.2]

/-- A comment is skipped up to its newline. -/
theorem skipLine_eq {body : List Char} (split : source.toList = pre ++ (body ++ rest)) (inLine : '\n' ∉ body)
    (stop : rest = [] ∨ rest.head? = some '\n') :
    skipLine source ⟨start, (encoded pre).length, line, phase, found⟩ =
      some ⟨start, (encoded (pre ++ body)).length, line, phase, found⟩ := by
  have ahead : (source.toByteArray.data.toList.drop (encoded pre).length).map Char.ofUInt8 =
      encoded body ++ encoded rest := by
    rw [List.map_drop, map_ofUInt8, split, encoded_append, encoded_append, List.drop_left]
  -- there is no newline among the bytes of the comment, so that the search goes on after them
  have search := congrArg (List.findIdx? (· == '\n')) ahead
  have none : (encoded body).findIdx? (· == '\n') = none :=
    List.findIdx?_eq_none_iff.2 fun c hc => beq_false_of_ne fun newline =>
      inLine ((mem_encoded_iff (by decide)).1 (newline ▸ hc))
  rw [List.findIdx?_map, List.findIdx?_append, none, Option.none_or] at search
  unfold skipLine
  rw [if_pos (by rw [← length_encoded_toList, split]; simp)]
  obtain rfl | newline := stop
  · have seen : (source.toByteArray.data.toList.drop (encoded pre).length).findIdx? (Char.ofUInt8 · == '\n') =
        Option.none := search
    rw [seen, ← length_encoded_toList, split, List.append_nil]
  · obtain ⟨more, rfl⟩ := List.head?_eq_some_iff.1 newline
    have seen : (source.toByteArray.data.toList.drop (encoded pre).length).findIdx? (Char.ofUInt8 · == '\n') =
        some (encoded body).length := by
      rw [encoded_cons, encoded_singleton (by decide), List.singleton_append, List.findIdx?_cons] at search
      exact search.trans (congrArg some (Nat.zero_add _))
    rw [seen, encoded_append, List.length_append]

/-! ## Going over bytes -/

/-- The characters with which a reader goes on in numbers and words. -/
inductive Takes : Phase → (Char → Bool) → Prop
  | whole : Takes .whole Char.isDigit
  | decimals : Takes .decimals Char.isDigit
  | word : Takes .word Piece.continuesWord

theorem Takes.plain {p : Char → Bool} (h : Takes phase p) : Plain p := by
  cases h with
  | whole | decimals => exact plain_isDigit
  | word => exact plain_continuesWord

theorem Takes.step {p : Char → Bool} {r : Reader} (h : Takes r.phase p) (seen : p (r.peek source) = true) :
    r.step source = (r.advance source).map (·.2) := by
  obtain ⟨start, cursor, line, phase, found⟩ := r
  cases h with
  | whole | decimals | word => exact if_pos seen

/-- One byte after the other is taken while the reader goes on with it. -/
theorem reaches_take {p : Char → Bool} (takes : Takes phase p) {taken : List Char} (all : ∀ c ∈ taken, p c = true)
    (split : source.toList = pre ++ (taken ++ rest)) :
    Reaches source ⟨start, (encoded pre).length, line, phase, found⟩
      ⟨start, (encoded (pre ++ taken)).length, line, phase, found⟩ := by
  induction taken generalizing pre with
  | nil =>
    rw [List.append_nil]
    exact .refl
  | cons c taken ih =>
    obtain ⟨first, others⟩ := List.forall_mem_cons.1 all
    have small := takes.plain c first
    have here := byte?_here split small
    rw [List.append_cons]
    refine .head ?_ (length_snoc small ▸ ih others (split.trans (List.append_cons ..)))
    rw [Takes.step (r := ⟨_, _, _, phase, _⟩) takes (by rwa [peek_eq here]), advance_eq here]
    rfl

/-- In a string bytes are taken whatever characters they are of, and their newlines are counted. -/
theorem reaches_inside {bytes more : List Char} (none : '"' ∉ bytes)
    (ahead : (encoded source.toList).drop cursor = bytes ++ more) :
    Reaches source ⟨start, cursor, line, .string, found⟩
      ⟨start, cursor + bytes.length, line + bytes.count '\n', .string, found⟩ := by
  induction bytes generalizing cursor line with
  | nil => exact .refl
  | cons b bytes ih =>
    obtain ⟨other, later⟩ := not_or.1 (mt List.mem_cons.2 none)
    have here : byte? source cursor = some b := by
      rw [byte?_eq, ← List.head?_drop, ahead]
      rfl
    have moves : Reaches source ⟨start, cursor + 1, line + [b].count '\n', .string, found⟩
        ⟨start, cursor + 1 + bytes.length, line + [b].count '\n' + bytes.count '\n', .string, found⟩ :=
      ih later (by rw [← List.tail_drop, ahead]; rfl)
    have total : line + (b :: bytes).count '\n' = line + [b].count '\n' + bytes.count '\n' := by
      rw [← List.singleton_append, List.count_append, Nat.add_assoc]
    rw [total, List.length_cons, Nat.add_comm bytes.length, ← Nat.add_assoc]
    refine .head ?_ moves
    show (if source.utf8ByteSize ≤ cursor then _ else _) = _
    rw [if_neg (Nat.not_le.2 (lt_size_iff.2 ⟨b, here⟩)), peek_eq here, if_neg (Ne.symm other), advance_eq here]
    exact congrArg some (countLine_eq b _)

/-! ## Pieces -/

/-- A reader that is at the start of something new comes from there to another state. -/
theorem reaches_of_dispatch {c : Char} {r : Reader} (here : byte? source (encoded pre).length = some c)
    (h : dispatch source c ⟨(encoded pre).length, (encoded pre).length + 1, line, .between, found⟩ = some r) :
    Reaches source ⟨start, (encoded pre).length, line, .between, found⟩ r := by
  refine .single ?_
  show (if (encoded pre).length < source.utf8ByteSize then _ else _) = _
  rw [if_pos (lt_size_iff.2 ⟨c, here⟩), begin_eq here, h]

/-- After its first character a number or a word is gone over as far as the reader goes on with it. -/
theorem reaches_begun {p : Char → Bool} (takes : Takes phase p) {taken : List Char} (all : ∀ d ∈ taken, p d = true)
    (split : source.toList = pre ++ c :: (taken ++ rest)) (small : c.toNat < 128)
    (begins : ∀ r : Reader, dispatch source c r = some { r with phase := phase }) :
    Reaches source ⟨start, (encoded pre).length, line, .between, found⟩
      ⟨(encoded pre).length, (encoded (pre ++ c :: taken)).length, line, phase, found⟩ := by
  have enters : Reaches source ⟨start, (encoded pre).length, line, .between, found⟩
      ⟨(encoded pre).length, (encoded (pre ++ [c])).length, line, phase, found⟩ := by
    rw [length_snoc small]
    exact reaches_of_dispatch (byte?_here split small) (begins _)
  rw [List.append_cons]
  exact enters.trans (reaches_take takes all (split.trans (List.append_cons ..)))

/-- A reader that is at the start of a piece comes to the end of it, with the entry of the piece. -/
def Reads (source : String) (pre : List Char) (p : Piece) : Prop :=
  ∀ start line found, Reaches source ⟨start, (encoded pre).length, line, .between, found⟩
    ⟨(encoded pre).length, (encoded (pre ++ p.text)).length, line + p.newlines, .between,
      (p.item? (line + p.newlines)).toList ++ found⟩

theorem reads_blank (split : source.toList = pre ++ c :: cs) (h : Piece.isBlank c = true) :
    Reads source pre (.blank c) := by
  intro start line found
  have small := plain_isBlank c h
  refine reaches_of_dispatch (byte?_here split small) ?_
  rw [dispatch, if_pos h, countLine_eq]
  exact congrArg (fun cursor => some (Reader.mk _ cursor _ _ _)) (length_snoc small).symm

/-- A token without blanks, for the text that a reader has gone over. -/
theorem reads_lexeme {kind : Kind} (solid : ∀ c ∈ text, Piece.isBlank c = false)
    (h : ∀ start line found, Reaches source ⟨start, (encoded pre).length, line, .between, found⟩
      ⟨(encoded pre).length, (encoded (pre ++ text)).length, line, .between,
        .token ⟨kind, String.ofList text, lexemeLiteral kind text, line⟩ :: found⟩) :
    Reads source pre (.lexeme kind text) := by
  intro start line found
  have inLine : (Piece.lexeme kind text).newlines = 0 :=
    List.count_eq_zero.2 fun newline => absurd (solid _ newline) (by decide)
  rw [inLine]
  exact h start line found

/-- What is left over by a class does not go on with it. -/
theorem any_head?_dropWhile (p : Char → Bool) (cs : List Char) : (cs.dropWhile p).head?.any p = false := by
  have first := List.head?_dropWhile_not p cs
  split at first
  · next c h =>
    rw [h]
    exact first
  · next h =>
    rw [h]
    rfl

/-- The word that a reader has gone over. -/
theorem endWord_eq (split : source.toList = pre ++ (text ++ rest)) :
    endWord source ⟨(encoded pre).length, (encoded (pre ++ text)).length, line, phase, found⟩ =
      some ⟨(encoded pre).length, (encoded (pre ++ text)).length, line, .between,
        .token ⟨.ofWord (String.ofList text), String.ofList text, none, line⟩ :: found⟩ := by
  rw [endWord, slice?_eq split]
  exact emitToken_eq split _ _

/-- The number that a reader has gone over. -/
theorem endNumber_eq (split : source.toList = pre ++ (text ++ rest)) :
    endNumber source ⟨(encoded pre).length, (encoded (pre ++ text)).length, line, phase, found⟩ =
      some ⟨(encoded pre).length, (encoded (pre ++ text)).length, line, .between,
        .token ⟨.number, String.ofList text, some (.number (numberValue text)), line⟩ :: found⟩ := by
  rw [endNumber, slice?_eq split, Option.bind_eq_bind, Option.bind_some, String.toList_ofList]
  exact emitToken_eq split _ _

/-- A word is read character by character. -/
theorem reads_readWord (split : source.toList = pre ++ c :: cs) (h : Piece.startsWord c = true)
    (begins : ∀ r : Reader, dispatch source c r = some { r with phase := .word }) :
    Reads source pre (Piece.readWord c cs).1 := by
  have all : ∀ d ∈ cs.takeWhile Piece.continuesWord, Piece.continuesWord d = true := fun d => List.mem_takeWhile_imp
  have parts : source.toList =
      pre ++ (c :: cs.takeWhile Piece.continuesWord ++ cs.dropWhile Piece.continuesWord) := by
    rw [split, List.cons_append, List.takeWhile_append_dropWhile]
  have isWord : IsWord (c :: cs.takeWhile Piece.continuesWord) := ⟨h, all⟩
  refine reads_lexeme isWord.solid fun start line found => ?_
  refine (reaches_begun .word all parts (plain_startsWord c h) begins).tail ?_
  have after := parts.trans (List.append_assoc ..).symm
  have ends : ¬ Piece.continuesWord (peek source ⟨(encoded pre).length,
      (encoded (pre ++ c :: cs.takeWhile Piece.continuesWord)).length, line, .word, found⟩) = true := by
    rw [peek_split plain_continuesWord rfl after, any_head?_dropWhile]
    decide
  rw [lexemeLiteral_ofWord]
  exact (if_neg ends).trans (endWord_eq parts)

/-- What is seen in the byte after the next one holds of the character after a next one of one byte. -/
theorem peekNext_split {p : Char → Bool} (plain : Plain p) (zero : p (.ofNat 0) = false) (small : c.toNat < 128)
    (split : source.toList = pre ++ c :: cs) :
    p (peekNext source ⟨start, (encoded pre).length, line, phase, found⟩) = cs.head?.any p := by
  have next := any_byte? plain (split.trans (List.append_cons ..))
  rw [length_snoc small] at next
  rw [peekNext, getD_any zero, next]

/-- From the end of the digits of a number a reader comes to the end of its decimals. -/
theorem reaches_decimals {digits : List Char} (split : source.toList = pre ++ (digits ++ rest))
    (stop : rest.head?.any Char.isDigit = false) :
    Reaches source ⟨(encoded pre).length, (encoded (pre ++ digits)).length, line, .whole, found⟩
      ⟨(encoded pre).length, (encoded (pre ++ (digits ++ (Piece.splitDecimals rest).1))).length, line, .between,
        .token ⟨.number, String.ofList (digits ++ (Piece.splitDecimals rest).1),
          some (.number (numberValue (digits ++ (Piece.splitDecimals rest).1))), line⟩ :: found⟩ := by
  have here : source.toList = (pre ++ digits) ++ rest := by rw [split, List.append_assoc]
  generalize hr : Reader.mk (encoded pre).length (encoded (pre ++ digits)).length line .whole found = r
  have noDigit : ¬ (r.peek source).isDigit = true := by
    rw [← hr, peek_split plain_isDigit rfl here, stop]
    decide
  -- without decimals the number ends where the reader is
  have ends (noPoint : ¬ (r.peek source = '.' ∧ (r.peekNext source).isDigit = true)) : Reaches source r
      ⟨(encoded pre).length, (encoded (pre ++ (digits ++ []))).length, line, .between,
        .token ⟨.number, String.ofList (digits ++ []), some (.number (numberValue (digits ++ []))), line⟩ :: found⟩ := by
    refine .single ?_
    subst hr
    rw [List.append_nil]
    exact (if_neg noDigit).trans ((if_neg noPoint).trans (endNumber_eq split))
  unfold Piece.splitDecimals
  split
  · next d more =>
    have next : (r.peekNext source).isDigit = d.isDigit := by
      rw [← hr]
      exact peekNext_split plain_isDigit rfl (by decide) here
    split
    · next digit =>
      have all : ∀ c ∈ d :: more.takeWhile Char.isDigit, c.isDigit = true :=
        List.forall_mem_cons.2 ⟨digit, fun _ => List.mem_takeWhile_imp⟩
      have after : source.toList =
          (pre ++ digits ++ ['.']) ++ (d :: more.takeWhile Char.isDigit ++ more.dropWhile Char.isDigit) := by
        rw [here, List.cons_append, List.takeWhile_append_dropWhile, List.append_assoc (pre ++ digits),
          List.singleton_append]
      have byte := byte?_here here (by decide)
      have point : Reaches source r
          ⟨(encoded pre).length, (encoded (pre ++ digits ++ ['.'])).length, line, .decimals, found⟩ := by
        refine .single ?_
        subst hr
        refine (if_neg noDigit).trans ((if_pos ⟨peek_eq byte, next.trans digit⟩).trans ?_)
        rw [advance_eq byte, length_snoc (by decide)]
        rfl
      refine (point.trans (reaches_take .decimals all after)).tail ?_
      have noMore : ¬ (peek source ⟨(encoded pre).length,
          (encoded (pre ++ digits ++ ['.'] ++ d :: more.takeWhile Char.isDigit)).length, line, .decimals, found⟩).isDigit
            = true := by
        rw [peek_split plain_isDigit rfl (after.trans (List.append_assoc ..).symm), any_head?_dropWhile]
        decide
      refine (if_neg noMore).trans ?_
      have parts : pre ++ digits ++ ['.'] ++ d :: more.takeWhile Char.isDigit =
          pre ++ (digits ++ '.' :: d :: more.takeWhile Char.isDigit) := by simp
      rw [← List.append_assoc, parts, List.append_assoc] at after
      rw [parts]
      exact endNumber_eq after
    · next other =>
      exact ends fun h => other (next.symm.trans h.2)
  · next other =>
    refine ends fun h => ?_
    have point : (r.peek source == '.') = rest.head?.any (· == '.') := by
      rw [← hr]
      exact peek_split (p := (· == '.')) (plain_eq (by decide)) rfl here
    rw [beq_iff_eq.2 h.1] at point
    cases rest with
    | nil => cases point
    | cons c more =>
      obtain rfl : c = '.' := eq_of_beq point.symm
      cases more with
      | nil =>
        have next : (r.peekNext source).isDigit = false := by
          rw [← hr]
          exact peekNext_split plain_isDigit rfl (by decide) here
        rw [h.2] at next
        cases next
      | cons d more => exact other d more rfl

/-- A number is read digit by digit. -/
theorem reads_readNumber (split : source.toList = pre ++ c :: cs) (h : c.isDigit = true)
    (begins : ∀ r : Reader, dispatch source c r = some { r with phase := .whole }) :
    Reads source pre (Piece.readNumber c cs).1 := by
  have all : ∀ d ∈ cs.takeWhile Char.isDigit, d.isDigit = true := fun d => List.mem_takeWhile_imp
  have parts : source.toList = pre ++ (c :: cs.takeWhile Char.isDigit ++ cs.dropWhile Char.isDigit) := by
    rw [split, List.cons_append, List.takeWhile_append_dropWhile]
  refine reads_lexeme ((Piece.shaped_readNumber h cs _ _ rfl).solid nofun) fun start line found => ?_
  exact (reaches_begun .whole all parts (plain_isDigit c h) begins).trans
    (reaches_decimals parts (any_head?_dropWhile _ _))

/-- From an opening quotation mark a reader goes over the bytes of what follows, up to a closing one. -/
theorem reaches_string {body : List Char} (split : source.toList = pre ++ '"' :: (body ++ rest)) (none : '"' ∉ body) :
    Reaches source ⟨start, (encoded pre).length, line, .between, found⟩
      ⟨(encoded pre).length, (encoded (pre ++ '"' :: body)).length, line + body.count '\n', .string, found⟩ := by
  have ahead : (encoded source.toList).drop ((encoded pre).length + 1) = encoded body ++ encoded rest := by
    rw [← List.drop_drop, split, encoded_append, List.drop_left, encoded_cons, encoded_singleton (by decide),
      encoded_append]
    rfl
  have place : (encoded (pre ++ '"' :: body)).length = (encoded pre).length + 1 + (encoded body).length := by
    rw [encoded_append, encoded_cons, encoded_singleton (by decide), List.length_append, List.length_append,
      List.length_singleton, Nat.add_assoc]
  rw [place, ← count_encoded (by decide)]
  exact (reaches_of_dispatch (byte?_here split (by decide)) rfl).trans
    (reaches_inside (mt (mem_encoded_iff (by decide)).1 none) ahead)

theorem byte?_closing {body more : List Char} (split : source.toList = pre ++ '"' :: (body ++ '"' :: more)) :
    byte? source (encoded (pre ++ '"' :: body)).length = some '"' :=
  byte?_here (split.trans (List.append_assoc _ ('"' :: body) _).symm) (by decide)

/-- The string that a reader has gone over, up to its closing quotation mark. -/
theorem endString_eq {body more : List Char} (split : source.toList = pre ++ '"' :: (body ++ '"' :: more)) :
    endString source ⟨(encoded pre).length, (encoded (pre ++ '"' :: body)).length, line, phase, found⟩ =
      some ⟨(encoded pre).length, (encoded (pre ++ '"' :: (body ++ ['"']))).length, line, .between,
        .token ⟨.string, String.ofList ('"' :: (body ++ ['"'])), some (.string (String.ofList body)), line⟩ ::
          found⟩ := by
  have value := slice?_eq (split.trans (List.append_cons ..))
  rw [length_snoc (by decide), List.append_assoc, List.singleton_append] at value
  have last : pre ++ '"' :: (body ++ ['"']) = pre ++ '"' :: body ++ ['"'] := by simp
  have whole : source.toList = pre ++ ('"' :: (body ++ ['"']) ++ more) := by rw [split]; simp
  rw [endString, advance_eq (byte?_closing split), Option.bind_eq_bind, Option.bind_some]
  dsimp only
  rw [Nat.add_sub_cancel, value, ← length_snoc (c := '"') (by decide), ← last]
  exact emitToken_eq whole _ _

theorem reads_string {body more : List Char} (split : source.toList = pre ++ '"' :: (body ++ '"' :: more))
    (none : '"' ∉ body) : Reads source pre (.lexeme .string ('"' :: (body ++ ['"']))) := by
  intro start line found
  have lines : (Piece.lexeme .string ('"' :: (body ++ ['"']))).newlines = body.count '\n' := by
    show ('"' :: (body ++ ['"'])).count '\n' = _
    rw [List.count_cons_of_ne (by decide), List.count_append]
    rfl
  have closing := byte?_closing split
  rw [lines, Piece.item?, lexemeLiteral, stringValue_quoted]
  refine (reaches_string split none).tail ((if_neg (Nat.not_le.2 (lt_size_iff.2 ⟨_, closing⟩))).trans ?_)
  exact (if_pos (peek_eq closing)).trans (endString_eq split)

theorem reads_openString (split : source.toList = pre ++ '"' :: cs) (none : '"' ∉ cs) :
    Reads source pre (.openString cs) := by
  intro start line found
  rw [Piece.newlines_openString]
  have whole : source.toList = pre ++ '"' :: (cs ++ []) := by rwa [List.append_nil]
  refine (reaches_string whole none).tail ?_
  have atEnd : (encoded (pre ++ '"' :: cs)).length = source.utf8ByteSize := by
    rw [← split, length_encoded_toList]
  exact if_pos (Nat.le_of_eq atEnd.symm)

/-- A string is read byte by byte, up to a closing quotation mark or to the end of the text. -/
theorem reads_readString (split : source.toList = pre ++ '"' :: cs) : Reads source pre (Piece.readString cs).1 := by
  by_cases closed : '"' ∈ cs
  · obtain ⟨body, more, rfl, none⟩ := List.eq_append_cons_of_mem closed
    rw [Piece.readString_append none]
    exact reads_string split none
  · rw [Piece.readString_open closed]
    exact reads_openString split closed

/-- A comment is skipped as a whole. -/
theorem reads_comment {body : List Char} (split : source.toList = pre ++ '/' :: '/' :: (body ++ rest))
    (inLine : '\n' ∉ body) (stop : rest = [] ∨ rest.head? = some '\n') : Reads source pre (.comment body) := by
  intro start line found
  rw [Piece.newlines_comment inLine]
  refine reaches_of_dispatch (byte?_here split (by decide)) ?_
  have second := split.trans (List.append_cons ..)
  have third := second.trans (List.append_cons ..)
  have parts : pre ++ ['/'] ++ ['/'] ++ body = pre ++ '/' :: '/' :: body := by simp
  show ((matchByte source '/' ⟨(encoded pre).length, (encoded pre).length + 1, line, .between, found⟩).bind _) = _
  rw [← length_snoc (c := '/') (by decide), matchByte_hit second (by decide), Option.bind_some]
  exact (skipLine_eq third inLine stop).trans (by rw [parts]; rfl)

/-- Without another slash after it a slash stands alone. -/
theorem reads_slash (split : source.toList = pre ++ '/' :: cs) (other : cs.head?.any (· == '/') = false) :
    Reads source pre (.lexeme .slash ['/']) := by
  refine reads_lexeme (List.forall_mem_singleton.2 (by decide)) fun start line found =>
    reaches_of_dispatch (byte?_here split (by decide)) ?_
  have second := split.trans (List.append_cons ..)
  show ((matchByte source '/' ⟨(encoded pre).length, (encoded pre).length + 1, line, .between, found⟩).bind _) = _
  rw [← length_snoc (c := '/') (by decide), matchByte_miss second (by decide) (by decide) other, Option.bind_some]
  exact emitToken_eq split _ _

theorem reads_readSlash (split : source.toList = pre ++ '/' :: cs) : Reads source pre (Piece.readSlash cs).1 := by
  unfold Piece.readSlash
  split
  · next cs =>
    have parts : source.toList = pre ++ '/' :: '/' :: (cs.takeWhile (· != '\n') ++ cs.dropWhile (· != '\n')) := by
      rw [split, List.takeWhile_append_dropWhile]
    refine reads_comment parts ?_ ?_
    · exact fun mem => absurd (List.mem_takeWhile_imp mem) (by decide)
    · have first := any_head?_dropWhile (· != '\n') cs
      cases left : cs.dropWhile (· != '\n') with
      | nil => exact .inl rfl
      | cons c more =>
        rw [left] at first
        exact .inr (congrArg some (of_not_not (mt bne_iff_ne.2 (Bool.eq_false_iff.1 first))))
  · next other =>
    refine reads_slash split ?_
    cases cs with
    | nil => rfl
    | cons c cs => exact beq_false_of_ne fun slash => other cs (congrArg (· :: cs) slash)

theorem lexemeLiteral_of_mark? {kind : Kind} (h : Piece.mark? c = some kind) (text : List Char) :
    lexemeLiteral kind text = none := by
  unfold Piece.mark? at h
  split at h
  all_goals
    cases h
    try rfl

theorem lexemeLiteral_of_comparison? {alone withEqual : Kind} (h : Piece.comparison? c = some (alone, withEqual))
    (text : List Char) : lexemeLiteral alone text = none ∧ lexemeLiteral withEqual text = none := by
  unfold Piece.comparison? at h
  split at h
  all_goals
    cases h
    try exact ⟨rfl, rfl⟩

/-- An operator is read with an equals sign that follows it. -/
theorem reads_readComparison {alone withEqual : Kind} (split : source.toList = pre ++ c :: cs)
    (known : Piece.comparison? c = some (alone, withEqual)) (solid : Piece.isBlank c = false)
    (begins : ∀ r : Reader, dispatch source c r = (r.matchByte source '=').bind fun p =>
      p.2.emitToken source (if p.1 then withEqual else alone) none) :
    Reads source pre (Piece.readComparison c alone withEqual cs).1 := by
  have small := lt_of_comparison? known
  have second := split.trans (List.append_cons ..)
  unfold Piece.readComparison
  split
  · next cs =>
    refine reads_lexeme ?_ fun start line found => reaches_of_dispatch (byte?_here split small) ?_
    · exact List.forall_mem_cons.2 ⟨solid, List.forall_mem_singleton.2 (by decide)⟩
    have parts : pre ++ [c] ++ ['='] = pre ++ [c, '='] := by simp
    rw [begins, ← length_snoc small, matchByte_hit second (by decide), Option.bind_some, parts,
      (lexemeLiteral_of_comparison? known _).2]
    exact emitToken_eq split _ _
  · next other =>
    refine reads_lexeme (List.forall_mem_singleton.2 solid) fun start line found =>
      reaches_of_dispatch (byte?_here split small) ?_
    have noEqual : cs.head?.any (· == '=') = false := by
      cases cs with
      | nil => rfl
      | cons d cs => exact beq_false_of_ne fun equal => other cs (congrArg (· :: cs) equal)
    rw [begins, ← length_snoc small, matchByte_miss second (by decide) (by decide) noEqual, Option.bind_some,
      (lexemeLiteral_of_comparison? known _).1]
    exact emitToken_eq split _ _

/-- Whether nothing starts with a character. -/
structure Unknown (c : Char) : Prop where
  solid : ¬ Piece.isBlank c = true
  quote : c ≠ '"'
  slash : c ≠ '/'
  digit : ¬ c.isDigit = true
  word : ¬ Piece.startsWord c = true
  mark : Piece.mark? c = none
  comparison : Piece.comparison? c = none

/-- Nothing starts with what is not a character of one byte. -/
theorem unknown_of_le (h : 128 ≤ c.toNat) : Unknown c where
  solid blank := absurd (plain_isBlank c blank) (Nat.not_lt.2 h)
  quote same := absurd h (by rw [same]; decide)
  slash same := absurd h (by rw [same]; decide)
  digit digit := absurd (plain_isDigit c digit) (Nat.not_lt.2 h)
  word word := absurd (plain_startsWord c word) (Nat.not_lt.2 h)
  mark := Option.eq_none_iff_forall_ne_some.2 fun _ mark => absurd (lt_of_mark? mark) (Nat.not_lt.2 h)
  comparison := Option.eq_none_iff_forall_ne_some.2 fun _ comparison =>
    absurd (lt_of_comparison? comparison) (Nat.not_lt.2 h)

/-- A character that nothing starts with is skipped as a whole, whatever its bytes are. -/
theorem reads_stray (split : source.toList = pre ++ c :: cs) (unknown : Unknown c) : Reads source pre (.stray c) := by
  intro start line found
  obtain ⟨b, here, stray⟩ : ∃ b, byte? source (encoded pre).length = some b ∧ Unknown b := by
    by_cases small : c.toNat < 128
    · exact ⟨c, byte?_here split small, unknown⟩
    · -- nothing begins with the first byte of a longer character either
      have isLong : encoded [c] ≠ [] := List.ne_nil_of_length_pos (length_encoded_singleton c ▸ c.utf8Size_pos)
      obtain ⟨b, more, bytes⟩ := List.exists_cons_of_ne_nil isLong
      have here := byte?_split split 0
      rw [Nat.add_zero, encoded_cons, bytes] at here
      exact ⟨b, here, unknown_of_le (le_of_mem_encoded (Nat.not_lt.1 small) (bytes ▸ List.mem_cons_self))⟩
  rw [Piece.newlines_stray (Bool.eq_false_iff.2 unknown.solid)]
  refine reaches_of_dispatch here ?_
  rw [dispatch, if_neg stray.solid, if_neg stray.quote, if_neg stray.slash, if_neg stray.digit, if_neg stray.word,
    stray.mark, stray.comparison]
  dsimp only
  rw [skipChar_eq split]
  rfl

/-- A reader reads the next piece, whatever it is. -/
theorem reads_read (split : source.toList = pre ++ c :: cs) : Reads source pre (Piece.read c cs).1 := by
  -- a reader and `Piece.read` ask for the same characters in the same order
  by_cases blank : Piece.isBlank c = true
  · rw [Piece.read, if_pos blank]
    exact reads_blank split blank
  by_cases quote : c = '"'
  · subst quote
    exact reads_readString split
  by_cases slash : c = '/'
  · subst slash
    exact reads_readSlash split
  rw [Piece.read, if_neg blank, if_neg quote, if_neg slash]
  have begins (r : Reader) : dispatch source c r = _ := (if_neg blank).trans ((if_neg quote).trans (if_neg slash))
  by_cases digit : c.isDigit = true
  · rw [if_pos digit]
    exact reads_readNumber split digit fun r => (begins r).trans (if_pos digit)
  by_cases word : Piece.startsWord c = true
  · rw [if_neg digit, if_pos word]
    exact reads_readWord split word fun r => (begins r).trans ((if_neg digit).trans (if_pos word))
  rw [if_neg digit, if_neg word]
  have begins (r : Reader) := (begins r).trans ((if_neg digit).trans (if_neg word))
  cases mark : Piece.mark? c with
  | some kind =>
    have small := lt_of_mark? mark
    refine reads_lexeme (List.forall_mem_singleton.2 (Bool.eq_false_iff.2 blank)) fun start line found =>
      reaches_of_dispatch (byte?_here split small) ((begins _).trans ?_)
    rw [mark, ← length_snoc small, lexemeLiteral_of_mark? mark]
    exact emitToken_eq split _ _
  | none =>
    cases comparison : Piece.comparison? c with
    | some kinds =>
      refine reads_readComparison split comparison (Bool.eq_false_iff.2 blank) fun r => (begins r).trans ?_
      rw [mark, comparison]
      rfl
    | none => exact reads_stray split ⟨blank, quote, slash, digit, word, mark, comparison⟩

/-- At the end of the text a reader finds the end token. -/
theorem step_end (atEnd : cursor = source.utf8ByteSize) :
    step source ⟨start, cursor, line, .between, found⟩ =
      some ⟨start, source.utf8ByteSize + 1, line, .between, .token (.endAt line) :: found⟩ := by
  subst atEnd
  exact (if_neg (Nat.lt_irrefl _)).trans (if_pos rfl)

/-- From the start of any piece on, a reader finds the rest of the stream. -/
theorem reaches_items (cs : List Char) : ∀ pre start line found, source.toList = pre ++ cs →
    ∃ r, Reaches source ⟨start, (encoded pre).length, line, .between, found⟩ r ∧
      r.cursor = source.utf8ByteSize + 1 ∧ r.found = (itemsFrom line (pieces cs)).reverse ++ found := by
  -- with each piece there is less left to read
  induction h : cs.length using Nat.strongRecOn generalizing cs with
  | ind n ih =>
    intro pre start line found split
    cases cs with
    | nil =>
      rw [List.append_nil] at split
      refine ⟨_, .single (step_end (split ▸ length_encoded_toList source)), rfl, ?_⟩
      rw [pieces_nil]
      rfl
    | cons c cs =>
      have shorter : (Piece.read c cs).2.length < n := h ▸ Nat.lt_succ_of_le (Piece.length_read_le c cs)
      obtain ⟨r, goes, place, stream⟩ := ih _ shorter (Piece.read c cs).2 rfl (pre ++ (Piece.read c cs).1.text)
        (encoded pre).length (line + (Piece.read c cs).1.newlines)
        (((Piece.read c cs).1.item? (line + (Piece.read c cs).1.newlines)).toList ++ found)
        (by rw [List.append_assoc, Piece.read_text, split])
      refine ⟨r, (reads_read split start line found).trans goes, place, ?_⟩
      rw [stream, pieces_cons, itemsFrom]
      cases (Piece.read c cs).1.item? (line + (Piece.read c cs).1.newlines) with
      | none => rfl
      | some item => simp

theorem exists_after_of_reaches {r r' : Reader} {n : Nat} (start : after source n = some r) (h : Reaches source r r') :
    ∃ m, after source m = some r' := by
  induction h with
  | refl => exact ⟨n, start⟩
  | tail _ step ih =>
    obtain ⟨m, reached⟩ := ih
    exact ⟨m + 1, by rw [after, reached]; exact step⟩

/--
A reader goes over any text without failing: no byte is read that is not there, and no slice is taken out of range or
through the middle of a character. Its cursor stays in the text, but for the one step with which the end token is found,
and whenever something new begins it is where a character starts. In the end the reader has found the stream of the
text.
-/
theorem reads_safely (source : String) :
    (∀ n, ∃ r, after source n = some r ∧
      (r.cursor ≤ source.utf8ByteSize ∨ r.cursor = source.utf8ByteSize + 1 ∧ r.phase = .between ∧
        r.found.head? = some (.token (.endAt r.line))) ∧
      (r.phase = .between → r.cursor ≤ source.utf8ByteSize → (⟨r.cursor⟩ : String.Pos.Raw).IsValid source)) ∧
    ∃ n r, after source n = some r ∧ r.cursor = source.utf8ByteSize + 1 ∧ r.found.reverse = items source := by
  refine ⟨fun n => ?_, ?_⟩
  · obtain ⟨r, reached, safe⟩ := safe_after source n
    refine ⟨r, reached, ?_⟩
    cases safe with
    | between here => exact ⟨.inl here.le_size, fun _ _ => here⟩
    | done => exact ⟨.inr ⟨rfl, rfl, rfl⟩, fun _ within => absurd within (Nat.not_succ_le_self _)⟩
    | string _ _ within => exact ⟨.inl within, nofun⟩
    | inside _ here => exact ⟨.inl here.le_size, fun _ _ => here⟩
  · obtain ⟨r, goes, place, stream⟩ := reaches_items source.toList [] 0 1 [] rfl
    obtain ⟨n, reached⟩ := exists_after_of_reaches (n := 0) rfl goes
    exact ⟨n, r, reached, place, by rw [stream, List.append_nil, List.reverse_reverse]; rfl⟩

end Reader

end Lox
