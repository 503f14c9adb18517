/-
A reader never leaves the boundaries of the characters of its text. It does not keep to them within a string, but it is
at one again where it finds the closing quotation mark, for no byte inside a character looks like one. So no step of it
fails (`Reader.safe_step`).
-/
import Lox.Proofs.Token.Bytes

namespace Lox

/-! ## Boundaries -/

/-- Whether an index is where a character of a text starts, or the end of the text. -/
def Boundary (source : String) (i : Nat) : Prop := (⟨i⟩ : String.Pos.Raw).IsValid source

namespace Boundary

variable {source : String} {i j : Nat}

/-- A boundary splits the text in two. -/
theorem iff_split : Boundary source i ↔ ∃ pre post, source.toList = pre ++ post ∧ i = (encoded pre).length := by
  unfold Boundary
  rw [String.Pos.Raw.isValid_iff_exists_append]
  constructor
  · rintro ⟨before, after, rfl, place⟩
    refine ⟨before.toList, after.toList, String.toList_append, ?_⟩
    rw [length_encoded, String.ofList_toList]
    exact congrArg String.Pos.Raw.byteIdx place
  · rintro ⟨pre, post, split, rfl⟩
    refine ⟨String.ofList pre, String.ofList post, ?_, ?_⟩
    · rw [← String.ofList_append, ← split, String.ofList_toList]
    · rw [length_encoded]
      rfl

theorem zero (source : String) : Boundary source 0 := String.Pos.Raw.isValid_zero

theorem size (source : String) : Boundary source source.utf8ByteSize := String.Pos.Raw.isValid_rawEndPos

theorem le_size (h : Boundary source i) : i ≤ source.utf8ByteSize := h.le_utf8ByteSize

/-- A byte below 128 is a character of its own. -/
theorem of_byte? {b : Char} (h : byte? source i = some b) (small : b.toNat < 128) :
    Boundary source i ∧ Boundary source (i + 1) := by
  rw [byte?_eq] at h
  obtain ⟨pre, post, split, rfl⟩ := exists_of_getElem?_encoded small h
  refine ⟨iff_split.2 ⟨pre, b :: post, split, rfl⟩, iff_split.2 ⟨pre ++ [b], post, by simpa using split, ?_⟩⟩
  rw [encoded_append, encoded_singleton small]
  simp

/-- Between boundaries that are in order there is a slice, with the bytes between them. -/
theorem slice (hi : Boundary source i) (hj : Boundary source j) (le : i ≤ j) :
    ∃ text, slice? source i j = some text ∧ text.toByteArray = source.toByteArray.extract i j := by
  unfold slice?
  rw [dif_pos ⟨le, hi, hj⟩]
  exact ⟨_, rfl, String.toByteArray_extract⟩

end Boundary

/-- The slice of a text that two parts of it leave in the middle. -/
theorem slice?_eq {source : String} {pre mid post : List Char} (split : source.toList = pre ++ (mid ++ post)) :
    slice? source (encoded pre).length (encoded (pre ++ mid)).length = some (String.ofList mid) := by
  have first : Boundary source (encoded pre).length := Boundary.iff_split.2 ⟨pre, mid ++ post, split, rfl⟩
  have last : Boundary source (encoded (pre ++ mid)).length :=
    Boundary.iff_split.2 ⟨pre ++ mid, post, by simpa using split, rfl⟩
  obtain ⟨text, cut, bytes⟩ := first.slice last (by simp)
  -- the bytes of the text are those of the three parts, one after the other
  have whole : source.toByteArray =
      (String.ofList pre).toByteArray ++ ((String.ofList mid).toByteArray ++ (String.ofList post).toByteArray) := by
    rw [← String.toByteArray_append, ← String.toByteArray_append, ← String.ofList_append, ← String.ofList_append,
      ← split, String.ofList_toList]
  simp only [encoded_append, List.length_append, length_encoded, ← String.size_toByteArray] at bytes
  rw [whole, ← Nat.add_zero (String.ofList pre).toByteArray.size, Nat.add_assoc, Nat.zero_add,
    ByteArray.extract_append_size_add, ByteArray.extract_append_eq_left rfl] at bytes
  rw [cut, String.toByteArray_inj.1 bytes]

/-! ## Steps -/

namespace Reader

/-- Where a reader can be. -/
inductive Safe (source : String) : Reader → Prop
  /-- Something new begins at a boundary. -/
  | between {start cursor line found} (here : Boundary source cursor) : Safe source ⟨start, cursor, line, .between, found⟩
  /-- After the end token the reader is one byte after the end of the text. -/
  | done {start line found} :
    Safe source ⟨start, source.utf8ByteSize + 1, line, .between, .token (.endAt line) :: found⟩
  /-- In a string the reader need not be at a boundary. -/
  | string {start cursor line found} (quote : byte? source start = some '"') (later : start < cursor)
      (within : cursor ≤ source.utf8ByteSize) : Safe source ⟨start, cursor, line, .string, found⟩
  /-- In numbers and words it is. -/
  | inside {start cursor line phase found} (first : Boundary source start) (here : Boundary source cursor)
      (order : start ≤ cursor) (plain : phase ≠ .between ∧ phase ≠ .string) : Safe source ⟨start, cursor, line, phase, found⟩

variable {source : String} {start cursor line : Nat} {phase : Phase} {found : List Item} {c : Char}

theorem lt_size_iff {i : Nat} : i < source.utf8ByteSize ↔ ∃ c, byte? source i = some c := by
  rw [← Option.isSome_iff_exists, byte?_eq, ← length_encoded_toList]
  simp

theorem countLine_eq (c : Char) (r : Reader) : r.countLine c = { r with line := r.line + [c].count '\n' } := by
  unfold countLine
  split
  · next h =>
    subst h
    rfl
  · next h => rw [List.count_singleton, if_neg (by simpa using h), Nat.add_zero]

/-- Where there is a byte it can be taken. -/
theorem advance_eq {r : Reader} (h : byte? source r.cursor = some c) :
    r.advance source = some (c, { r with cursor := r.cursor + 1 }) := by
  rw [advance, h]
  rfl

theorem begin_eq (h : byte? source cursor = some c) :
    begin source ⟨start, cursor, line, phase, found⟩ = dispatch source c ⟨cursor, cursor + 1, line, phase, found⟩ := by
  rw [begin, advance_eq h]
  rfl

theorem peek_eq {r : Reader} (h : byte? source r.cursor = some c) : r.peek source = c := by
  rw [peek, h]
  rfl

/-- What is seen in the next byte is there, if it is not in zero. -/
theorem byte?_of_peek {r : Reader} {p : Char → Bool} (zero : p (.ofNat 0) = false) (h : p (r.peek source) = true) :
    ∃ c, byte? source r.cursor = some c ∧ p c = true := by
  unfold peek at h
  cases found : byte? source r.cursor with
  | none =>
    rw [found, Option.getD_none, zero] at h
    cases h
  | some c =>
    rw [found] at h
    exact ⟨c, rfl, h⟩

/-- Between boundaries there is a token. -/
theorem emitToken_safe (first : Boundary source start) (here : Boundary source cursor) (order : start ≤ cursor)
    (kind : Kind) (literal : Option Literal) :
    ∃ r', emitToken source kind literal ⟨start, cursor, line, phase, found⟩ = some r' ∧ Safe source r' := by
  obtain ⟨lexeme, cut, -⟩ := first.slice here order
  rw [emitToken, cut]
  exact ⟨_, rfl, .between here⟩

/-- A byte below 128 can be expected. -/
theorem matchByte_safe {r : Reader} (here : Boundary source r.cursor) (small : c.toNat < 128) :
    ∃ isIt cursor', matchByte source c r = some (isIt, { r with cursor := cursor' }) ∧ Boundary source cursor' ∧
      r.cursor ≤ cursor' := by
  unfold matchByte
  split
  · next next =>
    obtain ⟨b, hb⟩ := lt_size_iff.1 next.1
    have same : b = c := (peek_eq hb).symm.trans next.2
    rw [advance_eq hb]
    exact ⟨true, r.cursor + 1, rfl, (Boundary.of_byte? hb (same ▸ small)).2, Nat.le_succ _⟩
  · exact ⟨false, r.cursor, rfl, here, Nat.le_refl _⟩

/-- The end of a line is at a boundary. -/
theorem skipLine_safe (here : Boundary source cursor) :
    ∃ r', skipLine source ⟨start, cursor, line, .between, found⟩ = some r' ∧ Safe source r' := by
  unfold skipLine
  rw [if_pos here.le_size]
  split
  · next distance isNewline =>
    obtain ⟨within, newline, -⟩ := List.findIdx?_eq_some_iff_getElem.1 isNewline
    have byte : byte? source (cursor + distance) = some '\n' := by
      have place := List.getElem?_eq_getElem within
      rw [List.getElem?_drop, Array.getElem?_toList] at place
      exact (congrArg (Option.map Char.ofUInt8) place).trans (congrArg some (eq_of_beq newline))
    exact ⟨_, rfl, .between (Boundary.of_byte? byte (by decide)).1⟩
  · exact ⟨_, rfl, .between (.size source)⟩

/-- A reader skips the character that it started at. -/
theorem skipChar_eq {pre post : List Char} (split : source.toList = pre ++ c :: post) :
    skipChar source ⟨(encoded pre).length, cursor, line, phase, found⟩ =
      some ⟨(encoded pre).length, (encoded (pre ++ [c])).length, line, phase, found⟩ := by
  have whole : source.toList = pre ++ (c :: post ++ []) := by rwa [List.append_nil]
  have rest := slice?_eq whole
  rw [← split, length_encoded_toList] at rest
  rw [skipChar, rest, Option.bind_eq_bind, Option.bind_some, String.toList_ofList, encoded_append, List.length_append,
    length_encoded_singleton]

/-- Before the end of the text a boundary has a character after it. -/
theorem exists_of_lt_size {i : Nat} (h : Boundary source i) (more : i < source.utf8ByteSize) :
    ∃ pre c post, source.toList = pre ++ c :: post ∧ i = (encoded pre).length := by
  obtain ⟨pre, post, split, rfl⟩ := Boundary.iff_split.1 h
  cases post with
  | nil =>
    rw [List.append_nil] at split
    rw [← split, length_encoded_toList] at more
    exact absurd more (Nat.lt_irrefl _)
  | cons c post => exact ⟨pre, c, post, split, rfl⟩

/-- From a boundary something new can begin. -/
theorem begin_safe (here : Boundary source cursor) (more : cursor < source.utf8ByteSize) :
    ∃ r', begin source ⟨start, cursor, line, .between, found⟩ = some r' ∧ Safe source r' := by
  obtain ⟨c, hc⟩ := lt_size_iff.1 more
  have next : c.toNat < 128 → Boundary source (cursor + 1) := fun small => (Boundary.of_byte? hc small).2
  rw [begin_eq hc]
  -- the byte is a character of its own, but in the last case, where nothing begins with it
  unfold dispatch
  split
  · next h =>
    refine ⟨_, rfl, ?_⟩
    rw [countLine_eq]
    exact .between (next (plain_isBlank c h))
  split
  · next h =>
    subst h
    exact ⟨_, rfl, .string hc (Nat.lt_succ_self _) more⟩
  split
  · next h =>
    subst h
    obtain ⟨isIt, cursor', matched, there, le⟩ :=
      matchByte_safe (r := ⟨cursor, cursor + 1, line, .between, found⟩) (c := '/') (next (by decide)) (by decide)
    rw [matched]
    cases isIt with
    | true => exact skipLine_safe there
    | false => exact emitToken_safe here there (Nat.le_of_succ_le le) _ _
  split
  · next h =>
    exact ⟨_, rfl, .inside here (next (plain_isDigit c h)) (Nat.le_succ _) ⟨nofun, nofun⟩⟩
  split
  · next h =>
    exact ⟨_, rfl, .inside here (next (plain_startsWord c h)) (Nat.le_succ _) ⟨nofun, nofun⟩⟩
  split
  · next kind mark =>
    exact emitToken_safe here (next (lt_of_mark? mark)) (Nat.le_succ _) _ _
  · next alone withEqual _ comparison =>
    obtain ⟨isIt, cursor', matched, there, le⟩ :=
      matchByte_safe (r := ⟨cursor, cursor + 1, line, .between, found⟩) (c := '=')
        (next (lt_of_comparison? comparison)) (by decide)
    rw [matched]
    exact emitToken_safe here there (Nat.le_of_succ_le le) _ _
  · obtain ⟨pre, first, post, split, rfl⟩ := exists_of_lt_size here more
    rw [skipChar_eq split]
    exact ⟨_, rfl, .between (Boundary.iff_split.2 ⟨pre ++ [first], post, by simpa using split, rfl⟩)⟩

/-- In a number or a word, a byte that is seen to go on with it can be taken. -/
theorem take_safe {p : Char → Bool} (h : Plain p) (zero : p (.ofNat 0) = false) (first : Boundary source start)
    (order : start ≤ cursor) (next : Phase) (plain : next ≠ .between ∧ next ≠ .string)
    (seen : p (peek source ⟨start, cursor, line, phase, found⟩) = true) :
    ∃ c, advance source ⟨start, cursor, line, phase, found⟩ = some (c, ⟨start, cursor + 1, line, phase, found⟩) ∧
      Safe source ⟨start, cursor + 1, line, next, found⟩ := by
  obtain ⟨c, hc, hp⟩ := byte?_of_peek zero seen
  exact ⟨c, advance_eq hc, .inside first (Boundary.of_byte? hc (h c hp)).2 (Nat.le_succ_of_le order) plain⟩

/-- A number can end. -/
theorem endNumber_safe (first : Boundary source start) (here : Boundary source cursor) (order : start ≤ cursor) :
    ∃ r', endNumber source ⟨start, cursor, line, phase, found⟩ = some r' ∧ Safe source r' := by
  obtain ⟨text, cut, -⟩ := first.slice here order
  rw [endNumber, cut]
  exact emitToken_safe first here order _ _

/-- A word can end. -/
theorem endWord_safe (first : Boundary source start) (here : Boundary source cursor) (order : start ≤ cursor) :
    ∃ r', endWord source ⟨start, cursor, line, phase, found⟩ = some r' ∧ Safe source r' := by
  obtain ⟨text, cut, -⟩ := first.slice here order
  rw [endWord, cut]
  exact emitToken_safe first here order _ _

/-- At a quotation mark a string can end: both marks are characters of one byte. -/
theorem endString_safe (quote : byte? source start = some '"') (later : start < cursor)
    (closing : byte? source cursor = some '"') :
    ∃ r', endString source ⟨start, cursor, line, phase, found⟩ = some r' ∧ Safe source r' := by
  obtain ⟨first, inside⟩ := Boundary.of_byte? quote (by decide)
  obtain ⟨last, outside⟩ := Boundary.of_byte? closing (by decide)
  obtain ⟨value, cut, -⟩ := inside.slice last later
  rw [endString, advance_eq closing, Option.bind_eq_bind, Option.bind_some]
  dsimp only
  rw [Nat.add_sub_cancel, cut]
  exact emitToken_safe first outside (Nat.le_succ_of_le (Nat.le_of_lt later)) _ _

/-- From wherever a reader can be it goes on, and to where it can be. -/
theorem safe_step {r : Reader} (h : Safe source r) : ∃ r', r.step source = some r' ∧ Safe source r' := by
  cases h with
  | @between _ cursor _ _ here =>
    show ∃ r', (if cursor < source.utf8ByteSize then _ else _) = some r' ∧ _
    split
    · next more => exact begin_safe here more
    · next atEnd =>
      have last : cursor = source.utf8ByteSize := Nat.le_antisymm here.le_size (Nat.not_lt.1 atEnd)
      rw [if_pos last, last]
      exact ⟨_, rfl, .done⟩
  | done =>
    show ∃ r', (if source.utf8ByteSize + 1 < source.utf8ByteSize then _ else _) = some r' ∧ _
    rw [if_neg (by omega), if_neg (by simp)]
    exact ⟨_, rfl, .done⟩
  | @string start cursor line found quote later within =>
    show ∃ r', (if source.utf8ByteSize ≤ cursor then _ else _) = some r' ∧ _
    split
    · next atEnd =>
      exact ⟨_, rfl, .between (Nat.le_antisymm within atEnd ▸ .size source)⟩
    · next more =>
      obtain ⟨c, hc⟩ := lt_size_iff.1 (Nat.not_le.1 more)
      rw [peek_eq hc, advance_eq hc]
      -- only the closing mark has to be at a boundary
      split
      · next closing => exact endString_safe quote later (closing ▸ hc)
      · refine ⟨_, rfl, ?_⟩
        show Safe source (countLine c ⟨start, cursor + 1, line, .string, found⟩)
        rw [countLine_eq]
        exact .string quote (Nat.lt_succ_of_lt later) (Nat.not_le.1 more)
  | @inside start cursor line phase found first here order plain =>
    cases phase with
    | between => exact absurd rfl plain.1
    | string => exact absurd rfl plain.2
    | whole =>
      unfold step
      dsimp only
      split
      · next digit =>
        obtain ⟨c, taken, safe⟩ := take_safe plain_isDigit rfl first order .whole plain digit
        exact ⟨_, congrArg _ taken, safe⟩
      split
      · next point =>
        obtain ⟨c, taken, safe⟩ := take_safe (plain_eq (b := '.') (by decide)) rfl first order .decimals ⟨nofun, nofun⟩
          (beq_iff_eq.2 point.1)
        exact ⟨_, congrArg _ taken, safe⟩
      · exact endNumber_safe first here order
    | decimals =>
      unfold step
      dsimp only
      split
      · next digit =>
        obtain ⟨c, taken, safe⟩ := take_safe plain_isDigit rfl first order .decimals plain digit
        exact ⟨_, congrArg _ taken, safe⟩
      · exact endNumber_safe first here order
    | word =>
      unfold step
      dsimp only
      split
      · next goesOn =>
        obtain ⟨c, taken, safe⟩ := take_safe plain_continuesWord rfl first order .word plain goesOn
        exact ⟨_, congrArg _ taken, safe⟩
      · exact endWord_safe first here order

/-- A reader of a text never fails, and is where it can be after any number of steps. -/
theorem safe_after (source : String) (n : Nat) : ∃ r, after source n = some r ∧ Safe source r := by
  induction n with
  | zero => exact ⟨.first, rfl, .between (.zero source)⟩
  | succ n ih =>
    obtain ⟨r, reached, safe⟩ := ih
    rw [after, reached]
    exact safe_step safe

end Reader

end Lox
