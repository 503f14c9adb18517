/-
Where the entries of a stream come from. Each of them stands for a stretch of the text, in the order of the text, and
between two stretches there are only blanks and comments. An entry is on the line on which its stretch ends, so that
its line is one more than the newlines up to there (`items_on_lines`).
-/
import Lox.Proofs.Token.Range

namespace Lox

/-! ## Stretches -/

/-- An entry of a stream with the text it stands for, and the text before and after that. -/
structure Stretch where
  item : Item
  before : List Char
  text : List Char
  after : List Char

namespace Stretch

/-- The text up to the end of a stretch. -/
def upTo (x : Stretch) : List Char := x.before ++ x.text

/-- The text in which a stretch is. -/
def whole (x : Stretch) : List Char := x.before ++ (x.text ++ x.after)

/-- Whether an entry is what becomes of its text, on whatever line. -/
inductive Fits : Stretch → Prop
  /-- The end token stands for the end of the text. -/
  | done {line before} : Fits ⟨.token (.endAt line), before, [], []⟩
  | lexeme {kind literal line before text after} (h : Lexeme kind literal text) (longest : Longest text after)
      (code : ¬ ['/', '/'] <+: text ++ after) :
      Fits ⟨.token ⟨kind, String.ofList text, literal, line⟩, before, text, after⟩
  | stray {line before c after} (solid : Piece.isBlank c = false)
      (h : ∀ kind literal text, ¬ Lexeme kind literal (c :: text)) :
      Fits ⟨.error ⟨.unexpectedCharacter, line⟩, before, [c], after⟩
  /-- A string that is left open goes on to the end of the text. -/
  | openString {line before cs} (h : '"' ∉ cs) :
      Fits ⟨.error ⟨.unterminatedString, line⟩, before, '"' :: cs, []⟩

/-- Whether an entry is on the line on which its stretch ends. -/
def OnLine (x : Stretch) : Prop := x.item.line = 1 + x.upTo.count '\n'

end Stretch

/-- `Skips rest cs` says that the text `cs`, before `rest`, consists of blanks and whole comments. -/
inductive Skips (rest : List Char) : List Char → Prop
  | nil : Skips rest []
  | blank {c cs} (h : Piece.isBlank c = true) (more : Skips rest cs) : Skips rest (c :: cs)
  | comment {body cs} (h : '\n' ∉ body) (stop : cs ++ rest = [] ∨ ['\n'] <+: cs ++ rest) (more : Skips rest cs) :
    Skips rest ('/' :: '/' :: (body ++ cs))

/-- Whether stretches follow one another in a text, the first of them after `before`, with nothing else than what is
skipped between them. -/
def Follow (before : List Char) : List Stretch → Prop
  | [] => True
  | x :: xs => (∃ gap, x.before = before ++ gap ∧ Skips (x.text ++ x.after) gap) ∧ Follow x.upTo xs

namespace Follow

variable {before gap : List Char} {x : Stretch} {xs : List Stretch}

/-- What is skipped before stretches can be skipped together with what is skipped anyway. -/
theorem skip (h : Follow (before ++ gap) xs)
    (skips : ∀ x ∈ xs, ∀ more, x.before = before ++ gap ++ more → Skips (x.text ++ x.after) more →
      Skips (x.text ++ x.after) (gap ++ more)) : Follow before xs := by
  cases xs with
  | nil => trivial
  | cons x xs =>
    obtain ⟨⟨more, split, skipped⟩, later⟩ := h
    exact ⟨⟨gap ++ more, by rw [split, List.append_assoc], skips x List.mem_cons_self more split skipped⟩, later⟩

/-- Every stretch has the text before the first of them before it. -/
theorem prefix_before (h : Follow before xs) : ∀ x ∈ xs, before <+: x.before := by
  induction xs generalizing before with
  | nil => exact List.forall_mem_nil _
  | cons x xs ih =>
    obtain ⟨⟨gap, split, -⟩, later⟩ := h
    have first : before <+: x.before := ⟨gap, split.symm⟩
    refine List.forall_mem_cons.2 ⟨first, fun y hy => ?_⟩
    exact (first.trans (List.prefix_append _ _)).trans (ih later y hy)

/-- The lines of stretches never decrease. -/
theorem lines (h : Follow before xs) (on : ∀ x ∈ xs, x.OnLine) :
    (xs.map (·.item)).Pairwise (fun i j => i.line ≤ j.line) := by
  induction xs generalizing before with
  | nil => exact .nil
  | cons x xs ih =>
    obtain ⟨-, later⟩ := h
    obtain ⟨own, others⟩ := List.forall_mem_cons.1 on
    refine List.pairwise_cons.2 ⟨fun item hi => ?_, ih later others⟩
    obtain ⟨y, hy, rfl⟩ := List.mem_map.1 hi
    have further : x.upTo <+: y.upTo := (later.prefix_before y hy).trans (List.prefix_append _ _)
    rw [own, others y hy]
    exact Nat.add_le_add_left (further.sublist.count_le '\n') 1

end Follow

/-! ## Streams -/

/-- The entries of a stream stand for stretches of the text, wherever in a longer text that begins. -/
theorem Lexes.stretches {line : Nat} {cs : List Char} {stream : List Item} (h : Lexes line cs stream) :
    ∀ before, line = 1 + before.count '\n' → ∃ xs : List Stretch, xs.map (·.item) = stream ∧ Follow before xs ∧
      ∀ x ∈ xs, x.whole = before ++ cs ∧ x.Fits ∧ x.OnLine := by
  -- the counter of the lines that a stream starts from is determined by the text before it
  induction h with
  | @done line =>
    intro before start
    refine ⟨[⟨.token (.endAt line), before, [], []⟩], rfl, ⟨⟨[], by simp, .nil⟩, trivial⟩, ?_⟩
    rw [List.forall_mem_singleton]
    exact ⟨rfl, .done, by rwa [Stretch.OnLine, Stretch.upTo, List.append_nil]⟩
  | @blank line c cs _ blank _ ih =>
    intro before start
    obtain ⟨xs, items, follow, own⟩ := ih (before ++ [c]) (by rw [start, List.count_append, Nat.add_assoc])
    have split : before ++ [c] ++ cs = before ++ c :: cs := by simp
    rw [split] at own
    exact ⟨xs, items, follow.skip fun _ _ _ _ skipped => .blank blank skipped, own⟩
  | @comment line body cs _ noNewline stop _ ih =>
    intro before start
    have none : ('/' :: '/' :: body).count '\n' = 0 :=
      List.count_eq_zero.2 (by simpa using noNewline)
    obtain ⟨xs, items, follow, own⟩ := ih (before ++ '/' :: '/' :: body) (by rw [start, List.count_append, none]; rfl)
    have split : before ++ '/' :: '/' :: body ++ cs = before ++ '/' :: '/' :: (body ++ cs) := by simp
    refine ⟨xs, items, follow.skip fun x hx more same skipped => .comment noNewline ?_ skipped, split ▸ own⟩
    -- what is left after the comment is what the first stretch has before and after it
    have whole := (own x hx).1
    rw [Stretch.whole, same, List.append_assoc] at whole
    rwa [List.append_cancel_left whole]
  | @lexeme line kind literal text cs _ lexeme longest code _ ih =>
    intro before start
    obtain ⟨xs, items, follow, own⟩ := ih (before ++ text) (by rw [start, List.count_append, Nat.add_assoc])
    have on : line + text.count '\n' = 1 + (before ++ text).count '\n' := by
      rw [start, List.count_append, Nat.add_assoc]
    refine ⟨⟨.token ⟨kind, String.ofList text, literal, _⟩, before, text, cs⟩ :: xs, by rw [List.map_cons, items],
      ⟨⟨[], by simp, .nil⟩, follow⟩, List.forall_mem_cons.2 ⟨⟨rfl, .lexeme lexeme longest code, on⟩, ?_⟩⟩
    rwa [List.append_assoc] at own
  | @stray line c cs _ solid alone _ ih =>
    intro before start
    have none : [c].count '\n' = 0 := by
      refine List.count_eq_zero.2 fun newline => ?_
      rw [← List.mem_singleton.1 newline] at solid
      exact absurd solid (by decide)
    have on : line = 1 + (before ++ [c]).count '\n' := by rw [start, List.count_append, none]; rfl
    obtain ⟨xs, items, follow, own⟩ := ih (before ++ [c]) on
    refine ⟨⟨.error ⟨.unexpectedCharacter, line⟩, before, [c], cs⟩ :: xs, by rw [List.map_cons, items],
      ⟨⟨[], by simp, .nil⟩, follow⟩, List.forall_mem_cons.2 ⟨⟨rfl, .stray solid alone, on⟩, ?_⟩⟩
    rwa [List.append_assoc] at own
  | @openString line cs noQuote =>
    intro before start
    have on : line + cs.count '\n' = 1 + (before ++ '"' :: cs).count '\n' := by
      rw [start, List.count_append, List.count_cons_of_ne (by decide), Nat.add_assoc]
    refine ⟨[⟨.error ⟨.unterminatedString, _⟩, before, '"' :: cs, []⟩, ⟨.token (.endAt _), before ++ '"' :: cs, [], []⟩],
      rfl, ⟨⟨[], by simp, .nil⟩, ⟨[], by simp [Stretch.upTo], .nil⟩, trivial⟩, ?_⟩
    rw [List.forall_mem_cons, List.forall_mem_singleton]
    refine ⟨⟨by simp [Stretch.whole], .openString noQuote, on⟩, by simp [Stretch.whole], .done, ?_⟩
    rwa [Stretch.OnLine, Stretch.upTo, List.append_nil]

/-- Every entry of the stream of a text stands for a stretch of it, in their order and with only blanks and comments
between them: a token for its lexeme, an error for the text that it skips, and the end token for the end of the text.
The line of an entry is one more than the newlines up to the end of its stretch, and so the lines never decrease. -/
theorem items_on_lines (source : String) :
    (∃ xs : List Stretch, xs.map (·.item) = items source ∧ Follow [] xs ∧
      ∀ x ∈ xs, x.whole = source.toList ∧ x.Fits ∧ x.item.line = 1 + (x.before ++ x.text).count '\n') ∧
    (items source).Pairwise (fun i j => i.line ≤ j.line) := by
  obtain ⟨xs, items, follow, own⟩ := (lexes_pieces 1 source.toList).stretches [] rfl
  refine ⟨⟨xs, items, follow, own⟩, ?_⟩
  have lines := follow.lines fun x hx => (own x hx).2.2
  rwa [items] at lines

/-- A string over two lines is on the second of them, as is what comes after it, and an open string is on the last line. -/
example : (items "a \"b\nc\" @ // d\n\"e\n\n").map Item.line = [1, 2, 2, 5, 5] := by decide +kernel

end Lox
