/-
One text after another. If the text before a newline leaves no string open, then nothing of it is remembered after the
newline: its stream is followed by the stream of the other text, on later lines (`items_joined`).
-/
import Lox.Proofs.Token.Respaced

namespace Lox

/-! ## Later lines -/

/-- The same token, some lines later. -/
def Token.later (k : Nat) (t : Token) : Token := { t with line := t.line + k }

/-- The same error, some lines later. -/
def LexicalError.later (k : Nat) (e : LexicalError) : LexicalError := { e with line := e.line + k }

/-- The same entry of a stream, some lines later. -/
def Item.later (k : Nat) : Item → Item
  | token t => token (t.later k)
  | error e => error (e.later k)

/-- A text that starts some lines later has the same stream that much later. -/
theorem Lexes.later {line : Nat} {cs : List Char} {stream : List Item} (h : Lexes line cs stream) (k : Nat) :
    Lexes (line + k) cs (stream.map (Item.later k)) := by
  induction h with
  | done => exact .done
  | blank h _ ih =>
    rw [Nat.add_right_comm] at ih
    exact .blank h ih
  | comment h stop _ ih => exact .comment h stop ih
  | lexeme h longest code _ ih =>
    rw [Nat.add_right_comm] at ih
    rw [List.map_cons, Item.later, Token.later, Nat.add_right_comm]
    exact .lexeme h longest code ih
  | stray solid h _ ih => exact .stray solid h ih
  | openString h =>
    rw [List.map_cons, List.map_singleton, Item.later, Item.later, LexicalError.later, Token.later, Token.endAt]
    simp only [Nat.add_right_comm]
    exact .openString h

/-! ## Before a newline -/

/-- Two slashes at the start of a text with a blank in it stand before the blank. -/
theorem slashes_before_blank {c : Char} (blank : Piece.isBlank c = true) {cs more : List Char}
    (start : ['/', '/'] <+: cs ++ c :: more) : ['/', '/'] <+: cs := by
  have solid : '/' ≠ c := by
    rintro rfl
    exact absurd blank (by decide)
  match cs with
  | [] =>
    rw [List.nil_append, List.cons_prefix_cons] at start
    exact absurd start.1 solid
  | [d] =>
    rw [List.singleton_append, List.cons_prefix_cons, List.cons_prefix_cons] at start
    exact absurd start.2.1 solid
  | d :: e :: rest =>
    simpa only [List.cons_append, List.cons_prefix_cons, List.nil_prefix, and_true] using start

/-- A text that leaves no string open can be followed by a newline and any other text: the end token of its stream gives
way to the stream of the other text. -/
theorem Lexes.joined {line : Nat} {cs : List Char} {stream : List Item} (h : Lexes line cs stream)
    (closed : ∀ e, .error e ∈ stream → e.fault ≠ .unterminatedString) :
    ∃ before, stream = before ++ [.token (.endAt (line + cs.count '\n'))] ∧ ∀ more after,
      Lexes (line + cs.count '\n' + 1) more after → Lexes line (cs ++ '\n' :: more) (before ++ after) := by
  induction h with
  | done => exact ⟨[], rfl, fun more after h => .blank (by decide) h⟩
  | @blank line c cs stream blank _ ih =>
    obtain ⟨before, rfl, join⟩ := ih closed
    have lines : line + [c].count '\n' + cs.count '\n' = line + (c :: cs).count '\n' := by
      rw [Nat.add_assoc, ← List.count_append, List.singleton_append]
    rw [lines] at join ⊢
    exact ⟨before, rfl, fun more after h => .blank blank (join more after h)⟩
  | @comment line body cs stream h stop _ ih =>
    obtain ⟨before, rfl, join⟩ := ih closed
    have lines : ('/' :: '/' :: (body ++ cs)).count '\n' = cs.count '\n' := by
      rw [List.count_cons_of_ne (by decide), List.count_cons_of_ne (by decide), List.count_append,
        List.count_eq_zero.2 h, Nat.zero_add]
    rw [lines]
    refine ⟨before, rfl, fun more after h' => ?_⟩
    have further : cs ++ '\n' :: more = [] ∨ ['\n'] <+: cs ++ '\n' :: more := by
      rcases stop with rfl | newline
      · exact .inr ⟨more, rfl⟩
      · exact .inr (newline.trans (List.prefix_append _ _))
    rw [List.cons_append, List.cons_append, List.append_assoc]
    exact .comment h further (join more after h')
  | @lexeme line kind literal text cs stream h longest code _ ih =>
    obtain ⟨before, rfl, join⟩ := ih fun e he => closed e (List.mem_cons_of_mem _ he)
    have lines : line + text.count '\n' + cs.count '\n' = line + (text ++ cs).count '\n' := by
      rw [Nat.add_assoc, ← List.count_append]
    rw [lines] at join ⊢
    refine ⟨_ :: before, rfl, fun more after h' => ?_⟩
    rw [List.append_assoc]
    refine .lexeme h (longest.before_blank h (by decide) more) (fun slashes => code ?_) (join more after h')
    rw [← List.append_assoc] at slashes
    exact slashes_before_blank (by decide) slashes
  | @stray line c cs stream solid h _ ih =>
    obtain ⟨before, rfl, join⟩ := ih fun e he => closed e (List.mem_cons_of_mem _ he)
    have other : c ≠ '\n' := by
      rintro rfl
      exact absurd solid (by decide)
    rw [List.count_cons_of_ne other]
    exact ⟨_ :: before, rfl, fun more after h' => .stray solid h (join more after h')⟩
  | openString _ => exact absurd rfl (closed _ List.mem_cons_self)

/-! ## Streams -/

/-- Of entries that are some lines later, the tokens and the errors are that much later. -/
theorem Scan.ofItems_later (k : Nat) (stream : List Item) :
    (Scan.ofItems (stream.map (Item.later k))).tokens = (Scan.ofItems stream).tokens.map (Token.later k) ∧
      (Scan.ofItems (stream.map (Item.later k))).errors = (Scan.ofItems stream).errors.map (LexicalError.later k) := by
  induction stream with
  | nil => exact ⟨rfl, rfl⟩
  | cons item _ ih =>
    obtain ⟨tokens, errors⟩ := ih
    cases item with
    | token t => exact ⟨congrArg (_ :: ·) tokens, errors⟩
    | error e => exact ⟨tokens, congrArg (_ :: ·) errors⟩

/-- The text `a`, a newline and the text `b`, where `a` leaves no string open: the stream of `a` without its end token,
and then the stream of `b`, later by the lines of `a` and otherwise as it is. So it is with the tokens and the errors. -/
theorem items_joined {a : String} (closed : ∀ e ∈ (scan a).errors, e.fault ≠ .unterminatedString) (b : String) :
    ∃ before, items a = before ++ [.token (.endAt (1 + a.toList.count '\n'))] ∧
      items (a ++ "\n" ++ b) = before ++ (items b).map (.later (a.toList.count '\n' + 1)) ∧
      (scan (a ++ "\n" ++ b)).tokens =
        (scan a).tokens.dropLast ++ (scan b).tokens.map (.later (a.toList.count '\n' + 1)) ∧
      (scan (a ++ "\n" ++ b)).errors = (scan a).errors ++ (scan b).errors.map (.later (a.toList.count '\n' + 1)) := by
  have closed : ∀ e, .error e ∈ items a → e.fault ≠ .unterminatedString :=
    fun e he => closed e (List.mem_filterMap.2 ⟨_, he, rfl⟩)
  obtain ⟨before, whole, join⟩ := (lexes_pieces 1 a.toList).joined closed
  have later := (lexes_pieces 1 b.toList).later (a.toList.count '\n' + 1)
  rw [← Nat.add_assoc] at later
  have stream : items (a ++ "\n" ++ b) = before ++ (items b).map (.later (a.toList.count '\n' + 1)) := by
    have text : (a ++ "\n" ++ b).toList = a.toList ++ '\n' :: b.toList := by simp
    rw [items, text]
    exact (join _ _ later).eq_itemsFrom.symm
  have whole : items a = _ := whole
  obtain ⟨tokens, errors⟩ := Scan.ofItems_later (a.toList.count '\n' + 1) (items b)
  refine ⟨before, whole, stream, ?_, ?_⟩
  · rw [scan, stream, scan, whole, scan, ← tokens]
    simp [Scan.ofItems]
  · rw [scan, stream, scan, whole, scan, ← errors]
    simp [Scan.ofItems]

/-- A character that is an error, and a comment with a quotation mark in it, before a text that leaves a string open. -/
theorem items_joined_comment :
    (∀ e ∈ (scan "1.\n@ // \"").errors, e.fault ≠ .unterminatedString) ∧
      ∃ before, items "1.\n@ // \"" = before ++ [.token (.endAt (1 + "1.\n@ // \"".toList.count '\n'))] ∧
        items ("1.\n@ // \"" ++ "\n" ++ "5;\n\"\n") =
          before ++ (items "5;\n\"\n").map (.later ("1.\n@ // \"".toList.count '\n' + 1)) ∧
        (scan ("1.\n@ // \"" ++ "\n" ++ "5;\n\"\n")).tokens = (scan "1.\n@ // \"").tokens.dropLast ++
          (scan "5;\n\"\n").tokens.map (.later ("1.\n@ // \"".toList.count '\n' + 1)) ∧
        (scan ("1.\n@ // \"" ++ "\n" ++ "5;\n\"\n")).errors = (scan "1.\n@ // \"").errors ++
          (scan "5;\n\"\n").errors.map (.later ("1.\n@ // \"".toList.count '\n' + 1)) := by
  have closed : ∀ e ∈ (scan "1.\n@ // \"").errors, e.fault ≠ .unterminatedString := by decide +kernel
  exact ⟨closed, items_joined closed _⟩

end Lox
