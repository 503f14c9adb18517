/-
What a rule of the grammar accepts. `Accepts r w rest post` says that wherever the tokens `w` and then `rest` are left,
the rule takes just `w`, finds nothing wrong and gives something that is as `post` says. There is one lemma for each way
to put rules together, and for each rule that reads a token one for each way it can go.
-/
import Lox.Proofs.Grammar.Takes

namespace Lox

/-- Whether a rule takes some tokens before others and finds nothing wrong. -/
def Rule.Accepts {α : Type} (r : Rule α) (w rest : List Token) (post : α → Prop) : Prop :=
  ∀ c : Cursor, c.rest = w ++ rest →
    ∃ a c', SureRule.outcome r.run c = (.ok a, c') ∧ c'.rest = rest ∧ c'.errors = c.errors ∧ post a

/-- Whether the first token, if there is one, is of none of the kinds that `p` tells. -/
def HeadNot (p : Kind → Prop) (l : List Token) : Prop := ∀ t ∈ l.head?, ¬p t.kind

theorem HeadNot.cons {p : Kind → Prop} {t : Token} {l : List Token} (h : ¬p t.kind) : HeadNot p (t :: l) := by
  rintro _ ⟨⟩
  exact h

theorem HeadNot.append {p : Kind → Prop} {w l : List Token} (pos : 0 < w.length) (h : HeadNot p w) :
    HeadNot p (w ++ l) := by
  cases w with
  | nil => cases pos
  | cons t w => exact h

theorem HeadNot.mono {p q : Kind → Prop} {l : List Token} (h : HeadNot p l) (hq : ∀ kind, q kind → p kind) :
    HeadNot q l := fun t ht hk => h t ht (hq _ hk)

namespace Cursor

variable {c : Cursor} {t : Token} {rest : List Token}

theorem peek_of_rest (h : c.rest = t :: rest) : c.peek = t := by rw [peek, h]; rfl

theorem check_of_rest (h : c.rest = t :: rest) {kind : Kind} (hk : t.kind = kind) (ne : kind ≠ .endOfInput) :
    c.check kind = true := by
  rw [check, atEnd, peek_of_rest h, hk]
  simpa using ne

/-- No token of a kind is next, if the first that is left is not of it. -/
theorem check_of_headNot {kind : Kind} (h : HeadNot (· = kind) c.rest) : ¬c.check kind = true := by
  intro hc
  have first := Rule.rest_eq_of_peek (Rule.peek_ne_of_check hc)
  exact h c.peek (by rw [first]; rfl) (Rule.kind_of_check hc)

end Cursor

namespace Rule

variable {α β : Type} {r : Rule α} {w u v rest : List Token} {post : α → Prop}

namespace Accepts

theorem pure {a : α} (h : post a) : Accepts (Pure.pure a) [] rest post := fun c hc => ⟨a, c, rfl, hc, rfl, h⟩

theorem bind {f : α → Rule β} {mid : α → Prop} {post : β → Prop} (h : Accepts r u (v ++ rest) mid)
    (h' : ∀ a, mid a → Accepts (f a) v rest post) : Accepts (r >>= f) (u ++ v) rest post := by
  intro c hc
  obtain ⟨a, c₁, run, hc₁, errors, mid⟩ := h c (by rw [hc, List.append_assoc])
  obtain ⟨b, c₂, run', hc₂, errors', post⟩ := h' a mid c₁ hc₁
  refine ⟨b, c₂, ?_, hc₂, errors'.trans errors, post⟩
  show SureRule.outcome (r.run >>= ExceptT.bindCont f) c = _
  rw [SureRule.outcome_bind, run]
  exact run'

theorem mono {post' : α → Prop} (h : Accepts r w rest post) (hp : ∀ a, post a → post' a) :
    Accepts r w rest post' := fun c hc =>
  have ⟨a, c', run, hc', errors, given⟩ := h c hc
  ⟨a, c', run, hc', errors, hp a given⟩

/-- The last part of a rule, which takes no more tokens. -/
theorem bind_last {f : α → Rule β} {mid : α → Prop} {post : β → Prop} (h : Accepts r w rest mid)
    (h' : ∀ a, mid a → Accepts (f a) [] rest post) : Accepts (r >>= f) w rest post := by
  have := bind (v := []) h h'
  rwa [List.append_nil] at this

end Accepts

theorem peek_accepts {f : Token → Rule α} {t : Token} (h : Accepts (f t) (t :: w) rest post) :
    Accepts (peek >>= f) (t :: w) rest post := by
  intro c hc
  show ∃ a c', SureRule.outcome (f c.peek).run c = _ ∧ _
  rw [Cursor.peek_of_rest hc]
  exact h c hc

theorem check_accepts {kind : Kind} {f : Bool → Rule α} {t : Token} (hk : t.kind = kind) (ne : kind ≠ .endOfInput)
    (h : Accepts (f true) [] (t :: rest) post) : Accepts (check kind >>= f) [] (t :: rest) post := by
  intro c hc
  show ∃ a c', SureRule.outcome (f (c.check kind)).run c = _ ∧ _
  rw [Cursor.check_of_rest hc hk ne]
  exact h c hc

theorem check_accepts_not {kind : Kind} {f : Bool → Rule α} (hk : HeadNot (· = kind) (w ++ rest))
    (h : Accepts (f false) w rest post) : Accepts (check kind >>= f) w rest post := by
  intro c hc
  show ∃ a c', SureRule.outcome (f (c.check kind)).run c = _ ∧ _
  rw [Bool.eq_false_iff.2 (Cursor.check_of_headNot (hc ▸ hk))]
  exact h c hc

theorem advance_accepts {f : Unit → Rule α} {t : Token} (ne : t.kind ≠ .endOfInput)
    (h : Accepts (f ()) w rest post) : Accepts (advance >>= f) (t :: w) rest post := by
  intro c hc
  have peek := Cursor.peek_of_rest hc
  have first := rest_eq_of_peek (c := c) (by rw [peek]; exact ne)
  rw [hc, peek] at first
  obtain ⟨a, c', run, hc', errors, given⟩ := h c.advance (List.cons.inj first).2.symm
  exact ⟨a, c', run, hc', errors.trans errors_advance, given⟩

theorem accept_accepts {kind : Kind} {yes no : Rule α} {t : Token} (hk : t.kind = kind) (ne : kind ≠ .endOfInput)
    (h : Accepts yes w rest post) :
    Accepts (accept kind >>= fun b => if b = true then yes else no) (t :: w) rest post := by
  intro c hc
  have : Accepts (advance >>= fun _ => yes) (t :: w) rest post := advance_accepts (hk ▸ ne) h
  obtain ⟨a, c', run, given⟩ := this c hc
  refine ⟨a, c', ?_, given⟩
  rw [outcome_accept, if_pos (Cursor.check_of_rest hc hk ne)]
  exact run

theorem accept_accepts_not {kind : Kind} {yes no : Rule α} (hk : HeadNot (· = kind) (w ++ rest))
    (h : Accepts no w rest post) :
    Accepts (accept kind >>= fun b => if b = true then yes else no) w rest post := by
  intro c hc
  obtain ⟨a, c', run, given⟩ := h c hc
  refine ⟨a, c', ?_, given⟩
  rw [outcome_accept, if_neg (Cursor.check_of_headNot (hc ▸ hk))]
  exact run

theorem acceptAny?_accepts {kinds : List Kind} {f : Option Token → Rule α} {t : Token} (hk : t.kind ∈ kinds)
    (ne : t.kind ≠ .endOfInput) (h : Accepts (f (some t)) w rest post) :
    Accepts (acceptAny? kinds >>= f) (t :: w) rest post := by
  intro c hc
  have : Accepts (advance >>= fun _ => f (some t)) (t :: w) rest post := advance_accepts ne h
  obtain ⟨a, c', run, given⟩ := this c hc
  refine ⟨a, c', ?_, given⟩
  have any : kinds.any c.check = true := List.any_eq_true.2 ⟨t.kind, hk, Cursor.check_of_rest hc rfl ne⟩
  rw [outcome_acceptAny?, if_pos any, Cursor.peek_of_rest hc]
  exact run

theorem acceptAny?_accepts_not {kinds : List Kind} {f : Option Token → Rule α}
    (hk : HeadNot (· ∈ kinds) (w ++ rest)) (h : Accepts (f none) w rest post) :
    Accepts (acceptAny? kinds >>= f) w rest post := by
  intro c hc
  obtain ⟨a, c', run, given⟩ := h c hc
  refine ⟨a, c', ?_, given⟩
  have any : ¬kinds.any c.check = true := by
    intro h
    obtain ⟨kind, mem, hkind⟩ := List.any_eq_true.1 h
    exact Cursor.check_of_headNot (hc ▸ hk.mono fun _ h => h ▸ mem) hkind
  rw [outcome_acceptAny?, if_neg any]
  exact run

theorem expect_accepts {expected : Expectation} {f : Token → Rule α} {t : Token} (hk : t.kind = expected.kind)
    (h : Accepts (f t) w rest post) : Accepts (expect expected >>= f) (t :: w) rest post := by
  have ne : expected.kind ≠ .endOfInput := by cases expected <;> nofun
  intro c hc
  have : Accepts (advance >>= fun _ => f t) (t :: w) rest post := advance_accepts (hk ▸ ne) h
  obtain ⟨a, c', run, given⟩ := this c hc
  refine ⟨a, c', ?_, given⟩
  rw [outcome_expect, if_pos (Cursor.check_of_rest hc hk ne), Cursor.peek_of_rest hc]
  exact run

theorem newUses_accepts {count : Nat} {f : UseId → Rule α} (h : ∀ id, Accepts (f id) w rest post) :
    Accepts (newUses count >>= f) w rest post := by
  intro c hc
  obtain ⟨a, c', run, hc', errors, given⟩ := h c.nextUse { c with nextUse := c.nextUse + count } hc
  exact ⟨a, c', run, hc', errors, given⟩

end Rule

end Lox
