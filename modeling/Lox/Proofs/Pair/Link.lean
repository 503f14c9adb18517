/-
Two programs side by side, of which one is a changed copy of the other. The scopes around a part of the one belong to
those around the part of the other that stands for it, link by link from the inside outwards, and in scopes that
belong together the names do. So a use on the one side finds what the use on the other side finds, if the distances
to the scopes and the names fit (`Finds`), even where one side has more scopes than the other.
-/
import Lox.Grammar.ForLoop
import Lox.Proofs.Tree.Code

namespace Lox

/-! ## Names -/

/-- A name and the one it is changed into. -/
structure Change where
  old : String
  new : String

namespace Change

/-- Whether both names of a change can be names of variables. -/
def Proper (c : Change) : Prop := Nameable c.old ∧ Nameable c.new

/-- Whether a name is not the new one, or that is no change at all. -/
def Allows (c : Change) (n : String) : Prop := n = c.new → c.new = c.old

/-- Whether a change has nothing to do with a name. -/
def Leaves (c : Change) (n : String) : Prop := c.new = c.old ∨ n ≠ c.old ∧ n ≠ c.new

theorem Leaves.allows {c : Change} {n : String} (h : c.Leaves n) : c.Allows n := fun e => h.resolve_right fun h => h.2 e

/-- A change of variables leaves the words of classes alone. -/
theorem Proper.leaves {c : Change} {n : String} (h : c.Proper) (hn : ¬ Nameable n) : c.Leaves n :=
  .inr ⟨fun e => hn (e ▸ h.1), fun e => hn (e ▸ h.2)⟩

end Change

/-- Whether a token is another one, or has the new name in place of the old. -/
def Token.Like (c : Change) (t t' : Token) : Prop := t' = t ∨ t.lexeme = c.old ∧ t' = { t with lexeme := c.new }

/-- How the variables of two scopes, one on each side, belong together. -/
inductive Tie
  /-- Those of the same name do, which is not the new name. -/
  | same
  /-- The variable of the old name belongs to that of the new name, and others to those of the same name. -/
  | renamed
  /-- Only those of this name do. -/
  | only (name : String)

namespace Tie

variable {c : Change} {t : Tie} {m m' n n' : String}

/-- Whether the variables of these names belong together. -/
def Names (c : Change) : Tie → String → String → Prop
  | same, n, n' => n' = n ∧ c.Allows n
  | renamed, n, n' => n = c.old ∧ n' = c.new ∨ n' = n ∧ n ≠ c.old ∧ n ≠ c.new
  | only name, n, n' => n = name ∧ n' = name

/-- Whether all variables of the scopes belong together in some way. -/
def Plain : Tie → Prop
  | same | renamed => True
  | only _ => False

/-- A name belongs to at most one name, on either side. -/
theorem Names.eq_iff (h : t.Names c m m') (h' : t.Names c n n') : n' = m' ↔ n = m := by
  cases t with
  | same => rw [h.1, h'.1]
  | renamed =>
    rcases h with ⟨rfl, rfl⟩ | ⟨rfl, hm, hm'⟩
    · rcases h' with ⟨rfl, rfl⟩ | ⟨rfl, hn, hn'⟩
      · simp
      · exact ⟨fun e => absurd e hn', fun e => absurd e hn⟩
    · rcases h' with ⟨rfl, rfl⟩ | ⟨rfl, -, -⟩
      · exact ⟨fun e => absurd e.symm hm', fun e => absurd e.symm hm⟩
      · exact Iff.rfl
  | only name =>
    obtain ⟨rfl, rfl⟩ := h
    obtain ⟨rfl, rfl⟩ := h'
    exact Iff.rfl

/-- A name that the change leaves alone belongs to itself. -/
theorem names_self (plain : t.Plain) (h : c.Leaves n) : t.Names c n n := by
  cases t with
  | same => exact ⟨rfl, h.allows⟩
  | only _ => exact plain.elim
  | renamed =>
    rcases h with e | ⟨ho, hn⟩
    · by_cases hn : n = c.old
      · exact .inl ⟨hn, by rw [hn, e]⟩
      · exact .inr ⟨rfl, hn, e ▸ hn⟩
    · exact .inr ⟨rfl, ho, hn⟩

/-- A name that the change leaves alone belongs to itself or to none. -/
theorem names_self_or (t : Tie) (h : c.Leaves n) :
    t.Names c n n ∨ (∀ n', ¬ t.Names c n n') ∧ ∀ m, ¬ t.Names c m n := by
  cases t with
  | same | renamed => exact .inl (names_self trivial h)
  | only name =>
    by_cases hn : n = name
    · exact .inl ⟨hn, hn⟩
    · exact .inr ⟨fun _ h => hn h.1, fun _ h => hn h.2⟩

end Tie

/-! ## Scopes -/

/-- A scope on each side, or a few of them. -/
inductive Link
  /-- One scope on each side. -/
  | scope (tie : Tie)
  /-- The scopes of one pass of a loop over a variable. On the left the innermost has a copy of the variable, and
  `more` come after it; on the right there are two, the outer one with the variable itself. -/
  | pass (name : String) (more : Nat)

/-- Whether a link is one of two scopes. -/
def Link.Single : Link → Prop
  | scope _ => True
  | pass _ _ => False

/-- Whether a link is one of two scopes of which all variables belong together. -/
def Link.Plain : Link → Prop
  | scope tie => tie.Plain
  | pass _ _ => False

/-- Whether two names may be declared in the innermost scopes. No links are left where both sides have the same
scopes. -/
def Declares (c : Change) : List Link → String → String → Prop
  | [], n, n' => n' = n ∧ c.Allows n
  | .scope tie :: _, n, n' => tie.Names c n n'
  | .pass _ _ :: _, _, _ => False

/-- A name that stays as it is where it is declared is not the new one. -/
theorem Declares.allows {c : Change} {links : List Link} {n : String} (h : Declares c links n n)
    (plain : ∀ link ∈ links, link.Plain) : c.Allows n := by
  match links with
  | [] => exact h.2
  | .pass _ _ :: _ => exact h.elim
  | .scope tie :: _ =>
    cases tie with
    | same => exact h.2
    | only _ => exact (plain _ List.mem_cons_self).elim
    | renamed =>
      rcases h with ⟨ho, hn⟩ | ⟨-, -, hn⟩
      · exact fun _ => hn.symm.trans ho
      · exact fun e => absurd e hn

/-- Whether a name found at some distance on the left and one found at some distance on the right are the same
variable, by way of these links. A name without a distance is global. -/
inductive Finds (c : Change) : List Link → Option Nat → Option Nat → String → String → Prop
  | globals {links : List Link} (n : String) : Finds c links none none n n
  | beyond (d : Nat) (n : String) : Finds c [] (some d) (some d) n n
  | here {links : List Link} {tie : Tie} {n n' : String} (names : tie.Names c n n') :
      Finds c (.scope tie :: links) (some 0) (some 0) n n'
  | outer {links : List Link} {tie : Tie} {d d' : Nat} {n n' : String} (h : Finds c links (some d) (some d') n n') :
      Finds c (.scope tie :: links) (some (d + 1)) (some (d' + 1)) n n'
  | held {links : List Link} {name : String} {more : Nat} (hn : Nameable name) :
      Finds c (.pass name more :: links) (some 0) (some 1) name name
  | past {links : List Link} {name : String} {more d d' : Nat} {n n' : String}
      (h : Finds c links (some d) (some d') n n') :
      Finds c (.pass name more :: links) (some (d + more + 1)) (some (d' + 2)) n n'

namespace Finds

variable {c : Change} {links : List Link} {d d' : Option Nat} {n n' : String}

/-- What is found at a distance on the left is found at one on the right. -/
theorem isSome {d : Nat} (h : Finds c links (some d) d' n n') : ∃ k, d' = some k := by
  cases h <;> exact ⟨_, rfl⟩

/-- One scope further in on both sides. -/
theorem inner (h : Finds c links d d' n n') (tie : Tie) :
    Finds c (.scope tie :: links) (d.map (· + 1)) (d'.map (· + 1)) n n' := by
  cases d with
  | none =>
    cases h
    exact .globals _
  | some d =>
    obtain ⟨d', rfl⟩ := h.isSome
    exact .outer h

/-- One pass of a loop further in. -/
theorem inPass (h : Finds c links d d' n n') (name : String) (more : Nat) :
    Finds c (.pass name more :: links) (d.map (· + more + 1)) (d'.map (· + 2)) n n' := by
  cases d with
  | none =>
    cases h
    exact .globals _
  | some d =>
    obtain ⟨d', rfl⟩ := h.isSome
    exact .past h

/-- If there is one scope on each side of every link, both sides find a variable at the same distance. -/
theorem eq_of_single (h : Finds c links d d' n n') (single : ∀ link ∈ links, link.Single) : d' = d := by
  induction h with
  | globals _ | beyond _ _ | here _ => rfl
  | @outer links tie d d' n n' h ih =>
    have := Option.some.inj (ih fun link hl => single link (List.mem_cons_of_mem _ hl))
    rw [this]
  | held _ | past _ _ => exact (single _ List.mem_cons_self).elim

/-- If one word of a class is found one scope further out than the other on the left, so it is on the right. -/
theorem next {i j j' : Nat} (h : Finds c links (some i) (some j) thisName thisName)
    (h' : Finds c links (some (i + 1)) (some j') superName superName) : j' = j + 1 := by
  induction links generalizing i j j' with
  | nil =>
    cases h
    cases h'
    rfl
  | cons link links ih =>
    generalize hi : some i = d at h
    generalize hi' : some (i + 1) = d' at h'
    cases h with
    | held hn => exact absurd rfl hn.1
    | here _ =>
      cases hi
      -- the other word is in the very next scope, and no variable of a loop has its name
      cases h' with
      | here _ => cases hi'
      | @outer _ _ d e _ _ h' =>
        cases hi'
        cases h' with
        | beyond | here => rfl
        | held hn => exact absurd rfl hn.2
    | outer h =>
      cases hi
      cases h' with
      | here _ => cases hi'
      | outer h' =>
        cases hi'
        rw [ih h h']
    | @past _ _ more d e _ _ h =>
      cases hi
      cases h' with
      | held hn => exact absurd rfl hn.2
      | @past _ _ _ d' e' _ _ h' =>
        obtain rfl : d' = d + 1 := by
          have := Option.some.inj hi'
          omega
        rw [ih h h']

end Finds

end Lox
