/-
The scopes that are open in the walks through two parts that belong together. They are linked like the scopes at run
time, and so a name is found on the right where the links lead from where it is found on the left.
-/
import Lox.Proofs.Binding.Open
import Lox.Proofs.Pair.Alike

namespace Lox

/-! ## One scope -/

/-- Whether two scopes have the same declarations under names that belong together, and none under other names. -/
structure Declarations.Mirror (c : Change) (tie : Tie) (own own' : Declarations) : Prop where
  names : ∀ n n', tie.Names c n n' → own'.get? n' = own.get? n
  left : ∀ n, (∀ n', ¬ tie.Names c n n') → own.get? n = none
  right : ∀ n', (∀ n, ¬ tie.Names c n n') → own'.get? n' = none

namespace Declarations

variable {c : Change} {tie : Tie} {own own' : Declarations} {n n' : String}

theorem mirror_empty (c : Change) (tie : Tie) : Mirror c tie .empty .empty :=
  ⟨fun _ _ _ => rfl, fun _ _ => rfl, fun _ _ => rfl⟩

theorem Mirror.set (h : Mirror c tie own own') (hn : tie.Names c n n') (complete : Bool) :
    Mirror c tie (own.set n complete) (own'.set n' complete) := by
  refine ⟨fun m m' hm => ?_, fun m hm => ?_, fun m' hm => ?_⟩
  · simp only [Bindings.get?_set, hn.eq_iff hm, h.names m m' hm]
  · have : m ≠ n := fun e => hm n' (e ▸ hn)
    rw [Bindings.get?_set, if_neg this, h.left m hm]
  · have : m' ≠ n' := fun e => hm n (e ▸ hn)
    rw [Bindings.get?_set, if_neg this, h.right m' hm]

theorem Mirror.complete {ns ns' : List String} (h : Mirror c tie own own') (hn : List.Forall₂ (tie.Names c) ns ns') :
    Mirror c tie (own.complete ns) (own'.complete ns') := by
  induction hn generalizing own own' with
  | nil => exact h
  | cons hd _ ih => exact ih (h.set hd true)

theorem Mirror.contains (h : Mirror c tie own own') (hn : tie.Names c n n') : own'.contains n' = own.contains n := by
  rw [Bindings.contains, Bindings.contains, h.names n n' hn]

end Declarations

/-! ## All open scopes -/

/-- Whether open scopes, the innermost first, are linked. In a pass the inner scope on the right is empty, and the
scopes on the left have nothing but the variable and the slot. -/
inductive Mirrors (c : Change) : List Link → List Declarations → List Declarations → Prop
  | beyond (scopes : List Declarations) : Mirrors c [] scopes scopes
  | scope {links : List Link} {tie : Tie} {own own' : Declarations} {scopes scopes' : List Declarations}
      (mirror : own.Mirror c tie own') (rest : Mirrors c links scopes scopes') :
      Mirrors c (.scope tie :: links) (own :: scopes) (own' :: scopes')
  | pass {links : List Link} {name : String} {more : Nat} {copy inner var : Declarations}
      {others scopes scopes' : List Declarations} (nameable : Nameable name) (length : others.length = more)
      (held : ∀ n, copy.contains n = true ↔ n = name)
      (hidden : ∀ own ∈ others, ∀ n, own.contains n = true → n = name ∨ n = ForLoop.slotName)
      (empty : ∀ n, inner.get? n = none) (only : ∀ n, var.contains n = true ↔ n = name)
      (complete : copy.get? name = some true) (rest : Mirrors c links scopes scopes') :
      Mirrors c (.pass name more :: links) (copy :: (others ++ scopes)) (inner :: var :: scopes')

/-- Whether a name is declared in one of the scopes inside of a pass, if there is a pass. -/
def Covered (n : String) : List Link → List Declarations → Prop
  | [], _ => True
  | .scope _ :: links, scopes => (scopes.headD .empty).contains n = true ∨ Covered n links scopes.tail
  | .pass _ _ :: _, _ => False

namespace Mirrors

variable {c : Change} {links : List Link} {scopes scopes' : List Declarations} {n : String}

theorem settle {ns ns' : List String} (h : Mirrors c links scopes scopes')
    (hn : List.Forall₂ (Declares c links) ns ns') : Mirrors c links (Lox.settle ns scopes) (Lox.settle ns' scopes') := by
  cases h with
  | beyond =>
    have : ns = ns' := by
      induction hn with
      | nil => rfl
      | cons hd _ ih => rw [hd.1, ih]
    rw [this]
    exact .beyond _
  | scope mirror rest => exact .scope (mirror.complete hn) rest
  | pass nameable length held hidden empty only complete rest =>
    cases hn with
    | nil =>
      simp only [settle_nil]
      exact .pass nameable length held hidden empty only complete rest
    | cons hd _ => exact hd.elim

theorem findIdx?_outer {own : Declarations} (h : own.contains n = false) (scopes : List Declarations) :
    (own :: scopes).findIdx? (·.contains n) = (scopes.findIdx? (·.contains n)).map (· + 1) := by
  rw [List.findIdx?_cons, h]
  rfl

theorem findIdx?_here {own : Declarations} (h : own.contains n = true) (scopes : List Declarations) :
    (own :: scopes).findIdx? (·.contains n) = some 0 := by
  rw [List.findIdx?_cons, h]
  rfl

/-- Scopes without a name are no place to find it. -/
theorem findIdx?_append {others : List Declarations} (h : ∀ own ∈ others, own.contains n = false)
    (scopes : List Declarations) :
    (others ++ scopes).findIdx? (·.contains n) = (scopes.findIdx? (·.contains n)).map (· + others.length) := by
  induction others with
  | nil => simp
  | cons own others ih =>
    rw [List.forall_mem_cons] at h
    rw [List.cons_append, findIdx?_outer h.1, ih h.2, Option.map_map]
    rfl

theorem contains_of_get? {own : Declarations} (h : own.get? n = none) : own.contains n = false := by
  rw [Bindings.contains, h]
  rfl

/-- A name is declared in the innermost scope on both sides or on none. -/
theorem declared {n' : String} (h : Mirrors c links scopes scopes') (hn : Declares c links n n') :
    scopes'.head?.any (·.contains n') = scopes.head?.any (·.contains n) := by
  cases h with
  | beyond => rw [hn.1]
  | scope mirror _ => exact mirror.contains hn
  | pass => exact hn.elim

/-- A name that is being declared on the right is being declared on the left. -/
theorem beingDeclared {n' : String} (h : Mirrors c links scopes scopes')
    (finds : Finds c links (scopes.findIdx? (·.contains n)) (scopes'.findIdx? (·.contains n')) n n')
    (right : scopes'.head?.any (·.get? n' == some false) = true) :
    scopes.head?.any (·.get? n == some false) = true := by
  cases scopes' with
  | nil => cases right
  | cons own' outer' =>
    have here : own'.get? n' = some false := by simpa using right
    have contains : own'.contains n' = true := by simp [Bindings.contains, here]
    rw [findIdx?_here contains] at finds
    generalize hd : scopes.findIdx? (·.contains n) = d at finds
    cases h with
    | beyond =>
      cases finds
      exact right
    | pass _ _ _ _ empty =>
      rw [empty n'] at here
      cases here
    | scope mirror _ =>
      cases finds with
      | here names => simpa [mirror.names n n' names] using here

/-- A name that the change leaves alone is found on both sides as the links have it, if it is not the slot of a pass
around. -/
theorem finds_self (h : Mirrors c links scopes scopes') (leaves : c.Leaves n)
    (covered : n = ForLoop.slotName → Covered n links scopes) :
    Finds c links (scopes.findIdx? (·.contains n)) (scopes'.findIdx? (·.contains n)) n n := by
  induction h with
  | beyond scopes =>
    cases scopes.findIdx? (·.contains n) with
    | none => exact .globals n
    | some d => exact .beyond d n
  | @scope links tie own own' scopes scopes' mirror rest ih =>
    rcases tie.names_self_or leaves with hn | ⟨hl, hr⟩
    · have same := mirror.contains hn
      cases hc : own.contains n with
      | true =>
        rw [findIdx?_here hc, findIdx?_here (same.trans hc)]
        exact .here hn
      | false =>
        rw [findIdx?_outer hc, findIdx?_outer (same.trans hc)]
        refine (ih fun e => (covered e).resolve_left ?_).inner tie
        simp [hc]
    · have hc := contains_of_get? (mirror.left n hl)
      rw [findIdx?_outer hc, findIdx?_outer (contains_of_get? (mirror.right n hr))]
      refine (ih fun e => (covered e).resolve_left ?_).inner tie
      simp [hc]
  | @pass links name more copy inner var others scopes scopes' nameable length held hidden empty only complete rest ih =>
    have slot : n ≠ ForLoop.slotName := covered
    have none := contains_of_get? (empty n)
    by_cases hn : n = name
    · subst hn
      rw [findIdx?_here ((held n).2 rfl), findIdx?_outer none, findIdx?_here ((only n).2 rfl)]
      exact .held nameable
    · have left : copy.contains n = false := Bool.eq_false_iff.2 fun h => hn ((held n).1 h)
      have right : var.contains n = false := Bool.eq_false_iff.2 fun h => hn ((only n).1 h)
      have others' : ∀ own ∈ others, own.contains n = false := fun own ho =>
        Bool.eq_false_iff.2 fun h => (hidden own ho n h).elim hn slot
      rw [findIdx?_outer left, findIdx?_append others', findIdx?_outer none, findIdx?_outer right, Option.map_map,
        Option.map_map, length]
      exact (ih fun e => absurd e slot).inPass name more

/-- The words of classes are found on both sides as the links have it. -/
theorem finds_word (h : Mirrors c links scopes scopes') (proper : c.Proper) (hn : ¬ Nameable n) :
    Finds c links (scopes.findIdx? (·.contains n)) (scopes'.findIdx? (·.contains n)) n n := by
  refine h.finds_self (proper.leaves hn) fun e => absurd ?_ hn
  rw [e]
  exact ⟨by decide, by decide⟩

end Mirrors

/-! ## Names that are covered -/

namespace Covered

variable {c : Change} {links : List Link} {scopes scopes' : List Declarations} {n : String}

theorem settle (h : Covered n links scopes) (ns : List String) : Covered n links (Lox.settle ns scopes) := by
  match links with
  | [] => trivial
  | .pass _ _ :: _ => exact h.elim
  | .scope _ :: _ =>
    cases scopes with
    | nil => exact h
    | cons own scopes => exact h.imp_left fun h => (Declarations.contains_complete ns own n).2 (.inr h)

theorem declare {w : Walk} (h : Covered n links w.scopes) (name : Token) : Covered n links (w.declare name).scopes := by
  obtain hs | ⟨own, outer, hw, hs⟩ := w.scopes_declare name
  · rwa [hs]
  · rw [hs]
    rw [hw] at h
    match links with
    | [] => trivial
    | .pass _ _ :: _ => exact h.elim
    | .scope _ :: _ =>
      refine h.imp_left fun h => ?_
      have : own.contains n = true := h
      simp [this]

/-- A name is covered once it is declared. -/
theorem of_declared {ns ns' : List String} (h : Mirrors c links scopes scopes')
    (hn : List.Forall₂ (Declares c links) ns ns') (mem : n ∈ ns) : Covered n links (Lox.settle ns scopes) := by
  cases h with
  | beyond => trivial
  | scope _ _ => exact .inl ((Declarations.contains_complete _ _ n).2 (.inl mem))
  | pass =>
    cases hn with
    | nil => cases mem
    | cons hd _ => exact hd.elim

theorem inner {own : Declarations} (h : Covered n links scopes) (tie : Tie) :
    Covered n (.scope tie :: links) (own :: scopes) := .inr h

end Covered

end Lox
