/-
Names bound to things. A name is bound at most once; binding it again replaces what it was bound to and
changes nothing else (`get?_set`).
-/

namespace Lox

/-- Names with what each is bound to, in the order in which they were first bound. -/
structure Bindings (α : Type) where
  entries : List (String × α)
  deriving Inhabited

namespace Bindings

variable {α : Type}

/-- No names. -/
def empty : Bindings α := ⟨[]⟩

/-- What a name is bound to. -/
def get? (b : Bindings α) (name : String) : Option α := b.entries.lookup name

/-- Whether a name is bound. -/
def contains (b : Bindings α) (name : String) : Bool := (b.get? name).isSome

/-- The names, in the order in which they were first bound. -/
def names (b : Bindings α) : List String := b.entries.map (·.1)

/-- Binds a name in a list of entries, in its old place or at the end. -/
def setEntry (name : String) (x : α) : List (String × α) → List (String × α)
  | [] => [(name, x)]
  | (n, y) :: rest => if name == n then (n, x) :: rest else (n, y) :: setEntry name x rest

/-- Binds a name. -/
def set (b : Bindings α) (name : String) (x : α) : Bindings α := ⟨setEntry name x b.entries⟩

/-- Binds names one after another, so that the last binding of a name counts. -/
def ofList (entries : List (String × α)) : Bindings α :=
  entries.foldl (fun b (name, x) => b.set name x) empty

/-! ## Look-up -/

@[simp] theorem get?_empty (name : String) : (empty : Bindings α).get? name = none := rfl

theorem lookup_setEntry (name other : String) (x : α) (entries : List (String × α)) :
    (setEntry name x entries).lookup other =
      if other = name then some x else entries.lookup other := by
  have same {a b : String} (h : a ≠ b) : (a == b) = false := by simpa using h
  induction entries with
  | nil => by_cases h : other = name <;> simp [setEntry, List.lookup_cons, h, same]
  | cons entry rest ih =>
    obtain ⟨n, y⟩ := entry
    unfold setEntry
    by_cases found : name = n
    · by_cases h : other = n <;> simp [List.lookup_cons, found, h, same]
    · by_cases h : other = n
      · simp [found, h, same, Ne.symm found]
      · simp [List.lookup_cons, found, h, same, ih]

/-- A name that was bound has its new meaning, and every other name keeps its own. -/
@[simp] theorem get?_set (b : Bindings α) (name other : String) (x : α) :
    (b.set name x).get? other = if other = name then some x else b.get? other :=
  lookup_setEntry name other x b.entries

end Bindings

end Lox
