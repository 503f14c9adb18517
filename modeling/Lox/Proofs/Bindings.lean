/-
More on names bound to things: names bound twice, and names bound one after another.
-/
import Lox.Bindings

namespace Lox.Bindings

theorem setEntry_setEntry {α : Type} (name : String) (x y : α) :
    ∀ entries : List (String × α),
      setEntry name y (setEntry name x entries) = setEntry name y entries
  | [] => by simp [setEntry]
  | (n, z) :: rest => by
    unfold setEntry
    by_cases h : name = n
    · simp [setEntry, h]
    · simp [setEntry, h, setEntry_setEntry name x y rest]

@[simp] theorem set_set {α : Type} (b : Bindings α) (name : String) (x y : α) :
    (b.set name x).set name y = b.set name y := by
  simp [set, setEntry_setEntry]

theorem contains_iff {α : Type} (b : Bindings α) (name : String) :
    b.contains name = true ↔ ∃ x, b.get? name = some x := Option.isSome_iff_exists

@[simp] theorem contains_set {α : Type} (b : Bindings α) (name other : String) (x : α) :
    (b.set name x).contains other = (decide (other = name) || b.contains other) := by
  unfold contains
  rw [get?_set]
  by_cases h : other = name <;> simp [h]

/-! ## Bindings from a list -/

variable {α : Type}

theorem get?_foldl_set (name : String) : ∀ (entries : List (String × α)) (b : Bindings α),
    (entries.foldl (fun b (name, x) => b.set name x) b).get? name = (entries.reverse.lookup name).or (b.get? name)
  | [], _ => rfl
  | (n, x) :: rest, b => by
    rw [List.foldl_cons, get?_foldl_set name rest, get?_set, List.reverse_cons, List.lookup_append, Option.or_assoc]
    by_cases h : name = n
    · simp [h]
    · simp [h, List.lookup_cons, beq_false_of_ne h]

/-- Of several bindings of a name the last counts. -/
theorem get?_ofList (entries : List (String × α)) (name : String) :
    (ofList entries).get? name = entries.reverse.lookup name :=
  (get?_foldl_set name entries empty).trans Option.or_none

/-- What a name is bound to stands with it in the list. -/
theorem mem_of_get?_ofList {entries : List (String × α)} {name : String} {x : α}
    (h : (ofList entries).get? name = some x) : (name, x) ∈ entries := by
  rw [get?_ofList, List.lookup_eq_some_iff] at h
  obtain ⟨before, after, split, -⟩ := h
  rw [← List.mem_reverse, split]
  simp

theorem contains_foldl_set {name : String} :
    ∀ {entries : List (String × α)} {b : Bindings α},
      (entries.foldl (fun b (name, x) => b.set name x) b).contains name = true ↔
        name ∈ entries.map (·.1) ∨ b.contains name = true
  | [], _ => by simp
  | (n, y) :: rest, b => by
    rw [List.foldl_cons, contains_foldl_set, contains_set, Bool.or_eq_true, decide_eq_true_iff]
    rw [List.map_cons, List.mem_cons, ← or_assoc, or_comm (b := name = n)]

/-- The names that are bound are those in the list. -/
theorem contains_ofList {entries : List (String × α)} {name : String} :
    (ofList entries).contains name = true ↔ name ∈ entries.map (·.1) := by
  refine contains_foldl_set.trans (or_iff_left fun h => ?_)
  cases h

end Lox.Bindings
