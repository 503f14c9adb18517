/-
Where the uses of variables find their variables: a table gives for a use how many scopes lie between it and
the scope of its variable. A use without an entry is one of a global variable.
-/
import Lox.Tree.Basic
import Std.Data.TreeMap

namespace Lox

/-- For the numbers of uses, how many scopes out the variable is found. -/
structure Table where
  hops : Std.TreeMap UseId Nat

namespace Table

/-- The table without entries. -/
def empty : Table := ⟨∅⟩

/-- How many scopes out a use finds its variable, if that is in a scope that is counted. -/
def get? (t : Table) (id : UseId) : Option Nat := t.hops[id]?

/-- Enters a use; an earlier entry for its number is lost. -/
def insert (t : Table) (id : UseId) (distance : Nat) : Table := ⟨t.hops.insert id distance⟩

/-- The entries by the numbers of the uses. -/
def toList (t : Table) : List (UseId × Nat) := t.hops.toList

@[simp] theorem get?_empty (id : UseId) : empty.get? id = none := by simp [empty, get?]

@[simp] theorem get?_insert (t : Table) (id other : UseId) (distance : Nat) :
    (t.insert id distance).get? other = if other = id then some distance else t.get? other := by
  simp only [insert, get?, Std.TreeMap.getElem?_insert, Nat.compare_eq_eq]
  by_cases h : id = other <;> simp [h, Ne.symm]

end Table

/-- A way to find a variable from the scope that is current when it is used. -/
inductive Place
  /-- In the scope this many steps out, and in no other. -/
  | hops (distance : Nat)
  /-- Among the global variables. -/
  | globals
  /-- In the nearest scope that has a variable of the name. -/
  | nearest
  deriving DecidableEq, Repr

/-- The place that a table gives a use. -/
def Table.place (t : Table) (id : UseId) : Place :=
  match t.get? id with
  | some distance => .hops distance
  | none => .globals

end Lox
