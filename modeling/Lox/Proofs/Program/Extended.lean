/-
What a program does to what was there before it, and to what was written. Scopes stay in the scopes around them with all
their variables, instances stay in their classes with all their fields, functions and classes stay what they are, and
nothing is taken back of what was written (`only_extends`). It makes no difference where the program starts, whether it was
checked, and how it ends. So what is found so many scopes out is found there for good, and a class has its methods for
good (`keeps_lookups`).
-/
import Lox.Proofs.Machine.Upkeep
import Lox.Proofs.Program.OneByOne
import Lox.Proofs.Store.Extended

namespace Lox

namespace Machine

/-- From one machine to a later one: the store has grown, and so has what was written. -/
structure Extends (m m' : Machine) : Prop where
  store : m.store.Extends m'.store
  sink : m.sink.Extends m'.sink

/-- On every store, grounded or not, nothing is lost that there was. -/
theorem extends_after (place : UseId → Place) (m : Machine) (n : Nat) : m.Extends ((step place)^[n] m) where
  store := (Upkeep.leads_iterate_nil place
    (Upkeep.kept_of_forall (u := Store.extending) (m := m) trivial fun _ _ => trivial) n).1
  sink := extends_iterate place m n

/-- A program that ends, with its last statement, with a return or with a failure, has only extended the store and the
output of the machine on which it was run. And whatever a machine is about to do, in a call or a block or as it unwinds, at
every later moment it has only extended them, also if it never ends. -/
theorem only_extends (place : UseId → Place) :
    (∀ (m : Machine) (statements : List Stmt) (fuel : Nat) (r : Machine) (e : Option Failure),
      m.interpret place fuel statements = some (r, e) → m.Extends r) ∧
    ∀ (m : Machine) (n : Nat), m.Extends ((step place)^[n] m) := by
  refine ⟨fun m statements fuel r e ends => ?_, extends_after place⟩
  obtain ⟨rfl, -⟩ := run_eq_some_iff.1 (interpret_eq_some_iff.1 ends).1
  -- a machine that is given a program has its store and its sink as before
  obtain ⟨store, sink⟩ := extends_after place (m.load statements) fuel
  exact ⟨store, sink⟩

/-- A program binds names of the one before it to other things, declares a class again, and stores into a field that there
is and into a new one. Then it fails, with its line below that of the first. -/
theorem only_extends_failed : ∃ (m : Machine) (statements : List Stmt) (fuel : Nat) (r : Machine) (e : Failure),
    m.interpret (fun _ => .globals) fuel statements = some (r, some e) ∧ m.Extends r ∧
      (m.store.valueIn? 0 "a" = some (.object 0) ∧ r.store.valueIn? 0 "a" = some (.closure 0)) ∧
      (m.store.valueIn? 0 "A" = some (.cls 0) ∧ r.store.valueIn? 0 "A" = some (.cls 1)) ∧
      (m.store.field? 0 "f" = some (.object 0) ∧ r.store.field? 0 "f" = some .nil) ∧
      (m.store.field? 0 "g" = none ∧ r.store.field? 0 "g" = some (.object 1)) ∧
      m.sink.written = "A instance\n".toUTF8 ∧ r.sink.written = "A instance\nA\n".toUTF8 := by
  obtain ⟨first, second, h⟩ : ∃ first second : List Stmt,
      first = (parse (scan "class A \x7b\x7d var a = A(); a.f = a; print a;").tokens).statements ∧
        second = (parse (scan
          "a.f = nil; class A < A \x7b\x7d a.g = A(); fun a() \x7b\x7d print A; -nil;").tokens).statements :=
    ⟨_, _, rfl, rfl⟩
  have ran : ∃ m ∈ (initial .unlimited).interpret (fun _ => .globals) 100 first,
      ∃ r ∈ m.1.interpret (fun _ => .globals) 100 second, r.2.isSome = true ∧
        (m.1.store.valueIn? 0 "a" = some (.object 0) ∧ r.1.store.valueIn? 0 "a" = some (.closure 0)) ∧
        (m.1.store.valueIn? 0 "A" = some (.cls 0) ∧ r.1.store.valueIn? 0 "A" = some (.cls 1)) ∧
        (m.1.store.field? 0 "f" = some (.object 0) ∧ r.1.store.field? 0 "f" = some .nil) ∧
        (m.1.store.field? 0 "g" = none ∧ r.1.store.field? 0 "g" = some (.object 1)) ∧
        m.1.sink.written = "A instance\n".toUTF8 ∧ r.1.sink.written = "A instance\nA\n".toUTF8 := by
    rw [h.1, h.2]
    decide +kernel
  obtain ⟨⟨m, _⟩, -, ⟨r, e⟩, ends, failed, facts⟩ := ran
  obtain ⟨e, rfl⟩ := Option.isSome_iff_exists.1 failed
  exact ⟨m, second, 100, r, e, ends, (only_extends _).1 m second 100 r (some e) ends, facts⟩

/-- Whatever a machine does, the variable so many scopes out is found in the same scope ever after, and a class has the
methods that it had. -/
theorem keeps_lookups (place : UseId → Place) (m : Machine) (n : Nat) :
    (∀ current distance name id, m.store.target? current (.hops distance) name = some id →
      ((step place)^[n] m).store.target? current (.hops distance) name = some id) ∧
    ∀ cls name f, m.store.findMethod? cls name = some f → ((step place)^[n] m).store.findMethod? cls name = some f := by
  have grown := (extends_after place m n).store
  constructor
  · intro current distance name id found
    exact grown.target?_hops found
  · intro cls name f found
    exact grown.findMethod? found

end Machine

end Lox
