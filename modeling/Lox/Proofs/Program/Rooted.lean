/-
Whatever programs are run on a machine, to their ends or into errors, and wherever the last of them has got to: the scope
around a scope was made before it, and the superclass of a class before the class (`always_rooted`). So no chain of scopes and no
chain of classes comes back to where it started, and every search along one comes to an end. It makes no difference to
which values names are bound in the meantime, and whether the programs were checked.
-/
import Lox.Proofs.Machine.Grounded
import Lox.Proofs.Program.OneByOne
import Lox.Proofs.Store.Rooted

namespace Lox

namespace Machine

variable {place : UseId → Place} {sink : Sink} {m : Machine}

theorem grounded_initial (sink : Sink) : (initial sink).Grounded := by
  have only {id : ScopeId} {scope : Scope} (h : Store.initial.scopes[id]? = some scope) :
      id = Store.globalScope ∧ scope = ⟨none, .empty⟩ := by
    rcases Store.of_getElem?_push h with ⟨rfl, rfl⟩ | h
    · exact ⟨rfl, rfl⟩
    · cases h
  have nothing {α : Type} {i : Nat} {x : α} (h : (#[] : Array α)[i]? = some x) : False := by simp at h
  have store : Store.initial.Grounded := by
    refine ⟨⟨.empty, rfl⟩, ?_, ?_, fun _ _ h => (nothing h).elim, fun _ _ h => (nothing h).elim,
      fun _ _ h => (nothing h).elim, fun _ _ h => (nothing h).elim⟩
    · exact fun id scope hs other => absurd (only hs).1 other
    · intro id scope hs
      rw [(only hs).2]
      exact Store.holds_empty _
  exact ⟨⟨store, Nat.zero_lt_one, List.forall_mem_nil _⟩, trivial⟩

/-- A program starts on what the programs before it have left. -/
theorem Grounded.load (h : m.Grounded) (statements : List Stmt) : (m.load statements).Grounded :=
  ⟨⟨h.store, h.scope, List.forall_mem_singleton.2 trivial⟩, trivial⟩

theorem Session.grounded (session : Session place sink m) : m.Grounded := by
  induction session with
  | fresh => exact grounded_initial sink
  | @more m r fuel statements e _ h ih =>
    obtain ⟨rfl, -⟩ := run_eq_some_iff.1 (interpret_eq_some_iff.1 h).1
    exact (grounded_iterate place (ih.load statements) fuel).2

/-- At every moment of every program of a session, all that there was before is there with the links that it had, and
all links lead to what was there before. -/
theorem always_rooted (session : Session place sink m) (statements : List Stmt) (n : Nat) :
    (∀ k ≤ n, ((step place)^[k] (m.load statements)).store.Ages ((step place)^[n] (m.load statements)).store) ∧
      ((step place)^[n] (m.load statements)).store.Rooted := by
  have start := session.grounded.load statements
  constructor
  · intro k hk
    obtain ⟨d, rfl⟩ := Nat.exists_eq_add_of_le hk
    rw [Nat.add_comm, Function.iterate_add_apply]
    exact (grounded_iterate place (grounded_iterate place start k).2 d).1
  · exact (grounded_iterate place start n).2.store.rooted

/-- A class is declared again under its name, with one of its former subclasses for superclass, and then the program
fails; in the next program the subclass is declared again as well, and the chain of the superclasses goes through all
four. -/
theorem always_rooted_redeclared : ∃ m statements n,
    Session (fun _ => .globals) .unlimited m ∧ m.failure?.isSome = true ∧
      let store := ((step fun _ => .globals)^[n] (m.load statements)).store
      store.Rooted ∧ (List.range 4).map store.superclass? = [none, some 0, some 1, some 2] := by
  obtain ⟨first, second, h⟩ : ∃ first second : List Stmt,
      first = (parse (scan "class A \x7b\x7d class B < A \x7b\x7d class A < B \x7b\x7d nil.x;").tokens).statements ∧
        second = (parse (scan "class B < A \x7b\x7d").tokens).statements := ⟨_, _, rfl, rfl⟩
  have ran : ∃ r ∈ (initial .unlimited).interpret (fun _ => .globals) 100 first,
      r.1.failure?.isSome = true ∧
        (List.range 4).map ((step fun _ => .globals)^[10] (r.1.load second)).store.superclass? =
          [none, some 0, some 1, some 2] := by
    rw [h.1, h.2]
    decide +kernel
  obtain ⟨⟨m, e⟩, hr, failed, classes⟩ := ran
  have session : Session (fun _ => .globals) .unlimited m := .more .fresh hr
  exact ⟨m, second, 10, session, failed, (always_rooted session second 10).2, classes⟩

end Machine

theorem Program.grounded_after (p : Program) (sink : Sink) (n : Nat) : (p.after sink n).Grounded :=
  (Machine.grounded_iterate _ ((Machine.grounded_initial sink).load p.statements) n).2

end Lox
