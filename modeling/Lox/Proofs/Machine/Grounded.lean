/-
A running program keeps its store grounded: whatever it does, every number that a value, a frame, a scope, a class or an
instance has leads to something that is there, and scopes and classes are linked to older ones (`grounded_iterate`). This
takes nothing but a start on such a store; names may be bound to anything.
-/
import Lox.Proofs.Machine.Upkeep
import Lox.Proofs.Store.Grounded

namespace Lox

/-! ## Machines on grounded stores -/

/-- Whether the scopes and values of a frame are in a store. -/
def Frame.In (s : Store) : Frame → Prop
  | .right _ v => s.Has v
  | .argument _ v values _ => s.Has v ∧ ∀ v ∈ values, s.Has v
  | .store id _ | .construct id => s.Has (.object id)
  | .leaveScope id => id < s.scopes.size
  | .body f id => f.scope < s.scopes.size ∧ id < s.scopes.size
  | _ => True

/-- Whether the value that a machine has, if it has one, is in a store. -/
def Control.In (s : Store) : Control → Prop
  | .value v | .finished (.returned v) => s.Has v
  | _ => True

theorem Frame.in_iff {s : Store} {f : Frame} : f.In s ↔ f.All s.Contains := by
  cases f with
  | right _ v => exact Store.has_iff
  | argument _ v values _ => exact and_congr Store.has_iff (forall₂_congr fun _ _ => Store.has_iff)
  | _ => exact Iff.rfl

theorem Control.in_iff {s : Store} {c : Control} : c.In s ↔ c.All s.Contains := by
  cases c with
  | value v => exact Store.has_iff
  | finished c =>
    cases c with
    | normal => exact Iff.rfl
    | returned v => exact Store.has_iff
  | exec _ | eval _ | failed _ => exact Iff.rfl

namespace Machine

/-- Whether a machine stands on a grounded store, whatever it does just now. -/
structure Based (m : Machine) : Prop where
  store : m.store.Grounded
  scope : m.scope < m.store.scopes.size
  frames : ∀ f ∈ m.frames, f.In m.store

/-- Whether a machine stands on a grounded store, with all that it has. -/
structure Grounded (m : Machine) : Prop extends Based m where
  control : m.control.In m.store

/-- From one machine to a later one: the store has aged and is grounded. -/
def Leads (m m' : Machine) : Prop := m.store.Ages m'.store ∧ m'.Grounded

variable {m : Machine}

theorem grounded_iff : m.Grounded ↔ Store.grounding.Kept [] m := by
  constructor
  · rintro ⟨⟨store, scope, frames⟩, control⟩
    exact ⟨⟨store, scope, Frame.Above.nil_iff.2 fun f hf => Frame.in_iff.1 (frames f hf)⟩, Control.in_iff.1 control⟩
  · rintro ⟨⟨store, scope, frames⟩, control⟩
    exact ⟨⟨store, scope, fun f hf => Frame.in_iff.2 (Frame.Above.nil_iff.1 frames f hf)⟩, Control.in_iff.2 control⟩

/-- The store stays grounded, and all that there was stays in it. -/
theorem grounded_iterate (place : UseId → Place) (h : m.Grounded) (n : Nat) : m.Leads ((step place)^[n] m) := by
  obtain ⟨ages, kept⟩ := Upkeep.leads_iterate_nil place (grounded_iff.1 h) n
  exact ⟨ages, grounded_iff.2 kept⟩

/-- On every store, grounded or not, all that there was stays as it was linked. -/
theorem ages_iterate (place : UseId → Place) (m : Machine) (n : Nat) : m.store.Ages ((step place)^[n] m).store :=
  (Upkeep.leads_iterate_nil place (Upkeep.kept_of_forall (u := Store.aging) (m := m) trivial fun _ _ => trivial) n).1

end Machine

end Lox
