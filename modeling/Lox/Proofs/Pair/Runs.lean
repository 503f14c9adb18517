/-
Runs of two programs whose statements are alike. Side by side they come to their ends: if one of them halts, so does the
other, they have printed the same, and they have failed alike or not at all.
-/
import Lox.Program
import Lox.Proofs.Pair.Steps

namespace Lox

/-! ## Systems that meet again and again -/

section

variable {α β : Type} {f : α → α} {g : β → β} (stop : α → Prop)

/-- Two systems that meet in `R` again after at least one step each, unless they agree in the end: if the first of them
stops, the second one stops in agreement with it. -/
theorem exists_iterate_agree {R A : α → β → Prop} (still : ∀ a, stop a → f a = a)
    (meet : ∀ a b, R a b → (∃ n n', A (f^[n] a) (g^[n'] b)) ∨ ∃ n n', R (f^[n + 1] a) (g^[n' + 1] b))
    (stops : ∀ a b, A a b → stop a) (agree : ∀ a b, R a b → stop a → A a b) (n : Nat) {a : α} {b : β} (h : R a b)
    (hn : stop (f^[n] a)) : ∃ n', A (f^[n] a) (g^[n'] b) := by
  induction n using Nat.strongRecOn generalizing a b with
  | ind n ih =>
    rcases meet a b h with ⟨k, k', ha⟩ | ⟨k, k', hr⟩
    · refine ⟨k', ?_⟩
      rcases Nat.le_total n k with le | le
      · rwa [iterate_eq_of_stop stop still hn le] at ha
      · rwa [iterate_eq_of_stop stop still (stops _ _ ha) le]
    · by_cases lt : k < n
      · obtain ⟨d, rfl⟩ := Nat.exists_eq_add_of_lt lt
        have split : f^[k + d + 1] a = f^[d] (f^[k + 1] a) := by
          rw [← Function.iterate_add_apply]
          congr 1
          omega
        rw [split] at hn ⊢
        obtain ⟨n', ha⟩ := ih d (by omega) hr hn
        refine ⟨n' + (k' + 1), ?_⟩
        rwa [Function.iterate_add_apply g]
      · have same := iterate_eq_of_stop stop still hn (Nat.le_succ_of_le (Nat.le_of_not_lt lt))
        rw [same] at hr
        exact ⟨k' + 1, agree _ _ hr hn⟩

end

namespace Machine

open Sides

variable {p : Pairing} {m m' : Machine} {place : UseId → Place}

/-! ## The end of a run -/

/-- Two machines that have halted alike. -/
structure Agree (p : Pairing) (m m' : Machine) : Prop where
  halted : m.halted = true ∧ m'.halted = true
  sink : m'.sink = m.sink
  failure : Option.Rel (Failure.Like p.change) m.failure? m'.failure?

/-- Failures that are alike end alike. -/
theorem Fail.agree (h : Fail p m m') :
    ∃ n n', Agree p ((step p.table.place)^[n] m) ((step p.table'.place)^[n'] m') := by
  obtain ⟨e, e', hc, hc', like, same⟩ := h
  obtain ⟨control, frames, scope, depth, store, sink⟩ := m
  obtain ⟨control', frames', scope', depth', store', sink'⟩ := m'
  cases hc
  cases hc'
  obtain ⟨n, hf, hc, hs⟩ := exists_iterate_failed p.table.place e frames scope depth store sink
  obtain ⟨n', hf', hc', hs'⟩ := exists_iterate_failed p.table'.place e' frames' scope' depth' store' sink'
  refine ⟨n, n', ⟨halted_of_failed hf hc, halted_of_failed hf' hc'⟩, by rw [hs, hs']; exact same, ?_⟩
  unfold failure?
  rw [hc, hc']
  exact .some like

/-! ## Side by side -/

/-- Two machines side by side come to meet again, or they have both come to the end. -/
theorem Together.meets {statements : List Stmt} (resolved : Resolved statements p.table) (h : Together p m m')
    (conforms : m.Conforms statements) : Agree p m m' ∨ Meets p m m' := by
  have later := conforms.step resolved
  obtain ⟨tie, since, a, twins, gives⟩ := h
  obtain ⟨control, frames, scope, depth, store, sink⟩ := m
  obtain ⟨control', frames', scope', depth', store', sink'⟩ := m'
  have hd : depth' = depth := twins.depth
  have hs : sink' = sink := twins.sink
  subst hd hs
  have hf := twins.frames
  generalize hc : control = x at gives
  generalize hc' : control' = x' at gives
  cases gives with
  | exec place =>
    subst hc hc'
    exact .inr (Next.meets (twins.execute place))
  | eval place =>
    subst hc hc'
    exact .inr (Next.meets (twins.evaluate place))
  | @value v holds =>
    subst hc hc'
    generalize ha : Awaits.value = a at hf
    cases hf with
    | nil | body _ _ _ _ _ _ _ | pass _ _ | clause _ _ _ => cases ha
    | @cons _ _ _ _ _ f f' b j j' rest rest' takes below =>
      subst ha
      obtain ⟨rfl, rfl⟩ := takes.same_scopes
      have twins : Twins p tie since b ⟨.value v, rest, j, depth', store, sink'⟩
          ⟨.value v, rest', j', depth', store', sink'⟩ := ⟨twins.sound, below, twins.young, rfl, rfl⟩
      exact .inr (twins.receive resolved takes holds later)
  | finished c holds =>
    subst hc hc'
    have ended : frames = [] ∧ frames' = [] → Agree p ⟨.finished c, frames, scope, depth', store, sink'⟩
        ⟨.finished c, frames', scope', depth', store', sink'⟩ := by
      rintro ⟨rfl, rfl⟩
      exact ⟨⟨rfl, rfl⟩, rfl, .none⟩
    cases c with
    | normal => exact (meets_normal hf twins.sound twins.young depth' sink').imp_left ended
    | returned v =>
      exact (meets_returned hf rfl twins.sound rfl rfl (fun _ _ => rfl) (holds v rfl) depth' sink').imp_left ended

/-- If one of two machines side by side has halted, both have. -/
theorem Together.agree (h : Together p m m') (halted : m.halted = true ∨ m'.halted = true) : Agree p m m' := by
  obtain ⟨tie, since, a, twins, gives⟩ := h
  obtain ⟨control, frames, scope, depth, store, sink⟩ := m
  obtain ⟨control', frames', scope', depth', store', sink'⟩ := m'
  have hf := twins.frames
  have hs := twins.sink
  dsimp only at hf hs gives
  cases gives with
  | exec _ | eval _ =>
    rcases halted with h | h
    all_goals
      unfold Machine.halted at h
      split at h <;> simp_all
  | value _ =>
    rcases halted with h | h
    all_goals
      unfold Machine.halted at h
      split at h <;> simp_all
  | finished c _ =>
    have ended : frames = [] ∧ frames' = [] := by
      rcases halted with h | h
      · cases frames with
        | cons _ _ => cases h
        | nil =>
          generalize ha : ([] : List Frame) = all at hf
          cases hf with
          | nil => exact ⟨rfl, rfl⟩
          | cons _ _ | body _ _ _ _ _ _ _ | pass _ _ | clause _ _ _ => cases ha
      · cases frames' with
        | cons _ _ => cases h
        | nil =>
          generalize ha : ([] : List Frame) = all at hf
          cases hf with
          | nil => exact ⟨rfl, rfl⟩
          | cons _ _ | body _ _ _ _ _ _ _ | pass _ _ | clause _ _ _ => cases ha
    obtain ⟨rfl, rfl⟩ := ended
    exact ⟨⟨rfl, rfl⟩, hs, .none⟩

/-- Two machines side by side that make progress end alike. -/
theorem Together.ends {statements : List Stmt} (resolved : Resolved statements p.table) (h : Together p m m')
    (conforms : m.Conforms statements) :
    (∀ n, ((step p.table.place)^[n] m).halted = true →
        ∃ n', Agree p ((step p.table.place)^[n] m) ((step p.table'.place)^[n'] m')) ∧
      ∀ n', ((step p.table'.place)^[n'] m').halted = true →
        ∃ n, Agree p ((step p.table.place)^[n] m) ((step p.table'.place)^[n'] m') := by
  have meet : ∀ m m', Together p m m' ∧ m.Conforms statements →
      (∃ n n', Agree p ((step p.table.place)^[n] m) ((step p.table'.place)^[n'] m')) ∨
        ∃ n n', Together p ((step p.table.place)^[n + 1] m) ((step p.table'.place)^[n' + 1] m') ∧
          Conforms statements ((step p.table.place)^[n + 1] m) := by
    rintro m m' ⟨together, conforms⟩
    have along (n : Nat) : Conforms statements ((step p.table.place)^[n] m) := by
      induction n with
      | zero => exact conforms
      | succ n ih =>
        rw [Function.iterate_succ_apply']
        exact ih.step resolved
    rcases together.meets resolved conforms with agree | ⟨n, n', next | fail⟩
    · exact .inl ⟨0, 0, agree⟩
    · exact .inr ⟨n, n', next, along _⟩
    · obtain ⟨k, k', agree⟩ := fail.agree
      rw [← Function.iterate_add_apply, ← Function.iterate_add_apply] at agree
      exact .inl ⟨_, _, agree⟩
  constructor
  · intro n hn
    exact exists_iterate_agree (·.halted = true) (fun _ => step_of_halted) meet
      (fun _ _ h => h.halted.1) (fun _ _ h stops => h.1.agree (.inl stops)) n ⟨h, conforms⟩ hn
  · intro n' hn
    exact exists_iterate_agree (R := fun m' m => Together p m m' ∧ m.Conforms statements)
      (A := fun m' m => Agree p m m') (·.halted = true) (fun _ => step_of_halted)
      (fun m' m h => (meet m m' h).imp (fun ⟨n, n', h⟩ => ⟨n', n, h⟩) fun ⟨n, n', h⟩ => ⟨n', n, h⟩)
      (fun _ _ h => h.halted.2) (fun _ _ h stops => h.1.agree (.inr stops)) n' ⟨h, conforms⟩ hn

end Machine

end Lox
