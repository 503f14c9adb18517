/-
Two machines that run side by side, and small moves of both: they go on with the same value or the same end, start
parts that are alike, or fail alike. A failure names a token, which may have the new name on the right.
-/
import Lox.Proofs.Pair.Frames

namespace Lox

/-! ## Failures -/

/-- Whether errors at run time are the same, but for the name of a variable. -/
def RuntimeError.Like (c : Change) (e e' : RuntimeError) : Prop :=
  e.site.Like c e'.site ∧
    (e'.fault = e.fault ∨
      e.fault = .undefinedVariable e.site.lexeme ∧ e'.fault = .undefinedVariable e'.site.lexeme)

/-- Whether failures are the same, but for the name of a variable. -/
def Failure.Like (c : Change) : Failure → Failure → Prop
  | .runtime e, .runtime e' => e.Like c e'
  | .sink fault, .sink fault' => fault' = fault
  | _, _ => False

namespace Machine

open Sides

section

variable (p : Pairing)

/-- Two machines whose frames wait for this. -/
structure Twins (tie : ScopeId → Option (ScopeId × Tie)) (since : ScopeId) (a : Awaits) (m m' : Machine) : Prop where
  sound : Sound p ⟨tie, m.store, m'.store⟩
  frames : Frames p ⟨tie, m.store, m'.store⟩ since a m.scope m'.scope m.frames m'.frames
  young : since ≤ m.store.scopes.size
  depth : m'.depth = m.depth
  sink : m'.sink = m.sink

/-- Two machines that run side by side. -/
def Together (m m' : Machine) : Prop :=
  ∃ tie since a, Twins p tie since a m m' ∧
    Gives p ⟨tie, m.store, m'.store⟩ since m.scope m'.scope a m.control m'.control

/-- Two machines that fail alike. -/
def Fail (m m' : Machine) : Prop :=
  ∃ e e', m.control = .failed e ∧ m'.control = .failed e' ∧ e.Like p.change e' ∧ m'.sink = m.sink

/-- Two machines that go on side by side, or fail alike. -/
def Next (m m' : Machine) : Prop := Together p m m' ∨ Fail p m m'

end

variable {p : Pairing} {tie : ScopeId → Option (ScopeId × Tie)} {since : ScopeId} {a : Awaits} {m m' : Machine}
  {links : List Link} {n n' : String}

namespace Twins

/-! ## Going on -/

theorem give (h : Twins p tie since .value m m') {v : Value} (hv : Holds p ⟨tie, m.store, m'.store⟩ v) :
    Next p (m.give v) (m'.give v) := .inl ⟨tie, since, _, ⟨h.1, h.2, h.3, h.4, h.5⟩, .value hv⟩

theorem finish (h : Twins p tie since .ending m m') (c : Completion)
    (hc : ∀ v, c = .returned v → Holds p ⟨tie, m.store, m'.store⟩ v) : Next p (m.finish c) (m'.finish c) :=
  .inl ⟨tie, since, _, ⟨h.1, h.2, h.3, h.4, h.5⟩, .finished c hc⟩

theorem done (h : Twins p tie since .ending m m') : Next p (m.finish .normal) (m'.finish .normal) :=
  h.finish .normal fun _ e => by cases e

theorem failAt (h : Twins p tie since a m m') (fault : RuntimeFault) {site site' : Token}
    (like : site.Like p.change site') : Next p (m.fail fault site) (m'.fail fault site') :=
  .inr ⟨_, _, rfl, rfl, ⟨like, .inl rfl⟩, h.sink⟩

theorem fail (h : Twins p tie since a m m') (fault : RuntimeFault) (site : Token) :
    Next p (m.fail fault site) (m'.fail fault site) := h.failAt fault (.inl rfl)

theorem undefined (h : Twins p tie since a m m') {name name' : Token} (like : name.Like p.change name') :
    Next p (m.fail (.undefinedVariable name.lexeme) name) (m'.fail (.undefinedVariable name'.lexeme) name') :=
  .inr ⟨_, _, rfl, rfl, ⟨like, .inr ⟨rfl, rfl⟩⟩, h.sink⟩

/-! ## Starting a part -/

theorem eval (h : Twins p tie since .value m m') {e e' : Expr}
    (place : At p ⟨tie, m.store, m'.store⟩ since m.scope m'.scope (.expr e) (.expr e')) :
    Next p { m with control := .eval e } { m' with control := .eval e' } :=
  .inl ⟨tie, since, _, ⟨h.1, h.2, h.3, h.4, h.5⟩, .eval place⟩

theorem exec (h : Twins p tie since .ending m m') {s s' : Stmt}
    (place : At p ⟨tie, m.store, m'.store⟩ since m.scope m'.scope (.stmt s) (.stmt s')) :
    Next p { m with control := .exec s } { m' with control := .exec s' } :=
  .inl ⟨tie, since, _, ⟨h.1, h.2, h.3, h.4, h.5⟩, .exec place⟩

/-- A frame more on each side. -/
theorem push (h : Twins p tie since a m m') {b : Awaits} {f f' : Frame}
    (takes : Takes p ⟨tie, m.store, m'.store⟩ since b m.scope m'.scope f f' a m.scope m'.scope) :
    Twins p tie since b { m with frames := f :: m.frames } { m' with frames := f' :: m'.frames } :=
  ⟨h.sound, .cons takes h.frames, h.young, h.depth, h.sink⟩

theorem await (h : Twins p tie since a m m') {e e' : Expr} {f f' : Frame}
    (place : At p ⟨tie, m.store, m'.store⟩ since m.scope m'.scope (.expr e) (.expr e'))
    (takes : Takes p ⟨tie, m.store, m'.store⟩ since .value m.scope m'.scope f f' a m.scope m'.scope) :
    Next p (m.await e f) (m'.await e' f') := (h.push takes).eval place

theorem perform (h : Twins p tie since a m m') {s s' : Stmt} {f f' : Frame}
    (place : At p ⟨tie, m.store, m'.store⟩ since m.scope m'.scope (.stmt s) (.stmt s'))
    (takes : Takes p ⟨tie, m.store, m'.store⟩ since .ending m.scope m'.scope f f' a m.scope m'.scope) :
    Next p (m.perform s f) (m'.perform s' f') := (h.push takes).exec place

/-! ## Changing the stores -/

theorem grow (h : Twins p tie since a m m') {s : Sides}
    (grown : Grows ⟨tie, m.store, m'.store⟩ s ∧ Sound p s) :
    Twins p s.tie since a { m with store := s.left } { m' with store := s.right } :=
  ⟨grown.2, grown.1.frames h.frames, Nat.le_trans h.young grown.1.left.size, h.depth, h.sink⟩

/-- Both declare variables that belong together. -/
theorem declare (h : Twins p tie since .ending m m')
    (shares : Shares p ⟨tie, m.store, m'.store⟩ m.scope m'.scope n n') {v : Value}
    (hv : Holds p ⟨tie, m.store, m'.store⟩ v) :
    Next p ((m.defineHere n v).finish .normal) ((m'.defineHere n' v).finish .normal) :=
  (h.grow (h.sound.define shares hv)).done

theorem openBlock (h : Twins p tie since .ending m m')
    (stands : Stands ⟨tie, m.store, m'.store⟩ since links m.scope m'.scope) {t : Tie} {ss ss' : List Stmt}
    (alike : p.Alike (.scope t :: links) (.stmts ss) (.stmts ss')) :
    Next p (m.openBlock ss) (m'.openBlock ss') := by
  have grows := h.sound.toOrdered.grows_openScope t ⟨some m.scope, .empty⟩ ⟨some m'.scope, .empty⟩
  have sound := h.sound.openScope t m.scope m'.scope .empty .empty
    fun _ _ _ => ⟨rfl, fun _ e => by cases e⟩
  have inner := stands.openScope h.sound.toOrdered t h.young .empty .empty
  have frames := grows.frames h.frames
  refine .inl ⟨_, since, .ending, ⟨sound, ?_, ?_, h.depth, h.sink⟩, .finished .normal fun _ e => by cases e⟩
  · exact .cons (.sequence ⟨_, inner, alike⟩) (.cons .leaveScope frames)
  · exact Nat.le_trans h.young grows.left.size

/-! ## Variables -/

theorem giveVariable (h : Twins p tie since .value m m')
    (stands : Stands ⟨tie, m.store, m'.store⟩ since links m.scope m'.scope) {d d' : Option Nat} {name name' : Token}
    (like : name.Like p.change name') (finds : Finds p.change links d d' name.lexeme name'.lexeme) :
    Next p (m.giveVariable (.ofDistance? d) name) (m'.giveVariable (.ofDistance? d') name') := by
  obtain ⟨same, holds⟩ := h.sound.read? stands finds
  have same : m'.store.read? m'.scope (.ofDistance? d') name'.lexeme = m.store.read? m.scope (.ofDistance? d) name.lexeme := same
  unfold Machine.giveVariable
  rw [same]
  cases hv : m.store.read? m.scope (.ofDistance? d) name.lexeme with
  | none => exact h.undefined like
  | some v => exact h.give (holds v hv)

theorem assignVariable (h : Twins p tie since .value m m')
    (stands : Stands ⟨tie, m.store, m'.store⟩ since links m.scope m'.scope) {d d' : Option Nat} {name name' : Token}
    (like : name.Like p.change name') (finds : Finds p.change links d d' name.lexeme name'.lexeme) {v : Value}
    (hv : Holds p ⟨tie, m.store, m'.store⟩ v) :
    Next p (m.assignVariable (.ofDistance? d) name v) (m'.assignVariable (.ofDistance? d') name' v) := by
  unfold Machine.assignVariable Store.write?
  rcases h.sound.target? stands finds with ⟨none, none'⟩ | ⟨k, k', some, some', shares⟩
  · rw [show m.store.target? m.scope _ _ = _ from none, show m'.store.target? m'.scope _ _ = _ from none']
    exact h.undefined like
  · rw [show m.store.target? m.scope _ _ = _ from some, show m'.store.target? m'.scope _ _ = _ from some']
    have grown := h.sound.define shares hv
    exact (h.grow grown).give (grown.1.holds hv)

/-! ## Printing -/

theorem printValue (h : Twins p tie since .ending m m') {v : Value} (hv : Holds p ⟨tie, m.store, m'.store⟩ v) :
    Next p (m.printValue v) (m'.printValue v) := by
  have same : m'.store.display v = m.store.display v := h.sound.display hv
  unfold Machine.printValue
  dsimp only
  rw [same, h.sink]
  split
  · have written (sink : Sink) : Twins p tie since .ending { m with sink := sink } { m' with sink := sink } :=
      ⟨h.sound, h.frames, h.young, h.depth, rfl⟩
    exact (written _).done
  · exact .inr ⟨_, _, rfl, rfl, rfl, rfl⟩

end Twins

end Machine

end Lox
