/-
What can be reached in a store: whatever things lead to, from one to the next (`Reaches`). A program that has only some
things in its hands, and all that these lead to, leaves the others as they were (`Confined`); what it makes is its own. A
scope is reached from the scopes inside it, and else only through a function (`Reaches.outside`).
-/
import Lox.Proofs.Store.Grounded
import Mathlib.Logic.Relation

namespace Lox

namespace Store

/-- Whether some of the roots lead to a thing. -/
def Reaches (s : Store) (roots : Thing → Prop) (x : Thing) : Prop := ∃ r, roots r ∧ Relation.ReflTransGen s.Links r x

/-- Whether a thing is in a later store as it was before: a scope with its variables, an instance with its fields. -/
def Agrees (old s : Store) : Thing → Prop
  | .scope id => s.scopes[id]? = old.scopes[id]?
  | .closure id => s.closures[id]? = old.closures[id]?
  | .cls id => s.classes[id]? = old.classes[id]?
  | .object id => s.instances[id]? = old.instances[id]?

/-- Whether one scope is the other or is around it. -/
def Around (s : Store) (inner outer : ScopeId) : Prop := ∃ n, s.ancestor? inner n = some outer

/-- A store for those who have some things in their hands: these lead to nothing else, what is not there yet is among
them, and all others are as they were in an older store. -/
structure Confined (p : Thing → Prop) (old s : Store) : Prop where
  young : ∀ x, ¬ s.Contains x → p x
  globals : p (.scope globalScope)
  scopes : ∀ (id : ScopeId) scope, s.scopes[id]? = some scope → p (.scope id) →
    (∀ outer ∈ scope.parent, p (.scope outer)) ∧ scope.bindings.All p
  closures : ∀ (id : ClosureId) f, s.closures[id]? = some f → p (.closure id) → p (.scope f.scope)
  classes : ∀ (id : ClassId) cls, s.classes[id]? = some cls → p (.cls id) →
    (∀ parent ∈ cls.superclass, p (.cls parent)) ∧ ∀ name f, cls.methods.get? name = some f → p (.closure f)
  instances : ∀ (id : InstanceId) object, s.instances[id]? = some object → p (.object id) →
    p (.cls object.cls) ∧ object.fields.All p
  same : ∀ x, ¬ p x → old.Agrees s x

variable {p : Thing → Prop} {old s s' : Store} {x y : Thing} {id : Nat} {v : Value} {vars : Bindings Value}

theorem agrees_refl (s : Store) (x : Thing) : s.Agrees s x := by
  cases x <;> rfl

theorem Agrees.trans {s'' : Store} (h : s.Agrees s' x) (h' : s'.Agrees s'' x) : s.Agrees s'' x := by
  cases x with
  | scope _ | closure _ | cls _ | object _ => exact Eq.trans h' h

/-! ## Links -/

theorem Links.contains (h : s.Links x y) : s.Contains x := by
  cases h with
  | enclosing link => exact lt_size_of_parent? link
  | bound hv hx => exact lt_size_of_binds ((binds_iff _ _ _).2 ⟨_, hv⟩)
  | closure h => exact lt_size_iff.2 ⟨_, h⟩
  | method h _ | superclass h _ => exact lt_size_iff.2 ⟨_, h⟩
  | cls h | field h _ _ => exact lt_size_iff.2 ⟨_, h⟩

/-- Whoever comes to a scope started from one in it, or has come through a function. -/
theorem outside_of_links (h : Relation.ReflTransGen s.Links x (.scope id)) :
    (∃ inner, x = .scope inner ∧ s.Around inner id) ∨
      ∃ f, Relation.ReflTransGen s.Links x (.closure f) ∧ Relation.ReflTransGen s.Links (.closure f) (.scope id) := by
  induction h using Relation.ReflTransGen.head_induction_on with
  | refl => exact .inl ⟨id, rfl, 0, rfl⟩
  | head first rest ih =>
    rcases ih with ⟨outer, rfl, n, hn⟩ | ⟨f, before, after⟩
    · generalize hy : Thing.scope outer = y at first
      cases first with
      | @enclosing inner _ link =>
        cases hy
        refine .inl ⟨inner, rfl, n + 1, ?_⟩
        rw [ancestor?_succ, link]
        exact hn
      | @closure f _ hf => exact .inr ⟨f, .refl, .head (.closure hf) (hy ▸ rest)⟩
      | @bound _ _ v _ _ hx | @field _ _ _ v _ _ _ hx =>
        rw [← hy] at hx
        exact absurd hx (v.thing?_ne_scope outer)
      | method _ _ | superclass _ _ | cls _ => cases hy
    · exact .inr ⟨f, .head first before, after⟩

theorem Reaches.outside {roots : Thing → Prop} (h : s.Reaches roots (.scope id))
    (away : ∀ inner, roots (.scope inner) → ¬ s.Around inner id) :
    ∃ f, s.Reaches roots (.closure f) ∧ s.Reaches (· = .closure f) (.scope id) := by
  obtain ⟨r, root, path⟩ := h
  rcases outside_of_links path with ⟨inner, rfl, around⟩ | ⟨f, before, after⟩
  · exact absurd around (away inner root)
  · exact ⟨f, ⟨r, root, before⟩, ⟨_, rfl, after⟩⟩

/-! ## What becomes of the others -/

namespace Confined

/-- In the store on which someone starts, what is out of reach is as it is. -/
theorem of_roots (s : Store) (roots : Thing → Prop) (globals : roots (.scope globalScope)) :
    s.Confined (fun x => ¬ s.Contains x ∨ s.Reaches roots x) s := by
  have closed {x y : Thing} (h : ¬ s.Contains x ∨ s.Reaches roots x) (link : s.Links x y) :
      ¬ s.Contains y ∨ s.Reaches roots y := by
    rcases h with absent | ⟨r, root, path⟩
    · exact absurd link.contains absent
    · exact .inr ⟨r, root, path.tail link⟩
  refine ⟨fun _ h => .inl h, .inr ⟨_, globals, .refl⟩, fun id scope hs own => ⟨fun outer parent => ?_, fun n v hv => ?_⟩,
    fun id f hf own => closed own (.closure hf), fun id cls hc own => ?_, fun id object ho own => ?_,
    fun x _ => s.agrees_refl x⟩
  · exact closed own (.enclosing (Option.bind_eq_some_iff.2 ⟨scope, hs, parent⟩))
  · exact Value.all_iff.2 fun x hx => closed own (.bound (Option.bind_eq_some_iff.2 ⟨scope, hs, hv⟩) hx)
  · exact ⟨fun parent hp => closed own (.superclass hc hp), fun n f hf => closed own (.method hc hf)⟩
  · exact ⟨closed own (.cls ho), fun n v hv => Value.all_iff.2 fun x hx => closed own (.field ho hv hx)⟩

variable (h : Confined p old s)
include h

theorem contains (other : ¬ p x) : s.Contains x := Classical.not_not.1 fun absent => other (h.young x absent)

theorem found (link : s.Links x y) (own : p x) : p y := by
  cases link with
  | enclosing link =>
    obtain ⟨scope, hs, parent⟩ := Option.bind_eq_some_iff.1 link
    exact (h.scopes _ scope hs own).1 _ parent
  | bound hv hx =>
    obtain ⟨scope, hs, hv⟩ := Option.bind_eq_some_iff.1 hv
    exact Value.all_iff.1 ((h.scopes _ scope hs own).2 _ _ hv) _ hx
  | closure hf => exact h.closures _ _ hf own
  | method hc hf => exact (h.classes _ _ hc own).2 _ _ hf
  | superclass hc hp => exact (h.classes _ _ hc own).1 _ hp
  | cls ho => exact (h.instances _ _ ho own).1
  | field ho hv hx => exact Value.all_iff.1 ((h.instances _ _ ho own).2 _ _ hv) _ hx

theorem define (own : p (.scope id)) (hv : v.All p) (name : String) : Confined p old (s.define id name v) where
  young x absent := h.young x fun there => absent ((ages_define s id name v).contains there)
  globals := h.globals
  scopes i scope hs hi := by
    obtain ⟨before, hb, parent, same | set⟩ := getElem?_define hs
    · rw [parent, same]
      exact h.scopes i before hb hi
    · rw [parent, set]
      exact ⟨(h.scopes i before hb hi).1, (h.scopes i before hb hi).2.set name hv⟩
  closures := h.closures
  classes := h.classes
  instances := h.instances
  same x other := by
    refine (h.same x other).trans ?_
    cases x with
    | scope i =>
      have ne : id ≠ i := by
        rintro rfl
        exact other own
      show (s.scopes.modify id _)[i]? = _
      rw [Array.getElem?_modify, if_neg ne]
    | closure _ | cls _ | object _ => rfl

/-- What is not one's own was there, and stays as it was when something is added. -/
theorem same_of_push (pushed : ∀ x, s.Contains x → s.Agrees s' x) (x : Thing) (other : ¬ p x) : old.Agrees s' x :=
  (h.same x other).trans (pushed x (h.contains other))

theorem addScope {outer : ScopeId} (own : p (.scope outer)) (hv : vars.All p) :
    Confined p old (s.addScope ⟨some outer, vars⟩) where
  young x absent := h.young x fun there => absent ((ages_addScope s _).contains there)
  globals := h.globals
  scopes i scope hs hi := by
    rcases of_getElem?_push hs with ⟨rfl, rfl⟩ | hs
    · refine ⟨?_, hv⟩
      rintro _ ⟨⟩
      exact own
    · exact h.scopes i scope hs hi
  closures := h.closures
  classes := h.classes
  instances := h.instances
  same := h.same_of_push fun x there => by
    cases x with
    | scope i => exact getElem?_push_of_lt there _
    | closure _ | cls _ | object _ => rfl

theorem addClosure {f : Closure} (own : p (.scope f.scope)) : Confined p old (s.addClosure f) where
  young x absent := h.young x fun there => absent ((ages_addClosure s f).contains there)
  globals := h.globals
  scopes := h.scopes
  closures i g hg hi := by
    rcases of_getElem?_push hg with ⟨rfl, rfl⟩ | hg
    · exact own
    · exact h.closures i g hg hi
  classes := h.classes
  instances := h.instances
  same := h.same_of_push fun x there => by
    cases x with
    | closure i => exact getElem?_push_of_lt there _
    | scope _ | cls _ | object _ => rfl

theorem addClass {cls : Class} (parent : ∀ parent ∈ cls.superclass, p (.cls parent))
    (methods : ∀ name f, cls.methods.get? name = some f → p (.closure f)) : Confined p old (s.addClass cls) where
  young x absent := h.young x fun there => absent ((ages_addClass s cls).contains there)
  globals := h.globals
  scopes := h.scopes
  closures := h.closures
  classes i c hc hi := by
    rcases of_getElem?_push hc with ⟨rfl, rfl⟩ | hc
    · exact ⟨parent, methods⟩
    · exact h.classes i c hc hi
  instances := h.instances
  same := h.same_of_push fun x there => by
    cases x with
    | cls i => exact getElem?_push_of_lt there _
    | scope _ | closure _ | object _ => rfl

theorem addInstance {cls : ClassId} (own : p (.cls cls)) : Confined p old (s.addInstance ⟨cls, .empty⟩) where
  young x absent := h.young x fun there => absent ((ages_addInstance s _).contains there)
  globals := h.globals
  scopes := h.scopes
  closures := h.closures
  classes := h.classes
  instances i object ho hi := by
    rcases of_getElem?_push ho with ⟨rfl, rfl⟩ | ho
    · exact ⟨own, Bindings.all_empty p⟩
    · exact h.instances i object ho hi
  same := h.same_of_push fun x there => by
    cases x with
    | object i => exact getElem?_push_of_lt there _
    | scope _ | closure _ | cls _ => rfl

theorem setField (own : p (.object id)) (hv : v.All p) (name : String) : Confined p old (s.setField id name v) where
  young x absent := h.young x fun there => absent ((ages_setField s id name v).contains there)
  globals := h.globals
  scopes := h.scopes
  closures := h.closures
  classes := h.classes
  instances i object ho hi := by
    obtain ⟨before, hb, cls, same | set⟩ := getElem?_setField ho
    · rw [cls, same]
      exact h.instances i before hb hi
    · rw [cls, set]
      exact ⟨(h.instances i before hb hi).1, (h.instances i before hb hi).2.set name hv⟩
  same x other := by
    refine (h.same x other).trans ?_
    cases x with
    | object i =>
      have ne : id ≠ i := by
        rintro rfl
        exact other own
      show (s.instances.modify id _)[i]? = _
      rw [Array.getElem?_modify, if_neg ne]
    | scope _ | closure _ | cls _ => rfl

end Confined

/-- Who has some things in hand leaves the others as they were, whatever is done. -/
def confinement (p : Thing → Prop) (old : Store) : Upkeep where
  order := Confined p old
  fit _ := p
  later _ _ := True
  refl _ := trivial
  trans _ _ := trivial
  stays _ own := own
  globals h := h.globals
  found h own link := h.found link own
  define name h own hv := ⟨trivial, h.define own hv name⟩
  addScope {s _ _} h own hv := ⟨trivial, h.addScope own hv, h.young (.scope s.nextScope) (Nat.lt_irrefl _)⟩
  addClosure {s _} h own := ⟨trivial, h.addClosure own, h.young (.closure s.nextClosure) (Nat.lt_irrefl _)⟩
  addClass {s _} h parent methods :=
    ⟨trivial, h.addClass parent fun name f hf => (methods name f hf).1, h.young (.cls s.nextClass) (Nat.lt_irrefl _)⟩
  addInstance {s _} h own := ⟨trivial, h.addInstance own, h.young (.object s.nextInstance) (Nat.lt_irrefl _)⟩
  setField name h own hv := ⟨trivial, h.setField own hv name⟩

end Store

end Lox
