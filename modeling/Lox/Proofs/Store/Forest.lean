/-
Two ways to a variable. The search goes from scope to scope outwards up to the first that has a variable of the name;
whoever knows how many steps that is can go there at once. On every store that comes of new scopes and variables and of
assignments the two ways give the same and change the same, which is that one variable (`Forest.access_agrees`). Neither
of them makes a variable that was not there, and so many steps out no other scope is looked at than the one that is there.
-/
import Lox.Machine.Step
import Lox.Proofs.Store.Chain

namespace Lox

namespace Store

/-- The stores that come of new scopes, on their own or in others, of new variables and of assignments. -/
inductive Forest : Store → Prop
  | empty : Forest .empty
  | root {s : Store} (h : Forest s) : Forest (s.addScope ⟨none, .empty⟩)
  | child {s : Store} {id : ScopeId} (h : Forest s) (hid : id < s.scopes.size) : Forest (s.addScope ⟨some id, .empty⟩)
  | define {s : Store} {id : ScopeId} (h : Forest s) (hid : id < s.scopes.size) (name : String) (v : Value) :
    Forest (s.define id name v)
  | assign {s s' : Store} {id : ScopeId} {place : Place} {name : String} {v : Value} (h : Forest s)
    (written : s.write? id place name v = some s') : Forest s'

/-- Whether the nearest variable of a name, from a scope outwards, is so many steps out. -/
structure Nearest (s : Store) (id : ScopeId) (name : String) (d : Nat) (found : ScopeId) : Prop where
  reach : s.ancestor? id d = some found
  binds : s.binds found name = true
  least : ∀ k < d, ∀ i, s.ancestor? id k = some i → s.binds i name = false

/-- From a store to one in which one variable has another value, and nothing else is different. What is found under a
name is the value if it was this variable that was found, and else what it was before. -/
structure Sets (s s' : Store) (id : ScopeId) (name : String) (v : Value) : Prop where
  size : s'.scopes.size = s.scopes.size
  parent : ∀ i, s'.parent? i = s.parent? i
  value : ∀ i n, s'.valueIn? i n = if i = id ∧ n = name then some v else s.valueIn? i n
  others : s'.closures = s.closures ∧ s'.classes = s.classes ∧ s'.instances = s.instances
  found : ∀ i d, s.Nearest i name d id → s'.read? i .nearest name = some v
  kept : ∀ i n, (∀ d, n = name → ¬ s.Nearest i name d id) → s'.read? i .nearest n = s.read? i .nearest n

/-- Whether there is no variable of a name at a place, seen from a scope: it can be neither read nor given a value, and
who tries it there fails at the name and changes nothing. -/
structure Lacks (s : Store) (id : ScopeId) (place : Place) (name : String) : Prop where
  read : s.read? id place name = none
  write : ∀ v, s.write? id place name v = none
  fails : ∀ (m : Machine) (t : Token) (v : Value), m.store = s → m.scope = id → t.lexeme = name →
    m.giveVariable place t = m.fail (.undefinedVariable name) t ∧
      m.assignVariable place t v = m.fail (.undefinedVariable name) t

variable {s s' : Store} {id found : ScopeId} {name : String} {d : Nat} {place : Place}

/-! ## The nearest variable -/

theorem nearest_zero_iff : s.Nearest id name 0 found ↔ s.binds id name = true ∧ id = found := by
  constructor
  · rintro ⟨reach, binds, -⟩
    cases reach
    exact ⟨binds, rfl⟩
  · rintro ⟨binds, rfl⟩
    exact ⟨rfl, binds, fun k hk => absurd hk (Nat.not_lt_zero k)⟩

theorem nearest_succ_iff : s.Nearest id name (d + 1) found ↔
    s.binds id name = false ∧ ∃ outer, s.parent? id = some outer ∧ s.Nearest outer name d found := by
  constructor
  · rintro ⟨reach, binds, least⟩
    rw [ancestor?_succ] at reach
    obtain ⟨outer, link, reach⟩ := Option.bind_eq_some_iff.1 reach
    refine ⟨least 0 (Nat.succ_pos d) id rfl, outer, link, reach, binds, fun k hk i hi => ?_⟩
    refine least (k + 1) (Nat.succ_lt_succ hk) i ?_
    rw [ancestor?_succ, link]
    exact hi
  · rintro ⟨away, outer, link, reach, binds, least⟩
    refine ⟨?_, binds, fun k hk i hi => ?_⟩
    · rw [ancestor?_succ, link]
      exact reach
    · cases k with
      | zero =>
        cases hi
        exact away
      | succ k =>
        rw [ancestor?_succ, link] at hi
        exact least k (Nat.lt_of_succ_lt_succ hk) i hi

/-- The search comes to the nearest variable. -/
theorem holder?_eq_some_iff (outward : s.Outward) :
    s.holder? id name = some found ↔ ∃ d, s.Nearest id name d found := by
  induction id using Nat.strongRecOn with
  | _ id ih =>
    rw [holder?_eq outward]
    split
    · next here =>
      constructor
      · rintro ⟨⟩
        exact ⟨0, nearest_zero_iff.2 ⟨here, rfl⟩⟩
      · rintro ⟨_ | d, near⟩
        · rw [(nearest_zero_iff.1 near).2]
        · rw [(nearest_succ_iff.1 near).1] at here
          cases here
    · next away =>
      rw [Option.bind_eq_some_iff]
      constructor
      · rintro ⟨outer, link, found⟩
        obtain ⟨d, near⟩ := (ih outer (outward id outer link)).1 found
        exact ⟨d + 1, nearest_succ_iff.2 ⟨Bool.eq_false_iff.2 away, outer, link, near⟩⟩
      · rintro ⟨_ | d, near⟩
        · exact absurd (nearest_zero_iff.1 near).1 away
        · obtain ⟨-, outer, link, near⟩ := nearest_succ_iff.1 near
          exact ⟨outer, link, (ih outer (outward id outer link)).2 ⟨d, near⟩⟩

theorem Nearest.target?_nearest (h : s.Nearest id name d found) (outward : s.Outward) :
    s.target? id .nearest name = some found := (holder?_eq_some_iff outward).2 ⟨d, h⟩

theorem Nearest.target?_hops (h : s.Nearest id name d found) : s.target? id (.hops d) name = some found := by
  simp only [target?, h.reach, Option.filter, h.binds, if_true]

/-! ## What becomes of a store -/

theorem Outward.addRoot (h : s.Outward) (vars : Bindings Value) : (s.addScope ⟨none, vars⟩).Outward := by
  intro inner outer link
  rw [parent?_addScope] at link
  split at link
  · cases link
  · exact h inner outer link

theorem Forest.outward (h : s.Forest) : s.Outward := by
  induction h with
  | empty =>
    intro id outer link
    rw [parent?_eq_none _ _ (Nat.zero_le _)] at link
    cases link
  | root _ ih => exact ih.addRoot .empty
  | child _ hid ih => exact ih.addScope hid .empty
  | define _ _ name v ih => exact ih.define _ name v
  | assign _ written ih =>
    unfold write? at written
    split at written
    · cases written
      exact ih.define _ _ _
    · cases written

theorem binds_define_self (h : s.binds id name = true) (v : Value) (i : ScopeId) (n : String) :
    (s.define id name v).binds i n = s.binds i n := by
  rw [binds_define _ _ _ _ _ _ (lt_size_of_binds h)]
  by_cases same : i = id ∧ n = name
  · rw [same.1, same.2, h, Bool.or_true]
  · rw [decide_eq_false same, Bool.false_or]

/-- A new value does not change where the search for a variable ends. -/
theorem holder?_define (h : s.binds id name = true) (v : Value) (i : ScopeId) (n : String) :
    (s.define id name v).holder? i n = s.holder? i n := by
  have same (fuel : Nat) : (s.define id name v).holderFrom? n fuel = s.holderFrom? n fuel := by
    induction fuel with
    | zero => rfl
    | succ fuel ih =>
      funext i
      simp only [holderFrom?, binds_define_self h, parent?_define, ih]
  exact congrFun (same (i + 1)) i

theorem sets_define (outward : s.Outward) (h : s.binds found name = true) (v : Value) :
    s.Sets (s.define found name v) found name v := by
  have value := fun i n => valueIn?_define s i found name v n (lt_size_of_binds h)
  have read (i : ScopeId) (n : String) : (s.define found name v).read? i .nearest n =
      (s.holder? i n).bind fun id => if id = found ∧ n = name then some v else s.valueIn? id n := by
    show ((s.define found name v).holder? i n).bind _ = _
    rw [holder?_define h]
    congr 1
    funext id
    exact value id n
  refine ⟨scopes_size_define s found name v, fun i => parent?_define s i found name v, value, ⟨rfl, rfl, rfl⟩,
    fun i d near => ?_, fun i n other => ?_⟩
  · rw [read, (holder?_eq_some_iff outward).2 ⟨d, near⟩, Option.bind_some, if_pos ⟨rfl, rfl⟩]
  · rw [read]
    show _ = (s.holder? i n).bind fun id => s.valueIn? id n
    cases hf : s.holder? i n with
    | none => rfl
    | some id =>
      rw [Option.bind_some, Option.bind_some, if_neg]
      rintro ⟨rfl, rfl⟩
      obtain ⟨d, near⟩ := (holder?_eq_some_iff outward).1 hf
      exact other d rfl near

theorem lacks_of_target? (h : s.target? id place name = none) : s.Lacks id place name := by
  have read : s.read? id place name = none := by rw [read?, h, Option.bind_none]
  have write (v : Value) : s.write? id place name v = none := by simp only [write?, h]
  refine ⟨read, write, ?_⟩
  rintro m t v rfl rfl rfl
  simp only [Machine.giveVariable, Machine.assignVariable, read, write, and_self]

/-! ## Both ways -/

/-- On a forest of scopes the nearest variable of a name, which is so many steps out, is read by the search as it is from
there, and given a value by the search as it is from there, and that changes this variable and no other. Where there is none
the search fails. So many steps out only the scope counts that is there: where it has no variable of the name, or where there
is no scope, reading and assigning fail, whatever scopes further out have. -/
theorem Forest.access_agrees (forest : s.Forest) (id : ScopeId) (name : String) :
    (∀ d found, s.Nearest id name d found →
      (∃ v, s.valueIn? found name = some v ∧ s.read? id .nearest name = some v ∧ s.read? id (.hops d) name = some v) ∧
        ∀ v, ∃ s', s.write? id .nearest name v = some s' ∧ s.write? id (.hops d) name v = some s' ∧
          s.Sets s' found name v) ∧
      ((∀ d found, s.ancestor? id d = some found → s.binds found name = false) → s.Lacks id .nearest name) ∧
      ∀ d, (∀ found, s.ancestor? id d = some found → s.binds found name = false) → s.Lacks id (.hops d) name := by
  have outward := forest.outward
  refine ⟨fun d found near => ?_, fun nowhere => lacks_of_target? ?_, fun d away => lacks_of_target? ?_⟩
  · have search := near.target?_nearest outward
    have steps := near.target?_hops
    obtain ⟨v, hv⟩ := (binds_iff _ _ _).1 near.binds
    refine ⟨⟨v, hv, ?_, ?_⟩, fun v => ⟨_, ?_, ?_, sets_define outward near.binds v⟩⟩
    · rw [read?, search, Option.bind_some, hv]
    · rw [read?, steps, Option.bind_some, hv]
    · simp only [write?, search]
    · simp only [write?, steps]
  · refine Option.eq_none_iff_forall_ne_some.2 fun found hf => ?_
    obtain ⟨d, near⟩ := (holder?_eq_some_iff outward).1 hf
    have away := nowhere d found near.reach
    rw [near.binds] at away
    cases away
  · show (s.ancestor? id d).filter (s.binds · name) = none
    cases reach : s.ancestor? id d with
    | none => rfl
    | some found => rw [Option.filter_some, away found reach, if_neg Bool.false_ne_true]

/-- Two scopes in one have a variable that the scope around them has too. From the innermost scope, the nearest is one
step out; the other scope in the outermost keeps its variable, and the innermost scope has none. -/
theorem Forest.access_agrees_shadowed : ∃ s : Store, s.Forest ∧ s.Nearest 3 "x" 1 1 ∧
    (∃ s', s.write? 3 .nearest "x" .nil = some s' ∧ s.write? 3 (.hops 1) "x" .nil = some s' ∧ s.Sets s' 1 "x" .nil ∧
      s'.read? 2 .nearest "x" = some (.bool true)) ∧ s.Lacks 3 (.hops 0) "x" := by
  have forest := Forest.empty.root.define Nat.zero_lt_one "x" (.bool false)
  have forest := (forest.child Nat.zero_lt_one).define (Nat.lt_succ_self 1) "x" (.string "a")
  have forest := (forest.child Nat.zero_lt_two).define (Nat.lt_succ_self 2) "x" (.bool true)
  have forest := forest.child (Nat.one_lt_succ_succ 1)
  obtain ⟨s, forest, outer, empty, inner, other, kept⟩ : ∃ s : Store, s.Forest ∧ s.ancestor? 3 1 = some 1 ∧
      s.binds 3 "x" = false ∧ s.binds 1 "x" = true ∧ s.binds 2 "x" = true ∧
      s.read? 2 .nearest "x" = some (.bool true) := ⟨_, forest, rfl, rfl, rfl, rfl, rfl⟩
  obtain ⟨nearest, -, away⟩ := forest.access_agrees 3 "x"
  have near : s.Nearest 3 "x" 1 1 := by
    refine ⟨outer, inner, fun k hk i hi => ?_⟩
    obtain rfl : k = 0 := Nat.lt_one_iff.1 hk
    cases hi
    exact empty
  obtain ⟨s', search, steps, sets⟩ := (nearest 1 1 near).2 .nil
  refine ⟨s, forest, near, ⟨s', search, steps, sets, ?_⟩, away 0 fun found hf => ?_⟩
  · rw [sets.kept 2 "x", kept]
    rintro (_ | d) - far
    · cases far.reach
    · -- the variable of the other scope is nearer
      have nearer := far.least 0 (Nat.succ_pos d) 2 rfl
      rw [other] at nearer
      cases nearer
  · cases hf
    exact empty

end Store

end Lox
