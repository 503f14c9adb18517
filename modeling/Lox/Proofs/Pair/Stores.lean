/-
The operations of two stores that belong together. What is done on both sides keeps variables that belong together
equal; what is done on one side alone must not touch variables that belong to any on the other. Whatever is done, ties
of older scopes stay, unless a loop variable is handed on.
-/
import Lox.Proofs.Pair.Sides

namespace Lox

namespace Sides

variable {p : Pairing} {s s' : Sides} {since : ScopeId} {links : List Link} {i i' j j' : ScopeId} {n n' : String}

/-! ## Scopes and variables -/

/-- What stays true if only scopes change. -/
theorem Sound.rescope (h : Sound p s) {tie : ScopeId → Option (ScopeId × Tie)} {scopes scopes' : Array Scope}
    (keeps : Keeps s ⟨tie, { s.left with scopes := scopes }, { s.right with scopes := scopes' }⟩)
    (ordered : Ordered ⟨tie, { s.left with scopes := scopes }, { s.right with scopes := scopes' }⟩)
    (values : ∀ i i' n n',
      Shares p ⟨tie, { s.left with scopes := scopes }, { s.right with scopes := scopes' }⟩ i i' n n' →
        Store.valueIn? { s.right with scopes := scopes' } i' n' = Store.valueIn? { s.left with scopes := scopes } i n ∧
          ∀ v, Store.valueIn? { s.left with scopes := scopes } i n = some v → Holds p s v) :
    Sound p ⟨tie, { s.left with scopes := scopes }, { s.right with scopes := scopes' }⟩ := by
  refine ⟨ordered, fun i i' n n' hs => ?_, h.closures, h.classes, h.instances,
    fun id o ho n v hv => keeps.holds (h.fields id o ho n v hv), fun id cls hc n m hm => ?_⟩
  · obtain ⟨same, holds⟩ := values i i' n n' hs
    exact ⟨same, fun v hv => keeps.holds (holds v hv)⟩
  · obtain ⟨f, f', hf, hf', method⟩ := h.methods id cls hc n m hm
    exact ⟨f, f', hf, hf', keeps.method method⟩

/-- Variables that belong together get a value on both sides. -/
theorem Sound.define (h : Sound p s) (hs : Shares p s i i' n n') {v : Value} (hv : Holds p s v) :
    Grows s ⟨s.tie, s.left.define i n v, s.right.define i' n' v⟩ ∧
      Sound p ⟨s.tie, s.left.define i n v, s.right.define i' n' v⟩ := by
  obtain ⟨lt, lt'⟩ := h.shares_lt hs
  have grows : Grows s ⟨s.tie, s.left.define i n v, s.right.define i' n' v⟩ :=
    ⟨fun _ _ h => h, fun _ _ h => h, Store.later_define lt n v, Store.later_define lt' n' v⟩
  refine ⟨grows, h.rescope grows.keeps ⟨?_, ?_, ?_, h.single⟩ fun k k' m m' hk => ?_⟩
  · exact ⟨Nat.lt_of_lt_of_le h.start.1 grows.left.size, Nat.lt_of_lt_of_le h.start.2 grows.right.size⟩
  · exact ⟨(Store.parent?_define _ _ _ _ _).trans h.outermost.1, (Store.parent?_define _ _ _ _ _).trans h.outermost.2⟩
  · intro k k' t hk
    have := h.tied k k' t hk
    exact ⟨⟨this.1.1, Nat.lt_of_lt_of_le this.1.2 grows.left.size⟩, this.2.1,
      Nat.lt_of_lt_of_le this.2.2 grows.right.size⟩
  · show (s.right.define i' n' v).valueIn? k' m' = (s.left.define i n v).valueIn? k m ∧
      ∀ x, (s.left.define i n v).valueIn? k m = some x → Holds p s x
    have hk : Shares p s k k' m m' := hk
    rw [Store.valueIn?_define _ _ _ _ _ _ lt, Store.valueIn?_define _ _ _ _ _ _ lt']
    simp only [h.shares_eq_iff hs hk]
    split
    · refine ⟨rfl, fun x hx => ?_⟩
      cases hx
      exact hv
    · exact h.values k k' m m' hk

/-- A variable on the left that belongs to none on the right gets a value. -/
theorem Sound.defineLeft (h : Sound p s) (lt : i < s.left.scopes.size) (alone : ∀ i' n', ¬ Shares p s i i' n n')
    (v : Value) :
    Grows s ⟨s.tie, s.left.define i n v, s.right⟩ ∧ Sound p ⟨s.tie, s.left.define i n v, s.right⟩ := by
  have grows : Grows s ⟨s.tie, s.left.define i n v, s.right⟩ :=
    ⟨fun _ _ h => h, fun _ _ h => h, Store.later_define lt n v, .refl _⟩
  refine ⟨grows, h.rescope grows.keeps ⟨?_, ?_, ?_, h.single⟩ fun k k' m m' hk => ?_⟩
  · exact ⟨Nat.lt_of_lt_of_le h.start.1 grows.left.size, h.start.2⟩
  · exact ⟨(Store.parent?_define _ _ _ _ _).trans h.outermost.1, h.outermost.2⟩
  · intro k k' t hk
    have := h.tied k k' t hk
    exact ⟨⟨this.1.1, Nat.lt_of_lt_of_le this.1.2 grows.left.size⟩, this.2⟩
  · show s.right.valueIn? k' m' = (s.left.define i n v).valueIn? k m ∧
      ∀ x, (s.left.define i n v).valueIn? k m = some x → Holds p s x
    have hk : Shares p s k k' m m' := hk
    rw [Store.valueIn?_define _ _ _ _ _ _ lt, if_neg]
    · exact h.values k k' m m' hk
    · rintro ⟨rfl, rfl⟩
      exact alone _ _ hk

/-- A new scope on each side, and how the two are tied. -/
def openScope (s : Sides) (tie : Tie) (scope scope' : Scope) : Sides where
  tie i := if i = s.left.nextScope then some (s.right.nextScope, tie) else s.tie i
  left := s.left.addScope scope
  right := s.right.addScope scope'

theorem openScope_tie_new (s : Sides) (tie : Tie) (scope scope' : Scope) :
    (s.openScope tie scope scope').tie s.left.nextScope = some (s.right.nextScope, tie) := if_pos rfl

theorem openScope_tie_old (s : Sides) (tie : Tie) (scope scope' : Scope) (ne : i ≠ s.left.nextScope) :
    (s.openScope tie scope scope').tie i = s.tie i := if_neg ne

/-- A scope that is not there is not tied. -/
theorem Ordered.tie_eq_none (h : Ordered s) (old : s.left.scopes.size ≤ i) : s.tie i = none := by
  cases ht : s.tie i with
  | none => rfl
  | some x => exact absurd (h.tied i x.1 x.2 ht).1.2 (Nat.not_lt_of_le old)

theorem Ordered.grows_openScope (h : Ordered s) (tie : Tie) (scope scope' : Scope) :
    Grows s (s.openScope tie scope scope') := by
  refine ⟨fun i x hx => ?_, fun i lt hx => ?_, Store.later_addScope _ _, Store.later_addScope _ _⟩
  · rw [openScope_tie_old, hx]
    rintro rfl
    cases (h.tie_eq_none (Nat.le_refl s.left.scopes.size)).symm.trans hx
  · rw [openScope_tie_old _ _ _ _ (Nat.ne_of_lt lt), hx]

/-- New scopes that are tied have the same values under names that belong together. -/
theorem Sound.openScope (h : Sound p s) (tie : Tie) (outer outer' : ScopeId) (vars vars' : Bindings Value)
    (values : ∀ n n', tie.Names p.change n n' →
      vars'.get? n' = vars.get? n ∧ ∀ v, vars.get? n = some v → Holds p s v) :
    Sound p (s.openScope tie ⟨some outer, vars⟩ ⟨some outer', vars'⟩) := by
  have grows := h.grows_openScope tie ⟨some outer, vars⟩ ⟨some outer', vars'⟩
  -- what is tied now is the new scopes, or it was tied before
  have old : ∀ i i' t, (s.openScope tie ⟨some outer, vars⟩ ⟨some outer', vars'⟩).tie i = some (i', t) →
      i = s.left.nextScope ∧ i' = s.right.nextScope ∧ t = tie ∨
        i ≠ s.left.nextScope ∧ i' ≠ s.right.nextScope ∧ s.tie i = some (i', t) := by
    intro i i' t ht
    by_cases hi : i = s.left.nextScope
    · rw [hi, openScope_tie_new] at ht
      cases ht
      exact .inl ⟨hi, rfl, rfl⟩
    · rw [openScope_tie_old _ _ _ _ hi] at ht
      exact .inr ⟨hi, Nat.ne_of_lt (h.tied i i' t ht).2.2, ht⟩
  have start : Store.globalScope ≠ s.left.nextScope := Nat.ne_of_lt h.start.1
  have start' : Store.globalScope ≠ s.right.nextScope := Nat.ne_of_lt h.start.2
  refine h.rescope grows.keeps ⟨?_, ?_, ?_, ?_⟩ fun i i' n n' hs => ?_
  · exact ⟨Nat.lt_of_lt_of_le h.start.1 grows.left.size, Nat.lt_of_lt_of_le h.start.2 grows.right.size⟩
  · constructor
    · exact ((Store.parent?_addScope _ _ _).trans (if_neg start)).trans h.outermost.1
    · exact ((Store.parent?_addScope _ _ _).trans (if_neg start')).trans h.outermost.2
  · intro i i' t ht
    show (0 < i ∧ i < (s.left.addScope _).scopes.size) ∧ 0 < i' ∧ i' < (s.right.addScope _).scopes.size
    rw [Store.scopes_size_addScope, Store.scopes_size_addScope]
    rcases old i i' t ht with ⟨rfl, rfl, -⟩ | ⟨-, -, ht⟩
    · exact ⟨⟨h.start.1, Nat.lt_succ_self _⟩, h.start.2, Nat.lt_succ_self _⟩
    · obtain ⟨⟨gt, lt⟩, gt', lt'⟩ := h.tied i i' t ht
      exact ⟨⟨gt, Nat.lt_succ_of_lt lt⟩, gt', Nat.lt_succ_of_lt lt'⟩
  · intro i j i' t u ht hu
    rcases old i i' t ht with ⟨rfl, rfl, -⟩ | ⟨-, ne, ht⟩
    · rcases old j _ u hu with ⟨rfl, -, -⟩ | ⟨-, ne, -⟩
      · rfl
      · exact absurd rfl ne
    · rcases old j _ u hu with ⟨-, rfl, -⟩ | ⟨-, -, hu⟩
      · exact absurd rfl ne
      · exact h.single i j i' t u ht hu
  · show (s.right.addScope _).valueIn? i' n' = (s.left.addScope _).valueIn? i n ∧
      ∀ v, (s.left.addScope _).valueIn? i n = some v → Holds p s v
    rw [Store.valueIn?_addScope, Store.valueIn?_addScope]
    rcases hs with ⟨rfl, rfl, rfl⟩ | ⟨t, ht, names⟩
    · rw [if_neg start, if_neg start']
      exact h.values _ _ _ _ (.inl ⟨rfl, rfl, rfl⟩)
    · rcases old i i' t ht with ⟨rfl, rfl, rfl⟩ | ⟨ne, ne', ht⟩
      · rw [if_pos rfl, if_pos rfl]
        exact values n n' names
      · rw [if_neg ne, if_neg ne']
        exact h.values _ _ _ _ (.inr ⟨t, ht, names⟩)

/-- The new scopes have one link more. -/
theorem Stands.openScope (hs : Stands s since links i i') (ordered : Ordered s) (tie : Tie)
    (young : since ≤ s.left.scopes.size) (vars vars' : Bindings Value) :
    Stands (s.openScope tie ⟨some i, vars⟩ ⟨some i', vars'⟩) since (.scope tie :: links) s.left.nextScope
      s.right.nextScope := by
  refine .scope (if_pos rfl) (.inr young) (ordered.stands_lt hs).1 ?_ ?_ ((ordered.grows_openScope tie _ _).stands hs)
  · exact (Store.parent?_addScope _ _ _).trans (if_pos rfl)
  · exact (Store.parent?_addScope _ _ _).trans (if_pos rfl)

/-- A new scope on the left that is not tied. -/
theorem Sound.addLeft (h : Sound p s) (outer : ScopeId) (vars : Bindings Value) :
    Grows s ⟨s.tie, s.left.addScope ⟨some outer, vars⟩, s.right⟩ ∧
      Sound p ⟨s.tie, s.left.addScope ⟨some outer, vars⟩, s.right⟩ := by
  have grows : Grows s ⟨s.tie, s.left.addScope ⟨some outer, vars⟩, s.right⟩ :=
    ⟨fun _ _ h => h, fun _ _ h => h, Store.later_addScope _ _, .refl _⟩
  refine ⟨grows, h.rescope grows.keeps ⟨?_, ?_, ?_, h.single⟩ fun k k' m m' hk => ?_⟩
  · exact ⟨Nat.lt_of_lt_of_le h.start.1 grows.left.size, h.start.2⟩
  · exact ⟨((Store.parent?_addScope _ _ _).trans (if_neg (Nat.ne_of_lt h.start.1))).trans h.outermost.1, h.outermost.2⟩
  · intro k k' t hk
    have := h.tied k k' t hk
    exact ⟨⟨this.1.1, Nat.lt_of_lt_of_le this.1.2 grows.left.size⟩, this.2⟩
  · show s.right.valueIn? k' m' = (s.left.addScope _).valueIn? k m ∧
      ∀ v, (s.left.addScope _).valueIn? k m = some v → Holds p s v
    have hk : Shares p s k k' m m' := hk
    have ne : k ≠ s.left.nextScope := Nat.ne_of_lt (h.shares_lt hk).1
    rw [Store.valueIn?_addScope, if_neg ne]
    exact h.values k k' m m' hk

/-- A new scope on the right that is not tied. -/
theorem Sound.addRight (h : Sound p s) (outer : ScopeId) (vars : Bindings Value) :
    Grows s ⟨s.tie, s.left, s.right.addScope ⟨some outer, vars⟩⟩ ∧
      Sound p ⟨s.tie, s.left, s.right.addScope ⟨some outer, vars⟩⟩ := by
  have grows : Grows s ⟨s.tie, s.left, s.right.addScope ⟨some outer, vars⟩⟩ :=
    ⟨fun _ _ h => h, fun _ _ h => h, .refl _, Store.later_addScope _ _⟩
  refine ⟨grows, h.rescope grows.keeps ⟨?_, ?_, ?_, h.single⟩ fun k k' m m' hk => ?_⟩
  · exact ⟨h.start.1, Nat.lt_of_lt_of_le h.start.2 grows.right.size⟩
  · exact ⟨h.outermost.1, ((Store.parent?_addScope _ _ _).trans (if_neg (Nat.ne_of_lt h.start.2))).trans h.outermost.2⟩
  · intro k k' t hk
    have := h.tied k k' t hk
    exact ⟨this.1, this.2.1, Nat.lt_of_lt_of_le this.2.2 grows.right.size⟩
  · show (s.right.addScope _).valueIn? k' m' = s.left.valueIn? k m ∧ ∀ v, s.left.valueIn? k m = some v → Holds p s v
    have hk : Shares p s k k' m m' := hk
    have ne : k' ≠ s.right.nextScope := Nat.ne_of_lt (h.shares_lt hk).2
    rw [Store.valueIn?_addScope, if_neg ne]
    exact h.values k k' m m' hk

/-! ## Handing on a loop variable -/

/-- The tie of the scope `i` is handed on to the scope `j`. -/
def hand (s : Sides) (i j : ScopeId) : Sides :=
  { s with tie := fun k => if k = j then s.tie i else if k = i then none else s.tie k }

theorem hand_tie_to (s : Sides) (i j : ScopeId) : (s.hand i j).tie j = s.tie i := if_pos rfl

theorem hand_tie_from (s : Sides) (ne : i ≠ j) : (s.hand i j).tie i = none := (if_neg ne).trans (if_pos rfl)

theorem hand_tie_other (s : Sides) {k : ScopeId} (ni : k ≠ i) (nj : k ≠ j) : (s.hand i j).tie k = s.tie k :=
  (if_neg nj).trans (if_neg ni)

/-- Scopes from one outwards do not change when a tie is handed on between scopes further in. -/
theorem Stands.hand (h : Stands s since links i i') (hj : i < j) {k : ScopeId} (hk : i < k) :
    Stands (s.hand j k) since links i i' := by
  induction h with
  | globals => exact .globals
  | scope tied young outward outer outer' _ ih =>
    refine .scope ?_ young outward outer outer' (ih (Nat.lt_trans outward hj) (Nat.lt_trans outward hk))
    rw [hand_tie_other s (Nat.ne_of_lt hj) (Nat.ne_of_lt hk), tied]
  | pass tied outward outer inner outer' _ ih =>
    refine .pass ?_ outward outer inner outer' (ih (Nat.lt_trans outward hj) (Nat.lt_trans outward hk))
    rw [hand_tie_other s (Nat.ne_of_lt hj) (Nat.ne_of_lt hk), tied]

/-- What is handed on can be handed back. -/
theorem hand_hand (s : Sides) (ne : i ≠ j) (h : s.tie j = none) : (s.hand i j).hand j i = s := by
  have same (k : ScopeId) : ((s.hand i j).hand j i).tie k = s.tie k := by
    by_cases hi : k = i
    · rw [hi, hand_tie_to, hand_tie_to]
    · by_cases hj : k = j
      · rw [hj, hand_tie_from _ (Ne.symm ne), h]
      · rw [hand_tie_other _ hj hi, hand_tie_other _ hi hj]
  exact congrArg (fun tie => Sides.mk tie s.left s.right) (funext same)

/-- Stores that grow also do after a tie is handed on. -/
theorem Grows.hand (h : Grows s s') (hi : i < s.left.scopes.size) : Grows (s.hand i j) (s'.hand i j) := by
  have same : s'.tie i = s.tie i := by
    cases ht : s.tie i with
    | none => exact h.untied i hi ht
    | some x => exact h.tied i x ht
  refine ⟨fun k x hx => ?_, fun k lt hx => ?_, h.left, h.right⟩
  · by_cases hj : k = j
    · rw [hj, hand_tie_to] at hx ⊢
      rw [same, hx]
    · by_cases hi : k = i
      · rw [hi, hand_tie_from _ (hi ▸ hj)] at hx
        cases hx
      · rw [hand_tie_other _ hi hj] at hx ⊢
        exact h.tied k x hx
  · by_cases hj : k = j
    · rw [hj, hand_tie_to] at hx ⊢
      rw [same, hx]
    · by_cases hi : k = i
      · rw [hi, hand_tie_from _ (hi ▸ hj)]
      · rw [hand_tie_other _ hi hj] at hx ⊢
        exact h.untied k lt hx

theorem keeps_hand {name : String} (ht : s.tie i = some (i', .only name)) (hj : s.tie j = none) :
    Keeps s (s.hand i j) := by
  refine ⟨fun k k' t plain hk => ?_, .refl _, .refl _⟩
  rw [hand_tie_other, hk]
  · rintro rfl
    rw [ht] at hk
    cases hk
    exact plain
  · rintro rfl
    rw [hj] at hk
    cases hk

/-- The variable that is handed on must have the same value in both scopes. -/
theorem Sound.hand (h : Sound p s) (name : String) (ht : s.tie i = some (i', .only name)) (hj : s.tie j = none)
    (inside : 0 < j ∧ j < s.left.scopes.size) (same : s.left.valueIn? j name = s.left.valueIn? i name) :
    Sound p (s.hand i j) := by
  -- what is tied afterwards is the new holder, or it was tied before
  have old : ∀ k k' t, (s.hand i j).tie k = some (k', t) →
      k = j ∧ k' = i' ∧ t = .only name ∨ k ≠ j ∧ k ≠ i ∧ s.tie k = some (k', t) := by
    intro k k' t hk
    by_cases nj : k = j
    · rw [nj, hand_tie_to, ht] at hk
      cases hk
      exact .inl ⟨nj, rfl, rfl⟩
    · by_cases ni : k = i
      · rw [ni, hand_tie_from s (ni ▸ nj)] at hk
        cases hk
      · rw [hand_tie_other s ni nj] at hk
        exact .inr ⟨nj, ni, hk⟩
  have bound := h.tied i i' _ ht
  refine h.rescope (keeps_hand ht hj) ⟨h.start, h.outermost, fun k k' t hk => ?_, fun k l k' t u hk hl => ?_⟩
    fun k k' n n' hk => ?_
  · rcases old k k' t hk with ⟨rfl, rfl, -⟩ | ⟨-, -, hk⟩
    · exact ⟨inside, bound.2⟩
    · exact h.tied k k' t hk
  · rcases old k k' t hk with ⟨rfl, rfl, -⟩ | ⟨-, ni, hk⟩
    · rcases old l _ u hl with ⟨rfl, -, -⟩ | ⟨-, ni, hl⟩
      · rfl
      · exact absurd (h.single _ _ _ _ _ hl ht) ni
    · rcases old l _ u hl with ⟨-, rfl, -⟩ | ⟨-, -, hl⟩
      · exact absurd (h.single _ _ _ _ _ hk ht) ni
      · exact h.single k l k' t u hk hl
  · show s.right.valueIn? k' n' = s.left.valueIn? k n ∧ ∀ v, s.left.valueIn? k n = some v → Holds p s v
    rcases hk with hk | ⟨t, hk, names⟩
    · exact h.values _ _ _ _ (.inl hk)
    · rcases old k k' t hk with ⟨rfl, rfl, rfl⟩ | ⟨-, -, hk⟩
      · obtain ⟨rfl, rfl⟩ := names
        rw [same]
        exact h.values _ _ _ _ (.inr ⟨_, ht, rfl, rfl⟩)
      · exact h.values _ _ _ _ (.inr ⟨t, hk, names⟩)

/-! ## Functions, classes and instances -/

/-- What stays true if the scopes stay, and the functions too. -/
theorem Sound.sameScopes (h : Sound p s) {t t' : Store} (scopes : t.scopes = s.left.scopes)
    (scopes' : t'.scopes = s.right.scopes)
    (closures : ∀ (id : Nat) (f : Closure), s.left.closures[id]? = some f → t.closures[id]? = some f)
    (closures' : ∀ (id : Nat) (f : Closure), s.right.closures[id]? = some f → t'.closures[id]? = some f)
    (many : t'.closures.size = t.closures.size) (classes : t'.classes = t.classes)
    (instances : t'.instances = t.instances)
    (fields : ∀ (id : Nat) (o : Instance), t.instances[id]? = some o → ∀ n v, o.fields.get? n = some v → Holds p s v)
    (methods : ∀ (id : Nat) (cls : Class), t.classes[id]? = some cls → ∀ n m, cls.methods.get? n = some m →
      ∃ f f', s.left.closures[m]? = some f ∧ s.right.closures[m]? = some f' ∧ Method p s f f') :
    Grows s ⟨s.tie, t, t'⟩ ∧ Sound p ⟨s.tie, t, t'⟩ := by
  have grows : Grows s ⟨s.tie, t, t'⟩ := ⟨fun _ _ h => h, fun _ _ h => h, Store.later_of_scopes_eq scopes closures,
    Store.later_of_scopes_eq scopes' closures'⟩
  refine ⟨grows, ⟨?_, ?_, ?_, h.single⟩, fun i i' n n' hs => ?_, many, classes, instances,
    fun id o ho n v hv => grows.keeps.holds (fields id o ho n v hv), fun id cls hc n m hm => ?_⟩
  · rw [scopes, scopes']
    exact h.start
  · rw [Store.parent?_congr scopes, Store.parent?_congr scopes']
    exact h.outermost
  · rw [scopes, scopes']
    exact h.tied
  · rw [Store.valueIn?_congr scopes, Store.valueIn?_congr scopes']
    obtain ⟨same, holds⟩ := h.values i i' n n' hs
    exact ⟨same, fun v hv => grows.keeps.holds (holds v hv)⟩
  · obtain ⟨f, f', hf, hf', method⟩ := methods id cls hc n m hm
    exact ⟨f, f', closures _ _ hf, closures' _ _ hf', grows.keeps.method method⟩

theorem closures_addClosure {s : Store} {f g : Closure} {id : Nat} (h : s.closures[id]? = some f) :
    (s.addClosure g).closures[id]? = some f := by
  have lt := (Array.getElem?_eq_some_iff.1 h).1
  rw [Store.addClosure, Array.getElem?_push, if_neg (by omega), h]

theorem closures_nextClosure (s : Store) (f : Closure) : (s.addClosure f).closures[s.nextClosure]? = some f := by
  simp [Store.addClosure, Store.nextClosure]

theorem Sound.addClosure (h : Sound p s) (f f' : Closure) :
    Grows s ⟨s.tie, s.left.addClosure f, s.right.addClosure f'⟩ ∧
      Sound p ⟨s.tie, s.left.addClosure f, s.right.addClosure f'⟩ := by
  refine h.sameScopes rfl rfl (fun _ _ => closures_addClosure) (fun _ _ => closures_addClosure) ?_ h.classes
    h.instances h.fields h.methods
  rw [Store.addClosure, Store.addClosure, Array.size_push, Array.size_push, h.closures]

theorem Sound.addClass (h : Sound p s) (cls : Class)
    (methods : ∀ n m, cls.methods.get? n = some m →
      ∃ f f', s.left.closures[m]? = some f ∧ s.right.closures[m]? = some f' ∧ Method p s f f') :
    Grows s ⟨s.tie, s.left.addClass cls, s.right.addClass cls⟩ ∧
      Sound p ⟨s.tie, s.left.addClass cls, s.right.addClass cls⟩ := by
  refine h.sameScopes rfl rfl (fun _ _ h => h) (fun _ _ h => h) h.closures ?_ h.instances h.fields fun id other hc => ?_
  · rw [Store.addClass, Store.addClass, h.classes]
  · rw [Store.addClass, Array.getElem?_push] at hc
    split at hc
    · cases hc
      exact methods
    · exact h.methods id other hc

theorem Sound.addInstance (h : Sound p s) (cls : ClassId) :
    Grows s ⟨s.tie, s.left.addInstance ⟨cls, .empty⟩, s.right.addInstance ⟨cls, .empty⟩⟩ ∧
      Sound p ⟨s.tie, s.left.addInstance ⟨cls, .empty⟩, s.right.addInstance ⟨cls, .empty⟩⟩ := by
  refine h.sameScopes rfl rfl (fun _ _ h => h) (fun _ _ h => h) h.closures h.classes ?_ (fun id o ho n v hv => ?_)
    h.methods
  · rw [Store.addInstance, Store.addInstance, h.instances]
  · rw [Store.addInstance, Array.getElem?_push] at ho
    split at ho
    · cases ho
      cases hv
    · exact h.fields id o ho n v hv

theorem Sound.setField (h : Sound p s) (id : InstanceId) (name : String) {v : Value} (hv : Holds p s v) :
    Grows s ⟨s.tie, s.left.setField id name v, s.right.setField id name v⟩ ∧
      Sound p ⟨s.tie, s.left.setField id name v, s.right.setField id name v⟩ := by
  refine h.sameScopes rfl rfl (fun _ _ h => h) (fun _ _ h => h) h.closures h.classes ?_ (fun other o ho n x hx => ?_)
    h.methods
  · rw [Store.setField, Store.setField, h.instances]
  · rw [Store.setField, Array.getElem?_modify] at ho
    split at ho
    · obtain ⟨old, hold, rfl⟩ := Option.map_eq_some_iff.1 ho
      rw [Bindings.get?_set] at hx
      split at hx
      · cases hx
        exact hv
      · exact h.fields other old hold n x hx
    · exact h.fields other o ho n x hx

end Sides

end Lox
