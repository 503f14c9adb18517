/-
Parts that stay as they are are alike to themselves, and so are wholes in which one part has been exchanged for a part
that is alike to it.
-/
import Lox.Proofs.Pair.Alike
import Lox.Proofs.Tree.Swap

namespace Lox

variable {c : Change} {source : Manner} {links : List Link}

/-! ## What stays as it is -/

/-- Whether all scopes around are ones of the same names. -/
def AllSame (links : List Link) : Prop := ∀ link ∈ links, link = .scope .same

theorem AllSame.inner (h : AllSame links) : AllSame (.scope .same :: links) := List.forall_mem_cons.2 ⟨rfl, h⟩

theorem AllSame.plain (h : AllSame links) : ∀ link ∈ links, link.Plain := fun _ hl => h _ hl ▸ trivial

/-- Whether a manner asks nothing of uses that stay as they are, inside of links for which `P` holds. -/
structure Manner.Keeps (source : Manner) (c : Change) (P : List Link → Prop) : Prop where
  inner : ∀ {links}, P links → P (.scope .same :: links)
  use : ∀ {links id n}, P links → c.Allows n → source.use links id n n
  self : ∀ {links id}, P links → source.self links id
  super : ∀ {links id}, P links → source.super links id

/-- Whether the names of all variables within a part may stay as they are. -/
def Code.Allowed (c : Change) (code : Code) : Prop := ∀ x ∈ code.within, ∀ n ∈ x.named, c.Allows n

/-- Whether a part may stay as it is inside of these links. -/
structure Code.Stays (c : Change) (links : List Link) (code : Code) : Prop where
  formed : code.Formed
  allowed : code.Allowed c
  declares : ∀ n ∈ code.declared, Declares c links n n
  flat : (∀ link ∈ links, link.Plain) ∨ ∀ x ∈ code.within, ¬ x.Introduces

/-! ## Declared names -/

theorem Stmt.exists_named {n : String} : ∀ {s : Stmt}, n ∈ s.declared → ∃ x ∈ s.within, n ∈ x.named
  | .varDecl _ _, h | .funDecl _, h | .classDecl _ none _, h | .classDecl _ (some _) _, h =>
    ⟨_, List.mem_cons_self, h⟩
  | .ifElse _ yes none, h => by
    obtain ⟨x, hx, hn⟩ := Stmt.exists_named (s := yes) h
    exact ⟨x, .tail _ (List.mem_append_right _ hx), hn⟩
  | .ifElse _ yes (some no), h => by
    rcases List.mem_append.1 h with h | h
    · obtain ⟨x, hx, hn⟩ := Stmt.exists_named h
      exact ⟨x, .tail _ (List.mem_append_right _ (List.mem_append_left _ hx)), hn⟩
    · obtain ⟨x, hx, hn⟩ := Stmt.exists_named h
      exact ⟨x, .tail _ (List.mem_append_right _ (List.mem_append_right _ hx)), hn⟩
  | .whileDo _ body, h => by
    obtain ⟨x, hx, hn⟩ := Stmt.exists_named (s := body) h
    exact ⟨x, .tail _ (List.mem_append_right _ hx), hn⟩
  | .expression _, h | .print _, h | .block _, h | .ret _ _, h => absurd h List.not_mem_nil

theorem Stmt.exists_namedAll {n : String} :
    ∀ {ss : List Stmt}, n ∈ Stmt.declaredAll ss → ∃ x ∈ Stmt.withinAll ss, n ∈ x.named
  | _ :: _, h => by
    rcases List.mem_append.1 h with h | h
    · obtain ⟨x, hx, hn⟩ := Stmt.exists_named h
      exact ⟨x, List.mem_append_left _ hx, hn⟩
    · obtain ⟨x, hx, hn⟩ := Stmt.exists_namedAll h
      exact ⟨x, List.mem_append_right _ hx, hn⟩

/-- What a part declares, some part within it has as a name. -/
theorem Code.exists_named {n : String} {code : Code} (h : n ∈ code.declared) : ∃ x ∈ code.within, n ∈ x.named := by
  cases code with
  | stmt s => exact Stmt.exists_named h
  | stmts ss => exact Stmt.exists_namedAll h
  | expr _ | exprs _ | routine _ | methods _ => cases h

/-! ## Parts of what stays as it is -/

namespace Code

variable {e : Expr} {s t : Stmt} {ss : List Stmt} {r : Routine Stmt} {rs : List (Routine Stmt)} {code code' : Code}

theorem Allowed.mono (h : code.Allowed c) (within : ∀ x ∈ code'.within, x ∈ code.within) : code'.Allowed c :=
  fun x hx => h x (within x hx)

namespace Stays

/-- A part in the same scopes stays as it is. -/
theorem part (h : Stays c links code) (formed : code'.Formed) (within : ∀ x ∈ code'.within, x ∈ code.within)
    (declared : ∀ n ∈ code'.declared, n ∈ code.declared) : Stays c links code' where
  formed := formed
  allowed := h.allowed.mono within
  declares n hn := h.declares n (declared n hn)
  flat := h.flat.imp_right fun flat x hx => flat x (within x hx)

/-- A part in a scope of its own stays as it is. -/
theorem inside (h : Stays c links code) (formed : code'.Formed) (within : ∀ x ∈ code'.within, x ∈ code.within) :
    Stays c (.scope .same :: links) code' where
  formed := formed
  allowed := h.allowed.mono within
  declares n hn := by
    obtain ⟨x, hx, named⟩ := exists_named hn
    exact ⟨rfl, h.allowed x (within x hx) n named⟩
  flat := h.flat.imp (fun plain => List.forall_mem_cons.2 ⟨trivial, plain⟩) fun flat x hx => flat x (within x hx)

theorem block (h : Stays c links (.stmt (.block ss))) : Stays c (.scope .same :: links) (.stmts ss) :=
  h.inside h.formed fun _ hx => .tail _ hx

theorem first (h : Stays c links (.stmts (s :: ss))) : Stays c links (.stmt s) :=
  h.part h.formed.1 (fun _ hx => List.mem_append_left _ hx) fun _ hn => List.mem_append_left _ hn

theorem later (h : Stays c links (.stmts (s :: ss))) : Stays c links (.stmts ss) :=
  h.part h.formed.2 (fun _ hx => List.mem_append_right _ hx) fun _ hn => List.mem_append_right _ hn

theorem yes {no : Option Stmt} (h : Stays c links (.stmt (.ifElse e s no))) : Stays c links (.stmt s) := by
  cases no with
  | none => exact h.part h.formed.2.1 (fun _ hx => .tail _ (List.mem_append_right _ hx)) fun _ hn => hn
  | some no =>
    exact h.part h.formed.2.1.1 (fun _ hx => .tail _ (List.mem_append_right _ (List.mem_append_left _ hx)))
      fun _ hn => List.mem_append_left _ hn

theorem no (h : Stays c links (.stmt (.ifElse e s (some t)))) : Stays c links (.stmt t) :=
  h.part h.formed.2.2.1 (fun _ hx => .tail _ (List.mem_append_right _ (List.mem_append_right _ hx)))
    fun _ hn => List.mem_append_right _ hn

theorem repeated (h : Stays c links (.stmt (.whileDo e s))) : Stays c links (.stmt s) :=
  h.part h.formed.2.1 (fun _ hx => .tail _ (List.mem_append_right _ hx)) fun _ hn => hn

theorem funDecl (h : Stays c links (.stmt (.funDecl r))) : Stays c links (.routine r) :=
  h.part h.formed.2 (fun _ hx => .tail _ hx) fun _ hn => absurd hn List.not_mem_nil

theorem body {name : Token} {parameters : List Token} (h : Stays c links (.routine ⟨name, parameters, ss⟩)) :
    Stays c (.scope .same :: links) (.stmts ss) :=
  h.inside h.formed.2 fun _ hx => .tail _ hx

theorem method (h : Stays c links (.methods (r :: rs))) : Stays c links (.routine r) :=
  h.part h.formed.1 (fun _ hx => List.mem_append_left _ hx) fun _ hn => absurd hn List.not_mem_nil

theorem laterMethods (h : Stays c links (.methods (r :: rs))) : Stays c links (.methods rs) :=
  h.part h.formed.2 (fun _ hx => List.mem_append_right _ hx) fun _ hn => hn

theorem classDecl {name : Token} (h : Stays c links (.stmt (.classDecl name none rs))) :
    Stays c (.scope .same :: links) (.methods rs) :=
  h.inside h.formed.2 fun _ hx => .tail _ hx

theorem subclass {name : Token} (h : Stays c links (.stmt (.classDecl name (some e) rs))) :
    Stays c (.scope .same :: .scope .same :: links) (.methods rs) := by
  have inside : Stays c (.scope .same :: links) (.methods rs) :=
    h.inside h.formed.2.2 fun _ hx => .tail _ (List.mem_append_right _ hx)
  exact inside.inside inside.formed fun _ hx => hx

/-- Functions and classes stay as they are in plain scopes only. -/
theorem plain (h : Stays c links (.stmt s)) (introduces : (Code.stmt s).Introduces) : ∀ link ∈ links, link.Plain :=
  h.flat.resolve_right fun flat => flat _ s.mem_within introduces

end Stays

end Code

/-! ## Alike to itself -/

section

variable {P : List Link → Prop}

mutual

theorem Expr.alike_self (keeps : source.Keeps c P) (hP : P links) :
    ∀ {e : Expr}, e.Formed → (Code.expr e).Allowed c → Alike c source links (.expr e) (.expr e)
  | .literal value, _, _ => .literal value
  | .unary operator _, hf, ha => .unary operator (Expr.alike_self keeps hP hf.2 fun x hx => ha x (.tail _ hx))
  | .binary operator _ _, hf, ha =>
    .binary operator (Expr.alike_self keeps hP hf.2.1 fun x hx => ha x (.tail _ (List.mem_append_left _ hx)))
      (Expr.alike_self keeps hP hf.2.2 fun x hx => ha x (.tail _ (List.mem_append_right _ hx)))
  | .logical operator _ _, hf, ha =>
    .logical operator (Expr.alike_self keeps hP hf.1 fun x hx => ha x (.tail _ (List.mem_append_left _ hx)))
      (Expr.alike_self keeps hP hf.2 fun x hx => ha x (.tail _ (List.mem_append_right _ hx)))
  | .group e, hf, ha => .group (Expr.alike_self keeps hP (e := e) hf fun x hx => ha x (.tail _ hx))
  | .ref _ _, _, ha => .ref (.inl rfl) (keeps.use hP (ha _ List.mem_cons_self _ List.mem_cons_self))
  | .assign _ _ _, hf, ha =>
    .assign (.inl rfl) (keeps.use hP (ha _ List.mem_cons_self _ List.mem_cons_self))
      (Expr.alike_self keeps hP hf.2 fun x hx => ha x (.tail _ hx))
  | .call _ paren _, hf, ha =>
    .call paren (Expr.alike_self keeps hP hf.1 fun x hx => ha x (.tail _ (List.mem_append_left _ hx)))
      (Expr.alike_selfAll keeps hP hf.2 fun x hx => ha x (.tail _ (List.mem_append_right _ hx)))
  | .get e name, hf, ha => .get name (Expr.alike_self keeps hP (e := e) hf fun x hx => ha x (.tail _ hx))
  | .set _ name _, hf, ha =>
    .set name (Expr.alike_self keeps hP hf.1 fun x hx => ha x (.tail _ (List.mem_append_right _ hx)))
      (Expr.alike_self keeps hP hf.2 fun x hx => ha x (.tail _ (List.mem_append_left _ hx)))
  | .self _ _, hf, _ => .self hf (keeps.self hP)
  | .super _ keyword method, _, _ => .super keyword method (keeps.super hP)

theorem Expr.alike_selfAll (keeps : source.Keeps c P) (hP : P links) :
    ∀ {es : List Expr}, Expr.FormedAll es → (Code.exprs es).Allowed c → Alike c source links (.exprs es) (.exprs es)
  | [], _, _ => .noExprs
  | _ :: _, hf, ha =>
    .moreExprs (Expr.alike_self keeps hP hf.1 fun x hx => ha x (List.mem_append_left _ hx))
      (Expr.alike_selfAll keeps hP hf.2 fun x hx => ha x (List.mem_append_right _ hx))

end

mutual

theorem Stmt.alike_self (keeps : source.Keeps c P) :
    ∀ {links : List Link} {s : Stmt}, P links → Code.Stays c links (.stmt s) →
      Alike c source links (.stmt s) (.stmt s)
  | _, .expression _, hP, h =>
    .expression (Expr.alike_self keeps hP h.formed (h.allowed.mono fun _ hx => .tail _ hx))
  | _, .print _, hP, h => .print (Expr.alike_self keeps hP h.formed (h.allowed.mono fun _ hx => .tail _ hx))
  | _, .varDecl _ none, _, h => .varDecl (.inl rfl) (h.declares _ List.mem_cons_self)
  | _, .varDecl _ (some e), hP, h =>
    .varInit (.inl rfl) (h.declares _ List.mem_cons_self)
      (Expr.alike_self keeps hP (h.formed.2 e rfl) (h.allowed.mono fun _ hx => .tail _ hx))
  | _, .block _, hP, h => .block .same (Stmt.alike_selfAll keeps (keeps.inner hP) h.block)
  | _, .ifElse _ _ none, hP, h =>
    .ifThen (Expr.alike_self keeps hP h.formed.1 (h.allowed.mono fun _ hx => .tail _ (List.mem_append_left _ hx)))
      (Stmt.alike_self keeps hP h.yes)
  | _, .ifElse _ _ (some _), hP, h =>
    .ifElse (Expr.alike_self keeps hP h.formed.1 (h.allowed.mono fun _ hx => .tail _ (List.mem_append_left _ hx)))
      (Stmt.alike_self keeps hP h.yes) (Stmt.alike_self keeps hP h.no)
  | _, .whileDo _ _, hP, h =>
    .whileDo (Expr.alike_self keeps hP h.formed.1 (h.allowed.mono fun _ hx => .tail _ (List.mem_append_left _ hx)))
      (Stmt.alike_self keeps hP h.repeated)
  | _, .funDecl _, hP, h =>
    .funDecl (h.plain trivial) (h.declares _ List.mem_cons_self) (Routine.alike_self keeps hP h.funDecl)
  | _, .ret keyword none, _, _ => .ret keyword
  | _, .ret keyword (some e), hP, h =>
    .retValue keyword (Expr.alike_self keeps hP (h.formed e rfl) (h.allowed.mono fun _ hx => .tail _ hx))
  | _, .classDecl _ none _, hP, h =>
    .classDecl (h.plain trivial) (h.declares _ List.mem_cons_self)
      (Routine.alike_selfAll keeps (keeps.inner hP) h.classDecl)
  | _, .classDecl _ (some _) _, hP, h =>
    .subclass (h.plain trivial) (h.declares _ List.mem_cons_self)
      (Expr.alike_self keeps hP h.formed.2.1.formed
        (h.allowed.mono fun _ hx => .tail _ (List.mem_append_left _ hx)))
      (Routine.alike_selfAll keeps (keeps.inner (keeps.inner hP)) h.subclass)

theorem Stmt.alike_selfAll (keeps : source.Keeps c P) :
    ∀ {links : List Link} {ss : List Stmt}, P links → Code.Stays c links (.stmts ss) →
      Alike c source links (.stmts ss) (.stmts ss)
  | _, [], _, _ => .noStmts
  | _, _ :: _, hP, h => .moreStmts (Stmt.alike_self keeps hP h.first) (Stmt.alike_selfAll keeps hP h.later)

theorem Routine.alike_self (keeps : source.Keeps c P) :
    ∀ {links : List Link} {r : Routine Stmt}, P links → Code.Stays c links (.routine r) →
      Alike c source links (.routine r) (.routine r)
  | _, ⟨name, parameters, ss⟩, hP, h => by
    have allowed : ∀ p ∈ parameters, c.Allows p.lexeme := fun p hp =>
      h.allowed _ List.mem_cons_self _ (List.mem_map_of_mem hp)
    refine .routine name .same trivial ?_ (Stmt.alike_selfAll keeps (keeps.inner hP) h.body)
    exact List.forall₂_same.2 fun p hp => ⟨rfl, allowed p hp⟩

theorem Routine.alike_selfAll (keeps : source.Keeps c P) :
    ∀ {links : List Link} {rs : List (Routine Stmt)}, P links → Code.Stays c links (.methods rs) →
      Alike c source links (.methods rs) (.methods rs)
  | _, [], _, _ => .noMethods
  | _, _ :: _, hP, h =>
    .moreMethods (Routine.alike_self keeps hP h.method) (Routine.alike_selfAll keeps hP h.laterMethods)

end

end

/-! ## A part exchanged -/

/-- Where one part has been exchanged for one that is alike to it, whatever scopes of the same names are around it, the
wholes are alike. -/
theorem Swaps.alike {a b code code' : Code} (keeps : source.Keeps c AllSame)
    (hole : ∀ links, AllSame links → a.Stays c links → Alike c source links a b) (h : Swaps a b code code')
    (same : AllSame links) (stays : code.Stays c links) : Alike c source links code code' := by
  induction h generalizing links with
  | here => exact hole links same stays
  | block _ ih => exact .block .same (ih same.inner stays.block)
  | @yes e s s' no _ ih =>
    cases no with
    | none =>
      refine .ifThen (Expr.alike_self keeps same stays.formed.1 ?_) (ih same stays.yes)
      exact stays.allowed.mono fun _ hx => .tail _ (List.mem_append_left _ hx)
    | some no =>
      refine .ifElse (Expr.alike_self keeps same stays.formed.1 ?_) (ih same stays.yes)
        (Stmt.alike_self keeps same stays.no)
      exact stays.allowed.mono fun _ hx => .tail _ (List.mem_append_left _ hx)
  | no _ ih =>
    refine .ifElse (Expr.alike_self keeps same stays.formed.1 ?_) (Stmt.alike_self keeps same stays.yes)
      (ih same stays.no)
    exact stays.allowed.mono fun _ hx => .tail _ (List.mem_append_left _ hx)
  | repeated _ ih =>
    refine .whileDo (Expr.alike_self keeps same stays.formed.1 ?_) (ih same stays.repeated)
    exact stays.allowed.mono fun _ hx => .tail _ (List.mem_append_left _ hx)
  | funDecl _ ih =>
    exact .funDecl same.plain (stays.declares _ List.mem_cons_self) (ih same stays.funDecl)
  | @classDecl name superclass rs rs' _ ih =>
    cases superclass with
    | none => exact .classDecl same.plain (stays.declares _ List.mem_cons_self) (ih same.inner stays.classDecl)
    | some e =>
      refine .subclass same.plain (stays.declares _ List.mem_cons_self)
        (Expr.alike_self keeps same stays.formed.2.1.formed ?_) (ih same.inner.inner stays.subclass)
      exact stays.allowed.mono fun _ hx => .tail _ (List.mem_append_left _ hx)
  | first _ ih => exact .moreStmts (ih same stays.first) (Stmt.alike_selfAll keeps same stays.later)
  | later _ ih => exact .moreStmts (Stmt.alike_self keeps same stays.first) (ih same stays.later)
  | body _ ih =>
    refine .routine _ .same trivial ?_ (ih same.inner stays.body)
    exact List.forall₂_same.2 fun p hp => ⟨rfl, stays.allowed _ List.mem_cons_self _ (List.mem_map_of_mem hp)⟩
  | method _ ih => exact .moreMethods (ih same stays.method) (Routine.alike_selfAll keeps same stays.laterMethods)
  | laterMethod _ ih => exact .moreMethods (Routine.alike_self keeps same stays.method) (ih same stays.laterMethods)

end Lox
