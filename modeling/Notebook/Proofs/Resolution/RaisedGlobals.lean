import Notebook.Proofs.Resolution.Comparison
import Notebook.Proofs.Resolution.DeclaredNames
import Notebook.Proofs.Semantics.RelatedValues

/-!
Closed programs, resolved in a new session and in one that has run before.

A program is closed if it declares what it uses before it uses it (`Program.isClosed`). At two places
of which `Site.Raises k` holds, names that are known refer to the same, but for the globals, which are
`k` slots further on at the second one. Constants may go to other places of the pool there.

* `resolveStmts_raises`: what resolves at the first place resolves at the second one, if it is closed.
  The commands are the same but for the slots of globals, and so are the functions.
-/

namespace Notebook

/-! ### Closed programs -/

mutual

/-- Does an expression use only names that are known, or that it has declared before? What a function literal
declares is known inside of it only. -/
def Expr.isClosed (known : List String) : Expr → Bool
  | .ident name => decide (name ∈ known)
  | .int _ | .str _ | .bool _ | .null => true
  | .array elements => exprsClosed known elements
  | .unary _ operand => operand.isClosed known
  | .binary op left right =>
    if op = .less then right.isClosed known && left.isClosed (known ++ right.declared)
    else left.isClosed known && right.isClosed (known ++ left.declared)
  | .cond condition consequence alternative =>
    condition.isClosed known &&
      (Program.isClosed (known ++ condition.declared) consequence &&
        match alternative with
        | none => true
        | some body =>
          Program.isClosed (known ++ condition.declared ++ Program.declared consequence) body)
  | .function params body => Program.isClosed (known ++ params) body
  | .call callee args => callee.isClosed known && exprsClosed (known ++ callee.declared) args
  | .index collection position =>
    collection.isClosed known && position.isClosed (known ++ collection.declared)

def exprsClosed (known : List String) : List Expr → Bool
  | [] => true
  | e :: rest => e.isClosed known && exprsClosed (known ++ e.declared) rest

/-- Does a statement use only such names? A function knows the name that it is bound to. -/
def Stmt.isClosed (known : List String) : Stmt → Bool
  | .letIn name value => value.isClosed (if value.isFunction then known ++ [name] else known)
  | .ret value | .throw value | .expr value => value.isClosed known
  | .empty => true

/-- Do some statements, one after the other, use only such names? -/
def Program.isClosed (known : List String) : List Stmt → Bool
  | [] => true
  | s :: rest => s.isClosed known && Program.isClosed (known ++ s.declared) rest

end

def ProgramKind.closed : ProgramKind where
  expr known e := e.isClosed known = true
  exprs known es := exprsClosed known es = true
  stmt known s := s.isClosed known = true
  stmts known ss := Program.isClosed known ss = true
  array h := h
  unary h := h
  less h := Bool.and_eq_true_iff.mp h
  binary hless h := by
    unfold Expr.isClosed at h
    rw [if_neg hless] at h
    exact Bool.and_eq_true_iff.mp h
  cond {_ _ _ alternative} h := by
    unfold Expr.isClosed at h
    obtain ⟨htest, h⟩ := Bool.and_eq_true_iff.mp h
    obtain ⟨hyes, hno⟩ := Bool.and_eq_true_iff.mp h
    refine ⟨htest, hyes, ?_⟩
    rintro body rfl
    exact hno
  function h := h
  call h := Bool.and_eq_true_iff.mp h
  index h := Bool.and_eq_true_iff.mp h
  both h := Bool.and_eq_true_iff.mp h
  letIn h := h
  ret h := h
  throw h := h
  value h := h
  andThen h := Bool.and_eq_true_iff.mp h

/-! ### Scopes -/

/-- A reference where there are `k` more globals in front. -/
def Reference.raise (k : Nat) : Reference → Reference
  | .global index => .global (index + k)
  | r => r

namespace Scope

@[simp] theorem isSession_defineAll (names : List String) (s : Scope) :
    (s.defineAll names).isSession = s.isSession := by
  induction names generalizing s with
  | nil => rfl
  | cons name rest ih => exact (ih (s.define name)).trans (isSession_define s name)

/-- The parameters of a function literal are the first names that are defined in it. -/
theorem enter_eq_defineAll (params : List String) (s : Scope) :
    s.enter params = (s.enter []).defineAll params := by
  have hlevel : ∀ level : Level, Scope.function (params.foldl Level.define level) s =
      (Scope.function level s).defineAll params := by
    induction params with
    | nil => exact fun level => rfl
    | cons name rest ih => exact fun level => ih (level.define name)
  exact hlevel {}

/-- What a name of a function refers to once a name was defined in it. -/
theorem resolve_define_function {level : Level} {enclosing : Scope} (name other : String) :
    ((Scope.function level enclosing).define name).resolve other =
      if name = other then some (.own level.slots)
      else (Scope.function level enclosing).resolve other := by
  simp only [define, Level.define, resolve, NameTable.get?_insert]
  by_cases hname : name = other
  · simp [hname]
  · simp only [hname, if_false]

/-- Two scopes in which known names mean the same, but for `k` more globals in front in the second. Names that
are not known may mean anything, or nothing. -/
structure Raised (k : Nat) (known : List String) (s s' : Scope) : Prop where
  session : s'.isSession = s.isSession
  slots : s'.slots = s.slots + if s.isSession then k else 0
  names : ∀ name ∈ known, s'.resolve name = (s.resolve name).map (Reference.raise k)

namespace Raised

variable {k : Nat} {known : List String} {s s' : Scope}

/-- A name that is defined in both scopes is known from then on. -/
theorem define (h : s.Raised k known s') (name : String) :
    (s.define name).Raised k (known ++ [name]) (s'.define name) := by
  -- Any other name means what it did before; the new one stands for the next slot at either place.
  have hold : ∀ other ∈ known ++ [name], name ≠ other →
      s'.resolve other = (s.resolve other).map (Reference.raise k) := by
    intro other hother hne
    rcases List.mem_append.mp hother with hother | hother
    · exact h.names other hother
    · exact absurd (List.mem_singleton.mp hother).symm hne
  have hslots := h.slots
  have hsession := h.session
  cases s with
  | session level =>
    cases s' with
    | function level' enclosing' => cases hsession
    | session level' =>
      have hnext : level'.slots = level.slots + k := hslots
      refine ⟨rfl, ?_, ?_⟩
      · show level'.slots + 1 = level.slots + 1 + k
        omega
      · intro other hother
        rw [resolve_define, resolve_define]
        by_cases hname : name = other
        · rw [if_pos hname, if_pos hname, hnext]
          rfl
        · rw [if_neg hname, if_neg hname]
          exact hold other hother hname
  | function level enclosing =>
    cases s' with
    | session level' => cases hsession
    | function level' enclosing' =>
      have hnext : level'.slots = level.slots := hslots
      refine ⟨rfl, ?_, ?_⟩
      · show level'.slots + 1 = level.slots + 1 + 0
        omega
      · intro other hother
        rw [resolve_define_function, resolve_define_function]
        by_cases hname : name = other
        · rw [if_pos hname, if_pos hname, hnext]
          rfl
        · rw [if_neg hname, if_neg hname]
          exact hold other hother hname

theorem defineAll (h : s.Raised k known s') (names : List String) :
    (s.defineAll names).Raised k (known ++ names) (s'.defineAll names) := by
  induction names generalizing known s s' with
  | nil =>
    rw [List.append_nil]
    exact h
  | cons name rest ih =>
    rw [List.append_cons]
    exact ih (h.define name)

/-- Inside of a function literal the parameters are known, too. -/
theorem enter (h : s.Raised k known s') (params : List String) :
    (s.enter params).Raised k (known ++ params) (s'.enter params) := by
  have hinside : ∀ o : Option Reference, (o.map (Reference.raise k)).map Reference.fromInside =
      (o.map Reference.fromInside).map (Reference.raise k) := by
    intro o
    cases o with
    | none => rfl
    | some r => cases r <;> rfl
  have hempty : (s.enter []).Raised k known (s'.enter []) := by
    refine ⟨rfl, rfl, ?_⟩
    intro name hname
    show (s'.resolve name).map Reference.fromInside = _
    rw [h.names name hname, hinside]
    rfl
  rw [enter_eq_defineAll params s, enter_eq_defineAll params s']
  exact hempty.defineAll params

end Raised

end Scope

/-! ### Places -/

/-- The same function, compiled where there are `k` more globals in front. Its own slots are not affected, nor
are its constants. -/
structure Routine.Raised (k : Nat) (r r' : Routine) : Prop where
  params : r.code.params = r'.code.params
  locals : r.code.locals = r'.code.locals
  body : relocateCommands 0 k r.body = relocateCommands 0 0 r'.body
  assembled : r'.code.code = ⟨(assemble (layoutBody r'.body 0)).toArray⟩

/-- Are these the codes of the same function, once at either place? -/
def Site.Pairs (k : Nat) (s s' : Site) (f f' : FunctionCode) : Prop :=
  ∃ r ∈ s.routines, ∃ r' ∈ s'.routines, r.code = f ∧ r'.code = f' ∧ r.Raised k r'

/-- Two places at which known names mean the same, and of which the second has `k` more globals in
front. It has the same constants, if functions count as the same that were compiled from the same
literal, and no other functions. -/
structure Site.Raises (k : Nat) (known : List String) (s s' : Site) : Prop where
  scope : s.scope.Raised k known s'.scope
  constants : Stacked (s.Pairs k s') s.constants s'.constants
  routines : ∀ r' ∈ s'.routines, ∃ r ∈ s.routines, r.Raised k r'

namespace Site.Raises

variable {k : Nat} {known : List String} {s s' : Site}

theorem withScope (h : s.Raises k known s') {names : List String} {scope scope' : Scope}
    (hscope : scope.Raised k names scope') :
    Raises k names { s with scope } { s' with scope := scope' } :=
  { h with scope := hscope }

theorem define (h : s.Raises k known s') (name : String) :
    (s.define name).Raises k (known ++ [name]) (s'.define name) :=
  h.withScope (h.scope.define name)

/-- The same literal at both places. -/
theorem constant (h : s.Raises k known s') {v v' : Value} (hv : v.Related (s.Pairs k s') v') :
    (s.constant v).1.relocate 0 k = (s'.constant v').1.relocate 0 0 ∧
      (s.constant v).2.Raises k known (s'.constant v').2 := by
  constructor
  · simp only [Site.constant, Term.relocate, h.constants.size_eq]
  · exact ⟨h.scope, h.constants.snoc hv, h.routines⟩

/-- The same function literal at both places. The slots of its own are the same, so that only globals and
constants have moved in its body. -/
theorem function {names : List String} {inner inner' : Site} {params : List String}
    {body body' : List Command} {scope scope' : Scope} (hinner : inner.Raises k names inner')
    (hscope : scope.Raised k known scope')
    (hbody : relocateCommands 0 k body = relocateCommands 0 0 body')
    (hfunction : inner.scope.isSession = false) :
    let routine := inner.routine params body
    let routine' := inner'.routine params body'
    let after : Site := { inner with scope, routines := inner.routines ++ [routine] }
    let after' : Site := { inner' with scope := scope', routines := inner'.routines ++ [routine'] }
    (after.constant (.function routine.code)).1.relocate 0 k =
        (after'.constant (.function routine'.code)).1.relocate 0 0 ∧
      (after.constant (.function routine.code)).2.Raises k known
        (after'.constant (.function routine'.code)).2 := by
  intro routine routine' after after'
  have hraised : routine.Raised k routine' := by
    have hslots := hinner.scope.slots
    rw [hfunction] at hslots
    exact ⟨rfl, hslots.symm, hbody, rfl⟩
  have hmore : ∀ f f', inner.Pairs k inner' f f' → after.Pairs k after' f f' := by
    rintro f f' ⟨r, hr, r', hr', hsame⟩
    exact ⟨r, List.mem_append_left _ hr, r', List.mem_append_left _ hr', hsame⟩
  -- The functions are there before the constants that stand for them, as the relation between constants refers
  -- to them.
  have hafter : after.Raises k known after' := by
    refine ⟨hscope, hinner.constants.imp fun _ _ f _ f' => hmore f f', ?_⟩
    intro r' hr'
    rcases List.mem_append.mp hr' with hr' | hr'
    · obtain ⟨r, hr, hsame⟩ := hinner.routines r' hr'
      exact ⟨r, List.mem_append_left _ hr, hsame⟩
    · rw [List.mem_singleton.mp hr']
      exact ⟨routine, List.mem_append_right _ (List.mem_singleton_self _), hraised⟩
  refine hafter.constant (.function ⟨routine, ?_, routine', ?_, rfl, rfl, hraised⟩)
  · exact List.mem_append_right _ (List.mem_singleton_self _)
  · exact List.mem_append_right _ (List.mem_singleton_self _)

/-- The assignment of the slot that comes next at either place. -/
theorem assignment (h : s.Raises k known s') {t t' : Term} {index index' : Nat}
    (ht : t.relocate 0 k = t'.relocate 0 0)
    (hindex : index' = index + if s.scope.isSession then k else 0) :
    (s.assignment index t).relocate 0 k = (s'.assignment index' t').relocate 0 0 := by
  have hsession := h.scope.session
  unfold Site.assignment
  cases hscope : s.scope with
  | session level =>
    cases hscope' : s'.scope with
    | function level' enclosing' =>
      rw [hscope, hscope'] at hsession
      cases hsession
    | session level' =>
      rw [hscope] at hindex
      simp only [Command.relocate, ht, hindex, Scope.isSession, if_true, Nat.add_zero]
  | function level enclosing =>
    cases hscope' : s'.scope with
    | session level' =>
      rw [hscope, hscope'] at hsession
      cases hsession
    | function level' enclosing' =>
      rw [hscope] at hindex
      simp only [Command.relocate, ht, hindex, Scope.isSession, if_false, Nat.add_zero,
        Bool.false_eq_true]

end Site.Raises

/-! ### Programs -/

theorem resolveExpr_ident_raises {k : Nat} {known : List String} {s s' : Site} (h : s.Raises k known s')
    {name : String} (hname : name ∈ known) :
    Follows (Likeness.relocated 0 k 0 0).term (Site.Raises k known) (resolveExpr (.ident name) s)
      (resolveExpr (.ident name) s') := by
  intro t after hres
  have hsame := h.scope.names name hname
  unfold resolveExpr at hres ⊢
  split at hres <;> cases hres <;> rename_i href <;> rw [href] at hsame <;> rw [hsame]
  · exact ⟨_, s', rfl, rfl, h⟩
  · exact ⟨_, s', rfl, rfl, h⟩
  · exact ⟨_, s', rfl, rfl, h⟩

/-- Closed programs mean the same at two places of which the second has more globals in front. -/
theorem Site.Raises.comparison (k : Nat) :
    Comparison .closed (.relocated 0 k 0 0) id id (Site.Raises k) where
  ident hclosed h := resolveExpr_ident_raises h (of_decide_eq_true hclosed)
  literal hv h := h.constant (Value.related_of_functions hv)
  define _ h := h.define _
  assign _ h hterm := h.assignment hterm h.scope.slots
  enter {_ params _ _ _} _ h := by
    rw [List.map_id]
    exact h.withScope (h.scope.enter params)
  function _ h hbody _ hcommands hinner := by
    refine hinner.function h.scope hcommands ?_
    rw [scope_of_resolveStmts _ hbody, Scope.isSession_defineAll]
    rfl

/-- A closed program that resolves at the first of two such places resolves at the second one. -/
theorem resolveStmts_raises {k : Nat} {p : List Stmt} {known : List String} {s s' s₁ : Site} {cs : List Command}
    (hr : s.Raises k known s') (hclosed : Program.isClosed known p = true) (h : resolveStmts p s = .ok (cs, s₁)) :
    ∃ cs' s₁', resolveStmts p s' = .ok (cs', s₁') ∧ relocateCommands 0 k cs = relocateCommands 0 0 cs' ∧
      s₁.Raises k (known ++ Program.declared p) s₁' := by
  have hkind : ProgramKind.closed.stmts known p := hclosed
  exact (Site.Raises.comparison k).program hkind hr h

end Notebook
