import Mathlib.Logic.Basic
import Notebook.Proofs.Bytecode.Relocation
import Notebook.Proofs.Resolution.Resolver
import Notebook.Proofs.Semantics.FunctionsInValues
import Notebook.Proofs.Syntax.ProgramKinds

/-!
One program, resolved at two places.

A program may stand twice in a session, at places that differ in what was met before: constants, functions,
globals, the names of parameters. Some relation between such places is kept by whatever the program does there.
To show that it is, only the steps have to be looked at that depend on the place, of which a `Comparison`
consists. What else there is of a program is walked through here, once for all such relations.

* `Likeness`: which terms and commands count as the same. Terms can be equal (`Likeness.equal`), or equal but for
  the places of their constants and globals (`Likeness.relocated`).
* `Comparison.expr`, `Comparison.stmts`: what resolves at the first of two related places resolves at the second
  one, to terms and commands that are alike, and the places after it are related.
* `Comparison.program`: so it is if no names are changed.
-/

namespace Notebook

/-! ### Likeness -/

/-- Relations between terms and between commands. What is made of parts that are alike is alike. Of constants,
globals and functions nothing is said, and nothing of assignments. -/
structure Likeness where
  term : Term → Term → Prop
  terms : List Term → List Term → Prop
  command : Command → Command → Prop
  commands : List Command → List Command → Prop
  bool (value : Bool) : term (.bool value) (.bool value)
  null : term .null .null
  array {ts ts'} : terms ts ts' → term (.array ts) (.array ts')
  unary (op) {t t'} : term t t' → term (.unary op t) (.unary op t')
  binary (op) {t t' u u'} : term t t' → term u u' → term (.binary op t u) (.binary op t' u')
  cond {t t' yes yes'} : term t t' → commands yes yes' → term (.cond t yes none) (.cond t' yes' none)
  choice {t t' yes yes' no no'} : term t t' → commands yes yes' → commands no no' →
    term (.cond t yes (some no)) (.cond t' yes' (some no'))
  call {t t' ts ts'} : term t t' → terms ts ts' → term (.call t ts) (.call t' ts')
  index {t t' u u'} : term t t' → term u u' → term (.index t u) (.index t' u')
  none : terms [] []
  both {t t' ts ts'} : term t t' → terms ts ts' → terms (t :: ts) (t' :: ts')
  ret {t t'} : term t t' → command (.ret t) (.ret t')
  throw {t t'} : term t t' → command (.throw t) (.throw t')
  expr {t t'} : term t t' → command (.expr t) (.expr t')
  empty : command .empty .empty
  done : commands [] []
  andThen {c c' cs cs'} : command c c' → commands cs cs' → commands (c :: cs) (c' :: cs')

namespace Likeness

def equal : Likeness where
  term := Eq
  terms := Eq
  command := Eq
  commands := Eq
  bool _ := rfl
  null := rfl
  array := congrArg _
  unary _ := congrArg _
  binary _ := congrArg₂ _
  cond ht hyes := by rw [ht, hyes]
  choice ht hyes hno := by rw [ht, hyes, hno]
  call := congrArg₂ _
  index := congrArg₂ _
  none := rfl
  both := congrArg₂ _
  ret := congrArg _
  throw := congrArg _
  expr := congrArg _
  empty := rfl
  done := rfl
  andThen := congrArg₂ _

/-- Equal once the constants and globals of the first have moved by `d` and `g`, and those of the second by `d'`
and `g'`. Moving both sides allows for places of which neither is simply the other one moved. -/
def relocated (d g d' g' : Nat) : Likeness where
  term t t' := t.relocate d g = t'.relocate d' g'
  terms ts ts' := relocateTerms d g ts = relocateTerms d' g' ts'
  command c c' := c.relocate d g = c'.relocate d' g'
  commands cs cs' := relocateCommands d g cs = relocateCommands d' g' cs'
  bool _ := rfl
  null := rfl
  array := congrArg Term.array
  unary op := congrArg (Term.unary op)
  binary op := congrArg₂ (Term.binary op)
  cond ht hyes := by simp only [Term.relocate, ht, hyes]
  choice ht hyes hno := by simp only [Term.relocate, ht, hyes, hno]
  call := congrArg₂ Term.call
  index := congrArg₂ Term.index
  none := rfl
  both := congrArg₂ List.cons
  ret := congrArg Command.ret
  throw := congrArg Command.throw
  expr := congrArg Command.expr
  empty := rfl
  done := rfl
  andThen := congrArg₂ List.cons

end Likeness

/-! ### Two places -/

/-- If the first resolves, does the second, to something related and at places that are related? Only one
direction is said, so that the second place may know more than the first. -/
def Follows {α : Type} (S : α → α → Prop) (R : Site → Site → Prop) (x y : Except CompileError (α × Site)) :
    Prop :=
  ∀ ⦃a s⦄, x = .ok (a, s) → ∃ b s', y = .ok (b, s') ∧ S a b ∧ R s s'

namespace Follows

variable {α β : Type} {S : α → α → Prop} {S' : β → β → Prop} {R R' : Site → Site → Prop}

theorem ok {a b : α} {s s' : Site} (hS : S a b) (hR : R s s') : Follows S R (.ok (a, s)) (.ok (b, s')) := by
  rintro _ _ ⟨⟩
  exact ⟨b, s', rfl, hS, hR⟩

theorem bind {x y : Except CompileError (α × Site)} {f g : α × Site → Except CompileError (β × Site)}
    (h : Follows S R x y)
    (hnext : ∀ {a b s s'}, x = .ok (a, s) → y = .ok (b, s') → S a b → R s s' →
      Follows S' R' (f (a, s)) (g (b, s'))) : Follows S' R' (x >>= f) (y >>= g) := by
  intro c s hx
  obtain ⟨⟨a, s₁⟩, hfirst, hx⟩ := bind_eq_ok_iff.mp hx
  obtain ⟨b, s₁', hfirst', hS, hR⟩ := h hfirst
  obtain ⟨c', s', hy, hS', hR'⟩ := hnext hfirst hfirst' hS hR hx
  exact ⟨c', s', bind_eq_ok_iff.mpr ⟨_, hfirst', hy⟩, hS', hR'⟩

end Follows

/-- What a function literal comes to at a place, and the place after it, given the commands of its body and the
place at the body's end. The scope is that before the literal, everything else is taken over from inside. -/
def Site.literal (s : Site) (params : List String) (body : List Command) (inner : Site) : Term × Site :=
  let routine := inner.routine params body
  Site.constant (.function routine.code)
    { inner with scope := s.scope, routines := inner.routines ++ [routine] }

/-- Is a relation between places kept by what a program does at both of them, once with names changed by `first`
and once by `second`? It may depend on the names that are known. The programs are of the kind `P`, and what they
resolve to is to be alike in the sense of `L`. -/
structure Comparison (P : ProgramKind) (L : Likeness) (first second : String → String)
    (R : List String → Site → Site → Prop) : Prop where
  ident {known name s s'} : P.expr known (.ident name) → R known s s' →
    Follows L.term (R known) (resolveExpr (.ident (first name)) s) (resolveExpr (.ident (second name)) s')
  literal {known s s'} {v : Value} : v.functions = [] → R known s s' →
    L.term (s.constant v).1 (s'.constant v).1 ∧ R known (s.constant v).2 (s'.constant v).2
  define {known names name value s s'} : P.stmt known (.letIn name value) → R names s s' →
    R (names ++ [name]) (s.define (first name)) (s'.define (second name))
  assign {known names name value s s' t t'} : P.stmt known (.letIn name value) → R names s s' → L.term t t' →
    L.command (s.assignment s.scope.slots t) (s'.assignment s'.scope.slots t')
  enter {known params body s s'} : P.expr known (.function params body) → R known s s' →
    R (known ++ params) { s with scope := s.scope.enter (params.map first) }
      { s' with scope := s'.scope.enter (params.map second) }
  function {known names params body s s' commands commands' inner inner'} :
    P.expr known (.function params body) → R known s s' →
    resolveStmts (Program.rename first body) { s with scope := s.scope.enter (params.map first) } =
      .ok (commands, inner) →
    resolveStmts (Program.rename second body) { s' with scope := s'.scope.enter (params.map second) } =
      .ok (commands', inner') →
    L.commands commands commands' → R names inner inner' →
    L.term (s.literal (params.map first) commands inner).1 (s'.literal (params.map second) commands' inner').1 ∧
      R known (s.literal (params.map first) commands inner).2 (s'.literal (params.map second) commands' inner').2

/-- A function literal leaves the scope as it is, so the slot that its name got is assigned at the same level. -/
theorem assignment_of_isFunction {e : Expr} {s after : Site} {name : String} {t : Term}
    (hfunction : e.isFunction = true) (h : resolveExpr e (s.define name) = .ok (t, after)) (index : Nat)
    (value : Term) : after.assignment index value = s.assignment index value := by
  cases e with
  | function params body =>
    obtain ⟨⟨commands, inner⟩, -, h⟩ := bind_eq_ok_iff.mp h
    cases h
    exact s.assignment_define name index value
  | _ => cases hfunction

namespace Comparison

variable {P : ProgramKind} {L : Likeness} {first second : String → String} {R : List String → Site → Site → Prop}
theorem constant (h : Comparison P L first second R) {known : List String} {s s' : Site} {v : Value}
    (hv : v.functions = []) (hR : R known s s') :
    Follows L.term (R (known ++ [])) (.ok (s.constant v)) (.ok (s'.constant v)) := by
  obtain ⟨hterm, hsite⟩ := h.literal hv hR
  rw [List.append_nil]
  exact .ok hterm hsite

mutual

/-- An expression that resolves at the first of two related places resolves at the second one. -/
theorem expr (h : Comparison P L first second R) : ∀ (e : Expr) {known : List String} {s s' : Site},
    P.expr known e → R known s s' → Follows L.term (R (known ++ e.declared))
      (resolveExpr (e.rename first) s) (resolveExpr (e.rename second) s')
  | .ident name, known, s, s', hP, hR => by
    rw [Expr.declared, List.append_nil]
    exact h.ident hP hR
  | .int value, known, s, s', hP, hR => constant h rfl hR
  | .str text, known, s, s', hP, hR => constant h rfl hR
  | .bool value, known, s, s', hP, hR => by
    rw [Expr.declared, List.append_nil]
    exact .ok (L.bool value) hR
  | .null, known, s, s', hP, hR => by
    rw [Expr.declared, List.append_nil]
    exact .ok L.null hR
  | .array elements, known, s, s', hP, hR =>
    (exprs h elements (P.array hP) hR).bind fun _ _ hterms hR => .ok (L.array hterms) hR
  | .unary op operand, known, s, s', hP, hR =>
    (expr h operand (P.unary hP) hR).bind fun _ _ hterm hR => .ok (L.unary op hterm) hR
  | .binary op left right, known, s, s', hP, hR => by
    unfold Expr.rename resolveExpr Expr.declared
    by_cases hless : op = .less
    · -- `<` is resolved from right to left, so what the right operand declares is known in the left one.
      subst hless
      obtain ⟨hright, hleft⟩ := P.less hP
      rw [if_pos rfl, if_pos rfl, if_pos rfl, ← List.append_assoc]
      exact (expr h right hright hR).bind fun _ _ hsecond hR =>
        (expr h left hleft hR).bind fun _ _ hfirst hR => .ok (L.binary .less hfirst hsecond) hR
    · obtain ⟨hleft, hright⟩ := P.binary hless hP
      rw [if_neg hless, if_neg hless, if_neg hless, ← List.append_assoc]
      exact (expr h left hleft hR).bind fun _ _ hfirst hR =>
        (expr h right hright hR).bind fun _ _ hsecond hR => .ok (L.binary op hfirst hsecond) hR
  | .cond condition consequence none, known, s, s', hP, hR => by
    obtain ⟨htest, hyes, -⟩ := P.cond hP
    rw [Expr.declared, List.append_nil, ← List.append_assoc]
    exact (expr h condition htest hR).bind fun _ _ htest hR =>
      (stmts h consequence hyes hR).bind fun _ _ hyes hR => .ok (L.cond htest hyes) hR
  | .cond condition consequence (some alternative), known, s, s', hP, hR => by
    obtain ⟨htest, hyes, hno⟩ := P.cond hP
    rw [Expr.declared, ← List.append_assoc, ← List.append_assoc]
    exact (expr h condition htest hR).bind fun _ _ htest hR =>
      (stmts h consequence hyes hR).bind fun _ _ hyes hR =>
        (stmts h alternative (hno alternative rfl) hR).bind fun _ _ hno hR => .ok (L.choice htest hyes hno) hR
  | .function params body, known, s, s', hP, hR => by
    rw [Expr.declared, List.append_nil]
    refine (stmts h body (P.function hP) (h.enter hP hR)).bind fun hbody hbody' hcommands hinner => ?_
    obtain ⟨hterm, hsite⟩ := h.function hP hR hbody hbody' hcommands hinner
    exact .ok hterm hsite
  | .call callee args, known, s, s', hP, hR => by
    obtain ⟨hcallee, hargs⟩ := P.call hP
    rw [Expr.declared, ← List.append_assoc]
    exact (expr h callee hcallee hR).bind fun _ _ hterm hR =>
      (exprs h args hargs hR).bind fun _ _ hterms hR => .ok (L.call hterm hterms) hR
  | .index collection position, known, s, s', hP, hR => by
    obtain ⟨hcollection, hposition⟩ := P.index hP
    rw [Expr.declared, ← List.append_assoc]
    exact (expr h collection hcollection hR).bind fun _ _ hfirst hR =>
      (expr h position hposition hR).bind fun _ _ hsecond hR => .ok (L.index hfirst hsecond) hR

theorem exprs (h : Comparison P L first second R) : ∀ (es : List Expr) {known : List String} {s s' : Site},
    P.exprs known es → R known s s' → Follows L.terms (R (known ++ declaredByAll es))
      (resolveExprs (renameExprs first es) s) (resolveExprs (renameExprs second es) s')
  | [], known, s, s', hP, hR => by
    rw [declaredByAll, List.append_nil]
    exact .ok L.none hR
  | e :: rest, known, s, s', hP, hR => by
    obtain ⟨hfirst, hrest⟩ := P.both hP
    rw [declaredByAll, ← List.append_assoc]
    exact (expr h e hfirst hR).bind fun _ _ hterm hR =>
      (exprs h rest hrest hR).bind fun _ _ hterms hR => .ok (L.both hterm hterms) hR

theorem stmt (h : Comparison P L first second R) : ∀ (statement : Stmt) {known : List String} {s s' : Site},
    P.stmt known statement → R known s s' → Follows L.command (R (known ++ statement.declared))
      (resolveStmt (statement.rename first) s) (resolveStmt (statement.rename second) s')
  | .letIn name value, known, s, s', hP, hR => by
    have hvalue := P.letIn hP
    unfold Stmt.rename resolveStmt Stmt.declared
    rw [Expr.isFunction_rename, Expr.isFunction_rename]
    -- The name of a function is defined before its value, any other name after it.
    cases hfunction : value.isFunction with
    | true =>
      rw [hfunction] at hvalue
      -- A function literal declares nothing itself, so its name may as well come last.
      have hnames : known ++ [name] ++ value.declared = known ++ (value.declared ++ [name]) := by
        cases value with
        | function params body => simp [Expr.declared]
        | _ => cases hfunction
      rw [← hnames]
      refine (expr h value hvalue (h.define hP hR)).bind fun hres hres' hterm hafter => .ok ?_ hafter
      rw [assignment_of_isFunction ((Expr.isFunction_rename first value).trans hfunction) hres,
        assignment_of_isFunction ((Expr.isFunction_rename second value).trans hfunction) hres']
      exact h.assign hP hR hterm
    | false =>
      rw [hfunction] at hvalue
      rw [← List.append_assoc]
      exact (expr h value hvalue hR).bind fun _ _ hterm hR => .ok (h.assign hP hR hterm) (h.define hP hR)
  | .ret value, known, s, s', hP, hR =>
    (expr h value (P.ret hP) hR).bind fun _ _ hterm hR => .ok (L.ret hterm) hR
  | .throw value, known, s, s', hP, hR =>
    (expr h value (P.throw hP) hR).bind fun _ _ hterm hR => .ok (L.throw hterm) hR
  | .expr value, known, s, s', hP, hR =>
    (expr h value (P.value hP) hR).bind fun _ _ hterm hR => .ok (L.expr hterm) hR
  | .empty, known, s, s', hP, hR => by
    rw [Stmt.declared, List.append_nil]
    exact .ok L.empty hR

theorem stmts (h : Comparison P L first second R) : ∀ (p : List Stmt) {known : List String} {s s' : Site},
    P.stmts known p → R known s s' → Follows L.commands (R (known ++ Program.declared p))
      (resolveStmts (Program.rename first p) s) (resolveStmts (Program.rename second p) s')
  | [], known, s, s', hP, hR => by
    rw [Program.declared, List.append_nil]
    exact .ok L.done hR
  | statement :: rest, known, s, s', hP, hR => by
    obtain ⟨hfirst, hrest⟩ := P.andThen hP
    rw [Program.declared, ← List.append_assoc]
    exact (stmt h statement hfirst hR).bind fun _ _ hcommand hR =>
      (stmts h rest hrest hR).bind fun _ _ hcommands hR => .ok (L.andThen hcommand hcommands) hR

end

end Comparison

/-- The same program at both places. -/
theorem Comparison.program {P : ProgramKind} {L : Likeness} {R : List String → Site → Site → Prop}
    (h : Comparison P L id id R) {known : List String} {p : List Stmt} {s s' : Site} (hP : P.stmts known p)
    (hR : R known s s') :
    Follows L.commands (R (known ++ Program.declared p)) (resolveStmts p s) (resolveStmts p s') := by
  have hwalk := h.stmts p hP hR
  rwa [Program.rename_id] at hwalk

end Notebook
