import Notebook.Proofs.Compiler.TermLayout
import Notebook.Proofs.Fallible

/-!
Resolving names: from expressions and statements to terms and commands.

`resolveExpr` and its companions walk a program in the order of its text, as a compiler does, and
ask the scope at each place what a name refers to there. They emit no code; the only code they
know of is that of function literals, because it is part of what a function is as a value.
-/

namespace Notebook

/-- A place in the programs of a session: what names refer to there, and the constants and functions that its
snippet has had so far. The snippet's constants go into the pool from `offset` on. This is all that resolving
depends on, and all that it changes. -/
structure Site where
  scope : Scope
  offset : Nat
  constants : Array Value := #[]
  routines : List Routine := []

namespace Site

/-- A literal at a place, and the place after it. -/
def constant (v : Value) (s : Site) : Term × Site :=
  (.constant s.constants.size v, { s with constants := s.constants.push v })

def define (name : String) (s : Site) : Site := { s with scope := s.scope.define name }

/-- The command that assigns a slot of the innermost level. -/
def assignment (index : Nat) (t : Term) (s : Site) : Command :=
  match s.scope with
  | .session _ => .setGlobal index t
  | .function _ _ => .setOwn index t

/-- Which level an assignment is for does not hang on what that level defines. -/
theorem assignment_define (s : Site) (name : String) (index : Nat) (t : Term) :
    (s.define name).assignment index t = s.assignment index t := by
  unfold assignment define
  cases s.scope <;> rfl

/-- The function that a literal stands for, given its body and the place at the body's end. Its code is the
layout of the body, so that it is known without compiling. -/
def routine (params : List String) (body : List Command) (inner : Site) : Routine where
  code := ⟨⟨(assemble (layoutBody body 0)).toArray⟩, inner.offset, inner.scope.slots, params.length⟩
  body := body

end Site

mutual

/-- The term that an expression stands for at a place, and the place after it. It fails for a name that means
nothing there, and for one of an enclosing function. -/
def resolveExpr : Expr → Site → Except CompileError (Term × Site)
  | .ident name, s =>
    match s.scope.resolve name with
    | some (.global index) => .ok (.global index, s)
    | some (.own index) => .ok (.own index, s)
    | some (.builtin index) => .ok (.builtin index, s)
    | some (.captured _) => .error (.closure name)
    | none => .error (.unresolved name)
  | .int value, s => .ok (s.constant (.int value))
  | .str text, s => .ok (s.constant (.str text))
  | .bool value, s => .ok (.bool value, s)
  | .null, s => .ok (.null, s)
  | .array elements, s => do
    let (terms, s) ← resolveExprs elements s
    .ok (.array terms, s)
  | .unary op operand, s => do
    let (t, s) ← resolveExpr operand s
    .ok (.unary op t, s)
  | .binary op left right, s =>
    if op = .less then do
      let (second, s) ← resolveExpr right s
      let (first, s) ← resolveExpr left s
      .ok (.binary op first second, s)
    else do
      let (first, s) ← resolveExpr left s
      let (second, s) ← resolveExpr right s
      .ok (.binary op first second, s)
  | .cond condition consequence alternative, s => do
    let (test, s) ← resolveExpr condition s
    let (yes, s) ← resolveStmts consequence s
    match alternative with
    | none => .ok (.cond test yes none, s)
    | some body => do
      let (no, s) ← resolveStmts body s
      .ok (.cond test yes (some no), s)
  | .function params body, s => do
    let (commands, inner) ← resolveStmts body { s with scope := s.scope.enter params }
    let routine := inner.routine params commands
    .ok (Site.constant (.function routine.code)
      { inner with scope := s.scope, routines := inner.routines ++ [routine] })
  | .call callee args, s => do
    let (function, s) ← resolveExpr callee s
    let (terms, s) ← resolveExprs args s
    .ok (.call function terms, s)
  | .index collection position, s => do
    let (first, s) ← resolveExpr collection s
    let (second, s) ← resolveExpr position s
    .ok (.index first second, s)

/-- The terms that some expressions stand for, in order. -/
def resolveExprs : List Expr → Site → Except CompileError (List Term × Site)
  | [], s => .ok ([], s)
  | e :: rest, s => do
    let (t, s) ← resolveExpr e s
    let (terms, s) ← resolveExprs rest s
    .ok (t :: terms, s)

/-- The command that a statement stands for. A function sees the name that it is bound to. -/
def resolveStmt : Stmt → Site → Except CompileError (Command × Site)
  | .letIn name value, s =>
    if value.isFunction then do
      let index := s.scope.slots
      let (t, s) ← resolveExpr value (s.define name)
      .ok (s.assignment index t, s)
    else do
      let (t, s) ← resolveExpr value s
      .ok (s.assignment s.scope.slots t, s.define name)
  | .ret value, s => do
    let (t, s) ← resolveExpr value s
    .ok (.ret t, s)
  | .throw value, s => do
    let (t, s) ← resolveExpr value s
    .ok (.throw t, s)
  | .expr value, s => do
    let (t, s) ← resolveExpr value s
    .ok (.expr t, s)
  | .empty, s => .ok (.empty, s)

/-- The commands that some statements stand for, in order. -/
def resolveStmts : List Stmt → Site → Except CompileError (List Command × Site)
  | [], s => .ok ([], s)
  | statement :: rest, s => do
    let (c, s) ← resolveStmt statement s
    let (commands, s) ← resolveStmts rest s
    .ok (c :: commands, s)

end

/-- Only expressions resolve to expressions. -/
theorem eq_expr_of_resolveStmt {statement : Stmt} {s s' : Site} {t : Term}
    (h : resolveStmt statement s = .ok (.expr t, s')) : ∃ value, statement = .expr value := by
  cases statement with
  | expr value => exact ⟨value, rfl⟩
  | letIn name value =>
    unfold resolveStmt at h
    split at h
    all_goals
      obtain ⟨⟨t₁, s₁⟩, -, h⟩ := bind_eq_ok_iff.mp h
      simp only [Except.ok.injEq, Prod.mk.injEq, Site.assignment] at h
      split at h <;> cases h.1
  | ret value | throw value =>
    obtain ⟨⟨t₁, s₁⟩, -, h⟩ := bind_eq_ok_iff.mp h
    cases h
  | empty => cases h

/-- Only no statements resolve to no commands. -/
theorem eq_nil_of_resolveStmts {statements : List Stmt} {s s' : Site}
    (h : resolveStmts statements s = .ok ([], s')) : statements = [] := by
  cases statements with
  | nil => rfl
  | cons statement rest =>
    obtain ⟨⟨c, s₁⟩, -, h⟩ := bind_eq_ok_iff.mp h
    obtain ⟨⟨cs, s₂⟩, -, h⟩ := bind_eq_ok_iff.mp h
    cases h

/-- A program in two parts resolves part by part. -/
theorem resolveStmts_append {p₁ p₂ : List Stmt} {s s' : Site} {cs : List Command}
    (h : resolveStmts (p₁ ++ p₂) s = .ok (cs, s')) : ∃ cs₁ s₁ cs₂,
      resolveStmts p₁ s = .ok (cs₁, s₁) ∧ resolveStmts p₂ s₁ = .ok (cs₂, s') ∧ cs = cs₁ ++ cs₂ := by
  induction p₁ generalizing s cs with
  | nil => exact ⟨[], s, cs, rfl, h, rfl⟩
  | cons statement rest ih =>
    obtain ⟨⟨c, s₁⟩, hfirst, h⟩ := bind_eq_ok_iff.mp h
    obtain ⟨⟨commands, s₂⟩, hrest, h⟩ := bind_eq_ok_iff.mp h
    cases h
    obtain ⟨cs₁, s₃, cs₂, hres₁, hres₂, rfl⟩ := ih hrest
    exact ⟨c :: cs₁, s₃, cs₂, bind_eq_ok_iff.mpr ⟨_, hfirst, bind_eq_ok_iff.mpr ⟨_, hres₁, rfl⟩⟩,
      hres₂, rfl⟩

/-- The place at which the next snippet starts. -/
def Compiler.site (c : Compiler) (routines : List Routine) : Site :=
  ⟨c.scope, c.constantsOffset, c.constants, routines⟩

end Notebook
