import Notebook.Compiler.Walk
import Notebook.Proofs.Semantics.FunctionsInValues
import Notebook.Proofs.Syntax.ProgramKinds

/-!
Two compilers side by side.

Compilers that differ in what their steps are made of walk through a program in the same way
(`Steps.expr`). A relation between what they do, of which `Steps.Related` holds, is one that their
single steps keep.

* `Steps.Related.expr` and its companions: then it holds of all that they do with a program. Steps with
  names and with function literals need to keep it only where the program has any.

This is the only induction on programs that speaks of two compilers at a time. Compiling at another
offset, compiling in place and being watched are relations between steps.
-/

namespace Notebook.Steps

variable {α β : Type}

/-- Does a relation hold of the single steps of two compilers, and of larger ones if it holds of what
those are made of? The programs to be compiled are of the kind `P`. -/
structure Related (S : Steps α) (T : Steps β) (P : ProgramKind) (R : α → β → Prop) : Prop where
  skip : R S.skip T.skip
  andThen {a a' : α} {b b' : β} : R a b → R a' b' → R (S.andThen a a') (T.andThen b b')
  emit (op : Opcode) (operands : List Nat) : R (S.emit op operands) (T.emit op operands)
  constant {v : Value} : v.functions = [] → R (S.constant v) (T.constant v)
  reference (name : String) : R (S.reference name) (T.reference name)
  here {a : Nat → α} {b : Nat → β} : (∀ n, R (a n) (b n)) → R (S.here a) (T.here b)
  patchJump (position : Nat) : R (S.patchJump position) (T.patchJump position)
  block {a : α} {b : β} (ss : List Stmt) : R a b → R (S.block ss a) (T.block ss b)
  define {known : List String} {name : String} {value : Expr} {a : Nat → α} {b : Nat → β} :
    P.stmt known (.letIn name value) → (∀ n, R (a n) (b n)) → R (S.define name a) (T.define name b)
  assign {known : List String} {name : String} {value : Expr} (index : Nat) :
    P.stmt known (.letIn name value) → R (S.assign name index) (T.assign name index)
  function {known params : List String} {body : List Stmt} {a : α} {b : β} :
    P.expr known (.function params body) → R a b → R (S.function params body a) (T.function params body b)

namespace Related

variable {S : Steps α} {T : Steps β} {P : ProgramKind} {R : α → β → Prop}
variable (h : Related S T P R)
include h

theorem choice {test yes no : α} {test' yes' no' : β} (htest : R test test') (hyes : R yes yes')
    (hno : R no no') : R (S.choice test yes no) (T.choice test' yes' no') := by
  refine h.andThen htest (h.here fun branch => h.andThen (h.emit _ _) (h.andThen hyes ?_))
  refine h.here fun skip => h.andThen (h.emit _ _) (h.andThen (h.patchJump _) ?_)
  exact h.andThen hno (h.patchJump _)

mutual

theorem expr : ∀ (e : Expr) {known : List String}, P.expr known e → R (S.expr e) (T.expr e)
  | .ident name, _, _ => h.reference name
  | .int _, _, _ => h.constant rfl
  | .str _, _, _ => h.constant rfl
  | .bool true, _, _ => h.emit _ _
  | .bool false, _, _ => h.emit _ _
  | .null, _, _ => h.emit _ _
  | .array elements, _, hP => h.andThen (exprs elements (P.array hP)) (h.emit _ _)
  | .unary _ operand, _, hP => h.andThen (expr operand (P.unary hP)) (h.emit _ _)
  | .binary op left right, _, hP => by
    -- `a < b` is walked through as `b > a`, every other operator from left to right.
    by_cases hless : op = .less
    · subst hless
      obtain ⟨hright, hleft⟩ := P.less hP
      exact h.andThen (expr right hright) (h.andThen (expr left hleft) (h.emit _ _))
    · obtain ⟨hleft, hright⟩ := P.binary hless hP
      rw [S.expr_binary hless, T.expr_binary hless]
      exact h.andThen (expr left hleft) (h.andThen (expr right hright) (h.emit _ _))
  -- With or without an alternative a conditional is one choice; what differs is what its second way is.
  | .cond condition consequence none, _, hP =>
    have ⟨htest, hyes, _⟩ := P.cond hP
    h.choice (expr condition htest) (h.block _ (stmts consequence hyes)) (h.emit _ _)
  | .cond condition consequence (some alternative), _, hP =>
    have ⟨htest, hyes, hno⟩ := P.cond hP
    h.choice (expr condition htest) (h.block _ (stmts consequence hyes))
      (h.block _ (stmts alternative (hno _ rfl)))
  | .function _ body, _, hP => h.function hP (stmts body (P.function hP))
  | .call callee args, _, hP =>
    have ⟨hcallee, hargs⟩ := P.call hP
    h.andThen (expr callee hcallee) (h.andThen (exprs args hargs) (h.emit _ _))
  | .index collection position, _, hP =>
    have ⟨hcollection, hposition⟩ := P.index hP
    h.andThen (expr collection hcollection) (h.andThen (expr position hposition) (h.emit _ _))

theorem exprs : ∀ (es : List Expr) {known : List String}, P.exprs known es → R (S.exprs es) (T.exprs es)
  | [], _, _ => h.skip
  | e :: rest, _, hP =>
    have ⟨hfirst, hrest⟩ := P.both hP
    h.andThen (expr e hfirst) (exprs rest hrest)

theorem stmt : ∀ (s : Stmt) {known : List String}, P.stmt known s → R (S.stmt s) (T.stmt s)
  | .letIn name value, _, hP => by
    have hvalue := expr value (P.letIn hP)
    unfold Steps.stmt
    split
    · exact h.define hP fun index => h.andThen hvalue (h.assign index hP)
    · exact h.andThen hvalue (h.define hP fun index => h.assign index hP)
  | .ret value, _, hP => h.andThen (expr value (P.ret hP)) (h.emit _ _)
  | .throw value, _, hP => h.andThen (expr value (P.throw hP)) (h.emit _ _)
  | .expr value, _, hP => h.andThen (expr value (P.value hP)) (h.emit _ _)
  | .empty, _, _ => h.skip

theorem stmts : ∀ (ss : List Stmt) {known : List String}, P.stmts known ss → R (S.stmts ss) (T.stmts ss)
  | [], _, _ => h.skip
  | s :: rest, _, hP =>
    have ⟨hfirst, hrest⟩ := P.andThen hP
    h.andThen (stmt s hfirst) (stmts rest hrest)

end

/-- So it is with the top level of a snippet, which differs from a block in how its last expression ends. -/
theorem topLevel : ∀ (p : List Stmt) {known : List String}, P.stmts known p →
    R (S.topLevel p) (T.topLevel p)
  | [], _, _ => h.emit _ _
  | s :: rest, _, hP => by
    obtain ⟨hfirst, hrest⟩ := P.andThen hP
    by_cases hvalue : ∃ value, s = .expr value ∧ rest = []
    · obtain ⟨value, rfl, rfl⟩ := hvalue
      exact h.andThen (h.expr value (P.value hfirst)) (h.emit _ _)
    · rw [S.topLevel_cons hvalue, T.topLevel_cons hvalue]
      exact h.andThen (h.stmt s hfirst) (topLevel rest hrest)

end Related

end Notebook.Steps
