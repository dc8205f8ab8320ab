import Notebook.Proofs.Resolution.Resolver
import Notebook.Proofs.Semantics.Evaluator

/-!
Programs without a `return` of their own.

`Program.returns` looks for a `return` in statements, but not inside of function literals. Where there
is none, an evaluation comes to a value or fails, and what follows in the program is evaluated
(`resolveStmts_stays`, `evalProgram_stays`).

`Exec.Stays` says this of any evaluation. It is kept by everything that evaluations are put together
from (`stays_bind`), and a call stays whatever the function does, since a `return` ends the function
that it stands in and no other (`stays_apply`).
-/

namespace Notebook

mutual

/-- Is there a `return` in an expression, outside of function literals? It can be there in the blocks of a
conditional only. -/
def Expr.returns : Expr → Bool
  | .ident _ | .int _ | .str _ | .bool _ | .null | .function _ _ => false
  | .array elements => exprsReturn elements
  | .unary _ operand => operand.returns
  | .binary _ left right => left.returns || right.returns
  | .cond condition consequence none => condition.returns || Program.returns consequence
  | .cond condition consequence (some alternative) =>
    condition.returns || (Program.returns consequence || Program.returns alternative)
  | .call callee args => callee.returns || exprsReturn args
  | .index collection position => collection.returns || position.returns

def exprsReturn : List Expr → Bool
  | [] => false
  | e :: rest => e.returns || exprsReturn rest

def Stmt.returns : Stmt → Bool
  | .letIn _ value | .throw value | .expr value => value.returns
  | .ret _ => true
  | .empty => false

/-- Is there a `return` in some statements, outside of function literals? -/
def Program.returns : List Stmt → Bool
  | [] => false
  | s :: rest => s.returns || Program.returns rest

end

namespace Semantics

/-- Does an evaluation never leave the function or snippet around it by a `return`? It may fail, and it may call
functions that return. -/
def Exec.Stays {α : Type} (x : Exec α) : Prop := ∀ s v, (x s).1 ≠ .returned v

section

variable {α β : Type} {x : Exec α} {f : α → Exec β}

theorem stays_pure (a : α) : (pure a : Exec α).Stays := by
  rintro s v ⟨⟩

theorem stays_bind (hx : x.Stays) (hf : ∀ a, (f a).Stays) : (x >>= f).Stays := by
  intro s v h
  rw [Exec.bind_apply] at h
  have hfirst := hx s
  rcases hend : x s with ⟨flow, s₁⟩
  rw [hend] at h hfirst
  cases flow with
  | value a => exact hf a s₁ v h
  | returned w => exact hfirst w rfl
  | failed error => cases h

/-- What comes first stays if the whole does. -/
theorem Exec.Stays.of_bind (h : (x >>= f).Stays) : x.Stays := by
  intro s v hx
  refine h s v ?_
  rw [Exec.bind_apply]
  rcases hend : x s with ⟨flow, s₁⟩
  rw [hend] at hx
  cases hx
  rfl

theorem stays_settle (r : Except RunError α) : (settle r).Stays := by
  intro s v h
  unfold settle at h
  split at h <;> cases h

theorem stays_keep (height : Nat) (v : Value) : (keep height v).Stays := stays_settle _

theorem stays_look (read : State → α) : (look read).Stays := by
  rintro s v ⟨⟩

theorem stays_assignGlobal (index : Nat) (v : Value) : (assignGlobal index v).Stays := by
  rintro s w ⟨⟩

theorem stays_assignOwn (index : Nat) (v : Value) : (assignOwn index v).Stays := by
  rintro s w ⟨⟩

/-- A `return` in a function that is called does not get any further. -/
theorem stays_apply (calls : Calls) (callee : Value) (args : List Value) (height : Nat) :
    (apply calls callee args height).Stays := by
  intro s v h
  cases callee with
  | function f =>
    simp only [apply] at h
    split at h
    · exact stays_settle _ _ v h
    · exact stays_settle _ _ v h
  | _ => exact stays_settle _ _ v h

end

section

variable {calls : Calls}

/-- The top level of a snippet stays if all of its commands do. -/
theorem evalProgram_stays {cs : List Command}
    (h : ∀ c ∈ cs, ∀ height, (perform calls c height).Stays) : (evalProgram calls cs).Stays := by
  induction cs with
  | nil => exact stays_pure none
  | cons c rest ih =>
    obtain ⟨hfirst, hrest⟩ := List.forall_mem_cons.mp h
    by_cases hlast : ∃ value, c = .expr value ∧ rest = []
    · obtain ⟨value, rfl, rfl⟩ := hlast
      exact stays_bind (hfirst 0).of_bind fun v => stays_pure (some v)
    · rw [evalProgram_cons hlast]
      exact stays_bind (hfirst 0) fun _ => ih hrest

/-- A block stays if all of its commands do. -/
theorem evalBlock_stays {cs : List Command} (h : ∀ c ∈ cs, ∀ height, (perform calls c height).Stays)
    (height : Nat) : (evalBlock calls cs height).Stays := by
  induction cs with
  | nil => exact stays_keep _ _
  | cons c rest ih =>
    obtain ⟨hfirst, hrest⟩ := List.forall_mem_cons.mp h
    by_cases hlast : c.closing = some .pop ∧ closingOf rest = none
    · cases c with
      | expr value =>
        rw [evalBlock_of_expr hlast.2]
        exact (hfirst height).of_bind
      | _ => cases hlast.1
    · rw [evalBlock_cons fun hc hrest => hlast ⟨hc, hrest⟩]
      exact stays_bind (hfirst height) fun _ => ih hrest

/-- An assignment stays if the value to be assigned does. -/
theorem stays_assignment {s : Site} {index : Nat} {t : Term}
    (h : ∀ height, (eval calls t height).Stays) (height : Nat) :
    (perform calls (s.assignment index t) height).Stays := by
  unfold Site.assignment
  split
  · exact stays_bind (h height) fun v => stays_assignGlobal index v
  · exact stays_bind (h height) fun v => stays_assignOwn index v

variable (calls)

mutual

/-- An expression without `return` stays. Calls may return within themselves, but a call is over when its
function has returned. -/
theorem resolveExpr_stays : ∀ (e : Expr) {s s' : Site} {t : Term},
    resolveExpr e s = .ok (t, s') → e.returns = false → ∀ height, (eval calls t height).Stays
  | .ident name, s, s', t, h, hreturns, height => by
    unfold resolveExpr at h
    split at h <;> cases h
    · exact stays_bind (stays_look _) fun v => stays_keep _ v
    · exact stays_bind (stays_look _) fun v => stays_keep _ v
    · exact stays_keep _ _
  | .int value, s, s', t, h, hreturns, height => by
    cases h
    exact stays_keep _ _
  | .str text, s, s', t, h, hreturns, height => by
    cases h
    exact stays_keep _ _
  | .bool value, s, s', t, h, hreturns, height => by
    cases h
    exact stays_keep _ _
  | .null, s, s', t, h, hreturns, height => by
    cases h
    exact stays_keep _ _
  | .array elements, s, s', t, h, hreturns, height => by
    obtain ⟨⟨terms, s₁⟩, hterms, h⟩ := bind_eq_ok_iff.mp h
    cases h
    exact stays_bind (resolveExprs_stays elements hterms hreturns height) fun vs => stays_keep _ _
  | .unary op operand, s, s', t, h, hreturns, height => by
    obtain ⟨⟨t₁, s₁⟩, hoperand, h⟩ := bind_eq_ok_iff.mp h
    cases h
    exact stays_bind (resolveExpr_stays operand hoperand hreturns height) fun v => stays_settle _
  | .binary op left right, s, s', t, h, hreturns, height => by
    obtain ⟨hleft, hright⟩ := Bool.or_eq_false_iff.mp hreturns
    unfold resolveExpr at h
    split at h
    · obtain ⟨⟨second, s₁⟩, hsecond, h⟩ := bind_eq_ok_iff.mp h
      obtain ⟨⟨first, s₂⟩, hfirst, h⟩ := bind_eq_ok_iff.mp h
      cases h
      unfold eval
      rw [if_pos ‹_›]
      exact stays_bind (resolveExpr_stays right hsecond hright height) fun r =>
        stays_bind (resolveExpr_stays left hfirst hleft _) fun l => stays_settle _
    · obtain ⟨⟨first, s₁⟩, hfirst, h⟩ := bind_eq_ok_iff.mp h
      obtain ⟨⟨second, s₂⟩, hsecond, h⟩ := bind_eq_ok_iff.mp h
      cases h
      unfold eval
      rw [if_neg ‹_›]
      exact stays_bind (resolveExpr_stays left hfirst hleft height) fun l =>
        stays_bind (resolveExpr_stays right hsecond hright _) fun r => stays_settle _
  | .cond condition consequence none, s, s', t, h, hreturns, height => by
    obtain ⟨htest, hyes⟩ := Bool.or_eq_false_iff.mp hreturns
    unfold resolveExpr at h
    obtain ⟨⟨test, s₁⟩, hcondition, h⟩ := bind_eq_ok_iff.mp h
    obtain ⟨⟨yes, s₂⟩, hconsequence, h⟩ := bind_eq_ok_iff.mp h
    cases h
    refine stays_bind (resolveExpr_stays condition hcondition htest height) fun v => ?_
    split
    · exact evalBlock_stays (resolveStmts_stays consequence hconsequence hyes) height
    · exact stays_keep _ _
  | .cond condition consequence (some body), s, s', t, h, hreturns, height => by
    obtain ⟨htest, hbranches⟩ := Bool.or_eq_false_iff.mp hreturns
    obtain ⟨hyes, hno⟩ := Bool.or_eq_false_iff.mp hbranches
    unfold resolveExpr at h
    obtain ⟨⟨test, s₁⟩, hcondition, h⟩ := bind_eq_ok_iff.mp h
    obtain ⟨⟨yes, s₂⟩, hconsequence, h⟩ := bind_eq_ok_iff.mp h
    obtain ⟨⟨no, s₃⟩, hbody, h⟩ := bind_eq_ok_iff.mp h
    cases h
    refine stays_bind (resolveExpr_stays condition hcondition htest height) fun v => ?_
    split
    · exact evalBlock_stays (resolveStmts_stays consequence hconsequence hyes) height
    · exact evalBlock_stays (resolveStmts_stays body hbody hno) height
  | .function params body, s, s', t, h, hreturns, height => by
    obtain ⟨⟨commands, inner⟩, hbody, h⟩ := bind_eq_ok_iff.mp h
    cases h
    exact stays_keep _ _
  | .call callee args, s, s', t, h, hreturns, height => by
    obtain ⟨hcallee, hargs⟩ := Bool.or_eq_false_iff.mp hreturns
    obtain ⟨⟨function, s₁⟩, hfunction, h⟩ := bind_eq_ok_iff.mp h
    obtain ⟨⟨terms, s₂⟩, hterms, h⟩ := bind_eq_ok_iff.mp h
    cases h
    exact stays_bind (resolveExpr_stays callee hfunction hcallee height) fun f =>
      stays_bind (resolveExprs_stays args hterms hargs _) fun vs => stays_apply calls f vs height
  | .index collection position, s, s', t, h, hreturns, height => by
    obtain ⟨hcollection, hposition⟩ := Bool.or_eq_false_iff.mp hreturns
    obtain ⟨⟨first, s₁⟩, hfirst, h⟩ := bind_eq_ok_iff.mp h
    obtain ⟨⟨second, s₂⟩, hsecond, h⟩ := bind_eq_ok_iff.mp h
    cases h
    exact stays_bind (resolveExpr_stays collection hfirst hcollection height) fun c =>
      stays_bind (resolveExpr_stays position hsecond hposition _) fun p => stays_settle _

theorem resolveExprs_stays : ∀ (es : List Expr) {s s' : Site} {ts : List Term},
    resolveExprs es s = .ok (ts, s') → exprsReturn es = false →
    ∀ height, (evalAll calls ts height).Stays
  | [], s, s', ts, h, hreturns, height => by
    cases h
    exact stays_pure _
  | e :: rest, s, s', ts, h, hreturns, height => by
    obtain ⟨hfirst, hrest⟩ := Bool.or_eq_false_iff.mp hreturns
    obtain ⟨⟨t, s₁⟩, hterm, h⟩ := bind_eq_ok_iff.mp h
    obtain ⟨⟨terms, s₂⟩, hterms, h⟩ := bind_eq_ok_iff.mp h
    cases h
    exact stays_bind (resolveExpr_stays e hterm hfirst height) fun v =>
      stays_bind (resolveExprs_stays rest hterms hrest _) fun vs => stays_pure _

theorem resolveStmt_stays : ∀ (statement : Stmt) {s s' : Site} {c : Command},
    resolveStmt statement s = .ok (c, s') → statement.returns = false →
    ∀ height, (perform calls c height).Stays
  | .letIn name value, s, s', c, h, hreturns, height => by
    unfold resolveStmt at h
    split at h
    · obtain ⟨⟨t, s₁⟩, hvalue, h⟩ := bind_eq_ok_iff.mp h
      cases h
      exact stays_assignment (resolveExpr_stays value hvalue hreturns) height
    · obtain ⟨⟨t, s₁⟩, hvalue, h⟩ := bind_eq_ok_iff.mp h
      cases h
      exact stays_assignment (resolveExpr_stays value hvalue hreturns) height
  | .throw value, s, s', c, h, hreturns, height => by
    obtain ⟨⟨t, s₁⟩, hvalue, h⟩ := bind_eq_ok_iff.mp h
    cases h
    exact stays_bind (resolveExpr_stays value hvalue hreturns height) fun v => stays_settle _
  | .expr value, s, s', c, h, hreturns, height => by
    obtain ⟨⟨t, s₁⟩, hvalue, h⟩ := bind_eq_ok_iff.mp h
    cases h
    exact stays_bind (resolveExpr_stays value hvalue hreturns height) fun v => stays_pure ()
  | .empty, s, s', c, h, hreturns, height => by
    cases h
    exact stays_pure ()

/-- The commands of statements without `return` stay. -/
theorem resolveStmts_stays : ∀ (statements : List Stmt) {s s' : Site} {cs : List Command},
    resolveStmts statements s = .ok (cs, s') → Program.returns statements = false →
    ∀ c ∈ cs, ∀ height, (perform calls c height).Stays
  | [], s, s', cs, h, hreturns => by
    cases h
    exact fun c hc => absurd hc List.not_mem_nil
  | statement :: rest, s, s', cs, h, hreturns => by
    obtain ⟨hfirst, hrest⟩ := Bool.or_eq_false_iff.mp hreturns
    obtain ⟨⟨c, s₁⟩, hstatement, h⟩ := bind_eq_ok_iff.mp h
    obtain ⟨⟨commands, s₂⟩, hstatements, h⟩ := bind_eq_ok_iff.mp h
    cases h
    exact List.forall_mem_cons.mpr ⟨resolveStmt_stays statement hstatement hfirst,
      resolveStmts_stays rest hstatements hrest⟩

end

end

end Semantics

end Notebook
