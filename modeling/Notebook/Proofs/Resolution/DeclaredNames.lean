import Mathlib.Data.List.Nodup
import Notebook.Proofs.Resolution.Declarations
import Notebook.Proofs.Store.LinkedUnits
import Notebook.Proofs.Syntax.ProgramKinds

/-!
The names that a program declares.

`Program.declared` reads them off the program: the names of its `let`s outside of function literals,
in the order in which they are evaluated.

* `scope_of_resolveStmts`: a program defines the names that it declares, and no others.
* `Compiler.Compiled.name_mem_declared`, `Compiler.Compiled.exists_declaration`: so its unit declares
  these names, and no others.
* `Store.get?_bind_of_notMem`, `Store.get?_bind_of_last`: what the store has bound once the program has run.
-/

namespace Notebook

/-- The scope in which all of these names were defined, one after the other. -/
def Scope.defineAll (names : List String) (s : Scope) : Scope :=
  names.foldl (fun s name => s.define name) s

namespace Scope

@[simp] theorem defineAll_append (names more : List String) (s : Scope) :
    s.defineAll (names ++ more) = (s.defineAll names).defineAll more :=
  List.foldl_append

/-- Names that were defined leave all others alone. -/
theorem resolve_defineAll_of_notMem {name : String} {names : List String} (h : name ∉ names) :
    ∀ {s : Scope}, s.isSession = true → (s.defineAll names).resolve name = s.resolve name := by
  induction names with
  | nil => exact fun _ => rfl
  | cons other rest ih =>
    intro s hs
    obtain ⟨hother, hrest⟩ := List.ne_and_not_mem_of_not_mem_cons h
    cases s with
    | function level enclosing => cases hs
    | session level =>
      have hdefined := ih hrest (s := (Scope.session level).define other) rfl
      rw [Scope.resolve_define, if_neg (Ne.symm hother)] at hdefined
      exact hdefined

/-- Names that were defined refer to new globals. -/
theorem resolve_defineAll_of_mem {name : String} {names : List String} (h : name ∈ names) :
    ∀ {s : Scope}, s.isSession = true →
      ∃ i, s.slots ≤ i ∧ (s.defineAll names).resolve name = some (.global i) := by
  induction names with
  | nil => cases h
  | cons other rest ih =>
    intro s hs
    cases s with
    | function level enclosing => cases hs
    | session level =>
      by_cases hrest : name ∈ rest
      · obtain ⟨i, hle, hi⟩ := ih hrest (s := (Scope.session level).define other) rfl
        exact ⟨i, Nat.le_of_succ_le hle, hi⟩
      · obtain rfl : name = other := (List.mem_cons.mp h).resolve_right hrest
        refine ⟨level.slots, Nat.le_refl _, ?_⟩
        have hkept := resolve_defineAll_of_notMem hrest (s := (Scope.session level).define name) rfl
        rw [Scope.resolve_define, if_pos rfl] at hkept
        exact hkept

/-- Every name that is defined takes a slot. -/
theorem slots_defineAll (names : List String) (s : Scope) :
    (s.defineAll names).slots = s.slots + names.length := by
  induction names generalizing s with
  | nil => rfl
  | cons name rest ih =>
    have hnext : (s.define name).slots = s.slots + 1 := by cases s <;> rfl
    have hrest := ih (s.define name)
    rw [hnext] at hrest
    rw [List.length_cons, Nat.add_comm rest.length, ← Nat.add_assoc]
    exact hrest

end Scope

/-! ### Declared names -/

mutual

/-- An expression defines the names that it declares. Inside of function literals there are scopes of their own,
and nothing is left of these. -/
theorem scope_of_resolveExpr : ∀ (e : Expr) {s s' : Site} {t : Term},
    resolveExpr e s = .ok (t, s') → s'.scope = s.scope.defineAll e.declared
  | .ident name, s, s', t, h => by
    unfold resolveExpr at h
    split at h <;> cases h <;> rfl
  | .int value, s, s', t, h | .str text, s, s', t, h | .bool value, s, s', t, h
  | .null, s, s', t, h => by
    cases h
    rfl
  | .array elements, s, s', t, h => by
    obtain ⟨⟨terms, s₁⟩, helements, h⟩ := bind_eq_ok_iff.mp h
    cases h
    exact scope_of_resolveExprs elements helements
  | .unary op operand, s, s', t, h => by
    obtain ⟨⟨t₁, s₁⟩, hoperand, h⟩ := bind_eq_ok_iff.mp h
    cases h
    exact scope_of_resolveExpr operand hoperand
  | .binary op left right, s, s', t, h => by
    unfold resolveExpr at h
    unfold Expr.declared
    split at h
    · rename_i hless
      obtain ⟨⟨t₁, s₁⟩, hright, h⟩ := bind_eq_ok_iff.mp h
      obtain ⟨⟨t₂, s₂⟩, hleft, h⟩ := bind_eq_ok_iff.mp h
      cases h
      rw [if_pos hless, Scope.defineAll_append, ← scope_of_resolveExpr right hright,
        scope_of_resolveExpr left hleft]
    · rename_i hless
      obtain ⟨⟨t₁, s₁⟩, hleft, h⟩ := bind_eq_ok_iff.mp h
      obtain ⟨⟨t₂, s₂⟩, hright, h⟩ := bind_eq_ok_iff.mp h
      cases h
      rw [if_neg hless, Scope.defineAll_append, ← scope_of_resolveExpr left hleft,
        scope_of_resolveExpr right hright]
  | .cond condition consequence alternative, s, s', t, h => by
    unfold resolveExpr at h
    obtain ⟨⟨test, s₁⟩, htest, h⟩ := bind_eq_ok_iff.mp h
    obtain ⟨⟨yes, s₂⟩, hyes, h⟩ := bind_eq_ok_iff.mp h
    have hbranch : s₂.scope =
        s.scope.defineAll (condition.declared ++ Program.declared consequence) := by
      rw [Scope.defineAll_append, ← scope_of_resolveExpr condition htest,
        scope_of_resolveStmts consequence hyes]
    cases alternative with
    | none =>
      cases h
      unfold Expr.declared
      rw [List.append_nil]
      exact hbranch
    | some body =>
      obtain ⟨⟨no, s₃⟩, hno, h⟩ := bind_eq_ok_iff.mp h
      cases h
      unfold Expr.declared
      rw [Scope.defineAll_append, ← hbranch]
      exact scope_of_resolveStmts body hno
  | .function params body, s, s', t, h => by
    obtain ⟨⟨commands, inner⟩, -, h⟩ := bind_eq_ok_iff.mp h
    cases h
    rfl
  | .call callee args, s, s', t, h => by
    obtain ⟨⟨t₁, s₁⟩, hcallee, h⟩ := bind_eq_ok_iff.mp h
    obtain ⟨⟨terms, s₂⟩, hargs, h⟩ := bind_eq_ok_iff.mp h
    cases h
    unfold Expr.declared
    rw [Scope.defineAll_append, ← scope_of_resolveExpr callee hcallee]
    exact scope_of_resolveExprs args hargs
  | .index collection position, s, s', t, h => by
    obtain ⟨⟨t₁, s₁⟩, hcollection, h⟩ := bind_eq_ok_iff.mp h
    obtain ⟨⟨t₂, s₂⟩, hposition, h⟩ := bind_eq_ok_iff.mp h
    cases h
    unfold Expr.declared
    rw [Scope.defineAll_append, ← scope_of_resolveExpr collection hcollection]
    exact scope_of_resolveExpr position hposition

theorem scope_of_resolveExprs : ∀ (es : List Expr) {s s' : Site} {terms : List Term},
    resolveExprs es s = .ok (terms, s') → s'.scope = s.scope.defineAll (declaredByAll es)
  | [], s, s', terms, h => by
    cases h
    rfl
  | e :: rest, s, s', terms, h => by
    obtain ⟨⟨t, s₁⟩, hfirst, h⟩ := bind_eq_ok_iff.mp h
    obtain ⟨⟨ts, s₂⟩, hrest, h⟩ := bind_eq_ok_iff.mp h
    cases h
    unfold declaredByAll
    rw [Scope.defineAll_append, ← scope_of_resolveExpr e hfirst]
    exact scope_of_resolveExprs rest hrest

theorem scope_of_resolveStmt : ∀ (statement : Stmt) {s s' : Site} {c : Command},
    resolveStmt statement s = .ok (c, s') → s'.scope = s.scope.defineAll statement.declared
  | .letIn name value, s, s', c, h => by
    unfold resolveStmt at h
    unfold Stmt.declared
    rw [Scope.defineAll_append]
    split at h
    · -- A function literal declares nothing itself, so its name may as well come first.
      rename_i hfunction
      obtain ⟨⟨t, s₁⟩, hvalue, h⟩ := bind_eq_ok_iff.mp h
      cases h
      have hnothing : value.declared = [] := by
        cases value with
        | function params body => rfl
        | _ => cases hfunction
      rw [scope_of_resolveExpr value hvalue, hnothing]
      rfl
    · obtain ⟨⟨t, s₁⟩, hvalue, h⟩ := bind_eq_ok_iff.mp h
      cases h
      rw [← scope_of_resolveExpr value hvalue]
      rfl
  | .ret value, s, s', c, h | .throw value, s, s', c, h | .expr value, s, s', c, h => by
    obtain ⟨⟨t, s₁⟩, hvalue, h⟩ := bind_eq_ok_iff.mp h
    cases h
    exact scope_of_resolveExpr value hvalue
  | .empty, s, s', c, h => by
    cases h
    rfl

/-- A program defines the names that it declares. -/
theorem scope_of_resolveStmts : ∀ (p : List Stmt) {s s' : Site} {commands : List Command},
    resolveStmts p s = .ok (commands, s') → s'.scope = s.scope.defineAll (Program.declared p)
  | [], s, s', commands, h => by
    cases h
    rfl
  | statement :: rest, s, s', commands, h => by
    obtain ⟨⟨c, s₁⟩, hfirst, h⟩ := bind_eq_ok_iff.mp h
    obtain ⟨⟨cs, s₂⟩, hrest, h⟩ := bind_eq_ok_iff.mp h
    cases h
    unfold Program.declared
    rw [Scope.defineAll_append, ← scope_of_resolveStmt statement hfirst]
    exact scope_of_resolveStmts rest hrest

end

/-! ### Declarations of units -/

namespace Compiler.Compiled

variable {c c' : Compiler} {routines : List Routine} {n : SnippetId} {p : Program} {u : CompiledUnit}
  {commands : List Command} {place : Site}

/-- The compiler's scope after a snippet. -/
theorem scope (hc : c.Compiled routines n p u c' commands place) :
    c'.scope = c.scope.defineAll (Program.declared p) := by
  rw [hc.after]
  exact scope_of_resolveStmts p hc.resolved

/-- A unit declares names that its program declares. -/
theorem name_mem_declared (hc : c.Compiled routines n p u c' commands place)
    (hidle : c.declarations = #[]) (hsession : c.scope.isSession = true) (hvalid : c.scope.Valid)
    (h : c.compile n p = (.ok u, c')) {d : Declaration} (hd : d ∈ u.declarations) :
    d.name ∈ Program.declared p := by
  by_contra hname
  obtain ⟨i, hle, hi⟩ :=
    (compile_introduces hidle hsession hvalid h).found d (List.mem_toArray.mpr hd)
  rw [hc.scope, Scope.resolve_defineAll_of_notMem hname hsession] at hi
  have hlt := Scope.Introduces.lt_slots hsession hvalid hi
  omega

/-- A unit declares all of the names that its program declares. -/
theorem exists_declaration (hc : c.Compiled routines n p u c' commands place)
    (hidle : c.declarations = #[]) (hsession : c.scope.isSession = true) (hvalid : c.scope.Valid)
    (h : c.compile n p = (.ok u, c')) {name : String} (hname : name ∈ Program.declared p) :
    ∃ d ∈ u.declarations, d.name = name := by
  obtain ⟨i, hle, hi⟩ := Scope.resolve_defineAll_of_mem hname hsession
  rw [← hc.scope] at hi
  obtain ⟨d, hd, hsame⟩ := (compile_introduces hidle hsession hvalid h).named name i hi hle
  exact ⟨d, List.mem_toArray.mp hd, hsame⟩

end Compiler.Compiled

/-! ### Bindings -/

/-- What is there has a last place. -/
theorem exists_last {α : Type} {P : α → Prop} {l : List α} (h : ∃ a ∈ l, P a) :
    ∃ before a after, l = before ++ a :: after ∧ P a ∧ ∀ later ∈ after, ¬ P later := by
  induction l with
  | nil =>
    obtain ⟨a, ha, -⟩ := h
    cases ha
  | cons first rest ih =>
    by_cases hrest : ∃ a ∈ rest, P a
    · obtain ⟨before, a, after, rfl, ha, hafter⟩ := ih hrest
      exact ⟨first :: before, a, after, rfl, ha, hafter⟩
    · obtain ⟨a, ha, hP⟩ := h
      rcases List.mem_cons.mp ha with rfl | ha
      · exact ⟨[], a, rest, rfl, hP, fun later hlater hP => hrest ⟨later, hlater, hP⟩⟩
      · exact absurd ⟨a, ha, hP⟩ hrest

/-- Entering a name keeps the names apart. -/
theorem NameTable.nodup_insert {α : Type} {t : NameTable α} (h : t.names.Nodup) (name : String) (v : α) :
    (t.insert name v).names.Nodup := by
  rw [names_insert]
  split
  · exact h
  · rename_i hnew
    exact List.Nodup.append h (List.nodup_singleton _) (List.disjoint_singleton.mpr hnew)

namespace Store

variable {n : SnippetId} {ds : List Declaration} {t : NameTable Binding} {name : String}

/-- A name that is not among what a snippet declares stands for what it did. -/
theorem get?_bind_of_notMem (h : ∀ d ∈ ds, d.name ≠ name) :
    (bind n ds t).get? name = t.get? name := by
  induction ds generalizing t with
  | nil => rfl
  | cons d rest ih =>
    obtain ⟨hd, hrest⟩ := List.forall_mem_cons.mp h
    refine (ih hrest).trans ?_
    rw [NameTable.get?_insert, if_neg hd]

/-- A name stands for what the last declaration of it says. -/
theorem get?_bind_of_last (before : List Declaration) {d : Declaration} {after : List Declaration}
    (hlast : ∀ later ∈ after, later.name ≠ d.name) :
    (bind n (before ++ d :: after) t).get? d.name = some ⟨d.index, n⟩ := by
  have hbind : bind n (before ++ d :: after) t =
      bind n after ((bind n before t).insert d.name ⟨d.index, n⟩) := by
    unfold bind
    rw [List.foldl_append, List.foldl_cons]
  rw [hbind, get?_bind_of_notMem hlast, NameTable.get?_insert, if_pos rfl]

/-- A name that a snippet declares stands for something that this snippet bound. -/
theorem line_of_bind (h : ∃ d ∈ ds, d.name = name) :
    ∃ i, (bind n ds t).get? name = some ⟨i, n⟩ := by
  obtain ⟨before, d, after, rfl, rfl, hlast⟩ := exists_last h
  exact ⟨d.index, get?_bind_of_last before hlast⟩

/-- Binding names keeps them apart. -/
theorem nodup_bind (h : t.names.Nodup) : (bind n ds t).names.Nodup := by
  induction ds generalizing t with
  | nil => exact h
  | cons d rest ih => exact ih (NameTable.nodup_insert h _ _)

end Store

end Notebook
