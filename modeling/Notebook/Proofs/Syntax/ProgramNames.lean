import Notebook.Program

/-!
The names in a program.

* `Expr.declared`, `Program.declared`: the names that are defined when a program runs, in order. Those inside of a
  function literal are the function's own.
* `Expr.rename`, `Program.rename`: the same program with other names.
-/

namespace Notebook

/-! ### Declared names -/

mutual

/-- The names of the `let`s in an expression that are not inside of function literals, in the order in which a
compiler meets them. Both branches of a conditional count, and so does a name that is there twice. -/
def Expr.declared : Expr → List String
  | .ident _ | .int _ | .str _ | .bool _ | .null | .function _ _ => []
  | .array elements => declaredByAll elements
  | .unary _ operand => operand.declared
  | .binary op left right =>
    if op = .less then right.declared ++ left.declared else left.declared ++ right.declared
  | .cond condition consequence alternative =>
    condition.declared ++ Program.declared consequence ++
      match alternative with
      | none => []
      | some body => Program.declared body
  | .call callee args => callee.declared ++ declaredByAll args
  | .index collection position => collection.declared ++ position.declared

def declaredByAll : List Expr → List String
  | [] => []
  | e :: rest => e.declared ++ declaredByAll rest

def Stmt.declared : Stmt → List String
  | .letIn name value => value.declared ++ [name]
  | .ret value | .throw value | .expr value => value.declared
  | .empty => []

def Program.declared : List Stmt → List String
  | [] => []
  | s :: rest => s.declared ++ Program.declared rest

end

/-! ### Other names -/

mutual

/-- An expression in which every name was replaced, those of parameters and `let`s included. Nothing is done
about names that become the same. -/
def Expr.rename (σ : String → String) : Expr → Expr
  | .ident name => .ident (σ name)
  | .int value => .int value
  | .str text => .str text
  | .bool value => .bool value
  | .null => .null
  | .array elements => .array (renameExprs σ elements)
  | .unary op operand => .unary op (operand.rename σ)
  | .binary op left right => .binary op (left.rename σ) (right.rename σ)
  | .cond condition consequence none =>
    .cond (condition.rename σ) (Program.rename σ consequence) none
  | .cond condition consequence (some alternative) =>
    .cond (condition.rename σ) (Program.rename σ consequence) (some (Program.rename σ alternative))
  | .function params body => .function (params.map σ) (Program.rename σ body)
  | .call callee args => .call (callee.rename σ) (renameExprs σ args)
  | .index collection position => .index (collection.rename σ) (position.rename σ)

def renameExprs (σ : String → String) : List Expr → List Expr
  | [] => []
  | e :: rest => e.rename σ :: renameExprs σ rest

def Stmt.rename (σ : String → String) : Stmt → Stmt
  | .letIn name value => .letIn (σ name) (value.rename σ)
  | .ret value => .ret (value.rename σ)
  | .throw value => .throw (value.rename σ)
  | .expr value => .expr (value.rename σ)
  | .empty => .empty

def Program.rename (σ : String → String) : List Stmt → List Stmt
  | [] => []
  | s :: rest => s.rename σ :: Program.rename σ rest

end

/-- Renaming makes no function literals. -/
@[simp] theorem Expr.isFunction_rename (σ : String → String) (e : Expr) :
    (e.rename σ).isFunction = e.isFunction := by
  cases e with
  | cond condition consequence alternative => cases alternative <;> rfl
  | _ => rfl

mutual

@[simp] theorem Expr.rename_id : ∀ e : Expr, e.rename id = e
  | .ident _ | .int _ | .str _ | .bool _ | .null => rfl
  | .array elements => congrArg Expr.array (renameExprs_id elements)
  | .unary op operand => congrArg (Expr.unary op) (Expr.rename_id operand)
  | .binary _ left right => by simp only [Expr.rename, Expr.rename_id left, Expr.rename_id right]
  | .cond condition consequence none => by
    simp only [Expr.rename, Expr.rename_id condition, Program.rename_id consequence]
  | .cond condition consequence (some alternative) => by
    simp only [Expr.rename, Expr.rename_id condition, Program.rename_id consequence,
      Program.rename_id alternative]
  | .function _ body => by simp only [Expr.rename, List.map_id, Program.rename_id body]
  | .call callee args => by simp only [Expr.rename, Expr.rename_id callee, renameExprs_id args]
  | .index collection position => by
    simp only [Expr.rename, Expr.rename_id collection, Expr.rename_id position]

theorem renameExprs_id : ∀ es : List Expr, renameExprs id es = es
  | [] => rfl
  | e :: rest => by simp only [renameExprs, Expr.rename_id e, renameExprs_id rest]

theorem Stmt.rename_id : ∀ s : Stmt, s.rename id = s
  | .letIn name value => congrArg (Stmt.letIn name) (Expr.rename_id value)
  | .ret value => congrArg Stmt.ret (Expr.rename_id value)
  | .throw value => congrArg Stmt.throw (Expr.rename_id value)
  | .expr value => congrArg Stmt.expr (Expr.rename_id value)
  | .empty => rfl

@[simp] theorem Program.rename_id : ∀ p : List Stmt, Program.rename id p = p
  | [] => rfl
  | s :: rest => by simp only [Program.rename, Stmt.rename_id s, Program.rename_id rest]

end

end Notebook
