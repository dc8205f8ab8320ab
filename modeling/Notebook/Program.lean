import Notebook.Token

/-!
Programs of the snippet language.

A program is a list of statements. The bodies of conditionals and functions are lists of statements
too; a lone `;` is the empty statement.
-/

namespace Notebook

inductive UnaryOp where
  | negate | not
  deriving DecidableEq, Repr

def UnaryOp.symbol : UnaryOp → Symbol
  | .negate => .minus
  | .not => .bang

inductive BinaryOp where
  | add | sub | mul | div | equal | notEqual | less | greater
  deriving DecidableEq, Repr

def BinaryOp.symbol : BinaryOp → Symbol
  | .add => .plus
  | .sub => .minus
  | .mul => .asterisk
  | .div => .slash
  | .equal => .equal
  | .notEqual => .notEqual
  | .less => .less
  | .greater => .greater

mutual

/-- Expressions. A conditional is one, so its blocks are used for their values. Parentheses leave no trace. -/
inductive Expr where
  | ident (name : String)
  | int (value : Int64)
  | str (text : String)
  | bool (value : Bool)
  | null
  | array (elements : List Expr)
  | unary (op : UnaryOp) (operand : Expr)
  | binary (op : BinaryOp) (left right : Expr)
  | cond (condition : Expr) (consequence : List Stmt) (alternative : Option (List Stmt))
  | function (params : List String) (body : List Stmt)
  | call (callee : Expr) (args : List Expr)
  | index (collection position : Expr)

/-- Statements. The empty one stands for a semicolon by itself; it counts as a statement where the value of a
block is looked for. -/
inductive Stmt where
  | letIn (name : String) (value : Expr)
  | ret (value : Expr)
  | throw (value : Expr)
  | expr (value : Expr)
  | empty

end

deriving instance Repr for Expr, Stmt

/-- The statements of a snippet. -/
abbrev Program := List Stmt

def Expr.isFunction : Expr → Bool
  | .function _ _ => true
  | _ => false

end Notebook
