import Notebook.Bytecode.Opcode
import Notebook.Program
import Notebook.Value

/-!
The walk through a program that compiling is.

What is compiled, and in which order, does not depend on what a compiler is made of. A compiler is
given by its single steps, as a `Steps`: to emit an instruction, to look a name up, to define one, to
put a block or a function literal together. `Steps.expr` and its companions put the steps of a program
together, whatever they are: functions from compiler to compiler, or changes of one that is kept in
place.
-/

namespace Notebook

/-- The opcode of an operator; `a < b` is compiled as `b > a`. -/
def BinaryOp.opcode : BinaryOp → Opcode
  | .add => .add
  | .sub => .sub
  | .mul => .mul
  | .div => .div
  | .equal => .equal
  | .notEqual => .notEqual
  | .less | .greater => .greaterThan

def UnaryOp.opcode : UnaryOp → Opcode
  | .negate => .minus
  | .not => .bang

/-- The type of an expression's value, where its form alone tells. An operator that fails for other operands
still has the type of its result. -/
def Expr.declaredType : Expr → Option ValueType
  | .int _ => some .int
  | .str _ => some .string
  | .bool _ => some .boolean
  | .array _ => some .array
  | .function _ _ => some .function
  | .unary .not _ => some .boolean
  | .binary .equal _ _ | .binary .notEqual _ _ | .binary .less _ _ | .binary .greater _ _ =>
    some .boolean
  | _ => none

/-- The type of a program's value, which is that of the expression at its end. Whether the program gets to its
end is not asked. -/
def Program.valueType (p : List Stmt) : Option ValueType :=
  match p.getLast? with
  | some (.expr value) => value.declaredType
  | _ => none

/-- What a compiler can do, where `α` is what it does. Steps that find something out, as `define` does
with the slot of a name and `here` with the place of the next instruction, are told what to do with it.
`block` and `function` are told what is inside; a block is used for its value. -/
structure Steps (α : Type) where
  skip : α
  andThen : α → α → α
  emit : Opcode → List Nat → α
  constant : Value → α
  reference : String → α
  define : String → (Nat → α) → α
  assign : String → Nat → α
  here : (Nat → α) → α
  patchJump : Nat → α
  block : List Stmt → α → α
  function : List String → List Stmt → α → α

namespace Steps

/-- What the operand of a jump holds until it is patched. No code is ever run that still holds it. -/
def unpatched : Nat := 9999

variable {α : Type} (S : Steps α)

/-- A conditional. The jump over its first way is patched when the second one begins, and the jump over
that when it ends. -/
def choice (test yes no : α) : α :=
  S.andThen test <| S.here fun branch =>
    S.andThen (S.emit .jumpNotTruthy [unpatched]) <| S.andThen yes <| S.here fun skip =>
      S.andThen (S.emit .jump [unpatched]) <| S.andThen (S.patchJump branch) <|
        S.andThen no (S.patchJump skip)

mutual

/-- Compiles an expression, which leaves its value. -/
def expr : Expr → α
  | .ident name => S.reference name
  | .int value => S.constant (.int value)
  | .str text => S.constant (.str text)
  | .bool true => S.emit .pushTrue []
  | .bool false => S.emit .pushFalse []
  | .null => S.emit .pushNull []
  | .array elements => S.andThen (exprs elements) (S.emit .array [elements.length])
  | .unary op operand => S.andThen (expr operand) (S.emit op.opcode [])
  | .binary .less left right =>
    S.andThen (expr right) (S.andThen (expr left) (S.emit .greaterThan []))
  | .binary op left right =>
    S.andThen (expr left) (S.andThen (expr right) (S.emit op.opcode []))
  | .cond condition consequence none =>
    S.choice (expr condition) (S.block consequence (stmts consequence)) (S.emit .pushNull [])
  | .cond condition consequence (some alternative) =>
    S.choice (expr condition) (S.block consequence (stmts consequence))
      (S.block alternative (stmts alternative))
  | .function params body => S.function params body (stmts body)
  | .call callee args =>
    S.andThen (expr callee) (S.andThen (exprs args) (S.emit .call [args.length]))
  | .index collection position =>
    S.andThen (expr collection) (S.andThen (expr position) (S.emit .index []))

def exprs : List Expr → α
  | [] => S.skip
  | e :: rest => S.andThen (expr e) (exprs rest)

/-- Compiles a statement, which leaves nothing. A function literal sees the name that it is bound to, so it can
call itself; any other value sees what the name meant before. -/
def stmt : Stmt → α
  | .letIn name value =>
    if value.isFunction then
      S.define name fun index => S.andThen (expr value) (S.assign name index)
    else S.andThen (expr value) (S.define name (S.assign name))
  | .ret value => S.andThen (expr value) (S.emit .returnValue [])
  | .throw value => S.andThen (expr value) (S.emit .throwValue [])
  | .expr value => S.andThen (expr value) (S.emit .pop [])
  | .empty => S.skip

def stmts : List Stmt → α
  | [] => S.skip
  | s :: rest => S.andThen (stmt s) (stmts rest)

end

/-- Compiles the top level of a snippet. An expression at the very end becomes the snippet's value; a snippet
that ends in another way has none. -/
def topLevel : List Stmt → α
  | [] => S.emit .ret []
  | [.expr value] => S.andThen (S.expr value) (S.emit .returnValue [])
  | s :: rest => S.andThen (S.stmt s) (topLevel rest)

theorem expr_binary {op : BinaryOp} (hop : op ≠ .less) (left right : Expr) :
    S.expr (.binary op left right) =
      S.andThen (S.expr left) (S.andThen (S.expr right) (S.emit op.opcode [])) := by
  cases op <;> first | exact absurd rfl hop | rfl

/-- A statement at the top level is compiled as anywhere else, unless it is an expression at the end. -/
theorem topLevel_cons {s : Stmt} {rest : List Stmt} (h : ¬ ∃ value, s = .expr value ∧ rest = []) :
    S.topLevel (s :: rest) = S.andThen (S.stmt s) (S.topLevel rest) := by
  conv => lhs; unfold topLevel
  split
  · rename_i heq
    cases heq
  · rename_i heq
    cases heq
    exact absurd ⟨_, rfl, rfl⟩ h
  · rename_i heq
    cases heq
    rfl

end Steps

end Notebook
