import Notebook.CompiledUnit
import Notebook.Compiler.Walk
import Notebook.Scope

/-!
Compiling programs to code, one snippet at a time.

The compiler walks a program once and emits code as it goes; where a jump leads is patched in when
it is known. Names and the count of constants survive from snippet to snippet, which is how a
snippet refers to what earlier ones declared. A snippet that does not compile leaves both as they
were.

An expression leaves one value. A block that is used for its value leaves the value of its last
statement if that is an expression, and null otherwise: the compiler finds out by looking at the
last instruction it emitted.
-/

namespace Notebook

/-- Why a program does not compile. -/
inductive CompileError where
  | unresolved (name : String)
  | closure (name : String)
  | operand (cause : OperandError)
  deriving DecidableEq, Repr

def CompileError.message : CompileError → String
  | .unresolved name => "unresolved reference: " ++ name
  | .closure name =>
    "closures are not supported: " ++ name ++ " belongs to an enclosing function"
  | .operand cause => cause.message

/-! ### Code under construction -/

structure Emitted where
  opcode : Opcode
  start : Nat
  deriving DecidableEq, Repr

/-- The code of a snippet or function so far, and the last two instructions emitted into it. They tell whether a
`Pop` stands at the end that can be taken back; the older one takes the place of a `Pop` that was. -/
structure Buffer where
  code : Code := {}
  last : Option Emitted := none
  previous : Option Emitted := none
  deriving DecidableEq, Repr

namespace Buffer

/-- The buffer with one more instruction. -/
def emit (op : Opcode) (operands : List Nat) : Buffer → Except OperandError Buffer
  | ⟨code, last, _⟩ =>
    let start := code.size
    match op.encode operands with
    | .ok bytes => .ok ⟨code.append bytes, some ⟨op, start⟩, last⟩
    | .error cause => .error cause

def endsWith (b : Buffer) (op : Opcode) : Bool :=
  match b.last with
  | some last => last.opcode == op
  | none => false

/-- The buffer without the `Pop` at its end. The instruction before it is then remembered twice, since nobody
knows what came before that one. -/
def dropPop : Buffer → Buffer
  | ⟨code, some ⟨.pop, start⟩, previous⟩ => ⟨code.take start, previous, previous⟩
  | b => b

/-- The buffer in which the jump at `position` leads to the end. Nothing is added, so what is remembered of the
last instructions stays. -/
def patchJump (position : Nat) : Buffer → Except OperandError Buffer
  | ⟨code, last, previous⟩ =>
    let target := code.size
    match code.patchWord position target with
    | .ok code => .ok ⟨code, last, previous⟩
    | .error cause => .error cause

end Buffer

/-! ### The compiler's state -/

/-- The compiler. `constantsOffset` counts the constants of the snippets compiled so far: the operands in the
code count from there. The buffer, constants and declarations belong to the snippet being compiled, and are
empty between snippets. -/
structure Compiler where
  scope : Scope := .initial
  constantsOffset : Nat := 0
  buffer : Buffer := {}
  constants : Array Value := #[]
  declarations : Array Declaration := #[]
  deriving DecidableEq, Repr

/-- What of the compiler survives from snippet to snippet, at some moment. -/
structure Checkpoint where
  scope : Scope
  constantsOffset : Nat
  deriving DecidableEq, Repr

namespace Compiler

def onBuffer (change : Buffer → Except OperandError Buffer) :
    Compiler → Except CompileError Compiler
  | ⟨scope, constantsOffset, buffer, constants, declarations⟩ =>
    match change buffer with
    | .ok buffer => .ok ⟨scope, constantsOffset, buffer, constants, declarations⟩
    | .error cause => .error (.operand cause)

def emit (op : Opcode) (operands : List Nat) (c : Compiler) : Except CompileError Compiler :=
  c.onBuffer (Buffer.emit op operands)

def patchJump (position : Nat) (c : Compiler) : Except CompileError Compiler :=
  c.onBuffer (Buffer.patchJump position)

/-- Where the next instruction will start. -/
def here (c : Compiler) : Nat := c.buffer.code.size

/-- Emits a constant of the snippet's own. Its operand says which of these it is, not where in the session's
pool it will be. -/
def emitConstant (v : Value) (c : Compiler) : Except CompileError Compiler :=
  let index := c.constants.size
  emit .constant [index] { c with constants := c.constants.push v }

/-- Emits the value of a name. A name of a function further out is an error, since functions carry no
environment. -/
def emitReference (name : String) (c : Compiler) : Except CompileError Compiler :=
  match c.scope.resolve name with
  | some (.global index) => c.emit .getGlobal [index]
  | some (.own index) => c.emit .getLocal [index]
  | some (.builtin index) => c.emit .getBuiltin [index]
  | some (.captured _) => .error (.closure name)
  | none => .error (.unresolved name)

/-- Emits the assignment of a slot that `name` was defined for, and declares it if it is global. -/
def emitAssignment (name : String) (index : Nat) (c : Compiler) : Except CompileError Compiler :=
  match c.scope with
  | .session _ => do
    let c ← c.emit .setGlobal [index]
    .ok { c with declarations := c.declarations.push ⟨name, index⟩ }
  | .function _ _ => c.emit .setLocal [index]

/-- Makes the block just compiled leave a value. If it ends with an expression statement, that is the value
which the statement's `Pop` would drop. -/
def closeBlock (c : Compiler) : Except CompileError Compiler :=
  if c.buffer.endsWith .pop then .ok { c with buffer := c.buffer.dropPop }
  else c.emit .pushNull []

/-- Makes the function body just compiled return: the value of an expression statement at its end, or nothing if
it does not end with a `return` already. -/
def closeBody (c : Compiler) : Except CompileError Compiler :=
  if c.buffer.endsWith .pop then
    emit .returnValue [] { c with buffer := c.buffer.dropPop }
  else if c.buffer.endsWith .returnValue then .ok c
  else c.emit .ret []

/-! ### The walk -/

/-- A function literal, the inside of which has a buffer and a level of names of its own. Its code becomes one
more constant of the snippet; the code around it goes on where it was. -/
def functionLiteral (params : List String) (inside : Compiler → Except CompileError Compiler)
    (c : Compiler) : Except CompileError Compiler := do
  let scope := c.scope
  let buffer := c.buffer
  let c ← inside { c with scope := scope.enter params, buffer := {} }
  let c ← c.closeBody
  let f : FunctionCode := ⟨c.buffer.code, c.constantsOffset, c.scope.slots, params.length⟩
  emitConstant (.function f) { c with scope := scope, buffer := buffer }

def steps : Steps (Compiler → Except CompileError Compiler) where
  skip c := .ok c
  andThen first second c := first c >>= second
  emit := emit
  constant := emitConstant
  reference := emitReference
  define name next c := next c.scope.slots { c with scope := c.scope.define name }
  assign := emitAssignment
  here next c := next c.here c
  patchJump := patchJump
  block _ inside c := inside c >>= closeBlock
  function params _ := functionLiteral params

def expr : Expr → Compiler → Except CompileError Compiler := steps.expr

def exprs : List Expr → Compiler → Except CompileError Compiler := steps.exprs

def stmt : Stmt → Compiler → Except CompileError Compiler := steps.stmt

def stmts : List Stmt → Compiler → Except CompileError Compiler := steps.stmts

def topLevel : Program → Compiler → Except CompileError Compiler := steps.topLevel

theorem expr_binary {op : BinaryOp} (hop : op ≠ .less) (left right : Expr) (c : Compiler) :
    expr (.binary op left right) c =
      (expr left c >>= fun c => expr right c >>= fun c => c.emit op.opcode []) :=
  congrFun (steps.expr_binary hop left right) c

/-- A conditional, step by step, as its two jumps are emitted and patched. -/
theorem expr_cond (condition : Expr) (consequence : List Stmt) (alternative : Option (List Stmt))
    (c : Compiler) : expr (.cond condition consequence alternative) c = (do
      let c ← expr condition c
      let branch := c.here
      let c ← c.emit .jumpNotTruthy [Steps.unpatched]
      let c ← stmts consequence c
      let c ← c.closeBlock
      let skip := c.here
      let c ← c.emit .jump [Steps.unpatched]
      let c ← c.patchJump branch
      match alternative with
      | none => do
        let c ← c.emit .pushNull []
        c.patchJump skip
      | some body => do
        let c ← stmts body c
        let c ← c.closeBlock
        c.patchJump skip) := by
  cases alternative <;> simp [expr, stmts, Steps.expr, Steps.choice, steps]

theorem stmt_letIn (name : String) (value : Expr) (c : Compiler) : stmt (.letIn name value) c =
    (if value.isFunction then do
      let index := c.scope.slots
      let c ← expr value { c with scope := c.scope.define name }
      c.emitAssignment name index
    else do
      let c ← expr value c
      let index := c.scope.slots
      emitAssignment name index { c with scope := c.scope.define name }) := by
  simp only [stmt, Steps.stmt, steps]
  split <;> rfl

theorem topLevel_cons {s : Stmt} {rest : Program} (h : ¬ ∃ value, s = .expr value ∧ rest = [])
    (c : Compiler) : topLevel (s :: rest) c = (stmt s c >>= fun c => topLevel rest c) :=
  congrFun (steps.topLevel_cons h) c

/-! ### Snippets -/

def idle (scope : Scope) (constantsOffset : Nat) : Compiler := { scope, constantsOffset }

def checkpoint (c : Compiler) : Checkpoint := ⟨c.scope, c.constantsOffset⟩

/-- The compiler with the names and the count of constants that it had at a checkpoint. What belongs to a
snippet under construction is left alone. -/
def restore (saved : Checkpoint) (c : Compiler) : Compiler :=
  { c with scope := saved.scope, constantsOffset := saved.constantsOffset }

def finished (c : Compiler) (snippet : SnippetId) (type : Option ValueType) : CompiledUnit where
  snippet := snippet
  constantsOffset := c.constantsOffset
  constants := c.constants.toList
  code := c.buffer.code
  declarations := c.declarations.toList
  globals := c.scope.slots
  declaredType := type.map ValueType.name

/-- Compiles a snippet. The constants of one that compiles are counted for the snippets after it; names and
constants of one that does not are forgotten. -/
def compile (snippet : SnippetId) (p : Program) (c : Compiler) :
    Except CompileError CompiledUnit × Compiler :=
  match topLevel p c with
  | .ok done =>
    (.ok (done.finished snippet (Program.valueType p)),
      idle done.scope (done.constantsOffset + done.constants.size))
  | .error cause => (.error cause, idle c.scope c.constantsOffset)

end Compiler

end Notebook
