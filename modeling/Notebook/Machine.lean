import Notebook.RunError

/-!
The machine that runs code: a stack of operands, and a frame for each function call in progress.

`Machine.step` executes one instruction. Most instructions change the operands alone
(`Machine.compute`); the others move between places in the code and between frames. The globals are
not part of the machine: an instruction that assigns one says so in its `Action`, and whoever runs
the machine carries the assignment out.
-/

namespace Notebook

/-- A function call in progress: the next instruction is at `ip`, and the locals start at `base` among the
operands. Parameters come first, then what the body defines. -/
structure Frame where
  function : FunctionCode
  ip : Nat
  base : Nat
  deriving DecidableEq, Repr

/-- A run in progress. The active frame was called by the first of `callers`, and so on. All frames share one
stack of operands. -/
structure Machine where
  frame : Frame
  callers : List Frame
  stack : Array Value
  deriving DecidableEq, Repr

/-- What code runs against: the session's pool of constants, and how many frames there may be. -/
structure Setting where
  constants : Array Value
  maxFrames : Nat

/-- What one instruction leads to. An assignment of a global is handed out, since the machine reads globals
only. -/
inductive Action where
  | next (m : Machine)
  | assign (index : Nat) (v : Value) (m : Machine)
  | finish (value : Option Value)

namespace Machine

def stackLimit : Nat := 2048

/-! ### Operands -/

def push (stack : Array Value) (v : Value) : Except RunError (Array Value) :=
  if stack.size < stackLimit then .ok (stack.push v) else .error .stackOverflow

def pop (stack : Array Value) : Except RunError (Value × Array Value) :=
  match stack.back? with
  | some v => .ok (v, stack.pop)
  | none => .error .stackUnderflow

def resize (stack : Array Value) (n : Nat) : Array Value :=
  if n ≤ stack.size then stack.shrink n
  else stack ++ Array.replicate (n - stack.size) Value.null

/-! ### Operators -/

def checked (n : Int) : Except RunError Value :=
  if Int64.minValue.toInt ≤ n ∧ n ≤ Int64.maxValue.toInt then .ok (.int (Int64.ofInt n)) else .error .overflow

/-- The value of a binary operator. Operands of any types can be compared for equality; integers
take every other operator, strings `+` and `>`. -/
def binary (op : Opcode) (left right : Value) : Except RunError Value :=
  match op, left, right with
  | .equal, l, r => .ok (.bool (l == r))
  | .notEqual, l, r => .ok (.bool (l != r))
  | .add, .int l, .int r => checked (l.toInt + r.toInt)
  | .sub, .int l, .int r => checked (l.toInt - r.toInt)
  | .mul, .int l, .int r => checked (l.toInt * r.toInt)
  | .div, .int l, .int r =>
    if r = 0 then .error .divisionByZero else checked (l.toInt.tdiv r.toInt)
  | .greaterThan, .int l, .int r => .ok (.bool (decide (r < l)))
  | .add, .str l, .str r => .ok (.str (l ++ r))
  | .greaterThan, .str l, .str r => .ok (.bool (decide (r < l)))
  | op, l, r => .error (.operands op l.type r.type)

/-- The element of an array at an integer position, null where there is none. Positions are not counted from the
end. -/
def element (collection position : Value) : Except RunError Value :=
  match collection, position with
  | .array elements, .int i =>
    if i < 0 then .ok .null else .ok (elements[i.toInt.toNat]?.getD .null)
  | c, p => .error (.indexing c.type p.type)

/-! ### Instructions that change the operands alone -/

/-- The operands after such an instruction of `frame`: push or pop, an operator, a read. The instructions that
move between places or frames leave them as they are, and `execute` does not ask for these. -/
def compute (setting : Setting) (globals : Array Value) (frame : Frame) (op : Opcode)
    (operand : Nat) (stack : Array Value) : Except RunError (Array Value) :=
  match op with
  | .constant =>
    let index := frame.function.constantsOffset + operand
    match setting.constants[index]? with
    | some v => push stack v
    | none => .error (.constantNotLoaded index)
  | .add | .sub | .mul | .div | .equal | .notEqual | .greaterThan => do
    let (right, stack) ← pop stack
    let (left, stack) ← pop stack
    let v ← binary op left right
    push stack v
  | .pop => do
    let (_, stack) ← pop stack
    .ok stack
  | .pushTrue => push stack (.bool true)
  | .pushFalse => push stack (.bool false)
  | .pushNull => push stack .null
  | .minus => do
    let (v, stack) ← pop stack
    match v with
    | .int n => do
      let negated ← checked (-n.toInt)
      push stack negated
    | v => .error (.negation v.type)
  | .bang => do
    let (v, stack) ← pop stack
    push stack (.bool !v.isTruthy)
  | .getGlobal =>
    match globals[operand]? with
    | some v => push stack v
    | none => .error (.globalNotDefined operand)
  | .getLocal =>
    match stack[frame.base + operand]? with
    | some v => push stack v
    | none => .error (.localOutOfRange operand)
  | .setLocal => do
    let (v, stack) ← pop stack
    let slot := frame.base + operand
    if slot < stack.size then .ok (stack.setIfInBounds slot v)
    else .error (.localOutOfRange operand)
  | .getBuiltin =>
    match Builtin.ofIndex? operand with
    | some b => push stack (.builtin b)
    | none => .error (.builtinUnknown operand)
  | .array =>
    if operand ≤ stack.size then
      let start := stack.size - operand
      let elements := (stack.extract start stack.size).toList
      push (stack.shrink start) (.array elements)
    else .error .stackUnderflow
  | .index => do
    let (position, stack) ← pop stack
    let (collection, stack) ← pop stack
    let v ← element collection position
    push stack v
  | .jumpNotTruthy | .jump | .setGlobal | .call | .returnValue | .ret | .throwValue => .ok stack

/-! ### Calls -/

/-- Calls the operand below the topmost `args` ones, with `depth` frames in progress. A function
answers with its frame; a builtin is done at once and leaves its value among the operands. -/
def enter (maxFrames depth args : Nat) (stack : Array Value) :
    Except RunError (Option Frame × Array Value) :=
  if stack.size < args + 1 then .error .stackUnderflow
  else
    let callee := stack.size - (args + 1)
    match stack[callee]? with
    | some (.function f) =>
      if args ≠ f.params then .error (.arity f.params args)
      else if maxFrames ≤ depth then .error (.callDepth maxFrames)
      else
        let base := callee + 1
        let top := base + f.locals
        if stackLimit < top then .error .stackOverflow
        else .ok (some ⟨f, 0, base⟩, resize stack top)
    | some (.builtin b) =>
      let given := (stack.extract (callee + 1) stack.size).toList
      match b.apply given with
      | .ok v => do
        let stack ← push (stack.shrink callee) v
        .ok (none, stack)
      | .error cause => .error (.builtin cause)
    | some v => .error (.calling v.type)
    | none => .error .stackUnderflow

/-- Ends the active frame. Its caller gets `value` in place of the function and its locals; the outermost frame
ends the run with `result`. The two differ for a function that returns nothing, which leaves null. -/
def leave (frame : Frame) (callers : List Frame) (stack : Array Value) (value : Value)
    (result : Option Value) : Except RunError Action :=
  match callers with
  | [] => .ok (.finish result)
  | caller :: callers => do
    let stack ← push (stack.shrink (frame.base - 1)) value
    .ok (.next ⟨caller, callers, stack⟩)

/-! ### Steps -/

/-- Carries out an instruction of `frame`, whose `ip` is already past it. -/
def execute (setting : Setting) (globals : Array Value) (op : Opcode) (operand : Nat)
    (frame : Frame) (callers : List Frame) (stack : Array Value) : Except RunError Action :=
  match op with
  | .jump => .ok (.next ⟨{ frame with ip := operand }, callers, stack⟩)
  | .jumpNotTruthy => do
    let (condition, stack) ← pop stack
    if condition.isTruthy then .ok (.next ⟨frame, callers, stack⟩)
    else .ok (.next ⟨{ frame with ip := operand }, callers, stack⟩)
  | .setGlobal => do
    let (v, stack) ← pop stack
    .ok (.assign operand v ⟨frame, callers, stack⟩)
  | .call => do
    let (entered, stack) ← enter setting.maxFrames (callers.length + 1) operand stack
    match entered with
    | some called => .ok (.next ⟨called, frame :: callers, stack⟩)
    | none => .ok (.next ⟨frame, callers, stack⟩)
  | .returnValue => do
    let (v, stack) ← pop stack
    leave frame callers stack v (some v)
  | .ret => leave frame callers stack .null none
  | .throwValue => do
    let (v, _) ← pop stack
    .error (.thrown v.display)
  | op => do
    let stack ← compute setting globals frame op operand stack
    .ok (.next ⟨frame, callers, stack⟩)

def step (setting : Setting) (globals : Array Value) : Machine → Except RunError Action
  | ⟨frame, callers, stack⟩ =>
    match frame.function.code.fetch frame.ip with
    | .error cause => .error (.fetch cause)
    | .ok instruction =>
      execute setting globals instruction.opcode instruction.operand
        { frame with ip := instruction.next } callers stack

end Machine

end Notebook
