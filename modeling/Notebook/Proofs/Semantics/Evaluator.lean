import Notebook.Machine.Run
import Notebook.Proofs.Compiler.TermLayout

/-!
The evaluator: what terms and commands mean, by recursion on them.

Commands are carried out in order and operands are evaluated left to right, except those of `a < b`.
A `return` ends the function or snippet around it from wherever it stands, and so does a failure
(`Flow`). Nothing here knows of instructions, jumps or frames. Two limits are counted, since running
into them is a failure that programs can see: `height` is the number of operands that are waiting
when something is evaluated, and each call takes one frame from a number of them.

A function as a value is its code, which tells functions apart; what the function does is the body
that a list of routines has for it.
-/

namespace Notebook

/-! ### Operators -/

/-- The value of a binary operator. The error of a comparison names its operands in the order in
which they were evaluated. -/
def BinaryOp.apply (op : BinaryOp) (left right : Value) : Except RunError Value :=
  match op, left, right with
  | .equal, l, r => .ok (.bool (decide (l = r)))
  | .notEqual, l, r => .ok (.bool (decide (l ≠ r)))
  | .add, .int l, .int r => Machine.checked (l.toInt + r.toInt)
  | .sub, .int l, .int r => Machine.checked (l.toInt - r.toInt)
  | .mul, .int l, .int r => Machine.checked (l.toInt * r.toInt)
  | .div, .int l, .int r =>
    if r = 0 then .error .divisionByZero else Machine.checked (l.toInt.tdiv r.toInt)
  | .less, .int l, .int r => .ok (.bool (decide (l < r)))
  | .greater, .int l, .int r => .ok (.bool (decide (r < l)))
  | .add, .str l, .str r => .ok (.str (l ++ r))
  | .less, .str l, .str r => .ok (.bool (decide (l < r)))
  | .greater, .str l, .str r => .ok (.bool (decide (r < l)))
  | .less, l, r => .error (.operands .greaterThan r.type l.type)
  | op, l, r => .error (.operands op.opcode l.type r.type)

def UnaryOp.apply (op : UnaryOp) (operand : Value) : Except RunError Value :=
  match op, operand with
  | .not, v => .ok (.bool !v.isTruthy)
  | .negate, .int n => Machine.checked (-n.toInt)
  | .negate, v => .error (.negation v.type)

namespace Semantics

/-! ### Evaluations -/

/-- What evaluation reads and changes: the globals, and the slots of the innermost function. Callers keep slots
of their own, which nothing that is called can change. -/
structure State where
  globals : Array Value
  locals : Array Value

/-- How an evaluation ends: with what it is for, by a `return` from further out, or in failure. The last two
skip whatever was to be evaluated next. -/
inductive Flow (α : Type) where
  | value (a : α)
  | returned (v : Value)
  | failed (error : RunError)

/-- Evaluations for something of type `α`. -/
def Exec (α : Type) : Type := State → Flow α × State

instance : Monad Exec where
  pure a s := (.value a, s)
  bind x f s :=
    match x s with
    | (.value a, s) => f a s
    | (.returned v, s) => (.returned v, s)
    | (.failed error, s) => (.failed error, s)

/-- What comes second is evaluated only if the first comes to a value. -/
theorem Exec.bind_apply {α β : Type} (x : Exec α) (f : α → Exec β) (s : State) :
    (x >>= f) s = match x s with
      | (.value a, s) => f a s
      | (.returned v, s) => (.returned v, s)
      | (.failed error, s) => (.failed error, s) := rfl

theorem Exec.bind_pure {α : Type} (x : Exec α) : (x >>= pure) = x := by
  funext s
  rw [Exec.bind_apply]
  rcases x s with ⟨flow, s₁⟩
  cases flow <;> rfl

/-- Goes on with a result, or fails. -/
def settle {α : Type} (x : Except RunError α) : Exec α := fun s =>
  match x with
  | .ok a => (.value a, s)
  | .error error => (.failed error, s)

/-- Leaves a value on top of the operands that are waiting. This is where too many of them are noticed, and
nothing else is done with the number of operands. -/
def keep (height : Nat) (v : Value) : Exec Value :=
  settle (if height < Machine.stackLimit then .ok v else .error .stackOverflow)

/-- Reads something of the state. -/
def look {α : Type} (read : State → α) : Exec α := fun s => (.value (read s), s)

def assignGlobal (index : Nat) (v : Value) : Exec Unit := fun s =>
  (.value (), { s with globals := Machine.assign s.globals index v })

def assignOwn (index : Nat) (v : Value) : Exec Unit := fun s =>
  (.value (), { s with locals := s.locals.setIfInBounds index v })

def leaveWith (v : Value) : Exec Unit := fun s => (.returned v, s)

/-! ### Terms and commands -/

/-- What the calls of functions come to: a function with its arguments is called at a height, against some
globals. It is a parameter of the evaluator, so that this recurses on terms, and calls on the room for
frames. -/
abbrev Calls := FunctionCode → List Value → Nat → Array Value → Ran Value

def apply (calls : Calls) (callee : Value) (args : List Value) (height : Nat) : Exec Value :=
  fun s =>
    match callee with
    | .function f =>
      if args.length = f.params then
        let ran := calls f args height s.globals
        settle ran.result { s with globals := ran.globals }
      else settle (.error (.arity f.params args.length)) s
    | .builtin b => settle ((b.apply args).mapError RunError.builtin) s
    | v => settle (.error (.calling v.type)) s

mutual

/-- Evaluates a term, with so many operands waiting. -/
def eval (calls : Calls) : Term → Nat → Exec Value
  | .constant _ v, height => keep height v
  | .bool value, height => keep height (.bool value)
  | .null, height => keep height .null
  | .global index, height => do
    let v ← look fun s => s.globals[index]?.getD .null
    keep height v
  | .own index, height => do
    let v ← look fun s => s.locals[index]?.getD .null
    keep height v
  | .builtin index, height => keep height (((Builtin.ofIndex? index).map .builtin).getD .null)
  | .array elements, height => do
    let values ← evalAll calls elements height
    keep height (.array values)
  | .unary op operand, height => do
    let v ← eval calls operand height
    settle (op.apply v)
  | .binary op left right, height =>
    if op = .less then do
      let r ← eval calls right height
      let l ← eval calls left (height + 1)
      settle (op.apply l r)
    else do
      let l ← eval calls left height
      let r ← eval calls right (height + 1)
      settle (op.apply l r)
  | .cond condition consequence alternative, height => do
    let v ← eval calls condition height
    if v.isTruthy then evalBlock calls consequence height
    else
      match alternative with
      | none => keep height .null
      | some body => evalBlock calls body height
  | .call callee args, height => do
    let function ← eval calls callee height
    let values ← evalAll calls args (height + 1)
    apply calls function values height
  | .index collection position, height => do
    let c ← eval calls collection height
    let p ← eval calls position (height + 1)
    settle (Machine.element c p)

/-- Evaluates terms in order, each with the values of those before it waiting, which is why the height grows. -/
def evalAll (calls : Calls) : List Term → Nat → Exec (List Value)
  | [], _ => pure []
  | t :: rest, height => do
    let v ← eval calls t height
    let values ← evalAll calls rest (height + 1)
    pure (v :: values)

def perform (calls : Calls) : Command → Nat → Exec Unit
  | .setGlobal index value, height => do
    let v ← eval calls value height
    assignGlobal index v
  | .setOwn index value, height => do
    let v ← eval calls value height
    assignOwn index v
  | .ret value, height => do
    let v ← eval calls value height
    leaveWith v
  | .throw value, height => do
    let v ← eval calls value height
    settle (.error (.thrown v.display))
  | .expr value, height => do
    let _ ← eval calls value height
  | .empty, _ => pure ()

/-- Evaluates a block for its value: that of the last command that is not empty if it is an
expression, and null otherwise. -/
def evalBlock (calls : Calls) : List Command → Nat → Exec Value
  | [], height => keep height .null
  | c :: rest, height =>
    match c, rest.all Command.isEmpty with
    | .expr value, true => eval calls value height
    | c, _ => do
      perform calls c height
      evalBlock calls rest height

end

/-- Evaluates the body of a function. A body without value comes to null, which needs no room. -/
def evalBody (calls : Calls) : List Command → Nat → Exec Value
  | [], _ => pure .null
  | c :: rest, height =>
    match c, rest.all Command.isEmpty with
    | .expr value, true => eval calls value height
    | c, _ => do
      perform calls c height
      evalBody calls rest height

/-- Carries out the top level of a snippet. It has a value if its very last command is an expression, and unlike
in a body not even an empty command may come after that. -/
def evalProgram (calls : Calls) : List Command → Exec (Option Value)
  | [] => pure none
  | c :: rest =>
    match c, rest with
    | .expr value, [] => do
      let v ← eval calls value 0
      pure (some v)
    | c, rest => do
      perform calls c 0
      evalProgram calls rest

section

variable {calls : Calls} {c : Command} {rest : List Command}

/-- A command that is not the expression at the end of its block is carried out. -/
theorem evalBlock_cons (h : c.closing = some .pop → closingOf rest ≠ none) (height : Nat) :
    evalBlock calls (c :: rest) height =
      (perform calls c height >>= fun _ => evalBlock calls rest height) := by
  have hclosed : rest.all Command.isEmpty = true → c.closing ≠ some .pop :=
    fun hall hc => h hc ((closingOf_eq_none_iff rest).mpr hall)
  conv => lhs; unfold evalBlock
  split
  · exact absurd rfl (hclosed ‹_›)
  · rfl

/-- The expression at the end of a block is evaluated. -/
theorem evalBlock_of_expr {value : Term} (h : closingOf rest = none) (height : Nat) :
    evalBlock calls (.expr value :: rest) height = eval calls value height := by
  have hall := (closingOf_eq_none_iff rest).mp h
  conv => lhs; unfold evalBlock
  split
  · rename_i hvalue _
    cases hvalue
    rfl
  · rename_i hnot
    exact absurd hall (hnot value rfl)

theorem evalBody_cons (h : c.closing = some .pop → closingOf rest ≠ none) (height : Nat) :
    evalBody calls (c :: rest) height =
      (perform calls c height >>= fun _ => evalBody calls rest height) := by
  have hclosed : rest.all Command.isEmpty = true → c.closing ≠ some .pop :=
    fun hall hc => h hc ((closingOf_eq_none_iff rest).mpr hall)
  conv => lhs; unfold evalBody
  split
  · exact absurd rfl (hclosed ‹_›)
  · rfl

theorem evalBody_of_expr {value : Term} (h : closingOf rest = none) (height : Nat) :
    evalBody calls (.expr value :: rest) height = eval calls value height := by
  have hall := (closingOf_eq_none_iff rest).mp h
  conv => lhs; unfold evalBody
  split
  · rename_i hvalue _
    cases hvalue
    rfl
  · rename_i hnot
    exact absurd hall (hnot value rfl)

/-- A command that is not the expression at the very end of a snippet is carried out. -/
theorem evalProgram_cons (h : ¬ ∃ value, c = .expr value ∧ rest = []) :
    evalProgram calls (c :: rest) = (perform calls c 0 >>= fun _ => evalProgram calls rest) := by
  conv => lhs; unfold evalProgram
  split
  · exact absurd ⟨_, rfl, rfl⟩ h
  · rfl

end

/-! ### Calls -/

/-- The body of a function. Functions are told apart by their code, as that is what a value has of them. -/
def bodyOf (routines : List Routine) (f : FunctionCode) : List Command :=
  ((routines.find? fun r => r.code = f).map Routine.body).getD []

/-- The slots of a function at its start: the arguments, then nulls. -/
def slots (f : FunctionCode) (args : List Value) : Array Value :=
  args.toArray ++ Array.replicate (f.locals - args.length) Value.null

/-- What calls come to where there is room for so many more frames. The function and its slots take
their place among the operands. -/
def callsWithin (routines : List Routine) (maxFrames : Nat) : Nat → Calls
  | 0, _, _, _, globals => ⟨.error (.callDepth maxFrames), globals⟩
  | room + 1, f, args, height, globals =>
    let top := height + 1 + f.locals
    if Machine.stackLimit < top then ⟨.error .stackOverflow, globals⟩
    else
      let calls := callsWithin routines maxFrames room
      match evalBody calls (bodyOf routines f) top ⟨globals, slots f args⟩ with
      | (.value v, s) => ⟨.ok v, s.globals⟩
      | (.returned v, s) => ⟨.ok v, s.globals⟩
      | (.failed error, s) => ⟨.error error, s.globals⟩

/-- Runs the top level of a snippet, which takes one frame itself. -/
def run (routines : List Routine) (maxFrames : Nat) (program : List Command)
    (globals : Array Value) : Ran (Option Value) :=
  match evalProgram (callsWithin routines maxFrames (maxFrames - 1)) program ⟨globals, #[]⟩ with
  | (.value v, s) => ⟨.ok v, s.globals⟩
  | (.returned v, s) => ⟨.ok (some v), s.globals⟩
  | (.failed error, s) => ⟨.error error, s.globals⟩

/-- Calls a value from outside of any snippet. -/
def call (routines : List Routine) (maxFrames : Nat) (callee : Value) (args : List Value)
    (globals : Array Value) : Ran Value :=
  if Machine.stackLimit < args.length + 1 then ⟨.error .stackOverflow, globals⟩
  else
    match apply (callsWithin routines maxFrames maxFrames) callee args 0 ⟨globals, #[]⟩ with
    | (.value v, s) => ⟨.ok v, s.globals⟩
    | (.returned v, s) => ⟨.ok v, s.globals⟩
    | (.failed error, s) => ⟨.error error, s.globals⟩

end Semantics

end Notebook
