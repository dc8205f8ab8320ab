import Notebook.Proofs.Fallible
import Notebook.Proofs.Machine.Runs
import Notebook.Proofs.Semantics.Evaluator
import Notebook.Proofs.Semantics.FunctionsInValues

/-!
What single instructions do to operands that are there.

The machine checks that an operand can be popped, pushed or indexed before it does so. The results
here say what is left of an instruction once these checks succeed: the operator of the language that
it stands for. `enter_function` and its companions do the same for calls.
-/

namespace Notebook

/-- Is this a failure that programs can run into: one of the language's own, or a limit? Any other one means
that code, pool or operands are not as they should be. -/
def RunError.isOrdinary : RunError → Bool
  | .arity _ _ | .calling _ | .negation _ | .overflow | .divisionByZero | .operands _ _ _
  | .indexing _ _ | .builtin _ | .thrown _ | .stackOverflow | .callDepth _ => true
  | _ => false

/-- Does an instruction change the operands alone? Then control goes on to the next instruction, and globals,
callers and pool stay as they are. -/
def Opcode.computes : Opcode → Bool
  | .jumpNotTruthy | .jump | .setGlobal | .call | .returnValue | .ret | .throwValue => false
  | _ => true

/-! ### Operators -/

theorem isOrdinary_of_checked {n : Int} {error : RunError}
    (h : Machine.checked n = .error error) : error.isOrdinary = true := by
  unfold Machine.checked at h
  split at h <;> cases h
  rfl

theorem isOrdinary_of_element {c p : Value} {error : RunError}
    (h : Machine.element c p = .error error) : error.isOrdinary = true := by
  unfold Machine.element at h
  split at h
  · split at h <;> cases h
  · cases h
    rfl

theorem UnaryOp.isOrdinary_of_apply {op : UnaryOp} {v : Value} {error : RunError}
    (h : op.apply v = .error error) : error.isOrdinary = true := by
  unfold UnaryOp.apply at h
  split at h
  · cases h
  · exact isOrdinary_of_checked h
  · cases h
    rfl

theorem UnaryOp.madeOf_of_apply {known : FunctionCode → Prop} {op : UnaryOp} {v w : Value}
    (h : op.apply v = .ok w) : w.MadeOf known := by
  unfold UnaryOp.apply at h
  split at h
  · cases h
    simp
  · exact madeOf_of_checked h
  · cases h

/-- An operator other than `<` is the instruction of the same name. -/
theorem BinaryOp.binary_opcode {op : BinaryOp} (hop : op ≠ .less) (l r : Value) :
    Machine.binary op.opcode l r = op.apply l r := by
  cases op with
  | less => exact absurd rfl hop
  | notEqual =>
    have hbeq : (l == r) = decide (l = r) := rfl
    simp [Machine.binary, BinaryOp.opcode, BinaryOp.apply, bne, hbeq]
  | _ => cases l <;> cases r <;> rfl

/-- `a < b` is `b > a`. -/
theorem BinaryOp.binary_greaterThan (l r : Value) :
    Machine.binary .greaterThan r l = BinaryOp.apply .less l r := by
  cases l <;> cases r <;> rfl

theorem isOrdinary_of_binary {op : Opcode} {l r : Value} {error : RunError}
    (h : Machine.binary op l r = .error error) : error.isOrdinary = true := by
  unfold Machine.binary at h
  split at h
  case h_3 | h_4 | h_5 => exact isOrdinary_of_checked h
  case h_6 =>
    split at h
    · cases h
      rfl
    · exact isOrdinary_of_checked h
  case h_10 =>
    cases h
    rfl
  all_goals cases h

/-- An operator, as one of the instructions for operators. -/
theorem BinaryOp.exists_binary_eq_apply (op : BinaryOp) (l r : Value) :
    ∃ code first second, Machine.binary code first second = op.apply l r := by
  by_cases hop : op = .less
  · subst hop
    exact ⟨_, _, _, BinaryOp.binary_greaterThan l r⟩
  · exact ⟨_, _, _, BinaryOp.binary_opcode hop l r⟩

theorem BinaryOp.isOrdinary_of_apply {op : BinaryOp} {l r : Value} {error : RunError}
    (h : op.apply l r = .error error) : error.isOrdinary = true := by
  obtain ⟨code, first, second, heq⟩ := op.exists_binary_eq_apply l r
  exact isOrdinary_of_binary (heq.trans h)

theorem BinaryOp.madeOf_of_apply {known : FunctionCode → Prop} {op : BinaryOp} {l r v : Value}
    (h : op.apply l r = .ok v) : v.MadeOf known := by
  obtain ⟨code, first, second, heq⟩ := op.exists_binary_eq_apply l r
  exact madeOf_of_binary (heq.trans h)

namespace Machine

variable {setting : Setting} {g : Array Value} {frame : Frame} {callers : List Frame}
variable {stack : Array Value}

/-! ### Instructions -/

theorem execute_of_computes {op : Opcode} {operand : Nat} (h : op.computes = true) :
    execute setting g op operand frame callers stack =
      (compute setting g frame op operand stack).map fun stack => .next ⟨frame, callers, stack⟩ := by
  unfold execute
  split
  case h_8 => cases compute setting g frame op operand stack <;> rfl
  all_goals cases h

theorem push_of_lt (h : stack.size < stackLimit) (v : Value) : push stack v = .ok (stack.push v) :=
  if_pos h

/-- A unary operator's instruction takes the operand off and leaves the value. -/
theorem compute_unary (h : stack.size < stackLimit) (op : UnaryOp) (v : Value) :
    compute setting g frame op.opcode 0 (stack.push v) = (op.apply v).map stack.push := by
  cases op with
  | not =>
    simp [compute, UnaryOp.opcode, UnaryOp.apply, push_of_lt h, bind, Except.bind, Except.map]
  | negate =>
    cases v with
    | int n =>
      simp only [compute, UnaryOp.opcode, UnaryOp.apply, pop_push, bind, Except.bind]
      cases checked (-n.toInt) with
      | error e => rfl
      | ok w => exact push_of_lt h w
    | _ => simp [compute, UnaryOp.opcode, UnaryOp.apply, bind, Except.bind, Except.map]

/-- A binary operator's instruction takes both operands off and leaves the value. -/
theorem compute_binary (h : stack.size < stackLimit) {op : BinaryOp} (hop : op ≠ .less)
    (l r : Value) :
    compute setting g frame op.opcode 0 ((stack.push l).push r) =
      (op.apply l r).map stack.push := by
  have hvalue := BinaryOp.binary_opcode hop l r
  cases op with
  | less => exact absurd rfl hop
  | _ =>
    simp only [BinaryOp.opcode] at hvalue
    simp only [compute, BinaryOp.opcode, pop_push, bind, Except.bind, hvalue]
    split
    · simp_all [Except.map]
    · simp_all [Except.map, push_of_lt h]

/-- The instruction for `<` finds the operands the other way round. -/
theorem compute_less (h : stack.size < stackLimit) (l r : Value) :
    compute setting g frame .greaterThan 0 ((stack.push r).push l) =
      (BinaryOp.apply .less l r).map stack.push := by
  have hvalue := BinaryOp.binary_greaterThan l r
  simp only [compute, pop_push, bind, Except.bind, hvalue]
  split
  · simp_all [Except.map]
  · simp_all [Except.map, push_of_lt h]

theorem compute_index (h : stack.size < stackLimit) (c p : Value) :
    compute setting g frame .index 0 ((stack.push c).push p) = (element c p).map stack.push := by
  simp only [compute, pop_push, bind, Except.bind]
  split
  · simp_all [Except.map]
  · simp_all [Except.map, push_of_lt h]

/-- Arrays are made of the topmost operands. -/
theorem compute_array (stack : Array Value) (elements : List Value) :
    compute setting g frame .array elements.length (stack ++ elements.toArray) =
      push stack (.array elements) := by
  have hsize : (stack ++ elements.toArray).size = stack.size + elements.length := by simp
  have hstart : stack.size + elements.length - elements.length = stack.size := by omega
  have hle : elements.length ≤ stack.size + elements.length := by omega
  simp only [compute, hsize, if_pos hle, hstart]
  congr 2
  · simp
  · simp

/-! ### Calls -/

section

variable (under : Array Value) (callee : Value) (args : List Value)

/-- The operands of a call. -/
def operands : Array Value := under.push callee ++ args.toArray

@[simp] theorem size_operands :
    (operands under callee args).size = under.size + 1 + args.length := by
  simp [operands, Nat.add_assoc, Nat.add_comm 1]

@[simp] theorem getElem?_operands : (operands under callee args)[under.size]? = some callee := by
  simp [operands]

@[simp] theorem shrink_operands : (operands under callee args).shrink under.size = under := by
  simp [operands, Array.extract_append]

theorem extract_operands :
    ((operands under callee args).extract (under.size + 1) (under.size + 1 + args.length)).toList =
      args := by
  simp [operands, Array.extract_append]

/-- Calling finds the callee below the arguments. What it does then depends on the callee alone: on the
arguments it counts, and on the room there is. -/
theorem enter_operands (maxFrames depth : Nat) :
    enter maxFrames depth args.length (operands under callee args) =
      match callee with
      | .function f =>
        if args.length ≠ f.params then .error (.arity f.params args.length)
        else if maxFrames ≤ depth then .error (.callDepth maxFrames)
        else if stackLimit < under.size + 1 + f.locals then .error .stackOverflow
        else .ok (some ⟨f, 0, under.size + 1⟩,
          resize (operands under callee args) (under.size + 1 + f.locals))
      | .builtin b =>
        match b.apply args with
        | .ok v => (push under v).map fun stack => (none, stack)
        | .error cause => .error (.builtin cause)
      | v => .error (.calling v.type) := by
  have hsize : ¬ under.size + 1 + args.length < args.length + 1 := by omega
  have hcallee : under.size + 1 + args.length - (args.length + 1) = under.size := by omega
  unfold enter
  simp only [size_operands, if_neg hsize, hcallee, getElem?_operands]
  cases callee with
  | builtin b =>
    simp only [extract_operands, shrink_operands]
    cases b.apply args with
    | error cause => rfl
    | ok v => simp only [bind, Except.bind, Except.map]
  | _ => rfl

/-- The slots of a function: the arguments on the stack, filled up with nulls. -/
theorem resize_operands {f : FunctionCode} (hlocals : args.length ≤ f.locals) :
    resize (operands under callee args) (under.size + 1 + f.locals) =
      under.push callee ++ Semantics.slots f args := by
  have hmore : under.size + 1 + f.locals - (under.size + 1 + args.length) =
      f.locals - args.length := by omega
  unfold resize
  rw [size_operands, hmore]
  unfold Semantics.slots operands
  split
  · have hsame : f.locals - args.length = 0 := by omega
    have hall : under.size + 1 + f.locals = (under.push callee ++ args.toArray).size := by
      simp only [Array.size_append, Array.size_push, List.size_toArray]
      omega
    rw [hsame, hall]
    simp
  · rw [Array.append_assoc]

end

end Machine

end Notebook
