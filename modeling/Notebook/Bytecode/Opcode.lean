/-!
Instructions and their byte form.

An instruction is an opcode byte followed by at most one operand, of one or two bytes with the high
byte first. `Opcode.ofByte?` inverts `Opcode.byte`, and `Opcode.encode` writes an instruction or
says what is wrong with its operands.
-/

namespace Notebook

inductive Opcode where
  | constant | add | pop | sub | mul | div
  | pushTrue | pushFalse
  | equal | notEqual | greaterThan
  | minus | bang
  | jumpNotTruthy | jump
  | pushNull
  | getGlobal | setGlobal
  | array | index
  | call | returnValue | ret
  | getLocal | setLocal
  | getBuiltin
  | throwValue
  deriving DecidableEq, Repr

/-- How many bytes the operand of an instruction takes, if it has one. No instruction has two operands. -/
inductive OperandWidth where
  | none | byte | word
  deriving DecidableEq, Repr

def OperandWidth.count : OperandWidth → Nat
  | .none => 0
  | .byte | .word => 1

def OperandWidth.size : OperandWidth → Nat
  | .none => 0
  | .byte => 1
  | .word => 2

namespace Opcode

def byte : Opcode → UInt8
  | .constant => 0
  | .add => 1
  | .pop => 2
  | .sub => 3
  | .mul => 4
  | .div => 5
  | .pushTrue => 6
  | .pushFalse => 7
  | .equal => 8
  | .notEqual => 9
  | .greaterThan => 10
  | .minus => 11
  | .bang => 12
  | .jumpNotTruthy => 13
  | .jump => 14
  | .pushNull => 15
  | .getGlobal => 16
  | .setGlobal => 17
  | .array => 18
  | .index => 19
  | .call => 20
  | .returnValue => 21
  | .ret => 22
  | .getLocal => 23
  | .setLocal => 24
  | .getBuiltin => 25
  | .throwValue => 26

def ofByte? : UInt8 → Option Opcode
  | 0 => some .constant
  | 1 => some .add
  | 2 => some .pop
  | 3 => some .sub
  | 4 => some .mul
  | 5 => some .div
  | 6 => some .pushTrue
  | 7 => some .pushFalse
  | 8 => some .equal
  | 9 => some .notEqual
  | 10 => some .greaterThan
  | 11 => some .minus
  | 12 => some .bang
  | 13 => some .jumpNotTruthy
  | 14 => some .jump
  | 15 => some .pushNull
  | 16 => some .getGlobal
  | 17 => some .setGlobal
  | 18 => some .array
  | 19 => some .index
  | 20 => some .call
  | 21 => some .returnValue
  | 22 => some .ret
  | 23 => some .getLocal
  | 24 => some .setLocal
  | 25 => some .getBuiltin
  | 26 => some .throwValue
  | _ => none

@[simp] theorem ofByte?_byte (op : Opcode) : ofByte? op.byte = some op := by
  cases op <;> rfl

/-- The name shown in listings and messages. -/
def name : Opcode → String
  | .constant => "Constant"
  | .add => "Add"
  | .pop => "Pop"
  | .sub => "Sub"
  | .mul => "Mul"
  | .div => "Div"
  | .pushTrue => "True"
  | .pushFalse => "False"
  | .equal => "Equal"
  | .notEqual => "NotEqual"
  | .greaterThan => "GreaterThan"
  | .minus => "Minus"
  | .bang => "Bang"
  | .jumpNotTruthy => "JumpNotTruthy"
  | .jump => "Jump"
  | .pushNull => "Null"
  | .getGlobal => "GetGlobal"
  | .setGlobal => "SetGlobal"
  | .array => "Array"
  | .index => "Index"
  | .call => "Call"
  | .returnValue => "ReturnValue"
  | .ret => "Return"
  | .getLocal => "GetLocal"
  | .setLocal => "SetLocal"
  | .getBuiltin => "GetBuiltin"
  | .throwValue => "Throw"

def operandWidth : Opcode → OperandWidth
  | .constant | .jumpNotTruthy | .jump | .getGlobal | .setGlobal | .array => .word
  | .call | .getLocal | .setLocal | .getBuiltin => .byte
  | _ => .none

end Opcode

/-- The message for a byte that is no opcode. -/
def unknownOpcodeMessage (byte : UInt8) : String := s!"unknown opcode: {byte.toNat}"

/-- Why an instruction cannot be written. -/
inductive OperandError where
  | count (op : Opcode) (given : Nat)
  | tooLarge
  deriving DecidableEq, Repr

def tooLargeMessage : String := "number too large to fit in target type"

def OperandError.message : OperandError → String
  | .count op given => s!"{op.name} expects {op.operandWidth.count} operands, got {given}"
  | .tooLarge => tooLargeMessage

/-- The two bytes of a number below 65536, high byte first. -/
def wordBytes (n : Nat) : List UInt8 := [UInt8.ofNat (n / 256), UInt8.ofNat n]

/-- The byte form of an instruction. It exists if there are as many operands as the opcode takes and they fit
its operand width. -/
def Opcode.encode (op : Opcode) (operands : List Nat) : Except OperandError (List UInt8) :=
  match op.operandWidth, operands with
  | .none, [] => .ok [op.byte]
  | .byte, [n] => if n < 256 then .ok [op.byte, UInt8.ofNat n] else .error .tooLarge
  | .word, [n] => if n < 65536 then .ok (op.byte :: wordBytes n) else .error .tooLarge
  | _, _ => .error (.count op operands.length)

end Notebook
