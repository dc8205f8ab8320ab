import Notebook.Bytecode.Opcode

/-!
Code: a growing sequence of bytes that hold instructions.

Code is written at its end (`append`), cut (`take`) and patched in place (`patchWord`); it is read
one instruction at a time (`fetch`).
-/

namespace Notebook

/-- Bytes that hold instructions. Nothing keeps other bytes out: `fetch` finds out where there is an
instruction. -/
structure Code where
  bytes : Array UInt8 := #[]
  deriving DecidableEq, Repr

/-- Why no instruction can be read at a place. -/
inductive FetchError where
  | outOfRange (position : Nat)
  | unknownOpcode (byte : UInt8)
  | truncated (op : Opcode) (position : Nat)
  deriving DecidableEq, Repr

def truncatedMessage (size position : Nat) : String :=
  s!"truncated {size}-byte operand at {position}"

def FetchError.message : FetchError → String
  | .outOfRange position => s!"instruction pointer {position} out of range"
  | .unknownOpcode byte => unknownOpcodeMessage byte
  | .truncated op position => truncatedMessage op.operandWidth.size position

/-- An instruction as it stands in code: `next` is where the following one starts. An instruction
without operand has operand 0. -/
structure Fetched where
  opcode : Opcode
  operand : Nat
  next : Nat
  deriving DecidableEq, Repr

namespace Code

def size (code : Code) : Nat := code.bytes.size

def isEmpty (code : Code) : Bool := code.bytes.isEmpty

def append (code : Code) (bytes : List UInt8) : Code := ⟨code.bytes ++ bytes⟩

def take (code : Code) (n : Nat) : Code := ⟨code.bytes.shrink n⟩

def byte? (code : Code) (position : Nat) : Option Nat := code.bytes[position]?.map UInt8.toNat

/-- The two-byte number at a place, high byte first. It is there only if both of its bytes are. -/
def word? (code : Code) (position : Nat) : Option Nat :=
  match code.bytes[position]?, code.bytes[position + 1]? with
  | some high, some low => some (high.toNat * 256 + low.toNat)
  | _, _ => none

def padTo (code : Code) (n : Nat) : Code :=
  ⟨code.bytes ++ Array.replicate (n - code.bytes.size) 0⟩

/-- Code with `n` as the two-byte operand of the instruction at `position`. Code that ends before the operand
does is padded with zeros, and only a number that does not fit is an error. -/
def patchWord (code : Code) (position n : Nat) : Except OperandError Code :=
  if n < 65536 then
    let padded := code.padTo (position + 3)
    .ok ⟨(padded.bytes.setIfInBounds (position + 1) (UInt8.ofNat (n / 256))).setIfInBounds
      (position + 2) (UInt8.ofNat n)⟩
  else .error .tooLarge

/-- The instruction at a place. The opcode is judged before the operand, so an unknown one is reported even at
the end of the code. -/
def fetch (code : Code) (position : Nat) : Except FetchError Fetched :=
  match code.bytes[position]? with
  | none => .error (.outOfRange position)
  | some byte =>
    match Opcode.ofByte? byte with
    | none => .error (.unknownOpcode byte)
    | some op =>
      match op.operandWidth with
      | .none => .ok ⟨op, 0, position + 1⟩
      | .byte =>
        match code.byte? (position + 1) with
        | some n => .ok ⟨op, n, position + 2⟩
        | none => .error (.truncated op (position + 1))
      | .word =>
        match code.word? (position + 1) with
        | some n => .ok ⟨op, n, position + 3⟩
        | none => .error (.truncated op (position + 1))

end Code

end Notebook
