import Notebook.Bytecode.Code

/-!
Listings: code as text, one line an instruction.

A line holds the place of the instruction in four digits or more, its name and its operand. Where
the bytes stop being instructions a listing breaks off.
-/

namespace Notebook

/-- A listing of all the code, or of what comes before bytes that are no instruction. -/
inductive Listing where
  | complete (text : String)
  | broken (text : String)
  deriving DecidableEq, Repr

def Listing.text : Listing → String
  | .complete text => text
  | .broken text => text

/-- A number in at least four digits. -/
def fourDigits (n : Nat) : String :=
  let digits := Nat.toDigits 10 n
  String.ofList (List.replicate (4 - digits.length) '0' ++ digits)

/-- The part of a line that is there as soon as the opcode is known. -/
def listingLineStart (position : Nat) (op : Opcode) : String :=
  fourDigits position ++ " " ++ op.name

def listingLine (position : Nat) (instruction : Fetched) : String :=
  let start := listingLineStart position instruction.opcode
  match instruction.opcode.operandWidth with
  | .none => start ++ "\n"
  | .byte | .word => start ++ " " ++ toString instruction.operand ++ "\n"

namespace Code

/-- The listing of the code from `position` on, after the lines `written`, last line first. Each
instruction takes a byte at least, so `size` steps see all of them. -/
def listingFrom (code : Code) : Nat → Nat → List String → Listing
  | 0, _, written => .complete (String.join written.reverse)
  | steps + 1, position, written =>
    match code.fetch position with
    | .ok instruction =>
      listingFrom code steps instruction.next (listingLine position instruction :: written)
    | .error (.outOfRange _) => .complete (String.join written.reverse)
    | .error (.unknownOpcode _) => .broken (String.join written.reverse)
    | .error (.truncated op _) =>
      .broken (String.join (listingLineStart position op :: written).reverse)

def listing (code : Code) : Listing := code.listingFrom code.size 0 []

end Code

end Notebook
