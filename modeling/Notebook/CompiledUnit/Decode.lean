import Notebook.CompiledUnit.Encode

/-!
Reading compiled units from their byte form.

Each reader takes what it reads off the front of the bytes and hands on the rest. Bytes after the
end of a unit are ignored.
-/

namespace Notebook

inductive DecodeError where
  | missingHeader
  | notAUnit
  | version (found : UInt8)
  | endOfData
  | truncated (expected found : Nat)
  | constantTag (tag : UInt8)
  | text (fault : Text.Utf8.Fault)
  deriving DecidableEq, Repr

def endOfDataMessage : String := "failed to fill whole buffer"

def DecodeError.message : DecodeError → String
  | .missingHeader => "missing header"
  | .notAUnit => "not a serialized unit"
  | .version found => s!"unsupported unit version: {found.toNat}"
  | .endOfData => endOfDataMessage
  | .truncated expected found =>
    s!"truncated unit: expected {expected} bytes, found {found}"
  | .constantTag tag => s!"unknown constant tag: {tag.toNat}"
  | .text fault => fault.message

def DecodeError.causes : DecodeError → List String
  | .missingHeader => [endOfDataMessage]
  | _ => []

namespace UnitFormat

/-- What was read, and the bytes after it. -/
abbrev Taken (α : Type) := α × List UInt8

def takeByte : List UInt8 → Except DecodeError (Taken UInt8)
  | [] => .error .endOfData
  | b :: rest => .ok (b, rest)

/-- A number of `width` bytes, high byte first, the bytes before them amounting to `high`. -/
def takeBigEndian : Nat → Nat → List UInt8 → Except DecodeError (Taken Nat)
  | 0, high, bytes => .ok (high, bytes)
  | _ + 1, _, [] => .error .endOfData
  | width + 1, high, b :: rest => takeBigEndian width (high * 256 + b.toNat) rest

def takeNat (bytes : List UInt8) : Except DecodeError (Taken Nat) := takeBigEndian 4 0 bytes

def takeBytes (bytes : List UInt8) : Except DecodeError (Taken (List UInt8)) := do
  let (length, rest) ← takeNat bytes
  let (taken, rest) := rest.splitAt length
  if taken.length < length then .error (.truncated length taken.length) else .ok (taken, rest)

def takeString (bytes : List UInt8) : Except DecodeError (Taken String) := do
  let (taken, rest) ← takeBytes bytes
  match Text.Utf8.decode taken with
  | .ok s => .ok (s, rest)
  | .error fault => .error (.text fault)

/-- A constant of a unit whose constants start at `offset`. A function gets that offset, since its own is not
stored. -/
def takeConstant (offset : Nat) (bytes : List UInt8) : Except DecodeError (Taken Value) := do
  let (tag, rest) ← takeByte bytes
  if tag = integerTag then do
    let (n, rest) ← takeBigEndian 8 0 rest
    .ok (.int (UInt64.ofNat n).toInt64, rest)
  else if tag = stringTag then do
    let (text, rest) ← takeString rest
    .ok (.str text, rest)
  else if tag = functionTag then do
    let (locals, rest) ← takeNat rest
    let (params, rest) ← takeNat rest
    let (code, rest) ← takeBytes rest
    .ok (.function ⟨⟨code.toArray⟩, offset, locals, params⟩, rest)
  else .error (.constantTag tag)

def takeDeclaration (bytes : List UInt8) : Except DecodeError (Taken Declaration) := do
  let (name, rest) ← takeString bytes
  let (index, rest) ← takeNat rest
  .ok (⟨name, index⟩, rest)

/-- So many things one after the other, those before them being `read`, last one first. A count that the bytes
do not bear out fails at the first thing that is missing. -/
def takeTimes {α : Type} (take : List UInt8 → Except DecodeError (Taken α)) :
    Nat → List α → List UInt8 → Except DecodeError (Taken (List α))
  | 0, read, bytes => .ok (read.reverse, bytes)
  | n + 1, read, bytes => do
    let (x, rest) ← take bytes
    takeTimes take n (x :: read) rest

/-- Things after their number. -/
def takeMany {α : Type} (take : List UInt8 → Except DecodeError (Taken α)) (bytes : List UInt8) :
    Except DecodeError (Taken (List α)) := do
  let (count, rest) ← takeNat bytes
  takeTimes take count [] rest

def takeType (bytes : List UInt8) : Except DecodeError (Taken (Option String)) := do
  let (flag, rest) ← takeByte bytes
  if flag = 0 then .ok (none, rest)
  else do
    let (type, rest) ← takeString rest
    .ok (some type, rest)

/-- The letters and version that come before everything else. -/
def takeHeader (bytes : List UInt8) : Except DecodeError (List UInt8) := do
  let (letters, rest) := bytes.splitAt magic.length
  if letters.length < magic.length then .error .missingHeader
  else if letters ≠ magic then .error .notAUnit
  else do
    let (found, rest) ← takeByte rest
    if found = version then .ok rest else .error (.version found)

end UnitFormat

open UnitFormat in
/-- The unit that some bytes store. The fields come in the order in which `serialize` writes them, and bytes
after the last one are let pass. -/
def CompiledUnit.deserialize (bytes : List UInt8) : Except DecodeError CompiledUnit := do
  let rest ← takeHeader bytes
  let (snippet, rest) ← takeNat rest
  let (offset, rest) ← takeNat rest
  let (globals, rest) ← takeNat rest
  let (constants, rest) ← takeMany (takeConstant offset) rest
  let (declarations, rest) ← takeMany takeDeclaration rest
  let (type, rest) ← takeType rest
  let (code, _) ← takeBytes rest
  .ok {
    snippet := UInt32.ofNat snippet
    constantsOffset := offset
    constants := constants
    code := ⟨code.toArray⟩
    declarations := declarations
    globals := globals
    declaredType := type
  }

end Notebook
