import Notebook.CompiledUnit
import Notebook.Text.Utf8

/-!
The byte form of a compiled unit.

A unit starts with four letters and a version. Numbers are written high byte first; lengths and
counts take four bytes and come before what they measure. Integers, strings and functions can be
stored as constants, each after a tag; a function's pool offset is not stored, since it is always
its unit's.
-/

namespace Notebook

inductive SerializeError where
  | tooLarge
  | unsupported (type : ValueType)
  deriving DecidableEq, Repr

def SerializeError.message : SerializeError → String
  | .tooLarge => tooLargeMessage
  | .unsupported type => type.name ++ " values cannot be stored as constants"

/-- The byte form of a unit, and the snippet that it belongs to. -/
structure SerializedUnit where
  snippet : SnippetId
  data : List UInt8
  deriving DecidableEq, Repr

/-- The name of the file that a serialized unit goes into. -/
def SerializedUnit.fileName (s : SerializedUnit) : String := s!"Line_{s.snippet.toNat}.bin"

namespace UnitFormat

def magic : List UInt8 := [0x53, 0x4e, 0x50, 0x55]

def version : UInt8 := 1

def integerTag : UInt8 := 0
def stringTag : UInt8 := 1
def functionTag : UInt8 := 2

/-- The lowest `width` bytes of a number, high byte first. -/
def bigEndian : Nat → Nat → List UInt8
  | 0, _ => []
  | width + 1, n => UInt8.ofNat (n >>> (8 * width)) :: bigEndian width n

def encodeNat (n : Nat) : Except SerializeError (List UInt8) :=
  if n < UInt32.size then .ok (bigEndian 4 n) else .error .tooLarge

def encodeBytes (bytes : List UInt8) : Except SerializeError (List UInt8) := do
  let length ← encodeNat bytes.length
  .ok (length ++ bytes)

def encodeString (s : String) : Except SerializeError (List UInt8) :=
  encodeBytes (Text.Utf8.encode s)

def encodeConstant : Value → Except SerializeError (List UInt8)
  | .int value => .ok (integerTag :: bigEndian 8 value.toUInt64.toNat)
  | .str text => do
    let bytes ← encodeString text
    .ok (stringTag :: bytes)
  | .function f => do
    let locals ← encodeNat f.locals
    let params ← encodeNat f.params
    let code ← encodeBytes f.code.bytes.toList
    .ok (functionTag :: (locals ++ params ++ code))
  | v => .error (.unsupported v.type)

def encodeDeclaration (d : Declaration) : Except SerializeError (List UInt8) := do
  let name ← encodeString d.name
  let index ← encodeNat d.index
  .ok (name ++ index)

/-- The byte forms of some things, after their number. -/
def encodeMany {α : Type} (encode : α → Except SerializeError (List UInt8)) (xs : List α) :
    Except SerializeError (List UInt8) := do
  let count ← encodeNat xs.length
  let parts ← xs.mapM encode
  .ok (count ++ parts.flatten)

def encodeType : Option String → Except SerializeError (List UInt8)
  | none => .ok [0]
  | some type => do
    let name ← encodeString type
    .ok (1 :: name)

end UnitFormat

open UnitFormat in
/-- The byte form of a unit. It exists if all lengths, counts and indices fit four bytes and no constant is of a
type that has no byte form. -/
def CompiledUnit.serialize (u : CompiledUnit) : Except SerializeError SerializedUnit := do
  let offset ← encodeNat u.constantsOffset
  let globals ← encodeNat u.globals
  let constants ← encodeMany encodeConstant u.constants
  let declarations ← encodeMany encodeDeclaration u.declarations
  let type ← encodeType u.declaredType
  let code ← encodeBytes u.code.bytes.toList
  .ok ⟨u.snippet, magic ++ (version :: bigEndian 4 u.snippet.toNat) ++
    (offset ++ (globals ++ (constants ++ (declarations ++ (type ++ code)))))⟩

end Notebook
