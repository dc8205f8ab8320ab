/-!
Reading UTF-8, with the place and kind of the first fault where the bytes are not well formed.

`decode` accepts exactly the byte sequences that are the UTF-8 form of a string. `firstFault`
follows the table of well-formed sequences: a leading byte fixes how many bytes follow and the
range of each, and a fault is reported at the first byte of the sequence that it breaks.
-/

namespace Notebook.Text.Utf8

/-- Why some bytes are no UTF-8 text: the sequence that starts at `index` either breaks off after
`length` bytes that could begin one, or runs into the end of the bytes. -/
inductive Fault where
  | invalid (length index : Nat)
  | incomplete (index : Nat)
  deriving DecidableEq, Repr

def Fault.message : Fault → String
  | .invalid length index => s!"invalid utf-8 sequence of {length} bytes from index {index}"
  | .incomplete index => s!"incomplete utf-8 byte sequence from index {index}"

structure ByteRange where
  first : UInt8
  last : UInt8

def ByteRange.contains (r : ByteRange) (b : UInt8) : Bool := r.first ≤ b && b ≤ r.last

/-- Any byte that continues a sequence. -/
def continuation : ByteRange := ⟨0x80, 0xbf⟩

/-- The ranges of the bytes that must follow a leading byte, or nothing if no sequence starts with
it. Overlong forms, surrogates and values past the last code point are ruled out by the range of
the second byte. -/
def following (lead : UInt8) : Option (List ByteRange) :=
  if lead < 0x80 then some []
  else if lead < 0xc2 then none
  else if lead < 0xe0 then some [continuation]
  else if lead == 0xe0 then some [⟨0xa0, 0xbf⟩, continuation]
  else if lead == 0xed then some [⟨0x80, 0x9f⟩, continuation]
  else if lead < 0xf0 then some [continuation, continuation]
  else if lead == 0xf0 then some [⟨0x90, 0xbf⟩, continuation, continuation]
  else if lead < 0xf4 then some [continuation, continuation, continuation]
  else if lead == 0xf4 then some [⟨0x80, 0x8f⟩, continuation, continuation]
  else none

/-- The first fault of the bytes that follow the first `seen` bytes of a sequence that started at
`start` and still has to meet `expected`. -/
def faultAfter (start seen : Nat) : List ByteRange → List UInt8 → Option Fault
  | [], [] => none
  | _ :: _, [] => some (.incomplete start)
  | [], b :: rest =>
    match following b with
    | none => some (.invalid 1 (start + seen))
    | some expected => faultAfter (start + seen) 1 expected rest
  | r :: expected, b :: rest =>
    if r.contains b then faultAfter start (seen + 1) expected rest
    else some (.invalid seen start)

/-- The first place where bytes stop being UTF-8 text, if they do. -/
def firstFault (bytes : List UInt8) : Option Fault := faultAfter 0 0 [] bytes

/-- The string whose UTF-8 form these bytes are. -/
def decode (bytes : List UInt8) : Except Fault String :=
  match String.fromUTF8? ⟨bytes.toArray⟩ with
  | some s => .ok s
  | none => .error ((firstFault bytes).getD (.incomplete bytes.length))

def encode (s : String) : List UInt8 := s.toUTF8.data.toList

end Notebook.Text.Utf8
