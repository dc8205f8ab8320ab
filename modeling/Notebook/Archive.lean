import Notebook.CompiledUnit.Encode

/-!
The archive: the stored units of the snippets that ran, in the order in which they ran, until
somebody takes them away.
-/

namespace Notebook

/-- The stored units of a session, in the order in which their snippets ran. Units that were drained before are
gone from it. -/
structure Archive where
  units : Array SerializedUnit := #[]
  deriving DecidableEq, Repr

namespace Archive

def push (unit : SerializedUnit) (a : Archive) : Archive := ⟨a.units.push unit⟩

def pushAll (units : List SerializedUnit) (a : Archive) : Archive := ⟨a.units ++ units⟩

def drain (a : Archive) : List SerializedUnit × Archive := (a.units.toList, {})

def size (a : Archive) : Nat := a.units.size

end Archive

end Notebook
