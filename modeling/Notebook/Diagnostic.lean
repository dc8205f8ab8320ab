import Notebook.CompiledUnit

/-!
Diagnostics: what is reported about a snippet that does not compile or cannot be loaded.
-/

namespace Notebook

/-- A report, and the snippet that it is about. -/
structure Diagnostic where
  message : String
  snippet : Option SnippetId
  deriving DecidableEq, Repr

def Diagnostic.display (d : Diagnostic) : String :=
  match d.snippet with
  | some id => s!"error[Line_{id.toNat}]: " ++ d.message
  | none => "error: " ++ d.message

end Notebook
