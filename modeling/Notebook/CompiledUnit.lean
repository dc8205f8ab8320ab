import Notebook.Value

/-!
Compiled units: what the compiler makes of one snippet, and all that the machine needs to run it.
-/

namespace Notebook

abbrev SnippetId := UInt32

/-- A global that a snippet binds, and the slot of the session that holds it. -/
structure Declaration where
  name : String
  index : Nat
  deriving DecidableEq, Repr

/-- What the compiler makes of a snippet. The unit's own constants go into the session's pool from
`constantsOffset` on; `globals` is the number of global slots there are once the unit has run. `declaredType` is
the type that the text of the snippet gives its value, if it gives one. -/
structure CompiledUnit where
  snippet : SnippetId
  constantsOffset : Nat
  constants : List Value
  code : Code
  declarations : List Declaration
  globals : Nat
  declaredType : Option String
  deriving DecidableEq, Repr

end Notebook
