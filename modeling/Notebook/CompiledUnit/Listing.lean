import Notebook.Bytecode.Listing
import Notebook.CompiledUnit
import Notebook.Text.Quoted

/-!
The listing of a compiled unit: what it declares, its constants by their place in the session's
pool, and its code.
-/

namespace Notebook

/-- The lines of a constant at a place in the pool. A string is quoted; a function shows its code;
anything else shows as it prints. -/
def constantListing (index : Nat) : Value → String
  | .function f =>
    s!"constant {index}: fn/{f.params} locals={f.locals}\n" ++ f.code.listing.text
  | .str text => s!"constant {index}: " ++ Text.quote text ++ "\n"
  | v => s!"constant {index}: " ++ v.display ++ "\n"

def constantListings (index : Nat) (constants : List Value) : List String :=
  constants.mapIdx fun i v => constantListing (index + i) v

def declarationListing (d : Declaration) : String := s!"; global {d.index} = " ++ d.name ++ "\n"

namespace CompiledUnit

def listingFileName (u : CompiledUnit) : String := s!"Line_{u.snippet.toNat}.txt"

def listing (u : CompiledUnit) : String :=
  let type := match u.declaredType with
    | some type => "; declared type " ++ type ++ "\n"
    | none => ""
  s!"; snippet {u.snippet.toNat}\n" ++ type ++
    String.join (u.declarations.map declarationListing) ++
    String.join (constantListings u.constantsOffset u.constants) ++
    "main:\n" ++ u.code.listing.text

end CompiledUnit

end Notebook
