import Notebook.CompiledUnit.Encode
import Notebook.CompiledUnit.Listing
import Notebook.NameTable
import Notebook.SessionError

/-!
The files that a session writes for its compiled units.

While writing is on, each unit gets two files in the current directory: its byte form and its
listing. Turning writing on starts a directory of its own; the earlier ones stay as they are. A
directory may be deleted from outside, and then nothing can be written into it.
-/

namespace Notebook

inductive FileContent where
  | bytes (data : List UInt8)
  | text (content : String)
  deriving DecidableEq, Repr

/-- A directory's files by name, or nothing if the directory is gone. What was deleted keeps its place, so that
directories are told apart by their place. -/
abbrev UnitDirectory := Option (NameTable FileContent)

/-- The directories so far, in the order in which they were started, and the place among them of the one that is
written to. Every directory has been that one at some time. -/
structure UnitFiles where
  directories : List UnitDirectory := []
  current : Option Nat := none
  deriving DecidableEq, Repr

namespace UnitFiles

/-- Turns writing on, into a new directory. -/
def start (f : UnitFiles) : UnitFiles :=
  ⟨f.directories ++ [some ⟨[]⟩], some f.directories.length⟩

def stop (f : UnitFiles) : UnitFiles := { f with current := none }

def directory? (f : UnitFiles) : Option UnitDirectory :=
  f.current.bind fun i => f.directories[i]?

/-- The directories after the current one was deleted from outside, unless there is none to
delete. -/
def delete (f : UnitFiles) : Option UnitFiles :=
  match f.current, f.directory? with
  | some i, some (some _) => some { f with directories := f.directories.set i none }
  | _, _ => none

/-- Writes the two files of a unit, if writing is on. With the current directory gone this fails; a file of the
same name would be replaced. -/
def write (u : CompiledUnit) (stored : SerializedUnit) (f : UnitFiles) :
    Except FileError UnitFiles :=
  match f.current, f.directory? with
  | some i, some (some files) =>
    let files := (files.insert stored.fileName (.bytes stored.data)).insert u.listingFileName
      (.text u.listing)
    .ok { f with directories := f.directories.set i (some files) }
  | some _, _ => .error .notFound
  | none, _ => .ok f

end UnitFiles

end Notebook
