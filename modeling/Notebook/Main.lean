import Notebook.CommandLine

/-!
The program itself: connects the session to the terminal and to files.

`Notebook.CommandLine` says what the program does with its arguments, a line, a file and an archive.
Here each line is read before it is answered, and the files of a unit are written as soon as there are
any.
-/

namespace Notebook

/-- A session at work: the directory that its unit files go into, if they are written, and how many
are there already. -/
structure Desk where
  session : Session
  options : Options
  directory : Option String
  written : Nat := 0

def Desk.writeFiles (d : Desk) : IO Desk := do
  match d.directory, d.session.engine.files.directory? with
  | some directory, some (some files) =>
    for (name, content) in files.entries.drop d.written do
      match content with
      | .bytes data => IO.FS.writeBinFile (directory ++ "/" ++ name) ⟨data.toArray⟩
      | .text text => IO.FS.writeFile (directory ++ "/" ++ name) text
    return { d with written := files.size }
  | _, _ => return d

/-- Looks whether the directory is still there, and lets the session know if it is gone. The session then stops
writing, as it does when a file cannot be created. -/
def Desk.look (d : Desk) : IO Desk := do
  match d.directory with
  | none => return d
  | some directory =>
    let there ← try (← IO.FS.realPath directory).pathExists catch _ => pure false
    if there then
      return d
    else
      let engine := d.session.engine
      let files := engine.files.delete.getD engine.files
      return { d with session := { d.session with engine := { engine with files } } }

def Desk.answer (snippet : String) (d : Desk) : IO Desk := do
  let d ← d.look
  if d.options.logExecution then
    IO.eprintln snippet
  let (printed, session) := d.session.answer snippet
  let d ← Desk.writeFiles { d with session }
  IO.print printed
  return d

/-- Answers the snippets of what was read, if it is text. -/
def Desk.answerSnippets (snippets : Except Text.Utf8.Fault (List String)) (d : Desk) : IO Desk :=
  match snippets with
  | .error fault => throw (IO.userError fault.message)
  | .ok snippets => snippets.foldlM (fun d snippet => d.answer snippet) d

/-- Reads bytes up to and with the next line feed, or to the end of the input, after those that were
`read`. -/
partial def readLine (input : IO.FS.Stream) (read : ByteArray) : IO ByteArray := do
  let more ← input.read 1
  let read := read ++ more
  if more.isEmpty || more.data.back? == some 0x0a then
    return read
  else
    readLine input read

/-- Prompts for lines and answers them until the input ends. -/
partial def Desk.converse (d : Desk) : IO Desk := do
  IO.print prompt
  (← IO.getStdout).flush
  let read ← readLine (← IO.getStdin) .empty
  match byteLines read.data.toList with
  | [] => do
    IO.print farewell
    return d
  | line :: _ => do
    let d ← d.answerSnippets (lineSnippets line)
    d.converse

/-- Does something with a file, and says what it was if that goes wrong. -/
def withContext {α : Type} (doing path : String) (act : IO α) : IO α :=
  try act catch error => throw (IO.userError (doing ++ " " ++ path ++ ": " ++ toString error))

def Desk.writeArchive (d : Desk) : IO Unit := do
  match d.options.archive d.session with
  | none => return ()
  | some (directory, units) =>
    withContext "could not create" directory (IO.FS.createDirAll directory)
    for unit in units do
      let path := directory ++ "/" ++ unit.fileName
      withContext "could not write" path (IO.FS.writeBinFile path ⟨unit.data.toArray⟩)

/-- Evaluates lines or cells, and writes the archive if nothing went wrong until then. -/
def Options.work (file : Option String) (options : Options) : IO Unit := do
  let directory ←
    if options.writeClasses then do
      let directory ← IO.FS.createTempDir
      IO.eprintln ("writing compiled units to " ++ directory.toString)
      pure (some directory.toString)
    else
      pure none
  let desk : Desk := { session := Session.new options.config, options, directory }
  let desk ←
    match file with
    | none => desk.converse
    | some file => do
      let content ← withContext "could not read" file (IO.FS.readBinFile file)
      desk.answerSnippets (fileSnippets content.data.toList)
  desk.writeArchive

end Notebook

open Notebook in
def main (arguments : List String) : IO UInt32 := do
  let logs ← IO.getEnv "KERNEL_LOG_EXECUTION"
  let writes ← IO.getEnv "KERNEL_WRITE_CLASSES"
  let environment := fun name =>
    if name = "KERNEL_LOG_EXECUTION" then logs
    else if name = "KERNEL_WRITE_CLASSES" then writes
    else none
  match Plan.ofArguments arguments environment with
  | .say exit output complaint => do
    IO.print output
    if let some complaint := complaint then
      IO.eprintln complaint
    return UInt32.ofNat exit.code
  | .evaluate options file =>
    try do
      options.work file
      return UInt32.ofNat Exit.success.code
    catch error => do
      IO.eprintln (toString error)
      return UInt32.ofNat Exit.failure.code
