import Notebook.Cells
import Notebook.CommandLine.Options
import Notebook.Session.Report
import Notebook.Text.Utf8

/-!
The program as a function: from its arguments and what is around it to what it prints and leaves
behind.

Without a file the program is a terminal: it prompts for each line and evaluates the lines that are
not blank. With a file it evaluates the cells of the file. Text that is not UTF-8 ends the program,
and what was printed before stays; the archive is only written by a program that gets to its end.

What arguments, lines and files come to is told by `Plan.ofArguments`, `lineSnippets` and
`fileSnippets`, and what is archived by `Options.archive`. `runProgram` puts them together over
surroundings that are data, and `Notebook.Main` over the terminal and the file system.
-/

namespace Notebook

/-- What is around the program: the variables of its environment, its standard input, the files that
it may read, and the directories that it can create. -/
structure Surroundings where
  environment : String → Option String := fun _ => none
  input : List UInt8
  file? : String → Option (List UInt8)
  canCreate : String → Bool

/-- How a program ends: as it should, with an error, or without having understood its arguments. -/
inductive Exit where
  | success | failure | rejected
  deriving DecidableEq, Repr

def Exit.code : Exit → Nat
  | .success => 0
  | .failure => 1
  | .rejected => 2

/-- What a program leaves: its exit, what it printed, the files of the archive directory if it got
to write one, and the directories of unit files. -/
structure Outcome where
  exit : Exit
  output : String := ""
  archive : Option (List SerializedUnit) := none
  directories : List UnitDirectory := []

/-! ### What is read -/

def prompt : String := ">>"

/-- What is printed where there are no more lines, so that what comes next on the terminal starts on a line of
its own. -/
def farewell : String := "\n"

def byteLines (bytes : List UInt8) : List (List UInt8) := Text.lines 0x0a 0x0d bytes

/-- The snippets of a line: the line itself, unless it is blank. A line that is not UTF-8 is an error and not a
snippet. -/
def lineSnippets (line : List UInt8) : Except Text.Utf8.Fault (List String) := do
  let line ← Text.Utf8.decode line
  .ok (if Text.allBlank line.toList then [] else [line])

/-- The snippets of a file: its cells. A file that is not UTF-8 is an error as a whole, so no cell of it is
evaluated. -/
def fileSnippets (content : List UInt8) : Except Text.Utf8.Fault (List String) := do
  let source ← Text.Utf8.decode content
  .ok (Cells.ofSource source)

namespace Session

/-- Answers snippets in order. What was printed comes last one first, here and below. -/
def answerSnippets (printed : List String) : List String → Session → List String × Session
  | [], s => (printed, s)
  | snippet :: rest, s =>
    let (answer, s) := s.answer snippet
    answerSnippets (answer :: printed) rest s

/-- Prompts for lines and answers them, as long as they are UTF-8. What was printed before a line that is not
stays printed. -/
def answerLines (printed : List String) : List (List UInt8) → Session →
    Exit × List String × Session
  | [], s => (.success, farewell :: prompt :: printed, s)
  | line :: rest, s =>
    match lineSnippets line with
    | .error _ => (.failure, prompt :: printed, s)
    | .ok snippets =>
      let (printed, s) := s.answerSnippets (prompt :: printed) snippets
      answerLines printed rest s

def answerFile (content : Option (List UInt8)) (s : Session) : Exit × List String × Session :=
  match content.map fileSnippets with
  | some (.ok snippets) =>
    let (printed, s) := s.answerSnippets [] snippets
    (.success, printed, s)
  | _ => (.failure, [], s)

end Session

/-! ### What is left behind -/

/-- The directory for the archive, if there is to be one, and what goes into it at the end of a session. Without
the option, nothing is drained. -/
def Options.archive (o : Options) (s : Session) : Option (String × List SerializedUnit) :=
  o.archiveDirectory.map fun directory => (directory, s.drain.1)

/-- Evaluates the lines of the standard input, or the cells of a file. The archive is written by a program that
ends as it should, and by no other. -/
def evaluateWith (around : Surroundings) (options : Options) (file : Option String) : Outcome :=
  let s := Session.new options.config
  let (exit, printed, s) :=
    match file with
    | none => s.answerLines [] (byteLines around.input)
    | some file => s.answerFile (around.file? file)
  let output := String.join printed.reverse
  let directories := s.engine.files.directories
  match exit, options.archive s with
  | .success, some (directory, units) =>
    if around.canCreate directory then { exit, output, directories, archive := some units }
    else { exit := .failure, output, directories }
  | exit, _ => { exit, output, directories }

/-! ### What is asked for -/

/-- How the program is used, in the words that its options are documented with. -/
def helpText : String :=
  "Incremental compile-evaluate core and result rendering pipeline for an interactive snippet " ++
    "kernel.\n\n" ++
  "Usage: kernel [OPTIONS] [COMMAND]\n\n" ++
  "Commands:\n" ++
  "  run   run a file, cells are separated by lines containing only `%%`\n" ++
  "  help  Print this message or the help of the given subcommand(s)\n\n" ++
  "Options:\n" ++
  "      --log-execution\n" ++
  "          log the source of every snippet before it runs [env: KERNEL_LOG_EXECUTION=]\n" ++
  "      --write-classes\n" ++
  "          write every compiled unit into a fresh temporary directory " ++
    "[env: KERNEL_WRITE_CLASSES=]\n" ++
  "      --archive-dir <DIR>\n" ++
  "          write the archived units to this directory on exit\n" ++
  "      --max-render-steps <MAX_RENDER_STEPS>\n" ++
  "          maximum number of renderer applications for one result " ++
    "[default: " ++ toString ({} : Config).maxRenderSteps ++ "]\n" ++
  "      --max-call-depth <MAX_CALL_DEPTH>\n" ++
  "          maximum call depth inside a snippet " ++
    "[default: " ++ toString ({} : Config).maxCallDepth ++ "]\n" ++
  "  -h, --help\n" ++
  "          Print help\n" ++
  "  -V, --version\n" ++
  "          Print version\n"

def versionText : String := "snippet-kernel 0.1.0\n"

/-- What there is to do: to evaluate lines or cells, or else to say something and to end. What is
wrong with the arguments is not said on the standard output. -/
inductive Plan where
  | evaluate (options : Options) (file : Option String)
  | say (exit : Exit) (output : String) (complaint : Option String)

/-- What arguments and the variables of the environment make the program do. -/
def Plan.ofArguments (arguments : List String) (environment : String → Option String) : Plan :=
  match Request.ofArguments arguments environment with
  | .error error => .say .rejected "" (some error.message)
  | .ok .help => .say .success helpText none
  | .ok .version => .say .success versionText none
  | .ok (.evaluate options file) => .evaluate options file

/-- Runs the program on surroundings that are data. What it does with them, `Notebook.Main` does with the
terminal and the file system. -/
def runProgram (around : Surroundings) (arguments : List String) : Outcome :=
  match Plan.ofArguments arguments around.environment with
  | .say exit output _ => { exit, output }
  | .evaluate options file => evaluateWith around options file

end Notebook
