import Notebook.Session

/-!
The options of the program.

Options come before the subcommand and may be given once each. The value of an option follows it as
an argument of its own, which may not look like an option, or after `=`. Arguments are read from
left to right and the first one that is wrong decides. Flags may also be set by variables of the
environment.
-/

namespace Notebook

inductive OptionName where
  | logExecution | writeClasses
  | archiveDirectory | maxRenderSteps | maxCallDepth
  | help | version
  deriving DecidableEq, Repr

inductive UsageError where
  | unexpected (argument : String)
  | repeated (option : String)
  | missingValue (option : String)
  | invalidValue (option value : String)
  | missingFile
  deriving DecidableEq, Repr

def UsageError.message : UsageError → String
  | .unexpected argument => "unexpected argument: " ++ argument
  | .repeated option => "option given more than once: " ++ option
  | .missingValue option => "option without a value: " ++ option
  | .invalidValue option value => "invalid value for " ++ option ++ ": " ++ value
  | .missingFile => "no file to run"

/-- The options that were given. Steps and depth are absent when the arguments do not name them, so that the
defaults stand in one place, with the settings of a session. -/
structure Options where
  logExecution : Bool := false
  writeClasses : Bool := false
  archiveDirectory : Option String := none
  maxRenderSteps : Option Nat := none
  maxCallDepth : Option Nat := none
  deriving DecidableEq, Repr

/-- The settings of the session that the options describe. -/
def Options.config (o : Options) : Config :=
  let default : Config := {}
  { writeUnits := o.writeClasses
    maxRenderSteps := o.maxRenderSteps.getD default.maxRenderSteps
    maxCallDepth := o.maxCallDepth.getD default.maxCallDepth }

/-- A flag as a variable of the environment sets it. A variable that is not there leaves it off, and one that is
neither `true` nor `false` is an error. -/
def Options.environmentFlag (name : String) : Option String → Except UsageError Bool
  | none | some "false" => .ok false
  | some "true" => .ok true
  | some value => .error (.invalidValue name value)

/-- The options with the flags that the environment sets. -/
def Options.withEnvironment (environment : String → Option String) (o : Options) :
    Except UsageError Options := do
  let logs ← environmentFlag "KERNEL_LOG_EXECUTION" (environment "KERNEL_LOG_EXECUTION")
  let writes ← environmentFlag "KERNEL_WRITE_CLASSES" (environment "KERNEL_WRITE_CLASSES")
  .ok { o with logExecution := o.logExecution || logs, writeClasses := o.writeClasses || writes }

/-- What the arguments ask for: the cells of a file, or the lines of the standard input, to be
evaluated, or a text about the program. -/
inductive Request where
  | evaluate (options : Options) (file : Option String)
  | help
  | version
  deriving DecidableEq, Repr

namespace Options

/-- The option that an argument without value names. -/
def name? : String → Option OptionName
  | "--log-execution" => some .logExecution
  | "--write-classes" => some .writeClasses
  | "--archive-dir" => some .archiveDirectory
  | "--max-render-steps" => some .maxRenderSteps
  | "--max-call-depth" => some .maxCallDepth
  | "--help" | "-h" => some .help
  | "--version" | "-V" => some .version
  | _ => none

/-- Does an argument look like an option? A lone `-` does not. -/
def looksLikeOption (argument : String) : Bool :=
  argument.toList.head? == some '-' && argument != "-"

/-- A count that fits 64 bits, in decimal digits that a `+` may come before. Leading zeros do no harm. -/
def count? (text : String) : Option Nat :=
  let digits : List Char :=
    match text.toList with
    | '+' :: rest => rest
    | all => all
  let n := digits.foldl (fun n c => n * 10 + (c.toNat - '0'.toNat)) 0
  if !digits.isEmpty && digits.all Char.isDigit && n < UInt64.size then some n else none

def setFlag (argument : String) (name : OptionName) (o : Options) : Except UsageError Options :=
  match name with
  | .logExecution =>
    if o.logExecution then .error (.repeated argument) else .ok { o with logExecution := true }
  | .writeClasses =>
    if o.writeClasses then .error (.repeated argument) else .ok { o with writeClasses := true }
  | _ => .error (.missingValue argument)

def setValue (argument : String) (name : OptionName) (value : String) (o : Options) :
    Except UsageError Options :=
  match name with
  | .archiveDirectory =>
    if value.isEmpty then .error (.invalidValue argument value)
    else if o.archiveDirectory.isSome then .error (.repeated argument)
    else .ok { o with archiveDirectory := some value }
  | .maxRenderSteps =>
    match count? value with
    | none => .error (.invalidValue argument value)
    | some n =>
      if o.maxRenderSteps.isSome then .error (.repeated argument)
      else .ok { o with maxRenderSteps := some n }
  | .maxCallDepth =>
    match count? value with
    | none => .error (.invalidValue argument value)
    | some n =>
      if o.maxCallDepth.isSome then .error (.repeated argument)
      else .ok { o with maxCallDepth := some n }
  | _ => .error (.unexpected value)

/-- An argument of the form `--name=value`, split at its first `=`. -/
def splitValue? (argument : String) : Option (String × String) :=
  match argument.toList.span (· != '=') with
  | (name, _ :: value) => some (String.ofList name, String.ofList value)
  | (_, []) => none

/-- The arguments after `run`, `some` file being there once it was met. Only one file is taken, and nothing may
follow it. -/
def readRun (o : Options) : Option String → List String → Except UsageError Request
  | none, [] => .error .missingFile
  | some file, [] => .ok (.evaluate o (some file))
  | none, ["--", file] =>
    if file.isEmpty then .error (.invalidValue "FILE" file) else .ok (.evaluate o (some file))
  | some file, ["--"] => .ok (.evaluate o (some file))
  | met, argument :: rest =>
    if name? argument = some .help then .ok .help
    else if looksLikeOption argument || met.isSome then .error (.unexpected argument)
    else if argument.isEmpty then .error (.invalidValue "FILE" argument)
    else readRun o (some argument) rest

def readTopic : List String → Except UsageError Request
  | [] | ["run"] | ["help"] => .ok .help
  | topic :: _ => .error (.unexpected topic)

/-- What arguments ask for, after the options `o`. Options are read until a subcommand comes, and a request for
help or for the version is granted at once, whatever follows it. -/
def read (o : Options) : List String → Except UsageError Request
  | [] | ["--"] => .ok (.evaluate o none)
  | "run" :: rest => readRun o none rest
  | "help" :: rest => readTopic rest
  | argument :: rest =>
    match name? argument with
    | some .help => .ok .help
    | some .version => .ok .version
    | some .logExecution => do
      let o ← o.setFlag argument .logExecution
      read o rest
    | some .writeClasses => do
      let o ← o.setFlag argument .writeClasses
      read o rest
    | some name =>
      match rest with
      | [] => .error (.missingValue argument)
      | value :: rest =>
        if looksLikeOption value then .error (.missingValue argument)
        else do
          let o ← o.setValue argument name value
          read o rest
    | none =>
      match splitValue? argument with
      | none => .error (.unexpected argument)
      | some (option, value) =>
        match name? option with
        | none => .error (.unexpected argument)
        | some name => do
          let o ← o.setValue option name value
          read o rest

end Options

/-- What arguments and the variables of the environment ask for. -/
def Request.ofArguments (arguments : List String) (environment : String → Option String) :
    Except UsageError Request := do
  let request ← Options.read {} arguments
  match request with
  | .evaluate options file => do
    let options ← options.withEnvironment environment
    .ok (.evaluate options file)
  | request => .ok request

end Notebook
