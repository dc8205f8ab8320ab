import Notebook.CompiledUnit.Encode
import Notebook.Diagnostic
import Notebook.RunError

/-!
What can go wrong in a session, and what lies behind it.

An error has a message of its own; `causes` lists the messages of what caused it, nearest first.
-/

namespace Notebook

/-- Why a file cannot be written. -/
inductive FileError where
  | notFound
  deriving DecidableEq, Repr

def FileError.message : FileError → String
  | .notFound => "No such file or directory (os error 2)"

mutual

/-- Why a request to a session fails. -/
inductive SessionError where
  | concurrencyViolation
  | compilation (snippet : SnippetId) (source : String) (diagnostics : List Diagnostic)
  | evaluation (message : String) (cause : Option Cause)
  | rendererFailure (cause : Cause)
  | inconsistency (detail : String)
  | serialization (cause : SerializeError)
  | file (cause : FileError)
  deriving Repr

/-- What lies behind an error: a run that failed, a plain text with causes of its own, or an error of the
session, as when a renderer evaluates a snippet that fails. -/
inductive Cause where
  | run (error : RunError)
  | note (message : String) (causes : List String)
  | session (error : SessionError)
  deriving Repr

end

mutual

def SessionError.message : SessionError → String
  | .concurrencyViolation => "recursive execution is not supported"
  | .compilation snippet _ diagnostics =>
    s!"snippet {snippet.toNat} failed to compile:\n" ++
      String.intercalate "\n" (diagnostics.map fun d => "  " ++ d.display)
  | .evaluation message _ => message
  | .rendererFailure cause => "failure in library renderers: " ++ cause.message
  | .inconsistency detail => "internal consistency error: " ++ detail
  | .serialization cause => "could not serialize compiled unit: " ++ cause.message
  | .file cause => cause.message

def Cause.message : Cause → String
  | .run error => error.message
  | .note message _ => message
  | .session error => error.message

end

mutual

/-- The messages of what lies behind an error, nearest first. -/
def SessionError.causes : SessionError → List String
  | .evaluation _ (some cause) => cause.message :: cause.causes
  | .rendererFailure cause => cause.message :: cause.causes
  | .serialization cause => [cause.message]
  | _ => []

def Cause.causes : Cause → List String
  | .run _ => []
  | .note _ causes => causes
  | .session error => error.causes

end

def Cause.isThrown : Cause → Bool
  | .run error => error.isThrown
  | _ => false

/-- The failure of a run, as the session reports it. -/
def SessionError.ofRun (error : RunError) : SessionError :=
  .evaluation error.message (some (.run error))

end Notebook
