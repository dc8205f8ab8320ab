import Notebook.Archive
import Notebook.Context
import Notebook.UnitFiles

/-!
The evaluation engine: takes one snippet after the other through compiling, storing and running,
and keeps what the successful ones leave behind.

The engine works with any compiler and any evaluator (`Parts`). It asks the compiler for a number,
has the snippet compiled, stores the unit, has it run, and then tells the compiler to keep or to
forget it. Only the units of snippets that ran to their end go into the archive.

The caller may look at the engine as soon as the number is known, and may even try to evaluate
something from there; an engine that is evaluating refuses that and stays as it is.
-/

namespace Notebook

/-- A compiler as the engine sees it, with its state in `σ`. A snippet that compiled is pending until the engine
has it committed or rolled back, once it knows how the run ended. -/
structure CompilerPart (σ : Type) where
  nextId : σ → SnippetId × σ
  compile : SnippetId → String → σ → (Except (List Diagnostic) CompiledUnit × RunConfig) × σ
  commit : σ → σ
  rollback : σ → σ

/-- An evaluator as the engine sees it, with its state in `τ`, and the store that the engine's context is to
show after every run. -/
structure EvaluatorPart (τ : Type) where
  evaluate : CompiledUnit → RunConfig → τ → Evaluated × τ
  store : τ → Store

structure Parts (σ τ : Type) where
  compiler : CompilerPart σ
  evaluator : EvaluatorPart τ

/-- The state of an engine: its collaborators' states, the context shown to callers, the archive of the units
that ran to their end, and the unit files. `executing` is up while a snippet is evaluated and turns every other
request to evaluate away. -/
structure Engine (σ τ : Type) where
  compiler : σ
  evaluator : τ
  context : Context := {}
  archive : Archive := {}
  files : UnitFiles := {}
  executing : Bool := false

/-- What a successful snippet comes to: a result that is still to be rendered, and a handle on what it bound. -/
structure Evaluation where
  result : TypedResult
  handle : SnippetHandle
  deriving DecidableEq, Repr

/-- What a caller gets: the outcome, and what it saw when the snippet got its number. It sees nothing if the
snippet was turned away before that. -/
structure Reply (α : Type) where
  result : Except SessionError Evaluation
  observed : Option α

def notEvaluatedMessage : String := "This snippet was not evaluated"

namespace Engine

variable {σ τ α : Type}

/-- Stores a unit, and writes its files if writing is on. This comes before the run, so the files of a snippet
that fails later stay. -/
def persist (u : CompiledUnit) (files : UnitFiles) :
    Except SessionError (SerializedUnit × UnitFiles) :=
  match u.serialize with
  | .error cause => .error (.serialization cause)
  | .ok stored =>
    match files.write u stored with
    | .error cause => .error (.file cause)
    | .ok files => .ok (stored, files)

def refresh (parts : Parts σ τ) (e : Engine σ τ) : Engine σ τ :=
  { e with context := .ofStore (parts.evaluator.store e.evaluator) }

/-- What the end of a run means for the snippet: a result and a handle on it, or an error. -/
def outcome (evaluated : Evaluated) : Except SessionError Evaluation :=
  match evaluated.result with
  | .unit handle => .ok ⟨{}, handle⟩
  | .value v declaredType handle => .ok ⟨⟨some v, declaredType⟩, handle⟩
  | .error error => .error (.ofRun error)
  | .notEvaluated =>
    .error (.evaluation notEvaluatedMessage
      (evaluated.reports.head?.map fun report => .note report.message []))

/-- Runs a stored unit, and commits it or rolls it back. The context is brought up to date in either case; the
archive only takes a unit whose run succeeded. -/
def runStored (parts : Parts σ τ) (u : CompiledUnit) (config : RunConfig)
    (stored : SerializedUnit) (e : Engine σ τ) : Except SessionError Evaluation × Engine σ τ :=
  let (evaluated, evaluator) := parts.evaluator.evaluate u config e.evaluator
  let e := refresh parts { e with evaluator }
  match outcome evaluated with
  | .ok evaluation =>
    (.ok evaluation,
      { e with compiler := parts.compiler.commit e.compiler, archive := e.archive.push stored })
  | .error error => (.error error, { e with compiler := parts.compiler.rollback e.compiler })

/-- Evaluates a source text under a number. What does not compile is not stored, and what cannot be stored is
rolled back without having run. -/
def evalAs (parts : Parts σ τ) (id : SnippetId) (source : String) (e : Engine σ τ) :
    Except SessionError Evaluation × Engine σ τ :=
  let ((compiled, config), compiler) := parts.compiler.compile id source e.compiler
  match compiled with
  | .error diagnostics => (.error (.compilation id source diagnostics), { e with compiler })
  | .ok u =>
    match persist u e.files with
    | .error error => (.error error, { e with compiler := parts.compiler.rollback compiler })
    | .ok (stored, files) => runStored parts u config stored { e with compiler, files }

/-- Evaluates a source text as the next snippet. `observe` gets the engine as soon as the snippet has a number,
and may change it; whatever it does, the engine is no longer executing in the end. -/
def evalObserving (parts : Parts σ τ) (observe : SnippetId → Engine σ τ → α × Engine σ τ)
    (source : String) (e : Engine σ τ) : Reply α × Engine σ τ :=
  if e.executing then (⟨.error .concurrencyViolation, none⟩, e)
  else
    let (id, compiler) := parts.compiler.nextId e.compiler
    let (seen, e) := observe id { e with compiler, executing := true }
    let (result, e) := evalAs parts id source e
    (⟨result, some seen⟩, { e with executing := false })

def eval (parts : Parts σ τ) (source : String) (e : Engine σ τ) :
    Except SessionError Evaluation × Engine σ τ :=
  let (reply, e) := evalObserving parts (fun _ e => ((), e)) source e
  (reply.result, e)

/-- The units archived so far, which leave the archive. -/
def drain (e : Engine σ τ) : List SerializedUnit × Engine σ τ :=
  let (units, archive) := e.archive.drain
  (units, { e with archive })

/-- Turns the writing of unit files on, into a new directory even if it was on already, or off. -/
def setWriting (on : Bool) (e : Engine σ τ) : Engine σ τ :=
  { e with files := if on then e.files.start else e.files.stop }

end Engine

end Notebook
