import Notebook.Compiler
import Notebook.Diagnostic
import Notebook.Program.Parser

/-!
The compiler as a session uses it: snippets come as text and get numbers, and what a snippet
declares is kept or forgotten once it is known how its run ended.

A compiled snippet is pending until `commit` or `rollback`. Compiling another one commits it.
-/

namespace Notebook

inductive SourceError where
  | parse (cause : ParseError)
  | compile (cause : CompileError)
  deriving DecidableEq, Repr

def SourceError.message : SourceError → String
  | .parse cause => cause.message
  | .compile cause => cause.message

def Compiler.compileSource (snippet : SnippetId) (source : String) (c : Compiler) :
    Except SourceError CompiledUnit × Compiler :=
  match Program.ofSource source with
  | .error cause => (.error (.parse cause), c)
  | .ok p =>
    match c.compile snippet p with
    | (.ok u, c) => (.ok u, c)
    | (.error cause, c) => (.error (.compile cause), c)

/-- What the machine has to know about a run beside the unit itself. -/
structure RunConfig where
  snippet : SnippetId
  maxCallDepth : Nat
  deriving DecidableEq, Repr

/-- A compiler with the snippet that is pending, as the checkpoint from before it, and the next snippet's
number. The number only ever goes up, whatever becomes of the snippet that it was handed out for. -/
structure IncrementalCompiler where
  compiler : Compiler := {}
  pending : Option Checkpoint := none
  nextSnippet : SnippetId := 0
  maxCallDepth : Nat
  deriving DecidableEq, Repr

namespace IncrementalCompiler

def nextId (c : IncrementalCompiler) : SnippetId × IncrementalCompiler :=
  (c.nextSnippet, { c with nextSnippet := c.nextSnippet + 1 })

/-- Compiles a source text under a number, and says how its unit is to be run. What fails to compile leaves
nothing pending, and nothing to be rolled back. -/
def compile (snippet : SnippetId) (source : String) (c : IncrementalCompiler) :
    (Except (List Diagnostic) CompiledUnit × RunConfig) × IncrementalCompiler :=
  let config : RunConfig := ⟨snippet, c.maxCallDepth⟩
  match c.compiler.compileSource snippet source with
  | (.ok u, compiler) =>
    ((.ok u, config), { c with compiler, pending := some c.compiler.checkpoint })
  | (.error cause, compiler) =>
    ((.error [⟨cause.message, some snippet⟩], config), { c with compiler, pending := none })

def commit (c : IncrementalCompiler) : IncrementalCompiler := { c with pending := none }

/-- Forgets the pending snippet, as if it had never been compiled. There may be none, and then nothing
happens. -/
def rollback (c : IncrementalCompiler) : IncrementalCompiler :=
  match c.pending with
  | none => c
  | some saved => { c with compiler := c.compiler.restore saved, pending := none }

end IncrementalCompiler

end Notebook
