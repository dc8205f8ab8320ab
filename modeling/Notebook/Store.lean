import Notebook.Compiler.Incremental
import Notebook.Machine.Run

/-!
The store: what the snippets of a session share when they run.

It holds the pool of constants, the globals, and which global each name is bound to. A unit whose
constants would not go at the end of the pool is refused; a unit whose run fails leaves the store
as it was.
-/

namespace Notebook

/-- Where a global lives, and the snippet that bound it last. -/
structure Binding where
  index : Nat
  line : SnippetId
  deriving DecidableEq, Repr

/-- The constants, globals and bound names of a session. All three only ever grow, except that globals are
assigned and names bound anew. -/
structure Store where
  constants : Array Value := #[]
  globals : Array Value := #[]
  bindings : NameTable Binding := {}
  maxCallDepth : Nat
  deriving DecidableEq, Repr

/-- How the run of a unit ended. A unit that does not fit the pool is refused without running. -/
inductive RunOutcome where
  | finished (value : Option Value)
  | failed (error : RunError)
  | skipped (report : Diagnostic)
  deriving DecidableEq, Repr

namespace Store

def global? (s : Store) (name : String) : Option Value :=
  match s.bindings.get? name with
  | some binding => s.globals[binding.index]?
  | none => none

/-- Values filled up with nulls to a number of at least `n`. More than `n` values stay as they are. -/
def padded (values : Array Value) (n : Nat) : Array Value :=
  values ++ Array.replicate (n - values.size) Value.null

def bind (snippet : SnippetId) (declarations : List Declaration) (t : NameTable Binding) :
    NameTable Binding :=
  declarations.foldl (fun t d => t.insert d.name ⟨d.index, snippet⟩) t

def mismatch (u : CompiledUnit) (s : Store) : Diagnostic where
  message := s!"constant pool mismatch: unit starts at {u.constantsOffset}, " ++
    s!"runtime holds {s.constants.size}"
  snippet := some u.snippet

/-- Loads a unit and runs its top-level code. Nulls fill the pool up to where the unit's constants start, so a
unit may be run although others before it were not. Nothing of a run that fails stays. -/
def run (u : CompiledUnit) (config : RunConfig) (s : Store) : RunOutcome × Store :=
  if u.constantsOffset < s.constants.size then (.skipped (mismatch u s), s)
  else
    let constants := padded s.constants u.constantsOffset ++ u.constants
    let setting : Setting := ⟨constants, min s.maxCallDepth config.maxCallDepth⟩
    let main : FunctionCode := ⟨u.code, u.constantsOffset, 0, 0⟩
    let ran := Machine.runCode setting (padded s.globals u.globals) main
    match ran.result with
    | .ok value =>
      (.finished value,
        { s with constants, globals := ran.globals,
                 bindings := bind u.snippet u.declarations s.bindings })
    | .error error => (.failed error, s)

/-- Calls a function outside of any snippet. What it assigns to globals stays, whether it fails or not: unlike a
snippet, a call is not undone. -/
def call (f : Value) (args : List Value) (s : Store) : Except RunError Value × Store :=
  if f.isCallable then
    let ran := Machine.call ⟨s.constants, s.maxCallDepth⟩ s.globals f args
    (ran.result, { s with globals := ran.globals })
  else (.error (.notCallable f.type), s)

end Store

structure SnippetHandle where
  snippet : SnippetId
  deriving DecidableEq, Repr

/-- What a name stands for, as seen through a snippet's handle. The handle's snippet is not consulted: a name
that was bound again since stands for what it was bound to last. -/
def SnippetHandle.get (_ : SnippetHandle) (s : Store) (name : String) : Option Value :=
  s.global? name

/-- What evaluating a unit led to. -/
inductive EvalResult where
  | unit (of : SnippetHandle)
  | value (v : Value) (declaredType : Option String) (of : SnippetHandle)
  | error (error : RunError)
  | notEvaluated
  deriving DecidableEq, Repr

/-- The result of evaluating a unit, with reports about it. -/
structure Evaluated where
  result : EvalResult
  reports : List Diagnostic := []
  deriving DecidableEq, Repr

def Store.evaluate (u : CompiledUnit) (config : RunConfig) (s : Store) : Evaluated × Store :=
  match s.run u config with
  | (.finished (some v), s) => (⟨.value v u.declaredType ⟨u.snippet⟩, []⟩, s)
  | (.finished none, s) => (⟨.unit ⟨u.snippet⟩, []⟩, s)
  | (.failed error, s) => (⟨.error error, []⟩, s)
  | (.skipped report, s) => (⟨.notEvaluated, [report]⟩, s)

end Notebook
