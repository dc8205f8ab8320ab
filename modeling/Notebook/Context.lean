import Notebook.Store

/-!
The execution context: the names that a session has bound, with their values and the snippets that
bound them. Functions and everything else are kept apart.

A context is a picture of a store at some moment; `Workspace` keeps the two together.
-/

namespace Notebook

structure ContextEntry where
  value : Value
  line : SnippetId
  deriving DecidableEq, Repr

structure Context where
  functions : NameTable ContextEntry := {}
  values : NameTable ContextEntry := {}
  deriving DecidableEq, Repr

namespace Context

def add (c : Context) (name : String) (entry : ContextEntry) : Context :=
  if entry.value.isCallable then { c with functions := c.functions.insert name entry }
  else { c with values := c.values.insert name entry }

/-- What a binding stands for in a store. A slot that the store does not have counts as null. -/
def entryOf (s : Store) (b : Binding) : ContextEntry := ⟨s.globals[b.index]?.getD .null, b.line⟩

/-- The names that a store has bound. -/
def ofStore (s : Store) : Context :=
  s.bindings.entries.foldl (fun c entry => c.add entry.1 (entryOf s entry.2)) {}

def function? (c : Context) (name : String) : Option ContextEntry := c.functions.get? name

end Context

/-- Calls a function of a context, with the store of the session that the context shows. While a run has the
store there is none to call it with, and the call is refused as busy. -/
def ContextEntry.call (entry : ContextEntry) (args : List Value) :
    Option Store → Except RunError Value × Option Store
  | none => (.error .busy, none)
  | some s =>
    let (result, s) := s.call entry.value args
    (result, some s)

/-- A store, and the context as of the last time that it was asked for. Between two such times the store may
move on without the context. -/
structure Workspace where
  store : Store
  context : Context := {}
  deriving DecidableEq, Repr

namespace Workspace

def refresh (w : Workspace) : Workspace := { w with context := .ofStore w.store }

def call (f : Value) (args : List Value) (w : Workspace) : Except RunError Value × Workspace :=
  let (result, store) := w.store.call f args
  (result, { w with store })

end Workspace

end Notebook
