import Notebook.Engine
import Notebook.Renderer.Registry

/-!
A session: evaluates snippets, shows their results through the registered renderers, and keeps the
session's functions for the renderers in step with the registry.
-/

namespace Notebook

/-- The settings of a session: whether unit files are written from the start, how often renderers may be applied
to one result, and how deep calls may nest. -/
structure Config where
  writeUnits : Bool := false
  maxRenderSteps : Nat := 1000
  maxCallDepth : Nat := 1024
  deriving DecidableEq, Repr

def IncrementalCompiler.part : CompilerPart IncrementalCompiler where
  nextId := IncrementalCompiler.nextId
  compile := IncrementalCompiler.compile
  commit := IncrementalCompiler.commit
  rollback := IncrementalCompiler.rollback

def Store.part : EvaluatorPart Store where
  evaluate := Store.evaluate
  store := id

/-- The engine of sessions. -/
abbrev SessionEngine := Engine IncrementalCompiler Store

namespace SessionEngine

def parts : Parts IncrementalCompiler Store := ⟨IncrementalCompiler.part, Store.part⟩

def new (config : Config) : SessionEngine :=
  Engine.setWriting config.writeUnits
    { compiler := { maxCallDepth := config.maxCallDepth }
      evaluator := { maxCallDepth := config.maxCallDepth } }

/-- Evaluates a text as the next snippet, and answers with its value as it is. This is how renderers evaluate:
nothing is rendered on the way. -/
def execute (source : String) (e : SessionEngine) :
    Except SessionError (Option Value) × SessionEngine :=
  let (result, e) := Engine.eval parts source e
  (result.map (·.result.value), e)

def call (f : Value) (args : List Value) (e : SessionEngine) :
    Except RunError Value × SessionEngine :=
  let (result, evaluator) := e.evaluator.call f args
  (result, { e with evaluator })

def host : RenderHost SessionEngine where
  execute := execute
  call f args e :=
    let (result, e) := call f args e
    (result.mapError SessionError.ofRun, e)
  refresh := Engine.refresh parts
  function? name e := e.context.function? name
  invoke entry args e := call entry.value args e

end SessionEngine

/-- The number of an evaluated snippet, and its result as it is shown. -/
structure ShownResult where
  snippet : SnippetId
  rendered : Option Value
  deriving DecidableEq, Repr

structure Session where
  engine : SessionEngine
  renderers : Registry

namespace Session

def new (config : Config) : Session :=
  ⟨SessionEngine.new config, { maxSteps := config.maxRenderSteps }⟩

/-- Evaluates a snippet and renders its result. Whether rendering succeeds has no effect on what the snippet
did. -/
def eval (source : String) (s : Session) : Except SessionError ShownResult × Session :=
  let (reply, engine) :=
    Engine.evalObserving SessionEngine.parts (fun id e => (id, e)) source s.engine
  match reply.result, reply.observed with
  | .error error, _ => (.error error, { s with engine })
  | .ok _, none =>
    (.error (.inconsistency "snippet id was never assigned"), { s with engine })
  | .ok evaluation, some snippet =>
    let (rendered, engine) :=
      s.renderers.renderResult SessionEngine.host evaluation.result engine
    (rendered.map (⟨snippet, ·⟩), { s with engine })

/-- Registers a renderer. If it becomes a function of the session its snippet is evaluated first, and a renderer
whose snippet fails is not registered. The number of the failed one is free again. -/
def register (renderer : Renderer) (s : Session) : Except SessionError Unit × Session :=
  let pending := s.renderers.prepare renderer
  match pending.code with
  | none => (.ok (), { s with renderers := s.renderers.commit pending })
  | some code =>
    match Engine.eval SessionEngine.parts code s.engine with
    | (.ok _, engine) => (.ok (), { engine, renderers := s.renderers.commit pending })
    | (.error error, engine) => (.error error, { s with engine })

def registerPlain (renderer : Renderer) (s : Session) : Session :=
  { s with renderers := s.renderers.registerPlain renderer }

def drain (s : Session) : List SerializedUnit × Session :=
  let (units, engine) := s.engine.drain
  (units, { s with engine })

def context (s : Session) : Context := s.engine.context

end Session

end Notebook
