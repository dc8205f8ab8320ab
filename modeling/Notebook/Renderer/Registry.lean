import Notebook.Context
import Notebook.Renderer

/-!
The registry of renderers, and rendering: the first renderer that accepts a value's type is applied
to it, and then to what comes of that, until none does.

A renderer that is a function of the session is called through the execution context, by the name
made from its number. Numbers are handed out when renderers are committed.
-/

namespace Notebook

/-- A renderer, and the number of the session's function for it if there is one. -/
structure Registered where
  renderer : Renderer
  method : Option Nat

/-- A renderer that is prepared but not registered, and the snippet that defines its function. The snippet is
evaluated in between, so that one that fails leaves no renderer behind. -/
structure PendingRenderer where
  registered : Registered
  code : Option String

/-- The renderers in the order in which they were registered, the number of the next session function for one,
and how many renderers may be applied to one result. -/
structure Registry where
  renderers : Array Registered := #[]
  nextMethod : Nat := 0
  maxSteps : Nat

/-- What rendering needs of a session: its services for inline renderers, and its context and functions for the
others. `refresh` brings the context up to date, so that functions are looked up as they are at that moment. -/
structure RenderHost (σ : Type) extends Host σ where
  refresh : σ → σ
  function? : String → σ → Option ContextEntry
  invoke : ContextEntry → List Value → σ → Except RunError Value × σ

namespace Registry

/-- Prepares a renderer. It gets the next number if it can be a function of the session, but nothing changes
until it is committed. -/
def prepare (renderer : Renderer) (r : Registry) : PendingRenderer :=
  match renderer.precompile (methodName r.nextMethod) methodParameter with
  | some code => ⟨⟨renderer, some r.nextMethod⟩, some code⟩
  | none => ⟨⟨renderer, none⟩, none⟩

/-- Registers a prepared renderer after all others. The next number follows the committed one, so numbers are
only used up by renderers that got in. -/
def commit (pending : PendingRenderer) (r : Registry) : Registry where
  renderers := r.renderers.push pending.registered
  nextMethod := match pending.registered.method with
    | some id => id + 1
    | none => r.nextMethod
  maxSteps := r.maxSteps

/-- Registers a renderer. Its snippet is to be evaluated before it applies for the first time. -/
def register (renderer : Renderer) (r : Registry) : Option String × Registry :=
  let pending := r.prepare renderer
  (pending.code, r.commit pending)

def registerPlain (renderer : Renderer) (r : Registry) : Registry :=
  { r with renderers := r.renderers.push ⟨renderer, none⟩ }

def size (r : Registry) : Nat := r.renderers.size

/-- The first renderer that accepts a type. Later ones for the same type never apply. -/
def find? (type : ValueType) (r : Registry) : Option Registered :=
  r.renderers.find? fun registered => registered.renderer.accepts type

/-! ### Rendering -/

variable {σ : Type}

/-- Applies a renderer to the value `v` of a result. A renderer with a function of its own has it looked up by
name and called; any other carries out its script. -/
def applyRenderer (host : RenderHost σ) (registered : Registered) (result : TypedResult)
    (v : Value) (s : σ) : Except SessionError TypedResult × σ :=
  let s := host.refresh s
  match registered.method with
  | none =>
    match (registered.renderer.script result).run host.toHost s with
    | (.ok result, s) => (.ok result, s)
    | (.error cause, s) => (.error (.rendererFailure cause), s)
  | some id =>
    match host.function? (methodName id) s with
    | none =>
      (.error (.inconsistency
        ("renderer method " ++ methodName id ++ " is not defined in the session")), s)
    | some entry =>
      match host.invoke entry [v] s with
      | (.ok v, s) => (.ok (.of v), s)
      | (.error error, s) => (.error (.rendererFailure (.run error)), s)

/-- The error of a value that still has a renderer when all steps are used up. -/
def unfinished (r : Registry) (type : ValueType) : SessionError :=
  .inconsistency (s!"rendering a {type.name} value did not finish after {r.maxSteps} " ++
    "renderer applications")

/-- Applies renderers to a result at most so many times. Rendering ends with a value that no renderer accepts,
or with nothing to show; a value that still has a renderer when no step is left is an error. -/
def renderWithin (host : RenderHost σ) (r : Registry) :
    Nat → TypedResult → σ → Except SessionError (Option Value) × σ
  | steps, result, s =>
    match result.value with
    | none | some .null => (.ok none, s)
    | some v =>
      match r.find? v.type with
      | none => (.ok (some v), s)
      | some registered =>
        match steps with
        | 0 => (.error (r.unfinished v.type), s)
        | steps + 1 =>
          match applyRenderer host registered result v s with
          | (.ok result, s) => renderWithin host r steps result s
          | (.error error, s) => (.error error, s)

/-- Renders a result. There is nothing to show for a snippet without value, and for null. -/
def renderResult (host : RenderHost σ) (r : Registry) (result : TypedResult) (s : σ) :
    Except SessionError (Option Value) × σ :=
  renderWithin host r r.maxSteps result s

/-- Renders a value, if there is one. -/
def renderValue (host : RenderHost σ) (r : Registry) (value : Option Value) (s : σ) :
    Except SessionError (Option Value) × σ :=
  match value with
  | none => (.ok none, s)
  | some v => renderResult host r (.of v) s

end Registry

/-- Rendering over a workspace alone, with the services of `host`. -/
def Workspace.renderHost (host : Host Workspace) : RenderHost Workspace where
  toHost := host
  refresh := Workspace.refresh
  function? name w := w.context.function? name
  invoke entry args w := w.call entry.value args

end Notebook
