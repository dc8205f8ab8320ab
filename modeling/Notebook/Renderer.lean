import Notebook.SessionError

/-!
Renderers: how values are turned into something to show.

A renderer applies to the values of some types. A code renderer is written in the snippet language,
as a body in which `$it` stands for the value; an inline renderer is a function whose dealings with
the session are a `Script`.
-/

namespace Notebook

/-- Which types of values a renderer applies to. -/
abbrev TypeMatcher := ValueType → Bool

def TypeMatcher.anyOf (types : List ValueType) : TypeMatcher := fun t => types.contains t

/-- What an inline renderer does: it ends with a result or a failure, or it has the session evaluate a text or
call a function and goes on with what comes of that. A renderer can thus do nothing else to a session. -/
inductive Script where
  | done (result : TypedResult)
  | fail (cause : Cause)
  | execute (source : String) (next : Except SessionError (Option Value) → Script)
  | call (f : Value) (args : List Value) (next : Except SessionError Value → Script)

/-- Something with a session's two services: to evaluate a text as a snippet of its own, and to
call a function. -/
structure Host (σ : Type) where
  execute : String → σ → Except SessionError (Option Value) × σ
  call : Value → List Value → σ → Except SessionError Value × σ

/-- Carries a script out, the host's state being threaded through its requests. A failed request does not end a
script: it may go on with the error. -/
def Script.run {σ : Type} (host : Host σ) : Script → σ → Except Cause TypedResult × σ
  | .done result, s => (.ok result, s)
  | .fail cause, s => (.error cause, s)
  | .execute source next, s =>
    let (answer, s) := host.execute source s
    run host (next answer) s
  | .call f args next, s =>
    let (answer, s) := host.call f args s
    run host (next answer) s

/-! ### Code renderers -/

/-- A text with each `$it` replaced, the part before it being `read`, last character first. The text is not
taken apart into tokens: what stands inside a string is replaced as well. -/
def replacePlaceholder (name : List Char) (read : List Char) : List Char → List Char
  | [] => read.reverse
  | '$' :: 'i' :: 't' :: rest => replacePlaceholder name (name.reverse ++ read) rest
  | c :: rest => replacePlaceholder name (c :: read) rest

/-- The function of one parameter that a body describes: the body between braces, with the parameter for each
`$it`. -/
def functionSource (body parameter : String) : String :=
  "fn(" ++ parameter ++ ") \x7b " ++
    String.ofList (replacePlaceholder parameter.toList [] body.toList) ++ " \x7d"

/-- The parameter of a body that is evaluated for one value only. -/
def inlineParameter : String := "___it"

def methodParameter : String := "___value"

/-- The name of the session's function for a renderer, which only its number distinguishes from the others. -/
def methodName (id : Nat) : String := s!"___renderResult{id}"

/-- The snippet that makes a body a function of the session. -/
def precompiledSource (body method parameter : String) : String :=
  "let " ++ method ++ " = " ++ functionSource body parameter ++ ";"

def noFunctionMessage : String := "renderer body did not produce a function"

/-- What a body does for one value: the function that it describes is evaluated as a snippet of its own and
called. The body of a registered code renderer takes this way only while it is no function of the session. -/
def bodyScript (body : String) (result : TypedResult) : Script :=
  .execute (functionSource body inlineParameter) fun
    | .error error => .fail (.session error)
    | .ok none => .fail (.note noFunctionMessage [])
    | .ok (some f) => .call f [result.value.getD .null] fun
      | .error error => .fail (.session error)
      | .ok v => .done (.of v)

/-! ### Renderers -/

inductive Renderer where
  | code (accepts : TypeMatcher) (body : String)
  | inline (accepts : TypeMatcher) (render : TypedResult → Script)

namespace Renderer

def accepts : Renderer → TypeMatcher
  | .code accepts _ => accepts
  | .inline accepts _ => accepts

/-- What a renderer does for one result. -/
def script : Renderer → TypedResult → Script
  | .code _ body => bodyScript body
  | .inline _ render => render

/-- The snippet that makes a renderer a function of the session, if it can be one. -/
def precompile (method parameter : String) : Renderer → Option String
  | .code _ body => some (precompiledSource body method parameter)
  | .inline _ _ => none

end Renderer

end Notebook
