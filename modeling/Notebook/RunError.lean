import Notebook.Builtin

/-!
What can go wrong while code runs.

Some failures are the language's own (types, arity, arithmetic, `throw`), two are limits of the
machine (`stackOverflow`, `callDepth`), and the others only arise from code that no program
compiles to.
-/

namespace Notebook

/-- Why a run or a call fails. -/
inductive RunError where
  | stackOverflow
  | stackUnderflow
  | callDepth (limit : Nat)
  | arity (want got : Nat)
  | calling (given : ValueType)
  | fetch (cause : FetchError)
  | constantNotLoaded (index : Nat)
  | globalNotDefined (index : Nat)
  | localOutOfRange (index : Nat)
  | builtinUnknown (index : Nat)
  | negation (given : ValueType)
  | overflow
  | divisionByZero
  | operands (op : Opcode) (left right : ValueType)
  | indexing (collection position : ValueType)
  | builtin (cause : BuiltinError)
  | thrown (text : String)
  | notCallable (given : ValueType)
  | busy
  deriving DecidableEq, Repr

namespace RunError

def message : RunError → String
  | .stackOverflow => "stack overflow"
  | .stackUnderflow => "stack underflow"
  | .callDepth limit => s!"stack overflow: call depth exceeded {limit}"
  | .arity want got => s!"wrong number of arguments: want={want}, got={got}"
  | .calling given => "calling non-function: " ++ given.name
  | .fetch cause => cause.message
  | .constantNotLoaded index => s!"constant {index} is not loaded"
  | .globalNotDefined index => s!"global {index} is not defined"
  | .localOutOfRange index => s!"local {index} is out of range"
  | .builtinUnknown index => s!"unknown builtin {index}"
  | .negation given => "unsupported type for negation: " ++ given.name
  | .overflow => "integer overflow"
  | .divisionByZero => "division by zero"
  | .operands op left right =>
    s!"unsupported types for {op.name}: {left.name} and {right.name}"
  | .indexing collection position =>
    "index operator not supported: " ++ collection.name ++ "[" ++ position.name ++ "]"
  | .builtin cause => cause.message
  | .thrown text => text
  | .notCallable given => given.name ++ " is not callable"
  | .busy => "runtime is busy"

/-- Is this the failure of a `throw`? -/
def isThrown : RunError → Bool
  | .thrown _ => true
  | _ => false

end RunError

end Notebook
