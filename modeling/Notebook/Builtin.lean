import Notebook.Value

/-!
The builtin functions.

Code addresses a builtin by its place in `Builtin.all`. Each checks how many arguments it is given
before it looks at them.
-/

namespace Notebook

/-- Why a builtin refuses its arguments. -/
inductive BuiltinError where
  | arity (b : Builtin) (want got : Nat)
  | unsupported (b : Builtin) (given : ValueType)
  deriving DecidableEq, Repr

def BuiltinError.message : BuiltinError → String
  | .arity b want got => s!"wrong number of arguments for {b.name}: want={want}, got={got}"
  | .unsupported b given => "argument to `" ++ b.name ++ "` not supported, got " ++ given.name

namespace Builtin

/-- The builtins in the order in which code addresses them. The order is part of the stored form of units, so a
new builtin goes to the end. -/
def all : List Builtin := [.len, .str, .type, .first, .last, .rest, .push]

def ofIndex? (i : Nat) : Option Builtin := all[i]?

def index : Builtin → Nat
  | .len => 0
  | .str => 1
  | .type => 2
  | .first => 3
  | .last => 4
  | .rest => 5
  | .push => 6

@[simp] theorem ofIndex?_index (b : Builtin) : ofIndex? b.index = some b := by
  cases b <;> rfl

def ofName? (name : String) : Option Builtin := all.find? (·.name == name)

def arity : Builtin → Nat
  | .push => 2
  | _ => 1

def eval (b : Builtin) (v : Value) (more : List Value) : Except BuiltinError Value :=
  match b, v with
  | .len, .str text => .ok (.int (Int64.ofNat text.length))
  | .len, .array elements => .ok (.int (Int64.ofNat elements.length))
  | .str, v => .ok (.str v.display)
  | .type, v => .ok (.str v.typeName)
  | .first, .array elements => .ok (elements.head?.getD .null)
  | .last, .array elements => .ok (elements.getLast?.getD .null)
  | .rest, .array [] => .ok .null
  | .rest, .array (_ :: elements) => .ok (.array elements)
  | .push, .array elements => .ok (.array (elements ++ more))
  | b, v => .error (.unsupported b v.type)

/-- The value of a builtin for some arguments. Their number is checked before their types are. -/
def apply (b : Builtin) (args : List Value) : Except BuiltinError Value :=
  if args.length = b.arity then
    match args with
    | v :: more => b.eval v more
    | [] => .error (.arity b b.arity 0)
  else .error (.arity b b.arity args.length)

end Builtin

end Notebook
