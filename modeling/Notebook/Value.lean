import Notebook.Bytecode.Code

/-!
Values of the snippet language.

Equality is structural (`Value.beq_iff`), functions included: two functions are equal when their
code, pool offset and counts are. Values are printed by `display`, which shows a string as it is
and a function only by its number of parameters.
-/

namespace Notebook

/-- The code of a function. Constants are addressed relative to `constantsOffset`, the place in the session's
pool of the first constant of the unit that holds the function, so a function can be called from any later
unit. -/
structure FunctionCode where
  code : Code
  constantsOffset : Nat
  locals : Nat
  params : Nat
  deriving DecidableEq, Repr

/-- The functions that every session starts with. -/
inductive Builtin where
  | len | str | type | first | last | rest | push
  deriving DecidableEq, Repr

def Builtin.name : Builtin → String
  | .len => "len"
  | .str => "str"
  | .type => "type"
  | .first => "first"
  | .last => "last"
  | .rest => "rest"
  | .push => "push"

inductive Value where
  | int (value : Int64)
  | str (text : String)
  | bool (value : Bool)
  | null
  | array (elements : List Value)
  | function (f : FunctionCode)
  | builtin (b : Builtin)
  deriving Repr

instance : Inhabited Value := ⟨.null⟩

inductive ValueType where
  | int | string | boolean | null | array | function | builtin
  deriving DecidableEq, Repr

def ValueType.name : ValueType → String
  | .int => "Int"
  | .string => "String"
  | .boolean => "Boolean"
  | .null => "Null"
  | .array => "Array"
  | .function => "Function"
  | .builtin => "Builtin"

namespace Value

def type : Value → ValueType
  | .int _ => .int
  | .str _ => .string
  | .bool _ => .boolean
  | .null => .null
  | .array _ => .array
  | .function _ => .function
  | .builtin _ => .builtin

def typeName (v : Value) : String := v.type.name

/-- Does a condition with this value hold? Only `false` and `null` do not. -/
def isTruthy : Value → Bool
  | .bool false | .null => false
  | _ => true

def isCallable : Value → Bool
  | .function _ | .builtin _ => true
  | _ => false

/-! ### Printing -/

mutual

/-- How a value is shown. A string is shown without quotes, inside arrays too. -/
def display : Value → String
  | .int value => toString value.toInt
  | .str text => text
  | .bool true => "true"
  | .bool false => "false"
  | .null => "null"
  | .array elements => "[" ++ String.intercalate ", " (displayAll elements) ++ "]"
  | .function f => s!"fn/{f.params}"
  | .builtin b => "builtin " ++ b.name

def displayAll : List Value → List String
  | [] => []
  | v :: vs => display v :: displayAll vs

end

/-! ### Equality -/

mutual

/-- Are two values equal? Values nest in lists, so equality is written out; `beq_iff` says that it is
equality. -/
def beq : Value → Value → Bool
  | .int a, .int b => a == b
  | .str a, .str b => a == b
  | .bool a, .bool b => a == b
  | .null, .null => true
  | .array a, .array b => beqAll a b
  | .function a, .function b => a == b
  | .builtin a, .builtin b => a == b
  | _, _ => false

def beqAll : List Value → List Value → Bool
  | [], [] => true
  | a :: as, b :: bs => beq a b && beqAll as bs
  | _, _ => false

end

mutual

theorem beq_iff : ∀ a b : Value, beq a b = true ↔ a = b
  | .int a, b => by cases b <;> simp [beq]
  | .str a, b => by cases b <;> simp [beq]
  | .bool a, b => by cases b <;> simp [beq]
  | .null, b => by cases b <;> simp [beq]
  | .array a, b => by cases b <;> simp [beq, beqAll_iff]
  | .function a, b => by cases b <;> simp [beq]
  | .builtin a, b => by cases b <;> simp [beq]

theorem beqAll_iff : ∀ as bs : List Value, beqAll as bs = true ↔ as = bs
  | [], bs => by cases bs <;> simp [beqAll]
  | a :: as, bs => by cases bs <;> simp [beqAll, beq_iff a, beqAll_iff as]

end

instance : DecidableEq Value := fun a b => decidable_of_iff (beq a b = true) (beq_iff a b)

end Value

/-- A result on its way to being shown: the value of a snippet, if it has one, and the name of the
type that the snippet's text gives it, if it gives one. -/
structure TypedResult where
  value : Option Value := none
  declaredType : Option String := none
  deriving DecidableEq, Repr

/-- The result that holds a value of no declared type. -/
def TypedResult.of (v : Value) : TypedResult := ⟨some v, none⟩

end Notebook
