import Notebook.Program
import Notebook.Value

/-!
Terms and commands: expressions and statements in which every name has been replaced by what it
refers to.

A name is a slot of the session, a slot of the innermost function, or a builtin, and a function
literal is a constant like any other: functions capture nothing, so the literal's value does not
depend on where it is evaluated. The body of a function is kept apart from it, as a `Routine`.
-/

namespace Notebook

mutual

/-- Expressions with their names resolved. `constant index v` is a literal that stands at `index`
among the constants of its snippet. -/
inductive Term where
  | constant (index : Nat) (v : Value)
  | bool (value : Bool)
  | null
  | global (index : Nat)
  | own (index : Nat)
  | builtin (index : Nat)
  | array (elements : List Term)
  | unary (op : UnaryOp) (operand : Term)
  | binary (op : BinaryOp) (left right : Term)
  | cond (condition : Term) (consequence : List Command) (alternative : Option (List Command))
  | call (callee : Term) (args : List Term)
  | index (collection position : Term)

/-- Statements with their names resolved. An assignment names its slot, and a `let` is nothing more than
that. -/
inductive Command where
  | setGlobal (index : Nat) (value : Term)
  | setOwn (index : Nat) (value : Term)
  | ret (value : Term)
  | throw (value : Term)
  | expr (value : Term)
  | empty

end

def Command.isEmpty : Command → Bool
  | .empty => true
  | _ => false

/-- A function of a session: its code, and the body that the code was compiled from. -/
structure Routine where
  code : FunctionCode
  body : List Command

/-! ### What terms use -/

/-- One dealing of a term with what surrounds it: what it takes as being there when it is evaluated. Whether it
is can be asked without evaluating. -/
inductive Use where
  | constant (index : Nat) (v : Value)
  | global (index : Nat)
  | own (index : Nat)
  | builtin (index : Nat)
  | setGlobal (index : Nat)
  | setOwn (index : Nat)

mutual

/-- Everything that a term uses, whichever way its conditionals go. Bodies of functions are not looked into. -/
def Term.uses : Term → List Use
  | .constant index v => [.constant index v]
  | .bool _ | .null => []
  | .global index => [.global index]
  | .own index => [.own index]
  | .builtin index => [.builtin index]
  | .array elements => usesOfTerms elements
  | .unary _ operand => operand.uses
  | .binary _ left right => left.uses ++ right.uses
  | .cond condition consequence none => condition.uses ++ usesOfCommands consequence
  | .cond condition consequence (some alternative) =>
    condition.uses ++ (usesOfCommands consequence ++ usesOfCommands alternative)
  | .call callee args => callee.uses ++ usesOfTerms args
  | .index collection position => collection.uses ++ position.uses

def usesOfTerms : List Term → List Use
  | [] => []
  | t :: rest => t.uses ++ usesOfTerms rest

/-- Everything that a command uses. -/
def Command.uses : Command → List Use
  | .setGlobal index value => .setGlobal index :: value.uses
  | .setOwn index value => .setOwn index :: value.uses
  | .ret value | .throw value | .expr value => value.uses
  | .empty => []

def usesOfCommands : List Command → List Use
  | [] => []
  | c :: rest => c.uses ++ usesOfCommands rest

end

end Notebook
