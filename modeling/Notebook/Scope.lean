import Notebook.Builtin
import Notebook.NameTable

/-!
Scopes: what the names of a program refer to.

The outermost level holds the builtins and the session's globals. Each function literal adds a
level for its parameters and locals. Defining a name always takes a fresh slot, so code compiled
before keeps referring to the slot it was compiled for. A name is looked up from the innermost
level outwards.
-/

namespace Notebook

inductive Meaning where
  | slot (index : Nat)
  | builtin (index : Nat)
  deriving DecidableEq, Repr

/-- The names of one level, and how many slots it has handed out. Slots are never handed out again, also when a
name is defined anew. -/
structure Level where
  names : NameTable Meaning := {}
  slots : Nat := 0
  deriving DecidableEq, Repr

def Level.define (l : Level) (name : String) : Level :=
  ⟨l.names.insert name (.slot l.slots), l.slots + 1⟩

def Level.defineBuiltin (l : Level) (name : String) (index : Nat) : Level :=
  { l with names := l.names.insert name (.builtin index) }

/-- The session's level, and the levels of the function literals around a place. -/
inductive Scope where
  | session (level : Level)
  | function (level : Level) (enclosing : Scope)
  deriving DecidableEq, Repr

/-- What a name refers to from some place: a global, a slot of the innermost function, a builtin, or a slot of a
function further out. The last kind is known to the resolver only to be refused. -/
inductive Reference where
  | global (index : Nat)
  | own (index : Nat)
  | builtin (index : Nat)
  | captured (index : Nat)
  deriving DecidableEq, Repr

/-- A reference as it looks from inside a function literal. -/
def Reference.fromInside : Reference → Reference
  | .own index => .captured index
  | r => r

namespace Scope

def initial : Scope :=
  .session (Builtin.all.foldl (fun l b => l.defineBuiltin b.name b.index) {})

def slots : Scope → Nat
  | .session level => level.slots
  | .function level _ => level.slots

/-- The scope in which `name` stands for a fresh slot of the innermost level, the one that `slots`
counts next. -/
def define (name : String) : Scope → Scope
  | .session level => .session (level.define name)
  | .function level enclosing => .function (level.define name) enclosing

/-- The scope inside a function literal. Its parameters take the first slots, in order, as the machine expects
of arguments. -/
def enter (params : List String) (s : Scope) : Scope :=
  .function (params.foldl Level.define {}) s

/-- What a name refers to: what the innermost level that has the name says, seen from inside of the levels
passed on the way. -/
def resolve (name : String) : Scope → Option Reference
  | .session level =>
    match level.names.get? name with
    | some (.slot index) => some (.global index)
    | some (.builtin index) => some (.builtin index)
    | none => none
  | .function level enclosing =>
    match level.names.get? name with
    | some (.slot index) => some (.own index)
    | some (.builtin index) => some (.builtin index)
    | none => (resolve name enclosing).map Reference.fromInside

end Scope

end Notebook
