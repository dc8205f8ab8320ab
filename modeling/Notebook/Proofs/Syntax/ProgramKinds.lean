import Notebook.Proofs.Syntax.ProgramNames

/-!
Kinds of programs.

A property of programs that a walk can make use of has to hold of the parts of a program, too, in the
order in which they are met. It may depend on the names that are known at a place: those known at the
start, the parameters of the functions around, and those of the `let`s passed on the way
(`Expr.declared`).

* `ProgramKind`: such a property of expressions and statements, with what it says of parts.
* `ProgramKind.all`: all programs.
* `ProgramKind.plain`, `ProgramKind.bare`: those without function literals, and those without `let`s as well.
-/

namespace Notebook

/-! ### Kinds -/

/-- A kind of expressions and statements, given the names that are known where they stand. What is of
the kind has parts that are of the kind where they stand: the right operand of `<` comes first, and a
function knows the name that it is bound to. -/
structure ProgramKind where
  expr : List String → Expr → Prop
  exprs : List String → List Expr → Prop
  stmt : List String → Stmt → Prop
  stmts : List String → List Stmt → Prop
  array {known elements} : expr known (.array elements) → exprs known elements
  unary {known op operand} : expr known (.unary op operand) → expr known operand
  less {known left right} : expr known (.binary .less left right) →
    expr known right ∧ expr (known ++ right.declared) left
  binary {known op left right} : op ≠ .less → expr known (.binary op left right) →
    expr known left ∧ expr (known ++ left.declared) right
  cond {known condition consequence alternative} :
    expr known (.cond condition consequence alternative) →
      expr known condition ∧ stmts (known ++ condition.declared) consequence ∧
        ∀ body ∈ alternative,
          stmts (known ++ condition.declared ++ Program.declared consequence) body
  function {known params body} : expr known (.function params body) → stmts (known ++ params) body
  call {known callee args} : expr known (.call callee args) →
    expr known callee ∧ exprs (known ++ callee.declared) args
  index {known collection position} : expr known (.index collection position) →
    expr known collection ∧ expr (known ++ collection.declared) position
  both {known e rest} : exprs known (e :: rest) → expr known e ∧ exprs (known ++ e.declared) rest
  letIn {known name value} : stmt known (.letIn name value) →
    expr (if value.isFunction then known ++ [name] else known) value
  ret {known value} : stmt known (.ret value) → expr known value
  throw {known value} : stmt known (.throw value) → expr known value
  value {known value} : stmt known (.expr value) → expr known value
  andThen {known s rest} : stmts known (s :: rest) → stmt known s ∧ stmts (known ++ s.declared) rest

namespace ProgramKind

def all : ProgramKind where
  expr _ _ := True
  exprs _ _ := True
  stmt _ _ := True
  stmts _ _ := True
  array _ := trivial
  unary _ := trivial
  less _ := ⟨trivial, trivial⟩
  binary _ _ := ⟨trivial, trivial⟩
  cond _ := ⟨trivial, trivial, fun _ _ => trivial⟩
  function _ := trivial
  call _ := ⟨trivial, trivial⟩
  index _ := ⟨trivial, trivial⟩
  both _ := ⟨trivial, trivial⟩
  letIn _ := trivial
  ret _ := trivial
  throw _ := trivial
  value _ := trivial
  andThen _ := ⟨trivial, trivial⟩

end ProgramKind

/-! ### Plain programs -/

mutual

/-- Has an expression no function literals, and only names that are fine? There may or may not be `let`s.
Without function literals all names live in one scope, so that renaming them is simple. -/
def Expr.isPlain (fine : String → Bool) (lets : Bool) : Expr → Bool
  | .ident name => fine name
  | .int _ | .str _ | .bool _ | .null => true
  | .array elements => exprsPlain fine lets elements
  | .unary _ operand => operand.isPlain fine lets
  | .binary _ left right => left.isPlain fine lets && right.isPlain fine lets
  | .cond condition consequence none =>
    condition.isPlain fine lets && Program.isPlain fine lets consequence
  | .cond condition consequence (some alternative) =>
    condition.isPlain fine lets &&
      (Program.isPlain fine lets consequence && Program.isPlain fine lets alternative)
  | .function _ _ => false
  | .call callee args => callee.isPlain fine lets && exprsPlain fine lets args
  | .index collection position => collection.isPlain fine lets && position.isPlain fine lets

def exprsPlain (fine : String → Bool) (lets : Bool) : List Expr → Bool
  | [] => true
  | e :: rest => e.isPlain fine lets && exprsPlain fine lets rest

def Stmt.isPlain (fine : String → Bool) (lets : Bool) : Stmt → Bool
  | .letIn name value => lets && (fine name && value.isPlain fine lets)
  | .ret value | .throw value | .expr value => value.isPlain fine lets
  | .empty => true

def Program.isPlain (fine : String → Bool) (lets : Bool) : List Stmt → Bool
  | [] => true
  | s :: rest => s.isPlain fine lets && Program.isPlain fine lets rest

end

/-- Programs without function literals, in which no names but fine ones are used or declared. Which names are
known makes no difference to this kind. -/
def ProgramKind.plain (fine : String → Bool) (lets : Bool) : ProgramKind where
  expr _ e := e.isPlain fine lets = true
  exprs _ es := exprsPlain fine lets es = true
  stmt _ s := s.isPlain fine lets = true
  stmts _ ss := Program.isPlain fine lets ss = true
  array h := h
  unary h := h
  less h := (Bool.and_eq_true_iff.mp h).symm
  binary _ h := Bool.and_eq_true_iff.mp h
  cond {_ _ _ alternative} h := by
    cases alternative with
    | none =>
      obtain ⟨htest, hyes⟩ := Bool.and_eq_true_iff.mp h
      exact ⟨htest, hyes, fun _ hbody => nomatch hbody⟩
    | some body =>
      obtain ⟨htest, h⟩ := Bool.and_eq_true_iff.mp h
      obtain ⟨hyes, hno⟩ := Bool.and_eq_true_iff.mp h
      exact ⟨htest, hyes, fun _ hbody => Option.mem_some.mp hbody ▸ hno⟩
  function h := nomatch h
  call h := Bool.and_eq_true_iff.mp h
  index h := Bool.and_eq_true_iff.mp h
  both h := Bool.and_eq_true_iff.mp h
  letIn h := (Bool.and_eq_true_iff.mp (Bool.and_eq_true_iff.mp h).2).2
  ret h := h
  throw h := h
  value h := h
  andThen h := Bool.and_eq_true_iff.mp h

/-- Are some statements without `let`s and function literals? -/
def Program.isBare : List Stmt → Bool := Program.isPlain (fun _ => true) false

/-- Programs without `let`s and function literals, where no names become known. -/
def ProgramKind.bare : ProgramKind := .plain (fun _ => true) false

end Notebook
