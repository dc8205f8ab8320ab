import Notebook.Program
import Notebook.Token.Lexer

/-!
Reading programs from tokens, by operator precedence.

The pieces of the grammar are functions over the parser for nested expressions, and `expr` ties the
knot: `expr n` reads expressions whose nesting is less than `n`. A nested expression starts at
least one token after the one around it, and each turn of a loop uses up a token, so the number of
tokens bounds both; where such a bound runs out no token is left, and the answer there is the one
for the end of input.

A parser returns what it read and the tokens after it.
-/

namespace Notebook

inductive ParseError where
  | unexpectedEnd
  | expectedIdentifier (found : Token)
  | expectedNext (expected : Symbol) (found : Option Token)
  | expectedParameter (found : Token)
  | unclosedBlock
  | illegal (text : String)
  | noOperand (found : Token)
  | integerTooLarge
  deriving DecidableEq, Repr

def ParseError.message : ParseError → String
  | .unexpectedEnd => "unexpected end of input"
  | .expectedIdentifier found => "expected identifier, found " ++ found.display
  | .expectedNext expected (some found) =>
    "expected next token to be " ++ expected.spelling ++ ", found " ++ found.display
  | .expectedNext expected none =>
    "expected next token to be " ++ expected.spelling ++ ", found end of input"
  | .expectedParameter found => "expected parameter name, found " ++ found.display
  | .unclosedBlock => "expected \x7d, found end of input"
  | .illegal text => "illegal token " ++ text
  | .noOperand found => "no prefix parse function for " ++ found.display
  | .integerTooLarge =>
    "could not parse integer literal as i64: number too large to fit in target type"

/-- How tightly an operator binds, from loosest to tightest. -/
inductive Precedence where
  | lowest | equality | ordering | sum | product | unary | call | index
  deriving DecidableEq, Repr

def Precedence.rank : Precedence → Nat
  | .lowest => 0
  | .equality => 1
  | .ordering => 2
  | .sum => 3
  | .product => 4
  | .unary => 5
  | .call => 6
  | .index => 7

def BinaryOp.precedence : BinaryOp → Precedence
  | .equal | .notEqual => .equality
  | .less | .greater => .ordering
  | .add | .sub => .sum
  | .mul | .div => .product

inductive Suffix where
  | binary (op : BinaryOp)
  | call
  | index
  deriving DecidableEq, Repr

def Suffix.precedence : Suffix → Precedence
  | .binary op => op.precedence
  | .call => .call
  | .index => .index

/-- The continuation that a token announces after an expression. Any other token ends the expression and is left
for whoever reads on. -/
def Token.suffix? : Token → Option Suffix
  | .symbol .plus => some (.binary .add)
  | .symbol .minus => some (.binary .sub)
  | .symbol .asterisk => some (.binary .mul)
  | .symbol .slash => some (.binary .div)
  | .symbol .equal => some (.binary .equal)
  | .symbol .notEqual => some (.binary .notEqual)
  | .symbol .less => some (.binary .less)
  | .symbol .greater => some (.binary .greater)
  | .symbol .leftParen => some .call
  | .symbol .leftBracket => some .index
  | _ => none

@[simp] theorem BinaryOp.suffix?_symbol (op : BinaryOp) :
    (Token.symbol op.symbol).suffix? = some (.binary op) := by
  cases op <;> rfl

namespace Parser

abbrev Parsed (α : Type) := α × List Token

/-- A parser for the expressions nested in the one being read. -/
abbrev Nested := Precedence → List Token → Except ParseError (Parsed Expr)

/-! ### Tokens that must or may come next -/

/-- The tokens after one that has to be `expected`. -/
def expectNext (expected : Symbol) : List Token → Except ParseError (List Token)
  | [] => .error (.expectedNext expected none)
  | t :: rest =>
    if t = .symbol expected then .ok rest else .error (.expectedNext expected (some t))

/-- The tokens after an optional `;`. A second one is an empty statement. -/
def skipSemicolon : List Token → List Token
  | .symbol .semicolon :: rest => rest
  | ts => ts

/-! ### Literals and lists -/

/-- The number that decimal digits denote. -/
def decimal (digits : List Char) : Nat :=
  digits.foldl (fun n c => n * 10 + (c.toNat - '0'.toNat)) 0

/-- The value of an integer literal, which has to be a positive 64-bit integer or zero. -/
def integer (digits : String) : Except ParseError Int64 :=
  let n := decimal digits.toList
  if n ≤ Int64.maxValue.toNatClampNeg then .ok (Int64.ofNat n) else .error .integerTooLarge

/-- The rest of a list of expressions after its first one, up to `close`. A comma has to be followed by an
expression. -/
def moreItems (nested : Nested) (close : Symbol) :
    Nat → List Expr → List Token → Except ParseError (Parsed (List Expr))
  | bound + 1, read, .symbol .comma :: rest => do
    let (e, rest) ← nested .lowest rest
    moreItems nested close bound (e :: read) rest
  | _, read, ts => do
    let rest ← expectNext close ts
    .ok (read.reverse, rest)

/-- Expressions separated by commas, up to `close`. -/
def items (nested : Nested) (close : Symbol) (bound : Nat) (ts : List Token) :
    Except ParseError (Parsed (List Expr)) :=
  if ts.head? = some (.symbol close) then .ok ([], ts.tail)
  else do
    let (e, rest) ← nested .lowest ts
    moreItems nested close bound [e] rest

/-- Parameter names separated by commas, up to the closing parenthesis. -/
def params (read : List String) : List Token → Except ParseError (Parsed (List String))
  | [] => .error .unexpectedEnd
  | .symbol .rightParen :: rest => .ok (read.reverse, rest)
  | .ident name :: .symbol .comma :: rest => params (name :: read) rest
  | .ident name :: .symbol .rightParen :: rest => .ok ((name :: read).reverse, rest)
  | .ident _ :: rest => .error (.expectedNext .comma rest.head?)
  | t :: _ => .error (.expectedParameter t)

/-! ### Statements -/

/-- A binding after its `let`. -/
def binding (nested : Nested) : List Token → Except ParseError (Parsed Stmt)
  | [] => .error .unexpectedEnd
  | .ident name :: rest => do
    let rest ← expectNext .assign rest
    let (value, rest) ← nested .lowest rest
    .ok (.letIn name value, skipSemicolon rest)
  | t :: _ => .error (.expectedIdentifier t)

/-- One statement. -/
def statement (nested : Nested) : List Token → Except ParseError (Parsed Stmt)
  | .keyword .letBinding :: rest => binding nested rest
  | .keyword .returnValue :: rest => do
    let (value, rest) ← nested .lowest rest
    .ok (.ret value, skipSemicolon rest)
  | .keyword .throwValue :: rest => do
    let (value, rest) ← nested .lowest rest
    .ok (.throw value, skipSemicolon rest)
  | .symbol .semicolon :: rest => .ok (.empty, rest)
  | ts => do
    let (value, rest) ← nested .lowest ts
    .ok (.expr value, skipSemicolon rest)

def block (nested : Nested) :
    Nat → List Stmt → List Token → Except ParseError (Parsed (List Stmt))
  | _, _, [] => .error .unclosedBlock
  | _, read, .symbol .rightBrace :: rest => .ok (read.reverse, rest)
  | 0, _, _ => .error .unclosedBlock
  | bound + 1, read, ts => do
    let (s, rest) ← statement nested ts
    block nested bound (s :: read) rest

def statements (nested : Nested) : Nat → List Stmt → List Token → Except ParseError Program
  | _, read, [] => .ok read.reverse
  | 0, read, _ => .ok read.reverse
  | bound + 1, read, ts => do
    let (s, rest) ← statement nested ts
    statements nested bound (s :: read) rest

/-! ### Expressions -/

/-- A conditional after its `if`. -/
def conditional (nested : Nested) (bound : Nat) (ts : List Token) :
    Except ParseError (Parsed Expr) := do
  let rest ← expectNext .leftParen ts
  let (condition, rest) ← nested .lowest rest
  let rest ← expectNext .rightParen rest
  let rest ← expectNext .leftBrace rest
  let (consequence, rest) ← block nested bound [] rest
  match rest with
  | .keyword .elseBranch :: rest => do
    let rest ← expectNext .leftBrace rest
    let (alternative, rest) ← block nested bound [] rest
    .ok (.cond condition consequence (some alternative), rest)
  | rest => .ok (.cond condition consequence none, rest)

def function (nested : Nested) (bound : Nat) (ts : List Token) :
    Except ParseError (Parsed Expr) := do
  let rest ← expectNext .leftParen ts
  let (names, rest) ← params [] rest
  let rest ← expectNext .leftBrace rest
  let (body, rest) ← block nested bound [] rest
  .ok (.function names body, rest)

/-- An expression that no suffix has extended yet: a literal, a name, an operator in front, something in
brackets, a conditional or a function literal. What a token cannot start is an error that names the token. -/
def operand (nested : Nested) (bound : Nat) : List Token → Except ParseError (Parsed Expr)
  | [] => .error .unexpectedEnd
  | .ident name :: rest => .ok (.ident name, rest)
  | .int digits :: rest => do
    let value ← integer digits
    .ok (.int value, rest)
  | .str text :: rest => .ok (.str text, rest)
  | .keyword .trueLiteral :: rest => .ok (.bool true, rest)
  | .keyword .falseLiteral :: rest => .ok (.bool false, rest)
  | .keyword .nullLiteral :: rest => .ok (.null, rest)
  | .symbol .bang :: rest => do
    let (e, rest) ← nested .unary rest
    .ok (.unary .not e, rest)
  | .symbol .minus :: rest => do
    let (e, rest) ← nested .unary rest
    .ok (.unary .negate e, rest)
  | .symbol .leftParen :: rest => do
    let (e, rest) ← nested .lowest rest
    let rest ← expectNext .rightParen rest
    .ok (e, rest)
  | .symbol .leftBracket :: rest => do
    let (es, rest) ← items nested .rightBracket bound rest
    .ok (.array es, rest)
  | .keyword .ifBranch :: rest => conditional nested bound rest
  | .keyword .function :: rest => function nested bound rest
  | .illegal text :: _ => .error (.illegal text)
  | t :: _ => .error (.noOperand t)

/-- What `suffix` makes of `left`, given the tokens after the one that announced it. The right operand of an
operator takes what binds tighter than the operator, so operators of one rank associate to the left. -/
def extend (nested : Nested) (bound : Nat) (left : Expr) (suffix : Suffix) (ts : List Token) :
    Except ParseError (Parsed Expr) :=
  match suffix with
  | .binary op => do
    let (right, rest) ← nested op.precedence ts
    .ok (.binary op left right, rest)
  | .call => do
    let (args, rest) ← items nested .rightParen bound ts
    .ok (.call left args, rest)
  | .index => do
    let (position, rest) ← nested .lowest ts
    let rest ← expectNext .rightBracket rest
    .ok (.index left position, rest)

/-- `left` with every suffix that binds tighter than `p`. -/
def suffixes (nested : Nested) (p : Precedence) (bound : Nat) :
    Nat → Expr → List Token → Except ParseError (Parsed Expr)
  | _, left, [] => .ok (left, [])
  | 0, left, ts => .ok (left, ts)
  | turns + 1, left, t :: rest =>
    match t.suffix? with
    | none => .ok (left, t :: rest)
    | some suffix =>
      if p.rank < suffix.precedence.rank then do
        let (e, rest) ← extend nested bound left suffix rest
        suffixes nested p bound turns e rest
      else .ok (left, t :: rest)

/-- An expression with every suffix that binds tighter than `p`. -/
def level (nested : Nested) (bound : Nat) (p : Precedence) (ts : List Token) :
    Except ParseError (Parsed Expr) := do
  let (left, rest) ← operand nested bound ts
  suffixes nested p bound bound left rest

/-- Expressions that nest less deep than the first argument. The parser for what is nested in them is the one
for one level less. -/
def expr : Nat → Precedence → List Token → Except ParseError (Parsed Expr)
  | 0, _, _ => .error .unexpectedEnd
  | depth + 1, p, ts => level (fun q rest => expr depth q rest) depth p ts

@[simp] theorem expr_succ (depth : Nat) : expr (depth + 1) = level (expr depth) depth := rfl

end Parser

/-- The program that a list of tokens spells. -/
def Program.ofTokens (ts : List Token) : Except ParseError Program :=
  Parser.statements (Parser.expr (ts.length + 1)) ts.length [] ts

/-- The program that a source text spells. -/
def Program.ofSource (source : String) : Except ParseError Program :=
  Program.ofTokens (Token.ofSource source)

end Notebook
