/-!
Tokens, the words of the snippet language.

Punctuation and keywords are closed sets with one spelling each (`Symbol.spelling`,
`Keyword.spelling`); the other tokens carry text. `Keyword.ofSpelling?` inverts the spelling of
keywords, so a word is a keyword exactly when it is spelled like one.
-/

namespace Notebook

inductive Symbol where
  | assign | plus | minus | bang | asterisk | slash
  | less | greater | equal | notEqual
  | comma | semicolon
  | leftParen | rightParen | leftBrace | rightBrace | leftBracket | rightBracket
  deriving DecidableEq, Repr

def Symbol.spelling : Symbol → String
  | .assign => "="
  | .plus => "+"
  | .minus => "-"
  | .bang => "!"
  | .asterisk => "*"
  | .slash => "/"
  | .less => "<"
  | .greater => ">"
  | .equal => "=="
  | .notEqual => "!="
  | .comma => ","
  | .semicolon => ";"
  | .leftParen => "("
  | .rightParen => ")"
  | .leftBrace => "\x7b"
  | .rightBrace => "\x7d"
  | .leftBracket => "["
  | .rightBracket => "]"

inductive Keyword where
  | function | letBinding | trueLiteral | falseLiteral | nullLiteral
  | ifBranch | elseBranch | returnValue | throwValue
  deriving DecidableEq, Repr

def Keyword.spelling : Keyword → String
  | .function => "fn"
  | .letBinding => "let"
  | .trueLiteral => "true"
  | .falseLiteral => "false"
  | .nullLiteral => "null"
  | .ifBranch => "if"
  | .elseBranch => "else"
  | .returnValue => "return"
  | .throwValue => "throw"

def Keyword.ofSpelling? : String → Option Keyword
  | "fn" => some .function
  | "let" => some .letBinding
  | "true" => some .trueLiteral
  | "false" => some .falseLiteral
  | "null" => some .nullLiteral
  | "if" => some .ifBranch
  | "else" => some .elseBranch
  | "return" => some .returnValue
  | "throw" => some .throwValue
  | _ => none

@[simp] theorem Keyword.ofSpelling?_spelling (k : Keyword) :
    Keyword.ofSpelling? k.spelling = some k := by
  cases k <;> rfl

theorem Keyword.spelling_of_ofSpelling? {word : String} {k : Keyword}
    (h : Keyword.ofSpelling? word = some k) : k.spelling = word := by
  unfold Keyword.ofSpelling? at h
  split at h <;> cases h <;> rfl

/-- One word of a snippet. Numbers keep their digits, which need not fit an integer; a string carries its text
with the escapes resolved. An `illegal` token carries the text that begins no other token. -/
inductive Token where
  | ident (name : String)
  | int (digits : String)
  | str (text : String)
  | illegal (text : String)
  | symbol (s : Symbol)
  | keyword (k : Keyword)
  deriving DecidableEq, Repr

namespace Token

/-- How a token is shown in messages. A string is shown between quotes, without escapes. -/
def display : Token → String
  | .ident name => name
  | .int digits => digits
  | .str text => "\"" ++ text ++ "\""
  | .illegal text => text
  | .symbol s => s.spelling
  | .keyword k => k.spelling

/-- Are two tokens alike up to the text that they carry? -/
def sameKind : Token → Token → Bool
  | .ident _, .ident _ => true
  | .int _, .int _ => true
  | .str _, .str _ => true
  | .illegal _, .illegal _ => true
  | .symbol s, .symbol t => s == t
  | .keyword k, .keyword l => k == l
  | _, _ => false

/-- The token that a word spells: a keyword, or else an identifier. There is no way to write an identifier that
is spelled like a keyword. -/
def ofWord (word : String) : Token :=
  match Keyword.ofSpelling? word with
  | some k => .keyword k
  | none => .ident word

end Token

end Notebook
