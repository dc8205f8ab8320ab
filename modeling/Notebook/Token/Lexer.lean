import Notebook.Text.Blank
import Notebook.Token

/-!
Reading tokens from text.

`Token.next?` skips blank characters and `//` comments and reads one token; `Token.ofSource` reads
all of them. Reading always moves on (`length_lt_of_next?`), which is why it ends, and
`ofSource_eq` unfolds it one token at a time.

Runs are maximal: an identifier or a number ends only where the next character could not continue
it. A string that is not closed, or that holds an unknown escape, is an illegal token; so is any
character that starts no token.
-/

namespace Notebook.Token

/-! ### What separates tokens -/

/-- The text after leading blank characters and comments; with `inComment` the text starts inside a comment. A
comment ends at a feed, or with the text. -/
def skipTrivia : Bool → List Char → List Char
  | _, [] => []
  | true, c :: rest => skipTrivia (c != '\n') rest
  | false, '/' :: '/' :: rest => skipTrivia true rest
  | false, c :: rest => if Text.isBlank c then skipTrivia false rest else c :: rest

theorem length_skipTrivia_le (inComment : Bool) (cs : List Char) :
    (skipTrivia inComment cs).length ≤ cs.length := by
  fun_induction skipTrivia inComment cs with
  | case1 => exact Nat.le_refl _
  | case2 _ _ ih => exact Nat.le_succ_of_le ih
  | case3 _ ih => exact Nat.le_succ_of_le (Nat.le_succ_of_le ih)
  | case4 _ _ _ _ ih => exact Nat.le_succ_of_le ih
  | case5 => exact Nat.le_refl _

/-! ### One token -/

/-- Punctuation that is one character long. -/
def symbolOf? : Char → Option Symbol
  | '=' => some .assign
  | '!' => some .bang
  | '+' => some .plus
  | '-' => some .minus
  | '*' => some .asterisk
  | '/' => some .slash
  | '<' => some .less
  | '>' => some .greater
  | ';' => some .semicolon
  | ',' => some .comma
  | '(' => some .leftParen
  | ')' => some .rightParen
  | '\x7b' => some .leftBrace
  | '\x7d' => some .rightBrace
  | '[' => some .leftBracket
  | ']' => some .rightBracket
  | _ => none

/-- The characters that begin a word, all of them ASCII. -/
def startsWord (c : Char) : Bool := c.isAlpha || c == '_'

/-- The characters that continue a word, all of them ASCII. -/
def continuesWord (c : Char) : Bool := c.isAlphanum || c == '_'

def unescape? : Char → Option Char
  | 'n' => some '\n'
  | 't' => some '\t'
  | '"' => some '"'
  | '\\' => some '\\'
  | _ => none

/-- The rest of a string literal after its opening quote, `read` being what was read of it so far, last
character first. An unknown escape ends the token before the character it names, which is then read as a token
of its own. -/
def scanString (read : List Char) : List Char → Token × List Char
  | [] => (.illegal (String.ofList ('"' :: read.reverse)), [])
  | '"' :: rest => (.str (String.ofList read.reverse), rest)
  | ['\\'] => (.illegal (String.ofList ('"' :: (read.reverse ++ ['\\']))), [])
  | '\\' :: c :: rest =>
    match unescape? c with
    | some meant => scanString (meant :: read) rest
    | none => (.illegal (String.ofList ['\\', c]), c :: rest)
  | c :: rest => scanString (c :: read) rest

/-- The token that starts with `c`, and the text after it. The two-character operators come before the
one-character ones that they begin with. -/
def scan (c : Char) (rest : List Char) : Token × List Char :=
  match c, rest with
  | '=', '=' :: rest => (.symbol .equal, rest)
  | '!', '=' :: rest => (.symbol .notEqual, rest)
  | '"', rest => scanString [] rest
  | c, rest =>
    match symbolOf? c with
    | some s => (.symbol s, rest)
    | none =>
      if c.isDigit then
        (.int (String.ofList (c :: rest.takeWhile Char.isDigit)), rest.dropWhile Char.isDigit)
      else if startsWord c then
        (ofWord (String.ofList (c :: rest.takeWhile continuesWord)), rest.dropWhile continuesWord)
      else (.illegal (String.ofList [c]), rest)

/-- The first token of a text and what follows it, or nothing if only trivia is left. -/
def next? (cs : List Char) : Option (Token × List Char) :=
  match skipTrivia false cs with
  | [] => none
  | c :: rest => some (scan c rest)

theorem length_scanString_le (read cs : List Char) : (scanString read cs).2.length ≤ cs.length := by
  fun_induction scanString read cs <;> simp_all <;> omega

theorem length_dropWhile_le (p : Char → Bool) (cs : List Char) :
    (cs.dropWhile p).length ≤ cs.length :=
  (List.dropWhile_sublist p).length_le

theorem length_scan_le (c : Char) (cs : List Char) : (scan c cs).2.length ≤ cs.length := by
  unfold scan
  split
  · simp
  · simp
  · exact length_scanString_le _ _
  · split
    · exact Nat.le_refl _
    · split
      · exact length_dropWhile_le _ _
      · split
        · exact length_dropWhile_le _ _
        · exact Nat.le_refl _

/-- Reading a token moves on, which is why `readAll` ends. -/
theorem length_lt_of_next? {cs rest : List Char} {t : Token} (h : next? cs = some (t, rest)) :
    rest.length < cs.length := by
  unfold next? at h
  split at h
  · cases h
  · next c tail hc =>
    have skipped := length_skipTrivia_le false cs
    have scanned := length_scan_le c tail
    simp only [Option.some.injEq] at h
    rw [h] at scanned
    simp only [hc, List.length_cons] at skipped
    exact Nat.lt_of_le_of_lt scanned skipped

/-! ### All tokens -/

/-- The tokens of a text, last one first, in front of those read before. The accumulator keeps reading a long
text off the stack. -/
def readAll (read : List Token) (cs : List Char) : List Token :=
  match _h : next? cs with
  | none => read
  | some (t, rest) => readAll (t :: read) rest
termination_by cs.length
decreasing_by exact length_lt_of_next? _h

def ofChars (cs : List Char) : List Token := (readAll [] cs).reverse

def ofSource (source : String) : List Token := ofChars source.toList

theorem readAll_eq (read : List Token) (cs : List Char) :
    readAll read cs = (ofChars cs).reverse ++ read := by
  unfold ofChars
  rw [List.reverse_reverse]
  induction hn : cs.length using Nat.strongRecOn generalizing cs read with
  | ind n ih =>
    rw [readAll, readAll]
    split
    · rfl
    · next t rest h =>
      have shorter := hn ▸ length_lt_of_next? h
      rw [ih _ shorter (t :: read) rest rfl, ih _ shorter [t] rest rfl]
      simp

theorem ofChars_eq (cs : List Char) :
    ofChars cs = match next? cs with
      | none => []
      | some (t, rest) => t :: ofChars rest := by
  rw [ofChars, readAll]
  split <;> simp_all [readAll_eq]

end Notebook.Token
