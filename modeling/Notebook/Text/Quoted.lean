import Notebook.Text.Escaped

/-!
Quoted text: a string between double quotes on one line, so that a reader can tell where it starts
and ends and which characters it holds.
-/

namespace Notebook.Text

def hexDigits (n : Nat) : List Char := Nat.toDigits 16 n

/-- How one character is shown inside quotes. Six characters have a short escape; any other that leaves no mark
is shown by its code point. -/
def quoteChar (c : Char) : List Char :=
  match c with
  | '\x00' => ['\\', '0']
  | '\t' => ['\\', 't']
  | '\r' => ['\\', 'r']
  | '\n' => ['\\', 'n']
  | '"' => ['\\', '"']
  | '\\' => ['\\', '\\']
  | c => if isEscaped c then "\\u\x7b".toList ++ hexDigits c.toNat ++ ['\x7d'] else [c]

/-- A string between double quotes, with the characters that would not show as themselves
escaped. -/
def quote (s : String) : String :=
  String.ofList ('"' :: (s.toList.flatMap quoteChar ++ ['"']))

end Notebook.Text
