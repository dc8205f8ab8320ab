/-!
Blank characters, the ones that separate tokens and lines without meaning anything themselves.

A character is blank when it has the `White_Space` property; the core library's own test knows
only four of the twenty-five.
-/

namespace Notebook.Text

/-- Has this character the `White_Space` property? -/
def isBlank (c : Char) : Bool :=
  let n := c.toNat
  (9 ≤ n && n ≤ 13) || n == 0x20 || n == 0x85 || n == 0xa0 || n == 0x1680 ||
    (0x2000 ≤ n && n ≤ 0x200a) || n == 0x2028 || n == 0x2029 || n == 0x202f ||
    n == 0x205f || n == 0x3000

def trimStart (cs : List Char) : List Char := cs.dropWhile isBlank

/-- A text without the blank characters at either end. -/
def trim (cs : List Char) : List Char := (trimStart (trimStart cs).reverse).reverse

def allBlank (cs : List Char) : Bool := cs.all isBlank

end Notebook.Text
