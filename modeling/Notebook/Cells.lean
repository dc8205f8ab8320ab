import Notebook.Text.Blank
import Notebook.Text.Lines

/-!
Cells: the snippets of a file, divided by lines that hold only `%%`.

Blank characters around the `%%` do not matter, and neither do blank cells. Every line of a cell
ends with a line feed, whatever its end was in the file.
-/

namespace Notebook.Cells

def isSeparator (line : List Char) : Bool := Text.trim line == ['%', '%']

def join (lines : List (List Char)) : List Char := lines.flatMap (· ++ ['\n'])

/-- The cells of some lines, after the cells `done` and the first lines `read` of a cell, both last
one first. -/
def splitOnto (done : List (List Char)) (read : List (List Char)) :
    List (List Char) → List (List Char)
  | [] => (join read.reverse :: done).reverse
  | line :: rest =>
    if isSeparator line then splitOnto (join read.reverse :: done) [] rest
    else splitOnto done (line :: read) rest

theorem splitOnto_eq (done read lines : List (List Char)) :
    splitOnto done read lines = done.reverse ++ splitOnto [] read lines := by
  induction lines generalizing done read with
  | nil => simp [splitOnto]
  | cons line rest ih =>
    simp only [splitOnto]
    split
    · rw [ih, ih [join read.reverse]]
      simp
    · exact ih _ _

def split (text : List Char) : List (List Char) :=
  splitOnto [] [] (Text.lines '\n' '\r' text)

/-- The cells of a source text that are not blank. A text without a dividing line is one cell. -/
def ofSource (source : String) : List String :=
  ((split source.toList).filter (!Text.allBlank ·)).map String.ofList

end Notebook.Cells
