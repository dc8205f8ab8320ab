/-!
Lines of a text.

A line ends with a feed, and a carriage return right before the feed belongs to the end of the
line. The last line may lack its end, and is then taken as it stands; nothing after the last feed
is no line. Texts may be of characters or of bytes, so the two characters are parameters.

`lines_append_feed` reads the first line of a text that has a whole one, `lines_of_not_mem` the line of
a text that has none.
-/

namespace Notebook.Text

variable {α : Type} [DecidableEq α]

/-- The line that was read up to its feed, `read` being what was read, last character first. -/
def endLine (carriage : α) : List α → List α
  | [] => []
  | c :: read => if c = carriage then read.reverse else read.reverse ++ [c]

/-- The lines of a text, after the lines `done` and the start `read` of a line, both last one
first. -/
def linesOnto (feed carriage : α) (done : List (List α)) (read : List α) :
    List α → List (List α)
  | [] => if read.isEmpty then done.reverse else (read.reverse :: done).reverse
  | c :: rest =>
    if c = feed then linesOnto feed carriage (endLine carriage read :: done) [] rest
    else linesOnto feed carriage done (c :: read) rest

/-- The lines of a text, without their ends. -/
def lines (feed carriage : α) (text : List α) : List (List α) :=
  linesOnto feed carriage [] [] text

theorem linesOnto_eq (feed carriage : α) (done : List (List α)) (read text : List α) :
    linesOnto feed carriage done read text =
      done.reverse ++ linesOnto feed carriage [] read text := by
  induction text generalizing done read with
  | nil =>
    simp only [linesOnto]
    split <;> simp
  | cons c rest ih =>
    simp only [linesOnto]
    split
    · rw [ih, ih [endLine carriage read]]
      simp
    · exact ih _ _

/-- Up to a feed the characters of a line are only read. -/
theorem linesOnto_append {feed : α} (carriage : α) (read rest : List α) {line : List α}
    (h : feed ∉ line) : linesOnto feed carriage [] read (line ++ rest) =
      linesOnto feed carriage [] (line.reverse ++ read) rest := by
  induction line generalizing read with
  | nil => rfl
  | cons c line ih =>
    have hc : c ≠ feed := fun e => h (by simp [e])
    have hline : feed ∉ line := fun m => h (List.mem_cons_of_mem c m)
    simp only [List.cons_append, linesOnto, hc, if_false]
    rw [ih _ hline]
    simp

@[simp] theorem lines_nil (feed carriage : α) : lines feed carriage ([] : List α) = [] := rfl

/-- The first line of a text ends at its first feed. -/
theorem lines_append_feed {feed : α} (carriage : α) (rest : List α) {line : List α}
    (h : feed ∉ line) :
    lines feed carriage (line ++ feed :: rest) =
      endLine carriage line.reverse :: lines feed carriage rest := by
  unfold lines
  rw [linesOnto_append carriage [] _ h, List.append_nil, linesOnto, if_pos rfl, linesOnto_eq]
  rfl

/-- A text without a feed is its only line. -/
theorem lines_of_not_mem {feed : α} (carriage : α) {line : List α} (h : feed ∉ line)
    (hsome : line ≠ []) : lines feed carriage line = [line] := by
  have hread := linesOnto_append carriage [] [] h
  rw [List.append_nil, List.append_nil] at hread
  rw [lines, hread]
  simp [linesOnto, hsome]

/-- A line that ends with a feed alone. -/
theorem endLine_reverse {carriage : α} {line : List α} (h : line.getLast? ≠ some carriage) :
    endLine carriage line.reverse = line := by
  rcases List.eq_nil_or_concat line with rfl | ⟨line, c, rfl⟩
  · rfl
  · have hc : c ≠ carriage := by simpa using h
    simp [endLine, hc]

/-- A line that ends with a carriage return and a feed. -/
theorem endLine_reverse_append (carriage : α) (line : List α) :
    endLine carriage (line ++ [carriage]).reverse = line := by
  simp [endLine]

end Notebook.Text
