import Notebook.Session

/-!
What a session prints about the snippets that it evaluates.

A result is printed on a line of its own, and there is none for nothing. An error is announced
first; diagnostics then take a line each.
-/

namespace Notebook

def troubleLine : String := "Woops! We ran into some trouble here!"

/-- What is printed about an error. Diagnostics speak for themselves, and errors of renderers are told from
those of the snippet. -/
def SessionError.reportLines : SessionError → List String
  | .compilation _ _ diagnostics => diagnostics.map Diagnostic.display
  | .rendererFailure cause => ["render error: " ++ (SessionError.rendererFailure cause).message]
  | error => ["eval error: " ++ error.message]

/-- What is printed about the outcome of a snippet. -/
def reportLines : Except SessionError ShownResult → List String
  | .ok ⟨_, some v⟩ => [v.display]
  | .ok ⟨_, none⟩ => []
  | .error error => troubleLine :: error.reportLines

/-- Evaluates a snippet, and prints its outcome. -/
def Session.answer (source : String) (s : Session) : String × Session :=
  let (outcome, s) := s.eval source
  (String.join ((reportLines outcome).map (· ++ "\n")), s)

end Notebook
