import Notebook.Machine

/-!
Runs to the end: steps of the machine, with the globals that they assign.

A run is followed for as long as it goes on, and the run of code that jumps back forever goes on
forever.
-/

namespace Notebook

/-- How a run ended, and the globals as it left them. The globals are there after an error, too: it is for the
store to decide what becomes of them. -/
structure Ran (α : Type) where
  result : Except RunError α
  globals : Array Value

instance {α : Type} : Nonempty (Ran α) := ⟨⟨.error .stackOverflow, #[]⟩⟩

namespace Machine

def assign (globals : Array Value) (index : Nat) (v : Value) : Array Value :=
  if index < globals.size then globals.setIfInBounds index v
  else (globals ++ Array.replicate (index - globals.size) Value.null).push v

/-- One step of a run: on to the globals and the machine after it, or to the end. Here assignments are carried
out. -/
def advance (setting : Setting) : Array Value × Machine → Array Value × Machine ⊕ Ran (Option Value)
  | (globals, m) =>
    match step setting globals m with
    | .error cause => .inr ⟨.error cause, globals⟩
    | .ok (.next m) => .inl (globals, m)
    | .ok (.assign index v m) => .inl (assign globals index v, m)
    | .ok (.finish value) => .inr ⟨.ok value, globals⟩

def run (setting : Setting) (globals : Array Value) (m : Machine) : Ran (Option Value) :=
  Id.run (repeatM (fun s => pure (advance setting s)) (globals, m))

/-- Runs code from its start, as the outermost frame. It may end without a value. -/
def runCode (setting : Setting) (globals : Array Value) (main : FunctionCode) :
    Ran (Option Value) :=
  run setting globals ⟨⟨main, 0, 0⟩, [], #[]⟩

def pushAll (stack : Array Value) : List Value → Except RunError (Array Value)
  | [] => .ok stack
  | v :: vs => do
    let stack ← push stack v
    pushAll stack vs

/-- Calls a value from outside of any code, with it and its arguments as the only operands and no frame in
progress. A builtin is done at once. -/
def call (setting : Setting) (globals : Array Value) (callee : Value) (args : List Value) :
    Ran Value :=
  match pushAll #[] (callee :: args) with
  | .error cause => ⟨.error cause, globals⟩
  | .ok stack =>
    match enter setting.maxFrames 0 args.length stack with
    | .error cause => ⟨.error cause, globals⟩
    | .ok (none, stack) => ⟨(pop stack).map (·.1), globals⟩
    | .ok (some frame, stack) =>
      let ran := run setting globals ⟨frame, [], stack⟩
      ⟨ran.result.map (·.getD .null), ran.globals⟩

end Machine

end Notebook
