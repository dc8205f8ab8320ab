import Notebook.Proofs.Compiler.Emission
import Notebook.Proofs.Machine.InstructionEffects
import Notebook.Proofs.Resolution.UseBounds

/-!
What it means that code follows an evaluation.

An `Activation` is a function call in progress, as the code of the function sees it: what lies below
its locals, and who called it, stays as it is. `Follows` says that code from one place to another
does what an evaluation of the evaluator says, whichever way the evaluation ends. Along
with that it keeps track of what makes the machine's own errors impossible: that slots are there
(`Activation.Sound`), and that all values are made of functions whose code is known.

* `follows_bind`, `follows_pure`: code for one evaluation after another.
* `follows_compute`, `follows_push`: a single instruction that changes the operands alone.
* `Follows.of_reaches`, `Follows.then_reaches`: jumps before and after.
-/

namespace Notebook

/-! ### Worlds and activations -/

/-- What the code of a session runs against: the pool, the functions with their bodies, and the number of
globals. It stays the same for the length of a run. -/
structure World where
  setting : Setting
  routines : List Routine
  globals : Nat

namespace World

def Known (w : World) : FunctionCode → Prop := KnownAmong w.routines

def bounds (w : World) (f : FunctionCode) (top : Bool) : Bounds where
  pool := w.setting.constants
  offset := f.constantsOffset
  globals := w.globals
  locals := f.locals
  known := w.Known
  top := top

/-- Does the code of every function hold the layout of its body, which keeps to its bounds? -/
def Linked (w : World) : Prop := ∀ r ∈ w.routines, r.Laid ∧ r.Keeps (w.bounds r.code false)

/-- Are these globals as many as they have to be, and made of known functions? -/
def Fits (w : World) (globals : Array Value) : Prop :=
  globals.size = w.globals ∧ ∀ v ∈ globals, v.MadeOf w.Known

/-- Assigning a global that there is leaves as many globals, made of known functions. -/
theorem Fits.assign {w : World} {g : Array Value} {index : Nat} {v : Value} (h : w.Fits g)
    (hlt : index < w.globals) (hv : v.MadeOf w.Known) : w.Fits (Machine.assign g index v) := by
  have hassign : Machine.assign g index v = g.setIfInBounds index v :=
    if_pos (Nat.lt_of_lt_of_eq hlt h.1.symm)
  rw [hassign]
  refine ⟨by simpa using h.1, ?_⟩
  intro u hu
  rcases Array.mem_or_eq_of_mem_setIfInBounds hu with hu | rfl
  · exact h.2 u hu
  · exact hv

end World

/-- A function call in progress, as the code of the function has it. `below` is what lies below the locals among
the operands, the function itself included. Only the top level of a snippet changes the globals; otherwise they
stay as they were in the beginning, which is `frozen`. -/
structure Activation where
  world : World
  function : FunctionCode
  callers : List Frame
  below : Array Value
  top : Bool
  frozen : Array Value

namespace Activation

def height (a : Activation) : Nat := a.below.size + a.function.locals

/-- The operands, given the state and those that are waiting. -/
def stack (a : Activation) (s : Semantics.State) (ops : Array Value) : Array Value :=
  a.below ++ s.locals ++ ops

def frame (a : Activation) (ip : Nat) : Frame := ⟨a.function, ip, a.below.size⟩

/-- The machine, given the state, the place in the code and the operands that are waiting. -/
def machine (a : Activation) (s : Semantics.State) (ip : Nat) (ops : Array Value) : Machine :=
  ⟨a.frame ip, a.callers, a.stack s ops⟩

/-- Has the state the slots it has to have, and only values made of known functions? This is what rules the
machine's own errors out: an instruction finds every slot that it names. -/
structure Sound (a : Activation) (s : Semantics.State) : Prop where
  fits : a.world.Fits s.globals
  locals : s.locals.size = a.function.locals
  known : ∀ v ∈ s.locals, v.MadeOf a.world.Known
  frozen : a.top = false → s.globals = a.frozen

def Holds (a : Activation) (ip : Nat) (is : List Instr) : Prop := a.function.code.Holds ip is

/-- Steps from a machine lead to the end of the activation, with a result or without one. What the activation
still has among the operands is of no account then. -/
def Returns (a : Activation) (globals : Array Value) (m : Machine) (result : Option Value)
    (globals' : Array Value) : Prop :=
  ∃ m' ip rest, Machine.Reaches a.world.setting globals m globals' m' ∧
    Machine.step a.world.setting globals' m' =
      Machine.leave (a.frame ip) a.callers (a.below ++ rest) (result.getD .null) result

theorem Returns.of_reaches {a : Activation} {g g₁ g' : Array Value} {m m₁ : Machine}
    {result : Option Value} (h₁ : Machine.Reaches a.world.setting g m g₁ m₁)
    (h₂ : a.Returns g₁ m₁ result g') : a.Returns g m result g' := by
  obtain ⟨m', ip, rest, hreach, hstep⟩ := h₂
  exact ⟨m', ip, rest, h₁.trans hreach, hstep⟩

/-- Does the machine go on as an evaluation ended? If it ended with a value, then `P` holds of it, the next
instruction is at `ip`, and the operands that are waiting are `after` of the value. If it ended by a `return`,
the activation ends, wherever the code is. If it failed, the machine fails with the same error and the same
globals. -/
def GoesOn {α : Type} (a : Activation) (globals : Array Value) (m : Machine) (ip : Nat)
    (after : α → Array Value) (P : α → Prop) : Semantics.Flow α × Semantics.State → Prop
  | (.value v, s) => a.Sound s ∧ P v ∧
      Machine.Reaches a.world.setting globals m s.globals (a.machine s ip (after v))
  | (.returned v, s) => a.Sound s ∧ v.MadeOf a.world.Known ∧
      a.Returns globals m (some v) s.globals
  | (.failed error, s) => a.Sound s ∧ error.isOrdinary = true ∧
      Machine.Fails a.world.setting globals m error s.globals

/-- Does the code from `ip` on, with `ops` waiting, do what an evaluation says, up to `ip'`? This composes as
evaluations do (`follows_bind`), so the layout of a term is followed through by induction on the term. -/
def Follows {α : Type} (a : Activation) (x : Semantics.Exec α) (ip : Nat) (ops : Array Value)
    (ip' : Nat) (after : α → Array Value) (P : α → Prop) : Prop :=
  ∀ s, a.Sound s → a.GoesOn s.globals (a.machine s ip ops) ip' after P (x s)

variable {a : Activation} {α β : Type} {x : Semantics.Exec α} {f : α → Semantics.Exec β}
variable {g g₁ : Array Value} {m m₁ : Machine} {ip ip₁ ip' : Nat} {ops ops₁ : Array Value}
variable {mid after : α → Array Value} {P : α → Prop}

theorem GoesOn.of_reaches {end_ : Semantics.Flow α × Semantics.State}
    (h₁ : Machine.Reaches a.world.setting g m g₁ m₁) (h₂ : a.GoesOn g₁ m₁ ip after P end_) :
    a.GoesOn g m ip after P end_ := by
  obtain ⟨flow, s⟩ := end_
  cases flow with
  | value v => exact ⟨h₂.1, h₂.2.1, h₁.trans h₂.2.2⟩
  | returned v => exact ⟨h₂.1, h₂.2.1, h₂.2.2.of_reaches h₁⟩
  | failed error => exact ⟨h₂.1, h₂.2.1, h₂.2.2.of_reaches h₁⟩

theorem follows_pure {v : α} (hv : P v) (hafter : after v = ops) :
    a.Follows (pure v) ip ops ip after P := by
  intro s hs
  refine ⟨hs, hv, ?_⟩
  rw [hafter]
  exact .refl

/-- Code for one evaluation, then code for what depends on its value. -/
theorem follows_bind {after : β → Array Value} {Q : β → Prop}
    (hx : a.Follows x ip ops ip₁ mid P) (hf : ∀ v, P v → a.Follows (f v) ip₁ (mid v) ip' after Q) :
    a.Follows (x >>= f) ip ops ip' after Q := by
  intro s hs
  have hfirst := hx s hs
  rw [Semantics.Exec.bind_apply]
  rcases hend : x s with ⟨flow, s₁⟩
  rw [hend] at hfirst
  cases flow with
  | value v =>
    obtain ⟨hs₁, hv, hreach⟩ := hfirst
    exact (hf v hv s₁ hs₁).of_reaches hreach
  | returned v => exact hfirst
  | failed error => exact hfirst

/-! ### Single instructions -/

/-- A step at a place where an instruction stands. -/
theorem step_machine {i : Instr} {is : List Instr} (hi : a.Holds ip (i :: is)) (g : Array Value)
    (s : Semantics.State) (ops : Array Value) :
    Machine.step a.world.setting g (a.machine s ip ops) =
      Machine.execute a.world.setting g i.opcode i.operand (a.frame (ip + i.size)) a.callers
        (a.stack s ops) :=
  Machine.step_of_fetch hi.1

/-- A jump, or another step that changes the place or drops operands, before an evaluation. -/
theorem Follows.of_step (h : a.Follows x ip₁ ops₁ ip' after P)
    (hstep : ∀ s, a.Sound s → Machine.step a.world.setting s.globals (a.machine s ip ops) =
      .ok (.next (a.machine s ip₁ ops₁))) :
    a.Follows x ip ops ip' after P := by
  intro s hs
  exact (h s hs).of_reaches (.single (hstep s hs))

/-- A jump after an evaluation. -/
theorem Follows.then_step (h : a.Follows x ip ops ip₁ after P)
    (hstep : ∀ s v, Machine.step a.world.setting s.globals (a.machine s ip₁ (after v)) =
      .ok (.next (a.machine s ip' (after v)))) :
    a.Follows x ip ops ip' after P := by
  intro s hs
  have hx := h s hs
  rcases hend : x s with ⟨flow, s₁⟩
  rw [hend] at hx
  cases flow with
  | value v => exact ⟨hx.1, hx.2.1, hx.2.2.trans (.single (hstep s₁ v))⟩
  | returned v => exact hx
  | failed error => exact hx

theorem push_stack (a : Activation) (s : Semantics.State) (ops : Array Value) (v : Value) :
    (a.stack s ops).push v = a.stack s (ops.push v) := by
  simp [stack]

theorem size_stack {s : Semantics.State} (hs : a.Sound s) (ops : Array Value) :
    (a.stack s ops).size = a.height + ops.size := by
  simp [stack, height, hs.locals, Nat.add_assoc]

/-- An instruction that changes the operands alone, as a result does. -/
theorem follows_compute {i : Instr} (hi : a.Holds ip [i])
    (hop : i.opcode.computes = true)
    (h : ∀ s, a.Sound s → ∃ r : Except RunError α, x s = Semantics.settle r s ∧
      Machine.compute a.world.setting s.globals (a.frame (ip + i.size)) i.opcode i.operand
        (a.stack s ops) = r.map (fun v => a.stack s (after v)) ∧
      (∀ v, r = .ok v → P v) ∧ ∀ error, r = .error error → error.isOrdinary = true) :
    a.Follows x ip ops (ip + codeSize [i]) after P := by
  intro s hs
  obtain ⟨r, hx, hcompute, hvalue, herror⟩ := h s hs
  have hstep := step_machine hi s.globals s ops
  rw [Machine.execute_of_computes hop, hcompute] at hstep
  rw [hx]
  cases r with
  | ok v => exact ⟨hs, hvalue v rfl, .single hstep⟩
  | error error => exact ⟨hs, herror error rfl, .of_step hstep⟩

/-- What is known of a value that was left on top of the operands that are waiting: its functions
are known, and there was room for it. -/
def Kept (a : Activation) (ops : Array Value) (v : Value) : Prop :=
  v.MadeOf a.world.Known ∧ a.height + ops.size < Machine.stackLimit

/-- An instruction that leaves a value. -/
theorem follows_keep {i : Instr} (hi : a.Holds ip [i])
    (hop : i.opcode.computes = true) (v : Semantics.State → Value)
    (hcompute : ∀ s, a.Sound s →
      Machine.compute a.world.setting s.globals (a.frame (ip + i.size)) i.opcode i.operand
        (a.stack s ops) = Machine.push (a.stack s ops₁) (v s))
    (hv : ∀ s, a.Sound s → (v s).MadeOf a.world.Known) :
    a.Follows (fun s => Semantics.keep (a.height + ops₁.size) (v s) s) ip ops (ip + codeSize [i])
      ops₁.push (a.Kept ops₁) := by
  refine follows_compute hi hop fun s hs => ⟨_, rfl, ?_, ?_, ?_⟩
  · rw [hcompute s hs, Machine.push_eq, size_stack hs]
    split
    · rw [push_stack]
      rfl
    · rfl
  · intro w hw
    split at hw <;> cases hw
    exact ⟨hv s hs, ‹_›⟩
  · intro error herror
    split at herror <;> cases herror
    rfl

/-- An instruction that puts a result in the place of its operands. -/
theorem follows_settle {i : Instr} {r : Except RunError Value} (hi : a.Holds ip [i])
    (hop : i.opcode.computes = true)
    (hroom : a.height + ops₁.size < Machine.stackLimit)
    (hcompute : ∀ s, a.Sound s → (a.stack s ops₁).size < Machine.stackLimit →
      Machine.compute a.world.setting s.globals (a.frame (ip + i.size)) i.opcode i.operand
        (a.stack s ops) = r.map (a.stack s ops₁).push)
    (hv : ∀ v, r = .ok v → v.MadeOf a.world.Known)
    (herror : ∀ error, r = .error error → error.isOrdinary = true) :
    a.Follows (Semantics.settle r) ip ops (ip + codeSize [i]) ops₁.push (a.Kept ops₁) := by
  refine follows_compute hi hop fun s hs => ⟨r, rfl, ?_, fun v h => ⟨hv v h, hroom⟩, herror⟩
  rw [hcompute s hs (by rwa [size_stack hs])]
  cases r with
  | ok v => exact congrArg Except.ok (push_stack a s ops₁ v)
  | error error => rfl

end Activation

end Notebook
