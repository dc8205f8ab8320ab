import Notebook.Machine.Run
import Notebook.Proofs.Bytecode.Assembly

/-!
Runs of the machine, as chains of steps.

* `Machine.Reaches`: some steps lead from one machine to another, with the globals they assign.
* `Machine.Fails`: some steps lead to one that fails.
* `Machine.Ends`: some steps lead to the end of the run. `Machine.run_of_ends` says that running is
  following them.
* `Machine.step_of_fetch`: a step carries out the instruction that is read.
-/

namespace Notebook.Machine

/-- Some steps lead from a machine to another one. The globals go along with the machines, since steps assign
them. -/
inductive Reaches (s : Setting) : Array Value → Machine → Array Value → Machine → Prop where
  | refl {g : Array Value} {m : Machine} : Reaches s g m g m
  | next {g g' : Array Value} {m m₁ m' : Machine} :
      step s g m = .ok (.next m₁) → Reaches s g m₁ g' m' → Reaches s g m g' m'
  | assign {g g' : Array Value} {m m₁ m' : Machine} {index : Nat} {v : Value} :
      step s g m = .ok (.assign index v m₁) → Reaches s (Machine.assign g index v) m₁ g' m' →
      Reaches s g m g' m'

/-- Some steps lead to one that fails, with the globals as they are then. -/
def Fails (s : Setting) (g : Array Value) (m : Machine) (error : RunError) (g' : Array Value) :
    Prop :=
  ∃ m', Reaches s g m g' m' ∧ step s g' m' = .error error

variable {s : Setting} {g g₁ g₂ : Array Value} {m m₁ m₂ : Machine}

theorem Reaches.single (h : step s g m = .ok (.next m₁)) : Reaches s g m g m₁ :=
  .next h .refl

theorem Reaches.trans (h₁ : Reaches s g m g₁ m₁) (h₂ : Reaches s g₁ m₁ g₂ m₂) :
    Reaches s g m g₂ m₂ := by
  induction h₁ with
  | refl => exact h₂
  | next hstep _ ih => exact .next hstep (ih h₂)
  | assign hstep _ ih => exact .assign hstep (ih h₂)

theorem Fails.of_step {error : RunError} (h : step s g m = .error error) : Fails s g m error g :=
  ⟨m, .refl, h⟩

theorem Fails.of_reaches {error : RunError} (h₁ : Reaches s g m g₁ m₁)
    (h₂ : Fails s g₁ m₁ error g₂) : Fails s g m error g₂ := by
  obtain ⟨m', hreach, hstep⟩ := h₂
  exact ⟨m', h₁.trans hreach, hstep⟩

/-! ### Ends -/

/-- A run ends: some steps lead to one that finishes or fails, and that is what the run comes to. -/
def Ends (s : Setting) (g : Array Value) (m : Machine) (ran : Ran (Option Value)) : Prop :=
  ∃ m', Reaches s g m ran.globals m' ∧ advance s (ran.globals, m') = .inr ran

theorem Fails.ends {error : RunError} (h : Fails s g m error g₁) :
    Ends s g m ⟨.error error, g₁⟩ := by
  obtain ⟨m', hreach, hstep⟩ := h
  refine ⟨m', hreach, ?_⟩
  unfold advance
  simp only [hstep]

theorem Reaches.ends {value : Option Value} (h : Reaches s g m g₁ m₁)
    (hstep : step s g₁ m₁ = .ok (.finish value)) : Ends s g m ⟨.ok value, g₁⟩ := by
  refine ⟨m₁, h, ?_⟩
  unfold advance
  simp only [hstep]

/-- A run is its first step and the run from there. -/
theorem run_eq (s : Setting) (g : Array Value) (m : Machine) :
    run s g m =
      match advance s (g, m) with
      | .inl (g, m) => run s g m
      | .inr ran => ran := by
  conv => lhs; unfold run; rw [repeatM_eq_of_monadTail]
  unfold repeatM.body
  rcases hadvance : advance s (g, m) with ⟨g', m'⟩ | ran
  · simp only [hadvance, pure_bind]
    rfl
  · simp only [hadvance, pure_bind]
    rfl

/-- A run comes to what it comes to from any place on its way. -/
theorem run_of_reaches (h : Reaches s g m g₁ m₁) : run s g m = run s g₁ m₁ := by
  induction h with
  | refl => rfl
  | next hstep _ ih =>
    rw [run_eq, advance, hstep]
    exact ih
  | assign hstep _ ih =>
    rw [run_eq, advance, hstep]
    exact ih

theorem run_of_ends {ran : Ran (Option Value)} (h : Ends s g m ran) : run s g m = ran := by
  obtain ⟨m', hreach, hend⟩ := h
  rw [run_of_reaches hreach, run_eq, hend]

/-! ### Steps -/

/-- A step carries out the instruction that stands where the active frame is. -/
theorem step_of_fetch {frame : Frame} {callers : List Frame} {stack : Array Value} {i : Instr}
    (h : frame.function.code.fetch frame.ip = .ok ⟨i.opcode, i.operand, frame.ip + i.size⟩) :
    step s g ⟨frame, callers, stack⟩ =
      execute s g i.opcode i.operand { frame with ip := frame.ip + i.size } callers stack := by
  simp [step, h]

/-! ### Operands -/

theorem push_eq (stack : Array Value) (v : Value) :
    push stack v = if stack.size < stackLimit then .ok (stack.push v) else .error .stackOverflow :=
  rfl

@[simp] theorem pop_push (stack : Array Value) (v : Value) :
    pop (stack.push v) = .ok (v, stack) := by
  simp [pop]

end Notebook.Machine
