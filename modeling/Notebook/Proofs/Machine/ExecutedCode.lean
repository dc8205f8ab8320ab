import Notebook.Proofs.Machine.Termination

/-!
What a run executes.

A run executes the functions that its constants, its globals and its first frame hold and no others,
and in each of them control gets only to where its instructions lead.

* `Code.Gets`: the places of some code that its instructions lead to.
* `Machine.Confined.reaches`: a run that starts with known functions only never holds others.
* `Machine.Confined.ends`: nor do the globals and the value that it ends with.
* `Machine.Confined.exists_ends`: it ends if control only moves forward in the known functions.
* `Machine.madeOf_of_call`: the same of a call from outside.
-/

namespace Notebook

/-! ### Places -/

/-- Does control get to a place of some code, on whatever path? Conditional jumps may go either way, so this
depends on the code alone, and not on a run. -/
inductive Code.Gets (code : Code) : Nat → Prop where
  | start : Gets code 0
  | on {p : Nat} {i : Instr} (before : Gets code p)
      (reads : code.fetch p = .ok ⟨i.opcode, i.operand, p + i.size⟩)
      (goes : i.opcode.goesOn = true) : Gets code (p + i.size)
  | jump {p : Nat} {i : Instr} (before : Gets code p)
      (reads : code.fetch p = .ok ⟨i.opcode, i.operand, p + i.size⟩)
      (jumps : i.opcode.jumps = true) : Gets code i.operand

/-- What is read takes as many bytes as the instruction has. -/
theorem Code.next_of_fetch {code : Code} {p : Nat} {r : Fetched} (h : code.fetch p = .ok r) :
    r.next = p + Instr.size ⟨r.opcode, r.operand⟩ := by
  unfold fetch at h
  split at h
  · cases h
  · split at h
    · cases h
    · split at h
      · rename_i hwidth
        cases h
        simp [Instr.size, hwidth, OperandWidth.size]
      · rename_i hwidth
        split at h <;> cases h
        simp [Instr.size, hwidth, OperandWidth.size]
      · rename_i hwidth
        split at h <;> cases h
        simp [Instr.size, hwidth, OperandWidth.size]

/-- In code in which control only moves forward it stays at the places there are. -/
theorem Code.Advances.place_of_gets {code : Code} {length p : Nat} {places : Nat → Prop}
    (hcode : code.Advances length places) (h : code.Gets p) : places p := by
  induction h with
  | start => exact hcode.start
  | @on p i before reads goes ih =>
    obtain ⟨⟨op, operand⟩, hfetch, hgoes, -⟩ := hcode.reads p ih
    rw [hfetch] at reads
    cases reads
    exact hgoes goes
  | @jump p i before reads jumps ih =>
    obtain ⟨⟨op, operand⟩, hfetch, -, hjumps⟩ := hcode.reads p ih
    rw [hfetch] at reads
    cases reads
    exact (hjumps jumps).2

/-! ### Runs of known functions -/

namespace Machine

/-- Does a run hold and execute known functions only, with control where it can get to? Steps keep this
(`Confined.next`, `Confined.assign`), for any notion of known functions. -/
structure Confined (known : FunctionCode → Prop) (setting : Setting) (globals : Array Value)
    (m : Machine) : Prop where
  constants : ∀ v ∈ setting.constants, v.MadeOf known
  globals : ∀ v ∈ globals, v.MadeOf known
  frames : ∀ frame ∈ m.frame :: m.callers, known frame.function ∧
    frame.function.code.Gets frame.ip
  stack : ∀ v ∈ m.stack, v.MadeOf known

variable {known : FunctionCode → Prop} {setting : Setting} {g g' : Array Value} {m m' : Machine}

/-- A run that starts in a known function, with known functions at hand. -/
theorem Confined.start {f : FunctionCode} {base : Nat} {stack : Array Value}
    (hconstants : ∀ v ∈ setting.constants, v.MadeOf known) (hglobals : ∀ v ∈ g, v.MadeOf known)
    (hf : known f) (hstack : ∀ v ∈ stack, v.MadeOf known) :
    Confined known setting g ⟨⟨f, 0, base⟩, [], stack⟩ :=
  ⟨hconstants, hglobals, List.forall_mem_singleton.mpr ⟨hf, .start⟩, hstack⟩

/-- The instruction that a step carries out, and where it leads. -/
theorem Confined.moves (hm : m.Confined known setting g) {action : Action}
    (h : step setting g m = .ok action) :
    ∃ i : Instr, m.frame.function.code.fetch m.frame.ip =
        .ok ⟨i.opcode, i.operand, m.frame.ip + i.size⟩ ∧
      action.Moves known setting.maxFrames i m.frame m.callers := by
  obtain ⟨frame, callers, stack⟩ := m
  cases hfetch : frame.function.code.fetch frame.ip with
  | error cause =>
    simp only [step, hfetch] at h
    cases h
  | ok read =>
    have hnext := Code.next_of_fetch hfetch
    obtain ⟨op, operand, next⟩ := read
    simp only at hnext
    subst hnext
    exact ⟨⟨op, operand⟩, rfl, step_moves hm.constants hm.globals hm.stack hfetch h⟩

/-- Control gets to where instructions lead, in functions that are known. -/
theorem Confined.frames_of_moves (hm : m.Confined known setting g) {i : Instr} {frame : Frame}
    {callers : List Frame}
    (hfetch : m.frame.function.code.fetch m.frame.ip =
      .ok ⟨i.opcode, i.operand, m.frame.ip + i.size⟩)
    (h : Moves known setting.maxFrames i m.frame m.callers frame callers) :
    ∀ fr ∈ frame :: callers, known fr.function ∧ fr.function.code.Gets fr.ip := by
  obtain ⟨⟨hknown, hgets⟩, hcallers⟩ := List.forall_mem_cons.mp hm.frames
  cases h with
  | on goes => exact List.forall_mem_cons.mpr ⟨⟨hknown, hgets.on hfetch goes⟩, hcallers⟩
  | jump jumps => exact List.forall_mem_cons.mpr ⟨⟨hknown, hgets.jump hfetch jumps⟩, hcallers⟩
  | enter goes hf room =>
    refine List.forall_mem_cons.mpr ⟨⟨hf, .start⟩, ?_⟩
    exact List.forall_mem_cons.mpr ⟨⟨hknown, hgets.on hfetch goes⟩, hcallers⟩
  | leave hreturn =>
    rw [hreturn] at hcallers
    exact hcallers

theorem Confined.next (hm : m.Confined known setting g) (h : step setting g m = .ok (.next m')) :
    m'.Confined known setting g := by
  obtain ⟨i, hfetch, hmoves, hstack⟩ := hm.moves h
  exact ⟨hm.constants, hm.globals, hm.frames_of_moves hfetch hmoves, hstack⟩

theorem Confined.assign {index : Nat} {v : Value} (hm : m.Confined known setting g)
    (h : step setting g m = .ok (.assign index v m')) :
    m'.Confined known setting (Machine.assign g index v) := by
  obtain ⟨i, hfetch, hmoves, hv, hstack⟩ := hm.moves h
  exact ⟨hm.constants, madeOf_of_assign hm.globals hv index, hm.frames_of_moves hfetch hmoves, hstack⟩

/-- A run that starts with known functions only never holds others. -/
theorem Confined.reaches (hm : m.Confined known setting g) (h : Reaches setting g m g' m') :
    m'.Confined known setting g' := by
  induction h with
  | refl => exact hm
  | next hstep _ ih => exact ih (hm.next hstep)
  | assign hstep _ ih => exact ih (hm.assign hstep)

/-- The value that a run ends with is one of its operands, or there is none. -/
theorem madeOf_of_finish {value : Option Value} (hstack : ∀ v ∈ m.stack, v.MadeOf known)
    (h : step setting g m = .ok (.finish value)) : (value.getD .null).MadeOf known := by
  obtain ⟨frame, callers, stack⟩ := m
  unfold step at h
  simp only at h
  split at h
  · cases h
  · rename_i read hfetch
    by_cases hop : read.opcode.computes = true
    · rw [execute_of_computes hop] at h
      obtain ⟨after, -, h⟩ := bind_eq_ok_iff.mp h
      cases h
    · obtain ⟨op, operand, next⟩ := read
      -- Of the instructions that do more than change operands, only those that return finish a run.
      cases op <;> simp only [execute] at h
      case jump => cases h
      case jumpNotTruthy =>
        obtain ⟨⟨condition, rest⟩, -, h⟩ := bind_eq_ok_iff.mp h
        simp only at h
        split at h <;> cases h
      case setGlobal =>
        obtain ⟨⟨w, rest⟩, -, h⟩ := bind_eq_ok_iff.mp h
        cases h
      case call =>
        obtain ⟨⟨entered, rest⟩, -, h⟩ := bind_eq_ok_iff.mp h
        cases entered <;> cases h
      case returnValue =>
        obtain ⟨⟨w, rest⟩, hpop, h⟩ := bind_eq_ok_iff.mp h
        obtain ⟨hw, hrest⟩ := madeOf_of_pop hstack hpop
        rcases madeOf_of_leave hrest hw h with hfinish | ⟨after, hnext, -⟩
        · cases hfinish
          exact hw
        · cases hnext
      case ret =>
        rcases madeOf_of_leave hstack Value.madeOf_null h with hfinish | ⟨after, hnext, -⟩
        · cases hfinish
          exact Value.madeOf_null
        · cases hnext
      case throwValue =>
        obtain ⟨⟨w, rest⟩, -, h⟩ := bind_eq_ok_iff.mp h
        cases h
      all_goals exact absurd rfl hop

/-- Nor do the globals and the value that such a run ends with hold others. The last step is of an instruction
that returns, or it fails and leaves the globals as they are. -/
theorem Confined.ends {ran : Ran (Option Value)} (hm : m.Confined known setting g)
    (h : Ends setting g m ran) :
    (∀ v ∈ ran.globals, v.MadeOf known) ∧
      ∀ value, ran.result = .ok value → (value.getD .null).MadeOf known := by
  obtain ⟨last, hreaches, hend⟩ := h
  have hlast := hm.reaches hreaches
  refine ⟨hlast.globals, fun value hvalue => ?_⟩
  unfold advance at hend
  simp only at hend
  split at hend
  · rw [← Sum.inr.inj hend] at hvalue
    cases hvalue
  · cases hend
  · cases hend
  · rename_i value' hstep
    rw [← Sum.inr.inj hend] at hvalue
    cases hvalue
    exact madeOf_of_finish hlast.stack hstep

/-- A run that ends within a limit ends. -/
theorem ends_of_runWithin {limit : Nat} {ran : Ran (Option Value)}
    (h : runWithin setting limit g m = some ran) : Ends setting g m ran := by
  induction limit generalizing g m with
  | zero => cases h
  | succ limit ih =>
    unfold runWithin at h
    cases hadvance : advance setting (g, m) with
    | inr ended =>
      rw [hadvance] at h
      obtain rfl := Option.some.inj h
      have hglobals : ended.globals = g := by
        unfold advance at hadvance
        simp only at hadvance
        split at hadvance <;> cases hadvance <;> rfl
      exact ⟨m, hglobals ▸ .refl, hglobals ▸ hadvance⟩
    | inl after =>
      rw [hadvance] at h
      obtain ⟨last, hreaches, hend⟩ := ih h
      refine ⟨last, ?_, hend⟩
      unfold advance at hadvance
      simp only at hadvance
      split at hadvance <;> cases hadvance
      · exact .next ‹_› hreaches
      · exact .assign ‹_› hreaches

/-- A run ends if control only moves forward in the functions that are known. -/
theorem Confined.exists_ends {length : Nat} (hm : m.Confined known setting g)
    (hadvances : ∀ f, known f → f.Advances length) : ∃ ran, Ends setting g m ran := by
  have hmade : ∀ {v : Value}, v.MadeOf known → v.MadeOf (FunctionCode.Advances length) :=
    fun hv => hv.mono hadvances
  have hbounded : m.Bounded length setting g := by
    refine ⟨fun v hv => hmade (hm.constants v hv), fun v hv => hmade (hm.globals v hv), ?_,
      fun v hv => hmade (hm.stack v hv)⟩
    intro frame hframe
    obtain ⟨hknown, hgets⟩ := hm.frames frame hframe
    obtain ⟨places, hcode⟩ := hadvances _ hknown
    exact ⟨places, hcode, hcode.place_of_gets hgets⟩
  obtain ⟨ran, hrun⟩ := hbounded.runs_within (Nat.le_refl _)
  exact ⟨ran, ends_of_runWithin hrun⟩

/-! ### Calls of known functions -/

section

variable {callee : Value} {args : List Value}

/-- A call from outside with known functions at hand enters one of them, if it enters any. -/
theorem Confined.entered (setting : Setting) {stack stack' : Array Value} {entered : Option Frame}
    (hconstants : ∀ v ∈ setting.constants, v.MadeOf known) (hglobals : ∀ v ∈ g, v.MadeOf known)
    (hcallee : callee.MadeOf known) (hargs : ∀ v ∈ args, v.MadeOf known)
    (hpushed : pushAll #[] (callee :: args) = .ok stack)
    (hentered : enter setting.maxFrames 0 args.length stack = .ok (entered, stack')) :
    (∀ v ∈ stack', v.MadeOf known) ∧
      ∀ frame, entered = some frame → Confined known setting g ⟨frame, [], stack'⟩ := by
  have hstack := madeOf_of_pushAll (fun v hv => absurd hv (Array.not_mem_empty v))
    (List.forall_mem_cons.mpr ⟨hcallee, hargs⟩) hpushed
  obtain ⟨hstack', hframe⟩ := madeOf_of_enter hstack hentered
  refine ⟨hstack', fun frame hsome => ?_⟩
  obtain ⟨-, f, base, rfl, hf⟩ := hframe frame hsome
  exact .start hconstants hglobals hf hstack'

/-- The globals and the value of a call hold known functions only. The call comes to an end, as control only
moves forward in the functions that are known. -/
theorem madeOf_of_call (setting : Setting) {length : Nat} (hadvances : ∀ f, known f → f.Advances length)
    (hconstants : ∀ v ∈ setting.constants, v.MadeOf known) (hglobals : ∀ v ∈ g, v.MadeOf known)
    (hcallee : callee.MadeOf known) (hargs : ∀ v ∈ args, v.MadeOf known) :
    (∀ v ∈ (call setting g callee args).globals, v.MadeOf known) ∧
      ∀ v, (call setting g callee args).result = .ok v → v.MadeOf known := by
  unfold call
  cases hpushed : pushAll #[] (callee :: args) with
  | error cause => exact ⟨hglobals, fun v hv => by cases hv⟩
  | ok stack =>
    simp only
    -- The call is refused, or a builtin's value is all there is, or a function is entered and runs to its end.
    rcases hentered : enter setting.maxFrames 0 args.length stack with cause | ⟨_ | frame, stack'⟩
    · exact ⟨hglobals, fun v hv => by cases hv⟩
    · obtain ⟨hstack', -⟩ :=
        Confined.entered setting hconstants hglobals hcallee hargs hpushed hentered
      refine ⟨hglobals, fun v hv => ?_⟩
      simp only at hv
      cases hpop : pop stack' with
      | error cause =>
        rw [hpop] at hv
        cases hv
      | ok popped =>
        rw [hpop] at hv
        cases hv
        exact (madeOf_of_pop hstack' hpop).1
    · obtain ⟨-, hconfined⟩ :=
        Confined.entered setting hconstants hglobals hcallee hargs hpushed hentered
      have hstart := hconfined frame rfl
      obtain ⟨ran, hends⟩ := hstart.exists_ends hadvances
      obtain ⟨hglobals', hvalue⟩ := hstart.ends hends
      simp only [run_of_ends hends]
      refine ⟨hglobals', fun v hv => ?_⟩
      cases hresult : ran.result with
      | error cause =>
        rw [hresult] at hv
        cases hv
      | ok value =>
        rw [hresult] at hv
        cases hv
        exact hvalue value hresult

end

end Machine

end Notebook
