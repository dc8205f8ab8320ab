import Notebook.Proofs.Compiler.WellFormedCode
import Notebook.Proofs.Engine.Correctness
import Notebook.Proofs.Machine.OperandFunctions

/-!
Every run of a session's code ends, after a number of instructions that can be told in advance.

Within a frame control only moves forward (`Code.Advances`), so a frame executes at most as many
instructions as its code is long. Any of them may call a function, but there is room for so many
frames only. `Machine.pending` adds up what the frames of a machine may still lead to, and each step
makes it less.

* `Machine.step_moves`: where control gets to in a step.
* `Machine.Bounded.step`: a step keeps a machine bounded and makes less of what is pending.
* `Machine.Bounded.runs_within`: so the run ends before as many instructions are executed.
* `SessionEngine.Reached.ends_within`: units and calls of a session end within `instructionLimit`.
-/

namespace Notebook

/-! ### Runs with a limit -/

namespace Machine

variable {setting : Setting} {g : Array Value} {m : Machine}

/-- The end of a run, if it takes no more than so many instructions. -/
def runWithin (setting : Setting) : Nat → Array Value → Machine → Option (Ran (Option Value))
  | 0, _, _ => none
  | limit + 1, globals, m =>
    match advance setting (globals, m) with
    | .inl (globals, m) => runWithin setting limit globals m
    | .inr ran => some ran

/-- The end of a call from outside, if the code that it enters takes no more than so many
instructions. -/
def callWithin (setting : Setting) (limit : Nat) (globals : Array Value) (callee : Value)
    (args : List Value) : Option (Ran Value) :=
  match pushAll #[] (callee :: args) with
  | .error cause => some ⟨.error cause, globals⟩
  | .ok stack =>
    match enter setting.maxFrames 0 args.length stack with
    | .error cause => some ⟨.error cause, globals⟩
    | .ok (none, stack) => some ⟨(pop stack).map (·.1), globals⟩
    | .ok (some frame, stack) =>
      (runWithin setting limit globals ⟨frame, [], stack⟩).map fun ran =>
        ⟨ran.result.map (·.getD .null), ran.globals⟩

/-- A run that ends within a limit is the run without it. -/
theorem run_of_runWithin {limit : Nat} {ran : Ran (Option Value)}
    (h : runWithin setting limit g m = some ran) : run setting g m = ran := by
  induction limit generalizing g m with
  | zero => cases h
  | succ limit ih =>
    rw [run_eq]
    unfold runWithin at h
    cases hadvance : advance setting (g, m) with
    | inl after =>
      rw [hadvance] at h
      exact ih h
    | inr ended =>
      rw [hadvance] at h
      exact Option.some.inj h

/-- So is a call. -/
theorem call_of_callWithin {limit : Nat} {callee : Value} {args : List Value} {ran : Ran Value}
    (h : callWithin setting limit g callee args = some ran) :
    call setting g callee args = ran := by
  unfold callWithin at h
  unfold call
  cases hpushed : pushAll #[] (callee :: args) with
  | error cause =>
    rw [hpushed] at h
    exact Option.some.inj h
  | ok stack =>
    simp only [hpushed] at h
    rcases hentered : enter setting.maxFrames 0 args.length stack with cause | ⟨_ | frame, stack'⟩
    · rw [hentered] at h
      simp only [hentered]
      exact Option.some.inj h
    · rw [hentered] at h
      simp only [hentered]
      exact Option.some.inj h
    · rw [hentered] at h
      obtain ⟨ran', hrun, rfl⟩ := Option.map_eq_some_iff.mp h
      simp only [hentered, run_of_runWithin hrun]

end Machine

/-! ### How far a run can get -/

/-- What the execution of one instruction may lead to, itself included, where no code is longer than `length`
and there is room for so many more frames: a call, and all the instructions of its frame, each of which may
again call. -/
def instructionCost (length : Nat) : Nat → Nat
  | 0 => 1
  | room + 1 => 1 + length * instructionCost length room

/-- How many instructions a run may execute. It starts in one frame. -/
def instructionLimit (length maxFrames : Nat) : Nat :=
  length * instructionCost length (maxFrames - 1)

theorem instructionCost_pos (length room : Nat) : 0 < instructionCost length room := by
  cases room with
  | zero => exact Nat.one_pos
  | succ room => exact Nat.add_pos_left Nat.one_pos _

/-- What some frames may still lead to, the active one being the first. Each byte that is left in a frame counts
for what an instruction may lead to at the frame's depth. -/
def pendingFrames (length maxFrames : Nat) : List Frame → Nat
  | [] => 0
  | frame :: callers =>
    (frame.function.code.size - frame.ip) *
        instructionCost length (maxFrames - (callers.length + 1)) +
      pendingFrames length maxFrames callers

/-- What a machine may still lead to. -/
def Machine.pending (length maxFrames : Nat) (m : Machine) : Nat :=
  pendingFrames length maxFrames (m.frame :: m.callers)

section

variable {length maxFrames : Nat} {frame : Frame} {callers : List Frame} {ip : Nat}

/-- Getting further in a frame leaves less pending. -/
theorem pendingFrames_lt (hinside : frame.ip < frame.function.code.size) (hlt : frame.ip < ip) :
    pendingFrames length maxFrames ({ frame with ip } :: callers) <
      pendingFrames length maxFrames (frame :: callers) := by
  have hless : frame.function.code.size - ip < frame.function.code.size - frame.ip := by omega
  have hcost := instructionCost_pos length (maxFrames - (callers.length + 1))
  exact Nat.add_lt_add_right (Nat.mul_lt_mul_of_pos_right hless hcost) _

/-- So does a call, since each instruction is good for all that a call may lead to. The frame that is entered
has all of its code before it, at one depth more. -/
theorem pendingFrames_enter_lt {f : FunctionCode} (base : Nat) (hsize : f.code.size ≤ length)
    (hroom : callers.length + 1 < maxFrames) (hinside : frame.ip < frame.function.code.size)
    (hlt : frame.ip < ip) :
    pendingFrames length maxFrames (⟨f, 0, base⟩ :: { frame with ip } :: callers) <
      pendingFrames length maxFrames (frame :: callers) := by
  obtain ⟨room, hmore⟩ : ∃ room, maxFrames = callers.length + 2 + room :=
    Nat.exists_eq_add_of_le hroom
  have hhere : maxFrames - (callers.length + 1) = room + 1 := by omega
  have hthere : maxFrames - (callers.length + 1 + 1) = room := by omega
  obtain ⟨left, hleft⟩ : ∃ left, frame.function.code.size - frame.ip = left + 1 :=
    Nat.exists_eq_add_of_le' (Nat.sub_pos_of_lt hinside)
  have hless : frame.function.code.size - ip ≤ left := by omega
  have hcalled : f.code.size * instructionCost length room ≤
      length * instructionCost length room := Nat.mul_le_mul_right _ hsize
  have hcaller : (frame.function.code.size - ip) * instructionCost length (room + 1) ≤
      left * instructionCost length (room + 1) := Nat.mul_le_mul_right _ hless
  simp only [pendingFrames, List.length_cons, hhere, hthere, hleft, Nat.sub_zero, Nat.add_mul,
    Nat.one_mul]
  have hcost : instructionCost length (room + 1) = 1 + length * instructionCost length room := rfl
  omega

/-- So does a return. -/
theorem pendingFrames_leave_lt (hinside : frame.ip < frame.function.code.size) :
    pendingFrames length maxFrames callers < pendingFrames length maxFrames (frame :: callers) :=
  Nat.lt_add_of_pos_left (Nat.mul_pos (Nat.sub_pos_of_lt hinside) (instructionCost_pos _ _))

end

/-! ### Code that moves forward -/

/-- Code of at most this length in which control only moves forward, from one of `places` to another one.
Compiled code has no loops: its jumps go forward, and repeating something takes a call. -/
structure Code.Advances (code : Code) (length : Nat) (places : Nat → Prop) : Prop where
  size_le : code.size ≤ length
  start : places 0
  inside : ∀ p, places p → p < code.size
  reads : ∀ p, places p → ∃ i : Instr,
    code.fetch p = .ok ⟨i.opcode, i.operand, p + i.size⟩ ∧
      (i.opcode.goesOn = true → places (p + i.size)) ∧
      (i.opcode.jumps = true → p < i.operand ∧ places i.operand)

/-- Does control only move forward in the code of a function? -/
def FunctionCode.Advances (length : Nat) (f : FunctionCode) : Prop :=
  ∃ places, f.code.Advances length places

/-- Is a frame at a place of code in which control only moves forward? -/
def Frame.Advances (length : Nat) (frame : Frame) : Prop :=
  ∃ places, frame.function.code.Advances length places ∧ places frame.ip

/-- The frame of a function that was entered from outside. -/
theorem FunctionCode.Advances.start {length : Nat} {f : FunctionCode} (h : f.Advances length)
    (base : Nat) : ∀ frame ∈ [(⟨f, 0, base⟩ : Frame)], frame.Advances length := by
  obtain ⟨places, hcode⟩ := h
  exact List.forall_mem_singleton.mpr ⟨places, hcode, hcode.start⟩

/-- Code that splits into a fragment and an instruction that leaves only moves control forward. -/
theorem Leaving.advances {P : Use → Prop} {code : Code} {is : List Instr} {length : Nat}
    (hsplits : code.Splits is) (hlength : code.size ≤ length) (h : Leaving P 0 is) :
    code.Advances length fun p => ∃ i, Stands 0 is p i := by
  obtain ⟨hstart, -, hgoes, height, -, hbalanced⟩ := h.closed
  refine ⟨hlength, hstart, ?_, ?_⟩
  · rintro p ⟨i, hi⟩
    have hlt := hi.lt
    rwa [Nat.zero_add, ← hsplits.size_eq] at hlt
  · rintro p ⟨i, hi⟩
    refine ⟨i, hi.fetch hsplits.holds, hgoes p i hi, fun hjumps => ?_⟩
    obtain ⟨hlt, htarget, -⟩ := hbalanced.jumps p i hi hjumps
    exact ⟨hlt, htarget⟩

/-! ### Where a step leads -/

/-- Where control gets to from an instruction of a frame: on, to where it jumps, into a function that
is known, or back to the caller. -/
inductive Moves (known : FunctionCode → Prop) (maxFrames : Nat) (i : Instr) (frame : Frame)
    (callers : List Frame) : Frame → List Frame → Prop where
  | on (goes : i.opcode.goesOn = true) :
      Moves known maxFrames i frame callers { frame with ip := frame.ip + i.size } callers
  | jump (jumps : i.opcode.jumps = true) :
      Moves known maxFrames i frame callers { frame with ip := i.operand } callers
  | enter {f : FunctionCode} {base : Nat} (goes : i.opcode.goesOn = true) (hf : known f)
      (room : callers.length + 1 < maxFrames) :
      Moves known maxFrames i frame callers ⟨f, 0, base⟩
        ({ frame with ip := frame.ip + i.size } :: callers)
  | leave {caller : Frame} {rest : List Frame} (hcallers : callers = caller :: rest) :
      Moves known maxFrames i frame callers caller rest

/-- Does a step from an instruction of a frame, if it does not end the run, move control and hold
known functions only? -/
def Action.Moves (known : FunctionCode → Prop) (maxFrames : Nat) (i : Instr) (frame : Frame)
    (callers : List Frame) : Action → Prop
  | .next m => Notebook.Moves known maxFrames i frame callers m.frame m.callers ∧
      ∀ w ∈ m.stack, w.MadeOf known
  | .assign _ v m => Notebook.Moves known maxFrames i frame callers m.frame m.callers ∧
      v.MadeOf known ∧ ∀ w ∈ m.stack, w.MadeOf known
  | .finish _ => True

namespace Machine

section

variable {known : FunctionCode → Prop} {setting : Setting} {g stack : Array Value}
variable {frame : Frame} {callers : List Frame} {v : Value} {i : Instr} {action : Action}

theorem leave_moves {next : Nat} {result : Option Value} (hstack : ∀ w ∈ stack, w.MadeOf known)
    (hv : v.MadeOf known)
    (h : leave { frame with ip := next } callers stack v result = .ok action) :
    action.Moves known setting.maxFrames i frame callers := by
  rcases madeOf_of_leave hstack hv h with rfl | ⟨m, rfl, hcallers, hleft⟩
  · trivial
  · exact ⟨.leave hcallers, hleft⟩

/-- A step moves control in one of four ways, and holds no functions that were not there before. -/
theorem step_moves (hconstants : ∀ w ∈ setting.constants, w.MadeOf known)
    (hglobals : ∀ w ∈ g, w.MadeOf known) (hstack : ∀ w ∈ stack, w.MadeOf known)
    (hfetch : frame.function.code.fetch frame.ip = .ok ⟨i.opcode, i.operand, frame.ip + i.size⟩)
    (h : step setting g ⟨frame, callers, stack⟩ = .ok action) :
    action.Moves known setting.maxFrames i frame callers := by
  rw [step_of_fetch hfetch] at h
  obtain ⟨op, operand⟩ := i
  by_cases hop : op.computes = true
  · rw [execute_of_computes hop] at h
    cases hcompute : compute setting g { frame with ip := frame.ip + Instr.size ⟨op, operand⟩ } op
        operand stack with
    | error cause =>
      rw [hcompute] at h
      cases h
    | ok after =>
      rw [hcompute] at h
      cases h
      refine ⟨.on ?_, madeOf_of_compute hconstants hglobals hstack hop hcompute⟩
      cases op <;> first | rfl | cases hop
  · -- What changes operands alone goes on, and so do assignments. Jumps, calls and returns make up the other
    -- three ways.
    cases op <;> simp only [execute] at h
    case jump =>
      cases h
      exact ⟨.jump rfl, hstack⟩
    case jumpNotTruthy =>
      obtain ⟨⟨condition, rest⟩, hpop, h⟩ := bind_eq_ok_iff.mp h
      have hrest := (madeOf_of_pop hstack hpop).2
      simp only at h
      split at h <;> cases h
      · exact ⟨.on rfl, hrest⟩
      · exact ⟨.jump rfl, hrest⟩
    case setGlobal =>
      obtain ⟨⟨w, rest⟩, hpop, h⟩ := bind_eq_ok_iff.mp h
      cases h
      obtain ⟨hw, hrest⟩ := madeOf_of_pop hstack hpop
      exact ⟨.on rfl, hw, hrest⟩
    case call =>
      obtain ⟨⟨entered, rest⟩, henter, h⟩ := bind_eq_ok_iff.mp h
      obtain ⟨hrest, hentered⟩ := madeOf_of_enter hstack henter
      cases entered with
      | none =>
        cases h
        exact ⟨.on rfl, hrest⟩
      | some called =>
        cases h
        obtain ⟨hroom, f, base, rfl, hf⟩ := hentered called rfl
        exact ⟨.enter rfl hf hroom, hrest⟩
    case returnValue =>
      obtain ⟨⟨w, rest⟩, hpop, h⟩ := bind_eq_ok_iff.mp h
      obtain ⟨hw, hrest⟩ := madeOf_of_pop hstack hpop
      exact leave_moves hrest hw h
    case ret => exact leave_moves hstack Value.madeOf_null h
    case throwValue =>
      obtain ⟨⟨w, rest⟩, -, h⟩ := bind_eq_ok_iff.mp h
      cases h
    all_goals exact absurd rfl hop

end

/-! ### Runs -/

/-- Is a machine in the middle of code that only moves forward, with no other functions at hand? -/
structure Bounded (length : Nat) (setting : Setting) (globals : Array Value) (m : Machine) :
    Prop where
  constants : ∀ v ∈ setting.constants, v.MadeOf (FunctionCode.Advances length)
  globals : ∀ v ∈ globals, v.MadeOf (FunctionCode.Advances length)
  frames : ∀ frame ∈ m.frame :: m.callers, frame.Advances length
  stack : ∀ v ∈ m.stack, v.MadeOf (FunctionCode.Advances length)

variable {length : Nat} {setting : Setting} {g : Array Value}

/-- Control moves to frames that advance, and what is pending gets less: by the instruction itself, and by as
much more as a jump skips or a return leaves. -/
theorem pending_of_moves {i : Instr} {frame frame' : Frame} {callers callers' : List Frame}
    {places : Nat → Prop} (hcode : frame.function.code.Advances length places)
    (hinside : frame.ip < frame.function.code.size)
    (hgoes : i.opcode.goesOn = true → places (frame.ip + i.size))
    (hjumps : i.opcode.jumps = true → frame.ip < i.operand ∧ places i.operand)
    (hcallers : ∀ caller ∈ callers, caller.Advances length)
    (h : Moves (FunctionCode.Advances length) setting.maxFrames i frame callers frame' callers') :
    (∀ fr ∈ frame' :: callers', fr.Advances length) ∧
      pendingFrames length setting.maxFrames (frame' :: callers') <
        pendingFrames length setting.maxFrames (frame :: callers) := by
  have hnext : frame.ip < frame.ip + i.size := Nat.lt_add_of_pos_right i.size_pos
  cases h with
  | on goes =>
    refine ⟨?_, pendingFrames_lt hinside hnext⟩
    exact List.forall_mem_cons.mpr ⟨⟨places, hcode, hgoes goes⟩, hcallers⟩
  | jump jumps =>
    obtain ⟨hlt, htarget⟩ := hjumps jumps
    refine ⟨?_, pendingFrames_lt hinside hlt⟩
    exact List.forall_mem_cons.mpr ⟨⟨places, hcode, htarget⟩, hcallers⟩
  | enter goes hf room =>
    obtain ⟨places', hcode'⟩ := hf
    refine ⟨?_, pendingFrames_enter_lt _ hcode'.size_le room hinside hnext⟩
    refine List.forall_mem_cons.mpr ⟨⟨places', hcode', hcode'.start⟩, ?_⟩
    exact List.forall_mem_cons.mpr ⟨⟨places, hcode, hgoes goes⟩, hcallers⟩
  | leave hreturn =>
    subst hreturn
    exact ⟨hcallers, pendingFrames_leave_lt hinside⟩

/-- A step keeps a machine bounded and makes less of what is pending. It is the one place where the machine's
steps are looked at; that runs end follows by induction. -/
theorem Bounded.step {g' : Array Value} {m m' : Machine} (hm : m.Bounded length setting g)
    (h : advance setting (g, m) = .inl (g', m')) :
    m'.Bounded length setting g' ∧
      m'.pending length setting.maxFrames < m.pending length setting.maxFrames := by
  obtain ⟨frame, callers, stack⟩ := m
  obtain ⟨hconstants, hglobals, hframes, hstack⟩ := hm
  obtain ⟨⟨places, hcode, hplace⟩, hcallers⟩ := List.forall_mem_cons.mp hframes
  obtain ⟨i, hfetch, hgoes, hjumps⟩ := hcode.reads _ hplace
  cases hstep : Machine.step setting g ⟨frame, callers, stack⟩ with
  | error cause =>
    simp only [advance, hstep] at h
    cases h
  | ok action =>
    have hmoves := step_moves hconstants hglobals hstack hfetch hstep
    simp only [advance, hstep] at h
    cases action with
    | next m =>
      cases h
      obtain ⟨hmoves, hstack'⟩ := hmoves
      obtain ⟨hframes', hless⟩ :=
        pending_of_moves hcode (hcode.inside _ hplace) hgoes hjumps hcallers hmoves
      exact ⟨⟨hconstants, hglobals, hframes', hstack'⟩, hless⟩
    | assign index v m =>
      cases h
      obtain ⟨hmoves, hv, hstack'⟩ := hmoves
      obtain ⟨hframes', hless⟩ :=
        pending_of_moves hcode (hcode.inside _ hplace) hgoes hjumps hcallers hmoves
      exact ⟨⟨hconstants, madeOf_of_assign hglobals hv index, hframes', hstack'⟩, hless⟩
    | finish value => cases h

/-- A bounded machine runs to its end before as many instructions are executed as are pending. -/
theorem Bounded.runs_within {m : Machine} (hm : m.Bounded length setting g) {limit : Nat}
    (hlimit : m.pending length setting.maxFrames ≤ limit) :
    ∃ ran, runWithin setting limit g m = some ran := by
  induction limit generalizing g m with
  | zero =>
    -- The active frame is inside of its code, so something is pending.
    obtain ⟨⟨places, hcode, hplace⟩, -⟩ := List.forall_mem_cons.mp hm.frames
    have hpending : pendingFrames length setting.maxFrames m.callers <
        m.pending length setting.maxFrames := pendingFrames_leave_lt (hcode.inside _ hplace)
    exact absurd (Nat.lt_of_lt_of_le hpending hlimit) (Nat.not_lt_zero _)
  | succ limit ih =>
    unfold runWithin
    cases hadvance : advance setting (g, m) with
    | inl after =>
      obtain ⟨hbounded, hless⟩ := hm.step hadvance
      exact ih hbounded (Nat.le_of_lt_succ (Nat.lt_of_lt_of_le hless hlimit))
    | inr ran => exact ⟨ran, rfl⟩

/-- A machine at the start of a function's code. -/
theorem Bounded.start_within {f : FunctionCode} {base : Nat} {stack : Array Value}
    (hm : Bounded length setting g ⟨⟨f, 0, base⟩, [], stack⟩) (hf : f.Advances length) :
    ∃ ran, runWithin setting (instructionLimit length setting.maxFrames) g
      ⟨⟨f, 0, base⟩, [], stack⟩ = some ran := by
  refine hm.runs_within ?_
  obtain ⟨places, hcode⟩ := hf
  exact Nat.mul_le_mul_right _ hcode.size_le

/-- A call of a known function ends within the limit, and so does one of anything else. -/
theorem callWithin_of_advances {callee : Value} {args : List Value}
    (hconstants : ∀ v ∈ setting.constants, v.MadeOf (FunctionCode.Advances length))
    (hglobals : ∀ v ∈ g, v.MadeOf (FunctionCode.Advances length))
    (hcallee : callee.MadeOf (FunctionCode.Advances length))
    (hargs : ∀ v ∈ args, v.MadeOf (FunctionCode.Advances length)) :
    ∃ ran, callWithin setting (instructionLimit length setting.maxFrames) g callee args =
      some ran := by
  unfold callWithin
  cases hpushed : pushAll #[] (callee :: args) with
  | error cause => exact ⟨_, rfl⟩
  | ok stack =>
    have hstack : ∀ v ∈ stack, v.MadeOf (FunctionCode.Advances length) :=
      madeOf_of_pushAll (fun v hv => absurd hv (Array.not_mem_empty v))
        (List.forall_mem_cons.mpr ⟨hcallee, hargs⟩) hpushed
    simp only
    rcases hentered : enter setting.maxFrames 0 args.length stack with cause | ⟨_ | frame, stack'⟩
    · exact ⟨_, rfl⟩
    · exact ⟨_, rfl⟩
    · obtain ⟨hstack', hframe⟩ := madeOf_of_enter hstack hentered
      obtain ⟨-, f, base, rfl, hf⟩ := hframe frame rfl
      have hbounded : Bounded length setting g ⟨⟨f, 0, base⟩, [], stack'⟩ :=
        ⟨hconstants, hglobals, hf.start base, hstack'⟩
      obtain ⟨ran, hrun⟩ := hbounded.start_within hf
      exact ⟨_, congrArg (Option.map _) hrun⟩

end Machine

/-! ### Sessions -/

/-- How long the code of a function is. -/
def Value.codeSize : Value → Nat
  | .function f => f.code.size
  | _ => 0

/-- How long the longest code among some constants is. -/
def longestCode (constants : Array Value) : Nat :=
  (constants.toList.map Value.codeSize).foldr max 0

theorem codeSize_le_longestCode {constants : Array Value} {v : Value} (h : v ∈ constants) :
    v.codeSize ≤ longestCode constants := by
  rw [← Array.mem_toList_iff] at h
  unfold longestCode
  generalize constants.toList = vs at h
  induction vs with
  | nil => cases h
  | cons first rest ih =>
    rw [List.map_cons, List.foldr_cons]
    rcases List.mem_cons.mp h with rfl | h
    · exact Nat.le_max_left _ _
    · exact Nat.le_trans (ih h) (Nat.le_max_right _ _)

/-- In the code of the functions of a world control only moves forward. -/
theorem World.Linked.advances {w : World} {length : Nat} (hw : w.Linked)
    (hlength : ∀ f, w.Known f → f.code.size ≤ length) {f : FunctionCode} (hf : w.Known f) :
    f.Advances length := by
  have hsize := hlength f hf
  obtain ⟨r, hr, rfl⟩ := hf
  obtain ⟨hlaid, -, -, huses⟩ := hw r hr
  exact ⟨_, (leaving_of_body r.body 0 huses).advances hlaid hsize⟩

namespace SessionEngine

variable {config : Config} {e : SessionEngine} {r : Record}

/-- Running a unit ends within a limit that depends on how long the code is that there is, and on how
many frames there may be. -/
theorem Sound.run_within (hs : e.Sound config r) {n : SnippetId} {p : Program} {u : CompiledUnit}
    {c' : Compiler} (hcompile : e.compiler.compiler.compile n p = (.ok u, c')) (depth : Nat) :
    ∃ ran, Machine.runWithin ⟨e.evaluator.constants ++ u.constants, depth⟩
      (instructionLimit (max u.code.size (longestCode (e.evaluator.constants ++ u.constants))) depth)
      (Store.padded e.evaluator.globals u.globals) ⟨⟨u.main, 0, 0⟩, [], #[]⟩ = some ran := by
  obtain ⟨commands, place, hcompiled⟩ := Compiler.compile_eq_ok
    (congrArg Compiler.buffer hs.inStep.idle) hs.inStep.valid hcompile r.routines
  have hconstants : e.evaluator.constants ++ u.constants =
      e.evaluator.constants ++ place.constants := by
    apply Array.ext'
    simp [hcompiled.constants]
  have hloaded := hs.linked.load hcompiled hs.inStep depth
  have hfits := hs.linked.fits_padded hcompiled hs.inStep depth
  have hcovers := covers_loaded hcompiled hs.inStep depth
  rw [hconstants]
  generalize hlength : max u.code.size (longestCode (e.evaluator.constants ++ place.constants)) =
    length
  have hknown : ∀ f, KnownAmong place.routines f → f.Advances length := by
    intro f hf
    refine hloaded.advances ?_ hf
    rintro _ ⟨r', hr', rfl⟩
    have hpooled : Value.function r'.code ∈ e.evaluator.constants ++ place.constants := by
      rcases hcompiled.leads.pooled r' hr' with hr' | hr'
      · exact Array.mem_append.mpr (.inl (hs.linked.pooled r' hr'))
      · exact Array.mem_append.mpr (.inr hr')
    rw [← hlength]
    exact Nat.le_trans (codeSize_le_longestCode hpooled) (Nat.le_max_right _ _)
  have hmain : u.main.Advances length := by
    refine ⟨_, (leaving_of_program commands 0 (hcompiled.leads.allowed _ hcovers)).advances
      hcompiled.splits ?_⟩
    rw [← hlength]
    exact Nat.le_max_left _ _
  have hbounded : Machine.Bounded length ⟨e.evaluator.constants ++ place.constants, depth⟩
      (Store.padded e.evaluator.globals u.globals) ⟨⟨u.main, 0, 0⟩, [], #[]⟩ := by
    refine ⟨fun v hv => ?_, fun v hv => (hfits.2 v hv).mono hknown, hmain.start 0,
      fun v hv => absurd hv (Array.not_mem_empty v)⟩
    rcases Array.mem_append.mp hv with hv | hv
    · exact (hs.linked.constants v hv).mono fun f hf =>
        hknown f (known_loaded hcompiled hs.inStep hf)
    · exact (constants_loaded hcompiled hs.inStep depth hv).madeOf.mono hknown
  exact hbounded.start_within hmain

/-- Every run of a session ends: that of a snippet that was compiled, and that of a function that is
called from outside, whatever it is called with. How many instructions it may execute is known from
how long the longest code is and how many frames there may be. -/
theorem Reached.ends_within (h : Reached config e r) :
    (∀ (n : SnippetId) (p : Program) (u : CompiledUnit) (c' : Compiler) (runConfig : RunConfig),
      e.compiler.compiler.compile n p = (.ok u, c') →
      let depth := min e.evaluator.maxCallDepth runConfig.maxCallDepth
      let pool := e.evaluator.constants ++ u.constants
      ∃ ran, Machine.runWithin ⟨pool, depth⟩
          (instructionLimit (max u.code.size (longestCode pool)) depth)
          (Store.padded e.evaluator.globals u.globals) ⟨⟨u.main, 0, 0⟩, [], #[]⟩ = some ran ∧
        e.evaluator.run u runConfig = e.evaluator.after u ran) ∧
      ∀ (f : Value) (args : List Value), f.isCallable = true → f.MadeOf e.Owns →
        (∀ v ∈ args, v.MadeOf e.Owns) →
        let depth := e.evaluator.maxCallDepth
        let pool := e.evaluator.constants
        ∃ ran, Machine.callWithin ⟨pool, depth⟩ (instructionLimit (longestCode pool) depth)
            e.evaluator.globals f args = some ran ∧
          e.evaluator.call f args = (ran.result, { e.evaluator with globals := ran.globals }) := by
  obtain ⟨hs, -⟩ := h.sound
  constructor
  · intro n p u c' runConfig hcompile depth pool
    obtain ⟨ran, hwithin⟩ := hs.run_within hcompile depth
    obtain ⟨ran', -, hends, hrun⟩ := hs.run_eq_after hcompile runConfig
    obtain rfl : ran = ran' :=
      (Machine.run_of_runWithin hwithin).symm.trans (Machine.run_of_ends hends)
    exact ⟨ran, hwithin, hrun⟩
  · intro f args hcallable hf hargs depth pool
    have hknown : ∀ f, e.Owns f → f.Advances (longestCode pool) := by
      intro f hf
      refine (hs.linked.world depth).advances ?_ ((hs.owns_iff f).mp hf)
      intro f hf
      exact codeSize_le_longestCode ((hs.owns_iff f).mpr hf)
    obtain ⟨ran, hwithin⟩ : ∃ ran, Machine.callWithin ⟨pool, depth⟩
        (instructionLimit (longestCode pool) depth) e.evaluator.globals f args = some ran :=
      Machine.callWithin_of_advances
        (fun v hv => (hs.owned (hs.linked.constants v hv)).mono hknown)
        (fun v hv => (hs.owned (hs.linked.globals v hv)).mono hknown)
        (hf.mono hknown) (fun v hv => (hargs v hv).mono hknown)
    refine ⟨ran, hwithin, ?_⟩
    have hran : Machine.call ⟨e.evaluator.constants, e.evaluator.maxCallDepth⟩
        e.evaluator.globals f args = ran := Machine.call_of_callWithin hwithin
    unfold Store.call
    simp only [if_pos hcallable, hran]

/-- A function that only calls itself, with room for three frames, and a function that calls what it is
given, called with itself. -/
theorem evaluated_ends_within :
    let e := SessionEngine.new { maxCallDepth := 3 }
    let p : Program := [.letIn "f" (.function ["n"] [.expr (.call (.ident "f") [.ident "n"])]),
      .expr (.call (.ident "f") [.int 1])]
    let e' := (Engine.evalObserving parts (fun _ e => ((), e)) "fn(a) \x7b a(a) \x7d" e).2
    (∃ u ran, (e.compiler.compiler.compile 0 p).1 = .ok u ∧
      Machine.runWithin ⟨u.constants.toArray, 3⟩
        (instructionLimit (max u.code.size (longestCode u.constants.toArray)) 3)
        (Store.padded #[] u.globals) ⟨⟨u.main, 0, 0⟩, [], #[]⟩ = some ran ∧
      e.evaluator.run u ⟨0, 3⟩ = e.evaluator.after u ran) ∧
    ∃ f ran, f.type = .function ∧
      Machine.callWithin ⟨e'.evaluator.constants, e'.evaluator.maxCallDepth⟩
        (instructionLimit (longestCode e'.evaluator.constants) e'.evaluator.maxCallDepth)
        e'.evaluator.globals f [f] = some ran ∧
      e'.evaluator.call f [f] = (ran.result, { e'.evaluator with globals := ran.globals }) := by
  intro e p e'
  have hnew : Reached { maxCallDepth := 3 } e {} := .new
  constructor
  · have hcompiles : (e.compiler.compiler.compile 0 p).1.toOption.isSome = true := by decide +kernel
    rcases hcompile : e.compiler.compiler.compile 0 p with ⟨cause | u, c'⟩
    · rw [hcompile] at hcompiles
      cases hcompiles
    · obtain ⟨ran, hwithin, hrun⟩ := hnew.ends_within.1 0 p u c' ⟨0, 3⟩ hcompile
      have hpool : e.evaluator.constants ++ u.constants = u.constants.toArray :=
        Array.ext' (by simp [e, SessionEngine.new, Engine.setWriting])
      rw [hpool] at hwithin
      exact ⟨u, ran, rfl, hwithin, hrun⟩
  · have htypes : (e.started.foreseen [] 0 "fn(a) \x7b a(a) \x7d").map (·.map Value.type) =
        some (some .function) := by decide +kernel
    obtain ⟨value, hforeseen, htype⟩ := Option.map_eq_some_iff.mp htypes
    obtain ⟨f, rfl, hf⟩ := Option.map_eq_some_iff.mp htype
    obtain ⟨evaluation, hresult, hvalue⟩ := (Sound.new { maxCallDepth := 3 }).ok_of_foreseen
      (fun _ e => ((), e)) rfl (fun _ _ => rfl) hforeseen
    obtain ⟨-, howned⟩ := (Sound.new { maxCallDepth := 3 }).evaluated_owns (fun _ e => ((), e)) rfl
      "fn(a) \x7b a(a) \x7d" .refl
    have hmade := howned evaluation hresult
    rw [hvalue] at hmade
    have hcallable : f.isCallable = true := by
      cases f with
      | function f => rfl
      | _ => cases hf
    have hreached := hnew.evaluated (fun _ e => ((), e)) "fn(a) \x7b a(a) \x7d" .refl
    obtain ⟨ran, hwithin, hcall⟩ :=
      hreached.ends_within.2 f [f] hcallable hmade (List.forall_mem_singleton.mpr hmade)
    exact ⟨f, ran, hf, hwithin, hcall⟩

end SessionEngine

end Notebook
