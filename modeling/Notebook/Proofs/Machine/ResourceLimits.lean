import Notebook.Proofs.Machine.FrameRoom

/-!
The limits of the machine, for any code whatsoever.

`Machine.Free` is the machine with neither a limit on its operands nor one on its frames. Whatever code, pool and
globals there are, the machine does what the free one does as long as that is within the limits
(`Machine.Within`), and fails with the limit's own error where it is not (`Action.check`).

* `Machine.step_eq_check`: a step within the limits is a free step, checked.
* `Machine.Within.reaches`: so a run that starts within the limits stays within them.
* `Machine.limits_hold`: that is how every run of code and every call of a value goes on.
-/

namespace Notebook.Machine

/-! ### A machine without limits -/

namespace Free

/-- The operands after an instruction that changes them alone. What it puts there is put there in any case. -/
def compute (setting : Setting) (globals : Array Value) (frame : Frame) (op : Opcode)
    (operand : Nat) (stack : Array Value) : Except RunError (Array Value) :=
  match op with
  | .constant =>
    let index := frame.function.constantsOffset + operand
    match setting.constants[index]? with
    | some v => .ok (stack.push v)
    | none => .error (.constantNotLoaded index)
  | .add | .sub | .mul | .div | .equal | .notEqual | .greaterThan => do
    let (right, stack) ← pop stack
    let (left, stack) ← pop stack
    let v ← binary op left right
    .ok (stack.push v)
  | .pushTrue => .ok (stack.push (.bool true))
  | .pushFalse => .ok (stack.push (.bool false))
  | .pushNull => .ok (stack.push .null)
  | .minus => do
    let (v, stack) ← pop stack
    match v with
    | .int n => do
      let negated ← checked (-n.toInt)
      .ok (stack.push negated)
    | v => .error (.negation v.type)
  | .bang => do
    let (v, stack) ← pop stack
    .ok (stack.push (.bool !v.isTruthy))
  | .getGlobal =>
    match globals[operand]? with
    | some v => .ok (stack.push v)
    | none => .error (.globalNotDefined operand)
  | .getLocal =>
    match stack[frame.base + operand]? with
    | some v => .ok (stack.push v)
    | none => .error (.localOutOfRange operand)
  | .getBuiltin =>
    match Builtin.ofIndex? operand with
    | some b => .ok (stack.push (.builtin b))
    | none => .error (.builtinUnknown operand)
  | .array =>
    if operand ≤ stack.size then
      let start := stack.size - operand
      .ok ((stack.shrink start).push (.array (stack.extract start stack.size).toList))
    else .error .stackUnderflow
  | .index => do
    let (position, stack) ← pop stack
    let (collection, stack) ← pop stack
    let v ← element collection position
    .ok (stack.push v)
  | op => Machine.compute setting globals frame op operand stack

/-- Calls the operand below the topmost `args` ones, however many frames and locals that takes. -/
def enter (args : Nat) (stack : Array Value) : Except RunError (Option Frame × Array Value) :=
  if stack.size < args + 1 then .error .stackUnderflow
  else
    let callee := stack.size - (args + 1)
    match stack[callee]? with
    | some (.function f) =>
      if args ≠ f.params then .error (.arity f.params args)
      else .ok (some ⟨f, 0, callee + 1⟩, resize stack (callee + 1 + f.locals))
    | some (.builtin b) =>
      match b.apply (stack.extract (callee + 1) stack.size).toList with
      | .ok v => .ok (none, (stack.shrink callee).push v)
      | .error cause => .error (.builtin cause)
    | some v => .error (.calling v.type)
    | none => .error .stackUnderflow

def leave (frame : Frame) (callers : List Frame) (stack : Array Value) (value : Value)
    (result : Option Value) : Action :=
  match callers with
  | [] => .finish result
  | caller :: callers => .next ⟨caller, callers, (stack.shrink (frame.base - 1)).push value⟩

/-- Carries out an instruction of `frame`, whose `ip` is already past it. -/
def execute (setting : Setting) (globals : Array Value) (op : Opcode) (operand : Nat)
    (frame : Frame) (callers : List Frame) (stack : Array Value) : Except RunError Action :=
  match op with
  | .call => do
    let (entered, stack) ← enter operand stack
    match entered with
    | some called => .ok (.next ⟨called, frame :: callers, stack⟩)
    | none => .ok (.next ⟨frame, callers, stack⟩)
  | .returnValue => do
    let (v, stack) ← pop stack
    .ok (leave frame callers stack v (some v))
  | .ret => .ok (leave frame callers stack .null none)
  | .jump | .jumpNotTruthy | .setGlobal | .throwValue =>
    Machine.execute setting globals op operand frame callers stack
  | op => do
    let stack ← compute setting globals frame op operand stack
    .ok (.next ⟨frame, callers, stack⟩)

def step (setting : Setting) (globals : Array Value) : Machine → Except RunError Action
  | ⟨frame, callers, stack⟩ =>
    match frame.function.code.fetch frame.ip with
    | .error cause => .error (.fetch cause)
    | .ok instruction =>
      execute setting globals instruction.opcode instruction.operand
        { frame with ip := instruction.next } callers stack

end Free

/-! ### Limits -/

/-- Operands that are not too many. The free machine puts down as many as it likes, and this is asked
afterwards. -/
def fit (stack : Array Value) : Except RunError (Array Value) :=
  if stackLimit < stack.size then .error .stackOverflow else .ok stack

/-- A machine that is within the limits. The outermost frame is there in any case. -/
def check (setting : Setting) (m : Machine) : Except RunError Machine :=
  if max 1 setting.maxFrames < m.depth then .error (.callDepth setting.maxFrames)
  else if stackLimit < m.stack.size then .error .stackOverflow
  else .ok m

/-- Is a machine within the limits? -/
structure Within (setting : Setting) (m : Machine) : Prop where
  operands : m.stack.size ≤ stackLimit
  frames : m.depth ≤ max 1 setting.maxFrames

end Machine

/-- What an instruction leads to, if the machine there is within the limits. The end of a run needs no room. -/
def Action.check (setting : Setting) : Action → Except RunError Action
  | .next m => do
    let m ← m.check setting
    .ok (.next m)
  | .assign index v m => do
    let m ← m.check setting
    .ok (.assign index v m)
  | .finish value => .ok (.finish value)

namespace Machine

section

variable {setting : Setting} {g g' : Array Value} {stack : Array Value} {m m' : Machine}

theorem push_eq_fit (stack : Array Value) (v : Value) : push stack v = fit (stack.push v) := by
  unfold push fit
  rw [Array.size_push]
  by_cases hroom : stack.size < stackLimit
  · rw [if_pos hroom, if_neg (by omega)]
  · rw [if_neg hroom, if_pos (by omega)]

theorem fit_of_le (h : stack.size ≤ stackLimit) : fit stack = .ok stack :=
  if_neg (Nat.not_lt.mpr h)

@[simp] theorem size_resize (stack : Array Value) (n : Nat) : (resize stack n).size = n := by
  unfold resize
  split
  · rw [Array.size_shrink]
    omega
  · rw [Array.size_append, Array.size_replicate]
    omega

/-- What is checked in the end may be checked where the computation goes on. -/
theorem bind_then {ε α β γ : Type} {x : Except ε α} {f : α → Except ε γ} {f' : α → Except ε β}
    {last : β → Except ε γ} (h : ∀ a, x = .ok a → f a = f' a >>= last) : (x >>= f) = (x >>= f') >>= last := by
  cases x with
  | error error => rfl
  | ok a => exact h a rfl

/-- What an instruction puts among the operands has to fit there. The limit is met in no other way than by one
value too many, so it may as well be checked at the end. -/
theorem compute_eq_fit (hstack : stack.size ≤ stackLimit) (frame : Frame) (op : Opcode) (operand : Nat) :
    compute setting g frame op operand stack = Free.compute setting g frame op operand stack >>= fit := by
  have hpush : ∀ (stack : Array Value) (v : Value), push stack v = Except.ok (stack.push v) >>= fit :=
    push_eq_fit
  unfold compute Free.compute
  -- Values are pushed last, so the check after a push is the check at the end. What pops and pushes nothing
  -- cannot exceed the limit.
  cases op with
  | constant =>
    dsimp only
    cases setting.constants[frame.function.constantsOffset + operand]? with
    | some v => exact hpush _ _
    | none => rfl
  | getGlobal =>
    dsimp only
    cases g[operand]? with
    | some v => exact hpush _ _
    | none => rfl
  | getLocal =>
    dsimp only
    cases stack[frame.base + operand]? with
    | some v => exact hpush _ _
    | none => rfl
  | getBuiltin =>
    dsimp only
    cases Builtin.ofIndex? operand with
    | some b => exact hpush _ _
    | none => rfl
  | add | sub | mul | div | equal | notEqual | greaterThan =>
    exact bind_then fun _ _ => bind_then fun _ _ => bind_then fun _ _ => hpush _ _
  | index => exact bind_then fun _ _ => bind_then fun _ _ => bind_then fun _ _ => hpush _ _
  | pushTrue | pushFalse | pushNull => exact hpush _ _
  | minus =>
    refine bind_then ?_
    rintro ⟨v, rest⟩ -
    cases v with
    | int n => exact bind_then fun _ _ => hpush _ _
    | _ => rfl
  | bang => exact bind_then fun _ _ => hpush _ _
  | array =>
    dsimp only
    split
    · exact hpush _ _
    · rfl
  | pop =>
    refine bind_then ?_
    rintro ⟨v, rest⟩ hpop
    have hsize := size_of_pop hpop
    exact (fit_of_le (by omega)).symm
  | setLocal =>
    refine bind_then ?_
    rintro ⟨v, rest⟩ hpop
    have hsize := size_of_pop hpop
    dsimp only
    split
    · refine (fit_of_le ?_).symm
      rw [Array.size_setIfInBounds]
      omega
    · rfl
  | jumpNotTruthy | jump | setGlobal | call | returnValue | ret | throwValue => exact (fit_of_le hstack).symm

/-- What a call leads to, if there is room for it. Frames are counted before locals, so that a call that exceeds
both limits fails for want of a frame. -/
def permit (maxFrames depth : Nat) : Option Frame × Array Value → Except RunError (Option Frame × Array Value)
  | (some called, stack) =>
    if maxFrames ≤ depth then .error (.callDepth maxFrames)
    else if stackLimit < stack.size then .error .stackOverflow
    else .ok (some called, stack)
  | (none, stack) => .ok (none, stack)

/-- A function that is called needs a frame and room for its locals. The value of a builtin takes the place of
the builtin. -/
theorem enter_eq_permit (hstack : stack.size ≤ stackLimit) (maxFrames depth args : Nat) :
    enter maxFrames depth args stack = Free.enter args stack >>= permit maxFrames depth := by
  unfold enter Free.enter
  by_cases hsize : stack.size < args + 1
  · rw [if_pos hsize, if_pos hsize]
    rfl
  rw [if_neg hsize, if_neg hsize]
  dsimp only
  cases stack[stack.size - (args + 1)]? with
  | none => rfl
  | some callee =>
    cases callee with
    | function f =>
      dsimp only
      by_cases harity : args ≠ f.params
      · rw [if_pos harity, if_pos harity]
        rfl
      · rw [if_neg harity, if_neg harity]
        show _ = permit maxFrames depth (some _, _)
        simp only [permit, size_resize]
    | builtin b =>
      dsimp only
      cases b.apply (stack.extract (stack.size - (args + 1) + 1) stack.size).toList with
      | error cause => rfl
      | ok v =>
        dsimp only
        rw [push_eq_fit, fit_of_le]
        · rfl
        · rw [Array.size_push, Array.size_shrink]
          omega
    | _ => rfl

theorem check_of_within (h : m.Within setting) : m.check setting = .ok m := by
  unfold check
  rw [if_neg (Nat.not_lt.mpr h.frames), if_neg (Nat.not_lt.mpr h.operands)]

theorem within_of_check (h : m.check setting = .ok m') : m' = m ∧ m.Within setting := by
  unfold check at h
  split at h
  · cases h
  · split at h
    · cases h
    · cases h
      exact ⟨rfl, Nat.not_lt.mp ‹_›, Nat.not_lt.mp ‹_›⟩

variable {frame : Frame} {callers : List Frame}

/-- Where the frame is within the limits, the operands have to be. -/
theorem check_of_frames (hframes : callers.length + 1 ≤ max 1 setting.maxFrames) (stack : Array Value) :
    Action.check setting (.next ⟨frame, callers, stack⟩) =
      (fit stack >>= fun stack => .ok (.next ⟨frame, callers, stack⟩)) := by
  have hdepth : ¬ max 1 setting.maxFrames < (Machine.mk frame callers stack).depth := Nat.not_lt.mpr hframes
  unfold Action.check check fit
  dsimp only
  rw [if_neg hdepth]
  split <;> rfl

theorem leave_eq_check (hframes : callers.length + 1 ≤ max 1 setting.maxFrames) (value : Value)
    (result : Option Value) :
    leave frame callers stack value result =
      Action.check setting (Free.leave frame callers stack value result) := by
  cases callers with
  | nil => rfl
  | cons caller callers =>
    rw [List.length_cons] at hframes
    unfold leave Free.leave
    dsimp only
    rw [push_eq_fit, check_of_frames (by omega)]

theorem Free.size_of_enter {rest : Array Value} {args : Nat} (h : Free.enter args stack = .ok (none, rest)) :
    rest.size ≤ stack.size := by
  unfold Free.enter at h
  split at h
  · cases h
  · dsimp only at h
    split at h
    · split at h <;> cases h
    · split at h
      · cases h
        rw [Array.size_push, Array.size_shrink]
        omega
      · cases h
    · cases h
    · cases h

/-- A function that is called becomes the innermost frame, so either the limit on frames is kept or the call is
refused. -/
theorem permit_eq_check {called : Frame} {next : Option Frame × Array Value → Except RunError Action}
    (hnext : next (some called, stack) = .ok (.next ⟨called, frame :: callers, stack⟩)) :
    (permit setting.maxFrames (callers.length + 1) (some called, stack) >>= next) =
      Action.check setting (.next ⟨called, frame :: callers, stack⟩) := by
  have hlimit : setting.maxFrames ≤ callers.length + 1 ↔
      max 1 setting.maxFrames < (Machine.mk called (frame :: callers) stack).depth := by
    rw [Machine.depth, List.length_cons]
    omega
  unfold permit Action.check check
  dsimp only
  by_cases hroom : setting.maxFrames ≤ callers.length + 1
  · rw [if_pos hroom, if_pos (hlimit.mp hroom)]
    rfl
  · rw [if_neg hroom, if_neg (fun h => hroom (hlimit.mpr h))]
    split
    · rfl
    · exact hnext

/-- Whatever an instruction leads to within the limits it leads to without them, and otherwise it fails. -/
theorem execute_eq_check (hstack : stack.size ≤ stackLimit)
    (hframes : callers.length + 1 ≤ max 1 setting.maxFrames) (op : Opcode) (operand : Nat) :
    execute setting g op operand frame callers stack =
      Free.execute setting g op operand frame callers stack >>= Action.check setting := by
  have hkept : ∀ (frame : Frame) {rest : Array Value}, rest.size ≤ stackLimit →
      Action.check setting (.next ⟨frame, callers, rest⟩) = .ok (.next ⟨frame, callers, rest⟩) := by
    intro frame rest hrest
    rw [check_of_frames hframes, fit_of_le hrest]
    rfl
  have hpopped : ∀ {v : Value} {rest : Array Value}, pop stack = .ok (v, rest) → rest.size ≤ stackLimit := by
    intro v rest hpop
    have hsize := size_of_pop hpop
    omega
  by_cases hcomputes : op.computes = true
  · have hfree : Free.execute setting g op operand frame callers stack =
        (Free.compute setting g frame op operand stack >>= fun stack => .ok (.next ⟨frame, callers, stack⟩)) := by
      cases op <;> first | rfl | cases hcomputes
    rw [execute_of_computes hcomputes, hfree, compute_eq_fit hstack]
    cases Free.compute setting g frame op operand stack with
    | error error => rfl
    | ok rest =>
      refine Eq.trans ?_ (check_of_frames hframes rest).symm
      show Except.map _ (fit rest) = _
      cases fit rest <;> rfl
  unfold Free.execute execute
  cases op with
  | jump => exact (hkept _ hstack).symm
  | jumpNotTruthy =>
    refine bind_then ?_
    rintro ⟨condition, rest⟩ hpop
    dsimp only
    split <;> exact (hkept _ (hpopped hpop)).symm
  | setGlobal =>
    refine bind_then ?_
    rintro ⟨v, rest⟩ hpop
    have hwithin : (Machine.mk frame callers rest).Within setting := ⟨hpopped hpop, hframes⟩
    show _ = Action.check setting (.assign operand v ⟨frame, callers, rest⟩)
    rw [Action.check, check_of_within hwithin]
    rfl
  | call =>
    dsimp only
    rw [enter_eq_permit hstack, bind_assoc]
    refine bind_then ?_
    rintro ⟨_ | called, rest⟩ hentered
    · exact (hkept frame (Nat.le_trans (Free.size_of_enter hentered) hstack)).symm
    · exact permit_eq_check rfl
  | returnValue =>
    refine bind_then ?_
    rintro ⟨v, rest⟩ hpop
    exact leave_eq_check hframes v (some v)
  | ret => exact leave_eq_check hframes .null none
  | throwValue =>
    refine bind_then ?_
    rintro ⟨v, rest⟩ hpop
    rfl
  | _ => exact absurd rfl hcomputes

/-- A step within the limits is a free step, unless that leaves them: then it fails. -/
theorem step_eq_check (h : m.Within setting) :
    step setting g m = Free.step setting g m >>= Action.check setting := by
  obtain ⟨frame, callers, stack⟩ := m
  unfold step Free.step
  dsimp only
  cases frame.function.code.fetch frame.ip with
  | error cause => rfl
  | ok i => exact execute_eq_check h.operands h.frames _ _

/-! ### Runs -/

/-- A check changes nothing. -/
theorem eq_of_check {action action' : Action} (h : action.check setting = .ok action') : action' = action := by
  cases action with
  | next m =>
    obtain ⟨m', hchecked, hsame⟩ := bind_eq_ok_iff.mp h
    cases hsame
    rw [(within_of_check hchecked).1]
  | assign index v m =>
    obtain ⟨m', hchecked, hsame⟩ := bind_eq_ok_iff.mp h
    cases hsame
    rw [(within_of_check hchecked).1]
  | finish value =>
    cases h
    rfl

/-- What a step leads to has been checked. -/
theorem Within.checked (h : m.Within setting) {action : Action} (hstep : step setting g m = .ok action) :
    action.check setting = .ok action := by
  rw [step_eq_check h] at hstep
  obtain ⟨action', -, hcheck⟩ := bind_eq_ok_iff.mp hstep
  obtain rfl := eq_of_check hcheck
  exact hcheck

/-- A run that starts within the limits stays within them. -/
theorem Within.reaches (h : m.Within setting) (hreach : Reaches setting g m g' m') : m'.Within setting := by
  induction hreach with
  | refl => exact h
  | next hstep _ ih =>
    obtain ⟨m₁, hchecked, -⟩ := bind_eq_ok_iff.mp (h.checked hstep)
    obtain ⟨-, hwithin⟩ := within_of_check hchecked
    exact ih hwithin
  | assign hstep _ ih =>
    obtain ⟨m₁, hchecked, -⟩ := bind_eq_ok_iff.mp (h.checked hstep)
    obtain ⟨-, hwithin⟩ := within_of_check hchecked
    exact ih hwithin

/-- Is a run kept within the limits? It is within them after every instruction, each instruction does what it
does without limits and is checked then, and where it leads beyond a limit the run ends with the error of that
limit. -/
structure Keeps (setting : Setting) (g : Array Value) (m : Machine) : Prop where
  operands {g' : Array Value} {m' : Machine} : Reaches setting g m g' m' → m'.stack.size ≤ stackLimit
  frames {g' : Array Value} {m' : Machine} : Reaches setting g m g' m' → m'.depth ≤ max 1 setting.maxFrames
  steps {g' : Array Value} {m' : Machine} : Reaches setting g m g' m' →
    step setting g' m' = Free.step setting g' m' >>= Action.check setting
  beyond {g' : Array Value} {m' : Machine} {action : Action} {cause : RunError} : Reaches setting g m g' m' →
    Free.step setting g' m' = .ok action → action.check setting = .error cause →
    run setting g m = ⟨.error cause, g'⟩

theorem Within.keeps (h : m.Within setting) : Keeps setting g m where
  operands hreach := (h.reaches hreach).operands
  frames hreach := (h.reaches hreach).frames
  steps hreach := step_eq_check (h.reaches hreach)
  beyond {g' m' action cause} hreach hfree hcheck := by
    have hfails : step setting g' m' = .error cause := by
      rw [step_eq_check (h.reaches hreach), hfree]
      exact hcheck
    exact run_of_ends (Fails.ends ⟨m', hreach, hfails⟩)

/-- Is a call from outside kept within the limits? What it calls and the arguments are put among the operands one
by one, for as long as there is room. If the function then needs more frames or operands than there may be, the
call ends with the error of that limit, and otherwise its run is kept within the limits. -/
structure KeepsCall (setting : Setting) (g : Array Value) (callee : Value) (args : List Value) : Prop where
  pushed {given : List Value} {stack : Array Value} :
    given <+: callee :: args → pushAll #[] given = .ok stack → stack.size ≤ stackLimit
  crowded : stackLimit < args.length + 1 → call setting g callee args = ⟨.error .stackOverflow, g⟩
  builtin {stack : Array Value} : args.length + 1 ≤ stackLimit →
    Free.enter args.length (Machine.operands #[] callee args) = .ok (none, stack) → stack.size ≤ stackLimit
  beyond {entered : Option Frame × Array Value} {cause : RunError} : args.length + 1 ≤ stackLimit →
    Free.enter args.length (Machine.operands #[] callee args) = .ok entered →
    permit setting.maxFrames 0 entered = .error cause → call setting g callee args = ⟨.error cause, g⟩
  inside {frame : Frame} {stack : Array Value} : args.length + 1 ≤ stackLimit →
    Free.enter args.length (Machine.operands #[] callee args) = .ok (some frame, stack) →
    permit setting.maxFrames 0 (some frame, stack) = .ok (some frame, stack) →
    Keeps setting g ⟨frame, [], stack⟩ ∧
      call setting g callee args =
        ⟨(run setting g ⟨frame, [], stack⟩).result.map (·.getD .null), (run setting g ⟨frame, [], stack⟩).globals⟩

theorem keepsCall (setting : Setting) (g : Array Value) (callee : Value) (args : List Value) :
    KeepsCall setting g callee args := by
  have hpushAll := fun given : List Value => pushAll_eq #[] given (Nat.zero_le _)
  have hsize : (Machine.operands #[] callee args).size = args.length + 1 := by
    rw [size_operands, Array.size_empty]
    omega
  have henter : args.length + 1 ≤ stackLimit → ∀ {entered},
      Free.enter args.length (Machine.operands #[] callee args) = .ok entered →
      enter setting.maxFrames 0 args.length (Machine.operands #[] callee args) =
        permit setting.maxFrames 0 entered := by
    intro hroom entered hfree
    rw [enter_eq_permit (by omega), hfree]
    rfl
  refine ⟨?_, ?_, ?_, ?_, ?_⟩
  · intro given stack _ hpush
    rw [hpushAll] at hpush
    split at hpush
    · rename_i hroom
      cases hpush
      rw [Array.size_append, List.size_toArray]
      exact hroom
    · cases hpush
  · intro hcrowded
    have hpush := hpushAll (callee :: args)
    rw [Array.size_empty, Nat.zero_add, List.length_cons, if_neg (Nat.not_le.mpr hcrowded)] at hpush
    unfold call
    rw [hpush]
  · intro stack hroom hfree
    have hless := Free.size_of_enter hfree
    omega
  · intro entered cause hroom hfree hpermit
    exact call_of_refused hroom ((henter hroom hfree).trans hpermit)
  · intro frame stack hroom hfree hpermit
    have hstack : stack.size ≤ stackLimit ∧ 0 < setting.maxFrames := by
      unfold permit at hpermit
      dsimp only at hpermit
      split at hpermit
      · cases hpermit
      · split at hpermit
        · cases hpermit
        · omega
    have hwithin : (Machine.mk frame [] stack).Within setting := ⟨hstack.1, Nat.le_max_left _ _⟩
    refine ⟨hwithin.keeps, ?_⟩
    unfold call
    rw [pushAll_operands hroom]
    simp only [henter hroom hfree, hpermit]

/-- For any pool, globals and number of frames, any code and any value that is called: there are never more than
2048 operands, nor more frames than there may be beside the outermost one, and whatever exceeds a limit ends the
run with an error instead. -/
theorem limits_hold (setting : Setting) (g : Array Value) :
    (∀ main : FunctionCode, Keeps setting g ⟨⟨main, 0, 0⟩, [], #[]⟩) ∧
    ∀ (callee : Value) (args : List Value), KeepsCall setting g callee args := by
  refine ⟨fun main => ?_, keepsCall setting g⟩
  have hwithin : (Machine.mk ⟨main, 0, 0⟩ [] #[]).Within setting :=
    ⟨Nat.zero_le _, Nat.le_max_left _ _⟩
  exact hwithin.keeps

/-- Code that pushes a null and jumps back to its start, and a function with more locals than there may be
operands: both end with an error, the first one after 2048 rounds. -/
theorem pushing_ends_at_limit :
    let main : FunctionCode := ⟨⟨#[15, 14, 0, 0]⟩, 0, 0, 0⟩
    let large : FunctionCode := ⟨⟨#[22]⟩, 0, 4294967295, 0⟩
    let setting : Setting := ⟨#[], 1⟩
    run setting #[] ⟨⟨main, 0, 0⟩, [], #[]⟩ = ⟨.error .stackOverflow, #[]⟩ ∧
      call setting #[] (.function large) [] = ⟨.error .stackOverflow, #[]⟩ := by
  intro main large setting
  have hpush : ∀ stack, step setting #[] ⟨⟨main, 0, 0⟩, [], stack⟩ =
      (push stack .null >>= fun stack => .ok (.next ⟨⟨main, 1, 0⟩, [], stack⟩)) := fun _ => rfl
  have hfree : ∀ stack, Free.step setting #[] ⟨⟨main, 0, 0⟩, [], stack⟩ =
      .ok (.next ⟨⟨main, 1, 0⟩, [], stack.push .null⟩) := fun _ => rfl
  have hfetch : main.code.fetch 1 = .ok ⟨.jump, 0, 4⟩ := by decide
  have hjump : ∀ stack, step setting #[] ⟨⟨main, 1, 0⟩, [], stack⟩ =
      .ok (.next ⟨⟨main, 0, 0⟩, [], stack⟩) := by
    intro stack
    simp only [step, hfetch]
    rfl
  have hrounds : ∀ n ≤ stackLimit, ∃ stack, stack.size = n ∧
      Reaches setting #[] ⟨⟨main, 0, 0⟩, [], #[]⟩ #[] ⟨⟨main, 0, 0⟩, [], stack⟩ := by
    intro n hn
    induction n with
    | zero => exact ⟨#[], rfl, .refl⟩
    | succ n ih =>
      obtain ⟨stack, hsize, hreach⟩ := ih (Nat.le_of_succ_le hn)
      have hround := hpush stack
      rw [push_of_lt (hsize ▸ hn)] at hround
      exact ⟨stack.push .null, by rw [Array.size_push, hsize], hreach.trans (.next hround (.single (hjump _)))⟩
  obtain ⟨hcode, hcalls⟩ := limits_hold setting #[]
  obtain ⟨stack, hsize, hreach⟩ := hrounds stackLimit (Nat.le_refl _)
  refine ⟨(hcode main).beyond hreach (hfree stack) ?_, ?_⟩
  · have hover : stackLimit < (stack.push .null).size := by
      rw [Array.size_push, hsize]
      exact Nat.lt_succ_self _
    rw [check_of_frames (by decide), fit, if_pos hover]
    rfl
  · have hentered : Free.enter 0 (Machine.operands #[] (.function large) []) =
        .ok (some ⟨large, 0, 1⟩, resize (Machine.operands #[] (.function large) []) (1 + large.locals)) := rfl
    refine (hcalls (.function large) []).beyond (by decide) hentered ?_
    have hover : stackLimit < (resize (Machine.operands #[] (.function large) []) (1 + large.locals)).size := by
      rw [size_resize]
      decide
    rw [permit, if_neg (by decide), if_pos hover]

end

end Machine

end Notebook
