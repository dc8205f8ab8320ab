import Notebook.Proofs.Machine.CodeFollowing

/-!
The code of a resolved program does what the evaluator says.

The layout of a term follows its evaluation (`eval_follows`), and likewise for terms in order,
commands and blocks, wherever it stands in the code of a function that is being called. What the
calls of other functions come to is an assumption here (`World.CallsFollow`), of calls that are one
frame deeper. So the induction on terms is apart from the one on frames, which discharges the
assumption (`Notebook.Proofs.Machine.FunctionCalls`).

* `apply_follows`: a call instruction, whatever it is that is called.
* `follows_cond`: a conditional, whose jumps are the only ones that a compiler emits.
* `assignGlobal_follows`, `assignOwn_follows`: assignments, which stay inside of what the activation
  has slots for.
* `eval_follows`: terms, by cases of what they are. Each case puts together what its instructions do.
-/

namespace Notebook

open Semantics (Exec State Calls eval evalAll perform evalBlock evalBody evalProgram keep settle look)

/-- The activation of a function that was called above the operands `under`. -/
def World.activation (w : World) (f : FunctionCode) (under : Array Value) (callers : List Frame)
    (globals : Array Value) : Activation :=
  ⟨w, f, callers, under.push (.function f), false, globals⟩

/-- Does the machine go on as a call ended, from entering the function above `under`? Calls leave the globals
alone. One that fails may be refused when it is entered, or fail later. -/
def World.CallGoesOn (w : World) (callers : List Frame) (f : FunctionCode) (args : List Value)
    (under globals : Array Value) : Ran Value → Prop
  | ⟨.ok v, globals'⟩ => globals' = globals ∧ v.MadeOf w.Known ∧
      ∃ frame stack result, Machine.enter w.setting.maxFrames callers.length args.length
          (Machine.operands under (.function f) args) = .ok (some frame, stack) ∧
        result.getD .null = v ∧
        (w.activation f under callers globals).Returns globals ⟨frame, callers, stack⟩ result globals
  | ⟨.error error, globals'⟩ => globals' = globals ∧ error.isOrdinary = true ∧
      (Machine.enter w.setting.maxFrames callers.length args.length
          (Machine.operands under (.function f) args) = .error error ∨
        ∃ frame stack, Machine.enter w.setting.maxFrames callers.length args.length
            (Machine.operands under (.function f) args) = .ok (some frame, stack) ∧
          Machine.Fails w.setting globals ⟨frame, callers, stack⟩ error globals)

/-- Do calls come to what they are said to, with so many frames in progress? It is for any callers and any
operands below, so that it can be used wherever a call stands. -/
def World.CallsFollow (w : World) (depth : Nat) (calls : Calls) : Prop :=
  ∀ (callers : List Frame) (f : FunctionCode) (args : List Value) (under globals : Array Value),
    callers.length = depth → w.Known f → args.length = f.params →
    (∀ v ∈ args, v.MadeOf w.Known) → w.Fits globals →
    w.CallGoesOn callers f args under globals (calls f args under.size globals)

namespace Activation

/-- The bounds of the code of an activation. -/
def bounds (a : Activation) : Bounds := a.world.bounds a.function a.top

variable {a : Activation} {calls : Calls} {ip : Nat} {ops : Array Value} {is : List Instr}

/-! ### Leaving and calling -/

/-- Leaving a function puts its value in the place of the function. -/
theorem leave_operands {under rest : Array Value} (hroom : under.size < Machine.stackLimit)
    (f : FunctionCode) (ip : Nat) (callee : Value) (caller : Frame) (callers : List Frame)
    (v : Value) (result : Option Value) :
    Machine.leave ⟨f, ip, (under.push callee).size⟩ (caller :: callers)
        (under.push callee ++ rest) v result =
      .ok (.next ⟨caller, callers, under.push v⟩) := by
  have hshrink : (under.push callee ++ rest).shrink under.size = under := by
    simp [Array.extract_append]
  simp only [Machine.leave, Array.size_push, Nat.add_sub_cancel, hshrink,
    Machine.push_of_lt hroom]
  rfl

theorem stack_operands (a : Activation) (s : State) (ops : Array Value) (callee : Value)
    (args : List Value) :
    a.stack s (ops.push callee ++ args.toArray) =
      Machine.operands (a.stack s ops) callee args := by
  simp [stack, Machine.operands]

/-- A call, from its instruction on. What the function comes to is an assumption; what is shown is that the call
is refused as it should be, and that its value takes the place of callee and arguments. -/
theorem apply_follows (hcalls : a.world.CallsFollow (a.callers.length + 1) calls)
    {callee : Value} {args : List Value} (hi : a.Holds ip [⟨.call, args.length⟩])
    (hcallee : callee.MadeOf a.world.Known) (hargs : ∀ v ∈ args, v.MadeOf a.world.Known)
    (hroom : a.height + ops.size < Machine.stackLimit) :
    a.Follows (Semantics.apply calls callee args (a.height + ops.size)) ip
      (ops.push callee ++ args.toArray) (ip + codeSize [⟨.call, args.length⟩]) ops.push
      (a.Kept ops) := by
  intro s hs
  have hsize := size_stack hs ops
  have hstep := step_machine hi s.globals s (ops.push callee ++ args.toArray)
  have henter := Machine.enter_operands (a.stack s ops) callee args a.world.setting.maxFrames
    (a.callers.length + 1)
  rw [stack_operands] at hstep
  simp only [Machine.execute] at hstep
  -- Functions are what the assumption about calls is for. A builtin is done within the instruction, and nothing
  -- else can be called.
  cases callee with
  | function f =>
    simp only [Semantics.apply]
    by_cases harity : args.length = f.params
    · let caller := a.frame (ip + codeSize [⟨.call, args.length⟩])
      have hcall := hcalls (caller :: a.callers) f args (a.stack s ops) s.globals rfl
        ((Value.madeOf_function f).mp hcallee) harity hargs hs.fits
      rw [hsize] at hcall
      rw [if_pos harity]
      rcases hran : calls f args (a.height + ops.size) s.globals with ⟨result, g'⟩
      rw [hran] at hcall
      cases result with
      | ok v =>
        -- The call returns, and leaving it puts the value where the callee was, on top of the operands that are
        -- waiting.
        obtain ⟨rfl, hv, frame, stack, result, hentered, rfl, m', ip', rest, hreach, hleave⟩ := hcall
        have hafter := hleave.trans (leave_operands (by omega) f ip' _ _ _ _ result)
        rw [push_stack] at hafter
        rw [List.length_cons] at hentered
        rw [hentered] at hstep
        exact ⟨hs, ⟨hv, hroom⟩, .next hstep (hreach.trans (.single hafter))⟩
      | error error =>
        obtain ⟨rfl, hordinary, hfail⟩ := hcall
        rw [List.length_cons] at hfail
        refine ⟨hs, hordinary, ?_⟩
        rcases hfail with hrefused | ⟨frame, stack, hentered, hfail⟩
        · rw [hrefused] at hstep
          exact .of_step hstep
        · rw [hentered] at hstep
          exact .of_reaches (.single hstep) hfail
    · rw [if_neg harity]
      simp only [ne_eq, harity, not_false_eq_true, if_true] at henter
      rw [henter] at hstep
      exact ⟨hs, rfl, .of_step hstep⟩
  | builtin b =>
    simp only at henter
    simp only [Semantics.apply]
    cases hb : b.apply args with
    | ok v =>
      simp only [hb, Machine.push_of_lt (hsize ▸ hroom), push_stack] at henter
      rw [henter] at hstep
      exact ⟨hs, ⟨madeOf_of_builtin hargs hb, hroom⟩, .single hstep⟩
    | error cause =>
      rw [hb] at henter
      rw [henter] at hstep
      exact ⟨hs, rfl, .of_step hstep⟩
  | _ =>
    rw [henter] at hstep
    exact ⟨hs, rfl, .of_step hstep⟩

/-! ### Commands that assign or leave -/

theorem assignGlobal_follows {index : Nat} {v : Value} (hi : a.Holds ip [⟨.setGlobal, index⟩])
    (hallowed : (Use.setGlobal index).Allowed a.bounds) (hv : v.MadeOf a.world.Known) :
    a.Follows (Semantics.assignGlobal index v) ip (ops.push v)
      (ip + codeSize [⟨.setGlobal, index⟩]) (fun _ => ops) (fun _ => True) := by
  intro s hs
  obtain ⟨hlt, htop⟩ := hallowed
  have htop : a.top = true := htop
  have hstep := step_machine hi s.globals s (ops.push v)
  rw [← push_stack] at hstep
  simp only [Machine.execute, Machine.pop_push] at hstep
  refine ⟨⟨hs.fits.assign hlt hv, hs.locals, hs.known, fun h => ?_⟩, trivial, .assign hstep .refl⟩
  rw [htop] at h
  cases h

theorem assignOwn_follows {index : Nat} {v : Value} (hi : a.Holds ip [⟨.setLocal, index⟩])
    (hallowed : (Use.setOwn index).Allowed a.bounds) (hv : v.MadeOf a.world.Known) :
    a.Follows (Semantics.assignOwn index v) ip (ops.push v)
      (ip + codeSize [⟨.setLocal, index⟩]) (fun _ => ops) (fun _ => True) := by
  intro s hs
  have hlt : index < s.locals.size := hs.locals ▸ hallowed
  have hstep := step_machine hi s.globals s (ops.push v)
  have hslot : a.below.size + index < (a.stack s ops).size := by
    simp [stack]
    omega
  have hset : (a.stack s ops).setIfInBounds (a.below.size + index) v =
      a.stack { s with locals := s.locals.setIfInBounds index v } ops := by
    unfold stack
    rw [Array.setIfInBounds_append_left (by simpa using hlt),
      Array.setIfInBounds_append_right (Nat.le_add_right _ _), Nat.add_sub_cancel_left]
  rw [← push_stack] at hstep
  simp only [Machine.execute, Machine.compute, Machine.pop_push, frame, bind, Except.bind,
    if_pos hslot, hset] at hstep
  refine ⟨⟨hs.fits, by simpa using hs.locals, ?_, hs.frozen⟩, trivial, .single hstep⟩
  intro w hw
  rcases Array.mem_or_eq_of_mem_setIfInBounds hw with hw | rfl
  · exact hs.known w hw
  · exact hv

/-- The instruction that returns a value ends the activation with it. -/
theorem returns_value (hi : a.Holds ip [⟨.returnValue, 0⟩]) (s : State) (ops : Array Value)
    (v : Value) : a.Returns s.globals (a.machine s ip (ops.push v)) (some v) s.globals := by
  have hstep := step_machine hi s.globals s (ops.push v)
  rw [← push_stack] at hstep
  simp only [Machine.execute, Machine.pop_push] at hstep
  refine ⟨_, ip + codeSize [⟨.returnValue, 0⟩], s.locals ++ ops, .refl, ?_⟩
  rw [← Array.append_assoc]
  exact hstep

theorem leaveWith_follows {v : Value} {ip' : Nat} {after : Unit → Array Value} {P : Unit → Prop}
    (hi : a.Holds ip [⟨.returnValue, 0⟩]) (hv : v.MadeOf a.world.Known) :
    a.Follows (Semantics.leaveWith v) ip (ops.push v) ip' after P :=
  fun s hs => ⟨hs, hv, returns_value hi s ops v⟩

theorem throw_follows {v : Value} {ip' : Nat} {after : Unit → Array Value} {P : Unit → Prop}
    (hi : a.Holds ip [⟨.throwValue, 0⟩]) :
    a.Follows (settle (.error (.thrown v.display))) ip (ops.push v) ip' after P := by
  intro s hs
  have hstep := step_machine hi s.globals s (ops.push v)
  rw [← push_stack] at hstep
  simp only [Machine.execute, Machine.pop_push] at hstep
  exact ⟨hs, rfl, .of_step hstep⟩

/-! ### Terms and commands -/

/-- Code for one evaluation, followed by code for what depends on its value. -/
theorem follows_append {α β : Type} {x : Exec α} {f : α → Exec β} {mid : α → Array Value}
    {after : β → Array Value} {P : α → Prop} {Q : β → Prop} {is js : List Instr}
    (hx : a.Follows x ip ops (ip + codeSize is) mid P)
    (hf : ∀ v, P v →
      a.Follows (f v) (ip + codeSize is) (mid v) (ip + codeSize is + codeSize js) after Q) :
    a.Follows (x >>= f) ip ops (ip + codeSize (is ++ js)) after Q := by
  rw [codeSize_append, ← Nat.add_assoc]
  exact follows_bind hx hf

/-- Two operands in order, and the instruction that puts a result in their place. -/
theorem follows_operands {x y : Exec Value} {r : Value → Value → Except RunError Value} {i : Instr}
    {is js : List Instr}
    (hx : a.Follows x ip ops (ip + codeSize is) ops.push (a.Kept ops))
    (hy : ∀ v, a.Follows y (ip + codeSize is) (ops.push v) (ip + codeSize is + codeSize js)
      (ops.push v).push (a.Kept (ops.push v)))
    (hi : a.Holds (ip + codeSize is + codeSize js) [i]) (hop : i.opcode.computes = true)
    (hcompute : ∀ {g : Array Value} {frame : Frame} {stack : Array Value},
      stack.size < Machine.stackLimit → ∀ v w,
      Machine.compute a.world.setting g frame i.opcode i.operand ((stack.push v).push w) =
        (r v w).map stack.push)
    (hv : ∀ {v w value : Value}, v.MadeOf a.world.Known → r v w = .ok value →
      value.MadeOf a.world.Known)
    (herror : ∀ {v w : Value} {error : RunError}, r v w = .error error → error.isOrdinary = true) :
    a.Follows (x >>= fun v => y >>= fun w => settle (r v w)) ip ops
      (ip + codeSize (is ++ (js ++ [i]))) ops.push (a.Kept ops) := by
  refine follows_append hx ?_
  intro v hkept
  rw [codeSize_append, ← Nat.add_assoc]
  refine follows_bind (hy v) ?_
  intro w _
  refine follows_settle hi hop hkept.2 ?_ (fun _ h => hv hkept.1 h) (fun _ h => herror h)
  intro s _ hroom
  rw [← push_stack, ← push_stack]
  exact hcompute hroom v w

theorem stack_append (a : Activation) (s : State) (ops more : Array Value) :
    a.stack s (ops ++ more) = a.stack s ops ++ more := by
  simp [stack]

theorem holds_append {is js : List Instr} :
    a.Holds ip (is ++ js) ↔ a.Holds ip is ∧ a.Holds (ip + codeSize is) js :=
  Code.holds_append

/-- Two ways to go on, with the jumps that lead there and back. -/
theorem holds_branches {yes no : List Instr} {noStart stop : Nat}
    (h : a.Holds ip (⟨.jumpNotTruthy, noStart⟩ :: (yes ++ ⟨.jump, stop⟩ :: no))) :
    a.Holds (ip + 3) yes ∧ a.Holds (ip + 3 + codeSize yes + 3) no := by
  obtain ⟨hyes, hrest⟩ := holds_append.mp (Code.holds_cons.mp h).2
  exact ⟨hyes, (Code.holds_cons.mp hrest).2⟩

/-- A conditional, given the two ways to go on. The test leaves one operand, which the jump takes off, and both
ways lead to the same place with one operand more. -/
theorem follows_cond {condition : Exec Value} {x y : Exec Value} {test yes no : List Instr}
    (htest : a.Follows condition ip ops (ip + codeSize test) ops.push (a.Kept ops))
    (hcode : a.Holds (ip + codeSize test)
      (⟨.jumpNotTruthy, ip + codeSize test + 3 + codeSize yes + 3⟩ ::
        (yes ++ ⟨.jump, ip + codeSize test + 3 + codeSize yes + 3 + codeSize no⟩ :: no)))
    (hyes : a.Follows x (ip + codeSize test + 3) ops (ip + codeSize test + 3 + codeSize yes)
      ops.push (a.Kept ops))
    (hno : a.Follows y (ip + codeSize test + 3 + codeSize yes + 3) ops
      (ip + codeSize test + 3 + codeSize yes + 3 + codeSize no) ops.push (a.Kept ops)) :
    a.Follows (condition >>= fun v => if v.isTruthy then x else y) ip ops
      (ip + codeSize (test ++ ⟨.jumpNotTruthy, ip + codeSize test + 3 + codeSize yes + 3⟩ ::
        (yes ++ ⟨.jump, ip + codeSize test + 3 + codeSize yes + 3 + codeSize no⟩ :: no)))
      ops.push (a.Kept ops) := by
  have hjump := (holds_append.mp (Code.holds_cons.mp hcode).2).2
  have hsize : ip + codeSize (test ++
      ⟨.jumpNotTruthy, ip + codeSize test + 3 + codeSize yes + 3⟩ ::
        (yes ++ ⟨.jump, ip + codeSize test + 3 + codeSize yes + 3 + codeSize no⟩ :: no)) =
      ip + codeSize test + 3 + codeSize yes + 3 + codeSize no := by
    simp only [codeSize_append, codeSize_cons, Instr.size, Opcode.operandWidth, OperandWidth.size]
    omega
  rw [hsize]
  refine follows_bind htest ?_
  intro v _
  have hbranch := fun s (_ : a.Sound s) => step_machine hcode s.globals s (ops.push v)
  simp only [← push_stack, Machine.execute, Machine.pop_push] at hbranch
  -- One jump is taken in any case: over the second branch after the first one, or to the second one.
  by_cases hv : v.isTruthy = true
  · rw [if_pos hv]
    simp only [bind, Except.bind, hv, if_true] at hbranch
    refine Follows.of_step (Follows.then_step hyes ?_) hbranch
    intro s w
    exact step_machine hjump s.globals s (ops.push w)
  · rw [if_neg hv]
    simp only [bind, Except.bind, hv] at hbranch
    exact Follows.of_step hno hbranch

mutual

/-- The layout of a term does what evaluating the term does, wherever it stands and whatever operands are
waiting. One case for each form of terms, together with lists of terms, commands and blocks. -/
theorem eval_follows (hcalls : a.world.CallsFollow (a.callers.length + 1) calls) :
    ∀ (t : Term) {ip : Nat} {ops : Array Value}, (∀ u ∈ t.uses, u.Allowed a.bounds) →
      a.Holds ip (t.layout ip) →
      a.Follows (eval calls t (a.height + ops.size)) ip ops (ip + codeSize (t.layout ip)) ops.push
        (a.Kept ops)
  | .constant index v, ip, ops, huses, hcode => by
    -- What a term refers to is among its uses, and being allowed there means that the machine finds it.
    obtain ⟨hget, hv⟩ := huses (.constant index v) (List.mem_singleton_self _)
    have hget : a.world.setting.constants[a.function.constantsOffset + index]? = some v := hget
    refine follows_keep hcode rfl (fun _ => v) ?_ (fun _ _ => hv)
    intro s _
    simp only [Machine.compute, frame, hget]
  | .bool true, ip, ops, huses, hcode =>
    follows_keep hcode rfl (fun _ => .bool true) (fun _ _ => rfl) (fun _ _ => by simp)
  | .bool false, ip, ops, huses, hcode =>
    follows_keep hcode rfl (fun _ => .bool false) (fun _ _ => rfl) (fun _ _ => by simp)
  | .null, ip, ops, huses, hcode =>
    follows_keep hcode rfl (fun _ => .null) (fun _ _ => rfl) (fun _ _ => by simp)
  | .global index, ip, ops, huses, hcode => by
    have hallowed : index < a.world.globals := huses (.global index) (List.mem_singleton_self _)
    refine follows_keep hcode rfl (fun s => s.globals[index]?.getD .null) ?_
      (fun s hs => madeOf_getD fun v hv => hs.fits.2 v (Array.mem_of_getElem? hv))
    intro s hs
    have hlt := Nat.lt_of_lt_of_eq hallowed hs.fits.1.symm
    simp [Machine.compute, Array.getElem?_eq_getElem hlt]
  | .own index, ip, ops, huses, hcode => by
    have hallowed : index < a.function.locals := huses (.own index) (List.mem_singleton_self _)
    refine follows_keep hcode rfl (fun s => s.locals[index]?.getD .null) ?_
      (fun s hs => madeOf_getD fun v hv => hs.known v (Array.mem_of_getElem? hv))
    intro s hs
    have hlt : index < s.locals.size := hs.locals ▸ hallowed
    -- Locals lie above what is below the activation, and operands that wait are above them.
    have hget : (a.stack s ops)[a.below.size + index]? = s.locals[index]? := by
      simp [stack, Array.getElem?_append, hlt]
    simp [Machine.compute, frame, hget, Array.getElem?_eq_getElem hlt]
  | .builtin index, ip, ops, huses, hcode => by
    obtain ⟨b, hb⟩ := huses (.builtin index) (List.mem_singleton_self _)
    refine follows_keep hcode rfl (fun _ => ((Builtin.ofIndex? index).map .builtin).getD .null)
      (fun s _ => ?_) (fun _ _ => by simp [hb])
    simp [Machine.compute, hb]
  | .array elements, ip, ops, huses, hcode => by
    obtain ⟨helements, harray⟩ := holds_append.mp hcode
    refine follows_append (evalAll_follows hcalls elements huses helements) ?_
    intro vs hvs
    refine follows_keep harray rfl (fun _ => .array vs) ?_
      (fun _ _ => (Value.madeOf_array vs).mpr hvs.2)
    intro s _
    rw [stack_append, ← hvs.1]
    exact Machine.compute_array (a.stack s ops) vs
  | .unary op operand, ip, ops, huses, hcode => by
    obtain ⟨hoperand, hop⟩ := holds_append.mp hcode
    refine follows_append (eval_follows hcalls operand huses hoperand) ?_
    intro v hv
    refine follows_settle hop (by cases op <;> rfl) hv.2 ?_
      (fun _ h => UnaryOp.madeOf_of_apply h) (fun _ h => UnaryOp.isOrdinary_of_apply h)
    intro s _ hroom
    rw [← push_stack]
    exact Machine.compute_unary hroom op v
  | .binary op left right, ip, ops, huses, hcode => by
    have hleft : ∀ u ∈ left.uses, u.Allowed a.bounds :=
      fun u hu => huses u (List.mem_append_left _ hu)
    have hright : ∀ u ∈ right.uses, u.Allowed a.bounds :=
      fun u hu => huses u (List.mem_append_right _ hu)
    unfold eval
    unfold Term.layout at hcode ⊢
    by_cases hless : op = .less
    · -- For `<` the right operand is evaluated first, and the instruction is that for `>`.
      subst hless
      rw [if_pos rfl] at hcode
      rw [if_pos rfl, if_pos rfl]
      obtain ⟨hsecond, hcode⟩ := holds_append.mp hcode
      obtain ⟨hfirst, hop⟩ := holds_append.mp hcode
      refine follows_operands (r := fun r l => BinaryOp.less.apply l r)
        (eval_follows hcalls right hright hsecond) ?_ hop rfl
        (fun hroom r l => Machine.compute_less hroom l r)
        (fun _ => BinaryOp.madeOf_of_apply) BinaryOp.isOrdinary_of_apply
      intro r
      have hmore := @eval_follows hcalls left _ (ops.push r) hleft hfirst
      rwa [Array.size_push] at hmore
    · rw [if_neg hless] at hcode
      rw [if_neg hless, if_neg hless]
      obtain ⟨hfirst, hcode⟩ := holds_append.mp hcode
      obtain ⟨hsecond, hop⟩ := holds_append.mp hcode
      refine follows_operands (eval_follows hcalls left hleft hfirst) ?_ hop
        (by cases op <;> rfl) (fun hroom => Machine.compute_binary hroom hless)
        (fun _ => BinaryOp.madeOf_of_apply) BinaryOp.isOrdinary_of_apply
      intro l
      have hmore := @eval_follows hcalls right _ (ops.push l) hright hsecond
      rwa [Array.size_push] at hmore
  | .cond condition consequence none, ip, ops, huses, hcode => by
    have huses₁ : ∀ u ∈ condition.uses, u.Allowed a.bounds :=
      fun u hu => huses u (List.mem_append_left _ hu)
    have huses₂ : ∀ u ∈ usesOfCommands consequence, u.Allowed a.bounds :=
      fun u hu => huses u (List.mem_append_right _ hu)
    obtain ⟨htest, hcode⟩ := holds_append.mp hcode
    obtain ⟨hyes, hno⟩ := holds_branches hcode
    refine follows_cond (eval_follows hcalls condition huses₁ htest) hcode
      (evalBlock_follows hcalls consequence huses₂ hyes) ?_
    exact follows_keep hno rfl (fun _ => .null) (fun _ _ => rfl) (fun _ _ => by simp)
  | .cond condition consequence (some body), ip, ops, huses, hcode => by
    have huses₁ : ∀ u ∈ condition.uses, u.Allowed a.bounds :=
      fun u hu => huses u (List.mem_append_left _ hu)
    have huses₂ : ∀ u ∈ usesOfCommands consequence, u.Allowed a.bounds :=
      fun u hu => huses u (List.mem_append_right _ (List.mem_append_left _ hu))
    have huses₃ : ∀ u ∈ usesOfCommands body, u.Allowed a.bounds :=
      fun u hu => huses u (List.mem_append_right _ (List.mem_append_right _ hu))
    obtain ⟨htest, hcode⟩ := holds_append.mp hcode
    obtain ⟨hyes, hno⟩ := holds_branches hcode
    exact follows_cond (eval_follows hcalls condition huses₁ htest) hcode
      (evalBlock_follows hcalls consequence huses₂ hyes) (evalBlock_follows hcalls body huses₃ hno)
  | .call callee args, ip, ops, huses, hcode => by
    obtain ⟨hcallee, hcode⟩ := holds_append.mp hcode
    obtain ⟨hargs, hcall⟩ := holds_append.mp hcode
    have huses₁ : ∀ u ∈ callee.uses, u.Allowed a.bounds :=
      fun u hu => huses u (List.mem_append_left _ hu)
    have huses₂ : ∀ u ∈ usesOfTerms args, u.Allowed a.bounds :=
      fun u hu => huses u (List.mem_append_right _ hu)
    refine follows_append (eval_follows hcalls callee huses₁ hcallee) ?_
    intro f hf
    -- The callee waits below the arguments while they are evaluated.
    have hmore := @evalAll_follows hcalls args _ (ops.push f) huses₂ hargs
    rw [Array.size_push] at hmore
    rw [codeSize_append, ← Nat.add_assoc]
    refine follows_bind hmore ?_
    intro vs hvs
    rw [← hvs.1] at hcall ⊢
    exact apply_follows hcalls hcall hf.1 hvs.2 hf.2
  | .index collection position, ip, ops, huses, hcode => by
    obtain ⟨hcollection, hcode⟩ := holds_append.mp hcode
    obtain ⟨hposition, hindex⟩ := holds_append.mp hcode
    have huses₁ : ∀ u ∈ collection.uses, u.Allowed a.bounds :=
      fun u hu => huses u (List.mem_append_left _ hu)
    have huses₂ : ∀ u ∈ position.uses, u.Allowed a.bounds :=
      fun u hu => huses u (List.mem_append_right _ hu)
    refine follows_operands (eval_follows hcalls collection huses₁ hcollection) ?_
      hindex rfl Machine.compute_index madeOf_of_element isOrdinary_of_element
    intro c
    have hmore := @eval_follows hcalls position _ (ops.push c) huses₂ hposition
    rwa [Array.size_push] at hmore

/-- The layout of terms does what evaluating them in order does. -/
theorem evalAll_follows (hcalls : a.world.CallsFollow (a.callers.length + 1) calls) :
    ∀ (ts : List Term) {ip : Nat} {ops : Array Value}, (∀ u ∈ usesOfTerms ts, u.Allowed a.bounds) →
      a.Holds ip (layoutTerms ts ip) →
      a.Follows (evalAll calls ts (a.height + ops.size)) ip ops (ip + codeSize (layoutTerms ts ip))
        (fun vs => ops ++ vs.toArray)
        (fun vs => vs.length = ts.length ∧ ∀ v ∈ vs, v.MadeOf a.world.Known)
  | [], ip, ops, huses, hcode => follows_pure ⟨rfl, by simp⟩ (by simp)
  | t :: rest, ip, ops, huses, hcode => by
    obtain ⟨hfirst, hrest⟩ := holds_append.mp hcode
    have huses₁ : ∀ u ∈ t.uses, u.Allowed a.bounds :=
      fun u hu => huses u (List.mem_append_left _ hu)
    have huses₂ : ∀ u ∈ usesOfTerms rest, u.Allowed a.bounds :=
      fun u hu => huses u (List.mem_append_right _ hu)
    refine follows_append (eval_follows hcalls t huses₁ hfirst) ?_
    intro v hv
    have hmore := @evalAll_follows hcalls rest _ (ops.push v) huses₂ hrest
    rw [Array.size_push] at hmore
    refine follows_bind hmore fun vs hvs => follows_pure ⟨?_, ?_⟩ (by simp)
    · rw [List.length_cons, hvs.1, List.length_cons]
    · exact List.forall_mem_cons.mpr ⟨hv.1, hvs.2⟩

/-- The layout of a command does what carrying it out does. -/
theorem perform_follows (hcalls : a.world.CallsFollow (a.callers.length + 1) calls) :
    ∀ (c : Command) {ip : Nat} {ops : Array Value}, (∀ u ∈ c.uses, u.Allowed a.bounds) →
      a.Holds ip (c.layout ip) →
      a.Follows (perform calls c (a.height + ops.size)) ip ops (ip + codeSize (c.layout ip))
        (fun _ => ops) (fun _ => True)
  | .setGlobal index value, ip, ops, huses, hcode => by
    obtain ⟨hvalue, hset⟩ := holds_append.mp hcode
    obtain ⟨hallowed, huses⟩ := List.forall_mem_cons.mp huses
    exact follows_append (eval_follows hcalls value huses hvalue) fun v hv =>
      assignGlobal_follows hset hallowed hv.1
  | .setOwn index value, ip, ops, huses, hcode => by
    obtain ⟨hvalue, hset⟩ := holds_append.mp hcode
    obtain ⟨hallowed, huses⟩ := List.forall_mem_cons.mp huses
    exact follows_append (eval_follows hcalls value huses hvalue) fun v hv =>
      assignOwn_follows hset hallowed hv.1
  | .ret value, ip, ops, huses, hcode => by
    obtain ⟨hvalue, hret⟩ := holds_append.mp hcode
    exact follows_append (eval_follows hcalls value huses hvalue) fun v hv =>
      leaveWith_follows hret hv.1
  | .throw value, ip, ops, huses, hcode => by
    obtain ⟨hvalue, hthrow⟩ := holds_append.mp hcode
    exact follows_append (eval_follows hcalls value huses hvalue) fun v hv =>
      throw_follows hthrow
  | .expr value, ip, ops, huses, hcode => by
    obtain ⟨hvalue, hpop⟩ := holds_append.mp hcode
    refine follows_append (eval_follows hcalls value huses hvalue) ?_
    intro v hv
    refine follows_compute hpop rfl fun s _ => ⟨.ok (), rfl, ?_, by simp, by simp⟩
    rw [← push_stack]
    simp [Machine.compute, bind, Except.bind, Except.map]
  | .empty, ip, ops, huses, hcode => follows_pure trivial rfl

/-- The layout of a block does what evaluating it for its value does. Of its commands only the last expression
leaves its value. -/
theorem evalBlock_follows (hcalls : a.world.CallsFollow (a.callers.length + 1) calls) :
    ∀ (cs : List Command) {ip : Nat} {ops : Array Value},
      (∀ u ∈ usesOfCommands cs, u.Allowed a.bounds) → a.Holds ip (layoutBlock cs ip) →
      a.Follows (evalBlock calls cs (a.height + ops.size)) ip ops
        (ip + codeSize (layoutBlock cs ip)) ops.push (a.Kept ops)
  | [], ip, ops, huses, hcode =>
    follows_keep hcode rfl (fun _ => .null) (fun _ _ => rfl) (fun _ _ => by simp)
  | c :: rest, ip, ops, huses, hcode => by
    have huses₁ : ∀ u ∈ c.uses, u.Allowed a.bounds :=
      fun u hu => huses u (List.mem_append_left _ hu)
    have huses₂ : ∀ u ∈ usesOfCommands rest, u.Allowed a.bounds :=
      fun u hu => huses u (List.mem_append_right _ hu)
    -- The last expression of a block is not dropped, but is the value of the block. Only its instruction to
    -- drop the value is missing in the code.
    by_cases hlast : c.closing = some .pop ∧ closingOf rest = none
    · cases c with
      | expr value =>
        rw [layoutBlock_of_expr hlast.2] at hcode ⊢
        rw [Semantics.evalBlock_of_expr hlast.2]
        exact eval_follows hcalls value huses₁ hcode
      | _ => cases hlast.1
    · have hmiddle : c.closing = some .pop → closingOf rest ≠ none :=
        fun hc hrest => hlast ⟨hc, hrest⟩
      rw [layoutBlock_cons hmiddle] at hcode ⊢
      rw [Semantics.evalBlock_cons hmiddle]
      obtain ⟨hfirst, hrest⟩ := holds_append.mp hcode
      exact follows_append (perform_follows hcalls c huses₁ hfirst) fun _ _ =>
        evalBlock_follows hcalls rest huses₂ hrest

end

end Activation

end Notebook
