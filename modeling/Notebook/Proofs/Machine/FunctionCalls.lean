import Notebook.Proofs.Machine.Simulation

/-!
Function calls and whole runs do what the evaluator says.

* `body_leaves`, `program_leaves`: the code of a function's body or of a snippet's top level follows
  its evaluation, and then ends its activation.
* `calls_follow`: calls come to what they are said to, by induction on how many more frames there is
  room for.
* `ends_program`: running a snippet comes to what the evaluator says.
* `call_follows`: so does calling a function from outside of any snippet.
-/

namespace Notebook

open Semantics (Exec State Calls eval perform evalBody evalProgram)

namespace Activation

variable {a : Activation} {calls : Calls} {ip ip₁ : Nat} {ops : Array Value}

/-- Does an activation end as an evaluation did? Unlike in `GoesOn`, a value ends it, too. `R` says which result
of the code goes with which value of the evaluation, since the two part ways where code ends without a value. -/
def EndsAs {α : Type} (a : Activation) (globals : Array Value) (m : Machine)
    (R : α → Option Value → Prop) : Semantics.Flow α × State → Prop
  | (.value v, s) => a.Sound s ∧ ∃ result, R v result ∧ (result.getD .null).MadeOf a.world.Known ∧
      a.Returns globals m result s.globals
  | (.returned v, s) => a.Sound s ∧ v.MadeOf a.world.Known ∧
      a.Returns globals m (some v) s.globals
  | (.failed error, s) => a.Sound s ∧ error.isOrdinary = true ∧
      Machine.Fails a.world.setting globals m error s.globals

/-- Does the code from `ip` on end the activation as an evaluation says? -/
def Leaves {α : Type} (a : Activation) (x : Exec α) (ip : Nat) (ops : Array Value)
    (R : α → Option Value → Prop) : Prop :=
  ∀ s, a.Sound s → a.EndsAs s.globals (a.machine s ip ops) R (x s)

variable {α β : Type} {x : Exec α} {f : α → Exec β} {mid : α → Array Value}
variable {P : α → Prop} {R : β → Option Value → Prop}

theorem EndsAs.of_reaches {g g₁ : Array Value} {m m₁ : Machine} {end_ : Semantics.Flow β × State}
    (h₁ : Machine.Reaches a.world.setting g m g₁ m₁) (h₂ : a.EndsAs g₁ m₁ R end_) :
    a.EndsAs g m R end_ := by
  obtain ⟨flow, s⟩ := end_
  cases flow with
  | value v =>
    obtain ⟨hs, result, hv, hmade, hreturn⟩ := h₂
    exact ⟨hs, result, hv, hmade, hreturn.of_reaches h₁⟩
  | returned v => exact ⟨h₂.1, h₂.2.1, h₂.2.2.of_reaches h₁⟩
  | failed error => exact ⟨h₂.1, h₂.2.1, h₂.2.2.of_reaches h₁⟩

theorem leaves_bind (hx : a.Follows x ip ops ip₁ mid P)
    (hf : ∀ v, P v → a.Leaves (f v) ip₁ (mid v) R) : a.Leaves (x >>= f) ip ops R := by
  intro s hs
  have hfirst := hx s hs
  rw [Exec.bind_apply]
  rcases hend : x s with ⟨flow, s₁⟩
  rw [hend] at hfirst
  cases flow with
  | value v =>
    obtain ⟨hs₁, hv, hreach⟩ := hfirst
    exact (hf v hv s₁ hs₁).of_reaches hreach
  | returned v => exact hfirst
  | failed error => exact hfirst

/-- A value that is there is returned. -/
theorem leaves_value {v : Value} {r : β} (hi : a.Holds ip [⟨.returnValue, 0⟩])
    (hv : v.MadeOf a.world.Known) (hr : R r (some v)) : a.Leaves (pure r) ip (ops.push v) R :=
  fun s hs => ⟨hs, some v, hr, hv, returns_value hi s ops v⟩

/-- The end of code without value. -/
theorem leaves_nothing {r : β} (hi : a.Holds ip [⟨.ret, 0⟩]) (hr : R r none) :
    a.Leaves (pure r) ip ops R := by
  intro s hs
  refine ⟨hs, none, hr, by simp, _, ip + codeSize [⟨.ret, 0⟩], s.locals ++ ops, .refl, ?_⟩
  rw [← Array.append_assoc]
  exact step_machine hi s.globals s ops

/-- The code of a function's body ends the call as evaluating the body does. By induction on the commands; code
without value ends with an instruction that returns none, which is a null to the caller. -/
theorem body_leaves (hcalls : a.world.CallsFollow (a.callers.length + 1) calls) :
    ∀ (cs : List Command) {ip : Nat}, (∀ u ∈ usesOfCommands cs, u.Allowed a.bounds) →
      a.Holds ip (layoutBody cs ip) →
      a.Leaves (evalBody calls cs a.height) ip #[] (fun v result => result.getD .null = v)
  | [], ip, huses, hcode => leaves_nothing hcode rfl
  | c :: rest, ip, huses, hcode => by
    have huses₁ : ∀ u ∈ c.uses, u.Allowed a.bounds :=
      fun u hu => huses u (List.mem_append_left _ hu)
    have huses₂ : ∀ u ∈ usesOfCommands rest, u.Allowed a.bounds :=
      fun u hu => huses u (List.mem_append_right _ hu)
    -- A body is cut short where its last command is a value or a return: these leave in the same way, and no
    -- instruction comes after.
    by_cases hlast : c.returns ∧ closingOf rest = none
    · obtain ⟨value, hc, hlayout⟩ := layoutBody_of_returns hlast.1 hlast.2 ip
      rw [hlayout] at hcode
      obtain ⟨hvalue, hret⟩ := holds_append.mp hcode
      rcases hc with rfl | rfl
      · rw [Semantics.evalBody_of_expr hlast.2, ← Exec.bind_pure (eval calls value a.height)]
        exact leaves_bind (eval_follows hcalls value huses₁ hvalue) fun v hv =>
          leaves_value hret hv.1 rfl
      · rw [Semantics.evalBody_cons (by rintro ⟨⟩)]
        -- Nothing comes after a return, so no code has to be there.
        have hleave : a.Follows (perform calls (.ret value) a.height) ip #[] 0 (fun _ => #[])
            (fun _ => False) :=
          follows_bind (eval_follows hcalls value huses₁ hvalue) fun v hv =>
            leaveWith_follows hret hv.1
        exact leaves_bind hleave fun _ hnever => hnever.elim
    · have hmiddle : c.returns → closingOf rest ≠ none := fun hc hrest => hlast ⟨hc, hrest⟩
      -- Any other command is performed, and the rest of the body does what is left.
      rw [layoutBody_cons hmiddle] at hcode
      rw [Semantics.evalBody_cons fun hc => hmiddle (.inl hc)]
      obtain ⟨hfirst, hrest⟩ := holds_append.mp hcode
      exact leaves_bind (perform_follows hcalls c huses₁ hfirst) fun _ _ =>
        body_leaves hcalls rest huses₂ hrest

/-- The code of a snippet's top level ends the snippet as evaluating it does. Here the lack of a value is told
from null. -/
theorem program_leaves (hcalls : a.world.CallsFollow (a.callers.length + 1) calls)
    (hheight : a.height = 0) :
    ∀ (cs : List Command) {ip : Nat}, (∀ u ∈ usesOfCommands cs, u.Allowed a.bounds) →
      a.Holds ip (layoutProgram cs ip) → a.Leaves (evalProgram calls cs) ip #[] Eq
  | [], ip, huses, hcode => leaves_nothing hcode rfl
  | c :: rest, ip, huses, hcode => by
    have huses₁ : ∀ u ∈ c.uses, u.Allowed a.bounds :=
      fun u hu => huses u (List.mem_append_left _ hu)
    have huses₂ : ∀ u ∈ usesOfCommands rest, u.Allowed a.bounds :=
      fun u hu => huses u (List.mem_append_right _ hu)
    by_cases hlast : ∃ value, c = .expr value ∧ rest = []
    · obtain ⟨value, rfl, rfl⟩ := hlast
      obtain ⟨hvalue, hret⟩ := holds_append.mp hcode
      have heval := @eval_follows _ _ hcalls value _ #[] huses₁ hvalue
      rw [hheight] at heval
      exact leaves_bind heval fun v hv => leaves_value hret hv.1 rfl
    · rw [layoutProgram_cons hlast] at hcode
      rw [Semantics.evalProgram_cons hlast]
      obtain ⟨hfirst, hrest⟩ := holds_append.mp hcode
      have hperform := @perform_follows _ _ hcalls c _ #[] huses₁ hfirst
      rw [hheight] at hperform
      exact leaves_bind hperform fun _ _ => program_leaves hcalls hheight rest huses₂ hrest

end Activation

/-! ### Calls -/

/-- A known function has a body, and the code for it. -/
theorem World.exists_routine {w : World} {f : FunctionCode} (h : w.Known f) :
    ∃ r ∈ w.routines, r.code = f ∧ Semantics.bodyOf w.routines f = r.body := by
  obtain ⟨r, hr, rfl⟩ := h
  cases hfind : w.routines.find? fun r' => r'.code = r.code with
  | none =>
    have := List.find?_eq_none.mp hfind r hr
    simp at this
  | some r' =>
    refine ⟨r', List.mem_of_find?_eq_some hfind, ?_, ?_⟩
    · simpa using List.find?_some hfind
    · simp [Semantics.bodyOf, hfind]

/-- The state that a function starts in. -/
theorem sound_slots {w : World} {f : FunctionCode} {args : List Value} {under g : Array Value}
    {callers : List Frame} (hlocals : args.length ≤ f.locals)
    (hargs : ∀ v ∈ args, v.MadeOf w.Known) (hfits : w.Fits g) :
    (w.activation f under callers g).Sound ⟨g, Semantics.slots f args⟩ where
  fits := hfits
  locals := by
    simp only [Semantics.slots, Array.size_append, List.size_toArray, Array.size_replicate]
    show _ = f.locals
    omega
  known v hv := by
    rcases Array.mem_append.mp hv with hv | hv
    · exact hargs v (by simpa using hv)
    · rw [Array.eq_of_mem_replicate hv]
      exact Value.madeOf_null
  frozen _ := rfl

/-- A function that was entered does what evaluating its body does, starting from its arguments and from nulls
for its other slots. -/
theorem entered_endsAs {w : World} (hw : w.Linked) {calls : Calls} {f : FunctionCode}
    {args : List Value} (under : Array Value) {g : Array Value} {callers : List Frame}
    (hcalls : w.CallsFollow (callers.length + 1) calls) (hf : w.Known f)
    (harity : args.length = f.params) (hargs : ∀ v ∈ args, v.MadeOf w.Known) (hfits : w.Fits g) :
    (w.activation f under callers g).EndsAs g
      ⟨⟨f, 0, under.size + 1⟩, callers, under.push (.function f) ++ Semantics.slots f args⟩
      (fun v result => result.getD .null = v)
      (evalBody calls (Semantics.bodyOf w.routines f) (under.size + 1 + f.locals)
        ⟨g, Semantics.slots f args⟩) := by
  obtain ⟨r, hr, rfl, hbody⟩ := World.exists_routine hf
  obtain ⟨hlaid, -, hparams, huses⟩ := hw r hr
  have hsound : (w.activation r.code under callers g).Sound ⟨g, Semantics.slots r.code args⟩ :=
    sound_slots (harity ▸ hparams) hargs hfits
  have hleaves : (w.activation r.code under callers g).Leaves (evalBody calls r.body _) 0 #[] _ :=
    Activation.body_leaves hcalls r.body huses hlaid.holds
  have hends := hleaves _ hsound
  have hmachine : (w.activation r.code under callers g).machine ⟨g, Semantics.slots r.code args⟩ 0 #[]
      = ⟨⟨r.code, 0, under.size + 1⟩, callers,
          under.push (.function r.code) ++ Semantics.slots r.code args⟩ := by
    simp [Activation.machine, Activation.frame, Activation.stack, World.activation]
  have hheight : (w.activation r.code under callers g).height =
      under.size + 1 + r.code.locals := by
    simp [Activation.height, World.activation]
  -- The machine that was entered is that of the activation at the start of its code.
  rw [hmachine, hheight] at hends
  rw [hbody]
  exact hends

/-- Calls come to what the evaluator says, for any number of frames that there is room for. By induction on that
number, as a call of a function leaves one frame less for the calls in its body. -/
theorem calls_follow {w : World} (hw : w.Linked) : ∀ (room depth : Nat),
    room = w.setting.maxFrames - depth →
    w.CallsFollow depth (Semantics.callsWithin w.routines w.setting.maxFrames room) := by
  intro room
  induction room with
  -- No frame is left: the machine refuses the call, and so does the evaluator.
  | zero =>
    intro depth hroom callers f args under g hdepth hf harity hargs hfits
    have henter := Machine.enter_operands under (.function f) args w.setting.maxFrames callers.length
    have hfull : w.setting.maxFrames ≤ callers.length := by omega
    simp only [ne_eq, harity, not_true_eq_false, if_false, hfull, if_true] at henter
    rw [← harity] at henter
    exact ⟨rfl, rfl, .inl henter⟩
  -- The body runs in a frame of its own, and what it calls has one frame less, of which the induction
  -- hypothesis speaks.
  | succ room ih =>
    intro depth hroom callers f args under g hdepth hf harity hargs hfits
    have henter := Machine.enter_operands under (.function f) args w.setting.maxFrames callers.length
    have hfree : ¬ w.setting.maxFrames ≤ callers.length := by omega
    simp only [ne_eq, harity, not_true_eq_false, if_false, hfree] at henter
    rw [← harity] at henter
    unfold Semantics.callsWithin
    by_cases hover : Machine.stackLimit < under.size + 1 + f.locals
    · rw [if_pos hover] at henter ⊢
      exact ⟨rfl, rfl, .inl henter⟩
    · have hlocals : args.length ≤ f.locals := by
        obtain ⟨r, hr, rfl⟩ := hf
        exact harity ▸ (hw r hr).2.2.1
      rw [if_neg hover, Machine.resize_operands under (.function f) args hlocals] at henter
      rw [if_neg hover]
      have hcalls := ih (callers.length + 1) (by omega)
      have hends := entered_endsAs hw under hcalls hf harity hargs hfits
      rcases hend : evalBody (Semantics.callsWithin w.routines w.setting.maxFrames room)
        (Semantics.bodyOf w.routines f) (under.size + 1 + f.locals) ⟨g, Semantics.slots f args⟩
        with ⟨flow, ⟨g', locals⟩⟩
      rw [hend] at hends
      simp only [hend]
      -- Inside of a function no global is assigned, however the body ends.
      obtain rfl : g' = g := by cases flow <;> exact hends.1.frozen rfl
      cases flow with
      | value v =>
        obtain ⟨-, result, rfl, hv, hreturn⟩ := hends
        exact ⟨rfl, hv, _, _, result, henter, rfl, hreturn⟩
      | returned v =>
        obtain ⟨-, hv, hreturn⟩ := hends
        exact ⟨rfl, hv, _, _, some v, henter, rfl, hreturn⟩
      | failed error =>
        obtain ⟨-, hordinary, hfail⟩ := hends
        exact ⟨rfl, hordinary, .inr ⟨_, _, henter, hfail⟩⟩

/-! ### Whole runs -/

/-- What a run leaves is made of known functions, and it fails only in ordinary ways. The globals fit the world
again, so that what runs next starts from where this did. -/
structure World.Keeps {α : Type} (w : World) (value : α → Value) (ran : Ran α) : Prop where
  globals : w.Fits ran.globals
  known : ∀ a, ran.result = .ok a → (value a).MadeOf w.Known
  ordinary : ∀ error, ran.result = .error error → error.isOrdinary = true

theorem World.Keeps.of_ok {α : Type} {w : World} {value : α → Value} {a : α} {g : Array Value}
    (hfits : w.Fits g) (ha : (value a).MadeOf w.Known) : w.Keeps value ⟨.ok a, g⟩ := by
  refine ⟨hfits, fun a' h => ?_, fun error h => ?_⟩
  · cases h
    exact ha
  · cases h

theorem World.Keeps.of_error {α : Type} {w : World} {value : α → Value} {error : RunError}
    {g : Array Value} (hfits : w.Fits g) (herror : error.isOrdinary = true) :
    w.Keeps value ⟨.error error, g⟩ := by
  refine ⟨hfits, fun a h => ?_, fun error' h => ?_⟩
  · cases h
  · cases h
    exact herror

/-- Running a snippet comes to what the evaluator says, globals included, and leaves nothing but what is made of
known functions. -/
theorem ends_program {w : World} (hw : w.Linked) {main : FunctionCode} {cs : List Command}
    {g : Array Value} (hlocals : main.locals = 0) (hcode : main.code.Holds 0 (layoutProgram cs 0))
    (huses : ∀ u ∈ usesOfCommands cs, u.Allowed (w.bounds main true)) (hfits : w.Fits g) :
    Machine.Ends w.setting g ⟨⟨main, 0, 0⟩, [], #[]⟩
        (Semantics.run w.routines w.setting.maxFrames cs g) ∧
      w.Keeps (·.getD .null) (Semantics.run w.routines w.setting.maxFrames cs g) := by
  -- A snippet's code is an activation with nothing below it and no callers.
  let a : Activation := ⟨w, main, [], #[], true, g⟩
  have hsound : a.Sound ⟨g, #[]⟩ :=
    ⟨hfits, hlocals.symm, fun v hv => absurd hv (Array.not_mem_empty v), fun h => by cases h⟩
  have hcalls := calls_follow hw (w.setting.maxFrames - 1) 1 rfl
  have hleaves : a.Leaves _ 0 #[] Eq :=
    Activation.program_leaves hcalls (by simpa [Activation.height, a] using hlocals) cs huses hcode
  have hends := hleaves _ hsound
  unfold Semantics.run
  rcases hend : evalProgram (Semantics.callsWithin w.routines w.setting.maxFrames
    (w.setting.maxFrames - 1)) cs ⟨g, #[]⟩ with ⟨flow, s⟩
  rw [hend] at hends
  cases flow with
  | value v =>
    obtain ⟨hs, result, rfl, hv, m', ip, rest, hreach, hstep⟩ := hends
    exact ⟨hreach.ends hstep, .of_ok hs.fits hv⟩
  | returned v =>
    obtain ⟨hs, hv, m', ip, rest, hreach, hstep⟩ := hends
    exact ⟨hreach.ends hstep, .of_ok hs.fits hv⟩
  | failed error =>
    obtain ⟨hs, hordinary, hfail⟩ := hends
    exact ⟨hfail.ends, .of_error hs.fits hordinary⟩

/-- Values are put on the stack one by one, for as long as there is room. -/
theorem Machine.pushAll_eq (stack : Array Value) (vs : List Value)
    (h : stack.size ≤ Machine.stackLimit) :
    Machine.pushAll stack vs =
      if stack.size + vs.length ≤ Machine.stackLimit then .ok (stack ++ vs.toArray)
      else .error .stackOverflow := by
  induction vs generalizing stack with
  | nil => simp [pushAll, h]
  | cons v vs ih =>
    unfold pushAll
    by_cases hlt : stack.size < stackLimit
    · have hrest := ih (stack.push v) (by rw [Array.size_push]; omega)
      have hlength : (stack.push v).size + vs.length = stack.size + (v :: vs).length := by
        rw [Array.size_push, List.length_cons]
        omega
      rw [push_of_lt hlt]
      rw [hlength] at hrest
      simpa [bind, Except.bind] using hrest
    · have hover : ¬ stack.size + (v :: vs).length ≤ stackLimit := by
        rw [List.length_cons]
        omega
      rw [push_eq, if_neg hlt, if_neg hover]
      rfl

/-- A call from outside puts what it calls and the arguments on an empty stack. -/
theorem Machine.pushAll_operands {args : List Value} (hroom : args.length + 1 ≤ Machine.stackLimit)
    (callee : Value) : Machine.pushAll #[] (callee :: args) = .ok (operands #[] callee args) := by
  have hpush := pushAll_eq #[] (callee :: args) (Nat.zero_le _)
  have hstack : #[] ++ (callee :: args).toArray = operands #[] callee args := by
    simp [operands]
  rwa [Array.size_empty, Nat.zero_add, List.length_cons, if_pos hroom, hstack] at hpush

section

variable {setting : Setting} {g : Array Value} {callee : Value} {args : List Value}

/-- A call from outside that is refused where it enters. -/
theorem Machine.call_of_refused (hroom : args.length + 1 ≤ Machine.stackLimit) {error : RunError}
    (h : enter setting.maxFrames 0 args.length (operands #[] callee args) = .error error) :
    Machine.call setting g callee args = ⟨.error error, g⟩ := by
  unfold call
  rw [pushAll_operands hroom]
  simp only [h]

/-- A call from outside of something that runs no code. -/
theorem Machine.call_of_value (hroom : args.length + 1 ≤ Machine.stackLimit) {v : Value}
    (h : enter setting.maxFrames 0 args.length (operands #[] callee args) = .ok (none, #[v])) :
    Machine.call setting g callee args = ⟨.ok v, g⟩ := by
  unfold call
  rw [pushAll_operands hroom]
  simp only [h]
  rfl

/-- A call from outside that enters a function, and ends as its code does. -/
theorem Machine.call_of_entered (hroom : args.length + 1 ≤ Machine.stackLimit) {frame : Frame}
    {stack : Array Value} {ran : Ran (Option Value)}
    (h : enter setting.maxFrames 0 args.length (operands #[] callee args) = .ok (some frame, stack))
    (hends : Machine.Ends setting g ⟨frame, [], stack⟩ ran) :
    Machine.call setting g callee args = ⟨ran.result.map (·.getD .null), ran.globals⟩ := by
  unfold call
  rw [pushAll_operands hroom]
  simp only [h, run_of_ends hends]

end

/-- A call from outside comes to what its function comes to. -/
theorem World.CallGoesOn.call_eq {w : World} {f : FunctionCode} {args : List Value}
    {g : Array Value} {ran : Ran Value} (h : w.CallGoesOn [] f args #[] g ran)
    (hroom : args.length + 1 ≤ Machine.stackLimit) (hfits : w.Fits g) :
    Machine.call w.setting g (.function f) args = ran ∧ ran.globals = g ∧ w.Keeps id ran := by
  obtain ⟨result, g'⟩ := ran
  cases result with
  | ok v =>
    obtain ⟨rfl, hv, frame, stack, result, hentered, rfl, m', ip, rest, hreach, hstep⟩ := h
    have hcall := Machine.call_of_entered hroom hentered (hreach.ends hstep)
    exact ⟨hcall, rfl, .of_ok hfits hv⟩
  | error error =>
    obtain ⟨rfl, hordinary, hfail⟩ := h
    refine ⟨?_, rfl, .of_error hfits hordinary⟩
    rcases hfail with hrefused | ⟨frame, stack, hentered, hfail⟩
    · exact Machine.call_of_refused hroom hrefused
    · exact Machine.call_of_entered hroom hentered hfail.ends

/-- Calling a value from outside of any snippet comes to what the evaluator says, and
leaves the globals alone. -/
theorem call_follows {w : World} (hw : w.Linked) {callee : Value} {args : List Value}
    {g : Array Value} (hcallee : callee.MadeOf w.Known) (hargs : ∀ v ∈ args, v.MadeOf w.Known)
    (hfits : w.Fits g) :
    Machine.call w.setting g callee args =
        Semantics.call w.routines w.setting.maxFrames callee args g ∧
      (Semantics.call w.routines w.setting.maxFrames callee args g).globals = g ∧
      w.Keeps id (Semantics.call w.routines w.setting.maxFrames callee args g) := by
  unfold Semantics.call
  by_cases hroom : args.length + 1 ≤ Machine.stackLimit
  · have henter := Machine.enter_operands #[] callee args w.setting.maxFrames 0
    rw [if_neg (Nat.not_lt.mpr hroom)]
    cases callee with
    | function f =>
      simp only [Semantics.apply]
      by_cases harity : args.length = f.params
      · have hcall := calls_follow hw w.setting.maxFrames 0 rfl [] f args #[] g rfl
          ((Value.madeOf_function f).mp hcallee) harity hargs hfits
        have hends := hcall.call_eq hroom hfits
        rw [Array.size_empty] at hends
        rw [if_pos harity]
        rcases hran : Semantics.callsWithin w.routines w.setting.maxFrames w.setting.maxFrames f args
          0 g with ⟨result, g'⟩
        rw [hran] at hends
        cases result with
        | ok v => exact hends
        | error error => exact hends
      · simp only [ne_eq, harity, not_false_eq_true, if_true] at henter
        rw [if_neg harity]
        exact ⟨Machine.call_of_refused hroom henter, rfl, .of_error hfits rfl⟩
    | builtin b =>
      simp only [Semantics.apply]
      cases hb : b.apply args with
      | ok v =>
        have hpushed : Machine.push #[] v = .ok #[v] := rfl
        simp only [hb, hpushed] at henter
        exact ⟨Machine.call_of_value hroom henter, rfl, .of_ok hfits (madeOf_of_builtin hargs hb)⟩
      | error cause =>
        simp only [hb] at henter
        exact ⟨Machine.call_of_refused hroom henter, rfl, .of_error hfits rfl⟩
    | _ => exact ⟨Machine.call_of_refused hroom henter, rfl, .of_error hfits rfl⟩
  · have hpush := Machine.pushAll_eq #[] (callee :: args) (Nat.zero_le _)
    rw [Array.size_empty, Nat.zero_add, List.length_cons, if_neg hroom] at hpush
    unfold Machine.call
    rw [hpush, if_pos (Nat.not_le.mp hroom)]
    exact ⟨rfl, rfl, .of_error hfits rfl⟩

end Notebook
