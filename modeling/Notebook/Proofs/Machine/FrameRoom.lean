import Notebook.Proofs.Composition.FirstPart

/-!
What a run takes from its setting: the constants that it loads, and whether there are frames for its calls.

A call that would enter a function needs a frame for it, and nothing else does (`Machine.tooDeep_step_iff`).

* `Machine.Reaches.congr`: with a pool that goes on after that of the setting, and with any number of frames, a
  run gets to the same machines until it comes to a call that there is no frame for.
* `Machine.Ends.reaches_of_tooDeep`, `Machine.Ends.tooDeep_of_reaches`: a run fails for want of a frame exactly
  if, with frames enough, it comes to a call at such a depth.
* `Machine.Ends.continues`: with a longer pool and as many frames, a run ends as before.
-/

namespace Notebook

/-- Does something fail for want of a frame? -/
def TooDeep {α : Type} (x : Except RunError α) : Prop := ∃ limit, x = .error (.callDepth limit)

section

variable {α β : Type}

theorem not_tooDeep_ok (a : α) : ¬ TooDeep (.ok a) := by
  rintro ⟨limit, ⟨⟩⟩

theorem tooDeep_error_iff {error : RunError} :
    TooDeep (.error error : Except RunError α) ↔ ∃ limit, error = .callDepth limit := by
  simp [TooDeep]

theorem tooDeep_map_iff {x : Except RunError α} {f : α → β} : TooDeep (x.map f) ↔ TooDeep x := by
  cases x <;> simp [TooDeep, Except.map]

theorem not_tooDeep_bind {x : Except RunError α} {f : α → Except RunError β} (hx : ¬ TooDeep x)
    (hf : ∀ a, ¬ TooDeep (f a)) : ¬ TooDeep (x >>= f) := by
  cases x with
  | ok a => exact hf a
  | error error =>
    rintro ⟨limit, h⟩
    cases h
    exact hx ⟨limit, rfl⟩

end

namespace Machine

section

variable {setting : Setting} {g : Array Value} {m : Machine} {stack : Array Value} {args : Nat}

theorem not_tooDeep_push (stack : Array Value) (v : Value) : ¬ TooDeep (push stack v) := by
  rintro ⟨limit, h⟩
  unfold push at h
  split at h <;> cases h

theorem not_tooDeep_pop (stack : Array Value) : ¬ TooDeep (pop stack) := by
  rintro ⟨limit, h⟩
  unfold pop at h
  split at h <;> cases h

theorem not_tooDeep_checked (n : Int) : ¬ TooDeep (checked n) := by
  rintro ⟨limit, h⟩
  unfold checked at h
  split at h <;> cases h

theorem not_tooDeep_binary (op : Opcode) (l r : Value) : ¬ TooDeep (binary op l r) := by
  unfold binary
  split
  case h_3 | h_4 | h_5 => exact not_tooDeep_checked _
  case h_6 =>
    split
    · rintro ⟨limit, ⟨⟩⟩
    · exact not_tooDeep_checked _
  all_goals rintro ⟨limit, ⟨⟩⟩

theorem not_tooDeep_element (c p : Value) : ¬ TooDeep (element c p) := by
  rintro ⟨limit, h⟩
  unfold element at h
  split at h
  · split at h <;> cases h
  · cases h

/-- Instructions that change the operands alone need no frame. They fail for many reasons, but each of these is
another error. -/
theorem not_tooDeep_compute (setting : Setting) (globals : Array Value) (frame : Frame) (op : Opcode)
    (operand : Nat) (stack : Array Value) :
    ¬ TooDeep (compute setting globals frame op operand stack) := by
  unfold compute
  -- Each instruction pops, computes and pushes, and none of these needs a frame.
  cases op with
  | constant | getGlobal | getBuiltin =>
    dsimp only
    split
    · exact not_tooDeep_push _ _
    · rintro ⟨limit, ⟨⟩⟩
  | getLocal =>
    dsimp only
    split
    · exact not_tooDeep_push _ _
    · rintro ⟨limit, ⟨⟩⟩
  | add | sub | mul | div | equal | notEqual | greaterThan =>
    exact not_tooDeep_bind (not_tooDeep_pop _) fun _ => not_tooDeep_bind (not_tooDeep_pop _) fun _ =>
      not_tooDeep_bind (not_tooDeep_binary _ _ _) fun _ => not_tooDeep_push _ _
  | index =>
    exact not_tooDeep_bind (not_tooDeep_pop _) fun _ => not_tooDeep_bind (not_tooDeep_pop _) fun _ =>
      not_tooDeep_bind (not_tooDeep_element _ _) fun _ => not_tooDeep_push _ _
  | pop => exact not_tooDeep_bind (not_tooDeep_pop _) fun _ => not_tooDeep_ok _
  | pushTrue | pushFalse | pushNull => exact not_tooDeep_push _ _
  | minus =>
    refine not_tooDeep_bind (not_tooDeep_pop _) ?_
    rintro ⟨v, rest⟩
    cases v with
    | int n => exact not_tooDeep_bind (not_tooDeep_checked _) fun _ => not_tooDeep_push _ _
    | _ => rintro ⟨limit, ⟨⟩⟩
  | bang => exact not_tooDeep_bind (not_tooDeep_pop _) fun _ => not_tooDeep_push _ _
  | setLocal =>
    refine not_tooDeep_bind (not_tooDeep_pop _) fun _ => ?_
    dsimp only
    split
    · exact not_tooDeep_ok _
    · rintro ⟨limit, ⟨⟩⟩
  | array =>
    dsimp only
    split
    · exact not_tooDeep_push _ _
    · rintro ⟨limit, ⟨⟩⟩
  | jumpNotTruthy | jump | setGlobal | call | returnValue | ret | throwValue => exact not_tooDeep_ok _

end

/-! ### Calls -/

def depth (m : Machine) : Nat := m.callers.length + 1

/-- Is the operand below the topmost `args` ones a function that takes as many arguments? Builtins are called
without a frame, and whatever else is called is refused before frames are counted. -/
def Callable (args : Nat) (stack : Array Value) : Prop :=
  args + 1 ≤ stack.size ∧ ∃ f, stack[stack.size - (args + 1)]? = some (.function f) ∧ f.params = args

/-- Is a machine about to call a function with as many arguments as it takes? This is where the number of frames
matters. -/
def AtCall (m : Machine) : Prop :=
  ∃ operand next, m.frame.function.code.fetch m.frame.ip = .ok ⟨.call, operand, next⟩ ∧
    Callable operand m.stack

variable {setting setting' : Setting} {g g₁ : Array Value} {m m₁ : Machine} {stack : Array Value}
variable {maxFrames maxFrames' depth args : Nat}

/-- A call that would otherwise enter a function needs a frame for it. There are none left if as many are in
progress as there may be. -/
theorem tooDeep_enter_iff :
    TooDeep (enter maxFrames depth args stack) ↔ maxFrames ≤ depth ∧ Callable args stack := by
  unfold enter Callable
  by_cases hsize : stack.size < args + 1
  · rw [if_pos hsize]
    constructor
    · rintro ⟨limit, ⟨⟩⟩
    · rintro ⟨-, hle, -⟩
      omega
  rw [if_neg hsize]
  simp only
  have hle : args + 1 ≤ stack.size := by omega
  cases hcallee : stack[stack.size - (args + 1)]? with
  | none => simp [TooDeep]
  | some callee =>
    cases callee with
    | function f =>
      -- The arguments are counted before the frames, and the frames before the operands.
      by_cases harity : args = f.params
      · by_cases hdepth : maxFrames ≤ depth
        · simp [TooDeep, harity, hdepth]
          omega
        · simp only [harity, ne_eq, not_true_eq_false, if_false, hdepth, false_and, iff_false]
          split
          · rintro ⟨limit, ⟨⟩⟩
          · exact not_tooDeep_ok _
      · have hother : ¬ f.params = args := fun h => harity h.symm
        simp [TooDeep, harity, hother]
    | builtin b =>
      simp only
      cases b.apply _ with
      | ok v =>
        have hspared := not_tooDeep_bind (not_tooDeep_push (stack.shrink (stack.size - (args + 1))) v)
          fun stack' => not_tooDeep_ok ((none : Option Frame), stack')
        simpa using hspared
      | error cause => simp [TooDeep]
    | _ => simp [TooDeep]

/-- How many frames there may be matters to no other calls. -/
theorem enter_congr
    (h : Callable args stack → maxFrames' = maxFrames ∨ depth < maxFrames ∧ depth < maxFrames') :
    enter maxFrames' depth args stack = enter maxFrames depth args stack := by
  unfold Callable at h
  unfold enter
  split
  · rfl
  · rename_i hsize
    simp only
    split
    · rename_i f hcallee
      split
      · rfl
      · rename_i harity
        have hcallable : Callable args stack := ⟨by omega, f, hcallee, (not_ne_iff.mp harity).symm⟩
        rcases h hcallable with rfl | ⟨hroom, hroom'⟩
        · rfl
        · rw [if_neg (Nat.not_le.mpr hroom), if_neg (Nat.not_le.mpr hroom')]
    all_goals rfl

/-- A call that is made is made with more frames, too. -/
theorem enter_of_ok {entered : Option Frame × Array Value}
    (h : enter maxFrames depth args stack = .ok entered) (hroom : depth < maxFrames') :
    enter maxFrames' depth args stack = .ok entered := by
  refine (enter_congr fun hcallable => .inr ⟨Nat.not_le.mp fun hle => ?_, hroom⟩).trans h
  obtain ⟨limit, hfails⟩ := tooDeep_enter_iff.mpr ⟨hle, hcallable⟩
  cases h.symm.trans hfails

/-! ### Steps -/

theorem not_tooDeep_leave (frame : Frame) (callers : List Frame) (stack : Array Value) (value : Value)
    (result : Option Value) : ¬ TooDeep (leave frame callers stack value result) := by
  unfold leave
  split
  · exact not_tooDeep_ok _
  · exact not_tooDeep_bind (not_tooDeep_push _ _) fun _ => not_tooDeep_ok _

/-- Only calls need frames. -/
theorem not_tooDeep_execute {op : Opcode} (hop : op ≠ .call) {operand : Nat} {frame : Frame}
    {callers : List Frame} : ¬ TooDeep (execute setting g op operand frame callers stack) := by
  by_cases hcomputes : op.computes = true
  · rw [execute_of_computes hcomputes]
    exact not_tooDeep_bind (not_tooDeep_compute _ _ _ _ _ _) fun _ => not_tooDeep_ok _
  · unfold execute
    cases op with
    | jump => exact not_tooDeep_ok _
    | jumpNotTruthy =>
      refine not_tooDeep_bind (not_tooDeep_pop _) fun _ => ?_
      dsimp only
      split <;> exact not_tooDeep_ok _
    | setGlobal => exact not_tooDeep_bind (not_tooDeep_pop _) fun _ => not_tooDeep_ok _
    | call => exact absurd rfl hop
    | returnValue => exact not_tooDeep_bind (not_tooDeep_pop _) fun _ => not_tooDeep_leave _ _ _ _ _
    | ret => exact not_tooDeep_leave _ _ _ _ _
    | throwValue =>
      refine not_tooDeep_bind (not_tooDeep_pop _) fun _ => ?_
      rintro ⟨limit, ⟨⟩⟩
    | _ => exact absurd rfl hcomputes

/-- A step needs a frame that there is not exactly where it would enter a function. So it can be read off a
machine whether its next step fails for want of a frame. -/
theorem tooDeep_step_iff :
    TooDeep (step setting g m) ↔ setting.maxFrames ≤ m.depth ∧ m.AtCall := by
  obtain ⟨frame, callers, stack⟩ := m
  unfold step AtCall
  simp only [Machine.depth]
  cases hfetch : frame.function.code.fetch frame.ip with
  | error cause => simp [TooDeep]
  | ok i =>
    obtain ⟨op, operand, next⟩ := i
    simp only
    by_cases hop : op = .call
    · subst hop
      have hcall : TooDeep (execute setting g .call operand { frame with ip := next } callers stack) ↔
          TooDeep (enter setting.maxFrames (callers.length + 1) operand stack) := by
        unfold execute
        cases enter setting.maxFrames (callers.length + 1) operand stack with
        | error error => simp [TooDeep, bind, Except.bind]
        | ok entered =>
          obtain ⟨called, stack'⟩ := entered
          cases called <;> simp [TooDeep, bind, Except.bind]
      rw [hcall, tooDeep_enter_iff]
      simp
    · have hspared : ¬ TooDeep (execute setting g op operand { frame with ip := next } callers stack) :=
        not_tooDeep_execute hop
      simp [hspared, hop]

/-- What a step reads of the pool is there in a longer one. -/
theorem compute_congr (hpool : Continues setting.constants setting'.constants) (frame : Frame) (op : Opcode)
    (operand : Nat) (stack : Array Value) :
    compute setting' g frame op operand stack = compute setting g frame op operand stack ∨
      ∃ index, compute setting g frame op operand stack = .error (.constantNotLoaded index) := by
  unfold compute
  cases op with
  | constant =>
    dsimp only
    cases hconstant : setting.constants[frame.function.constantsOffset + operand]? with
    | some v =>
      rw [hpool _ v hconstant]
      exact .inl rfl
    | none => exact .inr ⟨_, rfl⟩
  | _ => exact .inl rfl

/-- A step is the same in another setting, unless a constant is missing in the first one, or it is a call that
there are frames for in one setting only. -/
theorem step_congr (hpool : Continues setting.constants setting'.constants)
    (hroom : m.AtCall → setting'.maxFrames = setting.maxFrames ∨
      m.depth < setting.maxFrames ∧ m.depth < setting'.maxFrames) :
    step setting' g m = step setting g m ∨
      ∃ index, step setting g m = .error (.constantNotLoaded index) := by
  obtain ⟨frame, callers, stack⟩ := m
  unfold AtCall at hroom
  unfold step
  simp only
  cases hfetch : frame.function.code.fetch frame.ip with
  | error cause => exact .inl rfl
  | ok i =>
    obtain ⟨op, operand, next⟩ := i
    simp only
    -- The pool matters to instructions that change operands alone, the number of frames to calls alone.
    by_cases hcomputes : op.computes = true
    · rw [execute_of_computes hcomputes, execute_of_computes hcomputes]
      rcases compute_congr hpool { frame with ip := next } op operand stack with hsame | ⟨index, hmissing⟩
      · rw [hsame]
        exact .inl rfl
      · rw [hmissing]
        exact .inr ⟨index, rfl⟩
    · refine .inl ?_
      unfold execute
      cases op with
      | call =>
        have henter : enter setting'.maxFrames (callers.length + 1) operand stack =
            enter setting.maxFrames (callers.length + 1) operand stack :=
          enter_congr fun hcallable => hroom ⟨operand, next, hfetch, hcallable⟩
        simp only [henter]
      | jump | jumpNotTruthy | setGlobal | returnValue | ret | throwValue => rfl
      | _ => exact absurd rfl hcomputes

/-! ### Runs -/

/-- A step that succeeds is the same in another setting, unless that has no frame for it. -/
theorem step_of_ok (hpool : Continues setting.constants setting'.constants) {action : Action}
    (h : step setting g m = .ok action) :
    step setting' g m = .ok action ∨
      m.AtCall ∧ setting'.maxFrames ≤ m.depth ∧ m.depth < setting.maxFrames := by
  by_cases hcall : m.AtCall
  · have hroom : m.depth < setting.maxFrames := by
      refine Nat.not_le.mp fun hle => ?_
      obtain ⟨limit, hfails⟩ := tooDeep_step_iff.mpr ⟨hle, hcall⟩
      cases h.symm.trans hfails
    by_cases hroom' : m.depth < setting'.maxFrames
    · rcases step_congr hpool fun _ => .inr ⟨hroom, hroom'⟩ with hsame | ⟨index, hmissing⟩
      · exact .inl (hsame.trans h)
      · cases h.symm.trans hmissing
    · exact .inr ⟨hcall, Nat.not_lt.mp hroom', hroom⟩
  · rcases step_congr hpool fun h => absurd h hcall with hsame | ⟨index, hmissing⟩
    · exact .inl (hsame.trans h)
    · cases h.symm.trans hmissing

/-- A run gets to the same machines in another setting, until it comes to a call that there is no frame for. The
pool may be longer there, and frames more or fewer. -/
theorem Reaches.congr (hpool : Continues setting.constants setting'.constants)
    (h : Reaches setting g m g₁ m₁) :
    Reaches setting' g m g₁ m₁ ∨ ∃ g₂ m₂, Reaches setting' g m g₂ m₂ ∧ m₂.AtCall ∧
      setting'.maxFrames ≤ m₂.depth ∧ m₂.depth < setting.maxFrames := by
  induction h with
  | refl => exact .inl .refl
  | @next g g₁ m m' m₁ hstep _ ih =>
    rcases step_of_ok hpool hstep with hstep' | hcall
    · refine ih.imp (.next hstep') ?_
      rintro ⟨g₂, m₂, hreach, hcall⟩
      exact ⟨g₂, m₂, .next hstep' hreach, hcall⟩
    · exact .inr ⟨g, m, .refl, hcall⟩
  | @assign g g₁ m m' m₁ index v hstep _ ih =>
    rcases step_of_ok hpool hstep with hstep' | hcall
    · refine ih.imp (.assign hstep') ?_
      rintro ⟨g₂, m₂, hreach, hcall⟩
      exact ⟨g₂, m₂, .assign hstep' hreach, hcall⟩
    · exact .inr ⟨g, m, .refl, hcall⟩

/-- A run that fails for want of a frame has come to a call where there were none left. -/
theorem Ends.reaches_of_tooDeep {ran : Ran (Option Value)} (hends : Ends setting g m ran)
    (h : TooDeep ran.result) :
    ∃ g₁ m₁, Reaches setting g m g₁ m₁ ∧ m₁.AtCall ∧ setting.maxFrames ≤ m₁.depth := by
  obtain ⟨result, g₁⟩ := ran
  obtain ⟨limit, hresult⟩ := h
  obtain rfl : result = .error (.callDepth limit) := hresult
  obtain ⟨m₁, hreach, hadvance⟩ := hends
  unfold advance at hadvance
  simp only at hadvance
  split at hadvance
  · rename_i cause hstep
    cases hadvance
    obtain ⟨hdepth, hcall⟩ := tooDeep_step_iff.mp ⟨limit, hstep⟩
    exact ⟨g₁, m₁, hreach, hcall, hdepth⟩
  all_goals cases hadvance

/-- A run that comes to a call at such a depth, if it has frames enough, fails for want of them otherwise. -/
theorem Ends.tooDeep_of_reaches {ran : Ran (Option Value)} (hends : Ends setting g m ran)
    (hreach : Reaches ⟨setting.constants, maxFrames⟩ g m g₁ m₁) (hcall : m₁.AtCall)
    (hdepth : setting.maxFrames ≤ m₁.depth) : TooDeep ran.result := by
  have hpool : Continues (Setting.constants ⟨setting.constants, maxFrames⟩) setting.constants :=
    fun _ _ h => h
  have hfails : ∃ g₂ m₂, Reaches setting g m g₂ m₂ ∧ m₂.AtCall ∧ setting.maxFrames ≤ m₂.depth := by
    rcases hreach.congr hpool with hreach' | ⟨g₂, m₂, hreach', hcall', hdepth', -⟩
    · exact ⟨g₁, m₁, hreach', hcall, hdepth⟩
    · exact ⟨g₂, m₂, hreach', hcall', hdepth'⟩
  obtain ⟨g₂, m₂, hreach', hcall', hdepth'⟩ := hfails
  obtain ⟨limit, hstep⟩ := tooDeep_step_iff.mpr ⟨hdepth', hcall'⟩
  have hfail : Fails setting g m (.callDepth limit) g₂ := ⟨m₂, hreach', hstep⟩
  have hran := (run_of_ends hends).symm.trans (run_of_ends hfail.ends)
  exact ⟨limit, congrArg Ran.result hran⟩

/-- With a longer pool and as many frames, a run ends as before. -/
theorem Ends.continues {ran : Ran (Option Value)} (hends : Ends setting g m ran)
    (hpool : Continues setting.constants setting'.constants)
    (hframes : setting'.maxFrames = setting.maxFrames)
    (hordinary : ∀ error, ran.result = .error error → error.isOrdinary = true) : Ends setting' g m ran := by
  obtain ⟨result, g₁⟩ := ran
  obtain ⟨m₁, hreach, hadvance⟩ := hends
  rcases hreach.congr hpool with hreach' | ⟨g₂, m₂, -, -, hdepth, hroom⟩
  · refine ⟨m₁, hreach', ?_⟩
    rcases step_congr (g := g₁) (m := m₁) hpool fun _ => .inl hframes with hsame | ⟨index, hmissing⟩
    · unfold advance at hadvance ⊢
      simpa only [hsame] using hadvance
    · unfold advance at hadvance
      simp only [hmissing] at hadvance
      cases hadvance
      cases hordinary _ rfl
  · omega

end Machine

end Notebook
