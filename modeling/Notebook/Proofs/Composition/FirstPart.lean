import Notebook.Proofs.Semantics.EarlyReturns
import Notebook.Proofs.Store.StoreGrowth

/-!
A snippet, and one that begins with the same commands.

The code of a snippet ends with one instruction that leaves, and `layoutBefore` is what comes before
that. A longer snippet has the same code up to there, and then drops the value of the last command if
it has one.

* `Activation.program_follows`: this code does what evaluating the snippet does.
* `reaches_behind`: if the longer snippet runs to its end, then so does the shorter one, and the
  longer one gets behind its code with the same globals.
-/

namespace Notebook

open Semantics (Exec State Calls eval perform evalProgram)

/-! ### Code up to its last instruction -/

/-- The code of a snippet up to the instruction that leaves. In a longer snippet this code is followed by what
drops the value, if there is one, and by the other commands. -/
def layoutBefore : List Command → Nat → List Instr
  | [], _ => []
  | c :: rest, start =>
    match c, rest with
    | .expr value, [] => value.layout start
    | c, rest =>
      let first := c.layout start
      first ++ layoutBefore rest (start + codeSize first)

/-- Is the last command of a snippet an expression? Its value is that of the snippet. -/
def hasValue : List Command → Bool
  | [] => false
  | c :: rest =>
    match c, rest with
    | .expr _, [] => true
    | _, rest => hasValue rest

def leavingInstr (cs : List Command) : Instr := if hasValue cs then ⟨.returnValue, 0⟩ else ⟨.ret, 0⟩

section

variable {c : Command} {rest cs : List Command} {start : Nat}

theorem layoutBefore_cons (h : ¬ ∃ value, c = .expr value ∧ rest = []) :
    layoutBefore (c :: rest) start =
      c.layout start ++ layoutBefore rest (start + codeSize (c.layout start)) := by
  conv => lhs; unfold layoutBefore
  split
  · exact absurd ⟨_, rfl, rfl⟩ h
  · rfl

theorem hasValue_cons (h : ¬ ∃ value, c = .expr value ∧ rest = []) :
    hasValue (c :: rest) = hasValue rest := by
  conv => lhs; unfold hasValue
  split
  · exact absurd ⟨_, rfl, rfl⟩ h
  · rfl

/-- The code of a snippet by itself. -/
theorem layoutProgram_eq (cs : List Command) (start : Nat) :
    layoutProgram cs start = layoutBefore cs start ++ [leavingInstr cs] := by
  induction cs generalizing start with
  | nil => rfl
  | cons c rest ih =>
    by_cases hlast : ∃ value, c = .expr value ∧ rest = []
    · obtain ⟨value, rfl, rfl⟩ := hlast
      rfl
    · rw [layoutProgram_cons hlast, layoutBefore_cons hlast, ih, List.append_assoc, leavingInstr,
        leavingInstr, hasValue_cons hlast]

/-- The code of a snippet where more comes after it. -/
theorem layoutCommands_eq (cs : List Command) (start : Nat) :
    layoutCommands cs start = layoutBefore cs start ++ if hasValue cs then [⟨.pop, 0⟩] else [] := by
  induction cs generalizing start with
  | nil => rfl
  | cons c rest ih =>
    by_cases hlast : ∃ value, c = .expr value ∧ rest = []
    · obtain ⟨value, rfl, rfl⟩ := hlast
      simp [layoutCommands, layoutBefore, hasValue, Command.layout]
    · rw [layoutCommands, layoutBefore_cons hlast, hasValue_cons hlast, ih, List.append_assoc]

theorem size_leavingInstr (cs : List Command) : (leavingInstr cs).size = 1 := by
  unfold leavingInstr
  split <;> rfl

theorem fits_leavingInstr (cs : List Command) : (leavingInstr cs).Fits := by
  unfold leavingInstr
  split <;> rfl

theorem fragment_before {P : Use → Prop} (cs : List Command) (huses : ∀ u ∈ usesOfCommands cs, P u) :
    ∃ h, Fragment P 0 0 (layoutBefore cs 0) h := by
  obtain ⟨body, last, h, hlayout, -, -, hfragment⟩ := leaving_of_program cs 0 huses
  rw [layoutProgram_eq] at hlayout
  obtain ⟨rfl, -⟩ := List.append_inj' hlayout rfl
  exact ⟨h, hfragment⟩

/-- The instruction that a snippet leaves by ends its run, unless there is no operand to return. -/
theorem execute_leaving (cs : List Command) (setting : Setting) (g : Array Value) (frame : Frame)
    (stack : Array Value) :
    (∃ value, Machine.execute setting g (leavingInstr cs).opcode (leavingInstr cs).operand frame []
        stack = .ok (.finish value)) ∨
      ∃ error, Machine.execute setting g (leavingInstr cs).opcode (leavingInstr cs).operand frame []
        stack = .error error ∧ error.isOrdinary = false := by
  unfold leavingInstr
  split
  · unfold Machine.execute Machine.pop
    cases stack.back? with
    | some v => exact .inl ⟨some v, rfl⟩
    | none => exact .inr ⟨_, rfl, rfl⟩
  · exact .inl ⟨none, rfl⟩

end

/-- The code up to where a snippet leaves does what evaluating the snippet does. -/
theorem Activation.program_follows {a : Activation} {calls : Calls}
    (hcalls : a.world.CallsFollow (a.callers.length + 1) calls) (hheight : a.height = 0) :
    ∀ (cs : List Command) {ip : Nat}, (∀ u ∈ usesOfCommands cs, u.Allowed a.bounds) →
      a.Holds ip (layoutBefore cs ip) →
      a.Follows (evalProgram calls cs) ip #[] (ip + codeSize (layoutBefore cs ip)) Option.toArray
        (fun o => o.isSome = hasValue cs)
  | [], ip, huses, hcode => follows_pure rfl rfl
  | c :: rest, ip, huses, hcode => by
    have huses₁ : ∀ u ∈ c.uses, u.Allowed a.bounds :=
      fun u hu => huses u (List.mem_append_left _ hu)
    have huses₂ : ∀ u ∈ usesOfCommands rest, u.Allowed a.bounds :=
      fun u hu => huses u (List.mem_append_right _ hu)
    by_cases hlast : ∃ value, c = .expr value ∧ rest = []
    · obtain ⟨value, rfl, rfl⟩ := hlast
      have heval := @eval_follows _ _ hcalls value _ #[] huses₁ hcode
      rw [hheight] at heval
      exact follows_bind heval fun v _ => follows_pure rfl rfl
    · rw [layoutBefore_cons hlast] at hcode ⊢
      rw [Semantics.evalProgram_cons hlast, hasValue_cons hlast, codeSize_append, ← Nat.add_assoc]
      obtain ⟨hfirst, hrest⟩ := holds_append.mp hcode
      have hperform := @perform_follows _ _ hcalls c _ #[] huses₁ hfirst
      rw [hheight] at hperform
      exact follows_bind hperform fun _ _ => program_follows hcalls hheight rest huses₂ hrest

/-! ### Pools and globals that go on -/

/-- Does a pool go on after another one? -/
def Continues (pool pool' : Array Value) : Prop :=
  ∀ (i : Nat) (v : Value), pool[i]? = some v → pool'[i]? = some v

theorem continues_append (pool more : Array Value) : Continues pool (pool ++ more) := by
  intro i v hi
  exact (Array.getElem?_append_left (Array.getElem?_eq_some_iff.mp hi).1).trans hi

theorem Continues.trans {pool pool₁ pool₂ : Array Value} (h₁ : Continues pool pool₁)
    (h₂ : Continues pool₁ pool₂) : Continues pool pool₂ :=
  fun i v hi => h₂ i v (h₁ i v hi)

theorem Store.padded_padded {g : Array Value} {k m : Nat} (h : k ≤ m) :
    padded (padded g k) m = padded g m := by
  unfold padded
  rw [Array.append_assoc, Array.replicate_append_replicate, Array.size_append, Array.size_replicate]
  congr 2
  omega

theorem assign_padded {g : Array Value} {index n : Nat} {v : Value} (h : index < g.size) :
    Machine.assign (Store.padded g n) index v = Store.padded (Machine.assign g index v) n := by
  have hpadded : index < (Store.padded g n).size := by
    rw [Store.padded, Array.size_append]
    omega
  unfold Machine.assign
  rw [if_pos h, if_pos hpadded, Store.padded, Store.padded, Array.size_setIfInBounds,
    Array.setIfInBounds_append_left h]

/-! ### Beside a longer snippet -/

/-- A world beside one with a longer pool, where nulls fill the globals up to `n`. Functions are the same in
both, since the longer pool goes on after the shorter one. -/
def World.padding (w : World) (constants : Array Value) (n : Nat) : Pairing where
  setting := w.setting
  setting' := ⟨constants, w.setting.maxFrames⟩
  same f f' := f = f' ∧ w.Known f
  globals g g' := w.Fits g ∧ g' = Store.padded g n

theorem World.padding_extends {w : World} {constants : Array Value} {n : Nat}
    (h : Continues w.setting.constants constants) :
    (w.padding constants n).Extends w where
  setting := rfl
  maxFrames := rfl
  constants := h
  same _ _ := Iff.rfl
  globals := by
    rintro g _ ⟨hfits, rfl⟩
    exact ⟨hfits, continues_append g _⟩

def leavesAt (cs : List Command) (frame : Frame) : Prop := frame.ip = codeSize (layoutBefore cs 0)

/-- A machine that leaves a snippet gets nowhere else: the instruction there ends the run or fails as no
ordinary program does. -/
theorem Machine.Reaches.of_leaving {setting : Setting} {main : FunctionCode} {cs : List Command}
    {g₁ g₂ : Array Value} {m₁ m₂ : Machine} (hcode : main.code.Holds 0 (layoutProgram cs 0))
    (hfunction : m₁.frame.function = main) (hleaves : m₁.Stopped (leavesAt cs))
    (hreach : Machine.Reaches setting g₁ m₁ g₂ m₂) :
    g₂ = g₁ ∧ m₂ = m₁ ∧ ((∃ value, Machine.step setting g₁ m₁ = .ok (.finish value)) ∨
      ∃ error, Machine.step setting g₁ m₁ = .error error ∧ error.isOrdinary = false) := by
  obtain ⟨⟨function, ip, base⟩, callers, stack⟩ := m₁
  obtain ⟨rfl, rfl⟩ := hleaves
  obtain rfl : main = function := hfunction.symm
  rw [layoutProgram_eq] at hcode
  have hhere := (Code.holds_append.mp hcode).2
  rw [Nat.zero_add] at hhere
  have hexecute : Machine.step setting g₁ ⟨⟨main, codeSize (layoutBefore cs 0), base⟩, [], stack⟩ =
      Machine.execute setting g₁ (leavingInstr cs).opcode (leavingInstr cs).operand
        ⟨main, codeSize (layoutBefore cs 0) + (leavingInstr cs).size, base⟩ [] stack :=
    Machine.step_of_fetch hhere.1
  have hstep := execute_leaving cs setting g₁ ⟨main, codeSize (layoutBefore cs 0) +
    (leavingInstr cs).size, base⟩ stack
  rw [← hexecute] at hstep
  cases hreach with
  | refl => exact ⟨rfl, rfl, hstep⟩
  | next h _ => rcases hstep with ⟨_, hstep⟩ | ⟨_, hstep, -⟩ <;> cases h.symm.trans hstep
  | assign h _ => rcases hstep with ⟨_, hstep⟩ | ⟨_, hstep, -⟩ <;> cases h.symm.trans hstep

/-- What a snippet, in its world, and a longer one have in common: the longer one's pool goes on after that of
the shorter one, and its code begins with the same commands. The rest of the longer snippet is left open. -/
structure BeginsAlike (w : World) (main : FunctionCode) (cs : List Command)
    (constants : Array Value) (main' : FunctionCode) : Prop where
  linked : w.Linked
  locals : main.locals = 0
  offset : main.constantsOffset = main'.constantsOffset
  constants : Continues w.setting.constants constants
  uses : ∀ u ∈ usesOfCommands cs, u.Allowed (w.bounds main true)
  code : main.code.Holds 0 (layoutProgram cs 0)
  code' : main'.code.Holds 0 (layoutCommands cs 0)

namespace BeginsAlike

variable {w : World} {main main' : FunctionCode} {cs : List Command} {constants : Array Value}
variable {n : Nat} {g g₁ : Array Value} {m₁ : Machine}

/-- Both outermost frames are at the same place of the code that the snippets share. -/
def Places (main main' : FunctionCode) (cs : List Command) : Frame → Frame → Prop :=
  Pairing.Along main main' 0 0 (Boundary 0 (layoutBefore cs 0))

theorem before (h : BeginsAlike w main cs constants main') :
    main.code.Holds 0 (layoutBefore cs 0) ∧ main'.code.Holds 0 (layoutBefore cs 0) := by
  have hcode := h.code
  have hcode' := h.code'
  rw [layoutProgram_eq] at hcode
  rw [layoutCommands_eq] at hcode'
  exact ⟨(Code.holds_append.mp hcode).1, (Code.holds_append.mp hcode').1⟩

/-- The same is read from both snippets, until the shorter one leaves. -/
theorem closed (h : BeginsAlike w main cs constants main') (n : Nat) :
    (w.padding constants n).Closed (leavesAt cs) (Places main main' cs) := by
  have hextends : (w.padding constants n).Extends w := World.padding_extends h.constants
  obtain ⟨hcode, hcode'⟩ := h.before
  obtain ⟨-, height, -, -, hbalanced, hmeets⟩ := fragment_before cs h.uses
  refine Pairing.along_closed hcode hcode' ?_ ?_ (fun q i hi _ => hi.next)
    (fun q i hi hjumps => (hbalanced.jumps q i hi hjumps).2.1)
  · refine List.forall₂_same.mpr fun i hi => ?_
    refine hextends.alike h.offset (hmeets i hi) ?_
    rintro index rfl g _ v v' ⟨hfits, rfl⟩ hv
    obtain rfl := hextends.eq_of_related hv
    have hlt : index < w.globals := (hmeets _ hi).1
    have hbound : index < g.size := hfits.1.symm ▸ hlt
    exact ⟨hfits.assign hlt (hextends.madeOf_of_related hv), assign_padded hbound⟩
  · intro q base hq hgoes
    refine hq.stands ?_
    have hle := hq.le
    have hne : q ≠ codeSize (layoutBefore cs 0) := hgoes
    omega

/-- Wherever the shorter snippet gets to, the longer one gets to. -/
theorem reaches (h : BeginsAlike w main cs constants main') (hfits : w.Fits g) (n : Nat)
    (hreach : Machine.Reaches w.setting g ⟨⟨main, 0, 0⟩, [], #[]⟩ g₁ m₁) :
    ∃ m₂, Machine.Reaches ⟨constants, w.setting.maxFrames⟩ (Store.padded g n)
        ⟨⟨main', 0, 0⟩, [], #[]⟩ (Store.padded g₁ n) m₂ ∧ w.Fits g₁ ∧
      (w.padding constants n).Paired (Places main main' cs) m₁ m₂ := by
  have hextends : (w.padding constants n).Extends w := World.padding_extends h.constants
  have hpaired : (w.padding constants n).Paired (Places main main' cs) ⟨⟨main, 0, 0⟩, [], #[]⟩
      ⟨⟨main', 0, 0⟩, [], #[]⟩ :=
    ⟨.outermost ⟨rfl, rfl, rfl, rfl, boundary_start⟩, .empty⟩
  obtain ⟨g₂, m₂, _, m₂', hafter, hreach', ⟨hfits₂, rfl⟩, hpaired₂, hleaves | ⟨rfl, rfl⟩⟩ :=
    hpaired.reaches (hextends.sound h.linked) (h.closed n) ⟨hfits, rfl⟩ (.inl hextends.biUnique)
      hreach
  · obtain ⟨hplaces, -⟩ := hpaired₂.frames.outermost_of_callers hleaves.1
    obtain ⟨rfl, rfl, -⟩ := hafter.of_leaving h.code hplaces.function hleaves
    exact ⟨m₂', hreach', hfits₂, hpaired₂⟩
  · exact ⟨m₂', hreach', hfits₂, hpaired₂⟩

/-- If the shorter snippet fails in an ordinary way, then so does the longer one. The two run in lock-step until
then, and the failure comes before either gets to its end. -/
theorem fails (h : BeginsAlike w main cs constants main') (hfits : w.Fits g) (n : Nat)
    {error : RunError} (hordinary : error.isOrdinary = true)
    (hfail : Machine.Fails w.setting g ⟨⟨main, 0, 0⟩, [], #[]⟩ error g₁) :
    Machine.Fails ⟨constants, w.setting.maxFrames⟩ (Store.padded g n) ⟨⟨main', 0, 0⟩, [], #[]⟩ error
      (Store.padded g₁ n) := by
  have hextends : (w.padding constants n).Extends w := World.padding_extends h.constants
  obtain ⟨m₁, hreach, hstep⟩ := hfail
  obtain ⟨m₂, hreach', hfits₁, hpaired⟩ := h.reaches hfits n hreach
  have hgoes : ¬ m₁.Stopped (leavesAt cs) := by
    intro hleaves
    obtain ⟨hplaces, -⟩ := hpaired.frames.outermost_of_callers hleaves.1
    have hhere : Machine.Reaches w.setting g₁ m₁ g₁ m₁ := .refl
    obtain ⟨-, -, ⟨value, hfinish⟩ | ⟨error', herror, hnot⟩⟩ :=
      hhere.of_leaving h.code hplaces.function hleaves
    · cases hstep.symm.trans hfinish
    · cases hstep.symm.trans herror
      cases hordinary.symm.trans hnot
  have hsteps := hpaired.step (hextends.sound h.linked) (h.closed n) ⟨hfits₁, rfl⟩ hgoes
    (.inl hextends.biUnique)
  rcases hsteps.cases with ⟨action, _, haction, -⟩ | ⟨error', herror, herror'⟩
  · cases hstep.symm.trans haction
  · cases hstep.symm.trans herror
    exact ⟨m₂, hreach', herror'⟩

/-- Where the shorter snippet leaves, the longer one drops what there is to return, and goes on. -/
theorem reaches_behind (h : BeginsAlike w main cs constants main') (hfits : w.Fits g) (n : Nat)
    {value : Option Value} (hvalue : value.isSome = hasValue cs)
    (hreach : Machine.Reaches w.setting g ⟨⟨main, 0, 0⟩, [], #[]⟩ g₁
      ⟨⟨main, codeSize (layoutBefore cs 0), 0⟩, [], value.toArray⟩) :
    Machine.Reaches ⟨constants, w.setting.maxFrames⟩ (Store.padded g n) ⟨⟨main', 0, 0⟩, [], #[]⟩
      (Store.padded g₁ n) ⟨⟨main', codeSize (layoutCommands cs 0), 0⟩, [], #[]⟩ := by
  obtain ⟨⟨⟨_, ip, _⟩, callers, stack⟩, hreach', -, hframes, hstack⟩ := h.reaches hfits n hreach
  obtain ⟨⟨-, rfl, rfl, hip, -⟩, rfl⟩ := hframes.outermost_of_callers rfl
  obtain rfl : codeSize (layoutBefore cs 0) = ip := hip
  refine hreach'.trans ?_
  have hcode' := h.code'
  rw [layoutCommands_eq] at hcode' ⊢
  have hclosing := (Code.holds_append.mp hcode').2
  rw [Nat.zero_add] at hclosing
  rw [codeSize_append, ← hvalue] at *
  cases value with
  | none =>
    obtain rfl : stack = #[] := Array.eq_empty_of_size_eq_zero hstack.size_eq.symm
    exact .refl
  | some v =>
    obtain ⟨v', rfl⟩ : ∃ v', stack = #[v'] := Array.size_eq_one_iff.mp hstack.size_eq.symm
    refine .single ((Machine.step_of_fetch hclosing.1).trans ?_)
    rfl

end BeginsAlike

/-- If a snippet runs to its end, then so does one whose commands come first in it and do not return.
The longer snippet gets behind the shorter one's code with the same globals. -/
theorem BeginsAlike.finishes {w : World} {main main' : FunctionCode} {cs : List Command}
    {constants : Array Value} {n : Nat} {g g' : Array Value} {value' : Option Value}
    (h : BeginsAlike w main cs constants main') (hfits : w.Fits g)
    (hstays : ∀ (calls : Calls) (c : Command), c ∈ cs → ∀ height, (perform calls c height).Stays)
    (hrun : Machine.run ⟨constants, w.setting.maxFrames⟩ (Store.padded g n)
      ⟨⟨main', 0, 0⟩, [], #[]⟩ = ⟨.ok value', g'⟩) :
    ∃ value g₁, Semantics.run w.routines w.setting.maxFrames cs g = ⟨.ok value, g₁⟩ ∧
      Machine.Reaches ⟨constants, w.setting.maxFrames⟩ (Store.padded g n) ⟨⟨main', 0, 0⟩, [], #[]⟩
        (Store.padded g₁ n) ⟨⟨main', codeSize (layoutCommands cs 0), 0⟩, [], #[]⟩ := by
  let a : Activation := ⟨w, main, [], #[], true, g⟩
  have hsound : a.Sound ⟨g, #[]⟩ :=
    ⟨hfits, h.locals.symm, fun v hv => absurd hv (Array.not_mem_empty v), fun h => by cases h⟩
  have hcalls := calls_follow h.linked (w.setting.maxFrames - 1) 1 rfl
  -- The machine does what the evaluator does with the first commands, up to where the shorter snippet leaves.
  have hfollows : a.Follows _ 0 #[] (0 + codeSize (layoutBefore cs 0)) Option.toArray _ :=
    Activation.program_follows hcalls (by simpa [Activation.height, a] using h.locals) cs h.uses
      h.before.1
  have hgoesOn := hfollows _ hsound
  unfold Semantics.run
  have hnever := Semantics.evalProgram_stays (hstays (Semantics.callsWithin w.routines
    w.setting.maxFrames (w.setting.maxFrames - 1))) ⟨g, #[]⟩
  rcases hend : evalProgram (Semantics.callsWithin w.routines w.setting.maxFrames
    (w.setting.maxFrames - 1)) cs ⟨g, #[]⟩ with ⟨flow, ⟨g₁, locals⟩⟩
  rw [hend] at hgoesOn hnever
  -- These commands come to a value, or they fail, and then the longer run would fail as well. They do not
  -- return.
  cases flow with
  | value value =>
    obtain ⟨hs, hvalue, hreach⟩ := hgoesOn
    have hempty : locals = #[] := Array.eq_empty_of_size_eq_zero (hs.locals.trans h.locals)
    refine ⟨value, g₁, rfl, h.reaches_behind hfits n hvalue ?_⟩
    simpa [Activation.machine, Activation.frame, Activation.stack, a, hempty] using hreach
  | returned v => exact absurd rfl (hnever v)
  | failed error =>
    obtain ⟨-, hordinary, hfail⟩ := hgoesOn
    have hfail' := h.fails hfits n hordinary hfail
    cases hrun.symm.trans (Machine.run_of_ends hfail'.ends)

end Notebook
