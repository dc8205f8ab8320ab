import Notebook.Bytecode.Listing
import Notebook.Proofs.Bytecode.Fragments
import Notebook.Proofs.Store.LinkedUnits

/-!
Well-formed code, and that the compiler emits no other.

`Code.WellFormed` says that code splits into instructions, that jumps lead forward to instructions
of it, that operands are within their limits, that control leaves at the end at the latest, and that
every place has one height: the number of operands there, on whatever path control gets to it.

* `Machine.follows_of_step`: within a frame the machine keeps to the paths and their heights.
* `Leaving.within`: code that splits into a fragment and an instruction that leaves is
  well-formed.
* `Code.Splits.listing_eq`: the listing of code that splits into instructions shows all of them.
* `Compiler.Reachable.wellFormed`: whatever was compiled, kept and restored before, the code of a
  unit and of all its functions is well-formed.
-/

namespace Notebook

/-! ### Well-formed code -/

/-- How far the operands of some code may reach. Only the top level of a snippet may assign globals; a function
has locals for that. -/
structure Limits where
  constants : Nat
  globals : Nat
  locals : Nat
  top : Bool

/-- Is the operand of an instruction within its limit? -/
def Instr.Within (l : Limits) (i : Instr) : Prop :=
  match i.opcode with
  | .constant => i.operand < l.constants
  | .getGlobal => i.operand < l.globals
  | .setGlobal => l.top = true ∧ i.operand < l.globals
  | .getLocal | .setLocal => i.operand < l.locals
  | .getBuiltin => i.operand < Builtin.all.length
  | _ => True

/-- Does control get to a place on some path through the code, with this number of operands? Both ways of a
conditional jump count, whatever the condition is. -/
inductive Arrives (is : List Instr) : Nat → Nat → Prop where
  | start : Arrives is 0 0
  | goesOn {p h : Nat} {i : Instr} (before : Arrives is p h) (stands : Stands 0 is p i)
      (goes : i.opcode.goesOn = true) : Arrives is (p + i.size) (i.after h)
  | jumps {p h : Nat} {i : Instr} (before : Arrives is p h) (stands : Stands 0 is p i)
      (jumps : i.opcode.jumps = true) : Arrives is i.operand (i.after h)

/-- Code that splits into instructions within their limits, with jumps that lead forward to instructions of it,
with a return at its end, and with one height at each place. Nothing is said of a run: it is a property of the
bytes. -/
structure Code.WellFormed (code : Code) (l : Limits) (is : List Instr) : Prop where
  splits : code.Splits is
  jumps : ∀ p i, Stands 0 is p i → i.opcode.jumps = true →
    p < i.operand ∧ i.operand < code.size ∧ ∃ j, Stands 0 is i.operand j
  within : ∀ i ∈ is, i.Within l
  ends : ∃ last, is.getLast? = some last ∧ (last.opcode = .ret ∨ last.opcode = .returnValue)
  heights : ∃ height : Nat → Nat,
    Balanced (fun p => ∃ i, Stands 0 is p i) 0 is height ∧
      ∀ p h, Arrives is p h → h = height p

/-- Where control arrives there is the height of the place. -/
theorem Arrives.eq_height {targets : Nat → Prop} {is : List Instr} {height : Nat → Nat} {p h : Nat}
    (hbalanced : Balanced targets 0 is height) (hstart : height 0 = 0) (harrives : Arrives is p h) :
    h = height p := by
  induction harrives with
  | start => exact hstart.symm
  | goesOn before stands goes ih =>
    subst ih
    exact (hbalanced.goesOn _ _ stands goes).symm
  | jumps before stands jumps ih =>
    subst ih
    exact (hbalanced.jumps _ _ stands jumps).2.2.symm

/-! ### Heights and the machine -/

section

open Machine

variable {setting : Setting} {g stack stack' : Array Value} {frame : Frame} {v : Value}

theorem Machine.size_of_push (h : push stack v = .ok stack') : stack'.size = stack.size + 1 := by
  rw [push_eq] at h
  split at h <;> cases h
  exact Array.size_push v

theorem Machine.size_of_pop (h : pop stack = .ok (v, stack')) : stack.size = stack'.size + 1 := by
  unfold pop at h
  split at h <;> cases h
  rename_i hback
  have hpos : 0 < stack.size := by
    rcases Nat.eq_zero_or_pos stack.size with hzero | hpos
    · rw [Array.size_eq_zero_iff.mp hzero] at hback
      cases hback
    · exact hpos
  rw [Array.size_pop]
  omega

/-- An instruction that changes the operands alone takes and leaves as many as its height says. -/
theorem Machine.size_of_compute {op : Opcode} {operand : Nat} (hop : op.computes = true)
    (h : compute setting g frame op operand stack = .ok stack') :
    Instr.pops ⟨op, operand⟩ ≤ stack.size ∧ stack'.size = Instr.after ⟨op, operand⟩ stack.size := by
  unfold compute at h
  unfold Instr.after
  cases op <;> simp only [Instr.pops, Instr.pushes] at h ⊢
  case constant | getGlobal | getLocal | getBuiltin =>
    split at h
    · exact ⟨Nat.zero_le _, size_of_push h⟩
    · cases h
  case pushTrue | pushFalse | pushNull => exact ⟨Nat.zero_le _, size_of_push h⟩
  -- Two operands are taken and one is left, whatever is computed from them.
  case add | sub | mul | div | equal | notEqual | greaterThan | index =>
    obtain ⟨⟨r, rest⟩, hr, h⟩ := bind_eq_ok_iff.mp h
    obtain ⟨⟨l, rest'⟩, hl, h⟩ := bind_eq_ok_iff.mp h
    obtain ⟨w, -, h⟩ := bind_eq_ok_iff.mp h
    have h₁ : stack.size = rest.size + 1 := size_of_pop hr
    have h₂ : rest.size = rest'.size + 1 := size_of_pop hl
    have h₃ : stack'.size = rest'.size + 1 := size_of_push h
    omega
  case pop =>
    obtain ⟨⟨w, rest⟩, hw, h⟩ := bind_eq_ok_iff.mp h
    cases h
    have : stack.size = rest.size + 1 := size_of_pop hw
    simp only
    omega
  case minus =>
    obtain ⟨⟨w, rest⟩, hw, h⟩ := bind_eq_ok_iff.mp h
    have h₁ : stack.size = rest.size + 1 := size_of_pop hw
    cases w with
    | int n =>
      obtain ⟨negated, -, h⟩ := bind_eq_ok_iff.mp h
      have h₂ : stack'.size = rest.size + 1 := size_of_push h
      omega
    | _ => cases h
  case bang =>
    obtain ⟨⟨w, rest⟩, hw, h⟩ := bind_eq_ok_iff.mp h
    have h₁ : stack.size = rest.size + 1 := size_of_pop hw
    have h₂ : stack'.size = rest.size + 1 := size_of_push h
    omega
  case setLocal =>
    obtain ⟨⟨w, rest⟩, hw, h⟩ := bind_eq_ok_iff.mp h
    have h₁ : stack.size = rest.size + 1 := size_of_pop hw
    split at h <;> cases h
    simp only [Array.size_setIfInBounds]
    omega
  case array =>
    split at h
    · have h₁ := size_of_push h
      rw [Array.size_shrink] at h₁
      omega
    · cases h
  all_goals cases hop

/-- A builtin that is called from code takes its arguments and itself off and leaves its value. -/
theorem Machine.size_of_enter {maxFrames depth args : Nat}
    (h : enter maxFrames depth args stack = .ok (none, stack')) :
    args + 1 ≤ stack.size ∧ stack'.size = stack.size - (args + 1) + 1 := by
  unfold enter at h
  split at h
  · cases h
  · rename_i hroom
    simp only at h
    split at h
    · split at h
      · cases h
      · split at h
        · cases h
        · split at h <;> cases h
    · split at h
      · obtain ⟨after, hpush, h⟩ := bind_eq_ok_iff.mp h
        cases h
        have h₁ := size_of_push hpush
        rw [Array.size_shrink] at h₁
        omega
      · cases h
    · cases h
    · cases h

/-- Leaving a frame does not lead back into it. -/
theorem Machine.leave_ne {callers : List Frame} {result : Option Value} {frame' : Frame} :
    leave frame callers stack v result ≠ .ok (.next ⟨frame', callers, stack'⟩) := by
  intro h
  unfold leave at h
  cases callers with
  | nil => cases h
  | cons caller callers =>
    obtain ⟨after, -, h⟩ := bind_eq_ok_iff.mp h
    simp only [Except.ok.injEq, Action.next.injEq, Machine.mk.injEq] at h
    exact absurd h.2.1.symm (List.cons_ne_self _ _)

/-- A step that stays in its frame follows the code: it goes on or jumps, and takes and leaves as many operands
as the instruction says. So what is proved of paths through the code holds of runs. -/
theorem Machine.follows_of_step {callers : List Frame} {i : Instr} {frame' : Frame}
    (hfetch : frame.function.code.fetch frame.ip = .ok ⟨i.opcode, i.operand, frame.ip + i.size⟩)
    (h : step setting g ⟨frame, callers, stack⟩ = .ok (.next ⟨frame', callers, stack'⟩)) :
    i.pops ≤ stack.size ∧ stack'.size = i.after stack.size ∧
      (i.opcode.goesOn = true ∧ frame' = { frame with ip := frame.ip + i.size } ∨
        i.opcode.jumps = true ∧ frame' = { frame with ip := i.operand }) := by
  rw [step_of_fetch hfetch] at h
  obtain ⟨op, operand⟩ := i
  -- Instructions that change the operands alone are dealt with together; the others move control.
  by_cases hop : op.computes = true
  · rw [execute_of_computes hop] at h
    cases hcompute : compute setting g { frame with ip := frame.ip + Instr.size ⟨op, operand⟩ } op
        operand stack with
    | error cause =>
      rw [hcompute] at h
      cases h
    | ok after =>
      rw [hcompute] at h
      cases h
      obtain ⟨hpops, hafter⟩ := size_of_compute hop hcompute
      refine ⟨hpops, hafter, .inl ⟨?_, rfl⟩⟩
      cases op <;> first | rfl | cases hop
  · unfold Instr.after
    cases op <;> simp only [execute, Instr.pops, Instr.pushes] at h ⊢
    case jump =>
      cases h
      exact ⟨Nat.zero_le _, rfl, .inr ⟨rfl, rfl⟩⟩
    case jumpNotTruthy =>
      obtain ⟨⟨condition, rest⟩, hpop, h⟩ := bind_eq_ok_iff.mp h
      have h₁ : stack.size = rest.size + 1 := size_of_pop hpop
      simp only at h
      split at h <;> cases h
      · exact ⟨by omega, by omega, .inl ⟨rfl, rfl⟩⟩
      · exact ⟨by omega, by omega, .inr ⟨rfl, rfl⟩⟩
    case setGlobal =>
      obtain ⟨⟨w, rest⟩, -, h⟩ := bind_eq_ok_iff.mp h
      cases h
    -- A call of a function enters a frame of its own; only a builtin is done within the step.
    case call =>
      obtain ⟨⟨entered, rest⟩, henter, h⟩ := bind_eq_ok_iff.mp h
      cases entered with
      | some called =>
        simp only [Except.ok.injEq, Action.next.injEq, Machine.mk.injEq] at h
        exact absurd h.2.1 (List.cons_ne_self _ _)
      | none =>
        cases h
        obtain ⟨hpops, hafter⟩ := size_of_enter henter
        exact ⟨hpops, hafter, .inl ⟨rfl, rfl⟩⟩
    case returnValue =>
      obtain ⟨⟨w, rest⟩, -, h⟩ := bind_eq_ok_iff.mp h
      exact absurd h leave_ne
    case ret => exact absurd h leave_ne
    case throwValue =>
      obtain ⟨⟨w, rest⟩, -, h⟩ := bind_eq_ok_iff.mp h
      cases h
    all_goals exact absurd rfl hop

end

/-! ### Code that leaves at its end -/

section

variable {P : Use → Prop} {start : Nat} {is : List Instr}

/-- In code that leaves at its end, an instruction starts wherever control gets to. It cannot run out of the
code, since the last instruction leaves. -/
theorem Leaving.closed (h : Leaving P start is) :
    (∃ i, Stands start is start i) ∧ (∀ i ∈ is, i.Meets P) ∧
      (∀ p i, Stands start is p i → i.opcode.goesOn = true → ∃ j, Stands start is (p + i.size) j) ∧
      ∃ height : Nat → Nat, height start = 0 ∧
        Balanced (fun p => ∃ i, Stands start is p i) start is height := by
  obtain ⟨body, last, n, rfl, hleaves, hpops, height, hstart, hend, hbalanced, hmeets⟩ := h
  have hgoes : last.opcode.goesOn = false := by
    rcases hleaves with h | h <;> rw [h] <;> rfl
  have hjumps : last.opcode.jumps = false := by
    rcases hleaves with h | h <;> rw [h] <;> rfl
  -- A place of the body has an instruction, because one more stands at its end.
  have hstands : ∀ p, Boundary start body p → ∃ i, Stands start (body ++ [last]) p i := by
    intro p hp
    rcases hp with rfl | ⟨i, hi⟩
    · exact ⟨last, stands_append.mpr (.inr (.inl ⟨rfl, rfl⟩))⟩
    · exact ⟨i, stands_append.mpr (.inl hi)⟩
  -- The body goes on to places of its own or to the last instruction, which goes nowhere.
  refine ⟨hstands start boundary_start, ?_, ?_, height, hstart, ?_⟩
  · intro i hi
    rcases List.mem_append.mp hi with hi | hi
    · exact hmeets i hi
    · rw [List.mem_singleton.mp hi]
      unfold Instr.Meets
      rcases hleaves with h | h <;> rw [h] <;> trivial
  · intro p i hi hgo
    rcases stands_append.mp hi with hi | hi
    · exact hstands _ hi.next
    · rw [(stands_singleton.mp hi).2, hgoes] at hgo
      cases hgo
  · refine (hbalanced.widen hstands).append (.single ?_ (fun hgo => ?_) (fun hjump => ?_))
    · rw [hend]
      exact hpops
    · rw [hgoes] at hgo
      cases hgo
    · rw [hjumps] at hjump
      cases hjump

/-- What refers to what is within bounds has its operand within the limits. -/
theorem Instr.Meets.within {w : Bounds} {constants : Nat} {i : Instr}
    (hpool : w.pool.size ≤ w.offset + constants) (h : i.Meets (·.Allowed w)) :
    i.Within ⟨constants, w.globals, w.locals, w.top⟩ := by
  unfold Instr.Meets at h
  unfold Instr.Within
  cases hop : i.opcode <;> simp only [hop] at h ⊢
  case constant =>
    obtain ⟨v, hv, -⟩ := h
    have := (Array.getElem?_eq_some_iff.mp hv).1
    omega
  case getGlobal => exact h
  case setGlobal => exact ⟨h.2, h.1⟩
  case getLocal => exact h
  case setLocal => exact h
  case getBuiltin =>
    obtain ⟨b, hb⟩ := h
    exact (List.getElem?_eq_some_iff.mp hb).1

/-- Code that splits into a fragment and an instruction that leaves is well-formed. -/
theorem Leaving.within {code : Code} {w : Bounds} {constants : Nat}
    (hpool : w.pool.size ≤ w.offset + constants) (hsplits : code.Splits is)
    (h : Leaving (·.Allowed w) 0 is) :
    code.WellFormed ⟨constants, w.globals, w.locals, w.top⟩ is := by
  obtain ⟨-, hmeets, -, height, hstart, hbalanced⟩ := h.closed
  obtain ⟨body, last, -, rfl, hleaves, -⟩ := h
  refine ⟨hsplits, ?_, ?_, ?_, height, hbalanced, ?_⟩
  · intro p i hi hjumps
    obtain ⟨hlt, ⟨j, hj⟩, -⟩ := hbalanced.jumps p i hi hjumps
    have hinside := hj.lt
    rw [Nat.zero_add, ← hsplits.size_eq] at hinside
    exact ⟨hlt, hinside, j, hj⟩
  · exact fun i hi => (hmeets i hi).within hpool
  · exact ⟨last, by simp, hleaves⟩
  · exact fun p h harrives => harrives.eq_height hbalanced hstart

end

/-! ### Listings -/

/-- The lines of some instructions that start at a place. -/
def listingLines : Nat → List Instr → List String
  | _, [] => []
  | start, i :: is =>
    listingLine start ⟨i.opcode, i.operand, start + i.size⟩ :: listingLines (start + i.size) is

theorem length_le_codeSize (is : List Instr) : is.length ≤ codeSize is := by
  induction is with
  | nil => exact Nat.le_refl _
  | cons i is ih =>
    have := i.size_pos
    rw [List.length_cons, codeSize_cons]
    omega

theorem Code.fetch_size (code : Code) : code.fetch code.size = .error (.outOfRange code.size) := by
  have hnone : code.bytes[code.size]? = none := Array.getElem?_eq_none (Nat.le_refl _)
  unfold fetch
  rw [hnone]

/-- A listing shows instructions one after the other. -/
theorem Code.listingFrom_append {code : Code} {is : List Instr} {start steps : Nat}
    (written : List String) (hcode : code.Holds start is) (hsteps : is.length ≤ steps) :
    code.listingFrom steps start written = code.listingFrom (steps - is.length)
      (start + codeSize is) ((listingLines start is).reverse ++ written) := by
  induction is generalizing start steps written with
  | nil => simp [listingLines]
  | cons i is ih =>
    obtain ⟨hfetch, hrest⟩ := hcode
    rw [List.length_cons] at hsteps
    obtain ⟨steps, rfl⟩ := Nat.exists_eq_add_of_le' (Nat.le_trans (Nat.le_add_left 1 _) hsteps)
    rw [listingFrom, hfetch]
    simp only
    rw [ih _ hrest (Nat.le_of_succ_le_succ hsteps), listingLines, List.length_cons, codeSize_cons,
      Nat.add_sub_add_right, Nat.add_assoc]
    simp

/-- Where the code ends, the listing does, too. -/
theorem Code.listingFrom_size (code : Code) (steps : Nat) (written : List String) :
    code.listingFrom steps code.size written = .complete (String.join written.reverse) := by
  cases steps with
  | zero => rfl
  | succ steps => simp only [listingFrom, code.fetch_size]

/-- The listing of code that splits into instructions shows them all. -/
theorem Code.Splits.listing_eq {code : Code} {is : List Instr} (h : code.Splits is) :
    code.listing = .complete (String.join (listingLines 0 is)) := by
  have hsteps : is.length ≤ code.size := h.size_eq ▸ length_le_codeSize is
  rw [listing, Code.listingFrom_append [] h.holds hsteps, Nat.zero_add, ← h.size_eq, listingFrom_size,
    List.append_nil, List.reverse_reverse]

/-! ### The compiler's states -/

namespace Compiler

/-- The states of a compiler that only compiles snippets and goes back to checkpoints. -/
inductive Reachable : Compiler → Prop where
  | new : Reachable {}
  | compile {c : Compiler} (n : SnippetId) (p : Program) (before : Reachable c) :
      Reachable (c.compile n p).2
  | restore {c saved : Compiler} (before : Reachable c) (checkpoint : Reachable saved) :
      Reachable (c.restore saved.checkpoint)

/-- A compiler between snippets, with names that stand for what there is. -/
structure Ready (c : Compiler) : Prop where
  idle : c = .idle c.scope c.constantsOffset
  valid : c.scope.Valid
  session : c.scope.isSession = true

/-- A compiler between snippets is in step with a store that has as many constants and globals as
it counts. -/
theorem Ready.inStep {c : Compiler} (h : c.Ready) :
    ∃ s : Store, c.InStep s ∧ s.constants.size = c.constantsOffset := by
  let s : Store :=
    { constants := Array.replicate c.constantsOffset .null
      globals := Array.replicate c.scope.slots .null
      bindings := ⟨[]⟩, maxCallDepth := 0 }
  have hsize : s.constants.size = c.constantsOffset := Array.size_replicate
  refine ⟨s, ⟨?_, h.valid, h.session, Array.size_replicate.symm⟩, hsize⟩
  rw [hsize]
  exact h.idle

theorem Ready.compile {c : Compiler} (h : c.Ready) (n : SnippetId) (p : Program) :
    (c.compile n p).2.Ready := by
  rcases hc : c.compile n p with ⟨result, c'⟩
  cases result with
  | ok u =>
    have hbuffer : c.buffer = {} := congrArg Compiler.buffer h.idle
    obtain ⟨commands, place, hcompiled⟩ := compile_eq_ok hbuffer h.valid hc []
    rw [hcompiled.after]
    exact ⟨rfl, hcompiled.leads.valid, hcompiled.leads.session.trans h.session⟩
  | error cause =>
    unfold Compiler.compile at hc
    split at hc <;> cases hc
    exact ⟨rfl, h.valid, h.session⟩

theorem Reachable.ready {c : Compiler} (h : c.Reachable) : c.Ready := by
  induction h with
  | new => exact ⟨rfl, Scope.valid_initial, rfl⟩
  | compile n p before ih => exact ih.compile n p
  | restore before checkpoint ih ih' =>
    refine ⟨?_, ih'.valid, ih'.session⟩
    rw [ih.idle]
    rfl

end Compiler

/-! ### Units -/

def CompiledUnit.limits (u : CompiledUnit) : Limits := ⟨u.constants.length, u.globals, 0, true⟩

/-- The limits of the code of a function that is among a unit's constants. -/
def CompiledUnit.limitsIn (u : CompiledUnit) (f : FunctionCode) : Limits :=
  ⟨u.constants.length, u.globals, f.locals, false⟩

/-- Whatever a compiler has compiled, kept and restored before, the code of the next unit is
well-formed and so is the code of all its functions, and their listings show all instructions. -/
theorem Compiler.Reachable.wellFormed {c : Compiler} {n : SnippetId} {p : Program}
    {u : CompiledUnit} (hc : c.Reachable) (h : (c.compile n p).1 = .ok u) :
    (∃ is, u.code.WellFormed u.limits is ∧
      u.code.listing = .complete (String.join (listingLines 0 is))) ∧
    ∀ f, Value.function f ∈ u.constants → ∃ is, f.code.WellFormed (u.limitsIn f) is ∧
      f.code.listing = .complete (String.join (listingLines 0 is)) := by
  have hready := hc.ready
  -- The compiler's counts are read as a store of that size, against which the uses of the resolved program are
  -- bounded.
  obtain ⟨s, hstep, hsize⟩ := hready.inStep
  have hbuffer : c.buffer = {} := congrArg Compiler.buffer hready.idle
  have hok : c.compile n p = (.ok u, (c.compile n p).2) := by rw [← h]
  obtain ⟨commands, place, hcompiled⟩ := compile_eq_ok hbuffer hready.valid hok []
  have hcovers := covers_loaded hcompiled hstep 0
  have hpool : (s.constants ++ place.constants).size ≤ u.constantsOffset + u.constants.length := by
    refine Nat.le_of_eq ?_
    rw [hcompiled.offset, hcompiled.constants, Array.length_toList, Array.size_append, hsize]
  refine ⟨⟨_, ?_, hcompiled.splits.listing_eq⟩, fun f hf => ?_⟩
  · -- The top level, and then each function: the body it was made of is among the routines.
    have hwell := (leaving_of_program commands 0 (hcompiled.leads.allowed _ hcovers)).within
      hpool hcompiled.splits
    unfold CompiledUnit.limits
    rw [hcompiled.globals]
    exact hwell
  · rw [hcompiled.constants, Array.mem_toList_iff] at hf
    obtain ⟨⟨r, hr, rfl⟩, -⟩ := constants_loaded hcompiled hstep 0 hf
    have hsplits := hcompiled.laid (by simp) r hr
    rcases hcompiled.leads.keeps _ hcovers r hr with hr | ⟨-, -, huses⟩
    · cases hr
    · refine ⟨_, ?_, hsplits.listing_eq⟩
      have hwell := (leaving_of_body r.body 0 huses).within hpool hsplits
      unfold CompiledUnit.limitsIn
      rw [hcompiled.globals]
      exact hwell

/-- A function with a branch that returns, compiled anew after it was compiled and forgotten. -/
theorem Compiler.restored_wellFormed :
    let p : Program :=
      [.letIn "f" (.function ["x"] [.expr (.cond (.ident "x") [.ret (.int 1)] none)])]
    let c := restore (checkpoint {}) (compile 0 p {}).2
    ∃ u, (c.compile 1 p).1 = .ok u ∧
      (∃ is, u.code.WellFormed u.limits is ∧
        u.code.listing = .complete (String.join (listingLines 0 is))) ∧
      ∀ f, Value.function f ∈ u.constants → ∃ is, f.code.WellFormed (u.limitsIn f) is ∧
        f.code.listing = .complete (String.join (listingLines 0 is)) := by
  intro p c
  have hc : c.Reachable := (Compiler.Reachable.new.compile 0 p).restore .new
  have hok : (c.compile 1 p).1.isOk = true := by decide +kernel
  cases hu : (c.compile 1 p).1 with
  | ok u => exact ⟨u, rfl, hc.wellFormed hu⟩
  | error cause =>
    rw [hu] at hok
    cases hok

end Notebook
