import Notebook.Proofs.Machine.InstructionEffects

/-!
The functions that the operands of a machine hold.

Instructions move values about and compute new ones, but they make no functions. If every function
among the constants, the globals and the operands is a known one, then so it is after a step, and a
function that is called is a known one, too.

* `Machine.madeOf_of_compute`, `Machine.madeOf_of_enter`, `Machine.madeOf_of_leave`: the operands
  after the three kinds of instructions.
-/

namespace Notebook.Machine

variable {known : FunctionCode → Prop} {setting : Setting} {g stack stack' : Array Value}
variable {frame : Frame} {callers : List Frame} {v : Value}

/-! ### Operands -/

theorem madeOf_of_push (hstack : ∀ w ∈ stack, w.MadeOf known) (hv : v.MadeOf known)
    (h : push stack v = .ok stack') : ∀ w ∈ stack', w.MadeOf known := by
  rw [push_eq] at h
  split at h <;> cases h
  intro w hw
  rcases Array.mem_push.mp hw with hw | rfl
  · exact hstack w hw
  · exact hv

theorem madeOf_of_pop (hstack : ∀ w ∈ stack, w.MadeOf known) (h : pop stack = .ok (v, stack')) :
    v.MadeOf known ∧ ∀ w ∈ stack', w.MadeOf known := by
  unfold pop at h
  split at h <;> cases h
  rename_i hback
  refine ⟨hstack v (Array.mem_of_back? hback), fun w hw => hstack w ?_⟩
  rw [← Array.mem_toList_iff, Array.toList_pop] at hw
  exact Array.mem_toList_iff.mp (List.dropLast_subset _ hw)

theorem madeOf_of_extract (hstack : ∀ w ∈ stack, w.MadeOf known) (first last : Nat) :
    ∀ w ∈ stack.extract first last, w.MadeOf known := by
  intro w hw
  rw [← Array.mem_toList_iff, Array.toList_extract] at hw
  exact hstack w (Array.mem_toList_iff.mp (List.mem_of_mem_drop (List.mem_of_mem_take hw)))

theorem madeOf_of_shrink (hstack : ∀ w ∈ stack, w.MadeOf known) (n : Nat) :
    ∀ w ∈ stack.shrink n, w.MadeOf known := by
  rw [Array.shrink_eq_take]
  exact madeOf_of_extract hstack 0 n

theorem madeOf_of_resize (hstack : ∀ w ∈ stack, w.MadeOf known) (n : Nat) :
    ∀ w ∈ resize stack n, w.MadeOf known := by
  unfold resize
  split
  · exact madeOf_of_shrink hstack n
  · intro w hw
    rcases Array.mem_append.mp hw with hw | hw
    · exact hstack w hw
    · rw [Array.eq_of_mem_replicate hw]
      exact Value.madeOf_null

theorem madeOf_of_pushAll {vs : List Value} (hstack : ∀ w ∈ stack, w.MadeOf known)
    (hvs : ∀ w ∈ vs, w.MadeOf known) (h : pushAll stack vs = .ok stack') :
    ∀ w ∈ stack', w.MadeOf known := by
  induction vs generalizing stack with
  | nil =>
    cases h
    exact hstack
  | cons v vs ih =>
    obtain ⟨hv, hvs⟩ := List.forall_mem_cons.mp hvs
    obtain ⟨after, hpush, h⟩ := bind_eq_ok_iff.mp h
    exact ih (madeOf_of_push hstack hv hpush) hvs h

/-- Assigning a global leaves globals that are made of known functions. -/
theorem madeOf_of_assign (hglobals : ∀ w ∈ g, w.MadeOf known) (hv : v.MadeOf known) (index : Nat) :
    ∀ w ∈ assign g index v, w.MadeOf known := by
  intro w hw
  unfold assign at hw
  split at hw
  · rcases Array.mem_or_eq_of_mem_setIfInBounds hw with hw | rfl
    · exact hglobals w hw
    · exact hv
  · rcases Array.mem_push.mp hw with hw | rfl
    · rcases Array.mem_append.mp hw with hw | hw
      · exact hglobals w hw
      · rw [Array.eq_of_mem_replicate hw]
        exact Value.madeOf_null
    · exact hv

/-! ### Instructions -/

/-- Instructions that change the operands alone make no functions. They load, store and compute, and a function
that is loaded was held before. -/
theorem madeOf_of_compute {op : Opcode} {operand : Nat}
    (hconstants : ∀ w ∈ setting.constants, w.MadeOf known) (hglobals : ∀ w ∈ g, w.MadeOf known)
    (hstack : ∀ w ∈ stack, w.MadeOf known) (hop : op.computes = true)
    (h : compute setting g frame op operand stack = .ok stack') : ∀ w ∈ stack', w.MadeOf known := by
  unfold compute at h
  -- Constants, globals and locals are values that are there already, and so are the parts of arrays. Everything
  -- else that is pushed holds no functions at all.
  cases op <;> simp only at h
  case constant =>
    split at h
    · rename_i hv
      exact madeOf_of_push hstack (hconstants _ (Array.mem_of_getElem? hv)) h
    · cases h
  case getGlobal =>
    split at h
    · rename_i hv
      exact madeOf_of_push hstack (hglobals _ (Array.mem_of_getElem? hv)) h
    · cases h
  case getLocal =>
    split at h
    · rename_i hv
      exact madeOf_of_push hstack (hstack _ (Array.mem_of_getElem? hv)) h
    · cases h
  case getBuiltin =>
    split at h
    · exact madeOf_of_push hstack (Value.madeOf_builtin _) h
    · cases h
  case pushTrue | pushFalse => exact madeOf_of_push hstack (Value.madeOf_bool _) h
  case pushNull => exact madeOf_of_push hstack Value.madeOf_null h
  case add | sub | mul | div | equal | notEqual | greaterThan =>
    obtain ⟨⟨r, below⟩, hr, h⟩ := bind_eq_ok_iff.mp h
    obtain ⟨⟨l, rest⟩, hl, h⟩ := bind_eq_ok_iff.mp h
    obtain ⟨w, hw, h⟩ := bind_eq_ok_iff.mp h
    have hbelow := (madeOf_of_pop hstack hr).2
    exact madeOf_of_push (madeOf_of_pop hbelow hl).2 (madeOf_of_binary hw) h
  case pop =>
    obtain ⟨⟨w, rest⟩, hw, h⟩ := bind_eq_ok_iff.mp h
    cases h
    exact (madeOf_of_pop hstack hw).2
  case minus =>
    obtain ⟨⟨w, rest⟩, hw, h⟩ := bind_eq_ok_iff.mp h
    have hrest := (madeOf_of_pop hstack hw).2
    cases w with
    | int n =>
      obtain ⟨negated, hnegated, h⟩ := bind_eq_ok_iff.mp h
      exact madeOf_of_push hrest (madeOf_of_checked hnegated) h
    | _ => cases h
  case bang =>
    obtain ⟨⟨w, rest⟩, hw, h⟩ := bind_eq_ok_iff.mp h
    exact madeOf_of_push (madeOf_of_pop hstack hw).2 (Value.madeOf_bool _) h
  case setLocal =>
    obtain ⟨⟨w, rest⟩, hw, h⟩ := bind_eq_ok_iff.mp h
    obtain ⟨hmade, hrest⟩ := madeOf_of_pop hstack hw
    simp only at h
    split at h <;> cases h
    intro u hu
    rcases Array.mem_or_eq_of_mem_setIfInBounds hu with hu | rfl
    · exact hrest u hu
    · exact hmade
  case array =>
    split at h
    · refine madeOf_of_push (madeOf_of_shrink hstack _) ((Value.madeOf_array _).mpr ?_) h
      intro w hw
      exact madeOf_of_extract hstack _ _ w (Array.mem_toList_iff.mp hw)
    · cases h
  case index =>
    obtain ⟨⟨p, below⟩, hp, h⟩ := bind_eq_ok_iff.mp h
    obtain ⟨⟨c, rest⟩, hc, h⟩ := bind_eq_ok_iff.mp h
    obtain ⟨w, hw, h⟩ := bind_eq_ok_iff.mp h
    obtain ⟨hmade, hrest⟩ := madeOf_of_pop (madeOf_of_pop hstack hp).2 hc
    exact madeOf_of_push hrest (madeOf_of_element hmade hw) h
  all_goals cases hop

/-- A call leads into a function that is among the operands, if there is room for its frame, or it is
done at once. -/
theorem madeOf_of_enter {maxFrames depth args : Nat} {entered : Option Frame}
    (hstack : ∀ w ∈ stack, w.MadeOf known)
    (h : enter maxFrames depth args stack = .ok (entered, stack')) :
    (∀ w ∈ stack', w.MadeOf known) ∧ ∀ called, entered = some called →
      depth < maxFrames ∧ ∃ f base, called = ⟨f, 0, base⟩ ∧ known f := by
  unfold enter at h
  split at h
  · cases h
  · simp only at h
    split at h
    · rename_i f hf
      split at h
      · cases h
      · split at h
        · cases h
        · rename_i hroom
          split at h <;> cases h
          refine ⟨madeOf_of_resize hstack _, ?_⟩
          rintro called ⟨rfl⟩
          have hmade := hstack _ (Array.mem_of_getElem? hf)
          exact ⟨Nat.not_le.mp hroom, f, _, rfl, (Value.madeOf_function f).mp hmade⟩
    · split at h
      · rename_i v hv
        obtain ⟨after, hpush, h⟩ := bind_eq_ok_iff.mp h
        cases h
        refine ⟨madeOf_of_push (madeOf_of_shrink hstack _) (madeOf_of_builtin ?_ hv) hpush, ?_⟩
        · intro w hw
          exact madeOf_of_extract hstack _ _ w (Array.mem_toList_iff.mp hw)
        · rintro called ⟨⟩
      · cases h
    · cases h
    · cases h

/-- Leaving a frame ends the run or leads back to the caller, and assigns nothing. -/
theorem madeOf_of_leave {result : Option Value} {action : Action}
    (hstack : ∀ w ∈ stack, w.MadeOf known) (hv : v.MadeOf known)
    (h : leave frame callers stack v result = .ok action) :
    action = .finish result ∨ ∃ m, action = .next m ∧ callers = m.frame :: m.callers ∧
      ∀ w ∈ m.stack, w.MadeOf known := by
  unfold leave at h
  cases callers with
  | nil =>
    cases h
    exact .inl rfl
  | cons caller rest =>
    obtain ⟨after, hpush, h⟩ := bind_eq_ok_iff.mp h
    cases h
    exact .inr ⟨_, rfl, rfl, madeOf_of_push (madeOf_of_shrink hstack _) hv hpush⟩

end Notebook.Machine
