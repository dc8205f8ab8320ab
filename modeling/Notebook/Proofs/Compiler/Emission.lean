import Notebook.Proofs.Bytecode.OperandPatches
import Notebook.Proofs.Fallible
import Notebook.Proofs.Resolution.Resolver

/-!
What the compiler emits.

The compiler finds its code out as it goes: it patches jumps once it knows where they lead, and it
takes a `Pop` back when a block turns out to be used for its value. The results here say that what
comes of this is the layout of the resolved program.

* `expr_emits` and its companions: an expression or statement that compiles resolves, to the same
  scope and constants, and adds the layout of what it resolves to.
* `closeBlock_emits`, `closeBody_emits`: so do blocks that are used for their value and bodies of
  functions, the code that is taken back at their end included.
* `topLevel_emits`: so does a whole snippet.
-/

namespace Notebook

/-- Does the code of a routine split into the layout of its body? -/
def Routine.Laid (r : Routine) : Prop := r.code.code.Splits (layoutBody r.body 0)

namespace Compiler

/-- The compiler with one more instruction at the end of its code. -/
def extend (i : Instr) (c : Compiler) : Compiler :=
  { c with buffer :=
    ⟨c.buffer.code.append i.bytes, some ⟨i.opcode, c.here⟩, c.buffer.last⟩ }

/-- Emitting an instruction succeeds exactly if its operand fits. -/
theorem emit_eq_ok_iff {c c' : Compiler} (i : Instr)
    (hzero : i.opcode.operandWidth = .none → i.operand = 0) :
    c.emit i.opcode i.operands = .ok c' ↔ i.Fits ∧ c' = c.extend i := by
  obtain ⟨scope, offset, ⟨code, last, previous⟩, constants, declarations⟩ := c
  have hencode := fun bytes => encode_eq_ok_iff i bytes hzero
  unfold emit onBuffer Buffer.emit
  cases hi : i.opcode.encode i.operands with
  | error cause =>
    have hfits : ¬ i.Fits := fun hfits => by
      have := (hencode i.bytes).mpr ⟨hfits, rfl⟩
      rw [hi] at this
      cases this
    simp [hfits]
  | ok bytes =>
    obtain ⟨hfits, rfl⟩ := (hencode bytes).mp hi
    simp [hfits, extend, here, eq_comm]

/-- From one state of the compiler to a later one, some instructions were added to the code. The routines found
on the way hold the layout of their bodies, if those found earlier do. -/
structure Emitted (c c' : Compiler) (rs rs' : List Routine) (is : List Instr) : Prop where
  bytes : c'.buffer.code.bytes.toList = c.buffer.code.bytes.toList ++ assemble is
  fits : ∀ i ∈ is, i.Fits
  laid : (∀ r ∈ rs, r.Laid) → ∀ r ∈ rs', r.Laid

variable {c c' c₁ c₂ : Compiler} {rs rs' rs₁ rs₂ : List Routine} {is js : List Instr}

namespace Emitted

theorem refl (c : Compiler) (rs : List Routine) : Emitted c c rs rs [] :=
  ⟨by simp, by simp, fun h => h⟩

theorem trans (h₁ : Emitted c c₁ rs rs₁ is) (h₂ : Emitted c₁ c₂ rs₁ rs₂ js) :
    Emitted c c₂ rs rs₂ (is ++ js) where
  bytes := by rw [h₂.bytes, h₁.bytes, assemble_append, List.append_assoc]
  fits i hi := by
    rcases List.mem_append.mp hi with hi | hi
    · exact h₁.fits i hi
    · exact h₂.fits i hi
  laid hrs := h₂.laid (h₁.laid hrs)

theorem extend {i : Instr} (hfits : i.Fits) (c : Compiler) (rs : List Routine) :
    Emitted c (c.extend i) rs rs [i] :=
  ⟨by simp [Compiler.extend, Code.append], by simpa using hfits, fun h => h⟩

/-- Where the code ends afterwards. -/
theorem here (h : Emitted c c₁ rs rs₁ is) : c₁.here = c.here + codeSize is := by
  unfold Compiler.here Code.size
  rw [← Array.length_toList, h.bytes]
  simp

end Emitted

/-- An instruction that was emitted stands at the end of the code. -/
theorem emitted_of_emit {i : Instr} (hzero : i.opcode.operandWidth = .none → i.operand = 0)
    (rs : List Routine) (h : c.emit i.opcode i.operands = .ok c') :
    c' = c.extend i ∧ Emitted c c' rs rs [i] := by
  obtain ⟨hfits, rfl⟩ := (emit_eq_ok_iff i hzero).mp h
  exact ⟨rfl, .extend hfits c rs⟩

@[simp] theorem site_extend (c : Compiler) (i : Instr) (rs : List Routine) :
    (c.extend i).site rs = c.site rs := rfl

@[simp] theorem here_extend (c : Compiler) (i : Instr) : (c.extend i).here = c.here + i.size := by
  unfold here Code.size
  rw [← Array.length_toList]
  simp [extend, Code.append]

/-- A patched jump leads to where the code ended. -/
theorem patchJump_eq_ok {position : Nat} (h : c.patchJump position = .ok c')
    {op : Opcode} (hword : op.operandWidth = .word) {before after : List UInt8} {m : Nat}
    (hposition : before.length = position)
    (hcode : c.buffer.code.bytes.toList = before ++ (Instr.bytes ⟨op, m⟩ ++ after)) :
    Instr.Fits ⟨op, c.here⟩ ∧
      c'.buffer.code.bytes.toList = before ++ (Instr.bytes ⟨op, c.here⟩ ++ after) ∧
      c'.buffer.last = c.buffer.last ∧ ∀ rs, c'.site rs = c.site rs := by
  obtain ⟨scope, offset, ⟨code, last, previous⟩, constants, declarations⟩ := c
  subst hposition
  unfold patchJump onBuffer Buffer.patchJump at h
  simp only at h
  cases hpatch : code.patchWord before.length code.size with
  | error cause =>
    rw [hpatch] at h
    cases h
  | ok patched =>
    rw [hpatch] at h
    cases h
    obtain ⟨hfits, hbytes⟩ := Code.bytes_of_patchWord hword hcode hpatch
    exact ⟨hfits, hbytes, rfl, fun _ => rfl⟩

/-- Patching a jump that was emitted on the way. -/
theorem Emitted.patch {op : Opcode} {m : Nat} (hword : op.operandWidth = .word)
    (h : Emitted c c₁ rs rs₁ (is ++ ⟨op, m⟩ :: js))
    (hpatch : c₁.patchJump (c.here + codeSize is) = .ok c') :
    Emitted c c' rs rs₁ (is ++ ⟨op, c₁.here⟩ :: js) ∧
      c'.buffer.last = c₁.buffer.last ∧ ∀ rs, c'.site rs = c₁.site rs := by
  have hposition : (c.buffer.code.bytes.toList ++ assemble is).length = c.here + codeSize is := by
    rw [List.length_append, length_assemble]
    rfl
  have hcode : c₁.buffer.code.bytes.toList =
      (c.buffer.code.bytes.toList ++ assemble is) ++ (Instr.bytes ⟨op, m⟩ ++ assemble js) := by
    rw [h.bytes]
    simp
  obtain ⟨hfits, hbytes, hlast, hsite⟩ := patchJump_eq_ok hpatch hword hposition hcode
  refine ⟨⟨?_, ?_, h.laid⟩, hlast, hsite⟩
  · rw [hbytes]
    simp
  · intro i hi
    rcases List.mem_append.mp hi with hi | hi
    · exact h.fits i (List.mem_append_left _ hi)
    · rcases List.mem_cons.mp hi with rfl | hi
      · exact hfits
      · exact h.fits i (List.mem_append_right _ (List.mem_cons_of_mem _ hi))

/-- The two ways of a conditional come together where the second one ends. -/
theorem Emitted.join {test yes no : List Instr} {n m : Nat}
    (h₁ : Emitted c c₁ rs rs₁ (test ++ ⟨.jumpNotTruthy, n⟩ :: (yes ++ [⟨.jump, m⟩])))
    (h₂ : Emitted c₁ c₂ rs₁ rs₂ no)
    (hpatch : c₂.patchJump (c.here + codeSize test + 3 + codeSize yes) = .ok c') :
    Emitted c c' rs rs₂ (test ++ ⟨.jumpNotTruthy, n⟩ :: (yes ++ ⟨.jump, c₂.here⟩ :: no)) ∧
      ∀ rs, c'.site rs = c₂.site rs := by
  have h : Emitted c c₂ rs rs₂ ((test ++ ⟨.jumpNotTruthy, n⟩ :: yes) ++ ⟨.jump, m⟩ :: no) := by
    simpa using h₁.trans h₂
  have hsize : c.here + codeSize test + 3 + codeSize yes =
      c.here + codeSize (test ++ ⟨.jumpNotTruthy, n⟩ :: yes) := by
    have : Instr.size ⟨.jumpNotTruthy, n⟩ = 3 := rfl
    rw [codeSize_append, codeSize_cons]
    omega
  rw [hsize] at hpatch
  obtain ⟨hpatched, -, hsite⟩ := h.patch rfl hpatch
  exact ⟨by simpa using hpatched, hsite⟩

/-! ### How commands end -/

/-- The buffer ends as some commands do. A `Pop` starts right before the end of the code, so taking it back
removes this one byte. -/
def Ends (closing : Option Opcode) (c c' : Compiler) : Prop :=
  match closing with
  | none => c'.buffer = c.buffer
  | some op => ∃ start, c'.buffer.last = some ⟨op, start⟩ ∧ (op = .pop → start + 1 = c'.here)

theorem Ends.trans {x y : Option Opcode} (h₁ : Ends x c c₁) (h₂ : Ends y c₁ c₂) :
    Ends (y.or x) c c₂ := by
  cases y with
  | some op => exact h₂
  | none =>
    have hsame : c₂.buffer = c₁.buffer := h₂
    cases x with
    | none => exact hsame.trans h₁
    | some op =>
      obtain ⟨start, hlast, hpop⟩ := h₁
      refine ⟨start, hsame ▸ hlast, ?_⟩
      intro hop
      unfold here
      rw [hsame]
      exact hpop hop

theorem ends_extend (i : Instr) (c c₁ : Compiler) : Ends (some i.opcode) c (c₁.extend i) := by
  refine ⟨c₁.here, rfl, ?_⟩
  intro hop
  rw [here_extend, Instr.size, hop]
  rfl

theorem Ends.endsWith_eq {op : Opcode} {closing : Option Opcode} (h : Ends closing c c₁)
    (hc : c.buffer.endsWith op = false) : c₁.buffer.endsWith op = (closing == some op) := by
  cases closing with
  | none =>
    have hsame : c₁.buffer = c.buffer := h
    simp [hsame, hc]
  | some op' =>
    obtain ⟨start, hlast, -⟩ := h
    simp [Buffer.endsWith, hlast]

/-- Taking back the `Pop` that some code ends with. -/
theorem Emitted.dropPop (h : Emitted c c₁ rs rs₁ (is ++ [⟨.pop, 0⟩])) (hends : Ends (some .pop) c c₁) :
    Emitted c { c₁ with buffer := c₁.buffer.dropPop } rs rs₁ is := by
  obtain ⟨start, hlast, hpop⟩ := hends
  have hstart : start = c.buffer.code.bytes.toList.length + codeSize is := by
    have hhere := h.here
    have := hpop rfl
    have hsize : codeSize (is ++ [⟨.pop, 0⟩]) = codeSize is + 1 := by simp [Instr.size]; rfl
    have hc : c.buffer.code.bytes.toList.length = c.here := rfl
    omega
  refine ⟨?_, fun i hi => h.fits i (List.mem_append_left _ hi), h.laid⟩
  obtain ⟨scope, offset, ⟨code, last, previous⟩, constants, declarations⟩ := c₁
  cases hlast
  have hbytes := h.bytes
  simp only [Buffer.dropPop, Code.take, Array.toList_shrink] at hbytes ⊢
  rw [hbytes, hstart, assemble_append, ← List.append_assoc, List.take_left' (by simp)]

/-- A block that is closed is laid out for its value. -/
theorem closeBlock_emits {cs : List Command} (hc : c.buffer.endsWith .pop = false)
    (h : Emitted c c₁ rs rs₁ (layoutCommands cs c.here)) (hends : Ends (closingOf cs) c c₁)
    (hclose : c₁.closeBlock = .ok c') :
    Emitted c c' rs rs₁ (layoutBlock cs c.here) ∧ ∀ rs, c'.site rs = c₁.site rs := by
  have hlayout := layoutBlock_eq cs c.here
  unfold closeBlock at hclose
  rw [hends.endsWith_eq hc] at hclose
  split at hlayout
  · rename_i hpop
    rw [hpop] at hends hclose
    cases hclose
    rw [hlayout] at h
    exact ⟨h.dropPop hends, fun _ => rfl⟩
  · rename_i hpop
    have hne : (closingOf cs == some .pop) = false := by simpa using hpop
    rw [hne] at hclose
    obtain ⟨rfl, hnull⟩ := emitted_of_emit (i := ⟨.pushNull, 0⟩) (fun _ => rfl) rs₁ hclose
    rw [hlayout]
    exact ⟨h.trans hnull, fun _ => rfl⟩

/-- A conditional up to the end of its first way. Both of its jumps are there, and the first one is patched; the
second one leads nowhere yet. -/
theorem Emitted.openCond {c₃ c₄ c₅ : Compiler} {test : Term} {yes : List Command}
    (htest : Emitted c c₁ rs rs₁ (test.layout c.here))
    (hbranch : c₁.emit .jumpNotTruthy [Steps.unpatched] = .ok c₂)
    (hyes : Emitted c₂ c₃ rs₁ rs₂ (layoutCommands yes c₂.here)) (hends : Ends (closingOf yes) c₂ c₃)
    (hclose : c₃.closeBlock = .ok c₄) (hskip : c₄.emit .jump [Steps.unpatched] = .ok c₅)
    (hpatch : c₅.patchJump c₁.here = .ok c') :
    let start := c.here + codeSize (test.layout c.here) + 3
    let stop := start + codeSize (layoutBlock yes start)
    Emitted c c' rs rs₂ (test.layout c.here ++ ⟨.jumpNotTruthy, stop + 3⟩ ::
        (layoutBlock yes start ++ [⟨.jump, Steps.unpatched⟩])) ∧
      c₄.here = stop ∧ c'.here = stop + 3 ∧ c'.buffer.endsWith .pop = false ∧
      ∀ rs, c'.site rs = c₃.site rs := by
  intro start stop
  obtain ⟨rfl, hjump⟩ :=
    emitted_of_emit (i := ⟨.jumpNotTruthy, Steps.unpatched⟩) (fun hw => by cases hw) rs₁ hbranch
  obtain ⟨hblock, hsite⟩ := closeBlock_emits rfl hyes hends hclose
  obtain ⟨rfl, hover⟩ :=
    emitted_of_emit (i := ⟨.jump, Steps.unpatched⟩) (fun hw => by cases hw) rs₂ hskip
  have hstart : (c₁.extend ⟨.jumpNotTruthy, Steps.unpatched⟩).here = start := by
    rw [here_extend, htest.here]
    rfl
  have hstop : c₄.here = stop := by
    rw [hblock.here, hstart]
  have hlands : (c₄.extend ⟨.jump, Steps.unpatched⟩).here = stop + 3 := by
    rw [here_extend, hstop]
    rfl
  -- The test, the jump, the block and the jump over the second way, before anything is patched.
  have hopen := htest.trans (hjump.trans (hblock.trans hover))
  rw [htest.here] at hpatch
  obtain ⟨hpatched, hlast, hsame⟩ := Emitted.patch rfl hopen hpatch
  have hend : c'.here = stop + 3 := by
    rw [hpatched.here, ← hlands, hopen.here]
    simp [Instr.size]
  rw [hstart, hlands] at hpatched
  refine ⟨hpatched, hstop, hend, ?_, ?_⟩
  · simp only [Buffer.endsWith, hlast]
    rfl
  · intro rs
    rw [hsame, site_extend, hsite]

/-- A body that is closed is laid out to return. -/
theorem closeBody_emits {cs : List Command} (hc : c.buffer.last = none)
    (h : Emitted c c₁ rs rs₁ (layoutCommands cs c.here)) (hends : Ends (closingOf cs) c c₁)
    (hclose : c₁.closeBody = .ok c') :
    Emitted c c' rs rs₁ (layoutBody cs c.here) ∧ ∀ rs, c'.site rs = c₁.site rs := by
  have hnone : ∀ op, c.buffer.endsWith op = false := fun op => by simp [Buffer.endsWith, hc]
  have hlayout := layoutBody_eq cs c.here
  unfold closeBody at hclose
  rw [hends.endsWith_eq (hnone _), hends.endsWith_eq (hnone _)] at hclose
  -- A body ends with an expression, with a return, or with anything else: the same three cases for the layout
  -- and for the compiler, which looks at the last instruction.
  split at hlayout
  · obtain ⟨is, hcommands, hbody⟩ := hlayout
    rename_i hpop
    rw [hpop] at hends hclose
    rw [hcommands] at h
    obtain ⟨rfl, hret⟩ :=
      emitted_of_emit (i := ⟨.returnValue, 0⟩) (fun _ => rfl) rs₁ hclose
    rw [hbody]
    exact ⟨(h.dropPop hends).trans hret, fun _ => rfl⟩
  · rename_i hret
    rw [hret] at hclose
    cases hclose
    rw [hlayout]
    exact ⟨h, fun _ => rfl⟩
  · rename_i hpop hret
    have hne : (closingOf cs == some .pop) = false := by simpa using hpop
    have hne' : (closingOf cs == some .returnValue) = false := by simpa using hret
    rw [hne, hne'] at hclose
    obtain ⟨rfl, hempty⟩ := emitted_of_emit (i := ⟨.ret, 0⟩) (fun _ => rfl) rs₁ hclose
    rw [hlayout]
    exact ⟨h.trans hempty, fun _ => rfl⟩

/-! ### The walk -/

theorem emitConstant_emits {v : Value} (rs : List Routine) (h : c.emitConstant v = .ok c') :
    (c.site rs).constant v = (.constant c.constants.size v, c'.site rs) ∧
      Emitted c c' rs rs [⟨.constant, c.constants.size⟩] := by
  obtain ⟨rfl, hemit⟩ :=
    emitted_of_emit (i := ⟨.constant, c.constants.size⟩) (fun hw => by cases hw) rs h
  exact ⟨rfl, hemit.bytes, hemit.fits, hemit.laid⟩

/-- An assignment adds the instruction for the level that it is at. -/
theorem emitAssignment_emits {name : String} {index : Nat} (rs : List Routine)
    (h : c.emitAssignment name index = .ok c') (t : Term) (start : Nat) :
    ∃ i, ((c.site rs).assignment index t).layout start = t.layout start ++ [i] ∧
      ((c.site rs).assignment index t).closing = some i.opcode ∧
      Emitted c c' rs rs [i] ∧ Ends (some i.opcode) c c' ∧ c'.site rs = c.site rs := by
  have hsame : (c.site rs).scope = c.scope := rfl
  unfold emitAssignment at h
  unfold Site.assignment
  rw [hsame]
  cases hscope : c.scope with
  | session level =>
    rw [hscope] at h
    obtain ⟨c₁, hemit, h⟩ := bind_eq_ok_iff.mp h
    cases h
    obtain ⟨rfl, hsteps⟩ :=
      emitted_of_emit (i := ⟨.setGlobal, index⟩) (fun hw => by cases hw) rs hemit
    exact ⟨⟨.setGlobal, index⟩, rfl, rfl, ⟨hsteps.bytes, hsteps.fits, hsteps.laid⟩,
      ends_extend ⟨.setGlobal, index⟩ c c, rfl⟩
  | function level enclosing =>
    rw [hscope] at h
    obtain ⟨rfl, hsteps⟩ :=
      emitted_of_emit (i := ⟨.setLocal, index⟩) (fun hw => by cases hw) rs h
    exact ⟨⟨.setLocal, index⟩, rfl, rfl, hsteps, ends_extend ⟨.setLocal, index⟩ c c, rfl⟩

/-- What is emitted with a compiler that differs in its scope is emitted all the same. -/
theorem Emitted.of_buffer {c₀ : Compiler} (h : Emitted c₀ c₁ rs rs₁ is)
    (hc : c₀.buffer = c.buffer) : Emitted c c₁ rs rs₁ is :=
  ⟨hc ▸ h.bytes, h.fits, h.laid⟩

/-- A function becomes a constant, and its code holds the layout of its body. It was compiled in a buffer of its
own, of which nothing but the code is left. -/
theorem function_emits {inner : Compiler} {params : List String} {cs : List Command} {level : Scope}
    (hbody : Emitted { c with scope := level, buffer := {} } inner rs rs₁ (layoutBody cs 0))
    (h : emitConstant
      (.function ⟨inner.buffer.code, inner.constantsOffset, inner.scope.slots, params.length⟩)
      { inner with scope := c.scope, buffer := c.buffer } = .ok c') :
    let routine := (inner.site rs₁).routine params cs
    ∃ t, Site.constant (.function routine.code)
        { inner.site rs₁ with scope := c.scope, routines := rs₁ ++ [routine] } =
          (t, c'.site (rs₁ ++ [routine])) ∧
      Emitted c c' rs (rs₁ ++ [routine]) (t.layout c.here) := by
  intro routine
  have hcode : inner.buffer.code = routine.code.code := by
    have hbytes := hbody.bytes
    rw [List.nil_append] at hbytes
    show inner.buffer.code = ⟨(assemble (layoutBody cs 0)).toArray⟩
    rw [← hbytes, Array.toArray_toList]
  have hlaid : routine.Laid := Code.splits_assemble hbody.fits
  rw [hcode] at h
  obtain ⟨hconstant, hemit⟩ := emitConstant_emits (rs₁ ++ [routine]) h
  refine ⟨_, hconstant, hemit.bytes, hemit.fits, ?_⟩
  intro hrs r hr
  rcases List.mem_append.mp hr with hr | hr
  · exact hbody.laid hrs r hr
  · obtain rfl := List.mem_singleton.mp hr
    exact hlaid

mutual

/-- An expression that compiles resolves, and adds its layout to the code. The resolver runs beside the compiler
from the same names and constants, and both end with the same ones. -/
theorem expr_emits : ∀ (e : Expr) {c c' : Compiler} (rs : List Routine), expr e c = .ok c' →
    ∃ t rs', resolveExpr e (c.site rs) = .ok (t, c'.site rs') ∧
      Emitted c c' rs rs' (t.layout c.here)
  | .ident name, c, c', rs, h => by
    replace h : c.emitReference name = .ok c' := h
    unfold emitReference at h
    have hscope : (c.site rs).scope = c.scope := rfl
    unfold resolveExpr
    rw [hscope]
    cases hres : Scope.resolve name c.scope with
    | none =>
      rw [hres] at h
      cases h
    | some reference =>
      rw [hres] at h
      cases reference with
      | captured i => cases h
      | global i =>
        obtain ⟨rfl, hemit⟩ := emitted_of_emit (i := ⟨.getGlobal, i⟩) (fun hw => by cases hw) rs h
        exact ⟨.global i, rs, rfl, hemit⟩
      | own i =>
        obtain ⟨rfl, hemit⟩ := emitted_of_emit (i := ⟨.getLocal, i⟩) (fun hw => by cases hw) rs h
        exact ⟨.own i, rs, rfl, hemit⟩
      | builtin i =>
        obtain ⟨rfl, hemit⟩ := emitted_of_emit (i := ⟨.getBuiltin, i⟩) (fun hw => by cases hw) rs h
        exact ⟨.builtin i, rs, rfl, hemit⟩
  | .int value, c, c', rs, h => by
    obtain ⟨hsite, hemit⟩ := emitConstant_emits rs h
    exact ⟨_, rs, congrArg Except.ok hsite, hemit⟩
  | .str text, c, c', rs, h => by
    obtain ⟨hsite, hemit⟩ := emitConstant_emits rs h
    exact ⟨_, rs, congrArg Except.ok hsite, hemit⟩
  | .bool true, c, c', rs, h => by
    obtain ⟨rfl, hemit⟩ := emitted_of_emit (i := ⟨.pushTrue, 0⟩) (fun _ => rfl) rs h
    exact ⟨.bool true, rs, rfl, hemit⟩
  | .bool false, c, c', rs, h => by
    obtain ⟨rfl, hemit⟩ := emitted_of_emit (i := ⟨.pushFalse, 0⟩) (fun _ => rfl) rs h
    exact ⟨.bool false, rs, rfl, hemit⟩
  | .null, c, c', rs, h => by
    obtain ⟨rfl, hemit⟩ := emitted_of_emit (i := ⟨.pushNull, 0⟩) (fun _ => rfl) rs h
    exact ⟨.null, rs, rfl, hemit⟩
  | .array elements, c, c', rs, h => by
    obtain ⟨c₁, hterms, h⟩ := bind_eq_ok_iff.mp h
    obtain ⟨ts, rs₁, hres, hlength, hsteps⟩ := exprs_emits elements rs hterms
    obtain ⟨rfl, hemit⟩ :=
      emitted_of_emit (i := ⟨.array, elements.length⟩) (fun hw => by cases hw) rs₁ h
    refine ⟨.array ts, rs₁, bind_eq_ok_iff.mpr ⟨_, hres, rfl⟩, ?_⟩
    rw [Term.layout, hlength]
    exact hsteps.trans hemit
  | .unary op operand, c, c', rs, h => by
    obtain ⟨c₁, hoperand, h⟩ := bind_eq_ok_iff.mp h
    obtain ⟨t, rs₁, hres, hsteps⟩ := expr_emits operand rs hoperand
    obtain ⟨rfl, hemit⟩ : c' = c₁.extend ⟨op.opcode, 0⟩ ∧ Emitted c₁ c' rs₁ rs₁ [⟨op.opcode, 0⟩] := by
      cases op <;> exact emitted_of_emit (i := ⟨_, 0⟩) (fun _ => rfl) rs₁ h
    exact ⟨.unary op t, rs₁, bind_eq_ok_iff.mpr ⟨_, hres, rfl⟩, hsteps.trans hemit⟩
  -- The operands of `<` are compiled and resolved in exchanged order.
  | .binary op left right, c, c', rs, h => by
    unfold resolveExpr
    by_cases hless : op = .less
    · subst hless
      obtain ⟨c₁, hright, h⟩ := bind_eq_ok_iff.mp h
      obtain ⟨c₂, hleft, h⟩ := bind_eq_ok_iff.mp h
      obtain ⟨second, rs₁, hres₁, hsteps₁⟩ := expr_emits right rs hright
      obtain ⟨first, rs₂, hres₂, hsteps₂⟩ := expr_emits left rs₁ hleft
      obtain ⟨rfl, hemit⟩ := emitted_of_emit (i := ⟨.greaterThan, 0⟩) (fun _ => rfl) rs₂ h
      refine ⟨.binary .less first second, rs₂, ?_, ?_⟩
      · rw [if_pos rfl]
        exact bind_eq_ok_iff.mpr ⟨_, hres₁, bind_eq_ok_iff.mpr ⟨_, hres₂, rfl⟩⟩
      · rw [hsteps₁.here] at hsteps₂
        exact hsteps₁.trans (hsteps₂.trans hemit)
    · rw [expr_binary hless] at h
      obtain ⟨c₁, hleft, h⟩ := bind_eq_ok_iff.mp h
      obtain ⟨c₂, hright, h⟩ := bind_eq_ok_iff.mp h
      obtain ⟨first, rs₁, hres₁, hsteps₁⟩ := expr_emits left rs hleft
      obtain ⟨second, rs₂, hres₂, hsteps₂⟩ := expr_emits right rs₁ hright
      obtain ⟨rfl, hemit⟩ :
          c' = c₂.extend ⟨op.opcode, 0⟩ ∧ Emitted c₂ c' rs₂ rs₂ [⟨op.opcode, 0⟩] := by
        cases op <;> exact emitted_of_emit (i := ⟨_, 0⟩) (fun _ => rfl) rs₂ h
      refine ⟨.binary op first second, rs₂, ?_, ?_⟩
      · rw [if_neg hless]
        exact bind_eq_ok_iff.mpr ⟨_, hres₁, bind_eq_ok_iff.mpr ⟨_, hres₂, rfl⟩⟩
      · rw [hsteps₁.here] at hsteps₂
        rw [Term.layout, if_neg hless]
        exact hsteps₁.trans (hsteps₂.trans hemit)
  | .cond condition consequence alternative, c, c', rs, h => by
    rw [expr_cond] at h
    unfold resolveExpr
    obtain ⟨c₁, htest, h₁⟩ := bind_eq_ok_iff.mp h
    obtain ⟨c₂, hbranch, h₂⟩ := bind_eq_ok_iff.mp h₁
    obtain ⟨c₃, hyes, h₃⟩ := bind_eq_ok_iff.mp h₂
    obtain ⟨c₄, hclose, h₄⟩ := bind_eq_ok_iff.mp h₃
    obtain ⟨c₅, hskip, h₅⟩ := bind_eq_ok_iff.mp h₄
    obtain ⟨c₆, hpatch, h₆⟩ := bind_eq_ok_iff.mp h₅
    -- The steps of the first way are taken apart; `openCond` says what they come to together.
    clear h h₁ h₂ h₃ h₄ h₅
    obtain ⟨test, rs₁, hres₁, hsteps₁⟩ := expr_emits condition rs htest
    obtain ⟨rfl, -⟩ :=
      emitted_of_emit (i := ⟨.jumpNotTruthy, Steps.unpatched⟩) (fun hw => by cases hw) rs₁ hbranch
    obtain ⟨yes, rs₂, hres₂, hcommands₂, hends₂⟩ := stmts_emits consequence rs₁ hyes
    obtain ⟨hfirst, hskipStart, hend, hpop, hsite₂⟩ :=
      hsteps₁.openCond hbranch hcommands₂ hends₂ hclose hskip hpatch
    rw [hskipStart] at h₆
    cases alternative with
    | none =>
      obtain ⟨c₇, hnull, h⟩ := bind_eq_ok_iff.mp h₆
      obtain ⟨rfl, hno⟩ := emitted_of_emit (i := ⟨.pushNull, 0⟩) (fun _ => rfl) rs₂ hnull
      obtain ⟨hjoined, hsite⟩ := hfirst.join hno h
      refine ⟨.cond test yes none, rs₂,
        bind_eq_ok_iff.mpr ⟨_, hres₁, bind_eq_ok_iff.mpr ⟨_, hres₂, ?_⟩⟩, ?_⟩
      · rw [hsite, site_extend, hsite₂]
      · rw [hno.here, hend] at hjoined
        exact hjoined
    | some body =>
      obtain ⟨c₇, hbody, h₇⟩ := bind_eq_ok_iff.mp h₆
      obtain ⟨c₈, hclosed, h₈⟩ := bind_eq_ok_iff.mp h₇
      obtain ⟨no, rs₃, hres₃, hcommands₃, hends₃⟩ := stmts_emits body rs₂ hbody
      obtain ⟨hno, hsite₄⟩ := closeBlock_emits hpop hcommands₃ hends₃ hclosed
      obtain ⟨hjoined, hsite⟩ := hfirst.join hno h₈
      rw [hsite₂] at hres₃
      refine ⟨.cond test yes (some no), rs₃, bind_eq_ok_iff.mpr ⟨_, hres₁,
        bind_eq_ok_iff.mpr ⟨_, hres₂, bind_eq_ok_iff.mpr ⟨_, hres₃, ?_⟩⟩⟩, ?_⟩
      · rw [hsite, hsite₄]
      · rw [hno.here, hend] at hjoined
        exact hjoined
  -- The code of the inside goes into a routine, and the constant is what the surrounding code gets.
  | .function params body, c, c', rs, h => by
    obtain ⟨c₁, hbody, h⟩ := bind_eq_ok_iff.mp h
    obtain ⟨c₂, hclose, h⟩ := bind_eq_ok_iff.mp h
    obtain ⟨cs, rs₁, hres, hsteps, hends⟩ := stmts_emits body rs hbody
    obtain ⟨hwhole, hsite⟩ := closeBody_emits rfl hsteps hends hclose
    obtain ⟨t, hconstant, hemit⟩ := function_emits hwhole h
    refine ⟨t, _, bind_eq_ok_iff.mpr ⟨_, hres, ?_⟩, hemit⟩
    rw [← hsite]
    exact congrArg Except.ok hconstant
  | .call callee args, c, c', rs, h => by
    obtain ⟨c₁, hcallee, h⟩ := bind_eq_ok_iff.mp h
    obtain ⟨c₂, hargs, h⟩ := bind_eq_ok_iff.mp h
    obtain ⟨function, rs₁, hres₁, hsteps₁⟩ := expr_emits callee rs hcallee
    obtain ⟨terms, rs₂, hres₂, hlength, hsteps₂⟩ := exprs_emits args rs₁ hargs
    obtain ⟨rfl, hemit⟩ :=
      emitted_of_emit (i := ⟨.call, args.length⟩) (fun hw => by cases hw) rs₂ h
    refine ⟨.call function terms, rs₂,
      bind_eq_ok_iff.mpr ⟨_, hres₁, bind_eq_ok_iff.mpr ⟨_, hres₂, rfl⟩⟩, ?_⟩
    rw [hsteps₁.here] at hsteps₂
    rw [Term.layout, hlength]
    exact hsteps₁.trans (hsteps₂.trans hemit)
  | .index collection position, c, c', rs, h => by
    obtain ⟨c₁, hcollection, h⟩ := bind_eq_ok_iff.mp h
    obtain ⟨c₂, hposition, h⟩ := bind_eq_ok_iff.mp h
    obtain ⟨first, rs₁, hres₁, hsteps₁⟩ := expr_emits collection rs hcollection
    obtain ⟨second, rs₂, hres₂, hsteps₂⟩ := expr_emits position rs₁ hposition
    obtain ⟨rfl, hemit⟩ := emitted_of_emit (i := ⟨.index, 0⟩) (fun _ => rfl) rs₂ h
    refine ⟨.index first second, rs₂,
      bind_eq_ok_iff.mpr ⟨_, hres₁, bind_eq_ok_iff.mpr ⟨_, hres₂, rfl⟩⟩, ?_⟩
    rw [hsteps₁.here] at hsteps₂
    exact hsteps₁.trans (hsteps₂.trans hemit)

theorem exprs_emits : ∀ (es : List Expr) {c c' : Compiler} (rs : List Routine),
    exprs es c = .ok c' → ∃ ts rs', resolveExprs es (c.site rs) = .ok (ts, c'.site rs') ∧
      ts.length = es.length ∧ Emitted c c' rs rs' (layoutTerms ts c.here)
  | [], c, c', rs, h => by
    cases h
    exact ⟨[], rs, rfl, rfl, .refl c rs⟩
  | e :: rest, c, c', rs, h => by
    obtain ⟨c₁, hfirst, h⟩ := bind_eq_ok_iff.mp h
    obtain ⟨t, rs₁, hres, hsteps⟩ := expr_emits e rs hfirst
    obtain ⟨ts, rs₂, hress, hlength, hmore⟩ := exprs_emits rest rs₁ h
    refine ⟨t :: ts, rs₂, bind_eq_ok_iff.mpr ⟨_, hres, bind_eq_ok_iff.mpr ⟨_, hress, rfl⟩⟩,
      congrArg (· + 1) hlength, ?_⟩
    rw [hsteps.here] at hmore
    exact hsteps.trans hmore

theorem stmt_emits : ∀ (s : Stmt) {c c' : Compiler} (rs : List Routine), stmt s c = .ok c' →
    ∃ cmd rs', resolveStmt s (c.site rs) = .ok (cmd, c'.site rs') ∧
      Emitted c c' rs rs' (cmd.layout c.here) ∧ Ends cmd.closing c c'
  | .letIn name value, c, c', rs, h => by
    rw [stmt_letIn] at h
    unfold resolveStmt
    split at h
    · -- A function is named before it is compiled, so that it can call itself.
      obtain ⟨c₁, hvalue, h⟩ := bind_eq_ok_iff.mp h
      obtain ⟨t, rs₁, hres, hsteps⟩ := expr_emits value rs hvalue
      obtain ⟨i, hlayout, hclosing, hemit, hends, hsite⟩ :=
        emitAssignment_emits rs₁ h t c.here
      refine ⟨(c₁.site rs₁).assignment c.scope.slots t, rs₁, ?_, ?_, ?_⟩
      · rw [if_pos ‹_›, hsite]
        exact bind_eq_ok_iff.mpr ⟨_, hres, rfl⟩
      · have hmoved : Emitted c c₁ rs rs₁ (t.layout c.here) := hsteps.of_buffer rfl
        rw [hlayout]
        exact hmoved.trans hemit
      · rw [hclosing]
        exact hends
    · obtain ⟨c₁, hvalue, h⟩ := bind_eq_ok_iff.mp h
      obtain ⟨t, rs₁, hres, hsteps⟩ := expr_emits value rs hvalue
      obtain ⟨i, hlayout, hclosing, hemit, hends, hsite⟩ :=
        emitAssignment_emits rs₁ h t c.here
      have hmoved : Emitted c₁ c' rs₁ rs₁ [i] := hemit.of_buffer rfl
      have hassign : (c₁.site rs₁).assignment c₁.scope.slots t =
          Site.assignment c₁.scope.slots t ((c₁.site rs₁).define name) :=
        (Site.assignment_define _ _ _ _).symm
      refine ⟨(c₁.site rs₁).assignment c₁.scope.slots t, rs₁, ?_, ?_, ?_⟩
      · rw [if_neg ‹_›, hsite]
        exact bind_eq_ok_iff.mpr ⟨_, hres, rfl⟩
      · rw [hassign]
        exact hlayout ▸ hsteps.trans hmoved
      · rw [hassign]
        exact hclosing ▸ hends
  | .ret value, c, c', rs, h => by
    obtain ⟨c₁, hvalue, h⟩ := bind_eq_ok_iff.mp h
    obtain ⟨t, rs₁, hres, hsteps⟩ := expr_emits value rs hvalue
    obtain ⟨rfl, hemit⟩ := emitted_of_emit (i := ⟨.returnValue, 0⟩) (fun _ => rfl) rs₁ h
    exact ⟨.ret t, rs₁, bind_eq_ok_iff.mpr ⟨_, hres, rfl⟩, hsteps.trans hemit,
      ends_extend ⟨.returnValue, 0⟩ c c₁⟩
  | .throw value, c, c', rs, h => by
    obtain ⟨c₁, hvalue, h⟩ := bind_eq_ok_iff.mp h
    obtain ⟨t, rs₁, hres, hsteps⟩ := expr_emits value rs hvalue
    obtain ⟨rfl, hemit⟩ := emitted_of_emit (i := ⟨.throwValue, 0⟩) (fun _ => rfl) rs₁ h
    exact ⟨.throw t, rs₁, bind_eq_ok_iff.mpr ⟨_, hres, rfl⟩, hsteps.trans hemit,
      ends_extend ⟨.throwValue, 0⟩ c c₁⟩
  | .expr value, c, c', rs, h => by
    obtain ⟨c₁, hvalue, h⟩ := bind_eq_ok_iff.mp h
    obtain ⟨t, rs₁, hres, hsteps⟩ := expr_emits value rs hvalue
    obtain ⟨rfl, hemit⟩ := emitted_of_emit (i := ⟨.pop, 0⟩) (fun _ => rfl) rs₁ h
    exact ⟨.expr t, rs₁, bind_eq_ok_iff.mpr ⟨_, hres, rfl⟩, hsteps.trans hemit,
      ends_extend ⟨.pop, 0⟩ c c₁⟩
  | .empty, c, c', rs, h => by
    cases h
    exact ⟨.empty, rs, rfl, .refl c rs, rfl⟩

theorem stmts_emits : ∀ (ss : List Stmt) {c c' : Compiler} (rs : List Routine),
    stmts ss c = .ok c' → ∃ cs rs', resolveStmts ss (c.site rs) = .ok (cs, c'.site rs') ∧
      Emitted c c' rs rs' (layoutCommands cs c.here) ∧ Ends (closingOf cs) c c'
  | [], c, c', rs, h => by
    cases h
    exact ⟨[], rs, rfl, .refl c rs, rfl⟩
  | s :: rest, c, c', rs, h => by
    obtain ⟨c₁, hfirst, h⟩ := bind_eq_ok_iff.mp h
    obtain ⟨cmd, rs₁, hres, hsteps, hends⟩ := stmt_emits s rs hfirst
    obtain ⟨cs, rs₂, hress, hmore, hends'⟩ := stmts_emits rest rs₁ h
    refine ⟨cmd :: cs, rs₂, bind_eq_ok_iff.mpr ⟨_, hres, bind_eq_ok_iff.mpr ⟨_, hress, rfl⟩⟩,
      ?_, hends.trans hends'⟩
    rw [hsteps.here] at hmore
    exact hsteps.trans hmore

end

/-- A snippet's top level that compiles resolves, and adds its layout to the code. This is where the compiler,
which emits and patches as it goes, meets a layout that is known in advance. -/
theorem topLevel_emits : ∀ (p : Program) {c c' : Compiler} (rs : List Routine),
    topLevel p c = .ok c' → ∃ cs rs', resolveStmts p (c.site rs) = .ok (cs, c'.site rs') ∧
      Emitted c c' rs rs' (layoutProgram cs c.here)
  | [], c, c', rs, h => by
    obtain ⟨rfl, hret⟩ := emitted_of_emit (i := ⟨.ret, 0⟩) (fun _ => rfl) rs h
    exact ⟨[], rs, rfl, hret⟩
  | s :: rest, c, c', rs, h => by
    by_cases hvalue : ∃ value, s = .expr value ∧ rest = []
    · obtain ⟨value, rfl, rfl⟩ := hvalue
      obtain ⟨c₁, hexpr, h⟩ := bind_eq_ok_iff.mp h
      obtain ⟨t, rs₁, hres, hsteps⟩ := expr_emits value rs hexpr
      obtain ⟨rfl, hemit⟩ := emitted_of_emit (i := ⟨.returnValue, 0⟩) (fun _ => rfl) rs₁ h
      exact ⟨[.expr t], rs₁,
        bind_eq_ok_iff.mpr ⟨_, bind_eq_ok_iff.mpr ⟨_, hres, rfl⟩, rfl⟩, hsteps.trans hemit⟩
    · rw [topLevel_cons hvalue] at h
      obtain ⟨c₁, hfirst, h⟩ := bind_eq_ok_iff.mp h
      obtain ⟨cmd, rs₁, hres, hsteps, -⟩ := stmt_emits s rs hfirst
      obtain ⟨cs, rs₂, hress, hmore⟩ := topLevel_emits rest rs₁ h
      refine ⟨cmd :: cs, rs₂,
        bind_eq_ok_iff.mpr ⟨_, hres, bind_eq_ok_iff.mpr ⟨_, hress, rfl⟩⟩, ?_⟩
      rw [layoutProgram_cons, ← hsteps.here]
      · exact hsteps.trans hmore
      · rintro ⟨t, rfl, rfl⟩
        exact hvalue ⟨_, (eq_expr_of_resolveStmt hres).choose_spec, eq_nil_of_resolveStmts hress⟩

end Compiler

end Notebook
