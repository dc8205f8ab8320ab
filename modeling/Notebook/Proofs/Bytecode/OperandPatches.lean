import Notebook.Proofs.Bytecode.Assembly
import Notebook.Proofs.Fallible

/-!
Patching operands.

An operand of two bytes is patched wherever it is to stand: inside of the code, across its end, or past the
end. Done in place, this is a write through a cursor, which overwrites what there is, adds what there is not,
and fills the gap that is left between the end and the place.

* `Code.getElem?_writeAt`: what a write makes of each byte.
* `Code.patchWord_eq_ok_iff`: a patch comes to what `Code.Patched` says, and to nothing else.
* `Code.patchInPlace_eq`: in place it comes to the same, and a patch that fails has written nothing.
* `Code.bytes_of_patchWord`: of an instruction in any bytes, the operand is replaced.
* `Code.Splits.patchWord_iff`: of some instructions, the one at the place gets another operand.
* `Code.patchWord_comm`: patches that do not meet commute.
* `Code.patching_exact`: all of it, for any code and for code that is made of instructions.
-/

namespace Notebook

namespace Code

/-! ### Writing at a place -/

/-- Code with some bytes written at a place, which may be past the end: then zeros come before them. -/
def writeAt (code : Code) (position : Nat) (written : List UInt8) : Code :=
  let padded := (code.padTo position).bytes.toList
  ⟨(padded.take position ++ (written ++ padded.drop (position + written.length))).toArray⟩

/-- Patches an operand in place. The cursor stands behind the opcode, and nothing is written before the number
is known to fit, which is what leaves the code alone when it does not. -/
def patchInPlace (position n : Nat) : EStateM OperandError Code Unit := do
  let cursor := position + 1
  let written ← if n < 65536 then pure (wordBytes n) else throw .tooLarge
  modify fun code => code.writeAt cursor written

/-- Is this the code with `n` as the operand of two bytes at a place? Its size, the operand, the other bytes and
the gap before the operand are all fixed, so there is only one such code (`eq_writeAt`). -/
structure Patched (code : Code) (position n : Nat) (code' : Code) : Prop where
  size : code'.size = max code.size (position + 3)
  operand : code'.word? (position + 1) = some n
  others : ∀ k < code.size, k ≠ position + 1 → k ≠ position + 2 → code'.bytes[k]? = code.bytes[k]?
  gap : ∀ k, code.size ≤ k → k ≤ position → code'.bytes[k]? = some 0

section

variable {code code' : Code} {position n : Nat}

/-- Code is its bytes. -/
theorem ext_getElem? (h : ∀ k : Nat, code'.bytes[k]? = code.bytes[k]?) : code' = code := by
  obtain ⟨bytes⟩ := code
  obtain ⟨bytes'⟩ := code'
  exact congrArg Code.mk (Array.ext_getElem? h)

@[simp] theorem size_padTo (code : Code) (n : Nat) : (code.padTo n).size = max code.size n := by
  simp only [size, padTo, Array.size_append, Array.size_replicate]
  omega

theorem getElem?_padTo (code : Code) (n k : Nat) :
    (code.padTo n).bytes[k]? = if k < n then some (code.bytes[k]?.getD 0) else code.bytes[k]? := by
  simp only [padTo, Array.getElem?_append, Array.getElem?_replicate]
  by_cases hk : k < code.bytes.size
  · simp [hk]
  · have hnone : code.bytes[k]? = none := Array.getElem?_eq_none (Nat.not_lt.mp hk)
    have hgap : k - code.bytes.size < n - code.bytes.size ↔ k < n := by omega
    simp only [if_neg hk, hnone, hgap, Option.getD_none]

theorem size_writeAt (code : Code) (position : Nat) (written : List UInt8) :
    (code.writeAt position written).size = max code.size (position + written.length) := by
  have hsize := code.size_padTo position
  unfold size at hsize
  simp only [size, writeAt, List.size_toArray, List.length_append, List.length_take, List.length_drop,
    Array.length_toList, hsize]
  omega

/-- Before the place code is filled up, at the place is what was written, and after that what there was. -/
theorem getElem?_writeAt (code : Code) (position : Nat) (written : List UInt8) (k : Nat) :
    (code.writeAt position written).bytes[k]? =
      if k < position then some (code.bytes[k]?.getD 0)
      else if k < position + written.length then written[k - position]? else code.bytes[k]? := by
  have hsize := code.size_padTo position
  unfold size at hsize
  have htake : ((code.padTo position).bytes.toList.take position).length = position := by
    rw [List.length_take, Array.length_toList, hsize]
    omega
  simp only [writeAt, List.getElem?_toArray]
  split
  · rename_i hbefore
    rw [List.getElem?_append_left (by omega), List.getElem?_take_of_lt hbefore, Array.getElem?_toList,
      getElem?_padTo, if_pos hbefore]
  · rename_i hplace
    rw [List.getElem?_append_right (by omega), htake]
    split
    · exact List.getElem?_append_left (by omega)
    · rename_i hafter
      have hk : position + written.length + (k - position - written.length) = k := by omega
      rw [List.getElem?_append_right (by omega), List.getElem?_drop, hk, Array.getElem?_toList,
        getElem?_padTo, if_neg hplace]

/-- The same for a number that is written in two bytes. -/
theorem getElem?_writeAt_word (code : Code) (position n k : Nat) :
    (code.writeAt position (wordBytes n)).bytes[k]? =
      if k = position then some (UInt8.ofNat (n / 256))
      else if k = position + 1 then some (UInt8.ofNat n)
      else if k < position then some (code.bytes[k]?.getD 0) else code.bytes[k]? := by
  rw [getElem?_writeAt]
  split
  · rename_i hbefore
    rw [if_neg (by omega), if_neg (by omega)]
  · rename_i hplace
    split
    · rename_i hinside
      obtain rfl | rfl : k = position ∨ k = position + 1 := by
        simp only [wordBytes, List.length_cons, List.length_nil] at hinside
        omega
      · simp [wordBytes]
      · simp [wordBytes]
    · rename_i hafter
      simp only [wordBytes, List.length_cons, List.length_nil] at hafter
      rw [if_neg (by omega), if_neg (by omega)]

/-- Bytes that are written inside of code replace as many. -/
theorem toList_writeAt {code : Code} {before old after written : List UInt8}
    (hcode : code.bytes.toList = before ++ (old ++ after)) (hlength : written.length = old.length) :
    (code.writeAt before.length written).bytes.toList = before ++ (written ++ after) := by
  have hsize : before.length - code.bytes.size = 0 := by
    rw [← Array.length_toList, hcode, List.length_append]
    omega
  have hpad : (code.padTo before.length).bytes = code.bytes := by
    simp [padTo, hsize]
  rw [writeAt, hpad, hcode, List.take_left, hlength, ← List.drop_drop, List.drop_left, List.drop_left]

/-- Writes commute if the first place is left before the second one comes, wherever the code ends. -/
theorem writeAt_writeAt (code : Code) {position position' : Nat} {written : List UInt8}
    (h : position + written.length ≤ position') (written' : List UInt8) :
    (code.writeAt position written).writeAt position' written' =
      (code.writeAt position' written').writeAt position written := by
  refine ext_getElem? fun k => ?_
  simp only [getElem?_writeAt]
  -- The later place fills code up to where it starts, but what the earlier one has written is there already.
  by_cases hbefore : k < position
  · have hbefore' : k < position' := by omega
    simp [hbefore, hbefore']
  by_cases hplace : k < position + written.length
  · have hbefore' : k < position' := by omega
    have hwritten : k - position < written.length := by omega
    simp [hbefore, hplace, hbefore', List.getElem?_eq_getElem hwritten]
  · simp [hbefore, hplace]

theorem writeAt_comm (code : Code) {position position' : Nat} {written written' : List UInt8}
    (h : position + written.length ≤ position' ∨ position' + written'.length ≤ position) :
    (code.writeAt position written).writeAt position' written' =
      (code.writeAt position' written').writeAt position written := by
  rcases h with h | h
  · exact code.writeAt_writeAt h written'
  · exact (code.writeAt_writeAt h written).symm

/-! ### Patching any code -/

/-- Patching is writing the operand behind the opcode, if it fits. Then the two bytes are all that changes, and
otherwise nothing is patched at all. -/
theorem patchWord_eq (code : Code) (position n : Nat) : code.patchWord position n =
    if n < 65536 then .ok (code.writeAt (position + 1) (wordBytes n)) else .error .tooLarge := by
  unfold patchWord
  split
  · refine congrArg Except.ok (ext_getElem? fun k => ?_)
    have hsize := code.size_padTo (position + 3)
    unfold size at hsize
    rw [getElem?_writeAt_word]
    by_cases hhigh : k = position + 1
    · subst hhigh
      rw [if_pos rfl, Array.getElem?_setIfInBounds_ne (by omega),
        Array.getElem?_setIfInBounds_self_of_lt (by omega)]
    by_cases hlow : k = position + 2
    · subst hlow
      rw [if_neg hhigh, if_pos rfl,
        Array.getElem?_setIfInBounds_self_of_lt (by rw [Array.size_setIfInBounds]; omega)]
    rw [if_neg hhigh, if_neg hlow, Array.getElem?_setIfInBounds_ne (by omega),
      Array.getElem?_setIfInBounds_ne (by omega), getElem?_padTo]
    -- A patch fills code up to the end of the operand, a write only up to its start. Of what is between the two
    -- nothing is left.
    by_cases hbefore : k < position + 1
    · rw [if_pos hbefore, if_pos (by omega)]
    · rw [if_neg hbefore, if_neg (by omega)]
  · rfl

/-- A patch in place comes to the same. One that fails leaves the code as it was. -/
theorem patchInPlace_eq (code : Code) (position n : Nat) : patchInPlace position n code =
    match code.patchWord position n with
    | .ok code' => .ok () code'
    | .error cause => .error cause code := by
  rw [patchWord_eq]
  unfold patchInPlace
  split <;> rfl

/-- A number is read where its two bytes are. -/
theorem word?_eq_some_iff : code.word? position = some n ↔ n < 65536 ∧
    code.bytes[position]? = some (UInt8.ofNat (n / 256)) ∧
      code.bytes[position + 1]? = some (UInt8.ofNat n) := by
  unfold word?
  constructor
  · intro h
    split at h
    · rename_i high low hhigh hlow
      obtain rfl := Option.some.inj h
      obtain ⟨hlt, hbytes⟩ := wordBytes_toNat high low
      rw [wordBytes, List.cons.injEq, List.cons.injEq] at hbytes
      obtain ⟨hquotient, hrest, -⟩ := hbytes
      rw [hquotient, hrest]
      exact ⟨hlt, hhigh, hlow⟩
    · cases h
  · rintro ⟨hlt, hhigh, hlow⟩
    rw [hhigh, hlow]
    exact congrArg some (wordBytes_value hlt)

/-- An operand that is written behind its opcode is patched. -/
theorem patched_writeAt (code : Code) (position : Nat) (h : n < 65536) :
    code.Patched position n (code.writeAt (position + 1) (wordBytes n)) where
  size := by
    rw [size_writeAt]
    rfl
  operand := by
    rw [word?_eq_some_iff, getElem?_writeAt_word, getElem?_writeAt_word]
    simp [h]
  others k hk hfirst hsecond := by
    rw [getElem?_writeAt_word, if_neg hfirst, if_neg hsecond, Array.getElem?_eq_getElem hk]
    exact ite_self _
  gap k hk hgap := by
    have hnone : code.bytes[k]? = none := Array.getElem?_eq_none hk
    rw [getElem?_writeAt_word, if_neg (by omega), if_neg (by omega), if_pos (by omega), hnone]
    rfl

namespace Patched

theorem lt (h : code.Patched position n code') : n < 65536 := (word?_eq_some_iff.mp h.operand).1

/-- Nothing is left open by what is said of patched code: there are no other bytes of the same size that read as
the number at its place and as before elsewhere. -/
theorem eq_writeAt (h : code.Patched position n code') :
    code' = code.writeAt (position + 1) (wordBytes n) := by
  obtain ⟨-, hhigh, hlow⟩ := word?_eq_some_iff.mp h.operand
  refine ext_getElem? fun k => ?_
  rw [getElem?_writeAt_word]
  by_cases hfirst : k = position + 1
  · rw [if_pos hfirst, hfirst, hhigh]
  by_cases hsecond : k = position + 2
  · rw [if_neg hfirst, if_pos hsecond, hsecond, hlow]
  rw [if_neg hfirst, if_neg hsecond]
  by_cases hinside : k < code.size
  · rw [h.others k hinside hfirst hsecond, Array.getElem?_eq_getElem hinside]
    exact (ite_self _).symm
  have hnone : code.bytes[k]? = none := Array.getElem?_eq_none (Nat.not_lt.mp hinside)
  rw [hnone]
  by_cases hgap : k < position + 1
  · rw [if_pos hgap]
    exact h.gap k (Nat.not_lt.mp hinside) (Nat.le_of_lt_succ hgap)
  · have hsize := h.size
    have hpast : code'.size ≤ k := by omega
    rw [if_neg hgap]
    exact Array.getElem?_eq_none hpast

end Patched

/-- A patch comes to the patched code, and to no other. -/
theorem patchWord_eq_ok_iff : code.patchWord position n = .ok code' ↔ code.Patched position n code' := by
  rw [patchWord_eq]
  constructor
  · intro h
    split at h
    · rename_i hlt
      cases h
      exact patched_writeAt code position hlt
    · cases h
  · intro h
    rw [if_pos h.lt, h.eq_writeAt]

theorem exists_patchWord_iff : (∃ code', code.patchWord position n = .ok code') ↔ n < 65536 := by
  simp only [patchWord_eq_ok_iff]
  exact ⟨fun ⟨_, h⟩ => h.lt, fun h => ⟨_, patched_writeAt code position h⟩⟩

/-- Patches commute if their operands do not meet. If one fails then so do both together, in either order, since
a patch fails for its number alone. -/
theorem patchWord_comm (code : Code) {position position' : Nat} (m n : Nat)
    (h : position + 2 ≤ position' ∨ position' + 2 ≤ position) :
    (code.patchWord position m >>= fun code => code.patchWord position' n) =
      (code.patchWord position' n >>= fun code => code.patchWord position m) := by
  have hapart : position + 1 + (wordBytes m).length ≤ position' + 1 ∨
      position' + 1 + (wordBytes n).length ≤ position + 1 := by
    simp only [wordBytes, List.length_cons, List.length_nil]
    omega
  have hcomm := code.writeAt_comm hapart
  simp only [patchWord_eq]
  by_cases hm : m < 65536
  · by_cases hn : n < 65536
    · simp only [if_pos hm, if_pos hn]
      exact congrArg Except.ok hcomm
    · simp only [if_pos hm, if_neg hn]
      rfl
  · by_cases hn : n < 65536
    · simp only [if_neg hm, if_pos hn]
      rfl
    · simp only [if_neg hm, if_neg hn]

end

/-! ### Patching instructions -/

section

variable {code code' : Code} {before between after : List Instr} {op op' : Opcode} {k k' m n : Nat}

/-- An operand that stands in code fits its field. -/
theorem Splits.operand_lt (h : code.Splits (before ++ ⟨op, n⟩ :: after)) (hword : op.operandWidth = .word) :
    n < 65536 := by
  have hfits := h.2 ⟨op, n⟩ (List.mem_append_right _ (List.mem_cons_self ..))
  simpa [Instr.Fits, hword] using hfits

/-- Of the bytes of an instruction those of its operand are replaced, and no others. -/
theorem bytes_of_patchWord {before after : List UInt8} (hword : op.operandWidth = .word)
    (hcode : code.bytes.toList = before ++ (Instr.bytes ⟨op, m⟩ ++ after))
    (h : code.patchWord before.length n = .ok code') :
    Instr.Fits ⟨op, n⟩ ∧ code'.bytes.toList = before ++ (Instr.bytes ⟨op, n⟩ ++ after) := by
  have hpatched := patchWord_eq_ok_iff.mp h
  have hbytes : ∀ k, Instr.bytes ⟨op, k⟩ = [op.byte] ++ wordBytes k := by
    intro k
    simp [Instr.bytes, Instr.operandBytes, hword]
  have hbehind : code.bytes.toList = (before ++ [op.byte]) ++ (wordBytes m ++ after) := by
    simp [hcode, hbytes]
  refine ⟨by simpa [Instr.Fits, hword] using hpatched.lt, ?_⟩
  have hlength : (wordBytes n).length = (wordBytes m).length := rfl
  have hwritten := toList_writeAt hbehind hlength
  rw [List.length_append, List.length_singleton] at hwritten
  rw [hpatched.eq_writeAt, hwritten, hbytes]
  simp

/-- Of the instructions that code is made of, the one at the place gets another operand. All of them are where
they were. -/
theorem Splits.patchWord_iff (h : code.Splits (before ++ ⟨op, k⟩ :: after)) (hword : op.operandWidth = .word) :
    code.patchWord (codeSize before) n = .ok code' ↔ code'.Splits (before ++ ⟨op, n⟩ :: after) := by
  have hpatch : ∀ code', code.patchWord (codeSize before) n = .ok code' →
      code'.Splits (before ++ ⟨op, n⟩ :: after) := by
    intro code' hpatch
    rw [← length_assemble] at hpatch
    have hcode : code.bytes.toList = assemble before ++ (Instr.bytes ⟨op, k⟩ ++ assemble after) := by
      rw [h.1, assemble_append, assemble_cons]
    obtain ⟨hfits, hcode'⟩ := bytes_of_patchWord hword hcode hpatch
    refine ⟨by rw [hcode', assemble_append, assemble_cons], ?_⟩
    obtain ⟨hbefore, hothers⟩ := List.forall_mem_append.mp h.2
    obtain ⟨-, hafter⟩ := List.forall_mem_cons.mp hothers
    exact List.forall_mem_append.mpr ⟨hbefore, List.forall_mem_cons.mpr ⟨hfits, hafter⟩⟩
  refine ⟨hpatch code', fun hsplits => ?_⟩
  obtain ⟨code'', hcode''⟩ := exists_patchWord_iff.mpr (hsplits.operand_lt hword)
  rw [hcode'', hsplits.eq (hpatch code'' hcode'')]

/-- Two patches one after the other are two other operands. -/
theorem Splits.patchWords_iff (h : code.Splits (before ++ ⟨op, k⟩ :: (between ++ ⟨op', k'⟩ :: after)))
    (hword : op.operandWidth = .word) (hword' : op'.operandWidth = .word) :
    (code.patchWord (codeSize before) m >>= fun code =>
        code.patchWord (codeSize (before ++ ⟨op, k⟩ :: between)) n) = .ok code' ↔
      code'.Splits (before ++ ⟨op, m⟩ :: (between ++ ⟨op', n⟩ :: after)) := by
  have hsplit (i : Instr) : before ++ ⟨op, m⟩ :: (between ++ i :: after) =
      (before ++ ⟨op, m⟩ :: between) ++ i :: after := by simp
  have hsecond {middle : Code} (hfirst : code.patchWord (codeSize before) m = .ok middle) :
      middle.patchWord (codeSize (before ++ ⟨op, k⟩ :: between)) n = .ok code' ↔
        code'.Splits (before ++ ⟨op, m⟩ :: (between ++ ⟨op', n⟩ :: after)) := by
    have hmiddle := (h.patchWord_iff hword).mp hfirst
    rw [hsplit] at hmiddle ⊢
    rw [codeSize_patched before between op k m]
    exact hmiddle.patchWord_iff hword'
  rw [bind_eq_ok_iff]
  constructor
  · rintro ⟨middle, hfirst, hpatch⟩
    exact (hsecond hfirst).mp hpatch
  · intro hsplits
    obtain ⟨middle, hfirst⟩ := exists_patchWord_iff.mpr (hsplits.operand_lt hword)
    exact ⟨middle, hfirst, (hsecond hfirst).mpr hsplits⟩

/-- The operands of different instructions do not meet. -/
theorem patchWord_comm_of_instrs (code : Code) (before between : List Instr) (k m n : Nat)
    (hword : op.operandWidth = .word) :
    let first := codeSize before
    let second := codeSize (before ++ ⟨op, k⟩ :: between)
    (code.patchWord first m >>= fun code => code.patchWord second n) =
      (code.patchWord second n >>= fun code => code.patchWord first m) := by
  intro first second
  have hapart : second = first + (3 + codeSize between) := by
    rw [← Instr.size_of_word hword k, ← codeSize_cons, ← codeSize_append]
  exact code.patchWord_comm m n (.inl (by omega))

end

/-- In place or not, a patch succeeds exactly if the number is below 65536, and then the code is patched and
nothing more is done to it. If the patch fails, the code is as it was. In code that is made of instructions, one
that has an operand of two bytes gets another operand, and the rest stands as it stood. Two of them can be patched
in any order. -/
theorem patching_exact :
    (∀ (code : Code) (position n : Nat),
      (patchInPlace position n code = match code.patchWord position n with
        | .ok code' => .ok () code'
        | .error cause => .error cause code) ∧
      ((∃ code', code.patchWord position n = .ok code') ↔ n < 65536) ∧
      ∀ code', code.patchWord position n = .ok code' ↔ code.Patched position n code') ∧
    (∀ (code code' : Code) (before after : List Instr) (op : Opcode) (k n : Nat),
      code.Splits (before ++ ⟨op, k⟩ :: after) → op.operandWidth = .word →
      (code.patchWord (codeSize before) n = .ok code' ↔ code'.Splits (before ++ ⟨op, n⟩ :: after))) ∧
    ∀ (code : Code) (before between after : List Instr) (op op' : Opcode) (k k' m n : Nat),
      code.Splits (before ++ ⟨op, k⟩ :: (between ++ ⟨op', k'⟩ :: after)) →
      op.operandWidth = .word → op'.operandWidth = .word →
      let first := codeSize before
      let second := codeSize (before ++ ⟨op, k⟩ :: between)
      (code.patchWord first m >>= fun code => code.patchWord second n) =
          (code.patchWord second n >>= fun code => code.patchWord first m) ∧
        ∀ code', (code.patchWord first m >>= fun code => code.patchWord second n) = .ok code' ↔
          code'.Splits (before ++ ⟨op, m⟩ :: (between ++ ⟨op', n⟩ :: after)) := by
  -- The first part is about any code; the other two are about code that is made of instructions, where the
  -- places of operands are counted in instructions.
  refine ⟨fun code position n => ⟨code.patchInPlace_eq position n, exists_patchWord_iff,
    fun code' => patchWord_eq_ok_iff⟩, ?_, ?_⟩
  · intro code code' before after op k n hsplits hword
    exact hsplits.patchWord_iff hword
  · intro code before between after op op' k k' m n hsplits hword hword' first second
    exact ⟨code.patchWord_comm_of_instrs before between k m n hword,
      fun code' => hsplits.patchWords_iff hword hword'⟩

/-- Two jumps with another instruction between them, a patch that does not fit, and one past the end. -/
theorem patching_exact_jumps :
    let code : Code := ⟨#[13, 39, 15, 0, 0, 0, 14, 39, 15, 15]⟩
    let patched : Code := ⟨#[13, 0, 9, 0, 0, 0, 14, 39, 15, 15]⟩
    code.Splits [⟨.jumpNotTruthy, 9999⟩, ⟨.constant, 0⟩, ⟨.jump, 9999⟩, ⟨.pushNull, 0⟩] ∧
      code.patchWord 0 9 = .ok patched ∧
      patched.Splits [⟨.jumpNotTruthy, 9⟩, ⟨.constant, 0⟩, ⟨.jump, 9999⟩, ⟨.pushNull, 0⟩] ∧
      (code.patchWord 0 9 >>= fun code => code.patchWord 6 10) =
        (code.patchWord 6 10 >>= fun code => code.patchWord 0 9) ∧
      patchInPlace 0 65536 code = .error .tooLarge code ∧
      Patched ⟨#[14]⟩ 2 513 ⟨#[14, 0, 0, 2, 1]⟩ := by
  intro code patched
  have hsplits : code.Splits [⟨.jumpNotTruthy, 9999⟩, ⟨.constant, 0⟩, ⟨.jump, 9999⟩, ⟨.pushNull, 0⟩] :=
    ⟨rfl, by simp [Instr.Fits, Opcode.operandWidth]⟩
  have hpatch : code.patchWord 0 9 = .ok patched := rfl
  have hpast : (⟨#[14]⟩ : Code).patchWord 2 513 = .ok ⟨#[14, 0, 0, 2, 1]⟩ := rfl
  obtain ⟨hany, hinstr, hcomm⟩ := patching_exact
  exact ⟨hsplits, hpatch, (hinstr code patched [] _ .jumpNotTruthy 9999 9 hsplits rfl).mp hpatch,
    (hcomm code [] [⟨.constant, 0⟩] [⟨.pushNull, 0⟩] .jumpNotTruthy .jump 9999 9999 9 10 hsplits rfl rfl).1,
    (hany code 0 65536).1, ((hany _ 2 513).2.2 _).mp hpast⟩

end Code

end Notebook
