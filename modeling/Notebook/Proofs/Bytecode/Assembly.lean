import Notebook.Bytecode.Code

/-!
Assembling instructions.

`Instr` is an instruction apart from its byte form, and `assemble` writes a list of them.

* `encode_eq_ok_iff`: what can be written is exactly what fits (`Instr.Fits`), and it is written as
  `Instr.bytes`.
* `fetch_append`: an instruction that stands in some code is what the machine reads there.
* `Code.Splits.holds`: code that splits into instructions holds them one after the other.
* `Code.Splits.unique`: there is only one way to split code.
-/

namespace Notebook

/-- An instruction. One without operand has operand 0, so that instructions are equal exactly when their bytes
are. -/
structure Instr where
  opcode : Opcode
  operand : Nat := 0
  deriving DecidableEq, Repr

namespace Instr

/-- The operands as they are handed to `Opcode.encode`. -/
def operands (i : Instr) : List Nat :=
  match i.opcode.operandWidth with
  | .none => []
  | .byte | .word => [i.operand]

def size (i : Instr) : Nat := 1 + i.opcode.operandWidth.size

/-- Does the operand fit its field? -/
def Fits (i : Instr) : Prop :=
  match i.opcode.operandWidth with
  | .none => i.operand = 0
  | .byte => i.operand < 256
  | .word => i.operand < 65536

def operandBytes (i : Instr) : List UInt8 :=
  match i.opcode.operandWidth with
  | .none => []
  | .byte => [UInt8.ofNat i.operand]
  | .word => wordBytes i.operand

def bytes (i : Instr) : List UInt8 := i.opcode.byte :: i.operandBytes

@[simp] theorem length_bytes (i : Instr) : i.bytes.length = i.size := by
  cases hw : i.opcode.operandWidth <;>
    simp [bytes, operandBytes, size, hw, OperandWidth.size, wordBytes, Nat.add_comm]

theorem size_of_word {op : Opcode} (h : op.operandWidth = .word) (operand : Nat) :
    size ⟨op, operand⟩ = 3 := by
  rw [size, h]
  rfl

end Instr

/-- The bytes of some instructions, one after the other. -/
def assemble (is : List Instr) : List UInt8 := is.flatMap Instr.bytes

def codeSize : List Instr → Nat
  | [] => 0
  | i :: is => i.size + codeSize is

@[simp] theorem assemble_nil : assemble [] = [] := rfl

@[simp] theorem assemble_cons (i : Instr) (is : List Instr) :
    assemble (i :: is) = i.bytes ++ assemble is := rfl

@[simp] theorem assemble_append (is js : List Instr) :
    assemble (is ++ js) = assemble is ++ assemble js := by
  simp [assemble]

@[simp] theorem codeSize_nil : codeSize [] = 0 := rfl

@[simp] theorem codeSize_cons (i : Instr) (is : List Instr) :
    codeSize (i :: is) = i.size + codeSize is := rfl

@[simp] theorem codeSize_append (is js : List Instr) :
    codeSize (is ++ js) = codeSize is + codeSize js := by
  induction is with
  | nil => simp
  | cons i is ih => simp [ih, Nat.add_assoc]

/-- How much an instruction takes does not depend on its operand. -/
theorem codeSize_patched (before after : List Instr) (op : Opcode) (m n : Nat) :
    codeSize (before ++ ⟨op, m⟩ :: after) = codeSize (before ++ ⟨op, n⟩ :: after) := by
  simp only [codeSize_append, codeSize_cons, Instr.size]

@[simp] theorem length_assemble (is : List Instr) : (assemble is).length = codeSize is := by
  induction is with
  | nil => rfl
  | cons i is ih => simp [ih]

/-! ### Writing and reading one instruction -/

/-- An instruction can be written exactly if its operand fits, and then as its bytes. The operand of an opcode
that takes none has to be 0, since it would be lost. -/
theorem encode_eq_ok_iff (i : Instr) (bytes : List UInt8)
    (hzero : i.opcode.operandWidth = .none → i.operand = 0) :
    i.opcode.encode i.operands = .ok bytes ↔ i.Fits ∧ bytes = i.bytes := by
  cases hw : i.opcode.operandWidth with
  | none =>
    have hz := hzero hw
    simp [Opcode.encode, Instr.operands, Instr.Fits, Instr.bytes, Instr.operandBytes, hw, hz,
      eq_comm]
  | byte =>
    by_cases hlt : i.operand < 256 <;>
      simp [Opcode.encode, Instr.operands, Instr.Fits, Instr.bytes, Instr.operandBytes, hw, hlt,
        eq_comm]
  | word =>
    by_cases hlt : i.operand < 65536 <;>
      simp [Opcode.encode, Instr.operands, Instr.Fits, Instr.bytes, Instr.operandBytes, hw, hlt,
        eq_comm]

/-- The two bytes of a number below 65536 make up the number. -/
theorem wordBytes_value {n : Nat} (h : n < 65536) :
    (UInt8.ofNat (n / 256)).toNat * 256 + (UInt8.ofNat n).toNat = n := by
  simp only [UInt8.toNat_ofNat']
  omega

/-- Any two bytes are those of the number that they make up. -/
theorem wordBytes_toNat (high low : UInt8) : high.toNat * 256 + low.toNat < 65536 ∧
    wordBytes (high.toNat * 256 + low.toNat) = [high, low] := by
  have hhigh : high.toNat < 256 := high.toNat_lt
  have hlow : low.toNat < 256 := low.toNat_lt
  have hquotient : (high.toNat * 256 + low.toNat) / 256 = high.toNat := by omega
  have hrest : UInt8.ofNat (high.toNat * 256 + low.toNat) = low := by
    apply UInt8.toNat_inj.mp
    rw [UInt8.toNat_ofNat']
    omega
  refine ⟨by omega, ?_⟩
  rw [wordBytes, hquotient, hrest, UInt8.ofNat_toNat]

/-- An instruction that stands in some code is what is read there, whatever comes before and after it. -/
theorem fetch_append {code : Code} {before after : List UInt8} {i : Instr} (hfits : i.Fits)
    (hcode : code.bytes.toList = before ++ (i.bytes ++ after)) :
    code.fetch before.length = .ok ⟨i.opcode, i.operand, before.length + i.size⟩ := by
  have hget : ∀ k : Nat, code.bytes[before.length + k]? = (i.bytes ++ after)[k]? := by
    intro k
    rw [← Array.getElem?_toList, hcode, List.getElem?_append_right (by omega)]
    simp
  have hop : code.bytes[before.length]? = some i.opcode.byte := by
    simpa [Instr.bytes] using hget 0
  unfold Code.fetch
  rw [hop]
  -- The three widths differ in how many bytes behind the opcode are read.
  cases hw : i.opcode.operandWidth with
  | none =>
    have hz : i.operand = 0 := by simpa [Instr.Fits, hw] using hfits
    simp [hw, hz, Instr.size, OperandWidth.size]
  | byte =>
    have hlt : i.operand < 256 := by simpa [Instr.Fits, hw] using hfits
    have hbyte : code.bytes[before.length + 1]? = some (UInt8.ofNat i.operand) := by
      simpa [Instr.bytes, Instr.operandBytes, hw] using hget 1
    have hvalue : i.operand % 256 = i.operand := Nat.mod_eq_of_lt hlt
    simp [hw, Code.byte?, hbyte, hvalue, Instr.size, OperandWidth.size]
  | word =>
    have hlt : i.operand < 65536 := by simpa [Instr.Fits, hw] using hfits
    have hhigh : code.bytes[before.length + 1]? = some (UInt8.ofNat (i.operand / 256)) := by
      simpa [Instr.bytes, Instr.operandBytes, hw, wordBytes] using hget 1
    have hlow : code.bytes[before.length + 1 + 1]? = some (UInt8.ofNat i.operand) := by
      simpa [Instr.bytes, Instr.operandBytes, hw, wordBytes] using hget 2
    have hword : code.word? (before.length + 1) = some i.operand := by
      unfold Code.word?
      rw [hhigh, hlow]
      simp only [wordBytes_value hlt]
    simp [hw, hword, Instr.size, OperandWidth.size]

/-! ### Instructions standing in code -/

/-- Do these instructions stand one after the other in the code, from a place on? This is said in terms of what
the machine fetches, so nothing later has to look at bytes. -/
def Code.Holds (code : Code) : Nat → List Instr → Prop
  | _, [] => True
  | position, i :: is =>
    code.fetch position = .ok ⟨i.opcode, i.operand, position + i.size⟩ ∧
      code.Holds (position + i.size) is

theorem Code.holds_cons {code : Code} {position : Nat} {i : Instr} {is : List Instr} :
    code.Holds position (i :: is) ↔
      code.fetch position = .ok ⟨i.opcode, i.operand, position + i.size⟩ ∧
        code.Holds (position + i.size) is := Iff.rfl

theorem Code.holds_append {code : Code} {position : Nat} {is js : List Instr} :
    code.Holds position (is ++ js) ↔
      code.Holds position is ∧ code.Holds (position + codeSize is) js := by
  induction is generalizing position with
  | nil => simp [Code.Holds]
  | cons i is ih => simp [Code.holds_cons, ih, and_assoc, Nat.add_assoc]

/-- Code that contains assembled instructions holds them, if they fit. -/
theorem Code.holds_of_bytes {code : Code} {before after : List UInt8} {is : List Instr}
    (hfits : ∀ i ∈ is, i.Fits) (hcode : code.bytes.toList = before ++ (assemble is ++ after)) :
    code.Holds before.length is := by
  induction is generalizing before with
  | nil => trivial
  | cons i is ih =>
    obtain ⟨hi, his⟩ := List.forall_mem_cons.mp hfits
    have hhead : code.bytes.toList = before ++ (i.bytes ++ (assemble is ++ after)) := by
      simp [hcode]
    have htail : code.bytes.toList = (before ++ i.bytes) ++ (assemble is ++ after) := by
      simp [hcode]
    exact ⟨fetch_append hi hhead, by simpa using ih his htail⟩

/-- Does code split into these instructions, with nothing left over? Each has all of its operand, so an
instruction that is cut off at the end is excluded. -/
def Code.Splits (code : Code) (is : List Instr) : Prop :=
  code.bytes.toList = assemble is ∧ ∀ i ∈ is, i.Fits

/-- Code holds the instructions that it splits into. -/
theorem Code.Splits.holds {code : Code} {is : List Instr} (h : code.Splits is) :
    code.Holds 0 is := by
  have hcode : code.bytes.toList = [] ++ (assemble is ++ []) := by simpa using h.1
  exact Code.holds_of_bytes h.2 hcode

theorem Code.Splits.size_eq {code : Code} {is : List Instr} (h : code.Splits is) :
    code.size = codeSize is := by
  rw [Code.size, ← Array.length_toList, h.1, length_assemble]

/-- Code that was assembled splits into its instructions. -/
theorem Code.splits_assemble {is : List Instr} (hfits : ∀ i ∈ is, i.Fits) :
    (⟨(assemble is).toArray⟩ : Code).Splits is :=
  ⟨List.toList_toArray, hfits⟩

/-- Fitting instructions can be read off their bytes: the first byte tells the opcode and hence how many bytes
belong to it. -/
theorem assemble_injective {is js : List Instr} (his : ∀ i ∈ is, i.Fits) (hjs : ∀ j ∈ js, j.Fits)
    (h : assemble is = assemble js) : is = js := by
  induction is generalizing js with
  | nil =>
    cases js with
    | nil => rfl
    | cons j js => simp [Instr.bytes] at h
  | cons i is ih =>
    cases js with
    | nil => simp [Instr.bytes] at h
    | cons j js =>
      obtain ⟨hi, his⟩ := List.forall_mem_cons.mp his
      obtain ⟨hj, hrest⟩ := List.forall_mem_cons.mp hjs
      let code : Code := ⟨(assemble (i :: is)).toArray⟩
      have hfetch : code.fetch 0 = .ok ⟨i.opcode, i.operand, 0 + i.size⟩ :=
        (Code.splits_assemble (List.forall_mem_cons.mpr ⟨hi, his⟩)).holds.1
      have hsplits : code.Splits (j :: js) :=
        ⟨List.toList_toArray.trans h, hjs⟩
      have hsame := hfetch.symm.trans hsplits.holds.1
      obtain rfl : i = j := by
        obtain ⟨op, operand⟩ := i
        cases hsame
        rfl
      rw [ih his hrest (List.append_cancel_left h)]

/-- Code splits in one way only. -/
theorem Code.Splits.unique {code : Code} {is js : List Instr} (h₁ : code.Splits is)
    (h₂ : code.Splits js) : is = js :=
  assemble_injective h₁.2 h₂.2 (h₁.1.symm.trans h₂.1)

/-- Code is what it splits into. -/
theorem Code.Splits.eq {code code' : Code} {is : List Instr} (h : code.Splits is)
    (h' : code'.Splits is) : code = code' := by
  obtain ⟨bytes⟩ := code
  obtain ⟨bytes'⟩ := code'
  obtain rfl : bytes = bytes' := Array.toList_inj.mp (h.1.trans h'.1.symm)
  rfl

end Notebook
