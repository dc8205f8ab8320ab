import Notebook.Proofs.Compiler.WellFormedCode
import Notebook.Proofs.Syntax.ProgramText

/-!
Code as instructions, in all the ways in which it is put together or taken apart.

Any bytes begin with whole instructions, and then there is nothing more or no instruction begins
(`Code.LaidOut`). What is fetched and what is listed follows from that.

* `Code.LaidOut.listing_eq`, `Code.LaidOut.disassemble_eq`: the listing of any code, by fetching one
  instruction after the other and by reading its bytes.
* `Code.broken_iff`: a listing breaks off exactly if fetching comes to a fault.
* `listingLines_injective`: instructions can be read off their lines.
* `Code.listing_agrees`: assembling, fetching and listing agree on how instructions are encoded.
-/

namespace Notebook

/-! ### Reading bytes one after the other -/

def Listing.after (text : String) : Listing → Listing
  | .complete more => .complete (text ++ more)
  | .broken more => .broken (text ++ more)

/-- The listing of some bytes that start at a place, by reading the bytes themselves. It is the reference for
`Code.listing`, which fetches one instruction after the other. -/
def disassemble (position : Nat) : List UInt8 → Listing
  | [] => .complete ""
  | byte :: rest =>
    match Opcode.ofByte? byte with
    | none => .broken ""
    | some op =>
      let start := listingLineStart position op
      match op.operandWidth, rest with
      | .none, rest => (disassemble (position + 1) rest).after (start ++ "\n")
      | .byte, operand :: rest =>
        (disassemble (position + 2) rest).after (start ++ " " ++ toString operand.toNat ++ "\n")
      | .word, high :: low :: rest =>
        (disassemble (position + 3) rest).after
          (start ++ " " ++ toString (high.toNat * 256 + low.toNat) ++ "\n")
      | _, _ => .broken start

/-- Bytes that begin with no whole instruction, and why none is read at the place where they start. -/
inductive Faulty (position : Nat) : List UInt8 → FetchError → Prop where
  | unknown {byte : UInt8} {rest : List UInt8} (h : Opcode.ofByte? byte = none) :
      Faulty position (byte :: rest) (.unknownOpcode byte)
  | truncated {op : Opcode} {operand : List UInt8} (h : operand.length < op.operandWidth.size) :
      Faulty position (op.byte :: operand) (.truncated op (position + 1))

/-! ### One instruction -/

theorem Opcode.byte_of_ofByte? {byte : UInt8} {op : Opcode} (h : ofByte? byte = some op) :
    byte = op.byte := by
  unfold ofByte? at h
  split at h <;> cases h <;> rfl

/-- A byte is the operand of the instruction that it stands for. -/
theorem fits_byte {op : Opcode} (hw : op.operandWidth = .byte) (operand : UInt8) :
    Instr.Fits ⟨op, operand.toNat⟩ ∧ Instr.bytes ⟨op, operand.toNat⟩ = [op.byte, operand] := by
  constructor
  · simpa [Instr.Fits, hw] using operand.toNat_lt
  · simp [Instr.bytes, Instr.operandBytes, hw]

/-- So are two bytes, the high one first. -/
theorem fits_word {op : Opcode} (hw : op.operandWidth = .word) (high low : UInt8) :
    Instr.Fits ⟨op, high.toNat * 256 + low.toNat⟩ ∧
      Instr.bytes ⟨op, high.toNat * 256 + low.toNat⟩ = [op.byte, high, low] := by
  obtain ⟨hlt, hbytes⟩ := wordBytes_toNat high low
  constructor
  · simpa [Instr.Fits, hw] using hlt
  · simp [Instr.bytes, Instr.operandBytes, hw, hbytes]

/-- Bytes begin with a whole instruction, or with none. -/
theorem faulty_or_instr (position : Nat) (byte : UInt8) (rest : List UInt8) :
    (∃ cause, Faulty position (byte :: rest) cause) ∨
      ∃ i : Instr, i.Fits ∧ ∃ more, byte :: rest = i.bytes ++ more := by
  cases hop : Opcode.ofByte? byte with
  | none => exact .inl ⟨_, .unknown hop⟩
  | some op =>
    obtain rfl := Opcode.byte_of_ofByte? hop
    cases hw : op.operandWidth with
    | none =>
      refine .inr ⟨⟨op, 0⟩, ?_, rest, ?_⟩
      · simp [Instr.Fits, hw]
      · simp [Instr.bytes, Instr.operandBytes, hw]
    | byte =>
      cases rest with
      | nil => exact .inl ⟨_, .truncated (by simp [hw, OperandWidth.size])⟩
      | cons operand rest =>
        obtain ⟨hfits, hbytes⟩ := fits_byte hw operand
        exact .inr ⟨_, hfits, rest, by rw [hbytes]; rfl⟩
    | word =>
      rcases rest with _ | ⟨high, _ | ⟨low, rest⟩⟩
      · exact .inl ⟨_, .truncated (by simp [hw, OperandWidth.size])⟩
      · exact .inl ⟨_, .truncated (by simp [hw, OperandWidth.size])⟩
      · obtain ⟨hfits, hbytes⟩ := fits_word hw high low
        exact .inr ⟨_, hfits, rest, by rw [hbytes]; rfl⟩

/-- No instruction is fetched from bytes that begin with none. An opcode that is unknown and an operand that is
cut off are the two ways in which they may not, and each has its own error. -/
theorem fetch_faulty {code : Code} {before tail : List UInt8} {position : Nat} {cause : FetchError}
    (h : Faulty position tail cause) (hcode : code.bytes.toList = before ++ tail)
    (hposition : before.length = position) : code.fetch position = .error cause := by
  subst hposition
  have hget : ∀ k : Nat, code.bytes[before.length + k]? = tail[k]? := by
    intro k
    rw [← Array.getElem?_toList, hcode, List.getElem?_append_right (by omega)]
    simp
  have hfirst := hget 0
  rw [Nat.add_zero] at hfirst
  unfold Code.fetch
  rw [hfirst]
  cases h with
  | unknown hnone => simp [hnone]
  | @truncated op operand hshort =>
    cases hw : op.operandWidth with
    | none =>
      rw [hw] at hshort
      exact absurd hshort (Nat.not_lt_zero _)
    | byte =>
      -- The operand is the byte behind the opcode, and there is none.
      have hnone : code.bytes[before.length + 1]? = none := by
        rw [hget, List.getElem?_eq_none]
        rw [hw] at hshort
        exact hshort
      simp [hw, Code.byte?, hnone]
    | word =>
      -- Of the two bytes the second is missing in any case.
      have hnone : code.bytes[before.length + 1 + 1]? = none := by
        rw [Nat.add_assoc, hget, List.getElem?_eq_none]
        rw [hw] at hshort
        exact hshort
      simp [hw, Code.word?, hnone]

/-- An instruction is listed, and then what follows it. -/
theorem disassemble_instr {i : Instr} (hfits : i.Fits) (position : Nat) (rest : List UInt8) :
    disassemble position (i.bytes ++ rest) = (disassemble (position + i.size) rest).after
      (listingLine position ⟨i.opcode, i.operand, position + i.size⟩) := by
  rw [Instr.bytes, List.cons_append, disassemble, Opcode.ofByte?_byte]
  cases hw : i.opcode.operandWidth with
  | none => simp [Instr.operandBytes, Instr.size, OperandWidth.size, listingLine, hw]
  | byte =>
    have hlt : i.operand < 256 := by simpa [Instr.Fits, hw] using hfits
    simp [Instr.operandBytes, Instr.size, OperandWidth.size, listingLine, hw, Nat.mod_eq_of_lt hlt]
  | word =>
    have hlt : i.operand < 65536 := by simpa [Instr.Fits, hw] using hfits
    have hvalue : i.operand / 256 % 256 * 256 + i.operand % 256 = i.operand := by omega
    simp [Instr.operandBytes, Instr.size, OperandWidth.size, listingLine, hw, wordBytes, hvalue]

/-- What a listing still shows where it breaks off: the name of an instruction that is cut off. -/
def FetchError.shown (position : Nat) : FetchError → String
  | .truncated op _ => listingLineStart position op
  | .outOfRange _ | .unknownOpcode _ => ""

/-- A listing breaks off where no instruction begins. -/
theorem disassemble_faulty {position : Nat} {tail : List UInt8} {cause : FetchError}
    (h : Faulty position tail cause) :
    disassemble position tail = .broken (cause.shown position) := by
  cases h with
  | unknown hnone => simp [disassemble, FetchError.shown, hnone]
  | @truncated op operand hshort =>
    cases hw : op.operandWidth with
    | none =>
      rw [hw] at hshort
      exact absurd hshort (Nat.not_lt_zero _)
    | byte =>
      rw [hw] at hshort
      obtain rfl := List.eq_nil_of_length_eq_zero (Nat.lt_one_iff.mp hshort)
      simp [disassemble, FetchError.shown, hw]
    | word =>
      rw [hw] at hshort
      rcases operand with _ | ⟨high, _ | ⟨low, more⟩⟩
      · simp [disassemble, FetchError.shown, hw]
      · simp [disassemble, FetchError.shown, hw]
      · have htwo : more.length + 1 + 1 < 2 := hshort
        omega

theorem listingFrom_faulty {code : Code} {before tail : List UInt8} {position : Nat}
    {cause : FetchError} (h : Faulty position tail cause) (hcode : code.bytes.toList = before ++ tail)
    (hposition : before.length = position) (steps : Nat) (written : List String) :
    code.listingFrom (steps + 1) position written =
      (disassemble position tail).after (String.join written.reverse) := by
  rw [Code.listingFrom, fetch_faulty h hcode hposition, disassemble_faulty h]
  cases h with
  | unknown => simp [Listing.after, FetchError.shown]
  | truncated => simp [Listing.after, FetchError.shown, String.join_append]

/-! ### Any bytes -/

/-- What code is: whole instructions, and then bytes with which no instruction begins, if there are any. All
code is of this form (`exists_laidOut`), so facts about listings need no assumption on where the code comes
from. -/
structure Code.LaidOut (code : Code) (is : List Instr) (tail : List UInt8) : Prop where
  bytes : code.bytes.toList = assemble is ++ tail
  fits : ∀ i ∈ is, i.Fits
  ends : tail = [] ∨ ∃ cause, Faulty (codeSize is) tail cause

/-- Bytes are cut into instructions for as long as one begins. -/
theorem exists_layout (bytes : List UInt8) (position : Nat) : ∃ is tail, bytes = assemble is ++ tail ∧
    (∀ i ∈ is, i.Fits) ∧ (tail = [] ∨ ∃ cause, Faulty (position + codeSize is) tail cause) := by
  induction hn : bytes.length using Nat.strongRecOn generalizing bytes position with
  | ind n ih =>
    cases bytes with
    | nil => exact ⟨[], [], rfl, nofun, .inl rfl⟩
    | cons byte rest =>
      rcases faulty_or_instr position byte rest with hfaulty | ⟨i, hi, more, hbytes⟩
      · exact ⟨[], byte :: rest, rfl, nofun, .inr hfaulty⟩
      · have hlt : more.length < n := by
          have hpos := i.size_pos
          rw [← hn, hbytes, List.length_append, Instr.length_bytes]
          omega
        obtain ⟨is, tail, rfl, his, hends⟩ := ih _ hlt more (position + i.size) rfl
        refine ⟨i :: is, tail, ?_, List.forall_mem_cons.mpr ⟨hi, his⟩, ?_⟩
        · rw [hbytes, assemble_cons, List.append_assoc]
        · rwa [codeSize_cons, ← Nat.add_assoc]

theorem exists_laidOut (code : Code) : ∃ is tail, code.LaidOut is tail := by
  obtain ⟨is, tail, hbytes, hfits, hends⟩ := exists_layout code.bytes.toList 0
  rw [Nat.zero_add] at hends
  exact ⟨is, tail, hbytes, hfits, hends⟩

/-- Instructions are listed one after the other, and then what follows them. -/
theorem disassemble_append {is : List Instr} (hfits : ∀ i ∈ is, i.Fits) (position : Nat)
    (tail : List UInt8) : disassemble position (assemble is ++ tail) =
      (disassemble (position + codeSize is) tail).after (String.join (listingLines position is)) := by
  induction is generalizing position with
  | nil => cases h : disassemble position tail <;> simp [listingLines, Listing.after, h]
  | cons i is ih =>
    obtain ⟨hi, his⟩ := List.forall_mem_cons.mp hfits
    rw [assemble_cons, List.append_assoc, disassemble_instr hi, ih his, codeSize_cons,
      ← Nat.add_assoc, listingLines, String.join_cons]
    cases disassemble (position + i.size + codeSize is) tail <;>
      simp [Listing.after, String.append_assoc]

namespace Code

variable {code : Code} {is : List Instr} {tail : List UInt8}

theorem LaidOut.holds (h : code.LaidOut is tail) : code.Holds 0 is := by
  have hcode : code.bytes.toList = [] ++ (assemble is ++ tail) := h.bytes
  exact Code.holds_of_bytes h.fits hcode

theorem LaidOut.splits (h : code.LaidOut is []) : code.Splits is :=
  ⟨h.bytes.trans (List.append_nil _), h.fits⟩

theorem LaidOut.disassemble_eq (h : code.LaidOut is tail) : disassemble 0 code.bytes.toList =
    (disassemble (codeSize is) tail).after (String.join (listingLines 0 is)) := by
  rw [h.bytes, disassemble_append h.fits, Nat.zero_add]

theorem LaidOut.listing_eq (h : code.LaidOut is tail) : code.listing =
    (disassemble (codeSize is) tail).after (String.join (listingLines 0 is)) := by
  have hsize : code.size = codeSize is + tail.length := by
    rw [Code.size, ← Array.length_toList, h.bytes, List.length_append, length_assemble]
  have hle := length_le_codeSize is
  have hsteps : is.length ≤ code.size := by omega
  rw [listing, Code.listingFrom_append [] h.holds hsteps, Nat.zero_add, List.append_nil]
  rcases h.ends with rfl | ⟨cause, hfaulty⟩
  · rw [List.length_nil, Nat.add_zero] at hsize
    rw [← hsize, listingFrom_size, List.reverse_reverse]
    simp [disassemble, Listing.after]
  · have hpos : 0 < tail.length := by
      cases hfaulty <;> exact Nat.succ_pos _
    obtain ⟨steps, hsteps⟩ : ∃ steps, code.size - is.length = steps + 1 :=
      ⟨code.size - is.length - 1, by omega⟩
    rw [hsteps, listingFrom_faulty hfaulty h.bytes (length_assemble is), List.reverse_reverse]

/-! ### Fetching -/

/-- The places that fetching comes to from the start on, one instruction after the other. -/
inductive Visits (code : Code) : Nat → Prop where
  | start : code.Visits 0
  | next {position : Nat} {instruction : Fetched} (before : code.Visits position)
      (h : code.fetch position = .ok instruction) : code.Visits instruction.next

theorem Holds.visits {position : Nat} (h : code.Holds position is) (hvisits : code.Visits position) :
    code.Visits (position + codeSize is) := by
  induction is generalizing position with
  | nil => exact hvisits
  | cons i is ih =>
    rw [codeSize_cons, ← Nat.add_assoc]
    exact ih h.2 (hvisits.next h.1)

/-- At the place of an instruction it is fetched. -/
theorem LaidOut.fetch_eq {before after : List Instr} {i : Instr}
    (h : code.LaidOut (before ++ i :: after) tail) :
    code.fetch (codeSize before) = .ok ⟨i.opcode, i.operand, codeSize before + i.size⟩ := by
  have hholds := (Code.holds_append.mp h.holds).2.1
  rwa [Nat.zero_add] at hholds

/-- After the last instruction nothing is fetched any more. -/
theorem LaidOut.fetch_end (h : code.LaidOut is tail) : tail = [] ∧
    code.fetch (codeSize is) = .error (.outOfRange (codeSize is)) ∨
      ∃ cause, Faulty (codeSize is) tail cause ∧ code.fetch (codeSize is) = .error cause := by
  rcases h.ends with rfl | ⟨cause, hfaulty⟩
  · rw [← h.splits.size_eq]
    exact .inl ⟨rfl, code.fetch_size⟩
  · exact .inr ⟨cause, hfaulty, fetch_faulty hfaulty h.bytes (length_assemble is)⟩

/-- Fetching comes to the places of instructions and to the end of the last one, and to no others. -/
theorem LaidOut.exists_of_visits (h : code.LaidOut is tail) {position : Nat}
    (hvisits : code.Visits position) :
    ∃ before after, is = before ++ after ∧ position = codeSize before := by
  induction hvisits with
  | start => exact ⟨[], is, rfl, rfl⟩
  | @next position instruction _ hfetch ih =>
    obtain ⟨before, after, rfl, rfl⟩ := ih
    cases after with
    | nil =>
      rw [List.append_nil] at h
      rcases h.fetch_end with ⟨-, hend⟩ | ⟨cause, -, hend⟩
      · rw [hend] at hfetch
        cases hfetch
      · rw [hend] at hfetch
        cases hfetch
    | cons i after =>
      rw [h.fetch_eq] at hfetch
      cases hfetch
      exact ⟨before ++ [i], after, by simp, by simp⟩

/-- A listing breaks off exactly if fetching comes to a place where an opcode is unknown or an operand is
cut off. -/
theorem broken_iff (code : Code) : (∃ text, code.listing = .broken text) ↔
    ∃ position, code.Visits position ∧
      ((∃ byte, code.fetch position = .error (.unknownOpcode byte)) ∨
        ∃ op place, code.fetch position = .error (.truncated op place)) := by
  obtain ⟨is, tail, hlaid⟩ := exists_laidOut code
  have hend := hlaid.fetch_end
  constructor
  · rintro ⟨text, htext⟩
    rw [hlaid.listing_eq] at htext
    have hvisits := hlaid.holds.visits .start
    rw [Nat.zero_add] at hvisits
    refine ⟨_, hvisits, ?_⟩
    -- If the listing broke off then the code does not end with its last instruction, and fetching gets as far
    -- as there.
    rcases hend with ⟨rfl, -⟩ | ⟨cause, hfaulty, herror⟩
    · cases htext
    · cases hfaulty with
      | unknown => exact .inl ⟨_, herror⟩
      | truncated => exact .inr ⟨_, _, herror⟩
  · rintro ⟨position, hvisits, hfails⟩
    -- Fetching only comes to places of instructions, where it does not fail, and to the end of the last one.
    obtain ⟨before, after, rfl, rfl⟩ := hlaid.exists_of_visits hvisits
    cases after with
    | nil =>
      rw [List.append_nil] at hlaid hend
      rcases hend with ⟨-, hrange⟩ | ⟨cause, hfaulty, -⟩
      · rw [hrange] at hfails
        rcases hfails with ⟨_, h⟩ | ⟨_, _, h⟩ <;> cases h
      · rw [hlaid.listing_eq, disassemble_faulty hfaulty]
        exact ⟨_, rfl⟩
    | cons i after =>
      rw [hlaid.fetch_eq] at hfails
      rcases hfails with ⟨_, h⟩ | ⟨_, _, h⟩ <;> cases h

/-- Code has a whole listing exactly if it splits into instructions, and then these are what it shows. A listing
that breaks off thus means bytes that no compiler wrote. -/
theorem listing_eq_complete_iff {text : String} : code.listing = .complete text ↔
    ∃ is, code.Splits is ∧ text = String.join (listingLines 0 is) := by
  constructor
  · intro htext
    obtain ⟨is, tail, hlaid⟩ := exists_laidOut code
    rw [hlaid.listing_eq] at htext
    rcases hlaid.ends with rfl | ⟨cause, hfaulty⟩
    · refine ⟨is, hlaid.splits, ?_⟩
      rw [disassemble, Listing.after, String.append_empty] at htext
      exact (Listing.complete.inj htext).symm
    · rw [disassemble_faulty hfaulty] at htext
      cases htext
  · rintro ⟨is, hsplits, rfl⟩
    exact hsplits.listing_eq

end Code

/-! ### Reading lines -/

/-- All opcodes, in the order of their bytes. -/
def Opcode.all : List Opcode :=
  (List.range 27).filterMap fun n => ofByte? (UInt8.ofNat n)

def Opcode.ofName? (name : List Char) : Option Opcode := all.find? (·.name.toList == name)

theorem Opcode.mem_all (op : Opcode) : op ∈ all := by
  cases op <;> decide +kernel

theorem Opcode.ofName?_name (op : Opcode) : ofName? op.name.toList = some op := by
  have hall : all.all (fun op => decide (ofName? op.name.toList = some op)) = true := by
    decide +kernel
  exact of_decide_eq_true (List.all_eq_true.mp hall op op.mem_all)

theorem Opcode.isAlpha_of_mem_name (op : Opcode) : ∀ c ∈ op.name.toList, c.isAlpha = true := by
  have hall : all.all (fun op => op.name.toList.all Char.isAlpha) = true := by decide +kernel
  exact List.all_eq_true.mp (List.all_eq_true.mp hall op op.mem_all)

theorem Opcode.name_injective {op op' : Opcode} (h : op.name.toList = op'.name.toList) : op = op' := by
  have hsame := ofName?_name op
  rw [h, ofName?_name] at hsame
  exact (Option.some.inj hsame).symm

def operandText (operands : List Nat) : String :=
  String.join (operands.map fun n => " " ++ toString n)

theorem listingLine_eq (i : Instr) (position next : Nat) :
    listingLine position ⟨i.opcode, i.operand, next⟩ =
      fourDigits position ++ " " ++ i.opcode.name ++ operandText i.operands ++ "\n" := by
  cases hw : i.opcode.operandWidth <;>
    simp [listingLine, listingLineStart, operandText, Instr.operands, hw, String.append_assoc]

/-- What follows a name is not gone on with by letters. -/
theorem head_operandText (operands : List Nat) (x : List Char) :
    ∀ c ∈ ((operandText operands).toList ++ '\n' :: x).head?, c.isAlpha = false := by
  intro c hc
  cases operands with
  | nil =>
    cases hc
    rfl
  | cons n operands =>
    rw [operandText, List.map_cons, String.join_cons, String.toList_append, String.toList_append] at hc
    cases hc
    rfl

/-- The digits of a number end where the line does. -/
theorem repr_cancel {m n : Nat} {x y : List Char}
    (h : m.repr.toList ++ '\n' :: x = n.repr.toList ++ '\n' :: y) : m = n ∧ x = y := by
  have hrun : ∀ (k : Nat) (z : List Char),
      (k.repr.toList ++ '\n' :: z).takeWhile Char.isDigit = k.repr.toList ∧
        (k.repr.toList ++ '\n' :: z).dropWhile Char.isDigit = '\n' :: z := by
    intro k z
    refine Token.takeWhile_run (fun c hc => ?_) fun c hc => ?_
    · rw [Nat.toList_repr] at hc
      exact Nat.isDigit_of_mem_toDigits (by decide) (by decide) hc
    · cases hc
      rfl
  obtain ⟨hdigits, hends⟩ := hrun m x
  rw [h] at hdigits hends
  have hrepr := hdigits.symm.trans (hrun n y).1
  have hline := hends.symm.trans (hrun n y).2
  exact ⟨eq_of_repr_eq (String.toList_inj.mp hrepr), (List.cons.inj hline).2⟩

/-- The line of an instruction tells the instruction, and where the line ends. The name ends where its letters
do, the operand where its digits do. -/
theorem listingLine_cancel {i j : Instr} (hi : i.Fits) (hj : j.Fits) {position next next' : Nat}
    {x y : List Char}
    (h : (listingLine position ⟨i.opcode, i.operand, next⟩).toList ++ x =
      (listingLine position ⟨j.opcode, j.operand, next'⟩).toList ++ y) : i = j ∧ x = y := by
  have hchars : i.opcode.name.toList ++ ((operandText i.operands).toList ++ '\n' :: x) =
      j.opcode.name.toList ++ ((operandText j.operands).toList ++ '\n' :: y) := by
    simpa [listingLine_eq] using h
  have hword := Token.takeWhile_run i.opcode.isAlpha_of_mem_name (head_operandText i.operands x)
  have hword' := Token.takeWhile_run j.opcode.isAlpha_of_mem_name (head_operandText j.operands y)
  rw [hchars] at hword
  have hname := hword.1.symm.trans hword'.1
  have hoperands := hword.2.symm.trans hword'.2
  obtain ⟨op, m⟩ := i
  obtain ⟨op', n⟩ := j
  obtain rfl : op = op' := Opcode.name_injective hname
  cases hw : op.operandWidth with
  | none =>
    obtain rfl : m = 0 := by simpa [Instr.Fits, hw] using hi
    obtain rfl : n = 0 := by simpa [Instr.Fits, hw] using hj
    exact ⟨rfl, List.cons.inj (List.append_cancel_left hoperands) |>.2⟩
  | byte | word =>
    have hdigits : m.repr.toList ++ '\n' :: x = n.repr.toList ++ '\n' :: y := by
      simpa [operandText, Instr.operands, hw] using hoperands
    obtain ⟨rfl, rfl⟩ := repr_cancel hdigits
    exact ⟨rfl, rfl⟩

/-- Instructions can be read off their lines. Each line has the place of its instruction, its name and its
operand, so two listings with the same lines are of the same instructions. -/
theorem listingLines_injective {is js : List Instr} {position : Nat} (his : ∀ i ∈ is, i.Fits)
    (hjs : ∀ j ∈ js, j.Fits) (h : String.join (listingLines position is) =
      String.join (listingLines position js)) : is = js := by
  have hchars := congrArg String.toList h
  clear h
  induction is generalizing js position with
  | nil =>
    cases js with
    | nil => rfl
    | cons j js => simp [listingLines, listingLine_eq] at hchars
  | cons i is ih =>
    cases js with
    | nil => simp [listingLines, listingLine_eq] at hchars
    | cons j js =>
      obtain ⟨hi, his'⟩ := List.forall_mem_cons.mp his
      obtain ⟨hj, hjs'⟩ := List.forall_mem_cons.mp hjs
      rw [listingLines, listingLines, String.join_cons, String.join_cons, String.toList_append,
        String.toList_append] at hchars
      obtain ⟨rfl, hrest⟩ := listingLine_cancel hi hj hchars
      rw [ih his' hjs' hrest]

/-! ### Assembling, fetching and listing -/

theorem Instr.headD_operands {i : Instr} (hfits : i.Fits) : i.operands.headD 0 = i.operand := by
  cases hw : i.opcode.operandWidth with
  | none =>
    have hzero : i.operand = 0 := by simpa [Instr.Fits, hw] using hfits
    simp [Instr.operands, hw, hzero]
  | byte | word => simp [Instr.operands, hw]

theorem Instr.length_operands_le (i : Instr) : i.operands.length ≤ 1 := by
  cases hw : i.opcode.operandWidth <;> simp [Instr.operands, hw]

/-- An opcode and operands that can be written are those of an instruction. -/
theorem Instr.of_encode {op : Opcode} {operands : List Nat} {bytes : List UInt8}
    (h : op.encode operands = .ok bytes) :
    ∃ i : Instr, i.Fits ∧ (op, operands) = (i.opcode, i.operands) ∧ bytes = i.bytes := by
  obtain ⟨i, hpair, hzero⟩ : ∃ i : Instr, (op, operands) = (i.opcode, i.operands) ∧
      (i.opcode.operandWidth = .none → i.operand = 0) := by
    unfold Opcode.encode at h
    split at h
    case h_1 hw => exact ⟨⟨op, 0⟩, by simp [Instr.operands, hw], fun _ => rfl⟩
    case h_2 n hw | h_3 n hw =>
      exact ⟨⟨op, n⟩, by simp [Instr.operands, hw], fun hnone => by simp [hw] at hnone⟩
    case h_4 => cases h
  obtain ⟨rfl, rfl⟩ := Prod.mk.inj hpair
  obtain ⟨hfits, hbytes⟩ := (encode_eq_ok_iff i bytes hzero).mp h
  exact ⟨i, hfits, rfl, hbytes⟩

theorem exists_of_encodes {pairs : List (Opcode × List Nat)} {chunks : List (List UInt8)}
    (h : pairs.mapM (fun pair => pair.1.encode pair.2) = .ok chunks) :
    ∃ is : List Instr, (∀ i ∈ is, i.Fits) ∧ pairs = is.map (fun i => (i.opcode, i.operands)) ∧
      chunks = is.map Instr.bytes := by
  induction pairs generalizing chunks with
  | nil =>
    cases h
    exact ⟨[], nofun, rfl, rfl⟩
  | cons pair pairs ih =>
    rw [List.mapM_cons] at h
    obtain ⟨bytes, hbytes, h⟩ := bind_eq_ok_iff.mp h
    obtain ⟨more, hmore, h⟩ := bind_eq_ok_iff.mp h
    cases h
    obtain ⟨i, hi, hpair, rfl⟩ := Instr.of_encode hbytes
    obtain ⟨is, his, rfl, rfl⟩ := ih hmore
    exact ⟨i :: is, List.forall_mem_cons.mpr ⟨hi, his⟩, by rw [List.map_cons, ← hpair], rfl⟩

@[simp] theorem length_listingLines (start : Nat) (is : List Instr) :
    (listingLines start is).length = is.length := by
  induction is generalizing start with
  | nil => rfl
  | cons i is ih => rw [listingLines, List.length_cons, ih, List.length_cons]

/-- What is fetched where one of some instructions starts is that instruction. -/
theorem Code.Holds.fetch_of_getElem? {code : Code} {start k : Nat} {is : List Instr} {i : Instr}
    (hcode : code.Holds start is) (h : is[k]? = some i) : code.fetch (start + codeSize (is.take k)) =
      .ok ⟨i.opcode, i.operand, start + codeSize (is.take k) + i.size⟩ := by
  induction is generalizing start k with
  | nil => cases h
  | cons j is ih =>
    cases k with
    | zero =>
      cases h
      exact hcode.1
    | succ k =>
      rw [List.take_succ_cons, codeSize_cons, ← Nat.add_assoc]
      exact ih hcode.2 h

/-- What is listed there is its line. -/
theorem listingLines_getElem? {start k : Nat} {is : List Instr} {i : Instr} (h : is[k]? = some i) :
    (listingLines start is)[k]? = some (listingLine (start + codeSize (is.take k))
      ⟨i.opcode, i.operand, start + codeSize (is.take k) + i.size⟩) := by
  induction is generalizing start k with
  | nil => cases h
  | cons j is ih =>
    cases k with
    | zero =>
      cases h
      rfl
    | succ k =>
      rw [List.take_succ_cons, codeSize_cons, ← Nat.add_assoc]
      exact ih h

/-- What is assembled is fetched at the boundaries and listed line by line. Bytes are listed as they are
read off one after the other, and the listing breaks off exactly if fetching comes to a place where an
opcode is unknown or an operand is cut off. Code with the same whole listing is the same. -/
theorem Code.listing_agrees :
    (∀ (pairs : List (Opcode × List Nat)) (chunks : List (List UInt8)),
      pairs.mapM (fun pair => pair.1.encode pair.2) = .ok chunks →
      let code : Code := ⟨chunks.flatten.toArray⟩
      ∃ lines, code.listing = .complete (String.join lines) ∧ lines.length = pairs.length ∧
        ∀ k op operands bytes, pairs[k]? = some (op, operands) → chunks[k]? = some bytes →
          let position := (chunks.take k).flatten.length
          operands.length ≤ 1 ∧
            code.fetch position = .ok ⟨op, operands.headD 0, position + bytes.length⟩ ∧
            lines[k]? =
              some (fourDigits position ++ " " ++ op.name ++ operandText operands ++ "\n")) ∧
    (∀ code : Code, code.listing = disassemble 0 code.bytes.toList ∧
      ((∃ text, code.listing = .broken text) ↔ ∃ position, code.Visits position ∧
        ((∃ byte, code.fetch position = .error (.unknownOpcode byte)) ∨
          ∃ op place, code.fetch position = .error (.truncated op place)))) ∧
    ∀ (code code' : Code) (text : String), code.listing = .complete text →
      code'.listing = .complete text → code = code' := by
  refine ⟨fun pairs chunks h => ?_, fun code => ⟨?_, code.broken_iff⟩, fun code code' text h h' => ?_⟩
  · -- What could be encoded is made of instructions that fit, and code splits into these.
    obtain ⟨is, hfits, rfl, rfl⟩ := exists_of_encodes h
    have hsplits : Code.Splits ⟨(is.map Instr.bytes).flatten.toArray⟩ is :=
      ⟨by rw [List.toList_toArray, assemble, List.flatMap_def], hfits⟩
    refine ⟨listingLines 0 is, hsplits.listing_eq, by simp, fun k op operands bytes hpair hbytes => ?_⟩
    rw [List.getElem?_map] at hpair hbytes
    obtain ⟨i, hi, hpair⟩ := Option.map_eq_some_iff.mp hpair
    obtain ⟨rfl, rfl⟩ := Prod.mk.inj hpair
    rw [hi] at hbytes
    cases hbytes
    -- The places of the chunks are those of the instructions.
    have hposition : ((is.map Instr.bytes).take k).flatten.length = codeSize (is.take k) := by
      rw [← List.map_take, ← List.flatMap_def, ← length_assemble, assemble]
    have hfetch := hsplits.holds.fetch_of_getElem? hi
    have hline : (listingLines 0 is)[k]? = _ := listingLines_getElem? hi
    rw [Nat.zero_add] at hfetch
    rw [Nat.zero_add, listingLine_eq] at hline
    rw [hposition, Instr.length_bytes, Instr.headD_operands (hfits i (List.mem_of_getElem? hi))]
    exact ⟨i.length_operands_le, hfetch, hline⟩
  · obtain ⟨is, tail, hlaid⟩ := exists_laidOut code
    rw [hlaid.listing_eq, hlaid.disassemble_eq]
  · -- A whole listing is that of instructions, which can be read off it, and the instructions fix the bytes.
    obtain ⟨is, hsplits, rfl⟩ := Code.listing_eq_complete_iff.mp h
    obtain ⟨js, hsplits', hsame⟩ := Code.listing_eq_complete_iff.mp h'
    obtain rfl := listingLines_injective hsplits.2 hsplits'.2 hsame
    exact hsplits.eq hsplits'

/-- Instructions with operands of every width, and code that ends within an operand. -/
theorem Code.listing_agrees_widths :
    let pairs : List (Opcode × List Nat) :=
      [(.add, []), (.getLocal, [1]), (.constant, [65534]), (.call, [2])]
    let chunks : List (List UInt8) := [[1], [23, 1], [0, 255, 254], [20, 2]]
    let code : Code := ⟨chunks.flatten.toArray⟩
    let cut : Code := ⟨#[1, 0, 255]⟩
    let text := "0000 Add\n0001 GetLocal 1\n0003 Constant 65534\n0006 Call 2\n"
    pairs.mapM (fun pair => pair.1.encode pair.2) = .ok chunks ∧ code.listing = .complete text ∧
      code.fetch 3 = .ok ⟨.constant, 65534, 6⟩ ∧
      (∀ code' : Code, code'.listing = .complete text → code' = code) ∧
      cut.listing = .broken "0000 Add\n0001 Constant" ∧
      ∃ position, cut.Visits position ∧
        ((∃ byte, cut.fetch position = .error (.unknownOpcode byte)) ∨
          ∃ op place, cut.fetch position = .error (.truncated op place)) := by
  intro pairs chunks code cut text
  have hencodes : pairs.mapM (fun pair => pair.1.encode pair.2) = .ok chunks := rfl
  have hlisting : code.listing = .complete text := by decide +kernel
  have hcut : cut.listing = .broken "0000 Add\n0001 Constant" := by decide +kernel
  obtain ⟨hassembled, hfails, hsame⟩ := Code.listing_agrees
  obtain ⟨lines, -, -, hlines⟩ := hassembled pairs chunks hencodes
  exact ⟨hencodes, hlisting, (hlines 2 .constant [65534] [0, 255, 254] rfl rfl).2.1,
    fun code' h => hsame code' code text h hlisting, hcut, (hfails cut).2.mp ⟨_, hcut⟩⟩

end Notebook
