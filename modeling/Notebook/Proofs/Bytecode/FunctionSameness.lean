import Notebook.Proofs.Bytecode.Relocation
import Notebook.Proofs.Semantics.RelatedValues

/-!
Functions that are the same although their code is not.

Which operand an instruction has that pushes a constant depends on what was compiled before.
`FunctionCode.Same` compares the code of two functions with such operands replaced by the constants
that they stand for, each in a pool of its own. A function among the constants is compared in the
same way.
-/

namespace Notebook

/-- An instruction, or the constant that an instruction stands for, if there is one. -/
inductive Item where
  | instr (i : Instr)
  | constant (v : Option Value)

/-- The item for an instruction, where the constants are in the pool from `offset` on. -/
def Instr.item (pool : Array Value) (offset : Nat) (i : Instr) : Item :=
  match i.opcode with
  | .constant => .constant pool[offset + i.operand]?
  | _ => .instr i

/-- The same instruction twice, or two constants that differ in functions only, with `R` between the functions.
A constant that is not in its pool is like no other. -/
inductive Item.Alike (R : FunctionCode → FunctionCode → Prop) : Item → Item → Prop where
  | instr (i : Instr) : Alike R (.instr i) (.instr i)
  | constant {v v' : Value} : v.Related R v' → Alike R (.constant (some v)) (.constant (some v'))

/-- Two functions with equally many parameters and locals, and with equal code once every operand that names a
constant is replaced by the constant, functions among the constants being the same in this sense. It is the
least such relation, so the comparison ends. -/
inductive FunctionCode.Same (pool pool' : Array Value) : FunctionCode → FunctionCode → Prop where
  | intro {f f' : FunctionCode} {is is' : List Instr} (params : f.params = f'.params)
      (locals : f.locals = f'.locals) (splits : f.code.Splits is) (splits' : f'.code.Splits is')
      (items : List.Forall₂ (Item.Alike (Same pool pool'))
        (is.map (Instr.item pool f.constantsOffset))
        (is'.map (Instr.item pool' f'.constantsOffset))) : Same pool pool' f f'

variable {R : FunctionCode → FunctionCode → Prop} {pool pool' : Array Value} {offset offset' : Nat}
variable {i i' : Instr}

/-! ### Items -/

theorem Instr.item_of_constant (h : i.opcode = .constant) :
    i.item pool offset = .constant pool[offset + i.operand]? := by
  obtain ⟨op, operand⟩ := i
  cases h
  rfl

theorem Instr.item_of_ne (h : i.opcode ≠ .constant) : i.item pool offset = .instr i := by
  obtain ⟨op, operand⟩ := i
  cases op <;> first | rfl | exact absurd rfl h

namespace Item

/-- Items are alike only for instructions that are alike. -/
theorem Alike.cases (h : Alike R (i.item pool offset) (i'.item pool' offset')) :
    i.opcode = .constant ∧ i'.opcode = .constant ∧
        (∃ v v', pool[offset + i.operand]? = some v ∧ pool'[offset' + i'.operand]? = some v' ∧
          v.Related R v') ∨
      i.opcode ≠ .constant ∧ i = i' := by
  by_cases hop : i.opcode = .constant
  · by_cases hop' : i'.opcode = .constant
    · rw [Instr.item_of_constant hop, Instr.item_of_constant hop'] at h
      generalize pool[offset + i.operand]? = o, pool'[offset' + i'.operand]? = o' at h
      cases h with
      | constant hv => exact .inl ⟨hop, hop', _, _, rfl, rfl, hv⟩
    · rw [Instr.item_of_constant hop, Instr.item_of_ne hop'] at h
      generalize pool[offset + i.operand]? = o at h
      cases h
  · by_cases hop' : i'.opcode = .constant
    · rw [Instr.item_of_ne hop, Instr.item_of_constant hop'] at h
      generalize pool'[offset' + i'.operand]? = o' at h
      cases h
    · rw [Instr.item_of_ne hop, Instr.item_of_ne hop'] at h
      cases h
      exact .inr ⟨hop, rfl⟩

theorem Alike.opcode_eq (h : Alike R (i.item pool offset) (i'.item pool' offset')) :
    i.opcode = i'.opcode := by
  rcases h.cases with ⟨hop, hop', -⟩ | ⟨-, rfl⟩
  · rw [hop, hop']
  · rfl

/-- An instruction and the relocated one are alike, if they stand for related constants. -/
theorem alike_relocate {d : Nat}
    (h : i.opcode = .constant → ∃ v v', pool[offset + i.operand]? = some v ∧
      pool'[offset' + (i.operand + d)]? = some v' ∧ v.Related R v') :
    Alike R (i.item pool offset) ((i.relocate d 0 0).item pool' offset') := by
  by_cases hop : i.opcode = .constant
  · obtain ⟨v, v', hv, hv', hrelated⟩ := h hop
    have hoperand : (i.relocate d 0 0).operand = i.operand + d := by simp only [Instr.relocate, hop]
    rw [Instr.item_of_constant hop, Instr.item_of_constant (i := i.relocate d 0 0) hop, hoperand, hv,
      hv']
    exact .constant hrelated
  · have hsame : i.relocate d 0 0 = i := by
      obtain ⟨op, operand⟩ := i
      cases op <;> first | rfl | exact absurd rfl hop
    rw [hsame, Instr.item_of_ne hop, Instr.item_of_ne hop]
    exact .instr i

end Item

/-! ### Functions -/

namespace FunctionCode

variable {f f' : FunctionCode}

/-- Functions whose code was laid out alike are the same, if the constants that they use are. -/
theorem Same.of_relocate {is : List Instr} {d : Nat} (hparams : f.params = f'.params)
    (hlocals : f.locals = f'.locals) (hsplits : f.code.Splits is)
    (hsplits' : f'.code.Splits (is.map (Instr.relocate d 0 0)))
    (hconstants : ∀ i ∈ is, i.opcode = .constant → ∃ v v',
      pool[f.constantsOffset + i.operand]? = some v ∧
      pool'[f'.constantsOffset + (i.operand + d)]? = some v' ∧ v.Related (Same pool pool') v') :
    Same pool pool' f f' := by
  refine .intro hparams hlocals hsplits hsplits' ?_
  rw [List.map_map, List.forall₂_map_left_iff, List.forall₂_map_right_iff, List.forall₂_same]
  exact fun i hi => Item.alike_relocate (hconstants i hi)

theorem Same.params_eq (h : Same pool pool' f f') : f.params = f'.params := by
  cases h with
  | intro hparams => exact hparams

theorem Same.locals_eq (h : Same pool pool' f f') : f.locals = f'.locals := by
  cases h with
  | intro _ hlocals => exact hlocals

/-- What code splits into, compared one by one. -/
theorem Same.instrs {is : List Instr} (h : Same pool pool' f f') (hsplits : f.code.Splits is) :
    ∃ is', f'.code.Splits is' ∧ List.Forall₂ (fun i i' => Item.Alike (Same pool pool')
      (i.item pool f.constantsOffset) (i'.item pool' f'.constantsOffset)) is is' := by
  cases h with
  | intro _ _ hsplits₁ hsplits' hitems =>
    obtain rfl := hsplits₁.unique hsplits
    rw [List.forall₂_map_left_iff, List.forall₂_map_right_iff] at hitems
    exact ⟨_, hsplits', hitems⟩

/-- The code of functions that are the same takes equally many bytes. -/
theorem Same.size_eq (h : Same pool pool' f f') : f.code.size = f'.code.size := by
  cases h with
  | intro _ _ hsplits hsplits' hitems =>
    rw [List.forall₂_map_left_iff, List.forall₂_map_right_iff] at hitems
    rw [hsplits.size_eq, hsplits'.size_eq]
    clear hsplits hsplits'
    induction hitems with
    | nil => rfl
    | cons hfirst _ ih =>
      rw [codeSize_cons, codeSize_cons, ih, Instr.size, Instr.size, hfirst.opcode_eq]

end FunctionCode

end Notebook
