import Notebook.Proofs.Compiler.TermLayout

/-!
Code at another place, with its constants at other places of the pool and its globals in other slots.

`Term.relocate d g` moves the literals of a term by `d` places among the constants and its globals by
`g` slots, and leaves out what the literals stand for. Terms that are equal once they were relocated
are laid out as the same instructions, but for the operands that name constants, globals or places in
the code (`Instr.relocate`): `layoutBody_relocated`, `layoutProgram_relocated`.
-/

namespace Notebook

/-! ### Instructions -/

/-- An instruction once the constants have moved by `d`, the globals by `g` and the code by `k`. Locals and
builtins are numbered from 0 in every function and every session, and stay. -/
def Instr.relocate (d g k : Nat) (i : Instr) : Instr where
  opcode := i.opcode
  operand :=
    match i.opcode with
    | .constant => i.operand + d
    | .getGlobal | .setGlobal => i.operand + g
    | .jump | .jumpNotTruthy => i.operand + k
    | _ => i.operand

@[simp] theorem Instr.opcode_relocate (d g k : Nat) (i : Instr) :
    (i.relocate d g k).opcode = i.opcode := rfl

@[simp] theorem Instr.size_relocate (d g k : Nat) (i : Instr) : (i.relocate d g k).size = i.size := rfl

@[simp] theorem codeSize_relocate (d g k : Nat) (is : List Instr) :
    codeSize (is.map (Instr.relocate d g k)) = codeSize is := by
  induction is with
  | nil => rfl
  | cons i is ih => simp [ih]

theorem Instr.relocate_zero (i : Instr) : i.relocate 0 0 0 = i := by
  obtain ⟨op, operand⟩ := i
  cases op <;> rfl

theorem Instr.relocate_injective (d g k : Nat) : Function.Injective (Instr.relocate d g k) := by
  intro i j h
  obtain ⟨op, operand⟩ := i
  obtain ⟨op', operand'⟩ := j
  obtain rfl : op = op' := congrArg Instr.opcode h
  have hoperand := congrArg Instr.operand h
  obtain rfl : operand = operand' := by
    cases op <;> simp only [Instr.relocate] at hoperand <;> omega
  rfl

/-- An instruction that fits after it was relocated did so before. -/
theorem Instr.Fits.of_relocate {d g k : Nat} {i : Instr} (h : (i.relocate d g k).Fits) : i.Fits := by
  obtain ⟨op, operand⟩ := i
  cases op <;> simp only [Instr.Fits, Instr.relocate, Opcode.operandWidth] at h ⊢ <;> omega

/-- An instruction still fits where globals have moved, unless it names one that has moved too far. -/
theorem Instr.Fits.relocate {g : Nat} {i : Instr} (h : i.Fits)
    (hglobal : i.opcode = .getGlobal ∨ i.opcode = .setGlobal → i.operand + g < 65536) :
    (i.relocate 0 g 0).Fits := by
  obtain ⟨op, operand⟩ := i
  cases op
  case getGlobal => exact hglobal (.inl rfl)
  case setGlobal => exact hglobal (.inr rfl)
  all_goals exact h

theorem fits_of_relocate {d g k : Nat} {is : List Instr}
    (h : ∀ i ∈ is.map (Instr.relocate d g k), i.Fits) : ∀ i ∈ is, i.Fits :=
  fun _ hi => .of_relocate (h _ (List.mem_map_of_mem hi))

/-! ### Terms and commands -/

mutual

/-- A term whose literals stand `d` places further on among the constants, and whose globals are `g` slots
further on. What the literals stand for is left out: layout does not look at it, and it is where two
compilations differ. -/
def Term.relocate (d g : Nat) : Term → Term
  | .constant index _ => .constant (index + d) .null
  | .bool value => .bool value
  | .null => .null
  | .global index => .global (index + g)
  | .own index => .own index
  | .builtin index => .builtin index
  | .array elements => .array (relocateTerms d g elements)
  | .unary op operand => .unary op (operand.relocate d g)
  | .binary op left right => .binary op (left.relocate d g) (right.relocate d g)
  | .cond condition consequence none =>
    .cond (condition.relocate d g) (relocateCommands d g consequence) none
  | .cond condition consequence (some alternative) =>
    .cond (condition.relocate d g) (relocateCommands d g consequence)
      (some (relocateCommands d g alternative))
  | .call callee args => .call (callee.relocate d g) (relocateTerms d g args)
  | .index collection position => .index (collection.relocate d g) (position.relocate d g)

def relocateTerms (d g : Nat) : List Term → List Term
  | [] => []
  | t :: rest => t.relocate d g :: relocateTerms d g rest

def Command.relocate (d g : Nat) : Command → Command
  | .setGlobal index value => .setGlobal (index + g) (value.relocate d g)
  | .setOwn index value => .setOwn index (value.relocate d g)
  | .ret value => .ret (value.relocate d g)
  | .throw value => .throw (value.relocate d g)
  | .expr value => .expr (value.relocate d g)
  | .empty => .empty

def relocateCommands (d g : Nat) : List Command → List Command
  | [] => []
  | c :: rest => c.relocate d g :: relocateCommands d g rest

end

section

variable (d g k : Nat)

@[simp] theorem length_relocateTerms (ts : List Term) :
    (relocateTerms d g ts).length = ts.length := by
  induction ts with
  | nil => rfl
  | cons t rest ih => simp [relocateTerms, ih]

@[simp] theorem Command.closing_relocate (c : Command) : (c.relocate d g).closing = c.closing := by
  cases c <;> simp [Command.relocate, Command.closing]

@[simp] theorem closingOf_relocate (cs : List Command) :
    closingOf (relocateCommands d g cs) = closingOf cs := by
  induction cs with
  | nil => simp [relocateCommands]
  | cons c rest ih => simp [relocateCommands, closingOf, ih]

mutual

/-- A relocated term is laid out as the relocated instructions. Instructions do not change their size, so jumps
move by as much as the code does. -/
theorem layout_relocate : ∀ (t : Term) (start : Nat),
    (t.relocate d g).layout (start + k) = (t.layout start).map (Instr.relocate d g k)
  | .constant _ _, _ => rfl
  | .bool true, _ => rfl
  | .bool false, _ => rfl
  | .null, _ => rfl
  | .global _, _ => rfl
  | .own _, _ => rfl
  | .builtin _, _ => rfl
  | .array elements, start => by
    have helements := layoutTerms_relocate elements start
    simp only [Term.relocate, Term.layout, helements, length_relocateTerms, List.map_append]
    rfl
  | .unary op operand, start => by
    have hoperand := layout_relocate operand start
    simp only [Term.relocate, Term.layout, hoperand, List.map_append]
    cases op <;> rfl
  | .binary op left right, start => by
    -- A comparison with `<` is laid out with its operands exchanged.
    unfold Term.relocate Term.layout
    split
    · have hsecond := layout_relocate right start
      have hfirst := layout_relocate left (start + codeSize (right.layout start))
      simp only [hsecond, codeSize_relocate, Nat.add_right_comm start k, hfirst, List.map_append]
      rfl
    · have hfirst := layout_relocate left start
      have hsecond := layout_relocate right (start + codeSize (left.layout start))
      simp only [hfirst, codeSize_relocate, Nat.add_right_comm start k, hsecond, List.map_append]
      cases op <;> rfl
  -- The targets of the jumps are counted from `start`, so they move with the code.
  | .cond condition consequence none, start => by
    have htest := layout_relocate condition start
    have hyes := layoutBlock_relocate consequence (start + codeSize (condition.layout start) + 3)
    simp only [Term.relocate, Term.layout, htest, codeSize_relocate, Nat.add_right_comm _ k, hyes,
      List.map_append, List.map_cons]
    rfl
  | .cond condition consequence (some body), start => by
    have htest := layout_relocate condition start
    have hyes := layoutBlock_relocate consequence (start + codeSize (condition.layout start) + 3)
    have hno := layoutBlock_relocate body (start + codeSize (condition.layout start) + 3 +
      codeSize (layoutBlock consequence (start + codeSize (condition.layout start) + 3)) + 3)
    simp only [Term.relocate, Term.layout, htest, codeSize_relocate, Nat.add_right_comm _ k, hyes,
      hno, List.map_append, List.map_cons]
    rfl
  | .call callee args, start => by
    have hcallee := layout_relocate callee start
    have hargs := layoutTerms_relocate args (start + codeSize (callee.layout start))
    simp only [Term.relocate, Term.layout, hcallee, codeSize_relocate, Nat.add_right_comm start k,
      hargs, length_relocateTerms, List.map_append]
    rfl
  | .index collection position, start => by
    have hcollection := layout_relocate collection start
    have hposition := layout_relocate position (start + codeSize (collection.layout start))
    simp only [Term.relocate, Term.layout, hcollection, codeSize_relocate,
      Nat.add_right_comm start k, hposition, List.map_append]
    rfl

theorem layoutTerms_relocate : ∀ (ts : List Term) (start : Nat),
    layoutTerms (relocateTerms d g ts) (start + k) =
      (layoutTerms ts start).map (Instr.relocate d g k)
  | [], _ => rfl
  | t :: rest, start => by
    have hfirst := layout_relocate t start
    have hrest := layoutTerms_relocate rest (start + codeSize (t.layout start))
    simp only [relocateTerms, layoutTerms, hfirst, codeSize_relocate, Nat.add_right_comm start k,
      hrest, List.map_append]

theorem Command.layout_relocate : ∀ (c : Command) (start : Nat),
    (c.relocate d g).layout (start + k) = (c.layout start).map (Instr.relocate d g k)
  | .setGlobal index value, start => by
    have hvalue := Notebook.layout_relocate value start
    simp only [Command.relocate, Command.layout, hvalue, List.map_append]
    rfl
  | .setOwn index value, start => by
    have hvalue := Notebook.layout_relocate value start
    simp only [Command.relocate, Command.layout, hvalue, List.map_append]
    rfl
  | .ret value, start => by
    have hvalue := Notebook.layout_relocate value start
    simp only [Command.relocate, Command.layout, hvalue, List.map_append]
    rfl
  | .throw value, start => by
    have hvalue := Notebook.layout_relocate value start
    simp only [Command.relocate, Command.layout, hvalue, List.map_append]
    rfl
  | .expr value, start => by
    have hvalue := Notebook.layout_relocate value start
    simp only [Command.relocate, Command.layout, hvalue, List.map_append]
    rfl
  | .empty, _ => rfl

theorem layoutBlock_relocate : ∀ (cs : List Command) (start : Nat),
    layoutBlock (relocateCommands d g cs) (start + k) =
      (layoutBlock cs start).map (Instr.relocate d g k)
  | [], _ => rfl
  | c :: rest, start => by
    have hfirst := Command.layout_relocate c start
    have hrest := layoutBlock_relocate rest (start + codeSize (c.layout start))
    by_cases hlast : c.closing = some .pop ∧ closingOf rest = none
    · cases c with
      | expr value =>
        have hvalue := layout_relocate value start
        have hclosing : closingOf (relocateCommands d g rest) = none := by simpa using hlast.2
        simp only [relocateCommands, Command.relocate]
        rw [layoutBlock_of_expr hlast.2, layoutBlock_of_expr hclosing, hvalue]
      | _ => cases hlast.1
    · rw [relocateCommands, layoutBlock_cons fun hc hrest => hlast ⟨hc, hrest⟩,
        layoutBlock_cons (by simpa using hlast)]
      simp only [hfirst, codeSize_relocate, Nat.add_right_comm start k, hrest, List.map_append]

end

theorem layoutBody_relocate (cs : List Command) (start : Nat) :
    layoutBody (relocateCommands d g cs) (start + k) =
      (layoutBody cs start).map (Instr.relocate d g k) := by
  induction cs generalizing start with
  | nil => rfl
  | cons c rest ih =>
    have hfirst := Command.layout_relocate d g k c start
    by_cases hlast : c.returns ∧ closingOf rest = none
    · have hlast' : (c.relocate d g).returns ∧ closingOf (relocateCommands d g rest) = none := by
        simpa [Command.returns] using hlast
      obtain ⟨value, hc, hlayout⟩ := layoutBody_of_returns hlast.1 hlast.2 start
      obtain ⟨value', hc', hlayout'⟩ := layoutBody_of_returns hlast'.1 hlast'.2 (start + k)
      have hvalue := layout_relocate d g k value start
      have hsame : value' = value.relocate d g := by
        rcases hc with rfl | rfl <;> rcases hc' with h | h <;> cases h <;> rfl
      simp only [relocateCommands, hlayout, hlayout', hsame, hvalue, List.map_append]
      rfl
    · have hmiddle : (c.relocate d g).returns → closingOf (relocateCommands d g rest) ≠ none := by
        simpa [Command.returns] using hlast
      rw [relocateCommands, layoutBody_cons fun hc hrest => hlast ⟨hc, hrest⟩,
        layoutBody_cons hmiddle]
      simp only [hfirst, codeSize_relocate, Nat.add_right_comm start k, ih, List.map_append]

theorem layoutProgram_relocate (cs : List Command) (start : Nat) :
    layoutProgram (relocateCommands d g cs) (start + k) =
      (layoutProgram cs start).map (Instr.relocate d g k) := by
  induction cs generalizing start with
  | nil => rfl
  | cons c rest ih =>
    have hfirst := Command.layout_relocate d g k c start
    by_cases hlast : ∃ value, c = .expr value ∧ rest = []
    · obtain ⟨value, rfl, rfl⟩ := hlast
      have hvalue := layout_relocate d g k value start
      simp only [relocateCommands, Command.relocate, layoutProgram, hvalue, List.map_append]
      rfl
    · have hmiddle : ¬ ∃ value, c.relocate d g = .expr value ∧ relocateCommands d g rest = [] := by
        rintro ⟨value, hc, hrest⟩
        refine hlast ?_
        cases c <;> cases hc
        cases rest <;> cases hrest
        exact ⟨_, rfl, rfl⟩
      rw [relocateCommands, layoutProgram_cons hlast, layoutProgram_cons hmiddle]
      simp only [hfirst, codeSize_relocate, Nat.add_right_comm start k, ih, List.map_append]

end

/-! ### Commands that are the same once they were relocated -/

section

variable {d g : Nat} {cs cs' : List Command}

theorem map_relocate_zero (is : List Instr) : is.map (Instr.relocate 0 0 0) = is := by
  have hid : Instr.relocate 0 0 0 = id := funext Instr.relocate_zero
  rw [hid, List.map_id]

theorem layoutBody_relocated (h : relocateCommands d g cs = relocateCommands 0 0 cs') (start k : Nat) :
    layoutBody cs' (start + k) = (layoutBody cs start).map (Instr.relocate d g k) := by
  rw [← layoutBody_relocate, h, ← map_relocate_zero (layoutBody cs' _)]
  exact (layoutBody_relocate 0 0 0 cs' (start + k)).symm

theorem layoutProgram_relocated (h : relocateCommands d g cs = relocateCommands 0 0 cs')
    (start k : Nat) :
    layoutProgram cs' (start + k) = (layoutProgram cs start).map (Instr.relocate d g k) := by
  rw [← layoutProgram_relocate, h, ← map_relocate_zero (layoutProgram cs' _)]
  exact (layoutProgram_relocate 0 0 0 cs' (start + k)).symm

end

end Notebook
