import Notebook.Compiler
import Notebook.Proofs.Bytecode.Assembly
import Notebook.Proofs.Resolution.Terms

/-!
Terms and commands laid out as instructions.

`Term.layout` and its companions say what the code for a term is, without regard to the order in
which a compiler finds it out. Commands come in three kinds of company: as such (`layoutCommands`),
as a block that is used for its value (`layoutBlock`), and as the body of a function (`layoutBody`).
The last two differ from the first only in how they end, as `layoutBlock_eq` and `layoutBody_eq`
say.
-/

namespace Notebook

mutual

/-- The instructions for a term whose code starts at a place. They leave its value. The place matters to jumps
only, whose targets are absolute. -/
def Term.layout : Term → Nat → List Instr
  | .constant index _, _ => [⟨.constant, index⟩]
  | .bool true, _ => [⟨.pushTrue, 0⟩]
  | .bool false, _ => [⟨.pushFalse, 0⟩]
  | .null, _ => [⟨.pushNull, 0⟩]
  | .global index, _ => [⟨.getGlobal, index⟩]
  | .own index, _ => [⟨.getLocal, index⟩]
  | .builtin index, _ => [⟨.getBuiltin, index⟩]
  | .array elements, start => layoutTerms elements start ++ [⟨.array, elements.length⟩]
  | .unary op operand, start => operand.layout start ++ [⟨op.opcode, 0⟩]
  | .binary op left right, start =>
    if op = .less then
      let second := right.layout start
      second ++ (left.layout (start + codeSize second) ++ [⟨.greaterThan, 0⟩])
    else
      let first := left.layout start
      first ++ (right.layout (start + codeSize first) ++ [⟨op.opcode, 0⟩])
  | .cond condition consequence alternative, start =>
    let test := condition.layout start
    let yesStart := start + codeSize test + 3
    let yes := layoutBlock consequence yesStart
    let noStart := yesStart + codeSize yes + 3
    let no := match alternative with
      | none => [⟨.pushNull, 0⟩]
      | some body => layoutBlock body noStart
    test ++ (⟨.jumpNotTruthy, noStart⟩ :: (yes ++ (⟨.jump, noStart + codeSize no⟩ :: no)))
  | .call callee args, start =>
    let function := callee.layout start
    function ++ (layoutTerms args (start + codeSize function) ++ [⟨.call, args.length⟩])
  | .index collection position, start =>
    let first := collection.layout start
    first ++ (position.layout (start + codeSize first) ++ [⟨.index, 0⟩])

/-- The instructions for some terms, which leave their values in order. -/
def layoutTerms : List Term → Nat → List Instr
  | [], _ => []
  | t :: rest, start =>
    let first := t.layout start
    first ++ layoutTerms rest (start + codeSize first)

/-- The instructions for a command, which leave nothing. -/
def Command.layout : Command → Nat → List Instr
  | .setGlobal index value, start => value.layout start ++ [⟨.setGlobal, index⟩]
  | .setOwn index value, start => value.layout start ++ [⟨.setLocal, index⟩]
  | .ret value, start => value.layout start ++ [⟨.returnValue, 0⟩]
  | .throw value, start => value.layout start ++ [⟨.throwValue, 0⟩]
  | .expr value, start => value.layout start ++ [⟨.pop, 0⟩]
  | .empty, _ => []

/-- The instructions for a block, which leave its value: that of the last command that is not empty if it is an
expression, and null otherwise. Its definition looks ahead, where a compiler takes its last instruction back. -/
def layoutBlock : List Command → Nat → List Instr
  | [], _ => [⟨.pushNull, 0⟩]
  | c :: rest, start =>
    match c, rest.all Command.isEmpty with
    | .expr value, true => value.layout start
    | c, _ =>
      let first := c.layout start
      first ++ layoutBlock rest (start + codeSize first)

end

/-- The instructions for some commands, which leave nothing. -/
def layoutCommands : List Command → Nat → List Instr
  | [], _ => []
  | c :: rest, start =>
    let first := c.layout start
    first ++ layoutCommands rest (start + codeSize first)

/-- The instructions for a function's body, which return its value as `layoutBlock` has it. -/
def layoutBody : List Command → Nat → List Instr
  | [], _ => [⟨.ret, 0⟩]
  | c :: rest, start =>
    match c, rest.all Command.isEmpty with
    | .expr value, true => value.layout start ++ [⟨.returnValue, 0⟩]
    | .ret value, true => value.layout start ++ [⟨.returnValue, 0⟩]
    | c, _ =>
      let first := c.layout start
      first ++ layoutBody rest (start + codeSize first)

/-- The instructions for the top level of a snippet. An expression at its very end is its value; unlike in a
block, one that only empty commands follow is not. -/
def layoutProgram : List Command → Nat → List Instr
  | [], _ => [⟨.ret, 0⟩]
  | c :: rest, start =>
    match c, rest with
    | .expr value, [] => value.layout start ++ [⟨.returnValue, 0⟩]
    | c, rest =>
      let first := c.layout start
      first ++ layoutProgram rest (start + codeSize first)

/-! ### Where code ends -/

/-- The instruction that a command ends with, if it has any. A compiler sees nothing else of the commands that
it has emitted. -/
def Command.closing : Command → Option Opcode
  | .setGlobal _ _ => some .setGlobal
  | .setOwn _ _ => some .setLocal
  | .ret _ => some .returnValue
  | .throw _ => some .throwValue
  | .expr _ => some .pop
  | .empty => none

/-- The instruction that some commands end with, if they have any. -/
def closingOf : List Command → Option Opcode
  | [] => none
  | c :: rest => (closingOf rest).or c.closing

theorem Command.closing_eq_none_iff (c : Command) : c.closing = none ↔ c.isEmpty = true := by
  cases c <;> simp [Command.closing, Command.isEmpty]

theorem closingOf_eq_none_iff (cs : List Command) :
    closingOf cs = none ↔ cs.all Command.isEmpty = true := by
  induction cs with
  | nil => simp [closingOf]
  | cons c rest ih => simp [closingOf, ih, Command.closing_eq_none_iff, and_comm]

theorem layoutCommands_of_closingOf_eq_none {cs : List Command} (h : closingOf cs = none)
    (start : Nat) : layoutCommands cs start = [] := by
  induction cs generalizing start with
  | nil => rfl
  | cons c rest ih =>
    rw [closingOf, Option.or_eq_none_iff] at h
    obtain rfl : c = .empty := by cases c <;> simp [Command.closing] at h ⊢
    simp [layoutCommands, Command.layout, ih h.1]

/-- A command that is not the expression at the end of its block is laid out as it stands. -/
theorem layoutBlock_cons {c : Command} {rest : List Command}
    (h : c.closing = some .pop → closingOf rest ≠ none) (start : Nat) :
    layoutBlock (c :: rest) start =
      c.layout start ++ layoutBlock rest (start + codeSize (c.layout start)) := by
  have hclosed : rest.all Command.isEmpty = true → c.closing ≠ some .pop :=
    fun hall hc => h hc ((closingOf_eq_none_iff rest).mpr hall)
  conv => lhs; unfold layoutBlock
  split
  · exact absurd rfl (hclosed ‹_›)
  · rfl

/-- The expression at the end of its block is laid out for its value. -/
theorem layoutBlock_of_expr {value : Term} {rest : List Command} (h : closingOf rest = none)
    (start : Nat) : layoutBlock (.expr value :: rest) start = value.layout start := by
  have hall := (closingOf_eq_none_iff rest).mp h
  conv => lhs; unfold layoutBlock
  split
  · rename_i hvalue _
    cases hvalue
    rfl
  · rename_i hnot
    exact absurd hall (hnot value rfl)

/-- A block is laid out as its commands are, but for its end: an expression's value stays. If there is none,
then a null takes its place. -/
theorem layoutBlock_eq (cs : List Command) (start : Nat) :
    match closingOf cs with
    | some .pop => layoutCommands cs start = layoutBlock cs start ++ [⟨.pop, 0⟩]
    | _ => layoutBlock cs start = layoutCommands cs start ++ [⟨.pushNull, 0⟩] := by
  induction cs generalizing start with
  | nil => simp [closingOf, layoutBlock, layoutCommands]
  | cons c rest ih =>
    have hrest := ih (start + codeSize (c.layout start))
    cases hclosing : closingOf rest with
    | some op =>
      rw [hclosing] at hrest
      rw [layoutBlock_cons (by simp [hclosing]), layoutCommands, closingOf, hclosing]
      split at hrest <;> simp_all
    | none =>
      rw [hclosing] at hrest
      cases c with
      | expr value =>
        simp [closingOf, hclosing, Command.closing, layoutBlock_of_expr hclosing, layoutCommands,
          layoutCommands_of_closingOf_eq_none hclosing, Command.layout]
      | _ =>
        rw [layoutBlock_cons (by rintro ⟨⟩), layoutCommands, closingOf, hclosing]
        simpa [Command.closing] using hrest

/-- Does a command at the end of a body make it return? -/
def Command.returns (c : Command) : Prop :=
  c.closing = some .pop ∨ c.closing = some .returnValue

/-- A command that a body does not end with is laid out as it stands. -/
theorem layoutBody_cons {c : Command} {rest : List Command}
    (h : c.returns → closingOf rest ≠ none) (start : Nat) :
    layoutBody (c :: rest) start =
      c.layout start ++ layoutBody rest (start + codeSize (c.layout start)) := by
  have hclosed : rest.all Command.isEmpty = true → ¬ c.returns :=
    fun hall hc => h hc ((closingOf_eq_none_iff rest).mpr hall)
  conv => lhs; unfold layoutBody
  split
  · exact absurd (.inl rfl) (hclosed ‹_›)
  · exact absurd (.inr rfl) (hclosed ‹_›)
  · rfl

/-- The command that a body ends with returns its value. -/
theorem layoutBody_of_returns {c : Command} {rest : List Command} (hc : c.returns)
    (h : closingOf rest = none) (start : Nat) :
    (∃ value : Term, (c = .expr value ∨ c = .ret value) ∧
      layoutBody (c :: rest) start = value.layout start ++ [⟨.returnValue, 0⟩]) := by
  have hall := (closingOf_eq_none_iff rest).mp h
  -- The definition matches on the command and on what follows it at once, so each case is unfolded by itself.
  cases c with
  | expr value =>
    refine ⟨value, .inl rfl, ?_⟩
    conv => lhs; unfold layoutBody
    split
    · rename_i hvalue _
      cases hvalue
      rfl
    · rename_i hvalue _
      cases hvalue
    · rename_i hnot _
      exact absurd hall (hnot value rfl)
  | ret value =>
    refine ⟨value, .inr rfl, ?_⟩
    conv => lhs; unfold layoutBody
    split
    · rename_i hvalue _
      cases hvalue
    · rename_i hvalue _
      cases hvalue
      rfl
    · rename_i hnot
      exact absurd hall (hnot value rfl)
  | _ => simp [Command.returns, Command.closing] at hc

/-- A body is laid out as its commands are, but for its end. -/
theorem layoutBody_eq (cs : List Command) (start : Nat) :
    match closingOf cs with
    | some .pop => ∃ is, layoutCommands cs start = is ++ [⟨.pop, 0⟩] ∧
        layoutBody cs start = is ++ [⟨.returnValue, 0⟩]
    | some .returnValue => layoutBody cs start = layoutCommands cs start
    | _ => layoutBody cs start = layoutCommands cs start ++ [⟨.ret, 0⟩] := by
  induction cs generalizing start with
  | nil => simp [closingOf, layoutBody, layoutCommands]
  | cons c rest ih =>
    have hrest := ih (start + codeSize (c.layout start))
    -- If a later command has code then it decides how the body ends. Otherwise the first one does.
    cases hclosing : closingOf rest with
    | some op =>
      rw [hclosing] at hrest
      rw [layoutBody_cons (by simp [hclosing]), layoutCommands, closingOf, hclosing]
      split at hrest
      · obtain ⟨is, hcommands, hbody⟩ := hrest
        rename_i hop
        cases hop
        exact ⟨c.layout start ++ is, by simp [hcommands], by simp [hbody]⟩
      · simp_all
      · simp_all
    | none =>
      rw [hclosing] at hrest
      have hnil := fun next => layoutCommands_of_closingOf_eq_none hclosing next
      by_cases hc : c.returns
      · obtain ⟨value, rfl | rfl, hbody⟩ := layoutBody_of_returns hc hclosing start <;>
          simp [closingOf, hclosing, Command.closing, hbody, layoutCommands, hnil, Command.layout]
      · rw [layoutBody_cons (fun h => absurd h hc), layoutCommands, closingOf, hclosing]
        cases c <;> simp_all [Command.closing, Command.returns]

/-- A command that a snippet does not end with for its value is laid out as it stands. -/
theorem layoutProgram_cons {c : Command} {rest : List Command}
    (h : ¬ ∃ value, c = .expr value ∧ rest = []) (start : Nat) :
    layoutProgram (c :: rest) start =
      c.layout start ++ layoutProgram rest (start + codeSize (c.layout start)) := by
  conv => lhs; unfold layoutProgram
  split
  · exact absurd ⟨_, rfl, rfl⟩ h
  · rfl

/-- Commands that a snippet does not end with are laid out one after the other. -/
theorem layoutProgram_append {cs₁ cs₂ : List Command} (h : cs₂ ≠ []) (start : Nat) :
    layoutProgram (cs₁ ++ cs₂) start =
      layoutCommands cs₁ start ++ layoutProgram cs₂ (start + codeSize (layoutCommands cs₁ start)) := by
  induction cs₁ generalizing start with
  | nil => rfl
  | cons c rest ih =>
    have hmore : ¬ ∃ value, c = .expr value ∧ rest ++ cs₂ = [] := by
      rintro ⟨value, -, hnil⟩
      exact h (List.append_eq_nil_iff.mp hnil).2
    rw [List.cons_append, layoutProgram_cons hmore, ih, layoutCommands, codeSize_append,
      List.append_assoc, Nat.add_assoc]

end Notebook
