import Notebook.Proofs.Compiler.StepRelation
import Notebook.Proofs.Semantics.RelatedValues
import Notebook.Proofs.Units.ByteForm

/-!
What compiling does not depend on.

Two compilers are run side by side. `Alike R` says that compilers of which `R` holds have the same code
under construction, read names alike, and are still related once the same literal was added to both;
`Whole R` says so for functions and for names that are defined, too.

* `Alike.related`: related compilers fail with the same error, or both go on and are related again. Programs
  that have no `let`s and no function literals (`Program.isBare`) need only `Alike R`.
* `compile_at_offset`: where the pool of constants ends matters to no snippet. It shows in the offset that
  the unit and its functions carry, and nowhere else.
-/

namespace Notebook

open UnitFormat (HasOffset atOffset)

namespace Compiler

/-! ### Related compilers -/

/-- A relation between compilers that emit the same code for names and literals. This is all that a program
without `let`s and function literals asks of a compiler. -/
structure Alike (R : Compiler → Compiler → Prop) : Prop where
  buffer : ∀ {c c'}, R c c' → c'.buffer = c.buffer
  withBuffer : ∀ {c c'}, R c c' → ∀ buffer, R { c with buffer } { c' with buffer }
  resolve : ∀ {c c'}, R c c' → ∀ name, c'.scope.resolve name = c.scope.resolve name
  size : ∀ {c c'}, R c c' → c'.constants.size = c.constants.size
  literal : ∀ {c c'}, R c c' → ∀ v : Value, v.functions = [] →
    R { c with constants := c.constants.push v } { c' with constants := c'.constants.push v }

/-- Such a relation that also holds between the insides of functions, and once both have added a function or
defined a name. The functions differ in the offset that they carry. -/
structure Whole (R : Compiler → Compiler → Prop) : Prop extends Alike R where
  scope : ∀ {c c'}, R c c' → c'.scope = c.scope
  withScope : ∀ {c c'}, R c c' → ∀ scope, R { c with scope } { c' with scope }
  declare : ∀ {c c'}, R c c' → ∀ d,
    R { c with declarations := c.declarations.push d }
      { c' with declarations := c'.declarations.push d }
  function : ∀ {c c'}, R c c' → ∀ code locals params,
    R { c with constants :=
          c.constants.push (.function ⟨code, c.constantsOffset, locals, params⟩) }
      { c' with constants :=
          c'.constants.push (.function ⟨code, c'.constantsOffset, locals, params⟩) }

variable {R : Compiler → Compiler → Prop} {c c' : Compiler}

section

variable (hR : Alike R)
include hR

theorem onBuffer_alike (hc : R c c') (change : Buffer → Except OperandError Buffer) :
    Outcomes R (c.onBuffer change) (c'.onBuffer change) := by
  obtain ⟨scope, offset, buffer, constants, declarations⟩ := c
  obtain ⟨scope', offset', buffer', constants', declarations'⟩ := c'
  obtain rfl : buffer' = buffer := hR.buffer hc
  simp only [onBuffer]
  cases change buffer' with
  | ok b => exact .ok (hR.withBuffer hc b)
  | error cause => exact .error _

theorem emit_alike (hc : R c c') (op : Opcode) (operands : List Nat) :
    Outcomes R (c.emit op operands) (c'.emit op operands) :=
  onBuffer_alike hR hc _

theorem patchJump_alike (hc : R c c') (position : Nat) :
    Outcomes R (c.patchJump position) (c'.patchJump position) :=
  onBuffer_alike hR hc _

theorem here_alike (hc : R c c') : c'.here = c.here :=
  congrArg (fun b => b.code.size) (hR.buffer hc)

theorem emitConstant_alike (hc : R c c') {v v' : Value}
    (hpush : R { c with constants := c.constants.push v } { c' with constants := c'.constants.push v' }) :
    Outcomes R (c.emitConstant v) (c'.emitConstant v') := by
  unfold emitConstant
  rw [hR.size hc]
  exact emit_alike hR hpush _ _

theorem emitReference_alike (hc : R c c') (name : String) :
    Outcomes R (c.emitReference name) (c'.emitReference name) := by
  unfold emitReference
  rw [hR.resolve hc]
  split
  · exact emit_alike hR hc _ _
  · exact emit_alike hR hc _ _
  · exact emit_alike hR hc _ _
  · exact .error _
  · exact .error _

theorem closeBlock_alike (hc : R c c') : Outcomes R c.closeBlock c'.closeBlock := by
  unfold closeBlock
  rw [hR.buffer hc]
  split
  · exact .ok (hR.withBuffer hc _)
  · exact emit_alike hR hc _ _

theorem closeBody_alike (hc : R c c') : Outcomes R c.closeBody c'.closeBody := by
  unfold closeBody
  rw [hR.buffer hc]
  split
  · exact emit_alike hR (hR.withBuffer hc _) _ _
  · split
    · exact .ok hc
    · exact emit_alike hR hc _ _

end

theorem emitAssignment_alike (hR : Whole R) (hc : R c c') (name : String) (index : Nat) :
    Outcomes R (c.emitAssignment name index) (c'.emitAssignment name index) := by
  unfold emitAssignment
  rw [hR.scope hc]
  split
  · exact (emit_alike hR.toAlike hc _ _).bind fun _ _ h => .ok (hR.declare h _)
  · exact emit_alike hR.toAlike hc _ _

/-- A function literal is the same at both places if its inside is. -/
theorem functionLiteral_alike (hR : Whole R) (hc : R c c') (params : List String)
    {inside inside' : Compiler → Except CompileError Compiler}
    (hinside : ∀ {c c'}, R c c' → Outcomes R (inside c) (inside' c')) :
    Outcomes R (functionLiteral params inside c) (functionLiteral params inside' c') := by
  have hentered : R { c with scope := c.scope.enter params, buffer := {} }
      { c' with scope := c'.scope.enter params, buffer := {} } := by
    rw [hR.scope hc]
    exact hR.withBuffer (hR.withScope hc _) _
  refine (hinside hentered).bind fun c₁ c₁' hc₁ => ?_
  refine (closeBody_alike hR.toAlike hc₁).bind fun c₂ c₂' hc₂ => ?_
  -- Outside of the function everything but its constants is as it was before.
  have houtside : R { c₂ with scope := c.scope, buffer := c.buffer }
      { c₂' with scope := c'.scope, buffer := c'.buffer } := by
    rw [hR.scope hc, hR.buffer hc]
    exact hR.withBuffer (hR.withScope hc₂ _) _
  show Outcomes R
    (emitConstant (.function ⟨c₂.buffer.code, c₂.constantsOffset, c₂.scope.slots, params.length⟩) _)
    (emitConstant (.function ⟨c₂'.buffer.code, c₂'.constantsOffset, c₂'.scope.slots, params.length⟩) _)
  rw [hR.buffer hc₂, hR.scope hc₂]
  exact emitConstant_alike hR.toAlike houtside (hR.function houtside _ _ _)

/-- Do two things that compilers do lead from related ones to related ones, or to the same error? -/
def Agree (R : Compiler → Compiler → Prop) (f g : Compiler → Except CompileError Compiler) : Prop :=
  ∀ ⦃c c'⦄, R c c' → Outcomes R (f c) (g c')

/-- Related compilers do the same with all programs, or at least with those that are bare. The walk over the
program is shared with all other pairs of compilers; only what its single steps do is looked at here. -/
theorem Alike.related {P : ProgramKind} (hR : Alike R) (hP : Whole R ∨ P = .bare) :
    Steps.Related steps steps P (Agree R) where
  skip _ _ hc := .ok hc
  andThen hfirst hsecond _ _ hc := (hfirst hc).bind fun _ _ hc => hsecond hc
  emit op operands _ _ hc := emit_alike hR hc op operands
  constant hv _ _ hc := emitConstant_alike hR hc (hR.literal hc _ hv)
  reference name _ _ hc := emitReference_alike hR hc name
  here hnext c c' hc := by
    simp only [steps, here_alike hR hc]
    exact hnext _ hc
  patchJump position _ _ hc := patchJump_alike hR hc position
  block _ hinside _ _ hc := (hinside hc).bind fun _ _ hc => closeBlock_alike hR hc
  define {_ name _ _ _} hlet hnext c c' hc := by
    obtain hwhole | rfl := hP
    · simp only [steps, hwhole.scope hc]
      exact hnext _ (hwhole.withScope hc _)
    · cases hlet
  assign index hlet _ _ hc := by
    obtain hwhole | rfl := hP
    · exact emitAssignment_alike hwhole hc _ index
    · cases hlet
  function hliteral hinside _ _ hc := by
    obtain hwhole | rfl := hP
    · exact functionLiteral_alike hwhole hc _ fun hc => hinside hc
    · cases hliteral

end Compiler

/-! ### Where the constants go -/

/-- The unit as it would be if the pool ended at `offset`: its own constants start there, and its functions
know. -/
def CompiledUnit.movedTo (offset : Nat) (u : CompiledUnit) : CompiledUnit :=
  rebased { u with constantsOffset := offset }

theorem CompiledUnit.movedTo_eq_self {offset : Nat} {u : CompiledUnit} (hoffset : u.constantsOffset = offset)
    (hfunctions : ∀ v ∈ u.constants, HasOffset offset v) : u.movedTo offset = u := by
  subst hoffset
  exact rebased_eq_self hfunctions

theorem UnitFormat.hasOffset_of_functions {v : Value} (h : v.functions = []) (offset : Nat) :
    HasOffset offset v := by
  cases v with
  | function f => cases h
  | _ => trivial

namespace Compiler

/-- Two compilers at the same place of a snippet, which started where the pool ended at `offset` and at
`offset'`. Their constants differ in the offsets of functions, and nothing else does. -/
structure Shifted (offset offset' : Nat) (c c' : Compiler) : Prop where
  start : c.constantsOffset = offset
  start' : c'.constantsOffset = offset'
  functions : ∀ v ∈ c.constants, HasOffset offset v
  constants : c'.constants = c.constants.map (atOffset offset')
  scope : c'.scope = c.scope
  buffer : c'.buffer = c.buffer
  declarations : c'.declarations = c.declarations

namespace Shifted

variable {offset offset' : Nat} {c c' : Compiler}

theorem push (h : Shifted offset offset' c c') {v : Value} (hv : HasOffset offset v) :
    Shifted offset offset' { c with constants := c.constants.push v }
      { c' with constants := c'.constants.push (atOffset offset' v) } :=
  { h with
    functions := by
      intro w hw
      rcases Array.mem_push.mp hw with hw | rfl
      · exact h.functions w hw
      · exact hv
    constants := by
      show c'.constants.push (atOffset offset' v) = (c.constants.push v).map (atOffset offset')
      rw [h.constants, Array.map_push] }

/-- No more than its offset tells a compiler where the pool ends. -/
theorem whole (offset offset' : Nat) : Whole (Shifted offset offset') where
  buffer h := h.buffer
  withBuffer h _ := { h with buffer := rfl }
  resolve h name := congrArg (Scope.resolve name) h.scope
  size h := by rw [h.constants, Array.size_map]
  literal h v hv := by
    have hpush := h.push (UnitFormat.hasOffset_of_functions hv offset)
    rwa [UnitFormat.atOffset_eq_self (UnitFormat.hasOffset_of_functions hv offset')] at hpush
  scope h := h.scope
  withScope h _ := { h with scope := rfl }
  declare h d := { h with declarations := congrArg (fun ds => ds.push d) h.declarations }
  function := by
    rintro ⟨scope, start, buffer, constants, declarations⟩
      ⟨scope', start', buffer', constants', declarations'⟩ h code locals params
    obtain rfl : start = offset := h.start
    obtain rfl : start' = offset' := h.start'
    exact h.push (v := .function ⟨code, start, locals, params⟩) rfl

/-- Between snippets, the offset is all there is to tell. -/
theorem idle (scope : Scope) (offset offset' : Nat) :
    Shifted offset offset' (idle scope offset) (idle scope offset') :=
  ⟨rfl, rfl, fun _ hv => absurd hv (Array.not_mem_empty _), Array.map_empty.symm, rfl, rfl, rfl⟩

theorem finished (h : Shifted offset offset' c c') (n : SnippetId) (type : Option ValueType) :
    (c.finished n type).movedTo offset = c.finished n type ∧
      (c.finished n type).movedTo offset' = c'.finished n type := by
  constructor
  · exact CompiledUnit.movedTo_eq_self h.start fun v hv => h.functions v (Array.mem_toList_iff.mp hv)
  · simp only [CompiledUnit.movedTo, CompiledUnit.rebased, Compiler.finished, h.start', h.constants,
      h.scope, h.buffer, h.declarations, Array.toList_map]

end Shifted

/-- Where the pool ends, a snippet compiles to the same but for the offset: it fails with the same error and
nothing of it is left in either compiler, or it compiles in both of them, to units that carry their own
offsets and are equal otherwise, with the same names defined and as many constants added. -/
theorem compile_at_offset (scope : Scope) (offset offset' : Nat) (n : SnippetId) (p : Program) :
    (∃ cause, compile n p (idle scope offset) = (.error cause, idle scope offset) ∧
      compile n p (idle scope offset') = (.error cause, idle scope offset')) ∨
    ∃ (u : CompiledUnit) (after : Scope),
      compile n p (idle scope offset) =
        (.ok (u.movedTo offset), idle after (offset + u.constants.length)) ∧
      compile n p (idle scope offset') =
        (.ok (u.movedTo offset'), idle after (offset' + u.constants.length)) := by
  have hwhole := Shifted.whole offset offset'
  have hall : ProgramKind.all.stmts [] p := trivial
  have hwalk := (hwhole.related (.inl hwhole)).topLevel p hall
  -- Two compilers between snippets are shifted against each other, and the walk over the snippet keeps them so
  -- or fails in both.
  rcases (hwalk (.idle scope offset offset')).cases with
    ⟨c, c', hfirst, hsecond, hc⟩ | ⟨cause, hfirst, hsecond⟩
  · obtain ⟨hown, hmoved⟩ := hc.finished n (Program.valueType p)
    have hcount : (c.finished n (Program.valueType p)).constants.length = c.constants.size :=
      Array.length_toList
    replace hfirst : topLevel p (Compiler.idle scope offset) = .ok c := hfirst
    replace hsecond : topLevel p (Compiler.idle scope offset') = .ok c' := hsecond
    -- The unit is that of the first compiler. Moved to the other offset it is that of the second.
    refine .inr ⟨c.finished n (Program.valueType p), c.scope, ?_, ?_⟩
    · simp only [compile, hfirst, hown, hcount, hc.start]
    · simp only [compile, hsecond, hmoved, hcount, hc.start', hc.scope, hc.constants, Array.size_map]
  · replace hfirst : topLevel p (Compiler.idle scope offset) = .error cause := hfirst
    replace hsecond : topLevel p (Compiler.idle scope offset') = .error cause := hsecond
    refine .inl ⟨cause, ?_, ?_⟩
    · simp only [compile, hfirst]
      rfl
    · simp only [compile, hsecond]
      rfl

end Compiler

end Notebook
