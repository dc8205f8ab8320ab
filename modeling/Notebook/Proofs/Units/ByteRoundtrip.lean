import Notebook.Proofs.Compiler.WellFormedCode
import Notebook.Proofs.Units.ByteForm
import Notebook.Proofs.Units.StorableUnits

/-!
Units that are stored and read again.

`CompiledUnit.serialize_roundtrip` says which units can be stored, in terms of what they hold, and that
such a unit is read again as it was, but for the pool offsets of its functions. The compiler gives
functions the offset of their unit, so its units are read again exactly as they were.
-/

namespace Notebook

open UnitFormat

/-! ### Limits -/

/-- Can a value be stored as a constant? Integers, texts and functions can, if their numbers and
lengths take four bytes. -/
def Value.IsStorable : Value → Prop
  | .int _ => True
  | .str text => text.utf8ByteSize < UInt32.size
  | .function f =>
    f.locals < UInt32.size ∧ f.params < UInt32.size ∧ f.code.size < UInt32.size
  | _ => False

/-- Are the constants of a unit integers, texts and functions, and do all of its numbers, counts and lengths
take four bytes? Nothing is asked of the code of functions but its length. -/
structure CompiledUnit.WithinLimits (u : CompiledUnit) : Prop where
  offset : u.constantsOffset < UInt32.size
  globals : u.globals < UInt32.size
  constantsCount : u.constants.length < UInt32.size
  constants : ∀ v ∈ u.constants, v.IsStorable
  declarationsCount : u.declarations.length < UInt32.size
  declarations : ∀ d ∈ u.declarations, d.name.utf8ByteSize < UInt32.size ∧ d.index < UInt32.size
  type : ∀ type ∈ u.declaredType, type.utf8ByteSize < UInt32.size
  code : u.code.size < UInt32.size

theorem encodes_string_iff {text : String} :
    Encodes encodeString text ↔ text.utf8ByteSize < UInt32.size :=
  encodes_bytes_iff

theorem encodes_constant_iff {v : Value} : Encodes encodeConstant v ↔ v.IsStorable := by
  cases v with
  | int n => exact ⟨fun _ => trivial, fun _ => ⟨_, rfl⟩⟩
  | str text =>
    refine Iff.trans ?_ encodes_string_iff
    constructor
    · intro h
      obtain ⟨bytes, hbytes, -⟩ := exists_ok_bind_iff.mp h
      exact ⟨bytes, hbytes⟩
    · rintro ⟨bytes, hbytes⟩
      exact exists_ok_bind_iff.mpr ⟨bytes, hbytes, _, rfl⟩
  | function f => exact encodes_function_iff
  | _ =>
    constructor
    · rintro ⟨bytes, ⟨⟩⟩
    · intro h
      exact h.elim

theorem encodes_type_iff {type : Option String} :
    Encodes encodeType type ↔ ∀ name ∈ type, name.utf8ByteSize < UInt32.size := by
  cases type with
  | none =>
    constructor
    · intro _ name hname
      cases hname
    · intro _
      exact ⟨_, rfl⟩
  | some name =>
    constructor
    · intro h name' hname
      obtain rfl := Option.mem_some.mp hname
      obtain ⟨bytes, hbytes, -⟩ := exists_ok_bind_iff.mp h
      exact encodes_string_iff.mp ⟨bytes, hbytes⟩
    · intro h
      obtain ⟨bytes, hbytes⟩ := encodes_string_iff.mpr (h name rfl)
      exact exists_ok_bind_iff.mpr ⟨bytes, hbytes, _, rfl⟩

theorem CompiledUnit.storable_iff {u : CompiledUnit} : u.Storable ↔ u.WithinLimits := by
  constructor
  · intro h
    exact
      { offset := h.offset
        globals := h.globals
        constantsCount := h.count
        constants := fun v hv => encodes_constant_iff.mp (h.constants v hv)
        declarationsCount := h.declared
        declarations := fun d hd =>
          (encodes_declaration_iff.mp (h.declarations d hd)).imp_left encodes_string_iff.mp
        type := encodes_type_iff.mp h.type
        code := h.code }
  · intro h
    exact
      { offset := h.offset
        globals := h.globals
        count := h.constantsCount
        constants := fun v hv => encodes_constant_iff.mpr (h.constants v hv)
        declared := h.declarationsCount
        declarations := fun d hd =>
          encodes_declaration_iff.mpr ((h.declarations d hd).imp_left encodes_string_iff.mpr)
        type := encodes_type_iff.mpr h.type
        code := h.code }

/-! ### Units of the compiler -/

/-- Whatever a compiler has compiled, kept and restored before, the functions of the next unit have
the offset of the unit. -/
theorem Compiler.Reachable.rebased_eq_self {c : Compiler} {n : SnippetId} {p : Program}
    {u : CompiledUnit} (hc : c.Reachable) (h : (c.compile n p).1 = .ok u) : u.rebased = u := by
  have hready := hc.ready
  obtain ⟨s, hstep, -⟩ := hready.inStep
  have hok : c.compile n p = (.ok u, (c.compile n p).2) := by rw [← h]
  obtain ⟨commands, place, hcompiled⟩ :=
    compile_eq_ok (congrArg Compiler.buffer hready.idle) hready.valid hok []
  refine CompiledUnit.rebased_eq_self ?_
  intro v hv
  cases v with
  | function f => exact offset_loaded hcompiled hstep hv
  | _ => trivial

/-! ### Storing and reading again -/

namespace CompiledUnit

/-- A unit can be stored exactly if it is within the limits. What is stored is under the number of its
snippet, and is read as the unit with its own offset in all its functions; so it is read as it was if
it came from the compiler. -/
theorem serialize_roundtrip (u : CompiledUnit) :
    ((∃ stored, u.serialize = .ok stored) ↔ u.WithinLimits) ∧
    ∀ stored, u.serialize = .ok stored →
      stored.snippet = u.snippet ∧ deserialize stored.data = .ok u.rebased ∧
      ∀ (c : Compiler) (n : SnippetId) (p : Program), c.Reachable → (c.compile n p).1 = .ok u →
        deserialize stored.data = .ok u := by
  constructor
  · exact serialize_ok_iff.trans storable_iff
  · intro stored hstored
    have hread := deserialize_eq_rebased hstored
    refine ⟨(ends_of_serialize hstored).1, hread, ?_⟩
    intro c n p hc hcompile
    rw [hread, hc.rebased_eq_self hcompile]

/-- A function and a text, compiled after another snippet. -/
theorem compiled_serialize_roundtrip :
    let p : Program :=
      [.letIn "f" (.function ["x"] [.expr (.binary .add (.str "é") (.ident "x"))]), .expr (.int 1)]
    let c : Compiler := (Compiler.compile 0 [.expr (.int 5)] {}).2
    ∃ u stored, (c.compile 7 p).1 = .ok u ∧ u.constantsOffset = 1 ∧ u.WithinLimits ∧
      u.serialize = .ok stored ∧ stored.snippet = 7 ∧ deserialize stored.data = .ok u := by
  intro p c
  have hc : c.Reachable := Compiler.Reachable.new.compile 0 [.expr (.int 5)]
  have hoffset : ((c.compile 7 p).1.map (·.constantsOffset)).toOption = some 1 := by decide +kernel
  have hsnippet : ((c.compile 7 p).1.map (·.snippet)).toOption = some 7 := by decide +kernel
  have hstores : ((c.compile 7 p).1.map fun u => u.serialize.isOk).toOption = some true := by
    decide +kernel
  cases hu : (c.compile 7 p).1 with
  | error cause =>
    rw [hu] at hoffset
    cases hoffset
  | ok u =>
    rw [hu] at hoffset hsnippet hstores
    obtain ⟨hlimits, hreads⟩ := serialize_roundtrip u
    cases hstored : u.serialize with
    | error error =>
      have hisOk : u.serialize.isOk = true := Option.some.inj hstores
      rw [hstored] at hisOk
      cases hisOk
    | ok stored =>
      obtain ⟨hsame, -, hcompiled⟩ := hreads stored hstored
      have hseven : u.snippet = 7 := Option.some.inj hsnippet
      exact ⟨u, stored, rfl, Option.some.inj hoffset, hlimits.mp ⟨stored, hstored⟩, hstored,
        hsame.trans hseven, hcompiled c 7 p hc hu⟩

end CompiledUnit

end Notebook
