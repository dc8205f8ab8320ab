import Notebook.CompiledUnit.Encode
import Notebook.Proofs.Fallible
import Notebook.Proofs.Semantics.RelatedValues

/-!
Which units have a byte form.

A unit can be stored if its numbers take four bytes and each of its constants and declarations can be
stored (`CompiledUnit.serialize_ok_iff`). Whether a function can be stored does not depend on what its
code does, but only on its size (`encodes_iff_of_related`).
-/

namespace Notebook

open UnitFormat

/-- Is there a byte form of this? -/
def Encodes {α : Type} (encode : α → Except SerializeError (List UInt8)) (x : α) : Prop :=
  ∃ bytes, encode x = .ok bytes

theorem exists_ok_bind_iff {ε α β : Type} {x : Except ε α} {f : α → Except ε β} :
    (∃ b, (x >>= f) = .ok b) ↔ ∃ a, x = .ok a ∧ ∃ b, f a = .ok b := by
  constructor
  · rintro ⟨b, h⟩
    obtain ⟨a, hx, hf⟩ := bind_eq_ok_iff.mp h
    exact ⟨a, hx, b, hf⟩
  · rintro ⟨a, hx, b, hf⟩
    exact ⟨b, bind_eq_ok_iff.mpr ⟨a, hx, hf⟩⟩

/-! ### Parts of a unit -/

theorem encodes_nat_iff {n : Nat} : Encodes encodeNat n ↔ n < UInt32.size := by
  unfold Encodes encodeNat
  split
  · exact ⟨fun _ => ‹_›, fun _ => ⟨_, rfl⟩⟩
  · constructor
    · rintro ⟨bytes, ⟨⟩⟩
    · intro h
      contradiction

theorem encodes_bytes_iff {bytes : List UInt8} :
    Encodes encodeBytes bytes ↔ bytes.length < UInt32.size := by
  constructor
  · intro h
    obtain ⟨length, hlength, -⟩ := exists_ok_bind_iff.mp h
    exact encodes_nat_iff.mp ⟨length, hlength⟩
  · intro h
    obtain ⟨length, hlength⟩ := encodes_nat_iff.mpr h
    exact exists_ok_bind_iff.mpr ⟨length, hlength, _, rfl⟩

theorem encodes_declaration_iff {d : Declaration} :
    Encodes encodeDeclaration d ↔ Encodes encodeString d.name ∧ d.index < UInt32.size := by
  constructor
  · intro h
    obtain ⟨name, hname, h⟩ := exists_ok_bind_iff.mp h
    obtain ⟨index, hindex, -⟩ := exists_ok_bind_iff.mp h
    exact ⟨⟨name, hname⟩, encodes_nat_iff.mp ⟨index, hindex⟩⟩
  · rintro ⟨⟨name, hname⟩, hindex⟩
    obtain ⟨index, hindex⟩ := encodes_nat_iff.mpr hindex
    exact exists_ok_bind_iff.mpr ⟨name, hname, exists_ok_bind_iff.mpr ⟨index, hindex, _, rfl⟩⟩

/-- The name of a type is short. -/
theorem encodes_type (type : Option ValueType) : Encodes encodeType (type.map ValueType.name) := by
  cases type with
  | none => exact ⟨_, rfl⟩
  | some type =>
    have hname : Encodes encodeString type.name := by
      refine encodes_bytes_iff.mpr ?_
      cases type <;> decide
    obtain ⟨name, hname⟩ := hname
    exact exists_ok_bind_iff.mpr ⟨name, hname, _, rfl⟩

theorem exists_mapM_iff {ε α β : Type} {f : α → Except ε β} {xs : List α} :
    (∃ ys, xs.mapM f = .ok ys) ↔ ∀ x ∈ xs, ∃ y, f x = .ok y := by
  induction xs with
  | nil => simp [pure, Except.pure]
  | cons x xs ih =>
    rw [List.mapM_cons, List.forall_mem_cons, exists_ok_bind_iff, ← ih]
    constructor
    · rintro ⟨y, hy, h⟩
      obtain ⟨ys, hys, -⟩ := exists_ok_bind_iff.mp h
      exact ⟨⟨y, hy⟩, ys, hys⟩
    · rintro ⟨⟨y, hy⟩, ys, hys⟩
      exact ⟨y, hy, exists_ok_bind_iff.mpr ⟨ys, hys, _, rfl⟩⟩

theorem encodes_many_iff {α : Type} {encode : α → Except SerializeError (List UInt8)}
    {xs : List α} :
    Encodes (encodeMany encode) xs ↔ xs.length < UInt32.size ∧ ∀ x ∈ xs, Encodes encode x := by
  constructor
  · intro h
    obtain ⟨count, hcount, h⟩ := exists_ok_bind_iff.mp h
    obtain ⟨parts, hparts, -⟩ := exists_ok_bind_iff.mp h
    exact ⟨encodes_nat_iff.mp ⟨count, hcount⟩, exists_mapM_iff.mp ⟨parts, hparts⟩⟩
  · rintro ⟨hlength, hall⟩
    obtain ⟨count, hcount⟩ := encodes_nat_iff.mpr hlength
    obtain ⟨parts, hparts⟩ := exists_mapM_iff.mpr hall
    exact exists_ok_bind_iff.mpr ⟨count, hcount, exists_ok_bind_iff.mpr ⟨parts, hparts, _, rfl⟩⟩

theorem encodes_function_iff {f : FunctionCode} :
    Encodes encodeConstant (.function f) ↔
      f.locals < UInt32.size ∧ f.params < UInt32.size ∧ f.code.size < UInt32.size := by
  have hsize : f.code.bytes.toList.length = f.code.size := Array.length_toList
  rw [← hsize]
  constructor
  · intro h
    obtain ⟨locals, hlocals, h⟩ := exists_ok_bind_iff.mp h
    obtain ⟨params, hparams, h⟩ := exists_ok_bind_iff.mp h
    obtain ⟨code, hcode, -⟩ := exists_ok_bind_iff.mp h
    exact ⟨encodes_nat_iff.mp ⟨locals, hlocals⟩, encodes_nat_iff.mp ⟨params, hparams⟩,
      encodes_bytes_iff.mp ⟨code, hcode⟩⟩
  · rintro ⟨hlocals, hparams, hcode⟩
    obtain ⟨locals, hlocals⟩ := encodes_nat_iff.mpr hlocals
    obtain ⟨params, hparams⟩ := encodes_nat_iff.mpr hparams
    obtain ⟨code, hcode⟩ := encodes_bytes_iff.mpr hcode
    exact exists_ok_bind_iff.mpr ⟨locals, hlocals,
      exists_ok_bind_iff.mpr ⟨params, hparams, exists_ok_bind_iff.mpr ⟨code, hcode, _, rfl⟩⟩⟩

/-- A constant can be stored if one can that is the same, but for the code of functions. -/
theorem encodes_iff_of_related {R : FunctionCode → FunctionCode → Prop}
    (hR : ∀ f f', R f f' → f.locals = f'.locals ∧ f.params = f'.params ∧ f.code.size = f'.code.size)
    {v v' : Value} (h : v.Related R v') : Encodes encodeConstant v ↔ Encodes encodeConstant v' := by
  cases h with
  | @function f f' hsame =>
    obtain ⟨hlocals, hparams, hsize⟩ := hR f f' hsame
    rw [encodes_function_iff, encodes_function_iff, hlocals, hparams, hsize]
  | array _ =>
    constructor
    · rintro ⟨bytes, ⟨⟩⟩
    · rintro ⟨bytes, ⟨⟩⟩
  | _ => rfl

/-! ### Units -/

/-- Can all parts of a unit be stored? The parts are taken for themselves here, so that a unit that is put
together from known parts is seen to be storable. -/
structure CompiledUnit.Storable (u : CompiledUnit) : Prop where
  offset : u.constantsOffset < UInt32.size
  globals : u.globals < UInt32.size
  count : u.constants.length < UInt32.size
  constants : ∀ v ∈ u.constants, Encodes encodeConstant v
  declared : u.declarations.length < UInt32.size
  declarations : ∀ d ∈ u.declarations, Encodes encodeDeclaration d
  type : Encodes encodeType u.declaredType
  code : u.code.size < UInt32.size

/-- A unit has a byte form if all of its parts have. What makes a part fail is a number or a length that does
not take four bytes, or a constant of another kind. -/
theorem CompiledUnit.serialize_ok_iff {u : CompiledUnit} :
    (∃ stored, u.serialize = .ok stored) ↔ u.Storable := by
  have hsize : u.code.bytes.toList.length = u.code.size := Array.length_toList
  -- Writing goes on only while it succeeds, so the whole is written if and only if each part is.
  constructor
  · intro h
    obtain ⟨offset, hoffset, h⟩ := exists_ok_bind_iff.mp h
    obtain ⟨globals, hglobals, h⟩ := exists_ok_bind_iff.mp h
    obtain ⟨constants, hconstants, h⟩ := exists_ok_bind_iff.mp h
    obtain ⟨declarations, hdeclarations, h⟩ := exists_ok_bind_iff.mp h
    obtain ⟨type, htype, h⟩ := exists_ok_bind_iff.mp h
    obtain ⟨code, hcode, -⟩ := exists_ok_bind_iff.mp h
    obtain ⟨hcount, hall⟩ := encodes_many_iff.mp ⟨constants, hconstants⟩
    obtain ⟨hcount', hall'⟩ := encodes_many_iff.mp ⟨declarations, hdeclarations⟩
    exact
      { offset := encodes_nat_iff.mp ⟨offset, hoffset⟩
        globals := encodes_nat_iff.mp ⟨globals, hglobals⟩
        count := hcount
        constants := hall
        declared := hcount'
        declarations := hall'
        type := ⟨type, htype⟩
        code := hsize ▸ encodes_bytes_iff.mp ⟨code, hcode⟩ }
  · intro h
    obtain ⟨offset, hoffset⟩ := encodes_nat_iff.mpr h.offset
    obtain ⟨globals, hglobals⟩ := encodes_nat_iff.mpr h.globals
    obtain ⟨constants, hconstants⟩ := encodes_many_iff.mpr ⟨h.count, h.constants⟩
    obtain ⟨declarations, hdeclarations⟩ := encodes_many_iff.mpr ⟨h.declared, h.declarations⟩
    obtain ⟨type, htype⟩ := h.type
    obtain ⟨code, hcode⟩ := encodes_bytes_iff.mpr (hsize ▸ h.code)
    exact exists_ok_bind_iff.mpr ⟨offset, hoffset, exists_ok_bind_iff.mpr ⟨globals, hglobals,
      exists_ok_bind_iff.mpr ⟨constants, hconstants, exists_ok_bind_iff.mpr ⟨declarations, hdeclarations,
        exists_ok_bind_iff.mpr ⟨type, htype, exists_ok_bind_iff.mpr ⟨code, hcode, _, rfl⟩⟩⟩⟩⟩⟩

end Notebook
