import Notebook.CompiledUnit.Decode
import Notebook.Proofs.Fallible

/-!
Units come back from their byte form as they were.

`Reads take bytes x` says that a reader takes exactly these bytes off the front, whatever comes
after them, and makes `x` of them. Each encoder goes with a reader (`reads_of_encodeNat` and so on
up the format), and `CompiledUnit.deserialize_flagged` puts them together. A function's pool
offset is not stored, so a unit comes back with its own offset in all its functions
(`CompiledUnit.rebased`), and whole only if they had it before (`CompiledUnit.deserialize_serialize`).
The flag in front of a declared type is read as `some` whatever byte but zero it is.
-/

namespace Notebook

/-! ### Text -/

@[simp] theorem Text.Utf8.decode_encode (s : String) :
    Text.Utf8.decode (Text.Utf8.encode s) = .ok s := by
  have hbytes : (⟨(Text.Utf8.encode s).toArray⟩ : ByteArray) = s.toUTF8 := by
    simp [Text.Utf8.encode]
  have hread : String.fromUTF8? s.toUTF8 = some s := by
    have hvalid : s.toUTF8.IsValidUTF8 := s.isValidUTF8
    simp only [String.fromUTF8?, dif_pos hvalid]
    rfl
  simp only [Text.Utf8.decode, hbytes, hread]

namespace UnitFormat

/-- Does a reader take exactly these bytes off the front, for this value? It does so whatever follows, and thus
readers can be put one after the other. -/
def Reads {α : Type} (take : List UInt8 → Except DecodeError (Taken α)) (bytes : List UInt8)
    (x : α) : Prop :=
  ∀ rest, take (bytes ++ rest) = .ok (x, rest)

/-! ### Numbers -/

theorem takeBigEndian_bigEndian (width high n : Nat) (rest : List UInt8) :
    takeBigEndian width high (bigEndian width n ++ rest) =
      .ok (high * (1 <<< (8 * width)) + n % (1 <<< (8 * width)), rest) := by
  induction width generalizing high with
  | zero => simp [bigEndian, takeBigEndian, Nat.mod_one]
  | succ width ih =>
    have hplace : 1 <<< (8 * (width + 1)) = 1 <<< (8 * width) * 256 := by
      rw [Nat.mul_add, Nat.shiftLeft_add]
      exact Nat.shiftLeft_eq _ 8
    have hbyte : (UInt8.ofNat (n >>> (8 * width))).toNat = n / (1 <<< (8 * width)) % 256 := by
      simp [UInt8.toNat_ofNat', Nat.shiftRight_eq_div_pow, Nat.shiftLeft_eq]
    rw [bigEndian, List.cons_append, takeBigEndian, ih, hbyte, hplace, Nat.mod_mul, Nat.add_mul,
      Nat.mul_assoc, Nat.mul_comm 256, Nat.mul_comm (n / _ % 256), Nat.add_assoc,
      Nat.add_comm (_ * _) (n % _)]

theorem reads_bigEndian {n : Nat} (h : n < UInt32.size) : Reads takeNat (bigEndian 4 n) n := by
  intro rest
  have hmod : n % (1 <<< (8 * 4)) = n := Nat.mod_eq_of_lt h
  rw [takeNat, takeBigEndian_bigEndian, hmod, Nat.zero_mul, Nat.zero_add]

theorem reads_of_encodeNat {n : Nat} {bytes : List UInt8} (h : encodeNat n = .ok bytes) :
    Reads takeNat bytes n := by
  unfold encodeNat at h
  split at h <;> cases h
  exact reads_bigEndian ‹_›

theorem reads_of_encodeBytes {data bytes : List UInt8} (h : encodeBytes data = .ok bytes) :
    Reads takeBytes bytes data := by
  intro rest
  obtain ⟨length, hlength, h⟩ := bind_eq_ok_iff.mp h
  cases h
  unfold takeBytes
  rw [List.append_assoc, reads_of_encodeNat hlength]
  simp [bind, Except.bind]

theorem reads_of_encodeString {s : String} {bytes : List UInt8} (h : encodeString s = .ok bytes) :
    Reads takeString bytes s := by
  intro rest
  unfold takeString
  rw [reads_of_encodeBytes h]
  simp [bind, Except.bind]

theorem length_bigEndian (width n : Nat) : (bigEndian width n).length = width := by
  induction width with
  | zero => rfl
  | succ width ih => rw [bigEndian, List.length_cons, ih]

theorem length_of_encodeNat {n : Nat} {bytes : List UInt8} (h : encodeNat n = .ok bytes) :
    bytes.length = 4 := by
  unfold encodeNat at h
  split at h <;> cases h
  exact length_bigEndian 4 n

theorem length_of_encodeBytes {data bytes : List UInt8} (h : encodeBytes data = .ok bytes) :
    bytes.length = 4 + data.length := by
  obtain ⟨length, hlength, h⟩ := bind_eq_ok_iff.mp h
  cases h
  rw [List.length_append, length_of_encodeNat hlength]

/-! ### Parts of a unit -/

def HasOffset (offset : Nat) : Value → Prop
  | .function f => f.constantsOffset = offset
  | _ => True

def atOffset (offset : Nat) : Value → Value
  | .function f => .function { f with constantsOffset := offset }
  | v => v

theorem atOffset_eq_self {offset : Nat} {v : Value} (h : HasOffset offset v) :
    atOffset offset v = v := by
  cases v with
  | function f =>
    cases h
    rfl
  | _ => rfl

/-- A constant is read from its bytes, with its functions at the offset of the unit. -/
theorem reads_of_encodeConstant {offset : Nat} {v : Value} {bytes : List UInt8}
    (h : encodeConstant v = .ok bytes) : Reads (takeConstant offset) bytes (atOffset offset v) := by
  intro rest
  cases v with
  | int n =>
    cases h
    have hmod : n.toUInt64.toNat % (1 <<< (8 * 8)) = n.toUInt64.toNat :=
      Nat.mod_eq_of_lt n.toUInt64.toNat_lt
    have hread := takeBigEndian_bigEndian 8 0 n.toUInt64.toNat rest
    rw [hmod, Nat.zero_mul, Nat.zero_add] at hread
    unfold takeConstant
    simp [takeByte, bind, Except.bind, hread, atOffset]
  | str text =>
    obtain ⟨data, hdata, h⟩ := bind_eq_ok_iff.mp h
    cases h
    unfold takeConstant
    have hread := reads_of_encodeString hdata rest
    simp [takeByte, bind, Except.bind, hread, stringTag, integerTag, atOffset]
  | function f =>
    obtain ⟨locals, hlocals, h⟩ := bind_eq_ok_iff.mp h
    obtain ⟨params, hparams, h⟩ := bind_eq_ok_iff.mp h
    obtain ⟨code, hcode, h⟩ := bind_eq_ok_iff.mp h
    cases h
    unfold takeConstant
    have h₁ := reads_of_encodeNat hlocals (params ++ (code ++ rest))
    have h₂ := reads_of_encodeNat hparams (code ++ rest)
    have h₃ := reads_of_encodeBytes hcode rest
    simp [takeByte, bind, Except.bind, h₁, h₂, h₃, functionTag, stringTag, integerTag, atOffset]
  | _ => cases h

theorem reads_of_encodeDeclaration {d : Declaration} {bytes : List UInt8}
    (h : encodeDeclaration d = .ok bytes) : Reads takeDeclaration bytes d := by
  intro rest
  obtain ⟨name, hname, h⟩ := bind_eq_ok_iff.mp h
  obtain ⟨index, hindex, h⟩ := bind_eq_ok_iff.mp h
  cases h
  unfold takeDeclaration
  have h₁ := reads_of_encodeString hname (index ++ rest)
  have h₂ := reads_of_encodeNat hindex rest
  simp [bind, Except.bind, h₁, h₂]

/-- A declared type is read whatever byte but zero its flag is. -/
theorem reads_of_encodeType {type : Option String} {bytes : List UInt8} {flag : UInt8}
    (hflag : flag ≠ 0) (h : encodeType type = .ok bytes) :
    Reads takeType (if type.isSome then bytes.set 0 flag else bytes) type := by
  intro rest
  cases type with
  | none =>
    cases h
    rfl
  | some name =>
    obtain ⟨data, hdata, h⟩ := bind_eq_ok_iff.mp h
    cases h
    unfold takeType
    have hread := reads_of_encodeString hdata rest
    simp [takeByte, bind, Except.bind, hread, hflag]

/-- Things that can each be read back, if maybe changed, can be read back after their number. The number says
when to stop, so nothing is said of what follows. -/
theorem reads_of_encodeMany {α : Type} {encode : α → Except SerializeError (List UInt8)}
    {take : List UInt8 → Except DecodeError (Taken α)} {change : α → α} {xs : List α}
    {bytes : List UInt8} (hread : ∀ x part, encode x = .ok part → Reads take part (change x))
    (h : encodeMany encode xs = .ok bytes) : Reads (takeMany take) bytes (xs.map change) := by
  -- The readers after the number have read some things already, so these are in the statement.
  have htimes : ∀ (xs : List α) (parts : List (List UInt8)) (read : List α) (rest : List UInt8),
      xs.mapM encode = .ok parts →
      takeTimes take xs.length read (parts.flatten ++ rest) =
        .ok (read.reverse ++ xs.map change, rest) := by
    intro xs
    induction xs with
    | nil =>
      intro parts read rest hparts
      cases hparts
      simp [takeTimes]
    | cons x xs ih =>
      intro parts read rest hparts
      rw [List.mapM_cons] at hparts
      obtain ⟨part, hpart, hparts⟩ := bind_eq_ok_iff.mp hparts
      obtain ⟨more, hmore, hparts⟩ := bind_eq_ok_iff.mp hparts
      cases hparts
      have hfirst := hread x part hpart (more.flatten ++ rest)
      have hrest := ih more (change x :: read) rest hmore
      rw [List.length_cons, takeTimes, List.flatten_cons, List.append_assoc, hfirst]
      simpa [bind, Except.bind] using hrest
  intro rest
  obtain ⟨count, hcount, h⟩ := bind_eq_ok_iff.mp h
  obtain ⟨parts, hparts, h⟩ := bind_eq_ok_iff.mp h
  cases h
  unfold takeMany
  rw [List.append_assoc, reads_of_encodeNat hcount]
  simpa [bind, Except.bind] using htimes xs parts [] rest hparts

theorem takeHeader_append (rest : List UInt8) : takeHeader (magic ++ version :: rest) = .ok rest := by
  simp [takeHeader, takeByte, bind, Except.bind]

end UnitFormat

open UnitFormat

/-! ### Units -/

namespace CompiledUnit

variable {u : CompiledUnit} {stored : SerializedUnit}

/-- The unit as it is read again: its functions have its own pool offset. Only units that no compiler made are
changed by this. -/
def rebased (u : CompiledUnit) : CompiledUnit :=
  { u with constants := u.constants.map (atOffset u.constantsOffset) }

/-- The place of the flag that says whether there is a declared type: after it come the name of the
type and the code, both after their lengths. -/
def flagPlace (u : CompiledUnit) (data : List UInt8) : Nat :=
  data.length - (1 + (4 + (u.declaredType.getD "").utf8ByteSize) + (4 + u.code.size))

/-- The bytes of a unit with another flag in front of its declared type, if it has one. -/
def flagged (u : CompiledUnit) (flag : UInt8) (data : List UInt8) : List UInt8 :=
  if u.declaredType.isSome then data.set (u.flagPlace data) flag else data

/-- Another flag changes the first byte of the declared type. -/
theorem flagged_append (before : List UInt8) {type code : List UInt8} (flag : UInt8)
    (htype : encodeType u.declaredType = .ok type)
    (hcode : encodeBytes u.code.bytes.toList = .ok code) :
    u.flagged flag (before ++ (type ++ code)) =
      before ++ ((if u.declaredType.isSome then type.set 0 flag else type) ++ code) := by
  unfold flagged
  cases hdeclared : u.declaredType with
  | none => rfl
  | some name =>
    rw [hdeclared] at htype
    obtain ⟨data, hdata, htype⟩ := bind_eq_ok_iff.mp htype
    cases htype
    have hsize : code.length = 4 + u.code.size := length_of_encodeBytes hcode
    have hname : data.length = 4 + name.utf8ByteSize := length_of_encodeBytes hdata
    have hplace : u.flagPlace (before ++ (1 :: data ++ code)) = before.length := by
      simp only [flagPlace, hdeclared, Option.getD_some, List.length_append, List.length_cons, hsize,
        hname]
      omega
    rw [hplace]
    simp

/-- The bytes of a unit end with its declared type and its code. -/
theorem ends_of_serialize (h : u.serialize = .ok stored) :
    stored.snippet = u.snippet ∧ ∃ before type code, encodeType u.declaredType = .ok type ∧
      encodeBytes u.code.bytes.toList = .ok code ∧ stored.data = before ++ (type ++ code) := by
  obtain ⟨offset, -, h⟩ := bind_eq_ok_iff.mp h
  obtain ⟨globals, -, h⟩ := bind_eq_ok_iff.mp h
  obtain ⟨constants, -, h⟩ := bind_eq_ok_iff.mp h
  obtain ⟨declarations, -, h⟩ := bind_eq_ok_iff.mp h
  obtain ⟨type, htype, h⟩ := bind_eq_ok_iff.mp h
  obtain ⟨code, hcode, h⟩ := bind_eq_ok_iff.mp h
  cases h
  refine ⟨rfl, magic ++ (version :: bigEndian 4 u.snippet.toNat) ++
    (offset ++ (globals ++ (constants ++ declarations))), type, code, htype, hcode, ?_⟩
  simp

/-- A unit can be read from its bytes, with any flag but zero in front of its declared type and with
any bytes after them. -/
theorem deserialize_flagged (h : u.serialize = .ok stored) {flag : UInt8} (hflag : flag ≠ 0)
    (suffix : List UInt8) : deserialize (u.flagged flag stored.data ++ suffix) = .ok u.rebased := by
  obtain ⟨offset, hoff, h⟩ := bind_eq_ok_iff.mp h
  obtain ⟨globals, hglobals, h⟩ := bind_eq_ok_iff.mp h
  obtain ⟨constants, hconstants, h⟩ := bind_eq_ok_iff.mp h
  obtain ⟨declarations, hdeclarations, h⟩ := bind_eq_ok_iff.mp h
  obtain ⟨type, htype, h⟩ := bind_eq_ok_iff.mp h
  obtain ⟨code, hcode, h⟩ := bind_eq_ok_iff.mp h
  cases h
  have hbytes := flagged_append (magic ++ (version :: bigEndian 4 u.snippet.toNat) ++
    (offset ++ (globals ++ (constants ++ declarations)))) flag htype hcode
  simp only [List.append_assoc] at hbytes ⊢
  rw [hbytes]
  generalize htype' : (if u.declaredType.isSome then type.set 0 flag else type) = type'
  -- The parts are read one after the other, each with all later parts as its rest.
  have h₁ := reads_bigEndian u.snippet.toNat_lt
    (offset ++ (globals ++ (constants ++ (declarations ++ (type' ++ (code ++ suffix))))))
  have h₂ := reads_of_encodeNat hoff
    (globals ++ (constants ++ (declarations ++ (type' ++ (code ++ suffix)))))
  have h₃ := reads_of_encodeNat hglobals
    (constants ++ (declarations ++ (type' ++ (code ++ suffix))))
  have hconstants : Reads (takeMany (takeConstant u.constantsOffset)) constants
      (u.constants.map (atOffset u.constantsOffset)) :=
    reads_of_encodeMany (fun v part hpart => reads_of_encodeConstant hpart) hconstants
  have hdeclarations : Reads (takeMany takeDeclaration) declarations (u.declarations.map id) :=
    reads_of_encodeMany (fun d part hpart => reads_of_encodeDeclaration hpart) hdeclarations
  have h₄ := hconstants (declarations ++ (type' ++ (code ++ suffix)))
  have h₅ := hdeclarations (type' ++ (code ++ suffix))
  have h₆ := reads_of_encodeType hflag htype (code ++ suffix)
  have h₇ := reads_of_encodeBytes hcode suffix
  rw [htype'] at h₆
  unfold deserialize
  simp only [List.append_assoc, List.cons_append, takeHeader_append, bind, Except.bind, h₁, h₂, h₃,
    h₄, h₅, h₆, h₇]
  simp [rebased]

/-- The flag that is written is one. -/
theorem flagged_one (h : u.serialize = .ok stored) : u.flagged 1 stored.data = stored.data := by
  obtain ⟨-, before, type, code, htype, hcode, hdata⟩ := ends_of_serialize h
  rw [hdata, flagged_append before 1 htype hcode]
  cases hdeclared : u.declaredType with
  | none => rfl
  | some name =>
    rw [hdeclared] at htype
    obtain ⟨data, -, htype⟩ := bind_eq_ok_iff.mp htype
    cases htype
    rfl

theorem length_flagged (flag : UInt8) (data : List UInt8) :
    (u.flagged flag data).length = data.length := by
  unfold flagged
  split
  · exact List.length_set
  · rfl

theorem rebased_eq_self (h : ∀ v ∈ u.constants, HasOffset u.constantsOffset v) : u.rebased = u := by
  have hconstants : u.constants.map (atOffset u.constantsOffset) = u.constants := by
    refine (List.map_congr_left fun v hv => ?_).trans (List.map_id _)
    exact atOffset_eq_self (h v hv)
  unfold rebased
  rw [hconstants]

/-- A unit is read from its bytes as it was, but for the offsets of its functions. -/
theorem deserialize_eq_rebased (h : u.serialize = .ok stored) :
    deserialize stored.data = .ok u.rebased := by
  have hone : (1 : UInt8) ≠ 0 := by decide
  have hread := deserialize_flagged h hone []
  rw [flagged_one h, List.append_nil] at hread
  exact hread

/-- A unit whose functions have its own pool offset comes back from its byte form as it was. -/
theorem deserialize_serialize (hoffset : ∀ v ∈ u.constants, HasOffset u.constantsOffset v)
    (h : u.serialize = .ok stored) :
    stored.snippet = u.snippet ∧ deserialize stored.data = .ok u := by
  refine ⟨(ends_of_serialize h).1, ?_⟩
  rw [deserialize_eq_rebased h, rebased_eq_self hoffset]

end CompiledUnit

end Notebook
