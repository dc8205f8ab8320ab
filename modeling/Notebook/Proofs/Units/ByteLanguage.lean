import Notebook.Proofs.Units.ByteForm

/-!
The bytes that are read as a unit.

`Undoes take encode` says that a reader takes nothing off the front but what is written for the value
that it makes of it. Each reader undoes its encoder (`takeNat_undoes` and so on up the format), apart
from the flag in front of a declared type, of which only zero is told from the rest.

* `CompiledUnit.eq_flagged_of_deserialize`: bytes that are read as a unit are those of the unit, with
  some flag and with some bytes after them.
* `CompiledUnit.deserialize_language`: these are exactly the bytes that are read, and bytes that break
  off before the end of a unit are not.
-/

namespace Notebook

/-! ### Text -/

theorem Text.Utf8.encode_of_decode {bytes : List UInt8} {s : String}
    (h : Text.Utf8.decode bytes = .ok s) : Text.Utf8.encode s = bytes := by
  unfold Text.Utf8.decode at h
  split at h
  · rename_i s' hread
    cases h
    unfold String.fromUTF8? at hread
    split at hread
    · cases hread
      rfl
    · cases hread
  · cases h

namespace UnitFormat

/-- Does a reader take nothing but what is written for the value that it makes of it? It is the converse of
`Reads`: a format has one form only of each thing if its readers undo their encoders. -/
def Undoes {α : Type} (take : List UInt8 → Except DecodeError (Taken α))
    (encode : α → Except SerializeError (List UInt8)) : Prop :=
  ∀ bytes x rest, take bytes = .ok (x, rest) → ∃ part, encode x = .ok part ∧ bytes = part ++ rest

/-! ### Numbers -/

theorem takeByte_eq_ok {bytes rest : List UInt8} {b : UInt8} (h : takeByte bytes = .ok (b, rest)) :
    bytes = b :: rest := by
  cases bytes with
  | nil => cases h
  | cons _ _ =>
    cases h
    rfl

/-- The bytes of a number are its last ones, and what came before them is the rest of the number. -/
theorem eq_bigEndian_of_take {width high n : Nat} {bytes rest : List UInt8}
    (h : takeBigEndian width high bytes = .ok (n, rest)) :
    bytes = bigEndian width n ++ rest ∧ n >>> (8 * width) = high := by
  induction width generalizing high bytes with
  | zero =>
    cases h
    exact ⟨rfl, rfl⟩
  | succ width ih =>
    cases bytes with
    | nil => cases h
    | cons b bytes =>
      obtain ⟨hbytes, hhigh⟩ := ih h
      have hlow : (high * 256 + b.toNat) % 256 = b.toNat := by
        have hb := b.toNat_lt
        omega
      have hbyte : UInt8.ofNat (n >>> (8 * width)) = b := by
        rw [hhigh]
        apply UInt8.toNat_inj.mp
        rw [UInt8.toNat_ofNat']
        exact hlow
      constructor
      · rw [bigEndian, hbyte, List.cons_append, ← hbytes]
      · have hb := b.toNat_lt
        rw [Nat.mul_add, Nat.shiftRight_add, hhigh, Nat.shiftRight_eq_div_pow]
        omega

theorem lt_of_shiftRight_eq_zero {n width : Nat} (h : n >>> width = 0) : n < 1 <<< width := by
  rw [Nat.shiftRight_eq_div_pow] at h
  rw [Nat.one_shiftLeft]
  exact Nat.lt_of_div_eq_zero (Nat.two_pow_pos width) h

theorem takeNat_undoes : Undoes takeNat encodeNat := by
  intro bytes n rest h
  obtain ⟨hbytes, hhigh⟩ := eq_bigEndian_of_take h
  have hlt : n < UInt32.size := lt_of_shiftRight_eq_zero hhigh
  exact ⟨bigEndian 4 n, if_pos hlt, hbytes⟩

theorem takeBytes_undoes : Undoes takeBytes encodeBytes := by
  intro bytes data rest h
  obtain ⟨⟨length, more⟩, hlength, h⟩ := bind_eq_ok_iff.mp h
  obtain ⟨count, hcount, hbytes⟩ := takeNat_undoes _ _ _ hlength
  simp only [List.splitAt_eq] at h
  split at h
  · cases h
  · rename_i henough
    cases h
    have hdata : (more.take length).length = length := by
      have hle := List.length_take_le length more
      omega
    refine ⟨count ++ more.take length, ?_, ?_⟩
    · unfold encodeBytes
      rw [hdata, hcount]
      rfl
    · rw [hbytes, List.append_assoc, List.take_append_drop]

theorem takeString_undoes : Undoes takeString encodeString := by
  intro bytes s rest h
  obtain ⟨⟨data, more⟩, hdata, h⟩ := bind_eq_ok_iff.mp h
  obtain ⟨part, hpart, hbytes⟩ := takeBytes_undoes _ _ _ hdata
  simp only at h
  split at h
  · rename_i s' hdecode
    cases h
    refine ⟨part, ?_, hbytes⟩
    unfold encodeString
    rw [Text.Utf8.encode_of_decode hdecode]
    exact hpart
  · cases h

/-! ### Parts of a unit -/

/-- A constant that is read is written as the bytes that it was read from. Its tag tells the kind, and no two
kinds share one. -/
theorem takeConstant_undoes (offset : Nat) : Undoes (takeConstant offset) encodeConstant := by
  intro bytes v rest h
  obtain ⟨⟨tag, more⟩, htag, h⟩ := bind_eq_ok_iff.mp h
  have hbytes := takeByte_eq_ok htag
  simp only at h
  split at h
  · -- An integer: its eight bytes make up a word.
    rename_i hinteger
    obtain ⟨⟨n, more⟩, hn, h⟩ := bind_eq_ok_iff.mp h
    cases h
    obtain ⟨hmore, hhigh⟩ := eq_bigEndian_of_take hn
    have hlt : n < UInt64.size := lt_of_shiftRight_eq_zero hhigh
    have hword : (UInt64.ofNat n).toInt64.toUInt64.toNat = n := by
      simp [UInt64.toNat_ofNat', Nat.mod_eq_of_lt hlt]
    refine ⟨integerTag :: bigEndian 8 n, ?_, ?_⟩
    · rw [encodeConstant, hword]
    · rw [hbytes, hinteger, hmore, List.cons_append]
  · split at h
    · rename_i hstring
      obtain ⟨⟨text, more⟩, htext, h⟩ := bind_eq_ok_iff.mp h
      cases h
      obtain ⟨part, hpart, hmore⟩ := takeString_undoes _ _ _ htext
      refine ⟨stringTag :: part, ?_, ?_⟩
      · rw [encodeConstant, hpart]
        rfl
      · rw [hbytes, hstring, hmore, List.cons_append]
    · split at h
      · rename_i hfunction
        obtain ⟨⟨locals, more₁⟩, hlocals, h⟩ := bind_eq_ok_iff.mp h
        obtain ⟨⟨params, more₂⟩, hparams, h⟩ := bind_eq_ok_iff.mp h
        obtain ⟨⟨code, more₃⟩, hcode, h⟩ := bind_eq_ok_iff.mp h
        cases h
        obtain ⟨part₁, hpart₁, rfl⟩ := takeNat_undoes _ _ _ hlocals
        obtain ⟨part₂, hpart₂, rfl⟩ := takeNat_undoes _ _ _ hparams
        obtain ⟨part₃, hpart₃, rfl⟩ := takeBytes_undoes _ _ _ hcode
        refine ⟨functionTag :: (part₁ ++ part₂ ++ part₃), ?_, ?_⟩
        · rw [encodeConstant, hpart₁, hpart₂, hpart₃]
          rfl
        · rw [hbytes, hfunction]
          simp
      · cases h

theorem takeDeclaration_undoes : Undoes takeDeclaration encodeDeclaration := by
  intro bytes d rest h
  obtain ⟨⟨name, more⟩, hname, h⟩ := bind_eq_ok_iff.mp h
  obtain ⟨⟨index, more'⟩, hindex, h⟩ := bind_eq_ok_iff.mp h
  cases h
  obtain ⟨part, hpart, rfl⟩ := takeString_undoes _ _ _ hname
  obtain ⟨part', hpart', rfl⟩ := takeNat_undoes _ _ _ hindex
  refine ⟨part ++ part', ?_, (List.append_assoc _ _ _).symm⟩
  rw [encodeDeclaration, hpart, hpart']
  rfl

/-- A reader that undoes an encoder does so for things after their number. The number that was read is the
number of things that there are, so it is written again. -/
theorem Undoes.takeMany {α : Type} {take : List UInt8 → Except DecodeError (Taken α)}
    {encode : α → Except SerializeError (List UInt8)} (htake : Undoes take encode) :
    Undoes (takeMany take) (encodeMany encode) := by
  -- What was read before comes first, and what was not read yet is what the bytes hold.
  have htimes : ∀ (n : Nat) (read xs : List α) (bytes rest : List UInt8),
      takeTimes take n read bytes = .ok (xs, rest) →
      ∃ ys parts, xs = read.reverse ++ ys ∧ ys.length = n ∧ ys.mapM encode = .ok parts ∧
        bytes = parts.flatten ++ rest := by
    intro n
    induction n with
    | zero =>
      intro read xs bytes rest h
      cases h
      exact ⟨[], [], (List.append_nil _).symm, rfl, rfl, rfl⟩
    | succ n ih =>
      intro read xs bytes rest h
      obtain ⟨⟨x, more⟩, hx, h⟩ := bind_eq_ok_iff.mp h
      obtain ⟨part, hpart, hbytes⟩ := htake _ _ _ hx
      obtain ⟨ys, parts, hxs, hlength, hparts, hmore⟩ := ih _ _ _ _ h
      refine ⟨x :: ys, part :: parts, ?_, congrArg Nat.succ hlength, ?_, ?_⟩
      · rw [hxs, List.reverse_cons, List.append_assoc, List.singleton_append]
      · rw [List.mapM_cons, hpart, hparts]
        rfl
      · rw [hbytes, hmore, List.flatten_cons, List.append_assoc]
  intro bytes xs rest h
  obtain ⟨⟨n, more⟩, hn, h⟩ := bind_eq_ok_iff.mp h
  obtain ⟨count, hcount, hbytes⟩ := takeNat_undoes _ _ _ hn
  obtain ⟨ys, parts, hxs, hlength, hparts, hmore⟩ := htimes _ _ _ _ _ h
  obtain rfl : xs = ys := hxs
  refine ⟨count ++ parts.flatten, ?_, ?_⟩
  · rw [encodeMany, hlength, hcount, hparts]
    rfl
  · rw [hbytes, hmore, List.append_assoc]

/-- What is read as a declared type is what is written for it, apart from the flag. -/
theorem flagged_of_takeType {bytes rest : List UInt8} {type : Option String}
    (h : takeType bytes = .ok (type, rest)) :
    ∃ part flag, encodeType type = .ok part ∧ flag ≠ 0 ∧
      bytes = (if type.isSome then part.set 0 flag else part) ++ rest := by
  obtain ⟨⟨flag, more⟩, hflag, h⟩ := bind_eq_ok_iff.mp h
  have hbytes := takeByte_eq_ok hflag
  simp only at h
  split at h
  · rename_i hzero
    cases h
    refine ⟨[0], 1, rfl, by decide, ?_⟩
    rw [hbytes, hzero]
    rfl
  · rename_i hnonzero
    obtain ⟨⟨name, more'⟩, hname, h⟩ := bind_eq_ok_iff.mp h
    cases h
    obtain ⟨part, hpart, rfl⟩ := takeString_undoes _ _ _ hname
    refine ⟨1 :: part, flag, ?_, hnonzero, hbytes⟩
    rw [encodeType, hpart]
    rfl

theorem eq_append_of_takeHeader {bytes rest : List UInt8} (h : takeHeader bytes = .ok rest) :
    bytes = magic ++ version :: rest := by
  unfold takeHeader at h
  simp only [List.splitAt_eq] at h
  split at h
  · cases h
  · split at h
    · cases h
    · rename_i hmagic
      obtain ⟨⟨found, more⟩, hfound, h⟩ := bind_eq_ok_iff.mp h
      have hrest := takeByte_eq_ok hfound
      simp only at h
      split at h
      · rename_i hversion
        cases h
        have hletters := Decidable.not_not.mp hmagic
        calc
          bytes = bytes.take magic.length ++ bytes.drop magic.length :=
            (List.take_append_drop _ _).symm
          _ = magic ++ version :: rest := by rw [hletters, hrest, hversion]
      · cases h

end UnitFormat

open UnitFormat

/-! ### Units -/

namespace CompiledUnit

variable {u : CompiledUnit} {stored : SerializedUnit} {bytes : List UInt8}

/-- Bytes that are read as a unit are those that are written for it, but for the flag in front of its
declared type and for bytes after the unit. -/
theorem eq_flagged_of_deserialize (h : deserialize bytes = .ok u) :
    ∃ stored flag suffix, u.serialize = .ok stored ∧ flag ≠ 0 ∧
      bytes = u.flagged flag stored.data ++ suffix := by
  obtain ⟨rest, hheader, h⟩ := bind_eq_ok_iff.mp h
  obtain ⟨⟨snippet, rest₁⟩, hsnippet, h⟩ := bind_eq_ok_iff.mp h
  obtain ⟨⟨offset, rest₂⟩, hoffset, h⟩ := bind_eq_ok_iff.mp h
  obtain ⟨⟨globals, rest₃⟩, hglobals, h⟩ := bind_eq_ok_iff.mp h
  obtain ⟨⟨constants, rest₄⟩, hconstants, h⟩ := bind_eq_ok_iff.mp h
  obtain ⟨⟨declarations, rest₅⟩, hdeclarations, h⟩ := bind_eq_ok_iff.mp h
  obtain ⟨⟨type, rest₆⟩, htype, h⟩ := bind_eq_ok_iff.mp h
  obtain ⟨⟨code, suffix⟩, hcode, h⟩ := bind_eq_ok_iff.mp h
  cases h
  -- Every reader but that of the type undoes its encoder, so the bytes are put together again part by part.
  have hbytes := eq_append_of_takeHeader hheader
  obtain ⟨hrest, hhigh⟩ := eq_bigEndian_of_take hsnippet
  have hlt : snippet < UInt32.size := lt_of_shiftRight_eq_zero hhigh
  have hid : (UInt32.ofNat snippet).toNat = snippet := by
    rw [UInt32.toNat_ofNat', Nat.mod_eq_of_lt hlt]
  obtain ⟨part₁, hpart₁, rfl⟩ := takeNat_undoes _ _ _ hoffset
  obtain ⟨part₂, hpart₂, rfl⟩ := takeNat_undoes _ _ _ hglobals
  obtain ⟨part₃, hpart₃, rfl⟩ := (takeConstant_undoes offset).takeMany _ _ _ hconstants
  obtain ⟨part₄, hpart₄, rfl⟩ := takeDeclaration_undoes.takeMany _ _ _ hdeclarations
  obtain ⟨part₅, flag, hpart₅, hflag, rfl⟩ := flagged_of_takeType htype
  obtain ⟨part₆, hpart₆, rfl⟩ := takeBytes_undoes _ _ _ hcode
  generalize hu : (⟨UInt32.ofNat snippet, offset, constants, ⟨code.toArray⟩, declarations, globals,
    type⟩ : CompiledUnit) = u
  have hdeclared : u.declaredType = type := by rw [← hu]
  have hown : u.code.bytes.toList = code := by rw [← hu]
  have hflagged := flagged_append (magic ++ (version :: bigEndian 4 u.snippet.toNat) ++
    (part₁ ++ (part₂ ++ (part₃ ++ part₄)))) flag (hdeclared ▸ hpart₅) (hown ▸ hpart₆)
  refine ⟨⟨u.snippet, magic ++ (version :: bigEndian 4 u.snippet.toNat) ++
    (part₁ ++ (part₂ ++ (part₃ ++ (part₄ ++ (part₅ ++ part₆)))))⟩, flag, suffix, ?_, hflag, ?_⟩
  · subst hu
    simp only [serialize, hpart₁, hpart₂, hpart₃, hpart₄, hpart₅, hpart₆, bind, Except.bind]
  · simp only [List.append_assoc] at hflagged ⊢
    rw [hflagged, hbytes, hrest, hdeclared]
    subst hu
    simp [hid]

/-- The offsets of functions are not stored. -/
theorem serialize_rebased (u : CompiledUnit) : u.rebased.serialize = u.serialize := by
  have hconstant : ∀ v, encodeConstant (atOffset u.constantsOffset v) = encodeConstant v := by
    intro v
    cases v <;> rfl
  have hparts : (u.constants.map (atOffset u.constantsOffset)).mapM encodeConstant =
      u.constants.mapM encodeConstant := by
    rw [List.mapM_map]
    exact congrArg (u.constants.mapM ·) (funext hconstant)
  have hconstants : encodeMany encodeConstant (u.constants.map (atOffset u.constantsOffset)) =
      encodeMany encodeConstant u.constants := by
    unfold encodeMany
    rw [List.length_map, hparts]
  simp only [serialize, rebased, hconstants]

/-- A unit that was read has its own offset in all its functions. -/
theorem rebased_of_deserialize (h : deserialize bytes = .ok u) : u.rebased = u := by
  obtain ⟨stored, flag, suffix, hstored, hflag, rfl⟩ := eq_flagged_of_deserialize h
  rw [deserialize_flagged hstored hflag] at h
  exact Except.ok.inj h

/-- Bytes after a unit make no difference. -/
theorem deserialize_append (h : deserialize bytes = .ok u) (more : List UInt8) :
    deserialize (bytes ++ more) = .ok u := by
  have hrebased := rebased_of_deserialize h
  obtain ⟨stored, flag, suffix, hstored, hflag, rfl⟩ := eq_flagged_of_deserialize h
  rw [List.append_assoc, deserialize_flagged hstored hflag, hrebased]

/-- Bytes that break off before the end of a unit are not read. -/
theorem deserialize_take (h : u.serialize = .ok stored) {n : Nat} (hn : n < stored.data.length) :
    ∃ error, deserialize (stored.data.take n) = .error error := by
  cases hread : deserialize (stored.data.take n) with
  | error error => exact ⟨error, rfl⟩
  | ok u' =>
    -- What was read would be the whole unit, which is longer than what is there of it.
    have hwhole := deserialize_append hread (stored.data.drop n)
    rw [List.take_append_drop, deserialize_eq_rebased h] at hwhole
    obtain rfl := Except.ok.inj hwhole
    obtain ⟨stored', flag, suffix, hstored, -, hbytes⟩ := eq_flagged_of_deserialize hread
    obtain rfl : stored = stored' :=
      Except.ok.inj (h.symm.trans ((serialize_rebased u).symm.trans hstored))
    have hlength := congrArg List.length hbytes
    rw [List.length_append, length_flagged, List.length_take] at hlength
    omega

/-- Bytes are read as a unit exactly if they are those that are written for it, with any flag but
zero in front of its declared type and with any bytes after them; and its functions have its own pool
offset then. The flag that is written is one. Bytes that break off before the end of a unit are not
read. -/
theorem deserialize_language (u : CompiledUnit) :
    (∀ bytes, deserialize bytes = .ok u ↔ u.rebased = u ∧ ∃ stored flag suffix,
      u.serialize = .ok stored ∧ flag ≠ 0 ∧ bytes = u.flagged flag stored.data ++ suffix) ∧
    ∀ stored, u.serialize = .ok stored → u.flagged 1 stored.data = stored.data ∧
      ∀ n < stored.data.length, ∃ error, deserialize (stored.data.take n) = .error error := by
  constructor
  · intro bytes
    constructor
    · intro h
      exact ⟨rebased_of_deserialize h, eq_flagged_of_deserialize h⟩
    · rintro ⟨hrebased, stored, flag, suffix, hstored, hflag, rfl⟩
      rw [deserialize_flagged hstored hflag, hrebased]
  · intro stored hstored
    refine ⟨flagged_one hstored, ?_⟩
    intro n hn
    exact deserialize_take hstored hn

/-- A unit with constants of every kind, read with another flag and with a byte after it, and broken
off in its type. -/
theorem typed_deserialize_language :
    let u : CompiledUnit :=
      ⟨3, 2, [.int (-1), .str "é", .function ⟨⟨#[23]⟩, 2, 1, 1⟩], ⟨#[23]⟩, [⟨"a", 4⟩], 5, some "Int"⟩
    ∃ stored, u.serialize = .ok stored ∧
      deserialize (u.flagged 7 stored.data ++ [0]) = .ok u ∧
      ∃ error, deserialize (stored.data.take (stored.data.length - 6)) = .error error := by
  intro u
  have hok : u.serialize.isOk = true := by decide +kernel
  cases hstored : u.serialize with
  | error error =>
    rw [hstored] at hok
    cases hok
  | ok stored =>
    obtain ⟨hreads, hbreaks⟩ := deserialize_language u
    refine ⟨stored, rfl, (hreads _).mpr ⟨rfl, stored, 7, [0], hstored, by decide, rfl⟩, ?_⟩
    refine (hbreaks stored hstored).2 _ ?_
    obtain ⟨-, before, type, code, -, hcode, hdata⟩ := ends_of_serialize hstored
    have hlength : code.length = 4 + 1 := length_of_encodeBytes hcode
    rw [hdata, List.length_append, List.length_append]
    omega

end CompiledUnit

end Notebook
