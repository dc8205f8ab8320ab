import Notebook.Proofs.Compiler.Emission
import Notebook.Proofs.Compiler.WatchedBuilder

/-!
What a buffer remembers of its code.

A buffer keeps its last two instructions, and from them the compiler knows whether it can take a `Pop` back. After
a `Pop` was taken back the older of the two is out of date, and jumps are patched into code that is there already.

* `Buffer.Sound`: a buffer remembers what its code ends with.
* `Removal.Right`: what is taken back is one `Pop` that an expression statement ends with, and what is left is in
  order.
* `Watch.At.emit`, `Watch.At.patchJump`: a buffer that is laid out with what it remembers stays so.
-/

namespace Notebook

/-! ### What is remembered rightly -/

/-- Does a buffer remember the instruction that its code ends with, and none exactly if there is no code? Of the
instruction before that nothing is required: after a `Pop` was taken back it is out of date. -/
structure Buffer.Sound (b : Buffer) : Prop where
  none_iff : b.last = none ↔ b.code.size = 0
  last : ∀ e, b.last = some e → ∃ is i, b.code.Splits (is ++ [i]) ∧ e = ⟨i.opcode, codeSize is⟩

/-- Does a jump stand in the code as it was patched, and lead to a place that is not past the end? -/
structure Patch.Stands (code : Code) (p : Patch) : Prop where
  reads : ∃ op, (op = .jump ∨ op = .jumpNotTruthy) ∧ code.fetch p.position = .ok ⟨op, p.target, p.position + 3⟩
  inside : p.position + 3 ≤ code.size
  leads : p.target ≤ code.size

/-- Was the `Pop` of an expression statement taken back, the last of the statements that does anything? What is
left is the code that its value ends with, as it was before the `Pop`. The builders in between are named, so
this speaks of the very steps that were taken. -/
structure Removal.Right (r : Removal) : Prop where
  ends : ∃ earlier value later, r.block = earlier ++ .expr value :: later ∧ (∀ s ∈ later, s = .empty) ∧
    ∃ before valued inner around, Builder.stmts earlier r.start = .ok () before ∧
      Builder.expr value before = .ok () valued ∧ Builder.emit .pop [] valued = .ok () r.stop ∧
      valued.buffers = inner :: around ∧ r.left = ⟨inner.code, inner.last, inner.last⟩
  removes : ∃ inner around, r.stop.buffers = inner :: around ∧
    inner.code.bytes.toList = r.left.code.bytes.toList ++ [Opcode.pop.byte]
  patched : ∀ p ∈ r.patched, p.Stands r.left.code
  last : ∃ e, r.left.last = some e ∧ e.opcode ≠ .pop

/-! ### Instructions and what is remembered of them -/

/-- The last of some instructions, and where it starts. -/
def lastOf (is : List Instr) : Option Emitted :=
  is.getLast?.map fun i => ⟨i.opcode, codeSize is.dropLast⟩

@[simp] theorem lastOf_append (is : List Instr) (i : Instr) :
    lastOf (is ++ [i]) = some ⟨i.opcode, codeSize is⟩ := by
  simp [lastOf]

/-- What an operand is does not matter. -/
theorem lastOf_patched (is js : List Instr) (op : Opcode) (m n : Nat) :
    lastOf (is ++ ⟨op, m⟩ :: js) = lastOf (is ++ ⟨op, n⟩ :: js) := by
  rcases List.eq_nil_or_concat js with rfl | ⟨js, i, rfl⟩
  · rw [lastOf_append, lastOf_append]
  · have hsize := codeSize_patched is js op m n
    have happend (k : Nat) : is ++ ⟨op, k⟩ :: (js ++ [i]) = (is ++ ⟨op, k⟩ :: js) ++ [i] := by simp
    rw [List.concat_eq_append, happend, happend, lastOf_append, lastOf_append, hsize]

theorem Buffer.sound_of_splits {b : Buffer} {is : List Instr} (hsplits : b.code.Splits is)
    (hlast : b.last = lastOf is) : b.Sound := by
  have hsize := hsplits.size_eq
  rcases List.eq_nil_or_concat is with rfl | ⟨is, i, rfl⟩
  · exact ⟨⟨fun _ => hsize, fun _ => hlast⟩, fun e he => by rw [hlast] at he; cases he⟩
  · rw [List.concat_eq_append] at hsplits hlast hsize
    rw [lastOf_append] at hlast
    refine ⟨⟨fun h => ?_, fun h => ?_⟩, fun e he => ?_⟩
    · rw [hlast] at h
      cases h
    · rw [hsize, codeSize_append, codeSize_cons, Instr.size] at h
      omega
    · rw [hlast] at he
      cases he
      exact ⟨is, i, hsplits, rfl⟩

/-- What can be written is an instruction. -/
theorem exists_instr_of_encode {op : Opcode} {operands : List Nat} {bytes : List UInt8}
    (h : op.encode operands = .ok bytes) : ∃ i : Instr, i.opcode = op ∧ i.Fits ∧ bytes = i.bytes := by
  unfold Opcode.encode at h
  split at h
  · rename_i hwidth
    cases h
    exact ⟨⟨op, 0⟩, rfl, by simp [Instr.Fits, hwidth], by simp [Instr.bytes, Instr.operandBytes, hwidth]⟩
  · rename_i n hwidth
    split at h
    · rename_i hlt
      cases h
      exact ⟨⟨op, n⟩, rfl, by simpa [Instr.Fits, hwidth] using hlt,
        by simp [Instr.bytes, Instr.operandBytes, hwidth]⟩
    · cases h
  · rename_i n hwidth
    split at h
    · rename_i hlt
      cases h
      exact ⟨⟨op, n⟩, rfl, by simpa [Instr.Fits, hwidth] using hlt,
        by simp [Instr.bytes, Instr.operandBytes, hwidth]⟩
    · cases h
  · cases h

/-- What is read depends on three bytes at most. -/
theorem Code.fetch_congr {code code' : Code} {position : Nat}
    (h : ∀ k < 3, code'.bytes[position + k]? = code.bytes[position + k]?) :
    code'.fetch position = code.fetch position := by
  have h₀ := h 0 (by omega)
  have h₁ := h 1 (by omega)
  have h₂ : code'.bytes[position + 1 + 1]? = code.bytes[position + 1 + 1]? := h 2 (by omega)
  rw [Nat.add_zero] at h₀
  unfold Code.fetch Code.byte? Code.word?
  rw [h₀, h₁, h₂]

/-- What was written at the end is cut again. -/
theorem Code.take_append (code : Code) (bytes : List UInt8) : (code.append bytes).take code.size = code := by
  obtain ⟨code⟩ := code
  refine congrArg Code.mk (Array.toList_inj.mp ?_)
  simp [Code.append, Code.size]

/-! ### Patched jumps -/

theorem Patch.Stands.congr {code code' : Code} {p : Patch} (h : p.Stands code)
    (hbytes : ∀ k < 3, code'.bytes[p.position + k]? = code.bytes[p.position + k]?)
    (hsize : code.size ≤ code'.size) : p.Stands code' where
  reads := by
    rw [Code.fetch_congr hbytes]
    exact h.reads
  inside := Nat.le_trans h.inside hsize
  leads := Nat.le_trans h.leads hsize

theorem Patch.Stands.append {code : Code} {p : Patch} (h : p.Stands code) (bytes : List UInt8) :
    p.Stands (code.append bytes) := by
  have happend : (code.append bytes).bytes.toList = code.bytes.toList ++ bytes := by simp [Code.append]
  have hinside : p.position + 3 ≤ code.bytes.toList.length := h.inside
  refine h.congr (fun k hk => ?_) ?_
  · rw [← Array.getElem?_toList, ← Array.getElem?_toList, happend]
    exact List.getElem?_append_left (by omega)
  · rw [Code.size, Code.size, ← Array.length_toList, ← Array.length_toList, happend, List.length_append]
    exact Nat.le_add_right _ _

/-- Another jump that is patched apart from it leaves a jump as it stands. -/
theorem Patch.Stands.patched {code code' : Code} {p : Patch} {position n : Nat} (h : p.Stands code)
    (hpatched : code.Patched position n code')
    (hapart : p.position + 3 ≤ position ∨ position + 3 ≤ p.position) : p.Stands code' := by
  have hinside := h.inside
  refine h.congr (fun k hk => ?_) ?_
  · exact hpatched.others (p.position + k) (by omega) (by omega) (by omega)
  · rw [hpatched.size]
    exact Nat.le_max_left _ _

/-- Is the code of a buffer made of these instructions, is the last of them remembered, and do the jumps that
have been patched stand? This is the invariant that each step of building keeps; that the buffer is sound
follows. -/
structure Buffer.Laid (is : List Instr) (b : Buffer) (ps : List Patch) : Prop where
  splits : b.code.Splits is
  last : b.last = lastOf is
  stands : ∀ p ∈ ps, p.Stands b.code

namespace Buffer

variable {is js : List Instr} {b b' : Buffer} {ps : List Patch}

theorem Laid.sound (h : Laid is b ps) : b.Sound := sound_of_splits h.splits h.last

theorem laid_nil : Laid [] {} [] := ⟨⟨rfl, nofun⟩, rfl, nofun⟩

theorem Laid.size_eq (h : Laid is b ps) : b.code.size = codeSize is := h.splits.size_eq

theorem Laid.endsWith {i : Instr} (h : Laid (is ++ [i]) b ps) (op : Opcode) :
    b.endsWith op = (i.opcode == op) := by
  rw [Buffer.endsWith, h.last, lastOf_append]

theorem Laid.append (h : Laid is b ps) {i : Instr} (hi : i.Fits) :
    Laid (is ++ [i]) ⟨b.code.append i.bytes, some ⟨i.opcode, b.code.size⟩, b.last⟩ ps where
  splits := by
    refine ⟨?_, List.forall_mem_append.mpr ⟨h.splits.2, List.forall_mem_singleton.mpr hi⟩⟩
    simp [Code.append, h.splits.1]
  last := by rw [lastOf_append, h.size_eq]
  stands p hp := (h.stands p hp).append _

theorem Laid.emit (h : Laid is b ps) {op : Opcode} {operands : List Nat}
    (hemit : Buffer.emit op operands b = .ok b') : ∃ i, i.opcode = op ∧ Laid (is ++ [i]) b' ps := by
  obtain ⟨code, last, previous⟩ := b
  unfold Buffer.emit at hemit
  cases hencode : op.encode operands with
  | error cause =>
    rw [hencode] at hemit
    cases hemit
  | ok bytes =>
    obtain ⟨i, rfl, hi, rfl⟩ := exists_instr_of_encode hencode
    rw [hencode] at hemit
    cases hemit
    exact ⟨i, rfl, h.append hi⟩

/-- A jump is patched that is apart from those that have been. Code that was split into instructions before is
so afterwards, and remembers the same last instruction. -/
theorem Laid.patchJump {op : Opcode} {m : Nat} (h : Laid (is ++ ⟨op, m⟩ :: js) b ps)
    (hop : op = .jump ∨ op = .jumpNotTruthy)
    (hapart : ∀ p ∈ ps, p.position + 3 ≤ codeSize is ∨ codeSize is + 3 ≤ p.position)
    (hpatch : Buffer.patchJump (codeSize is) b = .ok b') :
    Laid (is ++ ⟨op, b.code.size⟩ :: js) b' (⟨codeSize is, b.code.size⟩ :: ps) := by
  have hword : op.operandWidth = .word := by
    rcases hop with rfl | rfl <;> rfl
  obtain ⟨code, last, previous⟩ := b
  unfold Buffer.patchJump at hpatch
  simp only at hpatch
  cases hcode : code.patchWord (codeSize is) code.size with
  | error cause =>
    rw [hcode] at hpatch
    cases hpatch
  | ok code' =>
    rw [hcode] at hpatch
    cases hpatch
    -- Patching replaces one instruction by another of the same size, so the places of all others stay.
    have hsplits := (h.splits.patchWord_iff hword).mp hcode
    have hpatched := Code.patchWord_eq_ok_iff.mp hcode
    refine ⟨hsplits, h.last.trans (lastOf_patched is js op m code.size), fun p hp => ?_⟩
    rcases List.mem_cons.mp hp with rfl | hp
    · -- The jump itself leads to the end of the code. It stands where its instruction does.
      have hfetch := (Code.holds_append.mp hsplits.holds).2.1
      have hsize := hpatched.size
      rw [Nat.zero_add, Instr.size_of_word hword] at hfetch
      refine ⟨⟨op, hop, hfetch⟩, ?_, ?_⟩
      · show codeSize is + 3 ≤ code'.size
        omega
      · show code.size ≤ code'.size
        omega
    · exact (h.stands p hp).patched hpatched (hapart p hp)

end Buffer

namespace Watch

/-! ### What building comes to -/

/-- Have all buffers remembered rightly until now, and was every removal right? This looks back over all the
moments of the watch, where `At` only says how things are now. -/
structure Good (w : Watch) : Prop where
  moments : ∀ b ∈ w.moments, ∀ buffer ∈ b.buffers, buffer.Sound
  buffers : ∀ buffer ∈ w.builder.buffers, buffer.Sound
  removals : ∀ r ∈ w.removals, r.Right

/-- Is the innermost buffer made of these instructions, and are the others these? The others are given as a
whole, since building inside of a function does not touch them. -/
structure At (around : List Buffer) (pss : List (List Patch)) (is : List Instr) (b : Buffer)
    (ps : List Patch) (w : Watch) : Prop where
  buffers : w.builder.buffers = b :: around
  patched : w.patched = ps :: pss
  laid : b.Laid is ps

/-- Building goes well: it succeeds with something that is so, or it fails. In either case nothing was
remembered wrongly on the way, so a failure deep inside is no exception. -/
inductive Holds {α : Type} (Q : α → Watch → Prop) : EStateM.Result BuildError Watch α → Prop where
  | ok {a : α} {w : Watch} : Good w → Q a w → Holds Q (.ok a w)
  | error {cause : BuildError} {w : Watch} : Good w → Holds Q (.error cause w)

section

variable {α β : Type} {Q R : α → Watch → Prop} {w w' : Watch}

theorem Holds.good_of_ok {m : EStateM.Result BuildError Watch α} {a : α} (h : Holds Q m)
    (hm : m = .ok a w') : Good w' ∧ Q a w' := by
  subst hm
  cases h with
  | ok hgood hQ => exact ⟨hgood, hQ⟩

theorem Holds.imp {m : EStateM.Result BuildError Watch α} (h : Holds Q m)
    (himp : ∀ a w, Q a w → R a w) : Holds R m := by
  cases h with
  | ok hgood hQ => exact .ok hgood (himp _ _ hQ)
  | error hgood => exact .error hgood

theorem Holds.known {m : EStateM.Result BuildError Watch α} (h : Holds Q m) :
    Holds (fun a w => m = .ok a w ∧ Q a w) m := by
  cases h with
  | ok hgood hQ => exact .ok hgood ⟨rfl, hQ⟩
  | error hgood => exact .error hgood

theorem Holds.bind {T : β → Watch → Prop} {m : Watched α} {next : α → Watched β} (h : Holds Q (m w))
    (hnext : ∀ a w', m w = .ok a w' → Good w' → Q a w' → Holds T (next a w')) :
    Holds T ((m >>= next) w) := by
  rw [bind_eq]
  cases hm : m w with
  | ok a w' =>
    obtain ⟨hgood, hQ⟩ := h.good_of_ok hm
    exact hnext a w' hm hgood hQ
  | error cause w' =>
    rw [hm] at h
    cases h with
    | error hgood => exact .error hgood

/-- The builder becomes another one. -/
theorem Good.turn (hgood : Good w) {builder : Builder} (hsound : ∀ buffer ∈ builder.buffers, buffer.Sound)
    (patched : List (List Patch)) : Good ⟨builder, patched, builder :: w.moments, w.removals⟩ :=
  ⟨List.forall_mem_cons.mpr ⟨hsound, hgood.moments⟩, hsound, hgood.removals⟩

/-- A change of the builder after which its buffers still remember rightly. -/
theorem does_holds {m : Build α} (hgood : Good w)
    (hok : ∀ a b, m w.builder = .ok a b → (∀ buffer ∈ b.buffers, buffer.Sound) ∧
      Q a { w with builder := b, moments := b :: w.moments })
    (herror : ∀ cause b, m w.builder = .error cause b → ∀ buffer ∈ b.buffers, buffer.Sound) :
    Holds Q (does m w) := by
  unfold does
  cases hm : m w.builder with
  | ok a b =>
    obtain ⟨hsound, hQ⟩ := hok a b hm
    exact .ok (hgood.turn hsound _) hQ
  | error cause b => exact .error (hgood.turn (herror cause b hm) _)

end

section

variable {α : Type} {around : List Buffer} {pss : List (List Patch)} {is js : List Instr} {b : Buffer}
  {ps : List Patch} {w w' : Watch}

/-- Does a step leave the buffers alone? -/
def Quiet (m : Build α) : Prop :=
  ∀ b, match m b with | .ok _ b' | .error _ b' => b'.buffers = b.buffers

theorem At.quiet {m : Build α} (hm : Quiet m) (hgood : Good w) (h : At around pss is b ps w) :
    Holds (fun a w' => At around pss is b ps w' ∧ m w.builder = .ok a w'.builder) (does m w) := by
  have hquiet := hm w.builder
  refine does_holds hgood (fun a b hok => ?_) (fun cause b herror => ?_)
  · rw [hok] at hquiet
    refine ⟨fun buffer hbuffer => hgood.buffers buffer (hquiet ▸ hbuffer), ⟨?_, h.patched, h.laid⟩, hok⟩
    exact hquiet.trans h.buffers
  · rw [herror] at hquiet
    exact fun buffer hbuffer => hgood.buffers buffer (hquiet ▸ hbuffer)

theorem At.around_sound (hgood : Good w) (h : At around pss is b ps w) :
    ∀ buffer ∈ around, buffer.Sound := fun buffer hbuffer =>
  hgood.buffers buffer (h.buffers ▸ List.mem_cons_of_mem _ hbuffer)

/-- The innermost buffer is changed. -/
theorem At.onBuffer {change : Buffer → Except OperandError Buffer} (hgood : Good w)
    (h : At around pss is b ps w) (hchange : ∀ b', change b = .ok b' → b'.Sound) :
    Holds (fun _ w' => ∃ b', change b = .ok b' ∧ w'.builder.buffers = b' :: around ∧ w'.patched = ps :: pss)
      (does (Builder.onBuffer change) w) := by
  have hbuffers := h.buffers
  have haround := h.around_sound hgood
  -- Changing the innermost buffer succeeds exactly if the change does, and leaves the buffers alone if not.
  refine does_holds hgood (fun a b₁ hok => ?_) (fun cause b₁ herror => ?_)
  · unfold Builder.onBuffer at hok
    rw [hbuffers] at hok
    simp only at hok
    cases hb : change b with
    | error cause =>
      rw [hb] at hok
      cases hok
    | ok b' =>
      rw [hb] at hok
      cases hok
      exact ⟨List.forall_mem_cons.mpr ⟨hchange b' hb, haround⟩, b', rfl, rfl, h.patched⟩
  · unfold Builder.onBuffer at herror
    rw [hbuffers] at herror
    simp only at herror
    cases hb : change b with
    | error cause =>
      rw [hb] at herror
      cases herror
      exact hgood.buffers
    | ok b' =>
      rw [hb] at herror
      cases herror

theorem At.emit (hgood : Good w) (h : At around pss is b ps w) (op : Opcode) (operands : List Nat) :
    Holds (fun _ w' => ∃ i b', i.opcode = op ∧ At around pss (is ++ [i]) b' ps w') (emit op operands w) := by
  have hlaid : ∀ b', Buffer.emit op operands b = .ok b' → ∃ i, i.opcode = op ∧ b'.Laid (is ++ [i]) ps :=
    fun b' hb => h.laid.emit hb
  refine (h.onBuffer hgood fun b' hb => (hlaid b' hb).choose_spec.2.sound).imp ?_
  rintro - w' ⟨b', hb, hbuffers, hpatched⟩
  obtain ⟨i, hi, hlaid⟩ := hlaid b' hb
  exact ⟨i, b', hi, hbuffers, hpatched, hlaid⟩

theorem quiet_here : Quiet Builder.here := by
  rintro ⟨buffers, offset, constants, scope, declarations⟩
  cases buffers <;> rfl

theorem quiet_endsWith (op : Opcode) : Quiet (Builder.endsWith op) := by
  rintro ⟨buffers, offset, constants, scope, declarations⟩
  cases buffers <;> rfl

/-- Where the innermost buffer ends. -/
theorem At.here (hgood : Good w) (h : At around pss is b ps w) :
    Holds (fun position w' => position = codeSize is ∧ At around pss is b ps w') (does Builder.here w) := by
  refine (h.quiet quiet_here hgood).imp ?_
  rintro position w' ⟨hat, hhere⟩
  refine ⟨?_, hat⟩
  have hbuffers := h.buffers
  rw [← h.laid.size_eq]
  generalize w.builder = builder at hhere hbuffers
  obtain ⟨buffers, offset, constants, scope, declarations⟩ := builder
  cases hbuffers
  injection hhere with hposition
  exact hposition.symm

theorem At.endsWith (hgood : Good w) (h : At around pss is b ps w) (op : Opcode) :
    Holds (fun ends w' => ends = b.endsWith op ∧ At around pss is b ps w' ∧ w'.builder = w.builder)
      (does (Builder.endsWith op) w) := by
  refine (h.quiet (quiet_endsWith op) hgood).imp ?_
  rintro ends w' ⟨hat, hends⟩
  have hbuffers := h.buffers
  generalize w.builder = builder at hends hbuffers ⊢
  obtain ⟨buffers, offset, constants, scope, declarations⟩ := builder
  cases hbuffers
  injection hends with hends hbuilder
  exact ⟨hends.symm, hat, hbuilder.symm⟩

theorem At.patchJump {op : Opcode} {m : Nat} (hgood : Good w)
    (h : At around pss (is ++ ⟨op, m⟩ :: js) b ps w) (hop : op = .jump ∨ op = .jumpNotTruthy)
    (hapart : ∀ p ∈ ps, p.position + 3 ≤ codeSize is ∨ codeSize is + 3 ≤ p.position) :
    Holds (fun _ w' => ∃ t b', At around pss (is ++ ⟨op, t⟩ :: js) b' (⟨codeSize is, t⟩ :: ps) w')
      (patchJump (codeSize is) w) := by
  refine (h.here hgood).bind ?_
  rintro target w₁ - hgood ⟨rfl, h⟩
  have hlaid : ∀ b', Buffer.patchJump (codeSize is) b = .ok b' → _ := fun b' hb =>
    h.laid.patchJump hop hapart hb
  refine (h.onBuffer hgood fun b' hb => (hlaid b' hb).sound).bind ?_
  rintro - w₂ - hgood ⟨b', hb, hbuffers, hpatched⟩
  refine .ok ⟨hgood.moments, hgood.buffers, hgood.removals⟩ ⟨_, b', hbuffers, ?_, h.laid.size_eq ▸ hlaid b' hb⟩
  show w₂.patched.modifyHead _ = _
  rw [hpatched]
  rfl

end

end Watch

end Notebook
