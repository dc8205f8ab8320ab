import Notebook.Proofs.Bytecode.FunctionSameness
import Notebook.Proofs.Store.StoreGrowth

/-!
A snippet by itself, and the same commands at the end of a longer one.

The code is at another place there, and its constants are at other places of another pool. Functions
count as the same if `FunctionCode.Same` holds of them.

* `World.mirrored_sound`: functions that are the same in this sense read the same instructions.
* `EndsAlike.finishes`: if the longer snippet runs to its end from where these commands begin in it,
  then so does the shorter one, with the same value and the same globals.
-/

namespace Notebook

/-- A world beside one with this pool. Globals and functions are the same in both, but for where constants are.
Functions that are the same need not be equal, which is why only data may be compared. -/
def World.mirrored (w : World) (constants : Array Value) : Pairing where
  setting := w.setting
  setting' := ⟨constants, w.setting.maxFrames⟩
  same f f' := w.Known f ∧ FunctionCode.Same w.setting.constants constants f f'
  globals g g' := g.size = w.globals ∧
    Stacked (fun f f' => w.Known f ∧ FunctionCode.Same w.setting.constants constants f f') g g'

section

variable {w : World} {constants : Array Value} {f f' : FunctionCode} {v v' : Value} {i i' : Instr}

theorem World.mirrored_related (h : v.Related (FunctionCode.Same w.setting.constants constants) v')
    (hv : v.MadeOf w.Known) : v.Related (w.mirrored constants).same v' :=
  h.imp fun f hf _ hsame => ⟨hv f hf, hsame⟩

/-- Operands mean the same if they are equal, or name constants that are the same. -/
theorem World.mirrored_means {top : Bool} (hmeets : i.Meets (·.Allowed (w.bounds f top)))
    (hconstant : i.opcode = .constant → ∃ v v',
      w.setting.constants[f.constantsOffset + i.operand]? = some v ∧
      constants[f'.constantsOffset + i'.operand]? = some v' ∧
      v.Related (FunctionCode.Same w.setting.constants constants) v')
    (hother : i.opcode ≠ .constant → i.opcode.jumps = false → i.operand = i'.operand) :
    (w.mirrored constants).Means i.opcode f f' i.operand i'.operand := by
  unfold Instr.Meets at hmeets
  unfold Pairing.Means
  -- Constants are compared as values and globals are read at the same slot; all other operands are equal.
  cases hop : i.opcode <;> simp only [hop] at hmeets hconstant hother ⊢
  case constant =>
    obtain ⟨v, hv, hmade⟩ := hmeets
    obtain ⟨v₁, v', hv₁, hv', hrelated⟩ := hconstant trivial
    cases hv.symm.trans hv₁
    exact ⟨v, v', hv, hv', World.mirrored_related hrelated hmade⟩
  case getGlobal =>
    rintro g g' ⟨hsize, hstacked⟩
    rw [← hother nofun rfl]
    have hslot := hstacked.getElem? i.operand
    have hlt : i.operand < g.size := hsize ▸ hmeets
    rw [Array.getElem?_eq_getElem hlt] at hslot ⊢
    generalize g'[i.operand]? = o at hslot
    cases hslot with
    | some hrelated => exact ⟨_, _, rfl, rfl, hrelated⟩
  case setGlobal =>
    rintro g g' v v' ⟨hsize, hstacked⟩ hv
    have hlt : i.operand < g.size := hsize ▸ hmeets.1
    rw [← hother nofun rfl]
    unfold Machine.assign
    rw [if_pos hlt, if_pos (hstacked.size_eq ▸ hlt)]
    exact ⟨by rw [Array.size_setIfInBounds, hsize], hstacked.set hv _⟩
  all_goals first | trivial | exact hother nofun rfl

/-- The code of functions that are the same is matched. -/
theorem World.mirrored_matched (hw : w.Linked) (hf : w.Known f)
    (hsame : FunctionCode.Same w.setting.constants constants f f') (base : Nat) :
    (w.mirrored constants).Matched ⟨f, 0, base⟩ ⟨f', 0, base⟩ := by
  obtain ⟨r, hr, rfl⟩ := hf
  obtain ⟨hlaid, -, -, huses⟩ := hw r hr
  -- The other function has instructions in the same places, each like the one of this function.
  obtain ⟨is', hsplits', halike⟩ := hsame.instrs hlaid
  obtain ⟨hstart, hmeets, hgoes, height, -, hbalanced⟩ := (leaving_of_body r.body 0 huses).closed
  refine ⟨Pairing.Along r.code f' 0 0 fun q => ∃ i, Stands 0 (layoutBody r.body 0) q i,
    Pairing.along_closed hlaid.holds hsplits'.holds ?_ (fun q _ hq _ => hq) hgoes ?_,
    rfl, rfl, rfl, rfl, hstart⟩
  · refine ((List.forall₂_and_left _ _).mpr ⟨hmeets, halike⟩).imp ?_
    rintro i i' ⟨hi, hitem⟩
    have hequal : i.opcode ≠ .constant → i = i' := by
      intro hop
      rcases hitem.cases with ⟨hconstant, -⟩ | ⟨-, hequal⟩
      · exact absurd hconstant hop
      · exact hequal
    refine ⟨hitem.opcode_eq, World.mirrored_means hi ?_ fun hop _ => ?_, fun hjumps => ?_⟩
    · intro hop
      rcases hitem.cases with ⟨-, -, hconstant⟩ | ⟨hnot, -⟩
      · exact hconstant
      · exact absurd hop hnot
    · rw [hequal hop]
    · rw [hequal]
      intro hop
      rw [hop] at hjumps
      cases hjumps
  · intro q i hi hjumps
    exact (hbalanced.jumps q i hi hjumps).2.1

/-- All that is known means the same in the other world. -/
theorem World.mirrored_sound (hw : w.Linked) (constants : Array Value) :
    (w.mirrored constants).Sound where
  maxFrames := rfl
  params _ _ hsame := hsame.2.params_eq
  locals _ _ hsame := hsame.2.locals_eq
  starts _ _ hsame base := World.mirrored_matched hw hsame.1 hsame.2 base

end

/-- What a snippet, in its world, and a longer one have in common: at `start` the code of the longer one is that
of the shorter one, with `d` constants in front of those that they share. Where jumps lead moves with the
code. -/
structure EndsAlike (w : World) (main : FunctionCode) (cs : List Command)
    (constants : Array Value) (main' : FunctionCode) (d start : Nat) : Prop where
  linked : w.Linked
  locals : main.locals = 0
  constants : ∀ index v, Use.constant index v ∈ usesOfCommands cs →
    ∃ v', constants[main'.constantsOffset + (index + d)]? = some v' ∧
      v.Related (FunctionCode.Same w.setting.constants constants) v'
  uses : ∀ u ∈ usesOfCommands cs, u.Allowed (w.bounds main true)
  code : main.code.Holds 0 (layoutProgram cs 0)
  code' : main'.code.Holds start ((layoutProgram cs 0).map (Instr.relocate d 0 start))

namespace EndsAlike

variable {w : World} {main main' : FunctionCode} {cs : List Command} {constants : Array Value}
variable {d start : Nat}

/-- Both outermost frames are at the same place of the code that the snippets share. -/
def Places (main main' : FunctionCode) (cs : List Command) (start : Nat) : Frame → Frame → Prop :=
  Pairing.Along main main' 0 start fun q => ∃ i, Stands 0 (layoutProgram cs 0) q i

/-- The same is read from both snippets. -/
theorem closed (h : EndsAlike w main cs constants main' d start) :
    (w.mirrored constants).Closed Pairing.never (Places main main' cs start) := by
  obtain ⟨-, hmeets, hgoes, height, -, hbalanced⟩ :=
    (leaving_of_program (P := (· ∈ usesOfCommands cs)) cs 0 fun _ hu => hu).closed
  refine Pairing.along_closed h.code h.code' ?_ (fun q _ hq _ => hq) hgoes ?_
  · rw [List.forall₂_map_right_iff, List.forall₂_same]
    intro i hi
    have hallowed := (hmeets i hi).mono h.uses
    refine ⟨rfl, World.mirrored_means hallowed ?_ fun hop hjumps => ?_, fun hjumps => ?_⟩
    · intro hop
      obtain ⟨v, hv⟩ : ∃ v, Use.constant i.operand v ∈ usesOfCommands cs := by
        simpa only [Instr.Meets, hop] using hmeets i hi
      obtain ⟨v', hv', hrelated⟩ := h.constants _ v hv
      have hoperand : (i.relocate d 0 start).operand = i.operand + d := by
        simp only [Instr.relocate, hop]
      rw [hoperand]
      exact ⟨v, v', (h.uses _ hv).1, hv', hrelated⟩
    · obtain ⟨op, operand⟩ := i
      cases op <;> first | rfl | exact absurd rfl hop | cases hjumps
    · obtain ⟨op, operand⟩ := i
      cases op <;> first | rfl | cases hjumps
  · intro q i hi hjumps
    exact (hbalanced.jumps q i hi hjumps).2.1

/-- If the longer snippet runs to its end from where these commands begin in it, then so does the
shorter one, with the same value and the same globals. -/
theorem finishes (h : EndsAlike w main cs constants main' d start) {g g' : Array Value}
    (hfits : w.Fits g) (hglobals : Stacked (FunctionCode.Same w.setting.constants constants) g g')
    (hcompare : (w.mirrored constants).ComparesFrom g' ⟨⟨main', start, 0⟩, [], #[]⟩)
    {value' : Option Value} {g₁' : Array Value}
    (hrun : Machine.run ⟨constants, w.setting.maxFrames⟩ g' ⟨⟨main', start, 0⟩, [], #[]⟩ =
      ⟨.ok value', g₁'⟩) :
    ∃ value g₁, Semantics.run w.routines w.setting.maxFrames cs g = ⟨.ok value, g₁⟩ ∧
      Option.Rel (Value.Related (FunctionCode.Same w.setting.constants constants)) value value' ∧
      Stacked (FunctionCode.Same w.setting.constants constants) g₁ g₁' := by
  obtain ⟨hends, -⟩ := ends_program h.linked h.locals h.code h.uses hfits
  obtain ⟨hstart, -⟩ :=
    (leaving_of_program (P := (· ∈ usesOfCommands cs)) cs 0 fun _ hu => hu).closed
  -- Both machines stand where these commands begin, with nothing on their stacks, and are paired from there on.
  have hpaired : (w.mirrored constants).Paired (Places main main' cs start)
      ⟨⟨main, 0, 0⟩, [], #[]⟩ ⟨⟨main', start, 0⟩, [], #[]⟩ :=
    ⟨.outermost ⟨rfl, rfl, rfl, Nat.add_comm 0 start, hstart⟩, .empty⟩
  have hstarts : (w.mirrored constants).globals g g' :=
    ⟨hfits.1, hglobals.imp fun v hv f hf _ hsame => ⟨hfits.2 v hv f hf, hsame⟩⟩
  obtain ⟨ran', hran', hresults, hleft⟩ :=
    hpaired.ends (World.mirrored_sound h.linked constants) h.closed hstarts hcompare hends
  obtain rfl : ran' = ⟨.ok value', g₁'⟩ := (Machine.run_of_ends hran').symm.trans hrun
  generalize Semantics.run w.routines w.setting.maxFrames cs g = ran at hresults hleft
  obtain ⟨result, g₁⟩ := ran
  cases hresults with
  | ok hvalue =>
    refine ⟨_, g₁, rfl, ?_, hleft.2.imp fun _ _ _ _ _ hsame => hsame.2⟩
    cases hvalue with
    | some hrelated => exact .some (hrelated.imp fun _ _ _ hsame => hsame.2)
    | none => exact .none

end EndsAlike

end Notebook
