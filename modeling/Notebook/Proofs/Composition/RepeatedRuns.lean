import Notebook.Proofs.Bytecode.Relocation
import Notebook.Proofs.Compiler.WellFormedCode
import Notebook.Proofs.Machine.LockstepRuns

/-!
Runs of the same snippet where there are other globals in front.

`World.Repeats k` says that functions of a world are the same elsewhere, but for the slots of globals,
which are `k` further on, and for where their constants are. Unlike those of `FunctionCode.Same` these
are the functions of a single unit. They are the same one to one, so it makes no difference if programs
compare them.

* `World.Repeats.sound`: functions that are the same in this sense read the same instructions.
* `World.Repeats.ends`: if a snippet comes to its end in the world, then so does the same snippet
  elsewhere, in the same way.
-/

namespace Notebook

/-- A world beside another one, which has these constants, and `k` globals more in front. Nothing is said of
those in front, since a closed program does not reach them. -/
def World.raised (w : World) (k : Nat) (constants : Array Value)
    (same : FunctionCode → FunctionCode → Prop) : Pairing where
  setting := w.setting
  setting' := ⟨constants, w.setting.maxFrames⟩
  same := same
  globals g g' := g.size = w.globals ∧
    ∀ i : Nat, Option.Rel (Value.Related same) g[i]? g'[i + k]?

/-- Are functions of a world the same elsewhere? Their constants are in the pool from `offset` on, and elsewhere
from `offset'` on. The code of a function elsewhere is that of its body with the globals moved. -/
structure World.Repeats (w : World) (k offset offset' : Nat) (constants : Array Value)
    (same : FunctionCode → FunctionCode → Prop) : Prop where
  linked : w.Linked
  functions : ∀ f f', same f f' → ∃ r ∈ w.routines, r.code = f ∧ f.params = f'.params ∧
    f.locals = f'.locals ∧ f.constantsOffset = offset ∧ f'.constantsOffset = offset' ∧
    f'.code.Splits ((layoutBody r.body 0).map (Instr.relocate 0 k 0))
  constants : ∀ (index : Nat) (v : Value), w.setting.constants[offset + index]? = some v →
    ∃ v', constants[offset' + index]? = some v' ∧ v.Related same v'

theorem FunctionCode.eq_of_parts {f g : FunctionCode} (hcode : f.code = g.code)
    (hoffset : f.constantsOffset = g.constantsOffset) (hlocals : f.locals = g.locals)
    (hparams : f.params = g.params) : f = g := by
  obtain ⟨code, offset, locals, params⟩ := f
  cases hcode
  cases hoffset
  cases hlocals
  cases hparams
  rfl

namespace World.Repeats

variable {w : World} {k offset offset' : Nat} {constants : Array Value}
variable {same : FunctionCode → FunctionCode → Prop} {f f' : FunctionCode} {i : Instr}

/-- Functions are the same one to one: their code tells what it is elsewhere, and the other way
round. -/
theorem biUnique (h : w.Repeats k offset offset' constants same) : Relator.BiUnique same := by
  have hinjective : Function.Injective (List.map (Instr.relocate 0 k 0)) :=
    List.map_injective_iff.mpr (Instr.relocate_injective 0 k 0)
  constructor
  · intro f g f' hf hg
    obtain ⟨r, hr, rfl, hparams, hlocals, hoffset, -, hsplits⟩ := h.functions f f' hf
    obtain ⟨q, hq, rfl, hparams', hlocals', hoffset', -, hsplits'⟩ := h.functions g f' hg
    have hlayout : layoutBody r.body 0 = layoutBody q.body 0 := hinjective (hsplits.unique hsplits')
    have hlaid : r.code.code.Splits (layoutBody q.body 0) := hlayout ▸ (h.linked r hr).1
    exact FunctionCode.eq_of_parts (hlaid.eq (h.linked q hq).1) (hoffset.trans hoffset'.symm)
      (hlocals.trans hlocals'.symm) (hparams.trans hparams'.symm)
  · intro f f' g' hf hg
    obtain ⟨r, hr, hcode, hparams, hlocals, -, hoffset, hsplits⟩ := h.functions f f' hf
    obtain ⟨q, hq, rfl, hparams', hlocals', -, hoffset', hsplits'⟩ := h.functions f g' hg
    have hlaid : q.code.code.Splits (layoutBody r.body 0) := hcode ▸ (h.linked r hr).1
    have hlayout : layoutBody r.body 0 = layoutBody q.body 0 := hlaid.unique (h.linked q hq).1
    rw [hlayout] at hsplits
    exact FunctionCode.eq_of_parts (hsplits.eq hsplits') (hoffset.trans hoffset'.symm)
      (hlocals.symm.trans hlocals') (hparams.symm.trans hparams')

/-- An assignment of corresponding globals leaves them the same. Globals that are not assigned keep their values
on both sides. -/
theorem assign (h : i.operand < w.globals) {g g' : Array Value}
    (hglobals : (w.raised k constants same).globals g g') {v v' : Value} (hv : v.Related same v') :
    (w.raised k constants same).globals (Machine.assign g i.operand v)
      (Machine.assign g' (i.operand + k) v') := by
  obtain ⟨hsize, hslots⟩ := hglobals
  have hlt : i.operand < g.size := hsize ▸ h
  have hlt' : i.operand + k < g'.size := by
    have hslot := hslots i.operand
    rw [Array.getElem?_eq_getElem hlt] at hslot
    generalize hget : g'[i.operand + k]? = o at hslot
    cases hslot
    exact (Array.getElem?_eq_some_iff.mp hget).1
  unfold Machine.assign
  rw [if_pos hlt, if_pos hlt']
  refine ⟨by rw [Array.size_setIfInBounds, hsize], ?_⟩
  intro j
  by_cases hj : i.operand = j
  · subst hj
    rw [Array.getElem?_setIfInBounds_self_of_lt hlt, Array.getElem?_setIfInBounds_self_of_lt hlt']
    exact .some hv
  · rw [Array.getElem?_setIfInBounds_ne hj, Array.getElem?_setIfInBounds_ne (by omega)]
    exact hslots j

/-- The operand of an instruction within the bounds of its function means the same elsewhere. -/
theorem means (h : w.Repeats k offset offset' constants same) (hf : f.constantsOffset = offset)
    (hf' : f'.constantsOffset = offset') {top : Bool}
    (hmeets : i.Meets (·.Allowed (w.bounds f top))) :
    (w.raised k constants same).Means i.opcode f f' i.operand (i.relocate 0 k 0).operand := by
  obtain ⟨op, operand⟩ := i
  cases op
  case constant =>
    obtain ⟨v, hv, -⟩ := hmeets
    obtain ⟨v', hv', hrelated⟩ := h.constants operand v (hf ▸ hv)
    exact ⟨v, v', hv, hf' ▸ hv', hrelated⟩
  case getGlobal =>
    rintro g g' ⟨hsize, hslots⟩
    have hlt : operand < g.size := hsize ▸ hmeets
    have hslot := hslots operand
    show ∃ v v', _ ∧ g'[operand + k]? = _ ∧ _
    rw [Array.getElem?_eq_getElem hlt] at hslot ⊢
    generalize g'[operand + k]? = o at hslot
    cases hslot with
    | some hrelated => exact ⟨_, _, rfl, rfl, hrelated⟩
  case setGlobal =>
    intro g g' v v' hglobals hv
    exact assign (i := ⟨.setGlobal, operand⟩) hmeets.1 hglobals hv
  all_goals trivial

/-- Code that leaves at its end is matched with what it is elsewhere. -/
theorem matched (h : w.Repeats k offset offset' constants same) (hf : f.constantsOffset = offset)
    (hf' : f'.constantsOffset = offset') {is : List Instr} {P : Use → Prop} {top : Bool}
    (hcode : f.code.Holds 0 is) (hcode' : f'.code.Holds 0 (is.map (Instr.relocate 0 k 0)))
    (hleaving : Leaving P 0 is) (hallowed : ∀ u, P u → u.Allowed (w.bounds f top)) (base : Nat) :
    (w.raised k constants same).Matched ⟨f, 0, base⟩ ⟨f', 0, base⟩ := by
  obtain ⟨hstart, hmeets, hgoes, height, -, hbalanced⟩ := hleaving.closed
  refine ⟨Pairing.Along f f' 0 0 fun q => ∃ i, Stands 0 is q i,
    Pairing.along_closed hcode hcode' ?_ (fun q _ hq _ => hq) hgoes ?_, rfl, rfl, rfl, rfl, hstart⟩
  · rw [List.forall₂_map_right_iff, List.forall₂_same]
    intro i hi
    refine ⟨rfl, h.means hf hf' ((hmeets i hi).mono hallowed), ?_⟩
    intro hjumps
    obtain ⟨op, operand⟩ := i
    cases op <;> first | rfl | cases hjumps
  · intro q i hi hjumps
    exact (hbalanced.jumps q i hi hjumps).2.1

/-- Functions that are the same do the same. -/
theorem sound (h : w.Repeats k offset offset' constants same) :
    (w.raised k constants same).Sound where
  maxFrames := rfl
  params f f' hsame := by
    obtain ⟨-, -, -, hparams, -⟩ := h.functions f f' hsame
    exact hparams
  locals f f' hsame := by
    obtain ⟨-, -, -, -, hlocals, -⟩ := h.functions f f' hsame
    exact hlocals
  starts f f' hsame base := by
    obtain ⟨r, hr, rfl, -, -, hoffset, hoffset', hsplits⟩ := h.functions f f' hsame
    obtain ⟨hlaid, -, -, huses⟩ := h.linked r hr
    exact h.matched hoffset hoffset' hlaid.holds hsplits.holds (leaving_of_body r.body 0 huses)
      (fun _ hu => hu) base

/-- If a snippet comes to its end in the world, then so does the same snippet elsewhere: with the same
value, or with the same error. -/
theorem ends (h : w.Repeats k offset offset' constants same) {main main' : FunctionCode}
    {cs : List Command} (hmain : main.constantsOffset = offset)
    (hmain' : main'.constantsOffset = offset') (hcode : main.code.Holds 0 (layoutProgram cs 0))
    (hcode' : main'.code.Holds 0 ((layoutProgram cs 0).map (Instr.relocate 0 k 0)))
    (huses : ∀ u ∈ usesOfCommands cs, u.Allowed (w.bounds main true)) {g g' : Array Value}
    (hglobals : (w.raised k constants same).globals g g') {ran : Ran (Option Value)}
    (hends : Machine.Ends w.setting g ⟨⟨main, 0, 0⟩, [], #[]⟩ ran) :
    ∃ ran', Machine.Ends ⟨constants, w.setting.maxFrames⟩ g' ⟨⟨main', 0, 0⟩, [], #[]⟩ ran' ∧
      Outcomes (Option.Rel (Value.Related same)) ran.result ran'.result := by
  have hmatched := h.matched hmain hmain' hcode hcode'
    (leaving_of_program (P := (· ∈ usesOfCommands cs)) cs 0 fun _ hu => hu) huses 0
  have hpaired : (w.raised k constants same).Paired (w.raised k constants same).Matched
      ⟨⟨main, 0, 0⟩, [], #[]⟩ ⟨⟨main', 0, 0⟩, [], #[]⟩ :=
    ⟨.outermost hmatched, .empty⟩
  obtain ⟨ran', hends', hresults, -⟩ :=
    hpaired.ends h.sound Pairing.matched_closed hglobals (.inl h.biUnique) hends
  exact ⟨ran', hends', hresults⟩

end World.Repeats

end Notebook
