import Notebook.Proofs.Composition.ProgramHalves
import Notebook.Proofs.Composition.RepeatedRuns
import Notebook.Proofs.Resolution.RaisedGlobals

/-!
A closed program as the first snippet of a session, and as a later one.

`Again` says what such a program resolves to in a new session, and where there are `k` globals.

* `exists_again`: a closed program that resolves in a new session resolves in any session in which the
  names that it does not declare mean the same.
* `Again.compiles`, `Again.storable`: if its unit compiles and can be stored in the new session, then
  so it does and can in the other one, as long as the slots of its globals fit.
* `Again.runs`: if it runs to its end, then so it does in the other session, with the same value but
  for its functions.
* `Finishes.again`: all of this for a snippet that compiles, can be stored and runs to its end.
-/

namespace Notebook

open UnitFormat (encodeConstant encodeString)

/-- Code that keeps to its bounds fits with `k` globals more in front, if they are not too many. -/
theorem fits_raised {w : World} {f : FunctionCode} {top : Bool} {P : Use → Prop} {is : List Instr}
    {k : Nat} (hfits : ∀ i ∈ is, i.Fits) (hleaving : Leaving P 0 is)
    (hallowed : ∀ u, P u → u.Allowed (w.bounds f top)) (hroom : w.globals + k ≤ 65536) :
    ∀ i ∈ is.map (Instr.relocate 0 k 0), i.Fits := by
  obtain ⟨-, hmeets, -⟩ := hleaving.closed
  refine List.forall_mem_map.mpr fun i hi => (hfits i hi).relocate ?_
  have hbound := (hmeets i hi).mono hallowed
  obtain ⟨op, operand⟩ := i
  rintro (rfl | rfl)
  · have hlt : operand < w.globals := hbound
    exact Nat.lt_of_lt_of_le (Nat.add_lt_add_right hlt k) hroom
  · have hlt : operand < w.globals := hbound.1
    exact Nat.lt_of_lt_of_le (Nat.add_lt_add_right hlt k) hroom

/-- What a program resolves to in a new session, and in one that has `k` globals. The names in `known` mean the
same in both; all others that the program uses it declares itself. -/
structure Again (k : Nat) (known : List String) (c c' : Compiler) (p : Program)
    (cs : List Command) (place : Site) (cs' : List Command) (place' : Site) : Prop where
  first : resolveStmts p (c.site []) = .ok (cs, place)
  again : resolveStmts p (c'.site []) = .ok (cs', place')
  relocated : relocateCommands 0 k cs = relocateCommands 0 0 cs'
  raises : place.Raises k known place'

section

variable {k : Nat} {known : List String} {c c' c₁ c₁' : Compiler} {s s' s₁ s₁' : Store}
variable {config config' : RunConfig} {p : Program} {cs cs' : List Command} {place place' : Site}
variable {u u' : CompiledUnit} {n n' : SnippetId} {value : Option Value} {routines : List Routine}

/-- A closed program that resolves in one session resolves in the other one. -/
theorem exists_again (hidle : c.constants = #[]) (hidle' : c'.constants = #[])
    (hnames : c.scope.Raised k known c'.scope) (hclosed : Program.isClosed known p = true)
    (h : resolveStmts p (c.site []) = .ok (cs, place)) :
    ∃ cs' place', Again k (known ++ Program.declared p) c c' p cs place cs' place' := by
  have hstart : (c.site []).Raises k known (c'.site []) := by
    refine ⟨hnames, ?_, fun r' hr' => absurd hr' List.not_mem_nil⟩
    show Stacked _ c.constants c'.constants
    rw [hidle, hidle']
    exact .nil
  obtain ⟨cs', place', hagain, hrelocated, hraises⟩ := resolveStmts_raises hstart hclosed h
  exact ⟨cs', place', h, hagain, hrelocated, hraises⟩

/-- The functions of a unit have the pool offset of the store that it is compiled for. -/
theorem offset_of_mem (hc : c.Compiled [] n p u c₁ cs place) (hstep : c.InStep s) {r : Routine}
    (hr : r ∈ place.routines) : r.code.constantsOffset = s.constants.size := by
  rcases hc.leads.keeps _ (covers_loaded hc hstep 0) r hr with hr | hkeeps
  · exact absurd hr List.not_mem_nil
  · exact hkeeps.1.trans (hc.offset.trans hstep.offset)

namespace Again

variable (h : Again k known c c' p cs place cs' place')
include h

theorem layout_eq : layoutProgram cs' 0 = (layoutProgram cs 0).map (Instr.relocate 0 k 0) :=
  layoutProgram_relocated h.relocated 0 0

/-- The code of the snippet fits. -/
theorem fits (hc : c.Compiled [] n p u c₁ cs place) (hstep : c.InStep s)
    (hroom : place.scope.slots + k ≤ 65536) : ∀ i ∈ layoutProgram cs' 0, i.Fits := by
  rw [h.layout_eq]
  exact fits_raised hc.splits.2 (leaving_of_program (P := (· ∈ usesOfCommands cs)) cs 0 fun _ hu => hu)
    (hc.leads.allowed _ (covers_loaded hc hstep 0)) hroom

/-- The code of its functions fits, too. -/
theorem laid (hs : s.Linked []) (hc : c.Compiled [] n p u c₁ cs place) (hstep : c.InStep s)
    (hroom : place.scope.slots + k ≤ 65536) : ∀ r' ∈ place'.routines, r'.Laid := by
  intro r' hr'
  obtain ⟨r, hr, hsame⟩ := h.raises.routines r' hr'
  obtain ⟨hlaid, -, -, huses⟩ := hs.load hc hstep 0 r hr
  have hfits := fits_raised hlaid.2 (leaving_of_body r.body 0 huses) (fun _ hu => hu) hroom
  rw [← layoutBody_relocated hsame.body 0 0] at hfits
  unfold Routine.Laid
  rw [hsame.assembled]
  exact Code.splits_assemble hfits

/-- A snippet that compiled compiles in the other session. -/
theorem compiles (hs : s.Linked []) (hc : c.Compiled [] n p u c₁ cs place) (hstep : c.InStep s)
    (hstep' : c'.InStep s') (hroom : place.scope.slots + k ≤ 65536) (n' : SnippetId) :
    ∃ u' c₁', c'.compile n' p = (.ok u', c₁') :=
  Compiler.compile_of_fits (congrArg Compiler.buffer hstep'.idle) hstep'.valid h.again
    (h.fits hc hstep hroom) (h.laid hs hc hstep hroom) n'

/-- The constants of the snippet can be stored if those of the new session can. -/
theorem encodes_constants (hs : s.Linked []) (hc : c.Compiled [] n p u c₁ cs place)
    (hstep : c.InStep s) (hroom : place.scope.slots + k ≤ 65536)
    (hencodes : ∀ v ∈ place.constants, Encodes encodeConstant v) :
    ∀ v' ∈ place'.constants, Encodes encodeConstant v' := by
  have hpairs : ∀ f f', place.Pairs k place' f f' →
      f.locals = f'.locals ∧ f.params = f'.params ∧ f.code.size = f'.code.size := by
    rintro _ _ ⟨r, hr, r', hr', rfl, rfl, hsame⟩
    obtain ⟨hlaid, -⟩ := hs.load hc hstep 0 r hr
    refine ⟨hsame.locals, hsame.params, ?_⟩
    rw [hlaid.size_eq, (h.laid hs hc hstep hroom r' hr').size_eq, layoutBody_relocated hsame.body 0 0,
      codeSize_relocate]
  intro v' hv'
  obtain ⟨i, hi⟩ := Array.mem_iff_getElem?.mp hv'
  have hslot := h.raises.constants.getElem? i
  rw [hi] at hslot
  generalize hv : place.constants[i]? = o at hslot
  cases hslot with
  | some hrelated =>
    exact (encodes_iff_of_related hpairs hrelated).mp (hencodes _ (Array.mem_of_getElem? hv))

/-- If the unit of a new session can be stored, then so can that of the other one. -/
theorem storable (hs : s.Linked []) (hc : c.Compiled [] n p u c₁ cs place) (hstep : c.InStep s)
    (hc' : c'.Compiled [] n' p u' c₁' cs' place') (hstep' : c'.InStep s')
    (hcompile : c.compile n p = (.ok u, c₁)) (hcompile' : c'.compile n' p = (.ok u', c₁'))
    (hroom : place.scope.slots + k ≤ 65536) (hpool : s'.constants.size < UInt32.size)
    (hu : u.Storable) : u'.Storable := by
  have hidle : c.declarations = #[] := congrArg Compiler.declarations hstep.idle
  have hidle' : c'.declarations = #[] := congrArg Compiler.declarations hstep'.idle
  have hintro' := hc'.introduces hidle' hstep'.session hstep'.valid hcompile'
  have hslots : place'.scope.slots ≤ 65536 := by
    rw [h.raises.scope.slots]
    split <;> omega
  have hcount : place.constants.size < UInt32.size := by
    have hcount := hu.count
    rwa [hc.constants, Array.length_toList] at hcount
  have hcode : codeSize (layoutProgram cs' 0) < UInt32.size := by
    have hcode := hu.code
    rwa [hc.splits.size_eq, ← codeSize_relocate 0 k 0, ← h.layout_eq] at hcode
  -- Slots are larger than in the new session, but instructions can name them, and so they are small enough to
  -- be stored.
  refine hc'.storable hintro' (Compiler.compile_declaredType hcompile') ?_ ?_ ?_ ?_ ?_ hcode
  · rw [hstep'.offset]
    exact hpool
  · rw [← h.raises.constants.size_eq]
    exact hcount
  · exact Nat.lt_of_le_of_lt hslots (by decide)
  · refine h.encodes_constants hs hc hstep hroom fun v hv => hu.constants v ?_
    rw [hc.constants]
    exact Array.mem_toList_iff.mpr hv
  · intro d hd
    have hname := hc'.name_mem_declared hidle' hstep'.session hstep'.valid hcompile' hd
    obtain ⟨d₁, hd₁, hsame⟩ :=
      hc.exists_declaration hidle hstep.session hstep.valid hcompile hname
    rw [← hsame]
    exact (encodes_declaration_iff.mp (hu.declarations d₁ hd₁)).1

/-- The functions of a new session are the same in the other one. Their code differs by where the globals and
the constants are, and both are found where the other session has them. -/
theorem repeats (hs : s.Linked []) (hc : c.Compiled [] n p u c₁ cs place) (hstep : c.InStep s)
    (hc' : c'.Compiled [] n' p u' c₁' cs' place') (hstep' : c'.InStep s')
    (hroom : place.scope.slots + k ≤ 65536) (depth : Nat) :
    (s.loadedWorld place depth).Repeats k s.constants.size s'.constants.size
      (s'.constants ++ place'.constants) (place.Pairs k place') := by
  refine ⟨hs.load hc hstep depth, ?_, ?_⟩
  · rintro _ _ ⟨r, hr, r', hr', rfl, rfl, hsame⟩
    have hlaid' : r'.code.code.Splits (layoutBody r'.body 0) := h.laid hs hc hstep hroom r' hr'
    rw [layoutBody_relocated hsame.body 0 0] at hlaid'
    exact ⟨r, hr, rfl, hsame.params, hsame.locals, offset_of_mem hc hstep hr,
      offset_of_mem hc' hstep' hr', hlaid'⟩
  · intro index v hv
    rw [show (s.loadedWorld place depth).setting.constants = s.constants ++ place.constants from rfl,
      Array.getElem?_append_right (Nat.le_add_right _ _), Nat.add_sub_cancel_left] at hv
    rw [Array.getElem?_append_right (Nat.le_add_right _ _), Nat.add_sub_cancel_left]
    have hslot := h.raises.constants.getElem? index
    rw [hv] at hslot
    generalize place'.constants[index]? = o at hslot
    cases hslot with
    | some hrelated => exact ⟨_, rfl, hrelated⟩

/-- If the snippet runs to its end in a new session, then so does it in the other one: with the same
value, but for its functions. It adds as many constants and globals. -/
theorem runs (hs : s.Linked []) (hnew : s.globals = #[]) (hc : c.Compiled [] n p u c₁ cs place)
    (hstep : c.InStep s) (hc' : c'.Compiled [] n' p u' c₁' cs' place') (hstep' : c'.InStep s')
    (hk : s'.globals.size = k) (hroom : place.scope.slots + k ≤ 65536)
    (hdepth : min s'.maxCallDepth config'.maxCallDepth = min s.maxCallDepth config.maxCallDepth)
    (hrun : s.run u config = (.finished value, s₁)) :
    ∃ value' s₁', s'.run u' config' = (.finished value', s₁') ∧
      Option.Rel (Value.Related (place.Pairs k place')) value value' := by
  have hsession : place.scope.isSession = true := hc.leads.session.trans hstep.session
  -- The snippet finds nulls in its slots in both sessions. In the later one they come behind what there was.
  have hglobals : ((s.loadedWorld place (min s.maxCallDepth config.maxCallDepth)).raised k
      (s'.constants ++ place'.constants) (place.Pairs k place')).globals
      (Store.padded s.globals u.globals) (Store.padded s'.globals u'.globals) := by
    have hslots' : u'.globals = place.scope.slots + k := by
      rw [hc'.globals, h.raises.scope.slots, if_pos hsession]
    have hnulls : Store.padded s.globals u.globals = Array.replicate place.scope.slots .null := by
      rw [hnew, hc.globals]
      exact Array.empty_append
    rw [hnulls]
    refine ⟨Array.size_replicate, fun i => ?_⟩
    unfold Store.padded
    rw [hslots', hk, Array.getElem?_append_right (by omega), hk, Nat.add_sub_cancel,
      Nat.add_sub_cancel, Array.getElem?_replicate]
    split
    · exact .some .null
    · exact .none
  obtain ⟨hends, -, hfinished⟩ := Store.run_eq hs hc hstep config
  have hcode : u.main.code.Holds 0 (layoutProgram cs 0) := hc.splits.holds
  have hcode' : u'.main.code.Holds 0 ((layoutProgram cs 0).map (Instr.relocate 0 k 0)) :=
    h.layout_eq ▸ hc'.splits.holds
  obtain ⟨ran', hends', hresults⟩ :=
    (h.repeats hs hc hstep hc' hstep' hroom _).ends (hc.offset.trans hstep.offset)
      (hc'.offset.trans hstep'.offset) hcode hcode' (hc.leads.allowed _ (covers_loaded hc hstep _))
      hglobals hends
  have hfinished' := Store.run_of_ends hc' hstep' config' (hdepth ▸ hends')
  rw [hrun] at hfinished
  -- The runs end alike, and the first one did not end with an error.
  rcases hresults.cases with ⟨v, value', hv, hvalue', hsame⟩ | ⟨error, herror, -⟩
  · rw [hv] at hfinished
    rw [hvalue'] at hfinished'
    cases hfinished
    exact ⟨value', _, hfinished', hsame⟩
  · rw [herror] at hfinished
    cases hfinished

end Again

/-- If a closed snippet finishes in a new session, then so does it in any session in which the names
that it does not declare mean the same, as long as there are slots for its globals. It has the same
type, and the same value if that is data. -/
theorem Finishes.again (h : Finishes c s config p u c₁ value s₁) (hs : s.Linked [])
    (hnew : s.globals = #[]) (hstep : c.InStep s) (hstep' : c'.InStep s')
    (hnames : c.scope.Raised s'.globals.size known c'.scope)
    (hclosed : Program.isClosed known p = true)
    (hroom : s'.globals.size + (Program.declared p).length ≤ 65536)
    (hpool : s'.constants.size < UInt32.size)
    (hdepth : min s'.maxCallDepth config'.maxCallDepth = min s.maxCallDepth config.maxCallDepth)
    (hdata : ∀ v ∈ value, v.functions = []) :
    ∃ u' c₁' s₁', Finishes c' s' config' p u' c₁' value s₁' ∧ u'.declaredType = u.declaredType := by
  obtain ⟨cs, place, hc⟩ :=
    Compiler.compile_eq_ok (congrArg Compiler.buffer hstep.idle) hstep.valid h.compiles []
  obtain ⟨cs', place', hagain⟩ := exists_again (congrArg Compiler.constants hstep.idle)
    (congrArg Compiler.constants hstep'.idle) hnames hclosed hc.resolved
  have hslots : place.scope.slots + s'.globals.size ≤ 65536 := by
    have hstart : c.scope.slots = 0 := by
      rw [hstep.slots, hnew]
      rfl
    have hscope : place.scope = c.scope.defineAll (Program.declared p) :=
      scope_of_resolveStmts p hc.resolved
    rw [hscope, Scope.slots_defineAll, hstart]
    omega
  obtain ⟨u', c₁', hcompile'⟩ := hagain.compiles hs hc hstep hstep' hslots config'.snippet
  obtain ⟨_, _, hc'⟩ :=
    Compiler.compile_eq_ok (congrArg Compiler.buffer hstep'.idle) hstep'.valid hcompile' []
  cases hagain.again.symm.trans hc'.resolved
  have hstorable' := hagain.storable hs hc hstep hc' hstep' h.compiles hcompile' hslots hpool h.storable
  obtain ⟨value', s₁', hrun', hsame⟩ :=
    hagain.runs hs hnew hc hstep hc' hstep' rfl hslots hdepth h.runs
  -- Values are the same but for their functions, of which there are none.
  have hvalue : value' = value := by
    cases hsame with
    | none => rfl
    | some hrelated =>
      have hfunctions := hrelated.functions
      rw [hdata _ rfl, List.forall₂_nil_left_iff] at hfunctions
      exact congrArg some (hrelated.eq_of_functions hfunctions).symm
  refine ⟨u', c₁', s₁', ⟨hcompile', hstorable', hvalue ▸ hrun'⟩, ?_⟩
  rw [Compiler.compile_declaredType hcompile', Compiler.compile_declaredType h.compiles]

end

end Notebook
