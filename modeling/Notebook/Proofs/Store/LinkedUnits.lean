import Notebook.Proofs.Machine.FunctionCalls
import Notebook.Store

/-!
Snippets that were compiled, loaded into a store and run.

* `compile_eq_ok`: a snippet that compiles resolves, and its unit holds the layout of what it
  resolves to.
* `Store.Linked`: every function in a store is known, with its code laid out from commands that are
  within bounds. It is the invariant that stores keep.
* `Compiler.InStep`: the next unit of the compiler belongs right behind what the store has.
* `Store.Linked.load`: in a store in which every function is known, so it is once the constants of a
  unit are loaded.
* `Store.run_eq`: running the unit comes to what the evaluator says of the resolved program. What the
  compiler, the machine and the store do by themselves meets here.
* `Store.Linked.finished`: both invariants hold again after a unit that ran to its end.
* `Store.call_eq`: calling a function of the store comes to what the evaluator says.
-/

namespace Notebook

/-! ### Compiled units -/

/-- A snippet was compiled: its program resolves to `commands`, the place after it is `place`, and its unit
holds the code for them. What is said of the unit refers to the resolved program alone, and to nothing of how
the compiler works. -/
structure Compiler.Compiled (c : Compiler) (routines : List Routine) (n : SnippetId) (p : Program)
    (u : CompiledUnit) (c' : Compiler) (commands : List Command) (place : Site) : Prop where
  resolved : resolveStmts p (c.site routines) = .ok (commands, place)
  leads : (c.site routines).Leads place (usesOfCommands commands)
  laid : (∀ r ∈ routines, r.Laid) → ∀ r ∈ place.routines, r.Laid
  snippet : u.snippet = n
  offset : u.constantsOffset = c.constantsOffset
  constants : u.constants = place.constants.toList
  globals : u.globals = place.scope.slots
  splits : u.code.Splits (layoutProgram commands 0)
  after : c' = .idle place.scope (c.constantsOffset + place.constants.size)

theorem Compiler.compile_eq_ok {c c' : Compiler} {n : SnippetId} {p : Program} {u : CompiledUnit}
    (hidle : c.buffer = {}) (hvalid : c.scope.Valid) (h : c.compile n p = (.ok u, c'))
    (routines : List Routine) : ∃ commands place, c.Compiled routines n p u c' commands place := by
  unfold compile at h
  split at h
  · rename_i done htop
    cases h
    obtain ⟨commands, routines', hres, hemitted⟩ := topLevel_emits p routines htop
    have hhere : c.here = 0 := by
      unfold here
      rw [hidle]
      rfl
    have hleads := resolveStmts_leads p hvalid hres
    have hoffset : done.constantsOffset = c.constantsOffset := hleads.offset
    have hcode : done.buffer.code.bytes.toList = assemble (layoutProgram commands 0) := by
      rw [hemitted.bytes, hidle, hhere]
      simp
    refine ⟨commands, done.site routines', hres, hleads, hemitted.laid, rfl, hoffset, rfl, rfl, ?_, ?_⟩
    · rw [hhere] at hemitted
      exact ⟨hcode, hemitted.fits⟩
    · rw [hoffset]
      rfl
  · cases h

/-! ### Stores -/

/-- The world that the functions of a store are in. -/
def Store.world (s : Store) (routines : List Routine) (maxFrames : Nat) : World :=
  ⟨⟨s.constants, maxFrames⟩, routines, s.globals.size⟩

/-- Is every function that a store holds a known one, with code that fits the store? All known ones are among
the constants. It is the invariant of stores that are given what was compiled, and it does not depend on how
many frames there may be. -/
structure Store.Linked (s : Store) (routines : List Routine) : Prop where
  world : ∀ maxFrames, (s.world routines maxFrames).Linked
  pooled : ∀ r ∈ routines, Value.function r.code ∈ s.constants
  constants : ∀ v ∈ s.constants, v.MadeOf (KnownAmong routines)
  globals : ∀ v ∈ s.globals, v.MadeOf (KnownAmong routines)

/-- The compiler is where the store is: the next snippet's constants and globals are new. -/
structure Compiler.InStep (c : Compiler) (s : Store) : Prop where
  idle : c = .idle c.scope s.constants.size
  valid : c.scope.Valid
  session : c.scope.isSession = true
  slots : c.scope.slots = s.globals.size

theorem Compiler.InStep.offset {c : Compiler} {s : Store} (h : c.InStep s) :
    c.constantsOffset = s.constants.size :=
  congrArg Compiler.constantsOffset h.idle

section

variable {s : Store} {routines : List Routine} {c c' : Compiler} {n : SnippetId} {p : Program}
variable {u : CompiledUnit} {commands : List Command} {place : Site}

/-- The world that a unit runs in. -/
def Store.loadedWorld (s : Store) (place : Site) (maxFrames : Nat) : World :=
  ⟨⟨s.constants ++ place.constants, maxFrames⟩, place.routines, place.scope.slots⟩

def CompiledUnit.main (u : CompiledUnit) : FunctionCode := ⟨u.code, u.constantsOffset, 0, 0⟩

/-- What a unit runs in covers everything that there is at the end of its program. -/
theorem covers_loaded (hc : c.Compiled routines n p u c' commands place) (hstep : c.InStep s)
    (maxFrames : Nat) : ((s.loadedWorld place maxFrames).bounds u.main true).Covers place := by
  have hsession : place.scope.isSession = true := hc.leads.session.trans hstep.session
  have hunit : u.constantsOffset = s.constants.size := hc.offset.trans hstep.offset
  have hplace : place.offset = s.constants.size := hc.leads.offset.trans hstep.offset
  refine ⟨hunit.trans hplace.symm, fun i v hi => ?_, ?_, ?_, hsession.symm, fun r hr => ⟨r, hr, rfl⟩⟩
  · show (s.constants ++ place.constants)[u.constantsOffset + i]? = some v
    rw [hunit, Array.getElem?_append_right (Nat.le_add_right _ _), Nat.add_sub_cancel_left, hi]
  · show place.scope.globals ≤ place.scope.slots
    cases hscope : place.scope with
    | session level => exact Nat.le_refl _
    | function level enclosing =>
      rw [hscope] at hsession
      cases hsession
  · show place.scope.locals ≤ 0
    cases hscope : place.scope with
    | session level => exact Nat.le_refl _
    | function level enclosing =>
      rw [hscope] at hsession
      cases hsession

/-- Loading a unit's constants keeps every function linked, and links the unit's own. Functions from before look
at the same places of the pool as before. -/
theorem Store.Linked.load (hs : s.Linked routines)
    (hc : c.Compiled routines n p u c' commands place) (hstep : c.InStep s) (maxFrames : Nat) :
    (s.loadedWorld place maxFrames).Linked := by
  intro r hr
  have hcovers := covers_loaded hc hstep maxFrames
  have hstart := hc.leads.covers _ hcovers
  have hglobals : s.globals.size ≤ place.scope.slots := by
    rw [← hstep.slots]
    exact hc.leads.slots
  refine ⟨hc.laid (fun r hr => (hs.world maxFrames r hr).1) r hr, ?_⟩
  rcases hc.leads.keeps _ hcovers r hr with hr | hkeeps
  · have hgrown : ((s.world routines maxFrames).bounds r.code false).Grown
        ((s.loadedWorld place maxFrames).bounds r.code false) := by
      refine ⟨fun i v hi => ?_, rfl, hglobals, Nat.le_refl _, ?_, rfl⟩
      · have hlt := (Array.getElem?_eq_some_iff.mp hi).1
        exact (Array.getElem?_append_left hlt).trans hi
      · rintro f ⟨r', hr', rfl⟩
        exact hstart.known r' hr'
    exact (hs.world maxFrames r hr).2.grown hgrown
  · have hbounds : (s.loadedWorld place maxFrames).bounds r.code false =
        ((s.loadedWorld place maxFrames).bounds u.main true).inside r.code := by
      have hoffset : r.code.constantsOffset = u.main.constantsOffset := hkeeps.1
      simp [World.bounds, Bounds.inside, hoffset]
    rw [hbounds]
    exact hkeeps

/-- The constants of a unit are literals. -/
theorem constants_loaded (hc : c.Compiled routines n p u c' commands place) (hstep : c.InStep s)
    (maxFrames : Nat) {v : Value} (hv : v ∈ place.constants) :
    v.IsLiteral ((s.loadedWorld place maxFrames).bounds u.main true) := by
  rcases hc.leads.constants _ (covers_loaded hc hstep maxFrames) v hv with hv | hv
  · have hempty : (c.site routines).constants = #[] := by rw [hstep.idle]; rfl
    rw [hempty] at hv
    exact absurd hv (Array.not_mem_empty v)
  · exact hv

/-- The functions of a unit have its pool offset. -/
theorem offset_loaded (hc : c.Compiled routines n p u c' commands place) (hstep : c.InStep s)
    {f : FunctionCode} (hf : Value.function f ∈ u.constants) :
    f.constantsOffset = u.constantsOffset := by
  rw [hc.constants, Array.mem_toList_iff] at hf
  exact (constants_loaded hc hstep 0 hf).2

/-- The globals that a unit starts with are those of the store and nulls. -/
theorem Store.Linked.fits_padded (hs : s.Linked routines)
    (hc : c.Compiled routines n p u c' commands place) (hstep : c.InStep s) (maxFrames : Nat) :
    (s.loadedWorld place maxFrames).Fits (padded s.globals u.globals) := by
  have hstart := hc.leads.covers _ (covers_loaded hc hstep maxFrames)
  refine ⟨?_, fun v hv => ?_⟩
  · show (padded s.globals u.globals).size = place.scope.slots
    have hmore : s.globals.size ≤ place.scope.slots := hstep.slots ▸ hc.leads.slots
    rw [padded, Array.size_append, Array.size_replicate, hc.globals]
    omega
  · rcases Array.mem_append.mp hv with hv | hv
    · refine (hs.globals v hv).mono ?_
      rintro f ⟨r, hr, rfl⟩
      exact hstart.known r hr
    · rw [Array.eq_of_mem_replicate hv]
      exact Value.madeOf_null

/-- The pool that a unit runs in: nothing comes between the store's constants and the unit's own. -/
theorem pool_loaded (hc : c.Compiled routines n p u c' commands place) (hstep : c.InStep s) :
    Store.padded s.constants u.constantsOffset ++ u.constants = s.constants ++ place.constants := by
  have hoffset : u.constantsOffset = s.constants.size := hc.offset.trans hstep.offset
  apply Array.ext'
  simp [Store.padded, hoffset, hc.constants]

/-- How the run of a unit ends is what it leads to: a store with the constants, globals and bindings of the
unit, or the one from before. -/
theorem Store.run_of_ends (hc : c.Compiled routines n p u c' commands place) (hstep : c.InStep s)
    (config : RunConfig) {ran : Ran (Option Value)}
    (hends : Machine.Ends ⟨s.constants ++ place.constants, min s.maxCallDepth config.maxCallDepth⟩
      (padded s.globals u.globals) ⟨⟨u.main, 0, 0⟩, [], #[]⟩ ran) :
    s.run u config = match ran.result with
      | .ok value => (.finished value,
          { s with constants := s.constants ++ place.constants, globals := ran.globals,
                   bindings := bind u.snippet u.declarations s.bindings })
      | .error error => (.failed error, s) := by
  have hoffset : u.constantsOffset = s.constants.size := hc.offset.trans hstep.offset
  have hpool := pool_loaded hc hstep
  have hrun : Machine.runCode
      ⟨s.constants ++ place.constants, min s.maxCallDepth config.maxCallDepth⟩
      (padded s.globals u.globals) u.main = ran := Machine.run_of_ends hends
  have hload : (⟨u.code, u.constantsOffset, 0, 0⟩ : FunctionCode) = u.main := rfl
  unfold run
  rw [if_neg (by omega)]
  simp only [hpool, hload]
  cases hresult : ran.result with
  | ok value => rw [hrun, hresult]
  | error error => rw [hrun, hresult]

/-- Running a unit comes to what the evaluator says of its resolved program, and what is left is made of known
functions. This joins the compiler, the machine and the store. -/
theorem Store.run_eq (hs : s.Linked routines)
    (hc : c.Compiled routines n p u c' commands place) (hstep : c.InStep s) (config : RunConfig) :
    let depth := min s.maxCallDepth config.maxCallDepth
    let ran := Semantics.run place.routines depth commands (padded s.globals u.globals)
    Machine.Ends ⟨s.constants ++ place.constants, depth⟩ (padded s.globals u.globals)
        ⟨⟨u.main, 0, 0⟩, [], #[]⟩ ran ∧
      (s.loadedWorld place depth).Keeps (·.getD .null) ran ∧
      s.run u config = match ran.result with
        | .ok value => (.finished value,
            { s with constants := s.constants ++ place.constants, globals := ran.globals,
                     bindings := bind u.snippet u.declarations s.bindings })
        | .error error => (.failed error, s) := by
  intro depth ran
  obtain ⟨hends, hkeeps⟩ := ends_program (hs.load hc hstep depth) rfl hc.splits.holds
    (hc.leads.allowed _ (covers_loaded hc hstep depth)) (hs.fits_padded hc hstep depth)
  exact ⟨hends, hkeeps, Store.run_of_ends hc hstep config hends⟩

/-- A unit that was just compiled is never refused: it finishes, or it fails in an ordinary way and
changes nothing. -/
theorem Store.run_cases (hs : s.Linked routines)
    (hc : c.Compiled routines n p u c' commands place) (hstep : c.InStep s) (config : RunConfig) :
    (∃ value s', s.run u config = (.finished value, s')) ∨
      ∃ error, s.run u config = (.failed error, s) ∧ error.isOrdinary = true := by
  obtain ⟨-, hkeeps, hrun⟩ := Store.run_eq hs hc hstep config
  rw [hrun]
  split
  · exact .inl ⟨_, _, rfl⟩
  · exact .inr ⟨_, rfl, hkeeps.ordinary _ ‹_›⟩

/-- A unit that has run to its end has bound what it declares. -/
theorem Store.bindings_of_finished {config : RunConfig} {value : Option Value} {s' : Store}
    (h : s.run u config = (.finished value, s')) :
    s'.bindings = bind u.snippet u.declarations s.bindings := by
  unfold run at h
  split at h
  · cases h
  · simp only at h
    split at h <;> cases h
    rfl

/-- Functions that were known stay known. -/
theorem known_loaded (hc : c.Compiled routines n p u c' commands place) (hstep : c.InStep s)
    {f : FunctionCode} (hf : KnownAmong routines f) : KnownAmong place.routines f := by
  obtain ⟨r, hr, rfl⟩ := hf
  exact (hc.leads.covers _ (covers_loaded hc hstep 0)).known r hr

/-- After a unit has run to its end, store and compiler are in step again, and every function that
the store holds is known. -/
theorem Store.Linked.finished (hs : s.Linked routines)
    (hc : c.Compiled routines n p u c' commands place) (hstep : c.InStep s) {config : RunConfig}
    {value : Option Value} {s' : Store} (h : s.run u config = (.finished value, s')) :
    s'.Linked place.routines ∧ c'.InStep s' ∧
      (value.getD .null).MadeOf (KnownAmong place.routines) ∧
      s'.constants = s.constants ++ place.constants ∧ s'.maxCallDepth = s.maxCallDepth := by
  obtain ⟨-, hkeeps, hrun⟩ := Store.run_eq hs hc hstep config
  rw [h] at hrun
  split at hrun
  · rename_i value' hresult
    cases hrun
    obtain ⟨⟨hsize, hglobals⟩, hknown, -⟩ := hkeeps
    -- The world is the one that the unit ran in, for any number of frames.
    refine ⟨⟨fun maxFrames => ?_, fun r hr => ?_, fun v hv => ?_, hglobals⟩, ?_,
      hknown _ hresult, rfl, rfl⟩
    · have hload := hs.load hc hstep maxFrames
      unfold Store.world
      rw [hsize]
      exact hload
    · rcases hc.leads.pooled r hr with hr | hr
      · exact Array.mem_append.mpr (.inl (hs.pooled r hr))
      · exact Array.mem_append.mpr (.inr hr)
    · rcases Array.mem_append.mp hv with hv | hv
      · exact (hs.constants v hv).mono fun f hf => known_loaded hc hstep hf
      · exact (constants_loaded hc hstep 0 hv).madeOf
    · refine ⟨?_, ?_, ?_, ?_⟩
      · rw [hc.after, hstep.offset, ← Array.size_append]
        rfl
      · rw [hc.after]
        exact hc.leads.valid
      · rw [hc.after]
        exact hc.leads.session.trans hstep.session
      · rw [hc.after]
        exact hsize.symm
  · cases hrun

/-- Calling a function of the store comes to what the evaluator says, and changes nothing. -/
theorem Store.call_eq (hs : s.Linked routines) {f : Value} {args : List Value}
    (hf : f.MadeOf (KnownAmong routines)) (hargs : ∀ v ∈ args, v.MadeOf (KnownAmong routines))
    (hcallable : f.isCallable = true) :
    s.call f args = ((Semantics.call routines s.maxCallDepth f args s.globals).result, s) ∧
      (s.world routines s.maxCallDepth).Keeps id
        (Semantics.call routines s.maxCallDepth f args s.globals) := by
  obtain ⟨hcall, hsame, hkeeps⟩ := call_follows (hs.world s.maxCallDepth) hf hargs
    ⟨rfl, hs.globals⟩
  refine ⟨?_, hkeeps⟩
  unfold Store.call
  rw [if_pos hcallable]
  have hcall' : Machine.call ⟨s.constants, s.maxCallDepth⟩ s.globals f args =
      Semantics.call routines s.maxCallDepth f args s.globals := hcall
  have hsame' : (Semantics.call routines s.maxCallDepth f args s.globals).globals = s.globals := hsame
  simp only [hcall', hsame']

/-- Calling anything made of known functions changes nothing, and neither makes up functions. -/
theorem Store.Linked.call (hs : s.Linked routines) {f : Value} {args : List Value}
    (hf : f.MadeOf (KnownAmong routines)) (hargs : ∀ v ∈ args, v.MadeOf (KnownAmong routines)) :
    (s.call f args).2 = s ∧
      ∀ v, (s.call f args).1 = .ok v → v.MadeOf (KnownAmong routines) := by
  by_cases hcallable : f.isCallable = true
  · obtain ⟨hcall, hkeeps⟩ := Store.call_eq hs hf hargs hcallable
    rw [hcall]
    exact ⟨rfl, hkeeps.known⟩
  · unfold Store.call
    rw [if_neg hcallable]
    exact ⟨rfl, fun v h => by cases h⟩

end

end Notebook
