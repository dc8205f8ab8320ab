import Notebook.Proofs.Compiler.Completeness
import Notebook.Proofs.Composition.FirstPart
import Notebook.Proofs.Composition.SecondPart
import Notebook.Proofs.Resolution.Declarations
import Notebook.Proofs.Resolution.MirroredPlaces
import Notebook.Proofs.Store.LinkedUnits
import Notebook.Proofs.Units.StorableUnits

/-!
A program as one snippet, and its two halves as two snippets.

`Halves` says what the halves of a program resolve to: the second one behind the first one, and as a
snippet that follows it.

* `exists_halves`: a program that resolves does so in halves.
* `Halves.first_compiles`, `Halves.second_compiles`: the halves of a snippet that compiled compile.
* `Halves.storable`: if the unit of the whole can be stored, then so can those of the halves.
* `Halves.first_runs`, `Halves.second_runs`: if the whole runs to its end, then so do the halves, one
  after the other, and the second one leaves the same behind.
* `Finishes.halves`: all of this for a snippet that compiles, can be stored and runs to its end.
-/

namespace Notebook

open UnitFormat (encodeConstant encodeString)

/-- The compiler behind a snippet that it compiled, which ended at this place. -/
def Compiler.behind (c : Compiler) (place : Site) : Compiler :=
  .idle place.scope (c.constantsOffset + place.constants.size)

section

variable {c c' : Compiler} {routines : List Routine} {n : SnippetId} {p : Program}
variable {u : CompiledUnit} {commands : List Command} {place : Site}

/-- What a unit declares has been given slots at the place where it ends. -/
theorem Compiler.Compiled.introduces (hc : c.Compiled routines n p u c' commands place)
    (hidle : c.declarations = #[]) (hsession : c.scope.isSession = true) (hvalid : c.scope.Valid)
    (h : c.compile n p = (.ok u, c')) :
    c.scope.Introduces u.declarations.toArray place.scope := by
  have hintro := Compiler.compile_introduces hidle hsession hvalid h
  rw [hc.after] at hintro
  exact hintro

/-- A unit can be stored if its numbers are small and its constants and names can be stored. -/
theorem Compiler.Compiled.storable (hc : c.Compiled routines n p u c' commands place)
    (hintro : c.scope.Introduces u.declarations.toArray place.scope) {type : Option ValueType}
    (htype : u.declaredType = type.map ValueType.name)
    (hoffset : c.constantsOffset < UInt32.size) (hcount : place.constants.size < UInt32.size)
    (hslots : place.scope.slots < UInt32.size)
    (hconstants : ∀ v ∈ place.constants, Encodes encodeConstant v)
    (hnames : ∀ d ∈ u.declarations, Encodes encodeString d.name)
    (hcode : codeSize (layoutProgram commands 0) < UInt32.size) : u.Storable where
  offset := hc.offset ▸ hoffset
  globals := hc.globals ▸ hslots
  count := by
    rw [hc.constants, Array.length_toList]
    exact hcount
  constants := by
    intro v hv
    rw [hc.constants, Array.mem_toList_iff] at hv
    exact hconstants v hv
  declared := by
    have hcount : place.scope.slots = c.scope.slots + u.declarations.length := hintro.slots
    omega
  declarations := by
    intro d hd
    have hbound := hintro.bound d (List.mem_toArray.mpr hd)
    exact encodes_declaration_iff.mpr ⟨hnames d hd, Nat.lt_trans hbound hslots⟩
  type := htype ▸ encodes_type type
  code := by
    rw [hc.splits.size_eq]
    exact hcode

end

/-- What the halves of a program resolve to: the second half behind the first one and as a snippet of its own.
As a snippet it starts with no constants, so its commands are those of the whole with literals moved. -/
structure Halves (c : Compiler) (routines : List Routine) (p₁ p₂ : Program)
    (cs₁ : List Command) (place₁ : Site) (cs₂ : List Command) (place₂ : Site)
    (cs₂' : List Command) (place : Site) : Prop where
  first : resolveStmts p₁ (c.site routines) = .ok (cs₁, place₁)
  rest : resolveStmts p₂ place₁ = .ok (cs₂', place)
  second : resolveStmts p₂ ((c.behind place₁).site place₁.routines) = .ok (cs₂, place₂)
  relocated : relocateCommands place₁.constants.size 0 cs₂ = relocateCommands 0 0 cs₂'
  mirrors : place₂.Mirrors place₁.constants.size place

section

variable {c c' : Compiler} {routines : List Routine} {p p₁ p₂ : Program} {n : SnippetId}
variable {cs₁ cs₂ cs₂' commands : List Command} {place₁ place₂ place : Site} {u : CompiledUnit}

/-- A program that resolves does so in halves. -/
theorem exists_halves (hvalid : c.scope.Valid)
    (h : resolveStmts (p₁ ++ p₂) (c.site routines) = .ok (commands, place)) :
    ∃ cs₁ place₁ cs₂ place₂ cs₂', commands = cs₁ ++ cs₂' ∧
      Halves c routines p₁ p₂ cs₁ place₁ cs₂ place₂ cs₂' place := by
  obtain ⟨cs₁, place₁, cs₂', hfirst, hrest, rfl⟩ := resolveStmts_append h
  have hstart : ((c.behind place₁).site place₁.routines).Mirrors place₁.constants.size place₁ := by
    refine ⟨(resolveStmts_leads p₁ hvalid hfirst).valid, rfl, ?_, fun h => h, fun _ _ _ _ _ i v hi => ?_⟩
    · exact (Nat.zero_add _).symm
    · cases hi
  obtain ⟨cs₂, place₂, hsecond, hrelocated, hmirrors⟩ := resolveStmts_mirrors hstart hrest
  exact ⟨cs₁, place₁, cs₂, place₂, cs₂', rfl, hfirst, hrest, hsecond, hrelocated, hmirrors⟩

namespace Halves

variable (h : Halves c routines p₁ p₂ cs₁ place₁ cs₂ place₂ cs₂' place)
variable {u₁ u₂ : CompiledUnit} {n₁ n₂ : SnippetId} {c₁ c₂ : Compiler}
include h

/-- The code of the whole is that of the first half and, at another place, that of the second one. -/
theorem layout_eq (hne : p₂ ≠ []) : layoutProgram (cs₁ ++ cs₂') 0 = layoutCommands cs₁ 0 ++
    (layoutProgram cs₂ 0).map
      (Instr.relocate place₁.constants.size 0 (codeSize (layoutCommands cs₁ 0))) := by
  have hsecond : cs₂' ≠ [] := by
    rintro rfl
    exact hne (eq_nil_of_resolveStmts h.rest)
  rw [layoutProgram_append hsecond, layoutProgram_relocated h.relocated]

/-- The first half of a snippet that compiled compiles. -/
theorem first_compiles (hne : p₂ ≠ []) (hbuffer : c.buffer = {}) (hvalid : c.scope.Valid)
    (hfits : ∀ i ∈ layoutProgram (cs₁ ++ cs₂') 0, i.Fits) (hlaid : ∀ r ∈ place.routines, r.Laid)
    (n : SnippetId) : ∃ u₁ c₁, c.compile n p₁ = (.ok u₁, c₁) := by
  have hleads := resolveStmts_leads p₁ hvalid h.first
  have hleads' := resolveStmts_leads p₂ hleads.valid h.rest
  refine Compiler.compile_of_fits hbuffer hvalid h.first ?_
    (fun r hr => hlaid r (hleads'.routines r hr)) n
  rw [h.layout_eq hne, layoutCommands_eq] at hfits
  rw [layoutProgram_eq]
  intro i hi
  rcases List.mem_append.mp hi with hi | hi
  · exact hfits i (List.mem_append_left _ (List.mem_append_left _ hi))
  · rw [List.mem_singleton.mp hi]
    exact fits_leavingInstr cs₁

/-- The second half of a snippet that compiled compiles behind the first one. -/
theorem second_compiles (hne : p₂ ≠ []) (hvalid : c.scope.Valid)
    (hfits : ∀ i ∈ layoutProgram (cs₁ ++ cs₂') 0, i.Fits) (hlaid : ∀ r ∈ place.routines, r.Laid)
    (n : SnippetId) : ∃ u₂ c₂, (c.behind place₁).compile n p₂ = (.ok u₂, c₂) := by
  have hleads := resolveStmts_leads p₁ hvalid h.first
  refine Compiler.compile_of_fits rfl hleads.valid h.second ?_ (h.mirrors.laid hlaid) n
  rw [h.layout_eq hne] at hfits
  exact fits_of_relocate fun i hi => hfits i (List.mem_append_right _ hi)

/-- The code of either half is no longer than that of the whole. -/
theorem codeSize_le (hne : p₂ ≠ []) :
    codeSize (layoutProgram cs₁ 0) ≤ codeSize (layoutProgram (cs₁ ++ cs₂') 0) ∧
      codeSize (layoutProgram cs₂ 0) ≤ codeSize (layoutProgram (cs₁ ++ cs₂') 0) := by
  rw [h.layout_eq hne, layoutCommands_eq, layoutProgram_eq, layoutProgram_eq]
  simp only [codeSize_append, codeSize_relocate, codeSize_cons, codeSize_nil, size_leavingInstr]
  omega

/-- The constants of either half can be stored if those of the whole can. -/
theorem encodes_constants (hvalid : place₁.scope.Valid) (hlaid : ∀ r ∈ place.routines, r.Laid)
    (hencodes : ∀ v ∈ place.constants, Encodes encodeConstant v) :
    (∀ v ∈ place₁.constants, Encodes encodeConstant v) ∧
      ∀ v ∈ place₂.constants, Encodes encodeConstant v := by
  constructor
  · intro v hv
    exact hencodes v ((resolveStmts_leads p₂ hvalid h.rest).grows v hv)
  · intro v hv
    obtain ⟨i, hi⟩ := Array.mem_iff_getElem?.mp hv
    obtain ⟨v', hi', hrelated⟩ :=
      h.mirrors.same hlaid _ _ place₂.pooledIn_pool place.pooledIn_pool i v hi
    refine (encodes_iff_of_related ?_ hrelated).mpr (hencodes v' (Array.mem_of_getElem? hi'))
    exact fun f f' hsame => ⟨hsame.locals_eq, hsame.params_eq, hsame.size_eq⟩

/-- If the unit of the whole can be stored, and there is room for all of its constants, then the
units of the halves can be stored. -/
theorem storable (hne : p₂ ≠ []) (hstep : c.InStep s)
    (hc : c.Compiled routines n (p₁ ++ p₂) u c' (cs₁ ++ cs₂') place)
    (hc₁ : c.Compiled routines n₁ p₁ u₁ c₁ cs₁ place₁)
    (hc₂ : (c.behind place₁).Compiled place₁.routines n₂ p₂ u₂ c₂ cs₂ place₂)
    (hwhole : c.compile n (p₁ ++ p₂) = (.ok u, c')) (hfirst : c.compile n₁ p₁ = (.ok u₁, c₁))
    (hsecond : (c.behind place₁).compile n₂ p₂ = (.ok u₂, c₂))
    (hlaid : ∀ r ∈ place.routines, r.Laid) (hu : u.Storable)
    (hroom : s.constants.size + place.constants.size < UInt32.size) :
    u₁.Storable ∧ u₂.Storable := by
  have hidle : c.declarations = #[] := congrArg Compiler.declarations hstep.idle
  have hsession₁ : place₁.scope.isSession = true := hc₁.leads.session.trans hstep.session
  have hintro := hc.introduces hidle hstep.session hstep.valid hwhole
  have hintro₁ := hc₁.introduces hidle hstep.session hstep.valid hfirst
  have hintro₂ := hc₂.introduces rfl hsession₁ hc₁.leads.valid hsecond
  have hscope : place.scope = place₂.scope := h.mirrors.scope
  have hsize : place.constants.size = place₂.constants.size + place₁.constants.size := h.mirrors.size
  have hoffset : c.constantsOffset = s.constants.size := hstep.offset
  have hbehind : (c.behind place₁).constantsOffset = c.constantsOffset + place₁.constants.size := rfl
  have hslots : place.scope.slots < UInt32.size := hc.globals ▸ hu.globals
  have hgrow : place₁.scope.slots ≤ place.scope.slots :=
    (resolveStmts_leads p₂ hc₁.leads.valid h.rest).slots
  obtain ⟨hcode₁, hcode₂⟩ := h.codeSize_le hne
  have hcode : u.code.size < UInt32.size := hu.code
  rw [hc.splits.size_eq] at hcode
  obtain ⟨hconstants₁, hconstants₂⟩ := h.encodes_constants hc₁.leads.valid hlaid fun v hv =>
    hu.constants v (hc.constants ▸ Array.mem_toList_iff.mpr hv)
  -- Every name that a half declares is declared by the whole, under which it could be stored.
  have hnames : ∀ d, d ∈ u₁.declarations ∨ d ∈ u₂.declarations → Encodes encodeString d.name := by
    intro d hd
    rw [hscope] at hintro
    obtain ⟨d', hd', hname⟩ := hintro₁.name_mem hintro₂ hintro (d := d) (by simpa using hd)
    rw [← hname]
    exact (encodes_declaration_iff.mp (hu.declarations d' (by simpa using hd'))).1
  constructor
  · exact hc₁.storable hintro₁ (Compiler.compile_declaredType hfirst) (by omega) (by omega) (by omega)
      hconstants₁ (fun d hd => hnames d (.inl hd)) (by omega)
  · exact hc₂.storable hintro₂ (Compiler.compile_declaredType hsecond) (by omega) (by omega)
      (hscope ▸ hslots) hconstants₂ (fun d hd => hnames d (.inr hd)) (by omega)

end Halves

/-! ### Runs -/

/-- Does the run of a unit only compare data without functions, as far as it gets? -/
def Store.ComparesData (u : CompiledUnit) (config : RunConfig) (s : Store) : Prop :=
  ∀ g m, Machine.Reaches ⟨padded s.constants u.constantsOffset ++ u.constants,
      min s.maxCallDepth config.maxCallDepth⟩ (padded s.globals u.globals)
      ⟨⟨u.main, 0, 0⟩, [], #[]⟩ g m → m.ComparesData

/-- Are the constants the same as themselves in any pools that go on after them? Sameness is defined by
recursion through the constants, so this needs the order in which they were added. -/
def Store.Founded (s : Store) : Prop :=
  ∀ pool pool' : Array Value, Continues s.constants pool → Continues s.constants pool' →
    ∀ v ∈ s.constants, v.Related (FunctionCode.Same pool pool') v

variable {s s' : Store} {config : RunConfig} {value : Option Value}

/-- The constants of a unit are in the pool of the store that it is loaded into. -/
theorem pooledIn_loaded (hc : c.Compiled routines n p u c' commands place) (hstep : c.InStep s) :
    place.PooledIn (s.constants ++ place.constants) := by
  intro i v hi
  have hoffset : place.offset = s.constants.size := hc.leads.offset.trans hstep.offset
  rw [hoffset, Array.getElem?_append_right (Nat.le_add_right _ _), Nat.add_sub_cancel_left, hi]

theorem Site.PooledIn.continues {s : Site} {pool pool' : Array Value} (h : s.PooledIn pool)
    (hmore : Continues pool pool') : s.PooledIn pool' :=
  fun i v hi => hmore _ v (h i v hi)

/-- The constants of a unit that was loaded have the same foundation as those that there were. -/
theorem Store.Founded.loaded (h : s.Founded) (hs : s.Linked routines)
    (hc : c.Compiled routines n p u c' commands place) (hstep : c.InStep s)
    (hafter : s'.constants = s.constants ++ place.constants) : s'.Founded := by
  intro pool pool' hpool hpool' v hv
  rw [hafter] at hpool hpool' hv
  have hlaid : ∀ r ∈ place.routines, r.Laid := fun r hr => (hs.load hc hstep 0 r hr).1
  have hpooled := pooledIn_loaded hc hstep
  have hold := continues_append s.constants place.constants
  rcases Array.mem_append.mp hv with hv | hv
  · exact h pool pool' (hold.trans hpool) (hold.trans hpool') v hv
  · exact resolveStmts_related hc.resolved hstep.valid (congrArg Compiler.constants hstep.idle)
      hlaid (hpooled.continues hpool) (hpooled.continues hpool') hv

/-- Values of a store are the same as themselves in pools that go on after its own. -/
theorem Store.Founded.related (h : s.Founded) (hs : s.Linked routines) {pool pool' : Array Value}
    (hpool : Continues s.constants pool) (hpool' : Continues s.constants pool') {v : Value}
    (hv : v.MadeOf (KnownAmong routines)) : v.Related (FunctionCode.Same pool pool') v := by
  refine Value.related_refl fun f hf => ?_
  obtain ⟨r, hr, rfl⟩ := hv f hf
  cases h pool pool' hpool hpool' _ (hs.pooled r hr) with
  | function hsame => exact hsame

/-- So are its globals, those that a unit adds included. -/
theorem Store.Founded.globals (h : s.Founded) (hs : s.Linked routines) {pool pool' : Array Value}
    (hpool : Continues s.constants pool) (hpool' : Continues s.constants pool') (size : Nat) :
    Stacked (FunctionCode.Same pool pool') (padded s.globals size) (padded s.globals size) := by
  refine List.forall₂_same.mpr fun v hv => ?_
  rcases Array.mem_append.mp (Array.mem_toList_iff.mp hv) with hv | hv
  · exact h.related hs hpool hpool' (hs.globals v hv)
  · rw [Array.eq_of_mem_replicate hv]
    exact .null

/-- The run of a unit that has run to its end. -/
theorem Store.Linked.machine_run (hs : s.Linked routines)
    (hc : c.Compiled routines n p u c' commands place) (hstep : c.InStep s)
    (h : s.run u config = (.finished value, s')) :
    Machine.run ⟨s.constants ++ place.constants, min s.maxCallDepth config.maxCallDepth⟩
      (padded s.globals u.globals) ⟨⟨u.main, 0, 0⟩, [], #[]⟩ = ⟨.ok value, s'.globals⟩ := by
  obtain ⟨hends, -, hrun⟩ := Store.run_eq hs hc hstep config
  rw [h] at hrun
  split at hrun
  · rename_i value' hresult
    cases hrun
    rw [← hresult]
    exact Machine.run_of_ends hends
  · cases hrun

namespace Halves

variable (h : Halves c routines p₁ p₂ cs₁ place₁ cs₂ place₂ cs₂' place)
variable {u₁ u₂ : CompiledUnit} {n₁ n₂ : SnippetId} {c₁ c₂ : Compiler} {s₁ : Store}
variable {config₁ config₂ : RunConfig} {value₁ : Option Value}
include h

/-- The pool of the whole goes on after that of the first half. -/
theorem continues (hstep : c.InStep s)
    (hc : c.Compiled routines n (p₁ ++ p₂) u c' (cs₁ ++ cs₂') place)
    (hc₁ : c.Compiled routines n₁ p₁ u₁ c₁ cs₁ place₁) :
    Continues (s.constants ++ place₁.constants) (s.constants ++ place.constants) := by
  intro i v hi
  by_cases hlt : i < s.constants.size
  · rw [Array.getElem?_append_left hlt] at hi ⊢
    exact hi
  · obtain ⟨k, rfl⟩ := Nat.exists_eq_add_of_le (Nat.not_lt.mp hlt)
    rw [Array.getElem?_append_right (Nat.le_add_right _ _), Nat.add_sub_cancel_left] at hi
    have hoffset : u.constantsOffset = s.constants.size := hc.offset.trans hstep.offset
    have hleads := resolveStmts_leads p₂ hc₁.leads.valid h.rest
    rw [← hoffset]
    exact (hleads.covers _ (covers_loaded hc hstep 0)).pool k v hi

/-- The whole begins like the first half. -/
theorem beginsAlike (hne : p₂ ≠ []) (hs : s.Linked routines) (hstep : c.InStep s)
    (hc : c.Compiled routines n (p₁ ++ p₂) u c' (cs₁ ++ cs₂') place)
    (hc₁ : c.Compiled routines n₁ p₁ u₁ c₁ cs₁ place₁) (depth : Nat) :
    BeginsAlike (s.loadedWorld place₁ depth) u₁.main cs₁ (s.constants ++ place.constants) u.main := by
  have hcode := hc.splits.holds
  rw [h.layout_eq hne] at hcode
  exact
    { linked := hs.load hc₁ hstep _
      locals := rfl
      offset := hc₁.offset.trans hc.offset.symm
      constants := h.continues hstep hc hc₁
      uses := hc₁.leads.allowed _ (covers_loaded hc₁ hstep _)
      code := hc₁.splits.holds
      code' := (Code.holds_append.mp hcode).1 }

/-- The whole ends like the second half. -/
theorem endsAlike (hne : p₂ ≠ []) (hs : s.Linked routines) (hstep : c.InStep s)
    (hc : c.Compiled routines n (p₁ ++ p₂) u c' (cs₁ ++ cs₂') place)
    (hs₁ : s₁.Linked place₁.routines) (hstep₁ : (c.behind place₁).InStep s₁)
    (hc₂ : (c.behind place₁).Compiled place₁.routines n₂ p₂ u₂ c₂ cs₂ place₂) (depth : Nat) :
    EndsAlike (s₁.loadedWorld place₂ depth) u₂.main cs₂ (s.constants ++ place.constants) u.main
      place₁.constants.size (codeSize (layoutCommands cs₁ 0)) := by
  have hcode := hc.splits.holds
  rw [h.layout_eq hne] at hcode
  have hcode' := (Code.holds_append.mp hcode).2
  rw [Nat.zero_add] at hcode'
  have hoffset : u.main.constantsOffset = place.offset := hc.offset.trans hc.leads.offset.symm
  have hlaid : ∀ r ∈ place.routines, r.Laid := fun r hr => (hs.load hc hstep 0 r hr).1
  refine ⟨hs₁.load hc₂ hstep₁ _, rfl, ?_, hc₂.leads.allowed _ (covers_loaded hc₂ hstep₁ _),
    hc₂.splits.holds, hcode'⟩
  intro index v huse
  obtain ⟨v', hv', hrelated⟩ := h.mirrors.same hlaid _ _ (pooledIn_loaded hc₂ hstep₁)
    (pooledIn_loaded hc hstep) index v (hc₂.leads.getElem?_of_uses huse)
  rw [hoffset]
  exact ⟨v', pooledIn_loaded hc hstep _ v' hv', hrelated⟩

/-- If the whole runs to its end, then so does the first half, if it does not return. The whole gets
behind the first half with the same globals. -/
theorem first_runs (hne : p₂ ≠ []) (hreturns : Program.returns p₁ = false) (hs : s.Linked routines)
    (hstep : c.InStep s) (hc : c.Compiled routines n (p₁ ++ p₂) u c' (cs₁ ++ cs₂') place)
    (hrun : s.run u config = (.finished value, s'))
    (hc₁ : c.Compiled routines n₁ p₁ u₁ c₁ cs₁ place₁)
    (hdepth : config₁.maxCallDepth = config.maxCallDepth) :
    ∃ value₁ s₁, s.run u₁ config₁ = (.finished value₁, s₁) ∧
      Machine.Reaches ⟨s.constants ++ place.constants, min s.maxCallDepth config.maxCallDepth⟩
        (Store.padded s.globals u.globals) ⟨⟨u.main, 0, 0⟩, [], #[]⟩
        (Store.padded s₁.globals u.globals)
        ⟨⟨u.main, codeSize (layoutCommands cs₁ 0), 0⟩, [], #[]⟩ := by
  have hslots : u₁.globals ≤ u.globals := by
    rw [hc₁.globals, hc.globals]
    exact (resolveStmts_leads p₂ hc₁.leads.valid h.rest).slots
  have hwhole := hs.machine_run hc hstep hrun
  rw [← Store.padded_padded hslots] at hwhole ⊢
  obtain ⟨value₁, g₁, hfirst, hreach⟩ := (h.beginsAlike hne hs hstep hc hc₁ _).finishes
    (hs.fits_padded hc₁ hstep _)
    (fun calls => Semantics.resolveStmts_stays calls p₁ h.first hreturns) hwhole
  have hfirst : Semantics.run place₁.routines (min s.maxCallDepth config.maxCallDepth) cs₁
      (Store.padded s.globals u₁.globals) = ⟨.ok value₁, g₁⟩ := hfirst
  obtain ⟨-, -, hrun₁⟩ := Store.run_eq hs hc₁ hstep config₁
  rw [hdepth, hfirst] at hrun₁
  exact ⟨value₁, _, hrun₁, hreach⟩

/-- If the whole runs to its end and only compares data, then the second half runs to its end where
the first one has left the store. It has the same value as the whole, and leaves the same globals. -/
theorem second_runs (hne : p₂ ≠ []) (hs : s.Linked routines) (hfounded : s.Founded)
    (hstep : c.InStep s) (hc : c.Compiled routines n (p₁ ++ p₂) u c' (cs₁ ++ cs₂') place)
    (hrun : s.run u config = (.finished value, s')) (hcompares : s.ComparesData u config)
    (hc₁ : c.Compiled routines n₁ p₁ u₁ c₁ cs₁ place₁)
    (hrun₁ : s.run u₁ config₁ = (.finished value₁, s₁))
    (hreach : Machine.Reaches ⟨s.constants ++ place.constants, min s.maxCallDepth config.maxCallDepth⟩
      (Store.padded s.globals u.globals) ⟨⟨u.main, 0, 0⟩, [], #[]⟩
      (Store.padded s₁.globals u.globals)
      ⟨⟨u.main, codeSize (layoutCommands cs₁ 0), 0⟩, [], #[]⟩)
    (hc₂ : (c.behind place₁).Compiled place₁.routines n₂ p₂ u₂ c₂ cs₂ place₂)
    (hdepth : config₂.maxCallDepth = config.maxCallDepth) :
    ∃ value₂ s₂, s₁.run u₂ config₂ = (.finished value₂, s₂) ∧
      Option.Rel (Value.Related (FunctionCode.Same s₂.constants s'.constants)) value₂ value ∧
      Stacked (FunctionCode.Same s₂.constants s'.constants) s₂.globals s'.globals := by
  obtain ⟨hs₁, hstep₁, -, hconstants₁, hdepth₁⟩ := hs.finished hc₁ hstep hrun₁
  obtain ⟨-, -, -, hconstants, -⟩ := hs.finished hc hstep hrun
  obtain rfl : c₁ = c.behind place₁ := hc₁.after
  have hfounded₁ : s₁.Founded := hfounded.loaded hs hc₁ hstep hconstants₁
  have hslots : u₂.globals = u.globals := by
    rw [hc₂.globals, hc.globals, h.mirrors.scope]
  have hfits := hs₁.fits_padded hc₂ hstep₁ (min s.maxCallDepth config.maxCallDepth)
  have hpool : Continues s₁.constants (s.constants ++ place.constants) := by
    rw [hconstants₁]
    exact h.continues hstep hc hc₁
  -- Globals that the first half left are in both stores. They are the same as themselves in either pool, and so
  -- are the nulls that fill up the rest.
  have hglobals : Stacked
      (FunctionCode.Same (s₁.constants ++ place₂.constants) (s.constants ++ place.constants))
      (Store.padded s₁.globals u₂.globals) (Store.padded s₁.globals u.globals) := by
    rw [hslots]
    exact hfounded₁.globals hs₁ (continues_append _ _) hpool _
  -- What the second half compares on its way is compared by the whole on the rest of its way.
  have hcompare : ((s₁.loadedWorld place₂ (min s.maxCallDepth config.maxCallDepth)).mirrored
      (s.constants ++ place.constants)).ComparesFrom (Store.padded s₁.globals u.globals)
      ⟨⟨u.main, codeSize (layoutCommands cs₁ 0), 0⟩, [], #[]⟩ := by
    refine .inr fun g m hmore => hcompares g m ?_
    rw [pool_loaded hc hstep]
    exact hreach.trans hmore
  have hwhole := hs.machine_run hc hstep hrun
  rw [Machine.run_of_reaches hreach] at hwhole
  obtain ⟨value₂, g₂, hsecond, hvalue, hleft⟩ :=
    (h.endsAlike hne hs hstep hc hs₁ hstep₁ hc₂ _).finishes hfits hglobals hcompare hwhole
  have hsecond : Semantics.run place₂.routines (min s.maxCallDepth config.maxCallDepth) cs₂
      (Store.padded s₁.globals u₂.globals) = ⟨.ok value₂, g₂⟩ := hsecond
  obtain ⟨-, -, hrun₂⟩ := Store.run_eq hs₁ hc₂ hstep₁ config₂
  rw [hdepth, hdepth₁, hsecond] at hrun₂
  rw [hconstants]
  exact ⟨value₂, _, hrun₂, hvalue, hleft⟩

end Halves

/-- A snippet compiles to a unit that can be stored, and that runs to its end. This is what an engine needs to
evaluate it, files apart. -/
structure Finishes (c : Compiler) (s : Store) (config : RunConfig) (p : Program) (u : CompiledUnit)
    (c' : Compiler) (value : Option Value) (s' : Store) : Prop where
  compiles : c.compile config.snippet p = (.ok u, c')
  storable : u.Storable
  runs : s.run u config = (.finished value, s')

/-- If a snippet finishes, then so do its two halves, one after the other. The second one has the same
value and type as the whole, and leaves the same names and globals behind. -/
theorem Finishes.halves (h : Finishes c s config (p₁ ++ p₂) u c' value s') (hne : p₂ ≠ [])
    (hreturns : Program.returns p₁ = false) (hs : s.Linked routines) (hfounded : s.Founded)
    (hstep : c.InStep s) (hcompares : s.ComparesData u config)
    (hroom : s'.constants.size < UInt32.size) (n₁ n₂ : SnippetId) :
    ∃ u₁ c₁ value₁ s₁ u₂ c₂ value₂ s₂,
      Finishes c s ⟨n₁, config.maxCallDepth⟩ p₁ u₁ c₁ value₁ s₁ ∧
      Finishes c₁ s₁ ⟨n₂, config.maxCallDepth⟩ p₂ u₂ c₂ value₂ s₂ ∧
      u₂.declaredType = u.declaredType ∧ c₂.scope = c'.scope ∧
      Option.Rel (Value.Related (FunctionCode.Same s₂.constants s'.constants)) value₂ value ∧
      Stacked (FunctionCode.Same s₂.constants s'.constants) s₂.globals s'.globals := by
  have hbuffer : c.buffer = {} := congrArg Compiler.buffer hstep.idle
  obtain ⟨commands, place, hc⟩ := Compiler.compile_eq_ok hbuffer hstep.valid h.compiles routines
  -- The whole resolves in halves. Then, in this order: both compile, both run, and both can be stored.
  obtain ⟨cs₁, place₁, cs₂, place₂, cs₂', rfl, hhalves⟩ := exists_halves hstep.valid hc.resolved
  have hlaid : ∀ r ∈ place.routines, r.Laid := fun r hr => (hs.load hc hstep 0 r hr).1
  obtain ⟨u₁, c₁, hfirst⟩ := hhalves.first_compiles hne hbuffer hstep.valid hc.splits.2 hlaid n₁
  obtain ⟨_, _, hc₁⟩ := Compiler.compile_eq_ok hbuffer hstep.valid hfirst routines
  cases hhalves.first.symm.trans hc₁.resolved
  obtain rfl : c₁ = c.behind place₁ := hc₁.after
  obtain ⟨u₂, c₂, hsecond⟩ := hhalves.second_compiles hne hstep.valid hc.splits.2 hlaid n₂
  obtain ⟨_, _, hc₂⟩ := Compiler.compile_eq_ok rfl hc₁.leads.valid hsecond place₁.routines
  cases hhalves.second.symm.trans hc₂.resolved
  have hdepth : ∀ n : SnippetId,
      (⟨n, config.maxCallDepth⟩ : RunConfig).maxCallDepth = config.maxCallDepth := fun _ => rfl
  obtain ⟨value₁, s₁, hrun₁, hreach⟩ :=
    hhalves.first_runs hne hreturns hs hstep hc h.runs hc₁ (hdepth n₁)
  obtain ⟨value₂, s₂, hrun₂, hvalue, hleft⟩ := hhalves.second_runs hne hs hfounded hstep hc h.runs
    hcompares hc₁ hrun₁ hreach hc₂ (hdepth n₂)
  obtain ⟨-, -, -, hconstants, -⟩ := hs.finished hc hstep h.runs
  rw [hconstants, Array.size_append] at hroom
  obtain ⟨hstorable₁, hstorable₂⟩ := hhalves.storable hne hstep hc hc₁ hc₂ h.compiles hfirst hsecond
    hlaid h.storable hroom
  refine ⟨u₁, _, value₁, s₁, u₂, c₂, value₂, s₂, ⟨hfirst, hstorable₁, hrun₁⟩,
    ⟨hsecond, hstorable₂, hrun₂⟩, ?_, ?_, hvalue, hleft⟩
  · rw [Compiler.compile_declaredType hsecond, Compiler.compile_declaredType h.compiles,
      Program.valueType_append hne]
  · rw [hc₂.after, hc.after]
    exact hhalves.mirrors.scope.symm

end

end Notebook
