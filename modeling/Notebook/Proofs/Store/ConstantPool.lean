import Notebook.Proofs.Machine.ExecutedCode
import Notebook.Proofs.Machine.GlobalAssignments

/-!
The pool of constants when units are run in any order.

The units of one compiler have places of their own in the pool, one after another. A store may be given
them in any order, more than once or not at all, and any of them may fail: it never loads a unit at a
place that may have been taken, so a function finds the constants of its own unit for as long as it
lives.

* `Compiler.Ready.coherent_compileAll`: the units of one compiler are closed and do not overlap.
* `Store.Fed`: the states of a store that is given such units.
* `Store.Pooled.run`, `Store.Pooled.call`: whatever the store holds or returns comes from units that
  are where their functions look for them.
* `Machine.ReadsOwn`: an instruction that reads a constant reads the one of its own unit.
* `Store.Fed.reads_own`: so it is whenever such a store runs a unit or calls a function, and a unit
  whose place may have been taken is refused.
-/

namespace Notebook

/-! ### Units of one compiler -/

/-- The units of some snippets that are compiled one after another. A snippet that does not compile
leaves none. -/
def Compiler.compileAll : List (SnippetId × Program) → Compiler → List CompiledUnit
  | [], _ => []
  | (n, p) :: rest, c =>
    match c.compile n p with
    | (.ok u, c) => u :: compileAll rest c
    | (.error _, c) => compileAll rest c

namespace CompiledUnit

def Has (u : CompiledUnit) (f : FunctionCode) : Prop := f = u.main ∨ .function f ∈ u.constants

/-- Does a unit hold its own functions only, and do these refer to its own constants only? Operands of constants
count from the unit's place in the pool, and are fewer than it has constants. -/
structure Closed (u : CompiledUnit) : Prop where
  constants : ∀ v ∈ u.constants, v.MadeOf u.Has
  offset : ∀ f, u.Has f → f.constantsOffset = u.constantsOffset
  code : ∀ f, u.Has f → ∃ places, f.code.Advances f.code.size places ∧
    ∀ p k next, places p → f.code.fetch p = .ok ⟨.constant, k, next⟩ → k < u.constants.length

/-- Do the constants of a unit end where those of another one start, or before? A unit without constants may
share its place with the next one. -/
def Precedes (u u' : CompiledUnit) : Prop :=
  u.constantsOffset + u.constants.length ≤ u'.constantsOffset

end CompiledUnit

/-- Are some units closed, with constants that do not overlap? -/
structure Coherent (units : List CompiledUnit) : Prop where
  closed : ∀ u ∈ units, u.Closed
  apart : units.Pairwise CompiledUnit.Precedes

/-- Units with a constant at the same place are the same. -/
theorem Coherent.eq_of_offset {units : List CompiledUnit} (h : Coherent units)
    {u u' : CompiledUnit} (hu : u ∈ units) (hu' : u' ∈ units) {k : Nat}
    (hoffset : u.constantsOffset = u'.constantsOffset) (hk : k < u.constants.length)
    (hk' : k < u'.constants.length) : u = u' := by
  obtain ⟨i, hi, rfl⟩ := List.mem_iff_getElem.mp hu
  obtain ⟨j, hj, rfl⟩ := List.mem_iff_getElem.mp hu'
  have hapart := List.pairwise_iff_getElem.mp h.apart
  unfold CompiledUnit.Precedes at hapart
  rcases Nat.lt_trichotomy i j with hlt | rfl | hlt
  · have := hapart i j hi hj hlt
    omega
  · rfl
  · have := hapart j i hj hi hlt
    omega

/-- In the functions of some units control only moves forward, and there is a longest code. -/
theorem Coherent.advances {units : List CompiledUnit} (hunits : Coherent units) :
    ∃ length, ∀ f, (∃ u ∈ units, u.Has f) → f.Advances length := by
  let codes := (units.flatMap fun u => Value.function u.main :: u.constants).toArray
  refine ⟨longestCode codes, fun f ⟨u, hu, hhas⟩ => ?_⟩
  obtain ⟨places, hadvances, -⟩ := (hunits.closed u hu).code f hhas
  have hmem : Value.function f ∈ codes := by
    refine List.mem_toArray.mpr (List.mem_flatMap.mpr ⟨u, hu, ?_⟩)
    rcases hhas with rfl | hf
    · exact List.mem_cons_self
    · exact List.mem_cons_of_mem _ hf
  exact ⟨places, { hadvances with size_le := codeSize_le_longestCode hmem }⟩

/-- In code that leaves at its end, operands of constants are within the constants there are. -/
theorem Leaving.constant_lt {code : Code} {w : Bounds} {constants p k next : Nat} {is : List Instr}
    (hpool : w.pool.size ≤ w.offset + constants) (hsplits : code.Splits is)
    (h : Leaving (·.Allowed w) 0 is) (hplace : ∃ i, Stands 0 is p i)
    (hfetch : code.fetch p = .ok ⟨.constant, k, next⟩) : k < constants := by
  obtain ⟨i, hi⟩ := hplace
  have hread := hi.fetch hsplits.holds
  rw [hfetch] at hread
  obtain ⟨before, rest, rfl, -⟩ := stands_iff.mp hi
  obtain ⟨-, hmeets, -⟩ := h.closed
  have hwithin := (hmeets i (by simp)).within hpool
  unfold Instr.Within at hwithin
  obtain ⟨op, operand⟩ := i
  cases hread
  exact hwithin

namespace Compiler

variable {c c' : Compiler} {n : SnippetId} {p : Program} {u : CompiledUnit}

/-- The unit of a snippet is closed. -/
theorem Ready.closed (hc : c.Ready) (h : c.compile n p = (.ok u, c')) : u.Closed := by
  obtain ⟨s, hstep, hsize⟩ := hc.inStep
  obtain ⟨commands, place, hcompiled⟩ :=
    compile_eq_ok (congrArg Compiler.buffer hc.idle) hc.valid h []
  -- The bounds of a world in which nothing comes after the unit's own constants tell that its operands do not
  -- go beyond these.
  have hcovers := covers_loaded hcompiled hstep 0
  have hpool : (s.constants ++ place.constants).size ≤ u.constantsOffset + u.constants.length := by
    refine Nat.le_of_eq ?_
    rw [hcompiled.offset, hcompiled.constants, Array.length_toList, Array.size_append, hsize]
  have hliteral : ∀ v ∈ u.constants, v.IsLiteral ((s.loadedWorld place 0).bounds u.main true) := by
    intro v hv
    rw [hcompiled.constants, Array.mem_toList_iff] at hv
    exact constants_loaded hcompiled hstep 0 hv
  refine ⟨fun v hv => ?_, fun f hf => ?_, fun f hf => ?_⟩
  · have hlit := hliteral v hv
    cases v with
    | function f => exact (Value.madeOf_function f).mpr (.inr hv)
    | int n => exact Value.madeOf_int n
    | str text => exact Value.madeOf_str text
    | _ => exact hlit.elim
  · rcases hf with rfl | hf
    · rfl
    · exact offset_loaded hcompiled hstep hf
  · rcases hf with rfl | hf
    · have hleaving := leaving_of_program commands 0 (hcompiled.leads.allowed _ hcovers)
      refine ⟨_, hleaving.advances hcompiled.splits (Nat.le_refl _), fun q k next hq hfetch => ?_⟩
      exact hleaving.constant_lt hpool hcompiled.splits hq hfetch
    · obtain ⟨⟨r, hr, rfl⟩, -⟩ := hliteral _ hf
      have hsplits := hcompiled.laid (fun r hr => absurd hr List.not_mem_nil) r hr
      rcases hcompiled.leads.keeps _ hcovers r hr with hr | ⟨-, -, huses⟩
      · cases hr
      · have hleaving := leaving_of_body r.body 0 huses
        refine ⟨_, hleaving.advances hsplits (Nat.le_refl _), fun q k next hq hfetch => ?_⟩
        exact hleaving.constant_lt hpool hsplits hq hfetch

/-- The constants of the next snippet go behind those of a snippet that was compiled. -/
theorem Ready.offset_compile (hc : c.Ready) (n : SnippetId) (p : Program) :
    (∀ u, (c.compile n p).1 = .ok u → u.constantsOffset = c.constantsOffset ∧
      (c.compile n p).2.constantsOffset = u.constantsOffset + u.constants.length) ∧
    ∀ cause, (c.compile n p).1 = .error cause →
      (c.compile n p).2.constantsOffset = c.constantsOffset := by
  refine ⟨fun u hu => ?_, fun cause hcause => ?_⟩
  · obtain ⟨commands, place, hcompiled⟩ := compile_eq_ok (congrArg Compiler.buffer hc.idle) hc.valid
      (show c.compile n p = (.ok u, _) from Prod.ext hu rfl) []
    refine ⟨hcompiled.offset, (congrArg Compiler.constantsOffset hcompiled.after).trans ?_⟩
    rw [hcompiled.offset, hcompiled.constants, Array.length_toList]
    rfl
  · unfold Compiler.compile at hcause ⊢
    split <;> rename_i htop
    · rw [htop] at hcause
      cases hcause
    · rfl

/-- The units of one compiler are closed, and their constants are one behind another. Snippets that do not
compile leave no gap. -/
theorem Ready.coherent_compileAll (hc : c.Ready) (snippets : List (SnippetId × Program)) :
    Coherent (compileAll snippets c) ∧
      ∀ u ∈ compileAll snippets c, c.constantsOffset ≤ u.constantsOffset := by
  induction snippets generalizing c with
  | nil => exact ⟨⟨fun u hu => absurd hu List.not_mem_nil, .nil⟩, fun u hu => absurd hu List.not_mem_nil⟩
  | cons snippet rest ih =>
    obtain ⟨n, p⟩ := snippet
    obtain ⟨hoffset, herror⟩ := hc.offset_compile n p
    obtain ⟨⟨hclosed, hapart⟩, hbehind⟩ := ih (hc.compile n p)
    unfold compileAll
    rcases hcompile : c.compile n p with ⟨cause | u, c'⟩
    · rw [hcompile] at herror hclosed hapart hbehind
      exact ⟨⟨hclosed, hapart⟩, fun u hu => herror cause rfl ▸ hbehind u hu⟩
    · rw [hcompile] at hoffset hclosed hapart hbehind
      obtain ⟨hhere, hnext⟩ := hoffset u rfl
      simp only at hnext hclosed hapart hbehind
      have hbehind' : ∀ u' ∈ compileAll rest c', u.Precedes u' := by
        intro u' hu'
        unfold CompiledUnit.Precedes
        exact hnext ▸ hbehind u' hu'
      refine ⟨⟨List.forall_mem_cons.mpr ⟨hc.closed hcompile, hclosed⟩, .cons hbehind' hapart⟩, ?_⟩
      refine List.forall_mem_cons.mpr ⟨Nat.le_of_eq hhere.symm, fun u' hu' => ?_⟩
      have := hbehind' u' hu'
      unfold CompiledUnit.Precedes at this
      omega

end Compiler

/-! ### Loaded units -/

/-- Are the constants of a unit where its functions look for them? -/
def CompiledUnit.LoadedIn (u : CompiledUnit) (pool : Array Value) : Prop :=
  ∀ (k : Nat) (v : Value), u.constants[k]? = some v → pool[u.constantsOffset + k]? = some v

/-- Is this a function of a unit that is loaded? The constants of a unit that failed are taken out of the pool
again, so its functions are none of these. -/
def LoadedFrom (units : List CompiledUnit) (pool : Array Value) (f : FunctionCode) : Prop :=
  ∃ u ∈ units, u.Has f ∧ u.LoadedIn pool

/-- What is loaded stays loaded in a pool that grows. -/
theorem LoadedFrom.grown {units : List CompiledUnit} {pool pool' : Array Value} {f : FunctionCode}
    (hpool : ∀ (i : Nat) (v : Value), pool[i]? = some v → pool'[i]? = some v)
    (h : LoadedFrom units pool f) : LoadedFrom units pool' f := by
  obtain ⟨u, hu, hhas, hloaded⟩ := h
  exact ⟨u, hu, hhas, fun k v hv => hpool _ _ (hloaded k v hv)⟩

namespace Machine

/-- Does the next step of a machine, if it reads a constant, push the one of the unit that the active function
comes from? If several units have the function, then the one of each of them. -/
def ReadsOwn (units : List CompiledUnit) (setting : Setting) (globals : Array Value) (m : Machine) :
    Prop :=
  (∃ u ∈ units, u.Has m.frame.function) ∧
    ∀ u ∈ units, u.Has m.frame.function → ∀ k next,
      m.frame.function.code.fetch m.frame.ip = .ok ⟨.constant, k, next⟩ →
      ∃ v, u.constants[k]? = some v ∧ step setting globals m =
        (push m.stack v).map fun stack => .next ⟨{ m.frame with ip := next }, m.callers, stack⟩

/-- A machine that has functions of loaded units only reads what is theirs: the operand counts from the unit's
place, and is less than the number of its constants. -/
theorem Confined.readsOwn {units : List CompiledUnit} (hunits : Coherent units)
    {setting : Setting} {g : Array Value} {m : Machine}
    (hm : m.Confined (LoadedFrom units setting.constants) setting g) :
    m.ReadsOwn units setting g := by
  obtain ⟨⟨⟨u, hu, hhas, hloaded⟩, hgets⟩, -⟩ := List.forall_mem_cons.mp hm.frames
  have hinside : ∀ u ∈ units, u.Has m.frame.function → ∀ k next,
      m.frame.function.code.fetch m.frame.ip = .ok ⟨.constant, k, next⟩ →
      k < u.constants.length := by
    intro u hu hhas k next hfetch
    obtain ⟨places, hadvances, hconstants⟩ := (hunits.closed u hu).code _ hhas
    exact hconstants _ k next (hadvances.place_of_gets hgets) hfetch
  refine ⟨⟨u, hu, hhas⟩, fun u' hu' hhas' k next hfetch => ?_⟩
  have hoffset := (hunits.closed u hu).offset _ hhas
  have hk := hinside u hu hhas k next hfetch
  obtain rfl : u' = u :=
    hunits.eq_of_offset hu' hu (((hunits.closed u' hu').offset _ hhas').symm.trans hoffset)
      (hinside u' hu' hhas' k next hfetch) hk
  refine ⟨u'.constants[k], List.getElem?_eq_getElem hk, ?_⟩
  have hread := hloaded k _ (List.getElem?_eq_getElem hk)
  rw [← hoffset] at hread
  obtain ⟨frame, callers, stack⟩ := m
  simp only [step, hfetch, execute, compute, hread]
  cases push stack u'.constants[k] <;> rfl

end Machine

/-! ### Stores that are given units -/

def RunOutcome.values : RunOutcome → List Value
  | .finished (some v) => [v]
  | _ => []

namespace Store

/-- Does a function occur in a global, or in a value that was given out? -/
def Offers (s : Store) (returned : List Value) (f : FunctionCode) : Prop :=
  ∃ v, (v ∈ s.globals ∨ v ∈ returned) ∧ f ∈ v.functions

/-- The states of a store that starts empty and is given some units, in any order and any number of times, with
the values that it has given out. In between, values are called that are made of what it holds and has given
out. Units may be skipped, repeated or refused, and may fail. -/
inductive Fed (units : List CompiledUnit) (depth : Nat) : Store → List Value → Prop where
  | new : Fed units depth { maxCallDepth := depth } []
  | run {s : Store} {returned : List Value} (before : Fed units depth s returned)
      {u : CompiledUnit} (given : u ∈ units) (config : RunConfig) :
      Fed units depth (s.run u config).2 ((s.run u config).1.values ++ returned)
  | call {s : Store} {returned : List Value} (before : Fed units depth s returned) {f : Value}
      {args : List Value} (callee : f.MadeOf (s.Offers returned))
      (arguments : ∀ v ∈ args, v.MadeOf (s.Offers returned)) :
      Fed units depth (s.call f args).2 ((s.call f args).1.toOption.toList ++ returned)

/-- What a unit runs against that is not refused. -/
def settingOf (u : CompiledUnit) (config : RunConfig) (s : Store) : Setting :=
  ⟨padded s.constants u.constantsOffset ++ u.constants, min s.maxCallDepth config.maxCallDepth⟩

/-- Is this a moment of the run of a unit? There are none of a unit that is refused. The first one is before any
instruction. -/
def Runs (s : Store) (u : CompiledUnit) (config : RunConfig) (g : Array Value) (m : Machine) :
    Prop :=
  s.constants.size ≤ u.constantsOffset ∧
    Machine.Reaches (s.settingOf u config) (padded s.globals u.globals) ⟨⟨u.main, 0, 0⟩, [], #[]⟩ g m

/-- Is this a moment of a call from outside? There are none of a builtin. -/
def Calls (s : Store) (f : Value) (args : List Value) (g : Array Value) (m : Machine) : Prop :=
  ∃ stack frame stack', Machine.pushAll #[] (f :: args) = .ok stack ∧
    Machine.enter s.maxCallDepth 0 args.length stack = .ok (some frame, stack') ∧
    Machine.Reaches ⟨s.constants, s.maxCallDepth⟩ s.globals ⟨frame, [], stack'⟩ g m

/-- Does all that a store holds and has given out come from units that are loaded? This is the invariant of
`Fed`. It survives gaps in the pool, as nulls hold no functions. -/
structure Pooled (units : List CompiledUnit) (returned : List Value) (s : Store) : Prop where
  constants : ∀ v ∈ s.constants, v.MadeOf (LoadedFrom units s.constants)
  globals : ∀ v ∈ s.globals, v.MadeOf (LoadedFrom units s.constants)
  returned : ∀ v ∈ returned, v.MadeOf (LoadedFrom units s.constants)

section

variable {units : List CompiledUnit} {returned : List Value} {s : Store} {u : CompiledUnit}

/-- Nulls that fill up values hold no functions. -/
theorem madeOf_of_padded {known : FunctionCode → Prop} {values : Array Value}
    (h : ∀ v ∈ values, v.MadeOf known) (n : Nat) : ∀ v ∈ padded values n, v.MadeOf known := by
  intro v hv
  rcases Array.mem_append.mp hv with hv | hv
  · exact h v hv
  · rw [Array.eq_of_mem_replicate hv]
    exact Value.madeOf_null

theorem settingOf_constants (u : CompiledUnit) (config : RunConfig) (s : Store) :
    (s.settingOf u config).constants =
      padded s.constants u.constantsOffset ++ u.constants.toArray :=
  Array.ext' (by simp [settingOf])

/-- The pool of a unit that is not refused holds what the store had, and the unit where it belongs. -/
theorem loaded_settingOf (haccepted : s.constants.size ≤ u.constantsOffset) (config : RunConfig) :
    (∀ (i : Nat) (v : Value), s.constants[i]? = some v →
      (s.settingOf u config).constants[i]? = some v) ∧
      u.LoadedIn (s.settingOf u config).constants := by
  have hsize : (padded s.constants u.constantsOffset).size = u.constantsOffset := by
    rw [padded, Array.size_append, Array.size_replicate]
    omega
  rw [settingOf_constants]
  constructor
  · intro i v hv
    have hi := (Array.getElem?_eq_some_iff.mp hv).1
    rw [padded, Array.append_assoc, Array.getElem?_append_left hi]
    exact hv
  · intro k v hv
    rw [Array.getElem?_append_right (by omega), hsize, Nat.add_sub_cancel_left]
    simpa using hv

/-- A unit that is not refused starts with functions of loaded units only. -/
theorem Pooled.confined_run (hs : s.Pooled units returned) (hunits : Coherent units)
    (hu : u ∈ units) (haccepted : s.constants.size ≤ u.constantsOffset) (config : RunConfig) :
    Machine.Confined (LoadedFrom units (s.settingOf u config).constants) (s.settingOf u config)
      (padded s.globals u.globals) ⟨⟨u.main, 0, 0⟩, [], #[]⟩ := by
  obtain ⟨hkept, hloaded⟩ := loaded_settingOf haccepted config
  have hgrown : ∀ f, LoadedFrom units s.constants f →
      LoadedFrom units (s.settingOf u config).constants f := fun f hf => hf.grown hkept
  refine .start (fun v hv => ?_) ?_ ⟨u, hu, .inl rfl, hloaded⟩
    fun v hv => absurd hv (Array.not_mem_empty v)
  · rw [settingOf_constants] at hv
    rcases Array.mem_append.mp hv with hv | hv
    · exact madeOf_of_padded (fun v hv => (hs.constants v hv).mono hgrown) _ v hv
    · have hmade := (hunits.closed u hu).constants v (List.mem_toArray.mp hv)
      exact hmade.mono fun f hf => ⟨u, hu, hf, hloaded⟩
  · exact madeOf_of_padded (fun v hv => (hs.globals v hv).mono hgrown) _

/-- What the run of a unit that is not refused ends with tells what becomes of the store. -/
theorem run_of_accepted (haccepted : s.constants.size ≤ u.constantsOffset) {config : RunConfig}
    {ran : Ran (Option Value)} (hends : Machine.Ends (s.settingOf u config)
      (padded s.globals u.globals) ⟨⟨u.main, 0, 0⟩, [], #[]⟩ ran) :
    s.run u config = match ran.result with
      | .ok value => (.finished value, { s with
          constants := (s.settingOf u config).constants, globals := ran.globals,
          bindings := bind u.snippet u.declarations s.bindings })
      | .error error => (.failed error, s) := by
  have hran : Machine.runCode (s.settingOf u config) (padded s.globals u.globals) u.main = ran :=
    Machine.run_of_ends hends
  have hload : (⟨u.code, u.constantsOffset, 0, 0⟩ : FunctionCode) = u.main := rfl
  unfold Store.run
  rw [if_neg (Nat.not_lt.mpr haccepted)]
  unfold settingOf at hran ⊢
  cases hresult : ran.result <;> simp only [hload, hran, hresult]

/-- Running a unit leaves a store whose functions come from loaded units, and gives out no others. -/
theorem Pooled.run (hs : s.Pooled units returned) (hunits : Coherent units) (hu : u ∈ units)
    (config : RunConfig) :
    (s.run u config).2.Pooled units ((s.run u config).1.values ++ returned) := by
  by_cases hbelow : u.constantsOffset < s.constants.size
  · rw [Store.run, if_pos hbelow]
    exact hs
  · have haccepted := Nat.not_lt.mp hbelow
    have hconfined := hs.confined_run hunits hu haccepted config
    obtain ⟨hkept, -⟩ := loaded_settingOf haccepted config
    obtain ⟨length, hadvances⟩ := hunits.advances
    obtain ⟨ran, hends⟩ := hconfined.exists_ends fun f ⟨u, hu, hhas, _⟩ =>
      hadvances f ⟨u, hu, hhas⟩
    obtain ⟨hglobals, hvalue⟩ := hconfined.ends hends
    rw [run_of_accepted haccepted hends]
    cases hresult : ran.result with
    | error error => exact hs
    | ok value =>
      refine ⟨hconfined.constants, hglobals, fun v hv => ?_⟩
      rcases List.mem_append.mp hv with hv | hv
      · cases value with
        | none => cases hv
        | some w =>
          rw [List.mem_singleton.mp hv]
          exact hvalue _ hresult
      · exact (hs.returned v hv).mono fun f hf => hf.grown hkept

/-- What is made of what a store holds and has given out comes from loaded units. -/
theorem Pooled.offers (hs : s.Pooled units returned) {v : Value} (h : v.MadeOf (s.Offers returned)) :
    v.MadeOf (LoadedFrom units s.constants) := by
  refine h.mono ?_
  rintro f ⟨w, hw | hw, hf⟩
  · exact hs.globals w hw f hf
  · exact hs.returned w hw f hf

/-- Calling a value leaves a store whose functions come from loaded units, and gives out no others. -/
theorem Pooled.call (hs : s.Pooled units returned) (hunits : Coherent units) {f : Value}
    {args : List Value} (hf : f.MadeOf (s.Offers returned))
    (hargs : ∀ v ∈ args, v.MadeOf (s.Offers returned)) :
    (s.call f args).2.Pooled units ((s.call f args).1.toOption.toList ++ returned) := by
  unfold Store.call
  split
  · obtain ⟨length, hadvances⟩ := hunits.advances
    obtain ⟨hglobals, hvalue⟩ := Machine.madeOf_of_call ⟨s.constants, s.maxCallDepth⟩
      (fun f ⟨u, hu, hhas, _⟩ => hadvances f ⟨u, hu, hhas⟩) hs.constants hs.globals (hs.offers hf)
      (fun v hv => hs.offers (hargs v hv))
    refine ⟨hs.constants, hglobals, fun v hv => ?_⟩
    rcases List.mem_append.mp hv with hv | hv
    · simp only [Option.mem_toList, Except.toOption] at hv
      split at hv
      · cases hv
        exact hvalue _ ‹_›
      · cases hv
    · exact hs.returned v hv
  · exact hs

/-- A store that is given the units of one compiler holds functions of loaded units only. -/
theorem Fed.pooled (hunits : Coherent units) {depth : Nat} (h : Fed units depth s returned) :
    s.Pooled units returned := by
  induction h with
  | new =>
    exact ⟨fun v hv => absurd hv (Array.not_mem_empty v), fun v hv => absurd hv (Array.not_mem_empty v),
      fun v hv => absurd hv List.not_mem_nil⟩
  | run _ given config ih => exact ih.run hunits given config
  | call _ callee arguments ih => exact ih.call hunits callee arguments

/-- Whatever units of one compiler a store was given, in which order and how often: a unit that starts
below the end of the pool is refused and changes nothing. At every moment of the run of another one, and
of a call of anything that the store holds or has given out, the active function comes from one of the
units, and where it reads a constant, the one of this unit is read. -/
theorem Fed.reads_own {snippets : List (SnippetId × Program)} {depth : Nat}
    (h : Fed (Compiler.compileAll snippets {}) depth s returned) :
    let units := Compiler.compileAll snippets {}
    (∀ u ∈ units, ∀ config, u.constantsOffset < s.constants.size →
      s.run u config = (.skipped (mismatch u s), s)) ∧
    (∀ u ∈ units, ∀ config g m, s.Runs u config g m →
      m.ReadsOwn units (s.settingOf u config) g) ∧
    ∀ f args g m, f.MadeOf (s.Offers returned) → (∀ v ∈ args, v.MadeOf (s.Offers returned)) →
      s.Calls f args g m → m.ReadsOwn units ⟨s.constants, s.maxCallDepth⟩ g := by
  intro units
  have hnew : Compiler.Ready {} := Compiler.Reachable.new.ready
  obtain ⟨hunits, -⟩ := hnew.coherent_compileAll snippets
  have hs := h.pooled hunits
  refine ⟨fun u _ config hbelow => if_pos hbelow, ?_, ?_⟩
  · rintro u hu config g m ⟨haccepted, hreaches⟩
    exact ((hs.confined_run hunits hu haccepted config).reaches hreaches).readsOwn hunits
  · rintro f args g m hf hargs ⟨stack, frame, stack', hpushed, hentered, hreaches⟩
    obtain ⟨-, hconfined⟩ := Machine.Confined.entered ⟨s.constants, s.maxCallDepth⟩
      hs.constants hs.globals (hs.offers hf) (fun v hv => hs.offers (hargs v hv)) hpushed hentered
    exact ((hconfined frame rfl).reaches hreaches).readsOwn hunits

/-- Two units, of which the second one is run first: nulls fill the place of the first one, which is
refused from then on, and the function that the second one left reads its own constant. -/
theorem reads_own_of_padded :
    let snippets : List (SnippetId × Program) := [(0, [.letIn "f" (.function [] [.expr (.int 1)])]),
      (1, [.letIn "g" (.function [] [.expr (.int 2)]), .expr (.ident "g")])]
    let units := Compiler.compileAll snippets {}
    let start : Store := { maxCallDepth := 3 }
    let f : FunctionCode := ⟨⟨#[0, 0, 0, 21]⟩, 2, 0, 0⟩
    ∃ u u' s, units = [u, u'] ∧ s = (start.run u' ⟨1, 3⟩).2 ∧
      s.run u ⟨0, 3⟩ = (.skipped (mismatch u s), s) ∧ s.global? "g" = some (.function f) ∧
      (∃ g m, s.Calls (.function f) [] g m) ∧
      ∀ g m, s.Calls (.function f) [] g m → m.ReadsOwn units ⟨s.constants, 3⟩ g := by
  intro snippets units start f
  have hplaces : units.map (fun u => (u.constantsOffset, u.constants.length)) = [(0, 2), (2, 2)] := by
    decide +kernel
  have hruns : (units[1]?.bind fun u => (Machine.runWithin (settingOf u ⟨1, 3⟩ start) 9
      (padded start.globals u.globals) ⟨⟨u.main, 0, 0⟩, [], #[]⟩).map fun ran =>
        (ran.result.toOption, ran.globals, u.declarations)) =
      some (some (some (.function f)), #[.null, .function f], [⟨"g", 1⟩]) := by decide +kernel
  obtain ⟨u, rest, hunits, hplace, hplaces⟩ := List.map_eq_cons_iff.mp hplaces
  obtain ⟨u', rest', rfl, hplace', hrest⟩ := List.map_eq_cons_iff.mp hplaces
  obtain rfl := List.map_eq_nil_iff.mp hrest
  rw [hunits] at hruns
  obtain ⟨ran, hwithin, hran⟩ := Option.map_eq_some_iff.mp hruns
  simp only [Prod.mk.injEq] at hran
  obtain ⟨hvalue, hglobals, hdeclarations⟩ := hran
  have hfinished : ran.result = .ok (some (.function f)) := by
    cases hresult : ran.result with
    | error cause =>
      rw [hresult] at hvalue
      cases hvalue
    | ok value =>
      rw [hresult] at hvalue
      exact congrArg _ (Option.some.inj hvalue)
  have hrun := run_of_accepted (s := start) (Nat.zero_le _) (Machine.ends_of_runWithin hwithin)
  rw [hfinished] at hrun
  have hu : u ∈ units := hunits ▸ List.mem_cons_self
  have hu' : u' ∈ units := hunits ▸ List.mem_cons_of_mem _ List.mem_cons_self
  -- From here on it is an instance of the general statement, for a store that was given the second unit only.
  have hfed : Fed units 3 (start.run u' ⟨1, 3⟩).2 ((start.run u' ⟨1, 3⟩).1.values ++ []) :=
    .run .new hu' ⟨1, 3⟩
  obtain ⟨hrefused, -, hcalls⟩ := hfed.reads_own
  rw [hrun] at hrefused hcalls
  refine ⟨u, u', _, hunits, by rw [hrun], hrefused u hu ⟨0, 3⟩ ?_, ?_, ?_, fun g m hmoment => ?_⟩
  · simp only [Prod.mk.injEq] at hplace hplace'
    simp only [settingOf_constants, Array.size_append, List.size_toArray]
    omega
  · simp only [hdeclarations, hglobals]
    rfl
  · exact ⟨_, _, _, _, _, rfl, rfl, .refl⟩
  · refine hcalls (.function f) [] g m ?_ (fun v hv => absurd hv List.not_mem_nil) hmoment
    rw [Value.madeOf_function]
    refine ⟨.function f, ?_, List.mem_singleton_self f⟩
    simp [RunOutcome.values]

end

end Store

end Notebook
