import Notebook.Proofs.Engine.Transactions
import Notebook.Proofs.Resolution.Declarations
import Notebook.Proofs.Store.StoreGrowth
import Notebook.Proofs.Store.UnitReplay
import Notebook.Proofs.Units.ByteForm
import Notebook.Session

/-!
The engine of a session, from its start to any moment.

A `Record` says what the session has done so far. `Sound` is the invariant that holds of an engine
and its record at all times: compiler and store are in step and agree on the names, every function
of the store is known and linked, the context shows the store, and the units archived and drained so far replay to the
store.

* `evalAs_cases`: an evaluation either fails and leaves the engine as it was, but for files, or its
  snippet compiled, was stored and ran to its end.
* `Sound.aside`, `Sound.evaluated`: every move of a session leaves its engine sound.
* `Reached.sound`: hence whatever state a session gets into is sound.
-/

namespace Notebook

/-- What a session has done: the functions of the snippets that ran, the values of these snippets in order, and
the units that were drained. An engine forgets all of this, but what holds of it refers to it. -/
structure Record where
  routines : List Routine := []
  values : List (Option Value) := []
  drained : List SerializedUnit := []

/-- The functions of a session once a snippet has run: those that there were, and its own. -/
def routinesAfter (source : String) (e : SessionEngine) (routines : List Routine) : List Routine :=
  match Program.ofSource source with
  | .error _ => routines
  | .ok p =>
    match resolveStmts p (e.compiler.compiler.site routines) with
    | .error _ => routines
    | .ok (_, place) => place.routines

namespace Record

def ran (source : String) (e : SessionEngine) (value : Option Value) (r : Record) : Record :=
  { r with routines := routinesAfter source e r.routines, values := r.values ++ [value] }

def drain (units : List SerializedUnit) (r : Record) : Record :=
  { r with drained := r.drained ++ units }

end Record

namespace SessionEngine

/-- The invariant of an engine and the record of its session: compiler, store, context and archive tell the same
story. Between evaluations nothing is pending. Every move of a session keeps it (`Sound.aside`,
`Sound.evaluated`). -/
structure Sound (config : Config) (e : SessionEngine) (r : Record) : Prop where
  inStep : e.compiler.compiler.InStep e.evaluator
  names : e.compiler.compiler.scope.Agrees e.evaluator.bindings
  pending : e.compiler.pending = none
  compilerDepth : e.compiler.maxCallDepth = config.maxCallDepth
  storeDepth : e.evaluator.maxCallDepth = config.maxCallDepth
  context : e.context = .ofStore e.evaluator
  linked : e.evaluator.Linked r.routines
  replays : Store.Replays config.maxCallDepth (r.drained ++ e.archive.units.toList)
    { maxCallDepth := config.maxCallDepth } r.values e.evaluator

end SessionEngine

/-! ### Compiling a text -/

/-- Compiling a text changes nothing if it fails, and otherwise leaves a snippet pending. Until that is
committed or rolled back, the scope from before is at hand. -/
theorem IncrementalCompiler.compile_cases {c : IncrementalCompiler} {s : Store} (n : SnippetId)
    (source : String) (hstep : c.compiler.InStep s) (hpending : c.pending = none) :
    (∃ diagnostics, c.compile n source = ((.error diagnostics, ⟨n, c.maxCallDepth⟩), c) ∧
      ∀ p u compiler, Program.ofSource source = .ok p →
        c.compiler.compile n p ≠ (.ok u, compiler)) ∨
      ∃ p u compiler, Program.ofSource source = .ok p ∧
        c.compiler.compile n p = (.ok u, compiler) ∧
        c.compile n source = ((.ok u, ⟨n, c.maxCallDepth⟩),
          { c with compiler, pending := some c.compiler.checkpoint }) := by
  obtain ⟨compiler, pending, next, depth⟩ := c
  cases hpending
  unfold compile Compiler.compileSource
  cases hp : Program.ofSource source with
  | error cause =>
    refine .inl ⟨_, rfl, ?_⟩
    rintro p u compiler ⟨⟩
  | ok p =>
    rcases hc : compiler.compile n p with ⟨result, compiler'⟩
    cases result with
    | ok u =>
      refine .inr ⟨p, u, compiler', rfl, hc, ?_⟩
      simp only [hc]
    | error cause =>
      -- A compiler that fails hands back an idle one with the same scope and offset, which it was already.
      have hsame : compiler' = compiler := by
        unfold Compiler.compile at hc
        split at hc
        · cases hc
        · cases hc
          have hoffset : compiler.constantsOffset = s.constants.size := hstep.offset
          rw [hoffset]
          exact hstep.idle.symm
      subst hsame
      refine .inl ⟨[⟨(SourceError.compile cause).message, some n⟩], ?_, ?_⟩
      · simp only [hc]
      · rintro p' u c' ⟨rfl⟩ hcompiles
        cases hc.symm.trans hcompiles

/-- Rolling a pending snippet back, or committing it. -/
theorem IncrementalCompiler.rollback_pending {c : IncrementalCompiler} {s : Store}
    (hstep : c.compiler.InStep s) (hpending : c.pending = none) (scope : Scope) (offset : Nat) :
    rollback { c with
      compiler := .idle scope offset, pending := some c.compiler.checkpoint } = c := by
  obtain ⟨compiler, pending, next, depth⟩ := c
  cases hpending
  have hoffset : compiler.constantsOffset = s.constants.size := hstep.offset
  have hrestored : (Compiler.idle scope offset).restore compiler.checkpoint = compiler := by
    have hidle := hstep.idle
    rw [← hoffset] at hidle
    exact hidle.symm
  simp only [rollback, hrestored]

namespace SessionEngine

/-- A snippet compiled, was stored, and ran to its end with this value. Each step of the evaluation is recorded
with what it was given, and `after` says that nothing else has changed. -/
structure Kept (routines : List Routine) (n : SnippetId) (source : String) (value : Option Value)
    (e e' : SessionEngine) (p : Program) (u : CompiledUnit) (stored : SerializedUnit)
    (commands : List Command) (place : Site) : Prop where
  parsed : Program.ofSource source = .ok p
  compiles : e.compiler.compiler.compile n p = (.ok u, e'.compiler.compiler)
  compiled : e.compiler.compiler.Compiled routines n p u e'.compiler.compiler commands place
  persisted : Engine.persist u e.files = .ok (stored, e'.files)
  ran : e.evaluator.run u ⟨n, e.compiler.maxCallDepth⟩ = (.finished value, e'.evaluator)
  after : e' = { e with
    compiler := { e.compiler with compiler := e'.compiler.compiler }
    evaluator := e'.evaluator
    context := .ofStore e'.evaluator
    archive := e.archive.push stored
    files := e'.files }

variable {config : Config} {e : SessionEngine} {r : Record}

/-- The context of a sound engine is up to date. -/
theorem Sound.ofStore_eq (hs : e.Sound config r) :
    Context.ofStore (parts.evaluator.store e.evaluator) = e.context :=
  hs.context.symm

theorem Sound.refresh (hs : e.Sound config r) : Engine.refresh parts e = e := by
  simp only [Engine.refresh, hs.ofStore_eq]

/-- A unit that ran to its end is evaluated to its value. -/
theorem evaluate_of_finished {u : CompiledUnit} {s s' : Store} {runConfig : RunConfig}
    {value : Option Value} (hrun : s.run u runConfig = (.finished value, s')) :
    ∃ evaluated handle, parts.evaluator.evaluate u runConfig s = (evaluated, s') ∧
      Engine.outcome evaluated =
        .ok ⟨⟨value, value.bind fun _ => u.declaredType⟩, handle⟩ := by
  show ∃ evaluated evaluation, Store.evaluate u _ _ = (evaluated, s') ∧ _
  simp only [Store.evaluate, hrun]
  cases value with
  | some v => exact ⟨_, _, rfl, rfl⟩
  | none => exact ⟨_, _, rfl, rfl⟩

/-- A unit that failed is evaluated to its error, and shows nothing. -/
theorem evaluate_of_failed {u : CompiledUnit} {s s' : Store} {runConfig : RunConfig}
    {error : RunError} (hrun : s.run u runConfig = (.failed error, s')) :
    parts.evaluator.evaluate u runConfig s = (⟨.error error, []⟩, s') := by
  show Store.evaluate u _ _ = _
  simp only [Store.evaluate, hrun]

/-- Does every step of an evaluation succeed? -/
def Completes (n : SnippetId) (source : String) (e : SessionEngine) : Prop :=
  ∃ p u compiler written value s', Program.ofSource source = .ok p ∧
    e.compiler.compiler.compile n p = (.ok u, compiler) ∧ Engine.persist u e.files = .ok written ∧
    e.evaluator.run u ⟨n, e.compiler.maxCallDepth⟩ = (.finished value, s')

/-- An evaluation fails at some step and leaves everything but files as it was, or its snippet ran. All that is
said of single evaluations goes through these two cases. -/
theorem evalAs_cases (hs : e.Sound config r) (n : SnippetId) (source : String) :
    (¬ e.Completes n source ∧
      ∃ error files, Engine.evalAs parts n source e = (.error error, { e with files })) ∨
      ∃ evaluation e' p u stored commands place,
        Engine.evalAs parts n source e = (.ok evaluation, e') ∧
        Kept r.routines n source evaluation.result.value e e' p u stored commands place := by
  rcases e.compiler.compile_cases n source hs.inStep hs.pending with
    ⟨diagnostics, hcompile, hnot⟩ | ⟨p, u, compiler, hparse, hc, hcompile⟩
  · have hends : Engine.Concludes parts n source e _ _ := .uncompiled hcompile
    refine .inl ⟨?_, _, e.files, hends.evalAs_eq⟩
    rintro ⟨p, u, compiler, -, -, -, hparse, hc, -⟩
    exact hnot p u compiler hparse hc
  · obtain ⟨commands, place, hcompiled⟩ :=
      Compiler.compile_eq_ok (congrArg Compiler.buffer hs.inStep.idle) hs.inStep.valid hc r.routines
    have hrollback : parts.compiler.rollback { e.compiler with
        compiler, pending := some e.compiler.compiler.checkpoint } = e.compiler := by
      rw [hcompiled.after]
      exact IncrementalCompiler.rollback_pending hs.inStep hs.pending _ _
    -- Every step of an evaluation has one outcome, so the first that fails settles it.
    have hsteps : e.Completes n source → ∃ written value s', Engine.persist u e.files = .ok written ∧
        e.evaluator.run u ⟨n, e.compiler.maxCallDepth⟩ = (.finished value, s') := by
      rintro ⟨p', u', compiler', written, value, s', hparse', hc', hpersist, hrun⟩
      obtain rfl := Except.ok.inj (hparse.symm.trans hparse')
      cases hc.symm.trans hc'
      exact ⟨written, value, s', hpersist, hrun⟩
    -- It compiled. Storing may fail, and then the run, and in both cases rolling back undoes the compilation.
    cases hpersist : Engine.persist u e.files with
    | error error =>
      have hends : Engine.Concludes parts n source e _ _ := .unstored hcompile hpersist
      rw [hrollback] at hends
      refine .inl ⟨?_, error, e.files, hends.evalAs_eq⟩
      intro hcompletes
      obtain ⟨written, -, -, hwritten, -⟩ := hsteps hcompletes
      cases hpersist.symm.trans hwritten
    | ok written =>
      obtain ⟨stored, files⟩ := written
      rcases Store.run_cases hs.linked hcompiled hs.inStep ⟨n, e.compiler.maxCallDepth⟩ with
        ⟨value, s', hrun⟩ | ⟨error, hrun, -⟩
      · obtain ⟨evaluated, handle, hevaluate, houtcome⟩ := evaluate_of_finished hrun
        have hends : Engine.Concludes parts n source e _ _ :=
          .kept hcompile hpersist hevaluate houtcome
        refine .inr ⟨_, _, p, u, stored, commands, place, hends.evalAs_eq, hparse, hc, hcompiled,
          hpersist, hrun, ?_⟩
        obtain ⟨⟨compiler', pending, next, depth⟩, evaluator, context, archive, files', executing⟩ := e
        cases hs.pending
        rfl
      · have hends : Engine.Concludes parts n source e _ _ :=
          .failed hcompile hpersist (evaluate_of_failed hrun) rfl
        rw [hrollback, hs.ofStore_eq] at hends
        refine .inl ⟨?_, .ofRun error, files, hends.evalAs_eq⟩
        intro hcompletes
        obtain ⟨-, value, s', -, hfinished⟩ := hsteps hcompletes
        cases hrun.symm.trans hfinished

/-- An evaluation of which every step succeeds. -/
theorem evalAs_eq (hs : e.Sound config r) {n : SnippetId} {source : String} {p : Program}
    {u : CompiledUnit} {compiler : Compiler} {stored : SerializedUnit} {files : UnitFiles}
    {value : Option Value} {s' : Store} (hparse : Program.ofSource source = .ok p)
    (hcompile : e.compiler.compiler.compile n p = (.ok u, compiler))
    (hpersist : Engine.persist u e.files = .ok (stored, files))
    (hrun : e.evaluator.run u ⟨n, e.compiler.maxCallDepth⟩ = (.finished value, s')) :
    ∃ handle, Engine.evalAs parts n source e =
      (.ok ⟨⟨value, value.bind fun _ => u.declaredType⟩, handle⟩,
        { e with
          compiler := { e.compiler with compiler }
          evaluator := s'
          context := .ofStore s'
          archive := e.archive.push stored
          files }) := by
  have hpart : parts.compiler.compile n source e.compiler =
      ((.ok u, ⟨n, e.compiler.maxCallDepth⟩),
        { e.compiler with compiler, pending := some e.compiler.compiler.checkpoint }) := by
    show IncrementalCompiler.compile n source e.compiler = _
    simp only [IncrementalCompiler.compile, Compiler.compileSource, hparse, hcompile]
  obtain ⟨evaluated, handle, hevaluate, houtcome⟩ := evaluate_of_finished hrun
  have hends : Engine.Concludes parts n source e _ _ := .kept hpart hpersist hevaluate houtcome
  refine ⟨handle, hends.evalAs_eq.trans ?_⟩
  obtain ⟨⟨compiler', pending, next, depth⟩, evaluator, context, archive, files', executing⟩ := e
  cases hs.pending
  rfl

/-! ### Moves -/

/-- Is this a function of the session? -/
def Owns (e : SessionEngine) (f : FunctionCode) : Prop := Value.function f ∈ e.evaluator.constants

/-- The functions of a session are those of the snippets that ran. -/
theorem Sound.owns_iff (hs : e.Sound config r) (f : FunctionCode) :
    e.Owns f ↔ KnownAmong r.routines f := by
  constructor
  · intro hf
    exact (Value.madeOf_function f).mp (hs.linked.constants _ hf)
  · rintro ⟨r, hr, rfl⟩
    exact hs.linked.pooled r hr

theorem Sound.known (hs : e.Sound config r) {v : Value} (hv : v.MadeOf e.Owns) :
    v.MadeOf (KnownAmong r.routines) :=
  hv.mono fun f hf => (hs.owns_iff f).mp hf

theorem Sound.owned (hs : e.Sound config r) {v : Value} (hv : v.MadeOf (KnownAmong r.routines)) :
    v.MadeOf e.Owns :=
  hv.mono fun f hf => (hs.owns_iff f).mpr hf

/-- Something other than an evaluation is done with an engine, and some units are drained. While an evaluation
is going on another one is refused. Files may be deleted at any time, by others than the session. -/
inductive Aside : SessionEngine → SessionEngine → List SerializedUnit → Prop where
  | refused {e : SessionEngine} (source : String) :
      e.executing = true → Aside e (Engine.eval parts source e).2 []
  | called {e : SessionEngine} {f : Value} {args : List Value} :
      f.MadeOf e.Owns → (∀ v ∈ args, v.MadeOf e.Owns) → Aside e (e.call f args).2 []
  | refreshed {e : SessionEngine} : Aside e (Engine.refresh parts e) []
  | drained {e : SessionEngine} : Aside e e.drain.2 e.drain.1
  | writing {e : SessionEngine} (on : Bool) : Aside e (e.setWriting on) []
  | deleted {e : SessionEngine} {files : UnitFiles} :
      e.files.delete = some files → Aside e { e with files } []

/-- All that such a thing changes are files and what is in the archive. -/
theorem Aside.eq {e' : SessionEngine} {units : List SerializedUnit} (h : Aside e e' units)
    (hs : e.Sound config r) :
    ∃ archive files, e' = { e with archive, files } ∧
      units ++ archive.units.toList = e.archive.units.toList := by
  cases h with
  | refused source hexecuting =>
    refine ⟨e.archive, e.files, ?_, rfl⟩
    simp only [Engine.eval, Engine.evalObserving_of_busy hexecuting]
  | called hf hargs =>
    refine ⟨e.archive, e.files, ?_, rfl⟩
    have hsame := (hs.linked.call (hs.known hf) fun v hv => hs.known (hargs v hv)).1
    simp only [SessionEngine.call, hsame]
  | refreshed =>
    refine ⟨e.archive, e.files, ?_, rfl⟩
    rw [hs.refresh]
  | drained => exact ⟨{}, e.files, rfl, by simp [Engine.drain, Archive.drain]⟩
  | writing on => exact ⟨e.archive, _, rfl, rfl⟩
  | deleted hdelete => exact ⟨e.archive, _, rfl, rfl⟩

theorem Sound.aside {e' : SessionEngine} {units : List SerializedUnit} (hs : e.Sound config r)
    (h : Aside e e' units) : e'.Sound config (r.drain units) := by
  obtain ⟨archive, files, rfl, hunits⟩ := h.eq hs
  refine { hs with replays := ?_ }
  have hsame : r.drained ++ units ++ archive.units.toList =
      r.drained ++ e.archive.units.toList := by
    rw [List.append_assoc, hunits]
  show Store.Replays _ (r.drained ++ units ++ archive.units.toList) _ _ _
  rw [hsame]
  exact hs.replays

/-- Several such things one after the other. -/
inductive Asides : SessionEngine → SessionEngine → List SerializedUnit → Prop where
  | refl {e : SessionEngine} : Asides e e []
  | snoc {e e₁ e' : SessionEngine} {units more : List SerializedUnit} :
      Asides e e₁ units → Aside e₁ e' more → Asides e e' (units ++ more)

theorem Sound.asides {e' : SessionEngine} {units : List SerializedUnit} (hs : e.Sound config r)
    (h : Asides e e' units) : e'.Sound config (r.drain units) := by
  induction h with
  | refl =>
    have hsame : r.drain [] = r := by simp [Record.drain]
    rw [hsame]
    exact hs
  | snoc _ hmove ih =>
    have hnext := ih.aside hmove
    simpa [Record.drain] using hnext

theorem Kept.routinesAfter_eq {routines : List Routine} {n : SnippetId} {source : String}
    {value : Option Value} {e' : SessionEngine} {p : Program} {u : CompiledUnit}
    {stored : SerializedUnit} {commands : List Command} {place : Site}
    (h : Kept routines n source value e e' p u stored commands place) :
    routinesAfter source e routines = place.routines := by
  simp only [routinesAfter, h.parsed, h.compiled.resolved]

/-- A snippet that ran leaves the engine sound, with the unit archived that replays its run. Compiler and store
have moved on together, by the same constants, slots and names. -/
theorem Sound.kept {n : SnippetId} {source : String} {value : Option Value} {e' : SessionEngine}
    {p : Program} {u : CompiledUnit} {stored : SerializedUnit} {commands : List Command}
    {place : Site} (hs : e.Sound config r)
    (h : Kept r.routines n source value e e' p u stored commands place) :
    e'.Sound config (r.ran source e value) := by
  obtain ⟨hlinked, hstep, -, hconstants, hdepth⟩ :=
    hs.linked.finished h.compiled hs.inStep h.ran
  have hafter := h.after
  have hroutines : (r.ran source e value).routines = place.routines := h.routinesAfter_eq
  have hoffset : u.constantsOffset = e.evaluator.constants.size :=
    h.compiled.offset.trans hs.inStep.offset
  -- The archived bytes read as the unit itself: its functions have the unit's offset, the only thing that is
  -- not stored.
  have hread : CompiledUnit.deserialize stored.data = .ok u := by
    refine (CompiledUnit.deserialize_serialize ?_
      (Engine.serialize_eq_of_persist h.persisted)).2
    intro v hv
    cases v with
    | function f => exact offset_loaded h.compiled hs.inStep hv
    | _ => trivial
  have hrun : e.evaluator.run u ⟨u.snippet, config.maxCallDepth⟩ = (.finished value, e'.evaluator) := by
    rw [h.compiled.snippet, ← hs.compilerDepth]
    exact h.ran
  refine
    { inStep := hstep
      names := ?_
      pending := ?_
      compilerDepth := ?_
      storeDepth := hdepth.trans hs.storeDepth
      context := ?_
      linked := hroutines ▸ hlinked
      replays := ?_ }
  · rw [Store.bindings_of_finished h.ran]
    exact Compiler.compile_agrees (congrArg Compiler.declarations hs.inStep.idle)
      hs.inStep.session h.compiles hs.names
  · rw [hafter]
    exact hs.pending
  · rw [hafter]
    exact hs.compilerDepth
  · rw [hafter]
  · -- The archive has one unit more, and replaying it goes on from where replaying the others led.
    have harchive : r.drained ++ e'.archive.units.toList =
        (r.drained ++ e.archive.units.toList) ++ [stored] := by
      rw [hafter]
      simp [Archive.push]
    show Store.Replays _ (r.drained ++ e'.archive.units.toList) _ (r.values ++ [value]) _
    rw [harchive]
    exact hs.replays.snoc hread hoffset hrun

/-- A snippet that ran leaves alone what there was in the store, and its value is made of functions of
the session. -/
theorem Sound.kept_owns {n : SnippetId} {source : String} {value : Option Value}
    {e' : SessionEngine} {p : Program} {u : CompiledUnit} {stored : SerializedUnit}
    {commands : List Command} {place : Site} (hs : e.Sound config r)
    (h : Kept r.routines n source value e e' p u stored commands place) :
    e.evaluator.Grows e'.evaluator ∧ (value.getD .null).MadeOf e'.Owns := by
  obtain ⟨-, -, hvalue, -⟩ := hs.linked.finished h.compiled hs.inStep h.ran
  constructor
  · exact hs.linked.grows h.compiled hs.inStep h.ran
  · have hroutines : (r.ran source e value).routines = place.routines := h.routinesAfter_eq
    rw [← hroutines] at hvalue
    exact (hs.kept h).owned hvalue

/-! ### Evaluations -/

/-- The engine of an evaluation that has just begun: the snippet has its number. -/
def started (e : SessionEngine) : SessionEngine :=
  { e with compiler := e.compiler.nextId.2, executing := true }

/-- The record once a snippet was evaluated: only one that succeeds leaves something. -/
def recorded (source : String) (e : SessionEngine) (r : Record) :
    Except SessionError Evaluation → Record
  | .ok evaluation => r.ran source e evaluation.result.value
  | .error _ => r

variable {α : Type} (observe : SnippetId → SessionEngine → α × SessionEngine)

/-- An evaluation that is not refused. -/
theorem evalObserving_eq (hidle : e.executing = false) (source : String) :
    (Engine.evalObserving parts observe source e).1.result =
        (Engine.evalAs parts e.compiler.nextSnippet source
          (observe e.compiler.nextSnippet e.started).2).1 ∧
      (Engine.evalObserving parts observe source e).2 =
        { (Engine.evalAs parts e.compiler.nextSnippet source
            (observe e.compiler.nextSnippet e.started).2).2 with executing := false } := by
  rw [Engine.evalObserving_of_idle hidle]
  exact ⟨rfl, rfl⟩

theorem eval_eq (hidle : e.executing = false) (source : String) :
    Engine.eval parts source e =
      ((Engine.evalAs parts e.compiler.nextSnippet source e.started).1,
        { (Engine.evalAs parts e.compiler.nextSnippet source e.started).2 with
          executing := false }) := by
  obtain ⟨hresult, hafter⟩ := evalObserving_eq (fun _ e => ((), e)) hidle source
  exact Prod.ext hresult hafter

/-- The next snippet's number, files and the flag play no part in whether an engine is sound. -/
theorem Sound.regardless (hs : e.Sound config r) (nextSnippet : SnippetId) (files : UnitFiles)
    (executing : Bool) :
    Sound config { e with compiler := { e.compiler with nextSnippet }, files, executing } r :=
  ⟨hs.inStep, hs.names, hs.pending, hs.compilerDepth, hs.storeDepth, hs.context, hs.linked, hs.replays⟩

theorem Sound.started (hs : e.Sound config r) : e.started.Sound config r :=
  hs.regardless (e.compiler.nextSnippet + 1) e.files true

/-- What such things change while an evaluation is going on: files and the archive. -/
theorem Asides.eq {e' : SessionEngine} {units : List SerializedUnit} (h : Asides e e' units)
    (hs : e.Sound config r) : ∃ archive files, e' = { e with archive, files } := by
  induction h with
  | refl => exact ⟨_, _, rfl⟩
  | snoc hmoves hmove ih =>
    obtain ⟨archive, files, rfl⟩ := ih
    obtain ⟨archive', files', rfl, -⟩ := hmove.eq (hs.asides hmoves)
    exact ⟨archive', files', rfl⟩

/-- Evaluating under a number leaves the engine sound. -/
theorem Sound.evalAs (hs : e.Sound config r) (n : SnippetId) (source : String) :
    Sound config (Engine.evalAs parts n source e).2
      (recorded source e r (Engine.evalAs parts n source e).1) := by
  rcases evalAs_cases hs n source with ⟨-, error, files, heval⟩ |
    ⟨evaluation, e', p, u, stored, commands, place, heval, hkept⟩
  · rw [heval]
    exact hs.regardless e.compiler.nextSnippet files e.executing
  · rw [heval]
    exact hs.kept hkept

/-- An evaluation leaves the engine sound, whatever is done with it once it has begun. -/
theorem Sound.evaluated (hs : e.Sound config r) (hidle : e.executing = false) (source : String)
    {units : List SerializedUnit}
    (hmoves : Asides e.started (observe e.compiler.nextSnippet e.started).2 units) :
    Sound config (Engine.evalObserving parts observe source e).2
      (recorded source e (r.drain units) (Engine.evalObserving parts observe source e).1.result) := by
  obtain ⟨hresult, hafter⟩ := evalObserving_eq observe hidle source
  obtain ⟨archive, files, hseen⟩ := hmoves.eq hs.started
  have heval := (hs.started.asides hmoves).evalAs e.compiler.nextSnippet source
  rw [hresult, hafter]
  have hsame : ∀ result, recorded source (observe e.compiler.nextSnippet e.started).2
      (r.drain units) result = recorded source e (r.drain units) result := by
    intro result
    rw [hseen]
    rfl
  rw [← hsame]
  exact heval.regardless _ _ false

/-- An evaluation leaves alone what there is in the store, and its value is made of functions of the
session. -/
theorem Sound.evaluated_owns (hs : e.Sound config r) (hidle : e.executing = false) (source : String)
    {units : List SerializedUnit}
    (hmoves : Asides e.started (observe e.compiler.nextSnippet e.started).2 units) :
    e.evaluator.Grows (Engine.evalObserving parts observe source e).2.evaluator ∧
      ∀ evaluation, (Engine.evalObserving parts observe source e).1.result = .ok evaluation →
        (evaluation.result.value.getD .null).MadeOf
          (Owns (Engine.evalObserving parts observe source e).2) := by
  obtain ⟨hresult, hafter⟩ := evalObserving_eq observe hidle source
  obtain ⟨archive, files, hseen⟩ := hmoves.eq hs.started
  have hsound := hs.started.asides hmoves
  rw [hresult, hafter]
  rcases evalAs_cases hsound e.compiler.nextSnippet source with ⟨-, error, files', heval⟩ |
    ⟨evaluation, e', p, u, stored, commands, place, heval, hkept⟩
  · rw [heval, hseen]
    refine ⟨.refl _, ?_⟩
    intro evaluation h
    cases h
  · obtain ⟨hgrows, hvalue⟩ := hsound.kept_owns hkept
    rw [heval]
    constructor
    · rw [hseen] at hgrows
      exact hgrows
    · intro evaluation' h
      cases h
      exact hvalue

/-! ### Sessions -/

/-- An engine that a session gets into, between two evaluations, and the record of what was done. Whoever is
told the number of a snippet may do things with the engine then, too. -/
inductive Reached (config : Config) : SessionEngine → Record → Prop where
  | new : Reached config (.new config) {}
  | aside {e e' : SessionEngine} {r : Record} {units : List SerializedUnit} :
      Reached config e r → Aside e e' units → Reached config e' (r.drain units)
  | evaluated {e : SessionEngine} {r : Record} {units : List SerializedUnit} {α : Type}
      (observe : SnippetId → SessionEngine → α × SessionEngine) (source : String) :
      Reached config e r →
      Asides e.started (observe e.compiler.nextSnippet e.started).2 units →
      Reached config (Engine.evalObserving parts observe source e).2
        (recorded source e (r.drain units) (Engine.evalObserving parts observe source e).1.result)

theorem Sound.new (config : Config) : (SessionEngine.new config).Sound config {} where
  inStep := ⟨rfl, Scope.valid_initial, rfl, rfl⟩
  names := Scope.agrees_initial
  pending := rfl
  compilerDepth := rfl
  storeDepth := rfl
  context := rfl
  linked :=
    { world := fun _ _ hr => absurd hr List.not_mem_nil
      pooled := fun _ hr => absurd hr List.not_mem_nil
      constants := fun v hv => absurd hv (Array.not_mem_empty v)
      globals := fun v hv => absurd hv (Array.not_mem_empty v) }
  replays := .done

/-- Whatever state a session gets into is sound, and not in the middle of an evaluation. -/
theorem Reached.sound (h : Reached config e r) : e.Sound config r ∧ e.executing = false := by
  induction h with
  | new => exact ⟨.new config, rfl⟩
  | aside _ hmove ih =>
    obtain ⟨hs, hidle⟩ := ih
    refine ⟨hs.aside hmove, ?_⟩
    obtain ⟨archive, files, rfl, -⟩ := hmove.eq hs
    exact hidle
  | evaluated observe source _ hmoves ih =>
    obtain ⟨hs, hidle⟩ := ih
    refine ⟨hs.evaluated observe hidle source hmoves, ?_⟩
    rw [(evalObserving_eq observe hidle source).2]

/-- What holds of the compiler and the store of a new session, and is kept by every snippet that runs, holds in
all sessions. Nothing else that is done with a session touches these two. -/
theorem Reached.invariant {P : Compiler → Store → Prop} (h : Reached config e r)
    (hnew : P {} { maxCallDepth := config.maxCallDepth })
    (hkept : ∀ {e e' : SessionEngine} {r : Record} {n : SnippetId} {source : String}
      {value : Option Value} {p : Program} {u : CompiledUnit} {stored : SerializedUnit}
      {commands : List Command} {place : Site}, e.Sound config r →
      Kept r.routines n source value e e' p u stored commands place →
      P e.compiler.compiler e.evaluator → P e'.compiler.compiler e'.evaluator) :
    P e.compiler.compiler e.evaluator := by
  induction h with
  | new => exact hnew
  | aside hreached hmove ih =>
    obtain ⟨archive, files, rfl, -⟩ := hmove.eq hreached.sound.1
    exact ih
  | @evaluated e r units α observe source hreached hmoves ih =>
    obtain ⟨hs, hidle⟩ := hreached.sound
    obtain ⟨archive, files, hseen⟩ := hmoves.eq hs.started
    have hsound := hs.started.asides hmoves
    rw [(evalObserving_eq observe hidle source).2]
    -- A failed evaluation leaves compiler and store as they were; one that succeeds is the step that keeps the
    -- property.
    rcases evalAs_cases hsound e.compiler.nextSnippet source with ⟨-, error, files', heval⟩ |
      ⟨evaluation, e', p, u, stored, commands, place, heval, hran⟩
    · rw [heval, hseen]
      exact ih
    · have hnext : P e'.compiler.compiler e'.evaluator := by
        refine hkept hsound hran ?_
        rw [hseen]
        exact ih
      rw [heval]
      exact hnext

end SessionEngine

end Notebook
