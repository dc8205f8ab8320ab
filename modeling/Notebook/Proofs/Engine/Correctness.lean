import Notebook.Proofs.Engine.History

/-!
What becomes of snippets in a session.

* `Reached.run_eq_interpret`: the machine comes to what the evaluator says of the program, and the
  store changes accordingly.
* `Reached.no_internal_error`: snippets and calls of the session's functions fail in ordinary ways
  only.
* `Reached.eq_of_error`: a snippet that fails leaves the session as it was.

All three rest on `Sound`, which holds of every engine that a session gets into, and on what running a
unit comes to (`Store.run_eq`).

The evaluator recurses on terms, so what it says of a given program can be computed, which a run of the
machine cannot. `foreseen` is the value of a snippet in these terms, and `foreseenAfter` the session
after it. `Reached.eval_of_foreseenAfter` carries them over to the engine.
-/

namespace Notebook

namespace Semantics

/-- What a program comes to at a place. Its names are resolved first, and nulls fill the slots that it adds to
the globals. Neither code nor a machine takes part in this. -/
def interpret (s : Site) (maxFrames : Nat) (p : Program) (globals : Array Value) :
    Except CompileError (Ran (Option Value)) := do
  let (commands, place) ← resolveStmts p s
  .ok (run place.routines maxFrames commands (Store.padded globals place.scope.slots))

end Semantics

/-- What the store and the outcome of a unit are, given what its run came to. A run that fails leaves the store
as it was, globals included. -/
def Store.after (u : CompiledUnit) (ran : Ran (Option Value)) (s : Store) : RunOutcome × Store :=
  match ran.result with
  | .ok value =>
    (.finished value,
      { s with constants := s.constants ++ u.constants, globals := ran.globals,
               bindings := bind u.snippet u.declarations s.bindings })
  | .error error => (.failed error, s)

namespace SessionEngine

variable {config : Config} {e e' : SessionEngine} {r : Record}

/-! ### Correctness -/

/-- What a sound engine's compiler makes of a program. -/
theorem Sound.compiled (hs : e.Sound config r) {n : SnippetId} {p : Program} {u : CompiledUnit}
    {c' : Compiler} (hcompile : e.compiler.compiler.compile n p = (.ok u, c')) :
    ∃ commands place, e.compiler.compiler.Compiled r.routines n p u c' commands place :=
  Compiler.compile_eq_ok (congrArg Compiler.buffer hs.inStep.idle) hs.inStep.valid hcompile r.routines

/-- Compiled code does what the program says when it is run with a sound engine's store. -/
theorem Sound.run_eq_after (hs : e.Sound config r) {n : SnippetId} {p : Program}
    {u : CompiledUnit} {c' : Compiler} (hcompile : e.compiler.compiler.compile n p = (.ok u, c'))
    (runConfig : RunConfig) :
    let depth := min e.evaluator.maxCallDepth runConfig.maxCallDepth
    ∃ ran,
      Semantics.interpret (e.compiler.compiler.site r.routines) depth p e.evaluator.globals =
        .ok ran ∧
      Machine.Ends ⟨e.evaluator.constants ++ u.constants, depth⟩
        (Store.padded e.evaluator.globals u.globals) ⟨⟨u.main, 0, 0⟩, [], #[]⟩ ran ∧
      e.evaluator.run u runConfig = e.evaluator.after u ran := by
  intro depth
  obtain ⟨commands, place, hcompiled⟩ := hs.compiled hcompile
  have hconstants : e.evaluator.constants ++ u.constants =
      e.evaluator.constants ++ place.constants := by
    apply Array.ext'
    simp [hcompiled.constants]
  obtain ⟨hends, -, hrun⟩ := Store.run_eq hs.linked hcompiled hs.inStep runConfig
  -- The unit's constants and globals are those of the place at which resolving the program ends.
  refine ⟨Semantics.run place.routines depth commands
    (Store.padded e.evaluator.globals u.globals), ?_, ?_, ?_⟩
  · unfold Semantics.interpret
    rw [hcompiled.resolved, hcompiled.globals]
    rfl
  · rw [hconstants]
    exact hends
  · unfold Store.after
    rw [hconstants]
    exact hrun

/-- The value of a snippet and the store after it as the evaluator has them, unless some step fails. The
evaluator recurses on terms, so this can be computed by the kernel; the machine's loop, which has no bound,
cannot. -/
def foreseenRun (routines : List Routine) (n : SnippetId) (source : String) (e : SessionEngine) :
    Option (Option Value × Store) := do
  let p ← (Program.ofSource source).toOption
  let u ← (e.compiler.compiler.compile n p).1.toOption
  let _ ← (Engine.persist u e.files).toOption
  let ran ← (Semantics.interpret (e.compiler.compiler.site routines)
    (min e.evaluator.maxCallDepth e.compiler.maxCallDepth) p e.evaluator.globals).toOption
  let value ← ran.result.toOption
  some (value, (e.evaluator.after u ran).2)

/-- The value of a snippet as the evaluator has it, unless some step fails. -/
def foreseen (routines : List Routine) (n : SnippetId) (source : String) (e : SessionEngine) :
    Option (Option Value) :=
  (e.foreseenRun routines n source).map (·.1)

/-- An evaluation succeeds with the value and the store that the evaluator has for it, and with no
others. -/
theorem Sound.evalAs_eq_foreseenRun (hs : e.Sound config r) (n : SnippetId) (source : String) :
    (Engine.evalAs parts n source e).1.toOption.map
        (fun evaluation => (evaluation.result.value, (Engine.evalAs parts n source e).2.evaluator)) =
      e.foreseenRun r.routines n source := by
  rcases evalAs_cases hs n source with ⟨hnot, error, files, heval⟩ |
    ⟨evaluation, e', p, u, stored, commands, place, heval, hkept⟩
  · rw [heval]
    unfold foreseenRun
    -- The evaluation failed, so one of its steps did, and then nothing is foreseen.
    cases hparse : Program.ofSource source with
    | error cause => rfl
    | ok p =>
      rcases hcompile : e.compiler.compiler.compile n p with ⟨cause | u, compiler⟩
      · simp [Except.toOption, hcompile]
      · cases hpersist : Engine.persist u e.files with
        | error cause => simp [Except.toOption, hcompile, hpersist]
        | ok written =>
          obtain ⟨ran, hinterpret, -, hrun⟩ :=
            hs.run_eq_after hcompile ⟨n, e.compiler.maxCallDepth⟩
          cases hresult : ran.result with
          | error cause => simp [Except.toOption, hcompile, hinterpret, hresult]
          | ok value =>
            rw [Store.after, hresult] at hrun
            exact absurd ⟨p, u, compiler, written, value, _, hparse, hcompile, hpersist, hrun⟩ hnot
  · obtain ⟨ran, hinterpret, -, hrun⟩ :=
      hs.run_eq_after hkept.compiles ⟨n, e.compiler.maxCallDepth⟩
    rw [hkept.ran] at hrun
    -- It succeeded, and the machine's run is the one that the evaluator has.
    have hresult : ran.result = .ok evaluation.result.value := by
      cases hresult : ran.result with
      | error cause =>
        rw [Store.after, hresult] at hrun
        cases hrun
      | ok value =>
        rw [Store.after, hresult] at hrun
        injection congrArg Prod.fst hrun with hvalue
        rw [hvalue]
    rw [heval]
    simp [Except.toOption, foreseenRun, hkept.parsed, hkept.compiles, hkept.persisted, hinterpret,
      hresult, ← hrun]

section

variable {α : Type} (observe : SnippetId → SessionEngine → α × SessionEngine)

/-- The same of an evaluation during which nothing else is done. -/
theorem Sound.result_eq_foreseenRun (hs : e.Sound config r) (hidle : e.executing = false)
    (hquiet : ∀ n e₁, (observe n e₁).2 = e₁) (source : String) :
    (Engine.evalObserving parts observe source e).1.result.toOption.map
        (fun evaluation => (evaluation.result.value,
          (Engine.evalObserving parts observe source e).2.evaluator)) =
      e.started.foreseenRun r.routines e.compiler.nextSnippet source := by
  obtain ⟨hresult, hafter⟩ := evalObserving_eq observe hidle source
  rw [hresult, hafter, hquiet]
  exact hs.started.evalAs_eq_foreseenRun e.compiler.nextSnippet source

theorem Sound.ok_of_foreseenRun (hs : e.Sound config r) (hidle : e.executing = false)
    (hquiet : ∀ n e₁, (observe n e₁).2 = e₁) {source : String} {value : Option Value} {s : Store}
    (h : e.started.foreseenRun r.routines e.compiler.nextSnippet source = some (value, s)) :
    ∃ evaluation, (Engine.evalObserving parts observe source e).1.result = .ok evaluation ∧
      evaluation.result.value = value ∧
      (Engine.evalObserving parts observe source e).2.evaluator = s := by
  have hforeseen := hs.result_eq_foreseenRun observe hidle hquiet source
  rw [h] at hforeseen
  cases hresult : (Engine.evalObserving parts observe source e).1.result with
  | error error =>
    rw [hresult] at hforeseen
    cases hforeseen
  | ok evaluation =>
    rw [hresult] at hforeseen
    cases hforeseen
    exact ⟨evaluation, rfl, rfl, rfl⟩

theorem Sound.ok_of_foreseen (hs : e.Sound config r) (hidle : e.executing = false)
    (hquiet : ∀ n e₁, (observe n e₁).2 = e₁) {source : String} {value : Option Value}
    (h : e.started.foreseen r.routines e.compiler.nextSnippet source = some value) :
    ∃ evaluation, (Engine.evalObserving parts observe source e).1.result = .ok evaluation ∧
      evaluation.result.value = value := by
  obtain ⟨⟨value, s⟩, hrun, rfl⟩ := Option.map_eq_some_iff.mp h
  obtain ⟨evaluation, hresult, hvalue, -⟩ := hs.ok_of_foreseenRun observe hidle hquiet hrun
  exact ⟨evaluation, hresult, hvalue⟩

theorem Sound.error_of_foreseen (hs : e.Sound config r) (hidle : e.executing = false)
    (hquiet : ∀ n e₁, (observe n e₁).2 = e₁) {source : String}
    (h : e.started.foreseen r.routines e.compiler.nextSnippet source = none) :
    ∃ error, (Engine.evalObserving parts observe source e).1.result = .error error := by
  have hforeseen := hs.result_eq_foreseenRun observe hidle hquiet source
  rw [Option.map_eq_none_iff.mp h] at hforeseen
  cases hresult : (Engine.evalObserving parts observe source e).1.result with
  | error error => exact ⟨error, rfl⟩
  | ok evaluation =>
    rw [hresult] at hforeseen
    cases hforeseen

end

/-- The engine after a snippet as the evaluator has it, unless some step fails. -/
def foreseenAfter (routines : List Routine) (source : String) (e : SessionEngine) :
    Option SessionEngine := do
  let n := e.compiler.nextSnippet
  let p ← (Program.ofSource source).toOption
  let u ← (e.compiler.compiler.compile n p).1.toOption
  let (stored, files) ← (Engine.persist u e.files).toOption
  let (_, store) ← e.started.foreseenRun routines n source
  some { e with
    compiler := { e.compiler with
      compiler := (e.compiler.compiler.compile n p).2, nextSnippet := n + 1 }
    evaluator := store
    context := .ofStore store
    archive := e.archive.push stored
    files }

/-- A snippet that the evaluator carries out succeeds, and leaves the engine that the evaluator has. -/
theorem Reached.eval_of_foreseenAfter (h : Reached config e r) {source : String}
    (hforeseen : e.foreseenAfter r.routines source = some e') :
    ∃ evaluation r', Engine.eval parts source e = (.ok evaluation, e') ∧ Reached config e' r' ∧
      r'.routines = routinesAfter source e r.routines := by
  obtain ⟨hs, hidle⟩ := h.sound
  obtain ⟨p, hparse, hforeseen⟩ := Option.bind_eq_some_iff.mp hforeseen
  obtain ⟨u, hcompile, hforeseen⟩ := Option.bind_eq_some_iff.mp hforeseen
  obtain ⟨⟨stored, files⟩, hpersist, hforeseen⟩ := Option.bind_eq_some_iff.mp hforeseen
  obtain ⟨⟨value, store⟩, hrun, hforeseen⟩ := Option.bind_eq_some_iff.mp hforeseen
  -- The evaluation succeeds because its run is foreseen; which engine it leaves is read off its steps.
  obtain ⟨evaluation, hresult, -, hstore⟩ :=
    hs.ok_of_foreseenRun (fun _ e => ((), e)) hidle (fun _ _ => rfl) hrun
  have hreached := h.evaluated (fun _ e => ((), e)) source .refl
  obtain ⟨hresult', hafter⟩ := evalObserving_eq (fun _ e => ((), e)) hidle source
  rw [hresult] at hreached hresult'
  rw [hafter] at hreached hstore
  rcases evalAs_cases hs.started e.compiler.nextSnippet source with ⟨-, error, files', heval⟩ |
    ⟨evaluation', e₁, p', u', stored', commands, place, heval, hkept⟩
  · cases hresult'.trans (congrArg Prod.fst heval)
  -- Every step of the evaluation has one outcome, the one that was foreseen.
  cases hkept.parsed.symm.trans (eq_ok_of_toOption hparse)
  have hcompiles : e.compiler.compiler.compile e.compiler.nextSnippet p =
      (.ok u', e₁.compiler.compiler) := hkept.compiles
  rw [hcompiles] at hcompile hforeseen
  cases hcompile
  have hpersists : Engine.persist u e.files = .ok (stored', e₁.files) := hkept.persisted
  cases hpersists.symm.trans (eq_ok_of_toOption hpersist)
  rw [heval] at hreached hstore
  obtain rfl : e₁.evaluator = store := hstore
  have hsame : { e₁ with executing := false } = e' := by
    cases hforeseen
    rw [hkept.after, ← hidle]
    rfl
  refine ⟨evaluation', _, (eval_eq hidle source).trans ?_, hsame ▸ hreached, rfl⟩
  rw [heval, hsame]

/-- Compiled code does what the program says, in every state of a session: the machine ends with the value, the
lack of one or the failure that the evaluator ends with, and with the same globals. The store is then what this
makes of it. -/
theorem Reached.run_eq_interpret (h : Reached config e r) {n : SnippetId} {p : Program}
    {u : CompiledUnit} {c' : Compiler} (hcompile : e.compiler.compiler.compile n p = (.ok u, c'))
    (runConfig : RunConfig) :
    let depth := min e.evaluator.maxCallDepth runConfig.maxCallDepth
    ∃ ran,
      Semantics.interpret (e.compiler.compiler.site r.routines) depth p e.evaluator.globals =
        .ok ran ∧
      Machine.Ends ⟨e.evaluator.constants ++ u.constants, depth⟩
        (Store.padded e.evaluator.globals u.globals) ⟨⟨u.main, 0, 0⟩, [], #[]⟩ ran ∧
      e.evaluator.run u runConfig = e.evaluator.after u ran := by
  obtain ⟨hs, -⟩ := h.sound
  exact hs.run_eq_after hcompile runConfig

/-- A function that calls itself until there is nothing left of its argument. -/
theorem new_run_eq_interpret :
    let p : Program := [.letIn "down" (.function ["n"]
      [.expr (.cond (.binary .less (.int 0) (.ident "n"))
        [.expr (.call (.ident "down") [.binary .sub (.ident "n") (.int 1)])]
        (some [.ret (.str "done")]))]),
      .expr (.call (.ident "down") [.int 2])]
    let e := SessionEngine.new {}
    ∃ u c' ran, e.compiler.compiler.compile 0 p = (.ok u, c') ∧
      Semantics.interpret (e.compiler.compiler.site []) 1024 p e.evaluator.globals = .ok ran ∧
      ran.result.toOption = some (some (.str "done")) ∧
      e.evaluator.run u ⟨0, 1024⟩ = e.evaluator.after u ran := by
  intro p e
  have hcompiles : (e.compiler.compiler.compile 0 p).1.toOption.isSome = true := by decide +kernel
  have hresult : ((Semantics.interpret (e.compiler.compiler.site []) 1024 p
      e.evaluator.globals).toOption.bind (·.result.toOption)) = some (some (.str "done")) := by
    decide +kernel
  rcases hcompile : e.compiler.compiler.compile 0 p with ⟨result, c'⟩
  rw [hcompile] at hcompiles
  cases result with
  | error cause => cases hcompiles
  | ok u =>
    obtain ⟨ran, hinterpret, -, hrun⟩ := Reached.new.run_eq_interpret hcompile ⟨0, 1024⟩
    have hmeans : Semantics.interpret (e.compiler.compiler.site []) 1024 p e.evaluator.globals =
        .ok ran := hinterpret
    rw [hmeans] at hresult
    exact ⟨u, c', ran, rfl, hmeans, hresult, hrun⟩

/-! ### Safety -/

/-- Snippets that were compiled and functions of the session never fail in any but the ordinary
ways: by the language's own failures and the two limits. Nor are such snippets refused, and a run
that fails changes nothing. -/
theorem Reached.no_internal_error (h : Reached config e r) :
    (∀ (n : SnippetId) (p : Program) (u : CompiledUnit) (c' : Compiler) (runConfig : RunConfig),
      e.compiler.compiler.compile n p = (.ok u, c') →
      (∃ value s, e.evaluator.run u runConfig = (.finished value, s)) ∨
        ∃ error, e.evaluator.run u runConfig = (.failed error, e.evaluator) ∧
          error.isOrdinary = true) ∧
      ∀ (f : Value) (args : List Value), f.isCallable = true → f.MadeOf e.Owns →
        (∀ v ∈ args, v.MadeOf e.Owns) →
        (∃ v, v.MadeOf e.Owns ∧ e.evaluator.call f args = (.ok v, e.evaluator)) ∨
          ∃ error, e.evaluator.call f args = (.error error, e.evaluator) ∧
            error.isOrdinary = true := by
  obtain ⟨hs, -⟩ := h.sound
  constructor
  · intro n p u c' runConfig hcompile
    obtain ⟨commands, place, hcompiled⟩ := Compiler.compile_eq_ok
      (congrArg Compiler.buffer hs.inStep.idle) hs.inStep.valid hcompile r.routines
    exact Store.run_cases hs.linked hcompiled hs.inStep runConfig
  · intro f args hcallable hf hargs
    obtain ⟨hcall, hkeeps⟩ := Store.call_eq hs.linked (hs.known hf)
      (fun v hv => hs.known (hargs v hv)) hcallable
    rw [hcall]
    cases hresult : (Semantics.call r.routines e.evaluator.maxCallDepth f args
      e.evaluator.globals).result with
    | ok v => exact .inl ⟨v, hs.owned (hkeeps.known v hresult), rfl⟩
    | error error => exact .inr ⟨error, rfl, hkeeps.ordinary error hresult⟩

/-- A function that a snippet comes to, called from outside. -/
theorem evaluated_no_internal_error :
    let e := (Engine.evalObserving parts (fun _ e => ((), e)) "fn(a) \x7b a + 1 \x7d"
      (SessionEngine.new {})).2
    ∃ f, f.type = .function ∧ f.MadeOf (Owns e) ∧
      ((∃ v, v.MadeOf (Owns e) ∧ e.evaluator.call f [.int 41] = (.ok v, e.evaluator)) ∨
        ∃ error, e.evaluator.call f [.int 41] = (.error error, e.evaluator) ∧
          error.isOrdinary = true) := by
  intro e
  have hnew : Reached {} (SessionEngine.new {}) {} := .new
  have htypes : ((SessionEngine.new {}).started.foreseen [] 0 "fn(a) \x7b a + 1 \x7d").map
      (·.map Value.type) = some (some .function) := by decide +kernel
  obtain ⟨value, hforeseen, htype⟩ := Option.map_eq_some_iff.mp htypes
  obtain ⟨f, rfl, hf⟩ := Option.map_eq_some_iff.mp htype
  obtain ⟨evaluation, hresult, hvalue⟩ :=
    (Sound.new {}).ok_of_foreseen (fun _ e => ((), e)) rfl (fun _ _ => rfl) hforeseen
  obtain ⟨-, howned⟩ := (Sound.new {}).evaluated_owns (fun _ e => ((), e)) rfl
    "fn(a) \x7b a + 1 \x7d" .refl
  have hmade := howned evaluation hresult
  rw [hvalue] at hmade
  have hcallable : f.isCallable = true := by
    cases f with
    | function f => rfl
    | _ => cases hf
  have hreached := hnew.evaluated (fun _ e => ((), e)) "fn(a) \x7b a + 1 \x7d" .refl
  exact ⟨f, hf, hmade, hreached.no_internal_error.2 f [.int 41] hcallable hmade (by simp)⟩

/-! ### Failures -/

/-- A snippet that fails, for whatever reason, leaves nothing behind but files that were written
before. Its number is used up. -/
theorem Reached.eq_of_error (h : Reached config e r) {α : Type}
    {observe : SnippetId → SessionEngine → α × SessionEngine}
    (hquiet : ∀ n e₁, (observe n e₁).2 = e₁) {source : String} {error : SessionError}
    (herror : (Engine.evalObserving parts observe source e).1.result = .error error) :
    ∃ files, (Engine.evalObserving parts observe source e).2 =
      { e with compiler := { e.compiler with nextSnippet := e.compiler.nextSnippet + 1 }, files } := by
  obtain ⟨hs, hidle⟩ := h.sound
  obtain ⟨hresult, hafter⟩ := evalObserving_eq observe hidle source
  rw [hquiet] at hresult hafter
  rw [hresult] at herror
  rw [hafter]
  rcases evalAs_cases hs.started e.compiler.nextSnippet source with ⟨-, error', files, heval⟩ |
    ⟨evaluation, e', p, u, stored, commands, place, heval, hkept⟩
  · refine ⟨files, ?_⟩
    rw [heval, ← hidle]
    rfl
  · rw [heval] at herror
    cases herror

/-- A snippet that defines something and then divides by zero. -/
theorem division_eq_of_error :
    ∃ files, (Engine.evalObserving parts (fun _ e => ((), e)) "let a = 1; a / 0"
        (SessionEngine.new {})).2 =
      { SessionEngine.new {} with compiler := ⟨{}, none, 1, 1024⟩, files } := by
  have hforeseen : (SessionEngine.new {}).started.foreseen [] 0 "let a = 1; a / 0" = none := by
    decide +kernel
  obtain ⟨error, herror⟩ :=
    (Sound.new {}).error_of_foreseen (fun _ e => ((), e)) rfl (fun _ _ => rfl) hforeseen
  exact Reached.new.eq_of_error (fun _ _ => rfl) herror

end SessionEngine

end Notebook
