import Mathlib.Logic.Function.Iterate
import Notebook.Proofs.Composition.RepeatedPrograms
import Notebook.Proofs.Composition.SplitEvaluation
import Notebook.Proofs.Engine.Correctness

/-!
How long a session lasts.

Every `let` takes a slot for a global, and instructions can name only so many. `SessionEngine.HasRoom`
says what a session has to have left for a program.

* `Reached.keepsBuiltins`: a name that the session has not declared means what it does in a new session,
  so a program that uses no others means the same at any time.
* `Reached.finishes_of_new`: such a program finishes later as it does in a new session, if there is room.
* `SessionEngine.Reached.eval_of_new`: a closed program that a new session evaluates to data comes to
  the same in any session that has room left for it, and fails in all others.
* `SessionEngine.Used`: a session that has declared so many names. Evaluating one more `let` leads from
  each of them to the next (`Used.eval`).
* `SessionEngine.worn_out`: so there is a session in which no `let` compiles any more.
-/

namespace Notebook

/-! ### Names that are not declared -/

/-- Does every name that is no global refer to what it does in a new session? A session only ever adds globals,
so declaring a name keeps this. -/
structure Scope.KeepsBuiltins (s : Scope) : Prop where
  session : s.isSession = true
  builtins : ∀ name, (∀ i, s.resolve name ≠ some (.global i)) →
    s.resolve name = Scope.initial.resolve name

theorem Scope.KeepsBuiltins.defineAll {s : Scope} (h : s.KeepsBuiltins) (names : List String) :
    (s.defineAll names).KeepsBuiltins := by
  refine ⟨(isSession_defineAll names s).trans h.session, ?_⟩
  intro name hname
  by_cases hmem : name ∈ names
  · obtain ⟨i, -, hi⟩ := resolve_defineAll_of_mem hmem h.session
    exact absurd hi (hname i)
  · rw [resolve_defineAll_of_notMem hmem h.session] at hname ⊢
    exact h.builtins name hname

/-- Where builtins are kept, names that are no globals mean the same as in a new session. -/
theorem Scope.KeepsBuiltins.raised {s : Scope} (h : s.KeepsBuiltins) {known : List String}
    (hknown : ∀ name ∈ known, ∀ i, s.resolve name ≠ some (.global i)) :
    Scope.initial.Raised s.slots known s := by
  refine ⟨h.session, (Nat.zero_add _).symm, ?_⟩
  intro name hname
  have hnone : ∀ i, Scope.initial.resolve name ≠ some (.global i) := by
    intro i hi
    cases (Scope.agrees_initial name i).mp hi
  rw [h.builtins name (hknown name hname)]
  cases href : Scope.initial.resolve name with
  | none => rfl
  | some r =>
    cases r with
    | global i => exact absurd href (hnone i)
    | _ => rfl

/-! ### Files -/

/-- Is there a directory to write into, if writing is on? -/
def UnitFiles.Writable (f : UnitFiles) : Prop :=
  f.current ≠ none → ∃ files, f.directory? = some (some files)

theorem UnitFiles.writable_of_off {f : UnitFiles} (h : f.current = none) : f.Writable :=
  fun hcurrent => absurd h hcurrent

theorem UnitFiles.writable_of_write {f f' : UnitFiles} {u : CompiledUnit} {stored : SerializedUnit}
    (h : f.write u stored = .ok f') : f.Writable := by
  intro hcurrent
  unfold UnitFiles.write at h
  split at h
  · exact ⟨_, ‹_›⟩
  · cases h
  · exact absurd ‹_› hcurrent

theorem UnitFiles.Writable.write {f : UnitFiles} (h : f.Writable) (u : CompiledUnit)
    (stored : SerializedUnit) : ∃ f', f.write u stored = .ok f' := by
  unfold UnitFiles.write
  cases hcurrent : f.current with
  | none => exact ⟨f, rfl⟩
  | some i =>
    obtain ⟨files, hfiles⟩ := h (hcurrent ▸ Option.some_ne_none i)
    rw [hfiles]
    exact ⟨_, rfl⟩

namespace SessionEngine

variable {config : Config} {e : SessionEngine} {r : Record}

/-- The builtins that a session has not redeclared. -/
def builtins (e : SessionEngine) : List String :=
  (Builtin.all.map Builtin.name).filter fun name => (e.evaluator.bindings.get? name).isNone

theorem Reached.keepsBuiltins (h : Reached config e r) :
    e.compiler.compiler.scope.KeepsBuiltins := by
  refine h.invariant (P := fun c _ => c.scope.KeepsBuiltins) ⟨rfl, fun name _ => rfl⟩ ?_
  intro e e' r n source value p u stored commands place _ hkept hbuiltins
  rw [hkept.compiled.scope]
  exact hbuiltins.defineAll _

/-- No session has more globals than instructions can name. -/
theorem Reached.globals_le (h : Reached config e r) : e.evaluator.globals.size ≤ 65536 := by
  rw [← h.sound.1.inStep.slots]
  refine h.invariant (P := fun c _ => c.scope.slots ≤ 65536) (Nat.zero_le _) ?_
  intro e e' r n source value p u stored commands place _ hkept hslots
  exact Compiler.compile_slots_le hkept.compiles hslots

/-- A snippet that finishes is evaluated, if there is a directory for its files. -/
theorem Sound.ok_of_finishes (hs : e.Sound config r) (hidle : e.executing = false)
    (hfiles : e.files.Writable) {source : String} {p : Program} {u : CompiledUnit} {c' : Compiler}
    {value : Option Value} {s' : Store} (hparse : Program.ofSource source = .ok p)
    (h : Finishes e.compiler.compiler e.evaluator
      ⟨e.compiler.nextSnippet, e.compiler.maxCallDepth⟩ p u c' value s') :
    ∃ evaluation, (Engine.eval parts source e).1 = .ok evaluation ∧
      evaluation.result = ⟨value, value.bind fun _ => u.declaredType⟩ := by
  obtain ⟨stored, hstored⟩ := CompiledUnit.serialize_ok_iff.mpr h.storable
  obtain ⟨files, hwritten⟩ := hfiles.write u stored
  have hpersist : Engine.persist u e.files = .ok (stored, files) := by
    unfold Engine.persist
    simp only [hstored, hwritten]
  obtain ⟨handle, heval⟩ := hs.eval_of_persisted hidle hparse h hpersist
  rw [heval]
  exact ⟨_, rfl, rfl⟩

/-- What an engine has to have left for a program: slots for its globals, places in the pool, and a directory
for its files, if it is to write any. Only the first of these is used up by programs of ordinary size. -/
structure HasRoom (p : Program) (e : SessionEngine) : Prop where
  slots : e.evaluator.globals.size + (Program.declared p).length ≤ 65536
  pool : e.evaluator.constants.size < UInt32.size
  files : e.files.Writable

/-- A session that evaluates a program had room for it. Every condition is one that the compiler, the file
format or the machine would have failed for. -/
theorem Reached.hasRoom_of_ok (h : Reached config e r) {source : String} {p : Program}
    (hparse : Program.ofSource source = .ok p) {evaluation : Evaluation}
    (heval : (Engine.eval parts source e).1 = .ok evaluation) : e.HasRoom p := by
  obtain ⟨hs, hidle⟩ := h.sound
  rw [eval_eq hidle] at heval
  rcases evalAs_cases hs.started e.compiler.nextSnippet source with ⟨-, error, files, hfailed⟩ |
    ⟨evaluation', e', p', u, stored, commands, place, hevalAs, hkept⟩
  · rw [hfailed] at heval
    cases heval
  · obtain rfl := Except.ok.inj (hparse.symm.trans hkept.parsed)
    have hcompile : e.compiler.compiler.compile e.compiler.nextSnippet p =
        (.ok u, e'.compiler.compiler) := hkept.compiles
    refine ⟨?_, ?_, ?_⟩
    · -- Each kind of room is read off the step that needed it: compiling, storing, and writing files.
      have hslots : e.compiler.compiler.scope.slots = e.evaluator.globals.size := hs.inStep.slots
      have hbound := Compiler.compile_slots_le hcompile (hslots ▸ h.globals_le)
      have hscope : e'.compiler.compiler.scope =
          e.compiler.compiler.scope.defineAll (Program.declared p) := hkept.compiled.scope
      rwa [hscope, Scope.slots_defineAll, hslots] at hbound
    · have hstored : u.Storable :=
        CompiledUnit.serialize_ok_iff.mp ⟨stored, Engine.serialize_eq_of_persist hkept.persisted⟩
      have hoffset : u.constantsOffset = e.evaluator.constants.size :=
        hkept.compiled.offset.trans hs.inStep.offset
      exact hoffset ▸ hstored.offset
    · have hpersist : Engine.persist u e.files = .ok (stored, e'.files) := hkept.persisted
      unfold Engine.persist at hpersist
      split at hpersist
      · cases hpersist
      · split at hpersist
        · cases hpersist
        · exact UnitFiles.writable_of_write ‹_›

/-- A new session has a directory to write into, if it is to write. -/
theorem writable_new (config : Config) : (SessionEngine.new config).files.Writable := by
  intro hcurrent
  cases hwrite : config.writeUnits with
  | false =>
    have hoff : (SessionEngine.new config).files.current = none := by
      simp [SessionEngine.new, Engine.setWriting, hwrite, UnitFiles.stop]
    exact absurd hoff hcurrent
  | true =>
    refine ⟨⟨[]⟩, ?_⟩
    simp [SessionEngine.new, Engine.setWriting, hwrite, UnitFiles.start, UnitFiles.directory?]

/-- A closed program that a new session evaluates to data finishes with it in any session that has room
left for it. -/
theorem Reached.finishes_of_new (h : Reached config e r) {source : String} {p : Program}
    (hparse : Program.ofSource source = .ok p) (hclosed : Program.isClosed e.builtins p = true)
    (hroom : e.HasRoom p) {evaluation : Evaluation}
    (heval : (Engine.eval parts source (SessionEngine.new config)).1 = .ok evaluation)
    (hdata : ∀ v ∈ evaluation.result.value, v.functions = []) :
    ∃ u c' s', Finishes e.compiler.compiler e.evaluator
        ⟨e.compiler.nextSnippet, e.compiler.maxCallDepth⟩ p u c' evaluation.result.value s' ∧
      evaluation.result.declaredType = evaluation.result.value.bind fun _ => u.declaredType := by
  obtain ⟨hs, -⟩ := h.sound
  have hnew : Sound config (SessionEngine.new config) {} := .new config
  obtain ⟨u, c₁, s₁, hfinishes⟩ := hnew.finishes_of_eval rfl hparse heval
  have htype : evaluation.result.declaredType =
      evaluation.result.value.bind fun _ => u.declaredType := by
    obtain ⟨evaluation', heval', hresult⟩ :=
      hnew.ok_of_finishes rfl (writable_new config) hparse hfinishes
    cases heval.symm.trans heval'
    exact congrArg TypedResult.declaredType hresult
  have hknown : ∀ name ∈ e.builtins, ∀ i,
      e.compiler.compiler.scope.resolve name ≠ some (.global i) := by
    intro name hname i hi
    have hbound := (hs.names name i).mp hi
    rw [Option.isNone_iff_eq_none.mp (List.mem_filter.mp hname).2] at hbound
    cases hbound
  -- Names that are not redeclared are builtins here as there, so the program means the same.
  have hraised := h.keepsBuiltins.raised hknown
  rw [hs.inStep.slots] at hraised
  have hdepth : min e.evaluator.maxCallDepth e.compiler.maxCallDepth =
      min config.maxCallDepth config.maxCallDepth := by
    rw [hs.storeDepth, hs.compilerDepth]
  obtain ⟨u', c', s', hagain, hsame⟩ : ∃ u' c' s', Finishes e.compiler.compiler e.evaluator
        ⟨e.compiler.nextSnippet, e.compiler.maxCallDepth⟩ p u' c' evaluation.result.value s' ∧
      u'.declaredType = u.declaredType :=
    hfinishes.again hnew.linked rfl hnew.inStep hs.inStep hraised hclosed hroom.slots hroom.pool
      hdepth hdata
  refine ⟨u', c', s', hagain, ?_⟩
  rw [hsame]
  exact htype

/-- A closed program that a new session evaluates to data, or to no value, evaluates to the same in
every session that has room left for it, however long the session has lasted. All other sessions fail to
evaluate it. -/
theorem Reached.eval_of_new (h : Reached config e r) {source : String} {p : Program}
    (hparse : Program.ofSource source = .ok p) (hclosed : Program.isClosed e.builtins p = true)
    {evaluation : Evaluation}
    (heval : (Engine.eval parts source (SessionEngine.new config)).1 = .ok evaluation)
    (hdata : ∀ v ∈ evaluation.result.value, v.functions = []) :
    (e.HasRoom p → ∃ evaluation', (Engine.eval parts source e).1 = .ok evaluation' ∧
      evaluation'.result = evaluation.result) ∧
    (¬ e.HasRoom p → ∃ error, (Engine.eval parts source e).1 = .error error) := by
  refine ⟨fun hroom => ?_, fun hfull => ?_⟩
  · obtain ⟨hs, hidle⟩ := h.sound
    obtain ⟨u, c', s', hfinishes, htype⟩ := h.finishes_of_new hparse hclosed hroom heval hdata
    obtain ⟨evaluation', heval', hresult⟩ := hs.ok_of_finishes hidle hroom.files hparse hfinishes
    refine ⟨evaluation', heval', ?_⟩
    rw [hresult, ← htype]
  · cases hresult : (Engine.eval parts source e).1 with
    | error error => exact ⟨error, rfl⟩
    | ok evaluation' => exact absurd (h.hasRoom_of_ok hparse hresult) hfull

/-- A function and a global of the same session, after another snippet. -/
theorem later_eval_of_new :
    let source := "let n = 3; let f = fn(k) \x7b k + n \x7d; f(len(\"four\"))"
    let e : SessionEngine := (Engine.eval parts "let a = 1;" (SessionEngine.new {})).2
    ∃ evaluation, (Engine.eval parts source e).1 = .ok evaluation ∧
      evaluation.result.value = some (.int 7) := by
  intro source e
  let p : Program :=
    [.letIn "n" (.int 3),
      .letIn "f" (.function ["k"] [.expr (.binary .add (.ident "k") (.ident "n"))]),
      .expr (.call (.ident "f") [.call (.ident "len") [.str "four"]])]
  have hparse : Program.ofSource source = .ok p := by
    simp only [source, p]
    with_unfolding_all rfl
  have hnew : Sound {} (SessionEngine.new {}) {} := .new {}
  have hforeseen : ((SessionEngine.new {}).started.foreseenRun [] 0 "let a = 1;").map
      (fun ran => (ran.2.constants.size, ran.2.globals.size, ran.2.bindings)) =
      some (1, 1, ⟨[("a", ⟨0, 0⟩)]⟩) := by decide +kernel
  obtain ⟨⟨value, store⟩, hrun, hseen⟩ := Option.map_eq_some_iff.mp hforeseen
  obtain ⟨first, hfirst, -, hstore⟩ :=
    hnew.ok_of_foreseenRun (fun _ e => ((), e)) rfl (fun _ _ => rfl) hrun
  have hafter : e.evaluator = store := hstore
  have hbindings : e.evaluator.bindings = ⟨[("a", ⟨0, 0⟩)]⟩ :=
    hafter ▸ congrArg (·.2.2) hseen
  have hconstants : e.evaluator.constants.size = 1 := hafter ▸ congrArg (·.1) hseen
  have hglobals : e.evaluator.globals.size = 1 := hafter ▸ congrArg (·.2.1) hseen
  have hclosed : Program.isClosed e.builtins p = true := by
    unfold builtins
    rw [hbindings]
    decide +kernel
  have hforeseen' : (SessionEngine.new {}).started.foreseen [] 0 source = some (some (.int 7)) := by
    decide +kernel
  obtain ⟨evaluation, heval, hvalue⟩ :=
    hnew.ok_of_foreseen (fun _ e => ((), e)) rfl (fun _ _ => rfl) hforeseen'
  have hreached : Reached {} e _ := Reached.new.evaluated (fun _ e => ((), e)) "let a = 1;" .refl
  have hoff : e.files.current = none := by
    have hparsed : Program.ofSource "let a = 1;" = .ok [.letIn "a" (.int 1)] := by
      with_unfolding_all rfl
    obtain ⟨u, c', s', hfinishes⟩ := hnew.finishes_of_eval rfl hparsed hfirst
    obtain ⟨handle, archive, hafter⟩ := hnew.eval_of_finishes rfl rfl hparsed hfinishes
    exact congrArg (·.2.files.current) hafter
  have hroom : e.HasRoom p :=
    ⟨hglobals ▸ by decide, hconstants ▸ by decide, UnitFiles.writable_of_off hoff⟩
  have hdata : ∀ v ∈ evaluation.result.value, v.functions = [] := by
    rw [hvalue]
    rintro _ ⟨⟩
    rfl
  obtain ⟨evaluation', heval', hresult⟩ :=
    (hreached.eval_of_new hparse hclosed heval hdata).1 hroom
  exact ⟨evaluation', heval', (congrArg TypedResult.value hresult).trans hvalue⟩

/-! ### A session that has no slots left -/

/-- A session in which so many snippets have run, each of which has declared one name and used no
constant. -/
structure Used (n : Nat) (e : SessionEngine) : Prop where
  reached : ∃ r, Reached {} e r
  off : e.files.current = none
  snippets : e.compiler.nextSnippet = .ofNat n
  globals : e.evaluator.globals.size = n
  constants : e.evaluator.constants.size = 0

theorem Used.new : Used 0 (SessionEngine.new {}) :=
  ⟨⟨_, .new⟩, rfl, rfl, rfl, rfl⟩

/-- One such snippet more. -/
theorem Used.eval {n : Nat} (h : Used n e) (hlt : n < 65536) :
    Used (n + 1) (Engine.eval parts "let a = null;" e).2 := by
  let p : Program := [.letIn "a" .null]
  have hparse : Program.ofSource "let a = null;" = .ok p := by
    simp only [p]
    with_unfolding_all rfl
  obtain ⟨r, hreached⟩ := h.reached
  obtain ⟨hs, hidle⟩ := hreached.sound
  have hforeseen : (SessionEngine.new {}).started.foreseen [] 0 "let a = null;" = some none := by
    decide +kernel
  obtain ⟨evaluation, heval, hvalue⟩ :=
    (Sound.new {}).ok_of_foreseen (fun _ e => ((), e)) rfl (fun _ _ => rfl) hforeseen
  have hdata : ∀ v ∈ evaluation.result.value, v.functions = [] := by
    rw [hvalue]
    rintro _ ⟨⟩
  have hroom : e.HasRoom p :=
    ⟨h.globals ▸ hlt, h.constants ▸ by decide, UnitFiles.writable_of_off h.off⟩
  -- The snippet finishes because it does in a new session and there is a slot left.
  obtain ⟨u, c', s', hfinishes, -⟩ :=
    hreached.finishes_of_new hparse rfl hroom heval hdata
  obtain ⟨handle, archive, hafter⟩ := hs.eval_of_finishes hidle h.off hparse hfinishes
  have hreached' : Reached {} (Engine.eval parts "let a = null;" e).2 _ :=
    hreached.evaluated (fun _ e => ((), e)) "let a = null;" .refl
  obtain ⟨hs', -⟩ := hreached'.sound
  obtain ⟨commands, place, hc⟩ := Compiler.compile_eq_ok (congrArg Compiler.buffer hs.inStep.idle)
    hs.inStep.valid hfinishes.compiles r.routines
  have hstep' := hs'.inStep
  rw [hafter] at hstep'
  have hslots : c'.scope.slots = s'.globals.size := hstep'.slots
  have hoffset : c'.constantsOffset = s'.constants.size := hstep'.offset
  have hnone : place.constants = #[] := by
    have hresolved : resolveStmts p (e.compiler.compiler.site r.routines) =
        .ok ([_], (e.compiler.compiler.site r.routines).define "a") := rfl
    cases hresolved.symm.trans hc.resolved
    exact congrArg Compiler.constants hs.inStep.idle
  rw [hafter]
  refine ⟨⟨_, hafter ▸ hreached'⟩, h.off, ?_, ?_, ?_⟩
  · show e.compiler.nextSnippet + 1 = _
    rw [h.snippets]
    exact (UInt32.ofNat_add n 1).symm
  · show s'.globals.size = n + 1
    rw [← hslots, hc.scope, Scope.slots_defineAll, hs.inStep.slots, h.globals]
    rfl
  · show s'.constants.size = 0
    rw [← hoffset, hc.after, hnone]
    exact hs.inStep.offset.trans h.constants

theorem used_iterate {n : Nat} (h : n ≤ 65536) :
    Used n ((fun e => (Engine.eval parts "let a = null;" e).2)^[n] (SessionEngine.new {})) := by
  induction n with
  | zero => exact .new
  | succ n ih =>
    rw [Function.iterate_succ_apply']
    exact (ih (Nat.le_of_succ_le h)).eval h

/-- A session in which a variable was declared 65536 times evaluates no program that declares one, not
even one that needs nothing from the session and that a new session evaluates to a number. -/
theorem worn_out :
    let source := "let b = 1; b"
    let e : SessionEngine :=
      (fun e => (Engine.eval parts "let a = null;" e).2)^[65536] (SessionEngine.new {})
    (∃ r, Reached {} e r) ∧ e.compiler.nextSnippet = 65536 ∧ e.evaluator.constants.size = 0 ∧
      (∃ p, Program.ofSource source = .ok p ∧ Program.isClosed e.builtins p = true) ∧
      (∃ evaluation, (Engine.eval parts source (SessionEngine.new {})).1 = .ok evaluation ∧
        evaluation.result.value = some (.int 1)) ∧
      ∃ error, (Engine.eval parts source e).1 = .error error := by
  intro source e
  -- Counting snippets up by induction avoids running them; the last number is one that no instruction can name.
  have hused : Used 65536 e := used_iterate (Nat.le_refl _)
  let p : Program := [.letIn "b" (.int 1), .expr (.ident "b")]
  have hparse : Program.ofSource source = .ok p := by
    simp only [source, p]
    with_unfolding_all rfl
  have hclosed : Program.isClosed e.builtins p = true := by
    simp [p, Program.isClosed, Stmt.isClosed, Expr.isClosed, Stmt.declared, Expr.declared]
  have hforeseen : (SessionEngine.new {}).started.foreseen [] 0 source = some (some (.int 1)) := by
    decide +kernel
  obtain ⟨evaluation, heval, hvalue⟩ :=
    (Sound.new {}).ok_of_foreseen (fun _ e => ((), e)) rfl (fun _ _ => rfl) hforeseen
  obtain ⟨r, hreached⟩ := hused.reached
  refine ⟨⟨r, hreached⟩, hused.snippets, hused.constants, ⟨p, hparse, hclosed⟩,
    ⟨evaluation, heval, hvalue⟩, ?_⟩
  cases hresult : (Engine.eval parts source e).1 with
  | error error => exact ⟨error, rfl⟩
  | ok evaluation' =>
    have hslots := (hreached.hasRoom_of_ok hparse hresult).slots
    rw [hused.globals] at hslots
    exact absurd hslots (Nat.not_succ_le_self _)

end SessionEngine

end Notebook
