import Notebook.Proofs.Composition.ProgramHalves
import Notebook.Proofs.Engine.Correctness

/-!
A program evaluated as one snippet, and in two parts.

`Reached.eval_append` says that it makes no difference whether a program is evaluated at once or in two
parts, as long as the first part does not return and no functions are compared: constants and code
are at other places then, but names have the same slots, and values are the same but for that.

* `ComparesData`: no comparison on the way is one of functions. It is about the run and not about the
  text, and `comparesData_of_within` decides it for a run that ends in time.
* `TypedResult.Same`, `SameGlobals`: what the two sessions have in common afterwards.
* `Sound.eval_of_finishes`, `Sound.finishes_of_eval`: from an evaluation by an engine to a unit that is
  compiled, stored and run, and back. In between, `Finishes.halves` cuts the program in two.
-/

namespace Notebook

/-! ### Runs that compare only data -/

namespace Machine

/-- The operands that come next, if the next instruction compares them. Both are still on the stack, the right
one on top. -/
def compared (m : Machine) : Option (Value × Value) := do
  let i ← (m.frame.function.code.fetch m.frame.ip).toOption
  if i.opcode = .equal ∨ i.opcode = .notEqual then
    let (right, below) ← (pop m.stack).toOption
    let (left, _) ← (pop below).toOption
    some (left, right)
  else none

theorem comparesData_iff {m : Machine} :
    m.ComparesData ↔ ∀ operands ∈ m.compared, operands.1.functions = [] ∧ operands.2.functions = [] := by
  constructor
  · rintro h ⟨left, right⟩ hoperands
    unfold compared at hoperands
    cases hfetch : m.frame.function.code.fetch m.frame.ip with
    | error error => simp [hfetch, Except.toOption] at hoperands
    | ok i =>
      cases hpop : pop m.stack with
      | error error => simp [hfetch, hpop, Except.toOption] at hoperands
      | ok top =>
        cases hpop' : pop top.2 with
        | error error => simp [hfetch, hpop, hpop', Except.toOption] at hoperands
        | ok next =>
          simp only [hfetch, hpop, hpop', Except.toOption, Option.bind_eq_bind, Option.bind_some] at hoperands
          split at hoperands
          · cases hoperands
            exact (h i hfetch ‹_› _ _ _ _ hpop hpop').symm
          · cases hoperands
  · intro h i hfetch hop right below left rest hpop hpop'
    have hoperands : (left, right) ∈ m.compared := by
      simp [compared, hfetch, hop, hpop, hpop', Except.toOption]
    exact (h _ hoperands).symm

instance (m : Machine) : Decidable m.ComparesData := decidable_of_iff' _ comparesData_iff

/-- Follows a run, and tells whether it ends after so many steps and has compared only data. The fuel bounds the
search alone; what is learned holds of the whole run. -/
def comparesDataWithin (setting : Setting) : Nat → Array Value → Machine → Bool
  | 0, _, _ => false
  | fuel + 1, g, m =>
    decide m.ComparesData &&
      match step setting g m with
      | .ok (.next m') => comparesDataWithin setting fuel g m'
      | .ok (.assign index v m') => comparesDataWithin setting fuel (assign g index v) m'
      | _ => true

/-- A run that was followed to its end compares only data. -/
theorem Reaches.comparesData {setting : Setting} {g g' : Array Value} {m m' : Machine}
    (hreach : Reaches setting g m g' m') {fuel : Nat}
    (h : comparesDataWithin setting fuel g m = true) : m'.ComparesData := by
  induction hreach generalizing fuel with
  | refl =>
    cases fuel with
    | zero => cases h
    | succ fuel => exact of_decide_eq_true (Bool.and_eq_true_iff.mp h).1
  | next hstep _ ih =>
    cases fuel with
    | zero => cases h
    | succ fuel =>
      have hrest := (Bool.and_eq_true_iff.mp h).2
      rw [hstep] at hrest
      exact ih hrest
  | assign hstep _ ih =>
    cases fuel with
    | zero => cases h
    | succ fuel =>
      have hrest := (Bool.and_eq_true_iff.mp h).2
      rw [hstep] at hrest
      exact ih hrest

end Machine

namespace SessionEngine

/-- Does evaluating a text compare only data without functions? -/
def ComparesData (source : String) (e : SessionEngine) : Prop :=
  ∀ p u compiler, Program.ofSource source = .ok p →
    e.compiler.compiler.compile e.compiler.nextSnippet p = (.ok u, compiler) →
    e.evaluator.ComparesData u ⟨e.compiler.nextSnippet, e.compiler.maxCallDepth⟩

/-- Follows the evaluation of a text, and tells whether it ends after so many steps and has compared
only data. -/
def comparesDataWithin (fuel : Nat) (source : String) (e : SessionEngine) : Bool :=
  match Program.ofSource source with
  | .error _ => true
  | .ok p =>
    match (e.compiler.compiler.compile e.compiler.nextSnippet p).1 with
    | .error _ => true
    | .ok u =>
      Machine.comparesDataWithin
        ⟨Store.padded e.evaluator.constants u.constantsOffset ++ u.constants,
          min e.evaluator.maxCallDepth e.compiler.maxCallDepth⟩ fuel
        (Store.padded e.evaluator.globals u.globals) ⟨⟨u.main, 0, 0⟩, [], #[]⟩

theorem comparesData_of_within {e : SessionEngine} {source : String} {fuel : Nat}
    (h : e.comparesDataWithin fuel source = true) : e.ComparesData source := by
  intro p u compiler hparse hcompile g m hreach
  simp only [comparesDataWithin, hparse, hcompile] at h
  exact hreach.comparesData h

end SessionEngine

/-! ### Evaluating in two parts -/

/-- The same value, if any, but for where the constants are that its functions use, and the same type. The
constants are compared in turn, each in the pool of its own session. -/
structure TypedResult.Same (pool pool' : Array Value) (t t' : TypedResult) : Prop where
  value : Option.Rel (Value.Related (FunctionCode.Same pool pool')) t.value t'.value
  declaredType : t.declaredType = t'.declaredType

namespace SessionEngine

/-- Do two engines know the same names for the same slots, with the same values in them but for where the
constants are that functions use? The lines that bound the names are left out: they differ as soon as a program
is cut in two. -/
structure SameGlobals (e e' : SessionEngine) : Prop where
  slots : ∀ name, (e.evaluator.bindings.get? name).map Binding.index =
    (e'.evaluator.bindings.get? name).map Binding.index
  values : Stacked (FunctionCode.Same e.evaluator.constants e'.evaluator.constants)
    e.evaluator.globals e'.evaluator.globals

variable {config : Config} {e e' : SessionEngine} {r r' : Record}

/-- Every constant of a session is the same as itself, whatever comes after it. -/
theorem Reached.founded (h : Reached config e r) : e.evaluator.Founded := by
  refine h.invariant (P := fun _ s => s.Founded) ?_ ?_
  · intro pool pool' _ _ v hv
    exact absurd hv (Array.not_mem_empty v)
  · intro e e' r n source value p u stored commands place hs hkept hfounded
    obtain ⟨-, -, -, hconstants, -⟩ := hs.linked.finished hkept.compiled hs.inStep hkept.ran
    exact hfounded.loaded hs.linked hkept.compiled hs.inStep hconstants

/-- Engines with the same scope know the same names for the same slots. -/
theorem Sound.slots_eq (hs : e.Sound config r) (hs' : e'.Sound config r')
    (hscope : e.compiler.compiler.scope = e'.compiler.compiler.scope) (name : String) :
    (e.evaluator.bindings.get? name).map Binding.index =
      (e'.evaluator.bindings.get? name).map Binding.index := by
  have hnames := hs.names
  rw [hscope] at hnames
  exact Option.ext fun i => (hnames name i).symm.trans (hs'.names name i)

/-- A snippet that finishes is evaluated, if its files can be written. -/
theorem Sound.eval_of_persisted (hs : e.Sound config r) (hidle : e.executing = false)
    {source : String} {p : Program} {u : CompiledUnit} {c' : Compiler} {value : Option Value}
    {s' : Store} {stored : SerializedUnit} {files : UnitFiles}
    (hparse : Program.ofSource source = .ok p)
    (h : Finishes e.compiler.compiler e.evaluator
      ⟨e.compiler.nextSnippet, e.compiler.maxCallDepth⟩ p u c' value s')
    (hpersist : Engine.persist u e.files = .ok (stored, files)) :
    ∃ handle, Engine.eval parts source e =
      (.ok ⟨⟨value, value.bind fun _ => u.declaredType⟩, handle⟩,
        { e with
          compiler := { e.compiler with compiler := c', nextSnippet := e.compiler.nextSnippet + 1 }
          evaluator := s'
          context := .ofStore s'
          archive := e.archive.push stored
          files }) := by
  have hpersist' : Engine.persist u e.started.files = .ok (stored, files) := hpersist
  obtain ⟨handle, heval⟩ := evalAs_eq hs.started hparse h.compiles hpersist' h.runs
  refine ⟨handle, ?_⟩
  rw [eval_eq hidle, heval, ← hidle]
  rfl

/-- A snippet that finishes is evaluated, if no files are written. -/
theorem Sound.eval_of_finishes (hs : e.Sound config r) (hidle : e.executing = false)
    (hfiles : e.files.current = none) {source : String} {p : Program} {u : CompiledUnit}
    {c' : Compiler} {value : Option Value} {s' : Store} (hparse : Program.ofSource source = .ok p)
    (h : Finishes e.compiler.compiler e.evaluator
      ⟨e.compiler.nextSnippet, e.compiler.maxCallDepth⟩ p u c' value s') :
    ∃ handle archive, Engine.eval parts source e =
      (.ok ⟨⟨value, value.bind fun _ => u.declaredType⟩, handle⟩,
        { e with
          compiler := { e.compiler with compiler := c', nextSnippet := e.compiler.nextSnippet + 1 }
          evaluator := s'
          context := .ofStore s'
          archive }) := by
  obtain ⟨stored, hstored⟩ := CompiledUnit.serialize_ok_iff.mpr h.storable
  have hpersist : Engine.persist u e.files = .ok (stored, e.files) := by
    unfold Engine.persist UnitFiles.write
    simp only [hstored, hfiles]
  obtain ⟨handle, heval⟩ := hs.eval_of_persisted hidle hparse h hpersist
  exact ⟨handle, e.archive.push stored, heval⟩

/-- A snippet that was evaluated finishes. -/
theorem Sound.finishes_of_eval (hs : e.Sound config r) (hidle : e.executing = false)
    {source : String} {p : Program} (hparse : Program.ofSource source = .ok p)
    {evaluation : Evaluation} (heval : (Engine.eval parts source e).1 = .ok evaluation) :
    ∃ u c' s', Finishes e.compiler.compiler e.evaluator
      ⟨e.compiler.nextSnippet, e.compiler.maxCallDepth⟩ p u c' evaluation.result.value s' := by
  rw [eval_eq hidle] at heval
  rcases evalAs_cases hs.started e.compiler.nextSnippet source with ⟨-, error, files, hfailed⟩ |
    ⟨evaluation', e', p', u, stored, commands, place, hevalAs, hkept⟩
  · rw [hfailed] at heval
    cases heval
  · rw [hevalAs] at heval
    cases heval
    obtain rfl := Except.ok.inj (hparse.symm.trans hkept.parsed)
    have hstored : ∃ stored, u.serialize = .ok stored :=
      ⟨_, Engine.serialize_eq_of_persist hkept.persisted⟩
    exact ⟨u, _, _, hkept.compiles, CompiledUnit.serialize_ok_iff.mp hstored, hkept.ran⟩

/-- Evaluating a program at once agrees with evaluating it in two parts. If the whole succeeds, then so do both
parts, one after the other. The second one has the same value and declared type, and afterwards the same names
are bound to the same slots with the same values. The first part must not return, and no functions are compared:
these are the two ways in which the cut could be seen. -/
theorem Reached.eval_append (h : Reached config e r) (hfiles : e.files.current = none)
    {whole first second : String} {p₁ p₂ : Program}
    (hwhole : Program.ofSource whole = .ok (p₁ ++ p₂)) (hfirst : Program.ofSource first = .ok p₁)
    (hsecond : Program.ofSource second = .ok p₂) (hne : p₂ ≠ [])
    (hreturns : Program.returns p₁ = false) (hcompares : e.ComparesData whole)
    {evaluation : Evaluation} (heval : (Engine.eval parts whole e).1 = .ok evaluation)
    (hroom : (Engine.eval parts whole e).2.evaluator.constants.size < UInt32.size) :
    let e' : SessionEngine := (Engine.eval parts whole e).2
    let e₁ : SessionEngine := (Engine.eval parts first e).2
    let e₂ : SessionEngine := (Engine.eval parts second e₁).2
    ∃ evaluation₁ evaluation₂, (Engine.eval parts first e).1 = .ok evaluation₁ ∧
      (Engine.eval parts second e₁).1 = .ok evaluation₂ ∧
      evaluation₂.result.Same e₂.evaluator.constants e'.evaluator.constants evaluation.result ∧
      e₂.SameGlobals e' := by
  intro e' e₁ e₂
  obtain ⟨hs, hidle⟩ := h.sound
  have hs' : Sound config e' _ := (h.evaluated (fun _ e => ((), e)) whole .refl).sound.1
  have hreached₁ : Reached config e₁ _ := h.evaluated (fun _ e => ((), e)) first .refl
  obtain ⟨hs₁, hidle₁⟩ := hreached₁.sound
  have hs₂ : Sound config e₂ _ := (hreached₁.evaluated (fun _ e => ((), e)) second .refl).sound.1
  -- What the whole does is taken from its evaluation down to compiler and store, where it is cut in two.
  obtain ⟨u, c', s', hfinishes⟩ := hs.finishes_of_eval hidle hwhole heval
  obtain ⟨handle, archive, hwholeEval⟩ := hs.eval_of_finishes hidle hfiles hwhole hfinishes
  rw [hwholeEval] at heval hroom
  obtain ⟨u₁, c₁, value₁, s₁, u₂, c₂, value₂, s₂, hfinishes₁, hfinishes₂, htype, hscope, hvalue,
      hleft⟩ := hfinishes.halves hne hreturns hs.linked h.founded hs.inStep
    (hcompares _ _ _ hwhole hfinishes.compiles) hroom e.compiler.nextSnippet
    (e.compiler.nextSnippet + 1)
  -- The parts are then evaluated by engines again, the second one in the state that the first one leaves.
  obtain ⟨handle₁, archive₁, hfirstEval⟩ := hs.eval_of_finishes hidle hfiles hfirst hfinishes₁
  have he₁ : e₁ = _ := congrArg Prod.snd hfirstEval
  have hfiles₁ : e₁.files.current = none := by
    rw [he₁]
    exact hfiles
  have hsecondStarts : Finishes e₁.compiler.compiler e₁.evaluator
      ⟨e₁.compiler.nextSnippet, e₁.compiler.maxCallDepth⟩ p₂ u₂ c₂ value₂ s₂ := by
    rw [he₁]
    exact hfinishes₂
  obtain ⟨handle₂, archive₂, hsecondEval⟩ :=
    hs₁.eval_of_finishes hidle₁ hfiles₁ hsecond hsecondStarts
  have he₂ : e₂ = _ := congrArg Prod.snd hsecondEval
  have he' : e' = _ := congrArg Prod.snd hwholeEval
  refine ⟨_, _, congrArg Prod.fst hfirstEval, congrArg Prod.fst hsecondEval, ?_, ?_, ?_⟩
  · rw [he₂, he']
    -- The engine only declares a type along with a value, and the values of both are there or not there
    -- together.
    have hdeclared : (evaluation.result.value.bind fun _ => u.declaredType) =
        evaluation.result.declaredType :=
      congrArg (·.result.declaredType) (Except.ok.inj heval)
    refine ⟨hvalue, ?_⟩
    rw [← hdeclared]
    generalize evaluation.result.value = value at hvalue
    cases hvalue with
    | some _ => exact htype
    | none => rfl
  · refine hs₂.slots_eq hs' ?_
    rw [he₂, he']
    exact hscope
  · rw [he₂, he']
    exact hleft

/-- A value that the first part drops, and a function that the second part defines, calls and compares
the value of. -/
theorem new_eval_append :
    let first := "let a = 1; a + 1; "
    let second := "let f = fn(n) \x7b n + a \x7d; f(2) == 3"
    let e : SessionEngine := .new {}
    let e' : SessionEngine := (Engine.eval parts (first ++ second) e).2
    let e₁ : SessionEngine := (Engine.eval parts first e).2
    let e₂ : SessionEngine := (Engine.eval parts second e₁).2
    ∃ evaluation, (Engine.eval parts second e₁).1 = .ok evaluation ∧
      evaluation.result.value = some (.bool true) ∧ e₂.SameGlobals e' := by
  intro first second e e' e₁ e₂
  let p₁ : Program := [.letIn "a" (.int 1), .expr (.binary .add (.ident "a") (.int 1))]
  let p₂ : Program :=
    [.letIn "f" (.function ["n"] [.expr (.binary .add (.ident "n") (.ident "a"))]),
      .expr (.binary .equal (.call (.ident "f") [.int 2]) (.int 3))]
  have hwhole : Program.ofSource (first ++ second) = .ok (p₁ ++ p₂) := by
    simp only [first, second, p₁, p₂]
    with_unfolding_all rfl
  have hfirst : Program.ofSource first = .ok p₁ := by
    simp only [first, p₁]
    with_unfolding_all rfl
  have hsecond : Program.ofSource second = .ok p₂ := by
    simp only [second, p₂]
    with_unfolding_all rfl
  -- The whole run is followed once to see what it compares, and foreseen once to see what it comes to.
  have hcompares : e.comparesDataWithin 100 (first ++ second) = true := by decide +kernel
  have hforeseen : ((SessionEngine.new {}).started.foreseenRun [] 0 (first ++ second)).map
      (fun ran => (ran.1, ran.2.constants.size)) = some (some (.bool true), 5) := by decide +kernel
  obtain ⟨⟨value, store⟩, hrun, hseen⟩ := Option.map_eq_some_iff.mp hforeseen
  obtain rfl : value = some (.bool true) := congrArg Prod.fst hseen
  have hsize : store.constants.size = 5 := congrArg Prod.snd hseen
  obtain ⟨evaluation, hresult, hvalue, hstore⟩ :=
    (Sound.new {}).ok_of_foreseenRun (fun _ e => ((), e)) rfl (fun _ _ => rfl) hrun
  have hroom : e'.evaluator.constants.size < UInt32.size := by
    have hleft : e'.evaluator = store := hstore
    rw [hleft, hsize]
    decide
  obtain ⟨evaluation₁, evaluation₂, -, hsecondEval, hsame, hglobals⟩ :=
    Reached.new.eval_append rfl hwhole hfirst hsecond (List.cons_ne_nil _ _) rfl
      (comparesData_of_within hcompares) hresult hroom
  refine ⟨evaluation₂, hsecondEval, ?_, hglobals⟩
  have hrelated := hsame.value
  rw [hvalue] at hrelated
  generalize evaluation₂.result.value = value at hrelated
  cases hrelated with
  | some hsame =>
    cases hsame with
    | bool b => rfl

end SessionEngine

end Notebook
