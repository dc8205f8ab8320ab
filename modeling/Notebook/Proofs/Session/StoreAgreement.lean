import Notebook.Proofs.Session.ReachedSessions

/-!
Compiler and store agree at all times.

They keep tables of their own: the compiler counts constants and defines names, the store holds
constants, globals and bindings. `SessionEngine.Agrees` says that these tell the same, and it holds
whenever no snippet is being evaluated, whatever has failed before.

* `SessionEngine.Reached.accepts`: hence the store runs whatever the compiler compiles next, with no
  gap to fill in its pool.
* `Session.Reached.agrees`: hence no snippet of a session, be it one of a renderer, is left
  unevaluated.
-/

namespace Notebook

namespace SessionEngine

/-- Do the compiler and the store of an engine tell the same about constants, globals and names? Each keeps its
own account, and neither asks the other. -/
structure Agrees (e : SessionEngine) : Prop where
  constants : e.compiler.compiler.constantsOffset = e.evaluator.constants.size
  globals : e.compiler.compiler.scope.slots = e.evaluator.globals.size
  names : ∀ name i, e.compiler.compiler.scope.resolve name = some (.global i) ↔
    (e.evaluator.bindings.get? name).map Binding.index = some i
  bound : ∀ name i, e.compiler.compiler.scope.resolve name = some (.global i) →
    i < e.evaluator.globals.size

/-- Does the store run whatever the compiler compiles next, with no gap to fill in its pool? -/
def Accepts (e : SessionEngine) : Prop :=
  ∀ n p u, (e.compiler.compiler.compile n p).1 = .ok u →
    Store.padded e.evaluator.constants u.constantsOffset = e.evaluator.constants ∧
      ∀ runConfig report, (e.evaluator.run u runConfig).1 ≠ .skipped report

variable {config : Config} {e : SessionEngine} {r : Record}

theorem Sound.agreement (hs : e.Sound config r) : e.Agrees where
  constants := hs.inStep.offset
  globals := hs.inStep.slots
  names := hs.names
  bound name i h := by
    have hname := hs.inStep.valid.resolve name
    rw [h] at hname
    have hglobal : i < e.compiler.compiler.scope.globals := hname
    have hsession := hs.inStep.session
    rw [← hs.inStep.slots]
    cases hscope : e.compiler.compiler.scope with
    | session level =>
      rw [hscope] at hglobal
      exact hglobal
    | function level enclosing =>
      rw [hscope] at hsession
      cases hsession

theorem Sound.accepts (hs : e.Sound config r) : e.Accepts := by
  intro n p u hok
  have hcompile : e.compiler.compiler.compile n p = (.ok u, (e.compiler.compiler.compile n p).2) := by
    rw [← hok]
  obtain ⟨commands, place, hcompiled⟩ := Compiler.compile_eq_ok
    (congrArg Compiler.buffer hs.inStep.idle) hs.inStep.valid hcompile r.routines
  constructor
  · rw [hcompiled.offset, hs.inStep.offset, Store.padded, Nat.sub_self]
    exact Array.append_empty
  · intro runConfig report hskipped
    rcases Store.run_cases hs.linked hcompiled hs.inStep runConfig with
      ⟨value, s', hrun⟩ | ⟨error, hrun, -⟩
    · rw [hrun] at hskipped
      cases hskipped
    · rw [hrun] at hskipped
      cases hskipped

/-- Where evaluating a text fails for any reason but the text itself and files, its run has failed:
it is never left unevaluated. -/
theorem Sound.cause_of_evalAs (hs : e.Sound config r) {n : SnippetId} {source message : String}
    {cause : Option Cause}
    (h : (Engine.evalAs parts n source e).1 = .error (.evaluation message cause)) :
    ∃ error, cause = some (.run error) ∧ message = error.message := by
  -- The evaluation ends in one of four ways, and each but one has another error than this.
  rcases e.compiler.compile_cases n source hs.inStep hs.pending with
    ⟨diagnostics, hcompile, -⟩ | ⟨p, u, compiler, hparse, hc, hcompile⟩
  · have hends : Engine.Concludes parts n source e _ _ := .uncompiled hcompile
    rw [hends.evalAs_eq] at h
    cases h
  · obtain ⟨commands, place, hcompiled⟩ :=
      Compiler.compile_eq_ok (congrArg Compiler.buffer hs.inStep.idle) hs.inStep.valid hc r.routines
    cases hpersist : Engine.persist u e.files with
    | error error =>
      have hends : Engine.Concludes parts n source e _ _ := .unstored hcompile hpersist
      rw [hends.evalAs_eq] at h
      unfold Engine.persist at hpersist
      split at hpersist
      · cases hpersist
        cases h
      · split at hpersist <;> cases hpersist
        cases h
    | ok written =>
      -- The unit is not refused, as it was just compiled in step with the store.
      rcases Store.run_cases hs.linked hcompiled hs.inStep ⟨n, e.compiler.maxCallDepth⟩ with
        ⟨value, s', hrun⟩ | ⟨error, hrun, -⟩
      · obtain ⟨evaluated, handle, hevaluate, houtcome⟩ := evaluate_of_finished hrun
        have hends : Engine.Concludes parts n source e _ _ :=
          .kept hcompile hpersist hevaluate houtcome
        rw [hends.evalAs_eq] at h
        cases h
      · have hends : Engine.Concludes parts n source e _ _ :=
          .failed hcompile hpersist (evaluate_of_failed hrun) rfl
        rw [hends.evalAs_eq] at h
        cases h
        exact ⟨error, rfl, rfl⟩

/-- Compiler and store agree in every state that a session gets into. -/
theorem Reached.agreement (h : Reached config e r) : e.Agrees := h.sound.1.agreement

theorem Reached.accepts (h : Reached config e r) : e.Accepts := h.sound.1.accepts

theorem Reached.cause_of_eval (h : Reached config e r) {α : Type}
    (observe : SnippetId → SessionEngine → α × SessionEngine)
    (hquiet : ∀ n e₁, (observe n e₁).2 = e₁) {source message : String} {cause : Option Cause}
    (herror : (Engine.evalObserving parts observe source e).1.result =
      .error (.evaluation message cause)) :
    ∃ error, cause = some (.run error) ∧ message = error.message := by
  obtain ⟨hs, hidle⟩ := h.sound
  obtain ⟨hresult, -⟩ := evalObserving_eq observe hidle source
  rw [hquiet, herror] at hresult
  exact hs.started.cause_of_evalAs hresult.symm

end SessionEngine

/-! ### Errors of rendering -/

namespace Registry

variable {σ : Type} {host : RenderHost σ} {message : String} {cause : Option Cause}

theorem applyRenderer_ne_evaluation {registered : Registered} {result : TypedResult} {v : Value}
    {s : σ} : (applyRenderer host registered result v s).1 ≠ .error (.evaluation message cause) := by
  intro h
  unfold applyRenderer at h
  simp only at h
  split at h
  · split at h <;> cases h
  · split at h
    · cases h
    · split at h <;> cases h

/-- What fails in rendering is never said to be the evaluation itself. Renderers' failures are marked as such,
so one can tell from the error which of the two it was. -/
theorem renderWithin_ne_evaluation {registry : Registry} {steps : Nat} {result : TypedResult}
    {s : σ} :
    (registry.renderWithin host steps result s).1 ≠ .error (.evaluation message cause) := by
  intro h
  induction steps generalizing result s with
  | zero =>
    unfold renderWithin at h
    split at h
    · cases h
    · cases h
    · split at h <;> cases h
  | succ steps ih =>
    unfold renderWithin at h
    split at h
    · cases h
    · cases h
    · split at h
      · cases h
      · simp only at h
        split at h
        · exact ih h
        · rename_i happly
          cases h
          exact applyRenderer_ne_evaluation (congrArg Prod.fst happly)

end Registry

/-! ### Sessions -/

namespace Session

variable {config : Config} {s : Session} {r : Record}

theorem Sound.cause_of_eval (hs : s.Sound config r) {source message : String}
    {cause : Option Cause} (h : (s.eval source).1 = .error (.evaluation message cause)) :
    ∃ error, cause = some (.run error) ∧ message = error.message := by
  unfold Session.eval at h
  rcases heval : Engine.evalObserving SessionEngine.parts (fun id e => (id, e)) source s.engine with
    ⟨⟨error | evaluation, observed⟩, engine⟩
  · simp only [heval] at h
    cases h
    exact hs.engine.cause_of_eval (fun id e => (id, e)) (fun _ _ => rfl) (congrArg (·.1.result) heval)
  · simp only [heval] at h
    cases observed with
    | none => cases h
    | some snippet =>
      simp only at h
      cases hrender : (s.renderers.renderResult SessionEngine.host evaluation.result engine).1 with
      | ok rendered =>
        rw [hrender] at h
        cases h
      | error error =>
        rw [hrender] at h
        cases h
        exact absurd hrender Registry.renderWithin_ne_evaluation

/-- Compiler and store agree in every state of a session: on the constants, on the globals, and on
which global each name stands for. So they do at every later moment, in the midst of rendering too,
and thus the store accepts every snippet, no gap is filled in its pool, and a snippet that compiled
and was stored fails in no way but by its run. -/
theorem Reached.agrees (h : Reached config s r) :
    s.engine.Agrees ∧
      (∀ source message cause, (s.eval source).1 = .error (.evaluation message cause) →
        ∃ error, cause = some (.run error) ∧ message = error.message) ∧
      ∀ e r', SessionEngine.Later config s.engine (e, r') → e.Agrees ∧ e.Accepts ∧
        ∀ source message cause,
          (Engine.eval SessionEngine.parts source e).1 = .error (.evaluation message cause) →
            ∃ error, cause = some (.run error) ∧ message = error.message := by
  have hs := h.engine
  refine ⟨hs.engine.agreement, fun source message cause => hs.cause_of_eval, ?_⟩
  intro e r' hlater
  have hreached : SessionEngine.Reached config e r' := hlater.reached
  refine ⟨hreached.agreement, hreached.accepts, ?_⟩
  intro source message cause herror
  exact hreached.cause_of_eval (fun _ e => ((), e)) (fun _ _ => rfl) herror

/-- A session in which a definition was forgotten, because its snippet failed, and another was
kept. -/
theorem evals_agree :
    let s := (((Session.new {}).eval "let a = 1; a / 0").2.eval "let b = [1]; b").2
    s.engine.Agrees ∧ s.engine.Accepts := by
  intro s
  have hnew : Reached {} (Session.new {}) {} := .new
  have hreached := (hnew.eval "let a = 1; a / 0").eval "let b = [1]; b"
  obtain ⟨hagrees, -, hlater⟩ := hreached.agrees
  exact ⟨hagrees, (hlater _ _ hreached.engine.engine.later).2.1⟩

end Session

end Notebook
