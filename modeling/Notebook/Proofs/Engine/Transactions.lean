import Notebook.Engine

/-!
Evaluations with any compiler and any evaluator, one by one and one after the other.

* `Engine.evalAs_concludes`: an evaluation comes to one of four ends (`Engine.Concludes`), and this is
  all that it does to the engine; `Engine.Concludes.evalAs_eq`: which one is settled by the conditions
  of the ends.
* `Engine.Course`: evaluations one after the other, and what else is done with the engine between them
  and as soon as a snippet has its number. An `Attempt` is what such an evaluation came to.
* `Engine.Course.idle`: no evaluation is going on between the evaluations.
-/

namespace Notebook

/-- Is an error one of a snippet, and not of what is around it? -/
def SessionError.ofSnippet : SessionError → Bool
  | .compilation _ _ _ | .evaluation _ _ | .serialization _ | .file _ => true
  | .concurrencyViolation | .rendererFailure _ | .inconsistency _ => false

namespace Engine

variable {σ τ α : Type} {parts : Parts σ τ} {e : Engine σ τ}

/-! ### One evaluation -/

/-- How evaluating a text under a number ends: the text does not compile, its unit is not stored, the unit does
not run to its end, or it does. Each end says what was answered on the way and which engine is left, with
nothing assumed of the compiler and the evaluator. -/
inductive Concludes (parts : Parts σ τ) (id : SnippetId) (source : String) (e : Engine σ τ) :
    Except SessionError Evaluation → Engine σ τ → Prop where
  | uncompiled {diagnostics : List Diagnostic} {config : RunConfig} {compiler : σ} :
      parts.compiler.compile id source e.compiler = ((.error diagnostics, config), compiler) →
      Concludes parts id source e (.error (.compilation id source diagnostics)) { e with compiler }
  | unstored {u : CompiledUnit} {config : RunConfig} {compiler : σ} {error : SessionError} :
      parts.compiler.compile id source e.compiler = ((.ok u, config), compiler) →
      persist u e.files = .error error →
      Concludes parts id source e (.error error)
        { e with compiler := parts.compiler.rollback compiler }
  | failed {u : CompiledUnit} {config : RunConfig} {compiler : σ} {stored : SerializedUnit}
      {files : UnitFiles} {evaluated : Evaluated} {evaluator : τ} {error : SessionError} :
      parts.compiler.compile id source e.compiler = ((.ok u, config), compiler) →
      persist u e.files = .ok (stored, files) →
      parts.evaluator.evaluate u config e.evaluator = (evaluated, evaluator) →
      outcome evaluated = .error error →
      Concludes parts id source e (.error error)
        { e with
          compiler := parts.compiler.rollback compiler
          evaluator
          context := .ofStore (parts.evaluator.store evaluator)
          files }
  | kept {u : CompiledUnit} {config : RunConfig} {compiler : σ} {stored : SerializedUnit}
      {files : UnitFiles} {evaluated : Evaluated} {evaluator : τ} {evaluation : Evaluation} :
      parts.compiler.compile id source e.compiler = ((.ok u, config), compiler) →
      persist u e.files = .ok (stored, files) →
      parts.evaluator.evaluate u config e.evaluator = (evaluated, evaluator) →
      outcome evaluated = .ok evaluation →
      Concludes parts id source e (.ok evaluation)
        { e with
          compiler := parts.compiler.commit compiler
          evaluator
          context := .ofStore (parts.evaluator.store evaluator)
          archive := e.archive.push stored
          files }

theorem evalAs_concludes (parts : Parts σ τ) (id : SnippetId) (source : String) (e : Engine σ τ) :
    Concludes parts id source e (evalAs parts id source e).1 (evalAs parts id source e).2 := by
  unfold evalAs
  rcases hcompile : parts.compiler.compile id source e.compiler with
    ⟨⟨diagnostics | u, config⟩, compiler⟩
  · exact .uncompiled hcompile
  · cases hpersist : persist u e.files with
    | error error =>
      simp only [hpersist]
      exact .unstored hcompile hpersist
    | ok written =>
      obtain ⟨stored, files⟩ := written
      rcases hevaluate : parts.evaluator.evaluate u config e.evaluator with ⟨evaluated, evaluator⟩
      cases houtcome : outcome evaluated with
      | error error =>
        simp only [hpersist, runStored, refresh, hevaluate, houtcome]
        exact .failed hcompile hpersist hevaluate houtcome
      | ok evaluation =>
        simp only [hpersist, runStored, refresh, hevaluate, houtcome]
        exact .kept hcompile hpersist hevaluate houtcome

/-- An evaluation comes to the end whose conditions are met. -/
theorem Concludes.evalAs_eq {id : SnippetId} {source : String}
    {result : Except SessionError Evaluation} {e' : Engine σ τ}
    (h : Concludes parts id source e result e') : evalAs parts id source e = (result, e') := by
  unfold evalAs
  cases h with
  | uncompiled hcompile => simp only [hcompile]
  | unstored hcompile hpersist => simp only [hcompile, hpersist]
  | failed hcompile hpersist hevaluate houtcome =>
    simp only [hcompile, hpersist, runStored, refresh, hevaluate, houtcome]
  | kept hcompile hpersist hevaluate houtcome =>
    simp only [hcompile, hpersist, runStored, refresh, hevaluate, houtcome]

/-- An evaluation under a number fails with an error of its snippet. -/
theorem ofSnippet_of_evalAs {id : SnippetId} {source : String} {error : SessionError}
    (h : (evalAs parts id source e).1 = .error error) : error.ofSnippet = true := by
  have hends := evalAs_concludes parts id source e
  rw [h] at hends
  generalize (evalAs parts id source e).2 = e' at hends
  cases hends with
  | uncompiled _ => rfl
  | unstored _ hpersist =>
    unfold persist at hpersist
    split at hpersist
    · cases hpersist
      rfl
    · split at hpersist <;> cases hpersist
      rfl
  | @failed _ _ _ _ _ evaluated _ _ _ _ _ houtcome =>
    unfold outcome at houtcome
    cases hresult : evaluated.result <;> rw [hresult] at houtcome <;> cases houtcome <;> rfl

theorem serialize_eq_of_persist {u : CompiledUnit} {files files' : UnitFiles}
    {stored : SerializedUnit} (h : persist u files = .ok (stored, files')) :
    u.serialize = .ok stored := by
  unfold persist at h
  split at h
  · cases h
  · split at h <;> cases h
    assumption

def nextNumber (parts : Parts σ τ) (e : Engine σ τ) : SnippetId :=
  (parts.compiler.nextId e.compiler).1

def begun (parts : Parts σ τ) (e : Engine σ τ) : Engine σ τ :=
  { e with compiler := (parts.compiler.nextId e.compiler).2, executing := true }

/-- While an evaluation is going on another one is refused, and nothing happens. -/
theorem evalObserving_of_busy (hbusy : e.executing = true)
    (observe : SnippetId → Engine σ τ → α × Engine σ τ) (source : String) :
    evalObserving parts observe source e = (⟨.error .concurrencyViolation, none⟩, e) :=
  if_pos hbusy

/-- An evaluation that is not refused. -/
theorem evalObserving_of_idle (hidle : e.executing = false)
    (observe : SnippetId → Engine σ τ → α × Engine σ τ) (source : String) :
    evalObserving parts observe source e =
      let (seen, e₁) := observe (e.nextNumber parts) (e.begun parts)
      (⟨(evalAs parts (e.nextNumber parts) source e₁).1, some seen⟩,
        { (evalAs parts (e.nextNumber parts) source e₁).2 with executing := false }) := by
  have hgoes : ¬ e.executing = true := by rw [hidle]; exact Bool.false_ne_true
  exact if_neg hgoes

/-- Then the caller sees something, and an error is one of the snippet. -/
theorem observed_of_idle (hidle : e.executing = false)
    (observe : SnippetId → Engine σ τ → α × Engine σ τ) (source : String) :
    (evalObserving parts observe source e).1.observed ≠ none := by
  rw [evalObserving_of_idle hidle]
  exact fun h => by cases h

theorem ofSnippet_of_idle (hidle : e.executing = false)
    {observe : SnippetId → Engine σ τ → α × Engine σ τ} {source : String} {error : SessionError}
    (h : (evalObserving parts observe source e).1.result = .error error) : error.ofSnippet = true := by
  rw [evalObserving_of_idle hidle] at h
  exact ofSnippet_of_evalAs h

/-! ### Evaluations one after the other -/

/-- What is done with an engine other than evaluating, and the units that are drained. While an evaluation is
going on another one is refused. Files may be changed by anybody, into whatever they like. -/
inductive Interlude (parts : Parts σ τ) : Engine σ τ → Engine σ τ → List SerializedUnit → Prop where
  | nothing {e : Engine σ τ} : Interlude parts e e []
  | refused {e e₁ : Engine σ τ} {units : List SerializedUnit} {β : Type}
      (observe : SnippetId → Engine σ τ → β × Engine σ τ) (source : String) :
      Interlude parts e e₁ units → e₁.executing = true →
      Interlude parts e (evalObserving parts observe source e₁).2 units
  | drained {e e₁ : Engine σ τ} {units : List SerializedUnit} :
      Interlude parts e e₁ units → Interlude parts e e₁.drain.2 (units ++ e₁.drain.1)
  | writing {e e₁ : Engine σ τ} {units : List SerializedUnit} (on : Bool) :
      Interlude parts e e₁ units → Interlude parts e (e₁.setWriting on) units
  | touched {e e₁ : Engine σ τ} {units : List SerializedUnit} (files : UnitFiles) :
      Interlude parts e e₁ units → Interlude parts e { e₁ with files } units

/-- All that such things change are files and what is in the archive. -/
theorem Interlude.eq {e' : Engine σ τ} {units : List SerializedUnit}
    (h : Interlude parts e e' units) :
    ∃ archive files, e' = { e with archive, files } ∧
      units ++ archive.units.toList = e.archive.units.toList := by
  induction h with
  | nothing => exact ⟨_, _, rfl, rfl⟩
  | refused observe source _ hbusy ih =>
    rw [evalObserving_of_busy hbusy]
    exact ih
  | drained _ ih =>
    obtain ⟨archive, files, rfl, hunits⟩ := ih
    refine ⟨{}, files, rfl, ?_⟩
    rw [← hunits]
    exact List.append_nil _
  | writing on _ ih =>
    obtain ⟨archive, files, rfl, hunits⟩ := ih
    exact ⟨archive, _, rfl, hunits⟩
  | touched files _ ih =>
    obtain ⟨archive, _, rfl, hunits⟩ := ih
    exact ⟨archive, files, rfl, hunits⟩

/-- An evaluation that was not refused: the text, what the compiler made of it, the files that there
were to be added to, the archive from when the snippet had its number and from the end, and the reply,
in which the caller has the number. -/
structure Attempt where
  source : String
  compiled : Except (List Diagnostic) CompiledUnit
  files : UnitFiles
  before : Archive
  after : Archive
  reply : Reply SnippetId

/-- The byte form of the unit that the compiler made, if there is one. -/
def Attempt.stored (a : Attempt) : Option SerializedUnit :=
  a.compiled.toOption.bind fun u => u.serialize.toOption

/-- Did the snippet run to its end? -/
def Attempt.succeeds (a : Attempt) : Bool := a.reply.result.isOk

/-- An evaluation, with what is done as soon as the snippet has its number. -/
def attempt (parts : Parts σ τ) (act : SnippetId → Engine σ τ → Engine σ τ) (source : String)
    (e : Engine σ τ) : Attempt :=
  let e₁ := act (e.nextNumber parts) (e.begun parts)
  { source
    compiled := (parts.compiler.compile (e.nextNumber parts) source e₁.compiler).1.1
    files := e₁.files
    before := e₁.archive
    after := (evalObserving parts (fun id e => (id, act id e)) source e).2.archive
    reply := (evalObserving parts (fun id e => (id, act id e)) source e).1 }

/-- What is stored is the byte form of the unit that the compiler made. -/
theorem Attempt.serialize_of_stored {a : Attempt} {stored : SerializedUnit}
    (h : a.stored = some stored) : ∃ u, a.compiled = .ok u ∧ u.serialize = .ok stored := by
  obtain ⟨source, compiled, files, before, after, reply⟩ := a
  cases compiled with
  | error diagnostics => cases h
  | ok u =>
    have hserialize : u.serialize.toOption = some stored := h
    refine ⟨u, rfl, ?_⟩
    cases hs : u.serialize with
    | error cause =>
      rw [hs] at hserialize
      cases hserialize
    | ok stored' =>
      rw [hs] at hserialize
      cases hserialize
      rfl

/-- The same, from when the snippet has its number. -/
def attemptAs (parts : Parts σ τ) (id : SnippetId) (source : String) (e : Engine σ τ) : Attempt where
  source := source
  compiled := (parts.compiler.compile id source e.compiler).1.1
  files := e.files
  before := e.archive
  after := (evalAs parts id source e).2.archive
  reply := ⟨(evalAs parts id source e).1, some id⟩

theorem attempt_eq (hidle : e.executing = false) (act : SnippetId → Engine σ τ → Engine σ τ)
    (source : String) :
    attempt parts act source e =
      attemptAs parts (e.nextNumber parts) source (act (e.nextNumber parts) (e.begun parts)) := by
  simp only [attempt, attemptAs, evalObserving_of_idle hidle]

/-- An engine after evaluations one after the other and other things between them: what the evaluations came to,
and the units that were drained. Nothing is known of the engine at the start, nor of what it works with. -/
inductive Course (parts : Parts σ τ) (start : Engine σ τ) :
    Engine σ τ → List Attempt → List SerializedUnit → Prop where
  | start : Course parts start start [] []
  | between {e e' : Engine σ τ} {attempts : List Attempt} {drained units : List SerializedUnit} :
      Course parts start e attempts drained → Interlude parts e e' units →
      Course parts start e' attempts (drained ++ units)
  | evaluated {e : Engine σ τ} {attempts : List Attempt} {drained units : List SerializedUnit}
      (act : SnippetId → Engine σ τ → Engine σ τ) (source : String) :
      Course parts start e attempts drained →
      Interlude parts (e.begun parts) (act (e.nextNumber parts) (e.begun parts)) units →
      Course parts start (evalObserving parts (fun id e => (id, act id e)) source e).2
        (attempts ++ [attempt parts act source e]) (drained ++ units)

variable {start : Engine σ τ} {attempts : List Attempt} {drained : List SerializedUnit}

theorem Course.idle (h : Course parts start e attempts drained) (hstart : start.executing = false) :
    e.executing = false := by
  induction h with
  | start => exact hstart
  | between _ hbetween ih =>
    obtain ⟨archive, files, rfl, -⟩ := hbetween.eq
    exact ih
  | evaluated act source _ _ ih => rw [evalObserving_of_idle ih]

end Engine

end Notebook
