import Mathlib.Data.List.Forall2
import Notebook.Proofs.Engine.Transactions

/-!
What an engine asks of its compiler and its evaluator.

Any compiler and any evaluator can be made to write down how they are called (`Parts.logged`), which
changes nothing else: an engine runs with them as it runs without.

* `Engine.evalAs_logged`: the calls of one evaluation.
* `Engine.Course.obeys`: with any compiler and any evaluator, every evaluation asks for one number,
  has the text compiled once under it, and commits or rolls back what compiled, as its last call.
-/

namespace Notebook

/-! ### Writing calls down -/

/-- A call of a compiler, with the answer. Commits and rollbacks have none. -/
inductive CompilerCall where
  | nextId (answer : SnippetId)
  | compile (id : SnippetId) (source : String) (answer : Except (List Diagnostic) CompiledUnit)
  | commit
  | rollback
  deriving DecidableEq

/-- A state, and the calls so far. -/
structure Logged (κ σ : Type) where
  inner : σ
  calls : List κ

/-- A compiler that writes down how it is called, and otherwise does what it did. The list is part of its state,
where an engine cannot look. -/
def CompilerPart.logged {σ : Type} (c : CompilerPart σ) : CompilerPart (Logged CompilerCall σ) where
  nextId s :=
    let (id, inner) := c.nextId s.inner
    (id, ⟨inner, s.calls ++ [.nextId id]⟩)
  compile id source s :=
    let (answer, inner) := c.compile id source s.inner
    (answer, ⟨inner, s.calls ++ [.compile id source answer.1]⟩)
  commit s := ⟨c.commit s.inner, s.calls ++ [.commit]⟩
  rollback s := ⟨c.rollback s.inner, s.calls ++ [.rollback]⟩

/-- An evaluator that writes down the units that it is to run. -/
def EvaluatorPart.logged {τ : Type} (v : EvaluatorPart τ) :
    EvaluatorPart (Logged CompiledUnit τ) where
  evaluate u config s :=
    let (evaluated, inner) := v.evaluate u config s.inner
    (evaluated, ⟨inner, s.calls ++ [u]⟩)
  store s := v.store s.inner

def Parts.logged {σ τ : Type} (parts : Parts σ τ) :
    Parts (Logged CompilerCall σ) (Logged CompiledUnit τ) :=
  ⟨parts.compiler.logged, parts.evaluator.logged⟩

namespace Engine

variable {σ τ : Type} {parts : Parts σ τ} {e start : Engine σ τ}

def withCalls (calls : List CompilerCall) (ran : List CompiledUnit) (e : Engine σ τ) :
    Engine (Logged CompilerCall σ) (Logged CompiledUnit τ) :=
  { e with compiler := ⟨e.compiler, calls⟩, evaluator := ⟨e.evaluator, ran⟩ }

def erased (e : Engine (Logged CompilerCall σ) (Logged CompiledUnit τ)) : Engine σ τ :=
  { e with compiler := e.compiler.inner, evaluator := e.evaluator.inner }

/-! ### One evaluation -/

/-- The calls of an evaluation: those with which it starts, those of the compiler after that, and the units that
the evaluator is to run. The opening calls are the same for every evaluation. -/
structure Transcript where
  opening : List CompilerCall
  closing : List CompilerCall
  ran : List CompiledUnit

def Transcript.calls (t : Transcript) : List CompilerCall := t.opening ++ t.closing

/-- The protocol between an engine and what it works with. -/
structure Attempt.Obeys (a : Attempt) (t : Transcript) : Prop where
  /-- It asks for a number, and then has the text compiled under this number. -/
  opening : ∃ id, a.reply.observed = some id ∧
    t.opening = [.nextId id, .compile id a.source a.compiled]
  /-- What does not compile is not run, neither committed nor rolled back. -/
  uncompiled : a.compiled.isOk = false → t.closing = [] ∧ t.ran = []
  /-- What compiles is committed or rolled back. -/
  compiled : a.compiled.isOk = true → t.closing = [.commit] ∨ t.closing = [.rollback]
  /-- It is committed exactly if the evaluation succeeds. -/
  commits : .commit ∈ t.closing ↔ a.succeeds = true
  /-- What is run has been stored and written, and is run once. -/
  ran : t.ran = [] ∨
    ∃ u written, a.compiled = .ok u ∧ persist u a.files = .ok written ∧ t.ran = [u]
  /-- The archive gets the unit if there is a commit, and nothing otherwise. -/
  archived : .commit ∈ t.closing → ∃ stored, a.stored = some stored ∧ a.after = a.before.push stored
  unarchived : .commit ∉ t.closing → a.after = a.before

section Obeying

variable {a : Attempt} {id : SnippetId} (hid : a.reply.observed = some id)

include hid

theorem Attempt.obeys_uncompiled {diagnostics : List Diagnostic}
    (hcompiled : a.compiled = .error diagnostics) (hfails : a.succeeds = false)
    (hsame : a.after = a.before) :
    a.Obeys ⟨[.nextId id, .compile id a.source a.compiled], [], []⟩ where
  opening := ⟨id, hid, rfl⟩
  uncompiled _ := ⟨rfl, rfl⟩
  compiled hok := by
    rw [hcompiled] at hok
    cases hok
  commits := by simp [hfails]
  ran := .inl rfl
  archived hcommit := absurd hcommit List.not_mem_nil
  unarchived _ := hsame

theorem Attempt.obeys_rollback {u : CompiledUnit} {ran : List CompiledUnit}
    (hcompiled : a.compiled = .ok u) (hfails : a.succeeds = false) (hsame : a.after = a.before)
    (hran : ran = [] ∨ ∃ written, persist u a.files = .ok written ∧ ran = [u]) :
    a.Obeys ⟨[.nextId id, .compile id a.source a.compiled], [.rollback], ran⟩ where
  opening := ⟨id, hid, rfl⟩
  uncompiled herror := by
    rw [hcompiled] at herror
    cases herror
  compiled _ := .inr rfl
  commits := by simp [hfails]
  ran := by
    refine hran.imp_right ?_
    rintro ⟨written, hpersist, hunit⟩
    exact ⟨u, written, hcompiled, hpersist, hunit⟩
  archived hcommit := by simp at hcommit
  unarchived _ := hsame

theorem Attempt.obeys_commit {u : CompiledUnit} {stored : SerializedUnit} {files : UnitFiles}
    (hcompiled : a.compiled = .ok u) (hpersist : persist u a.files = .ok (stored, files))
    (hsucceeds : a.succeeds = true) (hpush : a.after = a.before.push stored) :
    a.Obeys ⟨[.nextId id, .compile id a.source a.compiled], [.commit], [u]⟩ where
  opening := ⟨id, hid, rfl⟩
  uncompiled herror := by
    rw [hcompiled] at herror
    cases herror
  compiled _ := .inl rfl
  commits := by simp [hsucceeds]
  ran := .inr ⟨u, (stored, files), hcompiled, hpersist, rfl⟩
  archived _ := by
    refine ⟨stored, ?_, hpush⟩
    simp only [Attempt.stored, hcompiled, serialize_eq_of_persist hpersist, Except.toOption,
      Option.bind_some]
  unarchived hcommit := absurd (List.mem_singleton.mpr rfl) hcommit

end Obeying

/-- What is asked of the compiler at the end is settled by what it made of the text and by whether the
evaluation succeeds. -/
theorem Attempt.Obeys.closing_eq {a : Attempt} {t : Transcript} (h : a.Obeys t) :
    t.closing =
      if a.compiled.isOk then [if a.succeeds then .commit else .rollback] else [] := by
  cases hok : a.compiled.isOk with
  | false => exact (h.uncompiled hok).1
  | true =>
    have hcommits := h.commits
    rcases h.compiled hok with hclosing | hclosing
    · rw [hclosing, hcommits.mp (by simp [hclosing])]
      rfl
    · have hfails : ¬ a.succeeds = true := by
        intro hsucceeds
        have hcommit := hcommits.mpr hsucceeds
        simp [hclosing] at hcommit
      rw [hclosing, if_neg hfails]
      rfl

theorem closing_eq_of_obeys {attempts : List Attempt} {transcripts : List Transcript}
    (h : List.Forall₂ Attempt.Obeys attempts transcripts) :
    transcripts.map (·.closing) = attempts.map fun a =>
      if a.compiled.isOk then [if a.succeeds then .commit else .rollback] else [] := by
  induction h with
  | nil => rfl
  | cons hobeys _ ih => rw [List.map_cons, List.map_cons, hobeys.closing_eq, ih]

theorem compile_logged {id : SnippetId} {source : String} {compiler compiler' : σ}
    {compiled : Except (List Diagnostic) CompiledUnit} {config : RunConfig}
    (h : parts.compiler.compile id source compiler = ((compiled, config), compiler'))
    (calls : List CompilerCall) :
    parts.logged.compiler.compile id source ⟨compiler, calls⟩ =
      ((compiled, config), ⟨compiler', calls ++ [.compile id source compiled]⟩) := by
  simp only [Parts.logged, CompilerPart.logged, h]

theorem evaluate_logged {u : CompiledUnit} {config : RunConfig} {evaluator evaluator' : τ}
    {evaluated : Evaluated}
    (h : parts.evaluator.evaluate u config evaluator = (evaluated, evaluator'))
    (ran : List CompiledUnit) :
    parts.logged.evaluator.evaluate u config ⟨evaluator, ran⟩ =
      (evaluated, ⟨evaluator', ran ++ [u]⟩) := by
  simp only [Parts.logged, EvaluatorPart.logged, h]

/-- The calls of one evaluation. It has got its number already. -/
theorem evalAs_logged (parts : Parts σ τ) (id : SnippetId) (source : String) (e : Engine σ τ)
    (calls : List CompilerCall) (ran : List CompiledUnit) :
    ∃ t, (attemptAs parts id source e).Obeys t ∧
      evalAs parts.logged id source (e.withCalls (calls ++ [.nextId id]) ran) =
        ((evalAs parts id source e).1,
          (evalAs parts id source e).2.withCalls (calls ++ t.calls) (ran ++ t.ran)) := by
  have hends := evalAs_concludes parts id source e
  unfold attemptAs
  generalize evalAs parts id source e = ended at hends ⊢
  obtain ⟨result, e'⟩ := ended
  -- One case for each of the four ends of an evaluation. The logging parts come to the same end, since they
  -- give the same answers.
  cases hends with
  | uncompiled hcompile =>
    refine ⟨_, Attempt.obeys_uncompiled rfl (congrArg (·.1.1) hcompile) rfl rfl, ?_⟩
    have hlogged : Concludes parts.logged id source (e.withCalls (calls ++ [.nextId id]) ran) _ _ :=
      .uncompiled (compile_logged hcompile _)
    rw [hlogged.evalAs_eq, hcompile]
    simp [withCalls, Transcript.calls]
  | unstored hcompile hpersist =>
    refine ⟨_, Attempt.obeys_rollback rfl (congrArg (·.1.1) hcompile) rfl rfl (.inl rfl), ?_⟩
    have hlogged : Concludes parts.logged id source (e.withCalls (calls ++ [.nextId id]) ran) _ _ :=
      .unstored (compile_logged hcompile _) hpersist
    rw [hlogged.evalAs_eq, hcompile]
    simp [withCalls, Transcript.calls, Parts.logged, CompilerPart.logged]
  | failed hcompile hpersist hevaluate houtcome =>
    refine ⟨_, Attempt.obeys_rollback rfl (congrArg (·.1.1) hcompile) rfl rfl
      (.inr ⟨_, hpersist, rfl⟩), ?_⟩
    have hlogged : Concludes parts.logged id source (e.withCalls (calls ++ [.nextId id]) ran) _ _ :=
      .failed (compile_logged hcompile _) hpersist (evaluate_logged hevaluate _) houtcome
    rw [hlogged.evalAs_eq, hcompile]
    simp [withCalls, Transcript.calls, Parts.logged, CompilerPart.logged, EvaluatorPart.logged]
  | kept hcompile hpersist hevaluate houtcome =>
    refine ⟨_, Attempt.obeys_commit rfl (congrArg (·.1.1) hcompile) hpersist rfl rfl, ?_⟩
    have hlogged : Concludes parts.logged id source (e.withCalls (calls ++ [.nextId id]) ran) _ _ :=
      .kept (compile_logged hcompile _) hpersist (evaluate_logged hevaluate _) houtcome
    rw [hlogged.evalAs_eq, hcompile]
    simp [withCalls, Transcript.calls, Parts.logged, CompilerPart.logged, EvaluatorPart.logged]

/-! ### Evaluations one after the other -/

/-- What is done between evaluations calls nobody. -/
theorem Interlude.logged {e' : Engine σ τ} {units : List SerializedUnit}
    (h : Interlude parts e e' units) (calls : List CompilerCall) (ran : List CompiledUnit) :
    Interlude parts.logged (e.withCalls calls ran) (e'.withCalls calls ran) units := by
  induction h with
  | nothing => exact .nothing
  | refused observe source _ hbusy ih =>
    rw [evalObserving_of_busy hbusy]
    exact ih
  | drained _ ih => exact ih.drained
  | writing on _ ih => exact ih.writing on
  | touched files _ ih => exact ih.touched files

/-- What is done with an engine, done with one whose calls are written down. -/
def lift (act : SnippetId → Engine σ τ → Engine σ τ) (id : SnippetId)
    (e : Engine (Logged CompilerCall σ) (Logged CompiledUnit τ)) :
    Engine (Logged CompilerCall σ) (Logged CompiledUnit τ) :=
  (act id e.erased).withCalls e.compiler.calls e.evaluator.calls

/-- An evaluation that is not refused. -/
theorem evalObserving_logged (hidle : e.executing = false)
    (act : SnippetId → Engine σ τ → Engine σ τ) (source : String) (calls : List CompilerCall)
    (ran : List CompiledUnit) :
    ∃ t, (attempt parts act source e).Obeys t ∧
      attempt parts.logged (lift act) source (e.withCalls calls ran) = attempt parts act source e ∧
      (evalObserving parts.logged (fun id e => (id, lift act id e)) source
          (e.withCalls calls ran)).2 =
        (evalObserving parts (fun id e => (id, act id e)) source e).2.withCalls
          (calls ++ t.calls) (ran ++ t.ran) := by
  have hidle' : (e.withCalls calls ran).executing = false := hidle
  have hseen : lift act ((e.withCalls calls ran).nextNumber parts.logged)
      ((e.withCalls calls ran).begun parts.logged) =
        (act (e.nextNumber parts) (e.begun parts)).withCalls
          (calls ++ [.nextId (e.nextNumber parts)]) ran := rfl
  obtain ⟨t, hobeys, hcalls⟩ := evalAs_logged parts (e.nextNumber parts) source
    (act (e.nextNumber parts) (e.begun parts)) calls ran
  rw [← hseen] at hcalls
  have hlogged : evalAs parts.logged ((e.withCalls calls ran).nextNumber parts.logged) source _ = _ :=
    hcalls
  refine ⟨t, ?_, ?_, ?_⟩
  · rw [attempt_eq hidle]
    exact hobeys
  · rw [attempt_eq hidle, attempt_eq hidle']
    unfold attemptAs
    rw [hlogged]
    rfl
  · simp only [evalObserving_of_idle hidle, evalObserving_of_idle hidle', hlogged]
    rfl

/-- A compiler and an evaluator that give prepared answers, and remember nothing else. They need not make sense,
and so stand for any others. -/
def scripted :
    Parts (SnippetId × List (Except (List Diagnostic) CompiledUnit)) (List Evaluated) where
  compiler :=
    { nextId := fun (next, answers) => (next, next + 1, answers)
      compile := fun id _ (next, answers) =>
        ((answers.headD (.error []), ⟨id, 0⟩), next, answers.tail)
      commit := fun s => s
      rollback := fun s => s }
  evaluator :=
    { evaluate := fun _ _ answers => (answers.headD ⟨.notEvaluated, []⟩, answers.tail)
      store := fun _ => { maxCallDepth := 0 } }

/-- Whatever the compiler and the evaluator do, every evaluation that is not refused obeys the
protocol; and there are no calls but those. -/
theorem Course.obeys {attempts : List Attempt} {drained : List SerializedUnit}
    (h : Course parts start e attempts drained) (hstart : start.executing = false) :
    ∃ transcripts, List.Forall₂ Attempt.Obeys attempts transcripts ∧
      Course parts.logged (start.withCalls [] [])
        (e.withCalls (transcripts.flatMap (·.calls)) (transcripts.flatMap (·.ran)))
        attempts drained := by
  induction h with
  | start => exact ⟨[], .nil, .start⟩
  | between _ hbetween ih =>
    obtain ⟨transcripts, hobey, hlogged⟩ := ih
    exact ⟨transcripts, hobey, hlogged.between (hbetween.logged _ _)⟩
  | @evaluated e attempts drained units act source hcourse hact ih =>
    obtain ⟨transcripts, hobey, hlogged⟩ := ih
    obtain ⟨t, hobeys, hattempt, hafter⟩ := evalObserving_logged (hcourse.idle hstart) act source
      (transcripts.flatMap (·.calls)) (transcripts.flatMap (·.ran))
    refine ⟨transcripts ++ [t], List.rel_append hobey (.cons hobeys .nil), ?_⟩
    have hnow := hlogged.evaluated (lift act) source (hact.logged _ _)
    rw [hattempt, hafter] at hnow
    simpa using hnow

/-- A text that does not compile, a unit that runs, one that is refused, and one that cannot be
stored. -/
theorem scripted_obeys :
    let u : CompiledUnit := ⟨0, 0, [], {}, [], 0, none⟩
    let start : Engine (SnippetId × List (Except (List Diagnostic) CompiledUnit)) (List Evaluated) :=
      { compiler := (0, [.error [], .ok u, .ok u, .ok { u with globals := UInt32.size }])
        evaluator := [⟨.unit ⟨1⟩, []⟩] }
    let next := fun e => (evalObserving scripted (fun id e => (id, e)) "" e).2
    let attempts := [start, next start, next (next start), next (next (next start))].map
      (attempt scripted (fun _ e => e) "")
    ∃ transcripts, List.Forall₂ Attempt.Obeys attempts transcripts ∧
      transcripts.map (·.closing) = [[], [.commit], [.rollback], [.rollback]] := by
  intro u start next attempts
  have hcourse : Course scripted start (next (next (next (next start)))) attempts [] :=
    .evaluated (fun _ e => e) "" (.evaluated (fun _ e => e) "" (.evaluated (fun _ e => e) ""
      (.evaluated (fun _ e => e) "" .start .nothing) .nothing) .nothing) .nothing
  obtain ⟨transcripts, hobey, -⟩ := hcourse.obeys rfl
  refine ⟨transcripts, hobey, ?_⟩
  rw [closing_eq_of_obeys hobey]
  decide +kernel

end Engine

end Notebook
