import Notebook.Proofs.Engine.Correctness
import Notebook.Proofs.Engine.Transactions
import Notebook.Proofs.Syntax.ProgramText

/-!
What the archive of an engine has been given, after evaluations and drains in any order.

* `Engine.Course.kept`: with any compiler and any evaluator, the units that were drained and those in
  the archive are the byte forms of the units that ran to their end, in order.
* `SessionEngine.counted`: a session counts its evaluations from zero, whatever becomes of
  them.
* `SessionEngine.archive_of_course`: so the archive loses, repeats and reorders nothing, and no two of
  its units have the same file name.
-/

namespace Notebook

/-! ### Any compiler and any evaluator -/

namespace Engine

variable {σ τ : Type} {parts : Parts σ τ} {e start : Engine σ τ}

/-- An evaluation that is not refused adds to the archive what it was to add. -/
theorem archive_evalObserving (hidle : e.executing = false)
    (act : SnippetId → Engine σ τ → Engine σ τ) (source : String) :
    (evalObserving parts (fun id e => (id, act id e)) source e).2.archive.units.toList.map some =
      (act (e.nextNumber parts) (e.begun parts)).archive.units.toList.map some ++
        ([attempt parts act source e].filter Attempt.succeeds).map Attempt.stored := by
  simp only [attempt_eq hidle, attemptAs, evalObserving_of_idle hidle]
  generalize act (e.nextNumber parts) (e.begun parts) = e₁
  have hends := evalAs_concludes parts (e.nextNumber parts) source e₁
  generalize evalAs parts (e.nextNumber parts) source e₁ = ended at hends ⊢
  obtain ⟨result, e₂⟩ := ended
  cases hends with
  | uncompiled hcompile => exact (List.append_nil _).symm
  | unstored hcompile hpersist => exact (List.append_nil _).symm
  | failed hcompile hpersist hevaluate houtcome => exact (List.append_nil _).symm
  | @kept u _ _ stored _ _ _ _ hcompile hpersist hevaluate houtcome =>
    rw [hcompile]
    show (e₁.archive.units.push stored).toList.map some =
      e₁.archive.units.toList.map some ++ [u.serialize.toOption]
    rw [serialize_eq_of_persist hpersist, Array.toList_push, List.map_append]
    rfl

/-- What was drained and what is in the archive is what there was at the start and the byte forms of
the units that ran to their end since, in order. -/
theorem Course.kept {attempts : List Attempt} {drained : List SerializedUnit}
    (h : Course parts start e attempts drained) (hstart : start.executing = false) :
    (drained ++ e.archive.units.toList).map some =
      start.archive.units.toList.map some ++
        (attempts.filter Attempt.succeeds).map Attempt.stored := by
  induction h with
  | start => simp
  | between _ hbetween ih =>
    obtain ⟨archive, files, rfl, hunits⟩ := hbetween.eq
    rw [← ih, ← hunits, List.append_assoc]
  | @evaluated e attempts drained units act source hcourse hact ih =>
    obtain ⟨archive, files, hseen, hunits⟩ := hact.eq
    have hdrained : drained ++ units ++ (act (e.nextNumber parts) (e.begun parts)).archive.units.toList =
        drained ++ e.archive.units.toList := by
      rw [hseen, List.append_assoc, hunits]
      rfl
    rw [List.map_append, archive_evalObserving (hcourse.idle hstart), ← List.append_assoc,
      ← List.map_append, hdrained, ih, List.filter_append, List.map_append, List.append_assoc]

end Engine

/-! ### The numbers of a session -/

namespace IncrementalCompiler

variable {c : IncrementalCompiler} {n : SnippetId} {source : String}

/-- Only asking for a number makes the compiler count on. -/
theorem nextSnippet_compile : (c.compile n source).2.nextSnippet = c.nextSnippet := by
  unfold compile
  split <;> rfl

theorem nextSnippet_rollback : c.rollback.nextSnippet = c.nextSnippet := by
  unfold rollback
  split <;> rfl

/-- A unit has the number that its text was compiled under. -/
theorem snippet_of_compile {u : CompiledUnit} (h : (c.compile n source).1.1 = .ok u) :
    u.snippet = n := by
  unfold compile Compiler.compileSource at h
  cases hp : Program.ofSource source with
  | error cause =>
    rw [hp] at h
    cases h
  | ok p =>
    simp only [hp, Compiler.compile] at h
    cases htop : c.compiler.topLevel p with
    | error cause =>
      rw [htop] at h
      cases h
    | ok done =>
      rw [htop] at h
      cases h
      rfl

end IncrementalCompiler

/-- The name of a unit's file tells the number of the unit, so units with different numbers go into different
files. -/
theorem SerializedUnit.snippet_of_fileName {a b : SerializedUnit} (h : a.fileName = b.fileName) :
    a.snippet = b.snippet := by
  have hends := (String.append_left_inj _).mp h
  have hrepr : a.snippet.toNat.repr = b.snippet.toNat.repr := (String.append_right_inj _).mp hends
  exact UInt32.toNat_inj.mp (eq_of_repr_eq hrepr)

/-- With any evaluator, evaluating a text under a number does not take another number. -/
theorem Engine.nextSnippet_evalAs {τ : Type} (evaluator : EvaluatorPart τ) (n : SnippetId)
    (source : String) (e : Engine IncrementalCompiler τ) :
    (evalAs ⟨IncrementalCompiler.part, evaluator⟩ n source e).2.compiler.nextSnippet =
      e.compiler.nextSnippet := by
  have hends := evalAs_concludes ⟨IncrementalCompiler.part, evaluator⟩ n source e
  generalize evalAs ⟨IncrementalCompiler.part, evaluator⟩ n source e = ended at hends ⊢
  obtain ⟨result, e'⟩ := ended
  have hcompiler : (IncrementalCompiler.part.compile n source e.compiler).2.nextSnippet =
      e.compiler.nextSnippet := IncrementalCompiler.nextSnippet_compile
  cases hends with
  | uncompiled hcompile =>
    rw [hcompile] at hcompiler
    exact hcompiler
  | unstored hcompile hpersist =>
    rw [hcompile] at hcompiler
    exact IncrementalCompiler.nextSnippet_rollback.trans hcompiler
  | failed hcompile hpersist hevaluate houtcome =>
    rw [hcompile] at hcompiler
    exact IncrementalCompiler.nextSnippet_rollback.trans hcompiler
  | kept hcompile hpersist hevaluate houtcome =>
    rw [hcompile] at hcompiler
    exact hcompiler

namespace SessionEngine

variable {config : Config} {e : SessionEngine} {attempts : List Engine.Attempt}
  {drained : List SerializedUnit}

/-- A session counts its evaluations from zero, whatever becomes of them. -/
theorem counted (h : Engine.Course parts (new config) e attempts drained) :
    e.compiler.nextSnippet = .ofNat attempts.length ∧
      attempts.map (·.reply.observed) =
        (List.range attempts.length).map fun k => some (.ofNat k) := by
  -- On the course: between evaluations the compiler is not asked anything, and an evaluation asks once for a
  -- number, however it ends.
  induction h with
  | start => exact ⟨rfl, rfl⟩
  | between _ hbetween ih =>
    obtain ⟨archive, files, rfl, -⟩ := hbetween.eq
    exact ih
  | @evaluated e attempts drained units act source hcourse hact ih =>
    obtain ⟨hnext, hnumbers⟩ := ih
    obtain ⟨archive, files, hseen, -⟩ := hact.eq
    have hnumber : e.nextNumber parts = .ofNat attempts.length := hnext
    constructor
    · rw [Engine.evalObserving_of_idle (hcourse.idle rfl)]
      refine (Engine.nextSnippet_evalAs Store.part _ source _).trans ?_
      rw [hseen, List.length_append]
      show e.compiler.nextSnippet + 1 = _
      rw [hnext, UInt32.ofNat_add]
      rfl
    · have hobserved : (Engine.attempt parts act source e).reply.observed =
          some (.ofNat attempts.length) := by
        rw [← hnumber]
        rw [Engine.attempt_eq (hcourse.idle rfl)]
        rfl
      rw [List.map_append, hnumbers, List.length_append, List.length_singleton, List.range_succ,
        List.map_append]
      simp only [List.map_cons, List.map_nil, hobserved]

/-- A unit is stored under the number that its snippet got. -/
theorem observed_of_stored (h : Engine.Course parts (new config) e attempts drained) :
    ∀ a ∈ attempts, ∀ stored ∈ a.stored, a.reply.observed = some stored.snippet := by
  induction h with
  | start =>
    intro a ha
    cases ha
  | between _ _ ih => exact ih
  | @evaluated e attempts drained units act source hcourse hact ih =>
    intro a ha stored hstored
    rcases List.mem_append.mp ha with hbefore | hnow
    · exact ih a hbefore stored hstored
    · rw [List.mem_singleton.mp hnow] at hstored ⊢
      obtain ⟨u, hcompiled, hserialize⟩ := Engine.Attempt.serialize_of_stored hstored
      rw [Engine.attempt_eq (hcourse.idle rfl)] at hcompiled ⊢
      rw [(CompiledUnit.ends_of_serialize hserialize).1]
      exact congrArg some (IncrementalCompiler.snippet_of_compile hcompiled).symm

/-- Units that are stored under the numbers of their snippets are in the order of these numbers, if
there are fewer snippets than numbers. -/
theorem increasing_of_counted
    (hnumbers : attempts.map (·.reply.observed) =
      (List.range attempts.length).map fun k => some (.ofNat k))
    (hfew : attempts.length < UInt32.size)
    (hown : ∀ a ∈ attempts, ∀ stored ∈ a.stored, a.reply.observed = some stored.snippet) :
    attempts.Pairwise fun a b => ∀ s ∈ a.stored, ∀ t ∈ b.stored, s.snippet < t.snippet := by
  have hordered : (attempts.map (·.reply.observed)).Pairwise
      fun x y => ∀ m ∈ x, ∀ n ∈ y, m < n := by
    rw [hnumbers, List.pairwise_map]
    refine List.pairwise_lt_range.imp_of_mem ?_
    rintro i j hi hj hlt m ⟨rfl⟩ n ⟨rfl⟩
    have hi := List.mem_range.mp hi
    have hj := List.mem_range.mp hj
    rw [UInt32.lt_iff_toNat_lt, UInt32.toNat_ofNat_of_lt' (by omega),
      UInt32.toNat_ofNat_of_lt' (by omega)]
    exact hlt
  rw [List.pairwise_map] at hordered
  refine hordered.imp_of_mem ?_
  intro a b ha hb hlt s hs t ht
  exact hlt _ (hown a ha s hs) _ (hown b hb t ht)

/-- The evaluations of a session that are not refused get the numbers from zero on, whatever becomes
of them. What was drained and what is in the archive are the byte forms of the units that ran to their
end, in order; so their numbers increase, and no two go into the same file. Draining gives all that is
in the archive and leaves nothing there. -/
theorem archive_of_course (h : Engine.Course parts (new config) e attempts drained)
    (hfew : attempts.length < UInt32.size) :
    attempts.map (·.reply.observed) =
        (List.range attempts.length).map (fun k => some (.ofNat k)) ∧
      (attempts.filter Engine.Attempt.succeeds).map Engine.Attempt.stored =
        (drained ++ e.archive.units.toList).map some ∧
      (drained ++ e.archive.units.toList).Pairwise (fun a b => a.snippet < b.snippet) ∧
      ((drained ++ e.archive.units.toList).map SerializedUnit.fileName).Nodup ∧
      e.drain = (e.archive.units.toList, { e with archive := {} }) := by
  obtain ⟨-, hnumbers⟩ := counted h
  have hkept : (attempts.filter Engine.Attempt.succeeds).map Engine.Attempt.stored =
      (drained ++ e.archive.units.toList).map some := (h.kept rfl).symm
  have hincreasing : (drained ++ e.archive.units.toList).Pairwise
      fun a b => a.snippet < b.snippet := by
    -- Leaving out the evaluations that failed keeps the others in order.
    have hordered := increasing_of_counted hnumbers hfew (observed_of_stored h)
    have hstored : ((attempts.filter Engine.Attempt.succeeds).map Engine.Attempt.stored).Pairwise
        fun x y => ∀ s ∈ x, ∀ t ∈ y, s.snippet < t.snippet :=
      List.pairwise_map.mpr (hordered.filter Engine.Attempt.succeeds)
    rw [hkept, List.pairwise_map] at hstored
    refine hstored.imp ?_
    intro a b hlt
    exact hlt a rfl b rfl
  refine ⟨hnumbers, hkept, hincreasing, ?_, rfl⟩
  refine List.pairwise_map.mpr (hincreasing.imp ?_)
  intro a b hlt hsame
  rw [SerializedUnit.snippet_of_fileName hsame] at hlt
  exact UInt32.lt_irrefl _ hlt

/-- A text that does not compile, one that runs, and a drain. -/
theorem drained_archive_of_course :
    let quiet : SnippetId → SessionEngine → SessionEngine := fun _ e => e
    let e₁ : SessionEngine :=
      (Engine.evalObserving parts (fun id e => (id, quiet id e)) "let" (new {})).2
    let e₂ := (Engine.evalObserving parts (fun id e => (id, quiet id e)) "40 + 2" e₁).2
    let attempts := [Engine.attempt parts quiet "let" (new {}), Engine.attempt parts quiet "40 + 2" e₁]
    attempts.map (·.succeeds) = [false, true] ∧
      attempts.map (·.reply.observed) = [some 0, some 1] ∧
      e₂.drain.1.map (·.snippet) = [1] ∧ e₂.drain.2.archive.units = #[] := by
  intro quiet e₁ e₂ attempts
  have hcourse : Engine.Course parts (new {}) e₂.drain.2 attempts e₂.drain.1 :=
    .between (.evaluated quiet "40 + 2" (.evaluated quiet "let" .start .nothing) .nothing)
      (.drained .nothing)
  obtain ⟨hnumbers, hkept, -⟩ := archive_of_course hcourse (by decide)
  have hfails : (Engine.attempt parts quiet "let" (new {})).succeeds = false := by decide +kernel
  have hruns : (Engine.attempt parts quiet "40 + 2" e₁).succeeds = true := by
    have hreached : Reached {} e₁ _ := .evaluated (fun id e => (id, quiet id e)) "let" .new .refl
    obtain ⟨hsound, hidle⟩ := hreached.sound
    obtain ⟨evaluation, hresult, -⟩ :=
      hsound.ok_of_foreseen (fun id e => (id, quiet id e)) hidle (fun _ _ => rfl)
        (show e₁.started.foreseen _ _ "40 + 2" = some (some (.int 42)) by decide +kernel)
    unfold Engine.Attempt.succeeds Engine.attempt
    rw [hresult]
    rfl
  have hsnippet : (Engine.attempt parts quiet "40 + 2" e₁).stored.map (·.snippet) = some 1 := by
    decide +kernel
  obtain ⟨stored, hstored, hone⟩ := Option.map_eq_some_iff.mp hsnippet
  have hdrained : [stored] = e₂.drain.1 := by
    have hall : (attempts.filter Engine.Attempt.succeeds).map Engine.Attempt.stored =
        (e₂.drain.1 ++ []).map some := hkept
    simp only [attempts, List.filter_cons, hfails, hruns, Bool.false_eq_true, if_true, if_false,
      List.filter_nil, List.map_cons, List.map_nil, hstored, List.append_nil] at hall
    exact (List.map_inj_right fun _ _ => Option.some.inj).mp hall
  refine ⟨?_, hnumbers, ?_, rfl⟩
  · simp only [attempts, List.map_cons, List.map_nil, hfails, hruns]
  · rw [← hdrained, List.map_cons, hone, List.map_nil]

end SessionEngine

end Notebook
