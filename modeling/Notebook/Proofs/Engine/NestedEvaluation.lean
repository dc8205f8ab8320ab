import Notebook.Proofs.Engine.Transactions
import Notebook.Session

/-!
Evaluating from inside of an evaluation.

Whoever is told the number of a snippet may try to evaluate texts at once, with observers of their
own, and go on by what comes of that (`Engine.Visit`). An engine that is evaluating refuses them all.

* `Engine.Visit.run_of_busy`: a visit to an engine that is evaluating leaves it as it is, and all that
  the visit tried was refused.
* `Engine.evalObserving_visited`: hence a visit makes no difference to the evaluation that it comes
  in, and after that the engine takes the next one.
-/

namespace Notebook

namespace Engine

variable {σ τ α : Type} {parts : Parts σ τ} {e : Engine σ τ}

/-! ### Visits -/

/-- What a visitor does with an engine: it is done, or it evaluates a text with an observer of its own, and goes
on by the reply and by how it finds the engine then. Visits may be of any length and nest to any depth. -/
inductive Visit (σ τ α : Type) : Type 1 where
  | done (answer : α)
  | eval {β : Type} (observe : SnippetId → Engine σ τ → β × Engine σ τ) (source : String)
      (next : Reply β → Engine σ τ → Visit σ τ α)

/-- An evaluation that a visitor tried: the engine before and after it, the result, and whether the observer was
told a number. It is what an outsider can see of the attempt. -/
structure Trial (σ τ : Type) where
  source : String
  before : Engine σ τ
  result : Except SessionError Evaluation
  told : Bool
  after : Engine σ τ

/-- Was an evaluation refused by the engine `e`, with nothing done to it? -/
structure Trial.Refused (e : Engine σ τ) (t : Trial σ τ) : Prop where
  result : t.result = .error .concurrencyViolation
  told : t.told = false
  before : t.before = e
  after : t.after = e

/-- Carries a visit out: what it tried, in order, and what it ends with. -/
def Visit.run (parts : Parts σ τ) : Visit σ τ α → Engine σ τ → (List (Trial σ τ) × α) × Engine σ τ
  | .done answer, e => (([], answer), e)
  | .eval observe source next, e =>
    let (reply, e₁) := evalObserving parts observe source e
    let ((trials, answer), e₂) := (next reply e₁).run parts e₁
    ((⟨source, e, reply.result, reply.observed.isSome, e₁⟩ :: trials, answer), e₂)

/-- A visit to an engine that is evaluating: everything is refused, and the engine stays as it is. -/
theorem Visit.run_of_busy (hbusy : e.executing = true) (visit : Visit σ τ α) :
    (visit.run parts e).2 = e ∧ ∀ t ∈ (visit.run parts e).1.1, t.Refused e := by
  induction visit with
  | done answer => exact ⟨rfl, fun t ht => absurd ht List.not_mem_nil⟩
  | eval observe source next ih =>
    obtain ⟨hafter, hrest⟩ := ih ⟨.error .concurrencyViolation, none⟩ e
    simp only [Visit.run, evalObserving_of_busy hbusy]
    refine ⟨hafter, ?_⟩
    intro t ht
    rcases List.mem_cons.mp ht with rfl | ht
    · exact ⟨rfl, rfl, rfl, rfl⟩
    · exact hrest t ht

/-! ### Evaluations with visitors -/

/-- An evaluation that has begun does not end with being refused. -/
theorem evalAs_ne_concurrencyViolation (parts : Parts σ τ) (id : SnippetId) (source : String)
    (e : Engine σ τ) : (evalAs parts id source e).1 ≠ .error .concurrencyViolation := by
  intro hrefused
  cases ofSnippet_of_evalAs hrefused

/-- Does an engine take the next evaluation? Then the snippet gets a number. -/
def Admits (parts : Parts σ τ) (e : Engine σ τ) : Prop :=
  ∀ {β : Type} (observe : SnippetId → Engine σ τ → β × Engine σ τ) (source : String),
    (evalObserving parts observe source e).1.observed.isSome = true ∧
      (evalObserving parts observe source e).1.result ≠ .error .concurrencyViolation

theorem admits_of_idle (hidle : e.executing = false) : e.Admits parts := by
  intro β observe source
  rw [evalObserving_of_idle hidle]
  exact ⟨rfl, evalAs_ne_concurrencyViolation _ _ _ _⟩

/-- A visitor that comes as soon as a snippet has its number, and tries to evaluate whatever it likes,
makes no difference. While another evaluation is going on the visitor is not even told. Otherwise the
engine is evaluating for as long as the visit lasts and refuses all that is tried; the evaluation itself
has the result and leaves the engine that it does without a visitor; and however it ends, it is over
then and the engine takes the next one. -/
theorem evalObserving_visited (parts : Parts σ τ) (e : Engine σ τ)
    (visit : SnippetId → Engine σ τ → Visit σ τ α) (source : String) :
    let out := evalObserving parts (fun id e => (visit id e).run parts e) source e
    (e.executing = true → out = (⟨.error .concurrencyViolation, none⟩, e)) ∧
      (e.executing = false →
        (∃ trials answer, out.1.observed = some (trials, answer) ∧
          ∃ inside : Engine σ τ, inside = e.begun parts ∧ inside.executing = true ∧
            ∀ t ∈ trials, t.Refused inside) ∧
        (out.1.result, out.2) = eval parts source e ∧
        out.2.executing = false ∧ out.2.Admits parts) := by
  intro out
  constructor
  · intro hbusy
    exact evalObserving_of_busy hbusy _ source
  · intro hidle
    have hbusy : (e.begun parts).executing = true := rfl
    -- The engine is evaluating when the visitor comes, so the visit leaves it alone, and the evaluation goes on
    -- as if nobody had come.
    obtain ⟨hafter, hrefused⟩ :=
      Visit.run_of_busy hbusy (visit (e.nextNumber parts) (e.begun parts))
    have hout : out = _ := evalObserving_of_idle hidle _ source
    have hquiet : eval parts source e = _ :=
      congrArg (fun out : Reply Unit × Engine σ τ => (out.1.result, out.2))
        (evalObserving_of_idle hidle (fun _ e => ((), e)) source)
    have hends : out.2.executing = false := by rw [hout]
    refine ⟨⟨_, _, by rw [hout], _, rfl, rfl, hrefused⟩, ?_, hends, admits_of_idle hends⟩
    rw [hout, hquiet]
    simp only [hafter]

/-- A visitor that tries again when it is refused, the second time with an observer that tries, too. -/
theorem new_visited :
    let parts := SessionEngine.parts
    let e := SessionEngine.new {}
    let insist : SnippetId → SessionEngine → Option (Except SessionError Evaluation) × SessionEngine :=
      fun _ e => ((eval parts "3" e).1, (eval parts "3" e).2)
    let visit : SnippetId → SessionEngine → Visit IncrementalCompiler Store Nat := fun _ _ =>
      .eval (fun _ e => ((), e)) "2" fun reply _ =>
        if reply.observed.isSome then .done 0
        else .eval insist "let a = 1;" fun _ e => .done (if e.executing then 1 else 2)
    let out := evalObserving parts (fun id e => (visit id e).run parts e) "1" e
    e.executing = false ∧
      (∃ trials, out.1.observed = some (trials, 1) ∧ trials.length = 2 ∧
        ∀ t ∈ trials, t.Refused (e.begun parts)) ∧
      out.2.Admits parts := by
  intro parts e insist visit out
  have hidle : e.executing = false := rfl
  obtain ⟨⟨trials, answer, hobserved, inside, rfl, -, hrefused⟩, -, -, hadmits⟩ :=
    (evalObserving_visited parts e visit "1").2 hidle
  have hseen : out.1.observed = some _ :=
    congrArg (·.1.observed) (evalObserving_of_idle hidle (fun id e => (visit id e).run parts e) "1")
  obtain ⟨rfl, rfl⟩ := Prod.mk.inj (Option.some.inj (hobserved.symm.trans hseen))
  exact ⟨hidle, ⟨_, hobserved, rfl, hrefused⟩, hadmits⟩

end Engine

end Notebook
