import Mathlib.Logic.Relation
import Notebook.Proofs.Engine.Correctness
import Notebook.Proofs.Session.ReachedSessions

/-!
Functions keep their meaning.

`Session.Step` is one thing that is done with a session, whether it succeeds or not. Whatever is done,
a function of the session does the same afterwards as before (`Session.Reached.call_keeps`): the
globals and constants that it refers to are still there, even if their names mean something else by
then.
-/

namespace Notebook

namespace Session

open SessionEngine (Onward)

/-- One thing that is done with a session. Renderers that are registered make up no functions: what they call,
they got from the session. A step may fail. -/
inductive Step : Session → Session → Prop where
  | eval {s : Session} (source : String) : Step s (s.eval source).2
  | executed {s : Session} (source : String) :
      Step s { s with engine := (SessionEngine.execute source s.engine).2 }
  | register {s : Session} (renderer : Renderer) :
      renderer.Honest s.engine.Owns → Step s (s.register renderer).2
  | registerPlain {s : Session} (renderer : Renderer) :
      renderer.Honest s.engine.Owns → Step s (s.registerPlain renderer)
  | aside {s : Session} {engine : SessionEngine} {units : List SerializedUnit} :
      s.engine.Aside engine units → Step s { s with engine }

variable {config : Config} {s s' : Session} {r : Record}

/-- A step leads to a state of the session again, in which the store has at most grown. -/
theorem Reached.step (h : Reached config s r) (hstep : Step s s') :
    ∃ r', Reached config s' r' ∧ s.engine.evaluator.Grows s'.engine.evaluator := by
  have hs := h.engine
  cases hstep with
  | eval source => exact ⟨_, h.eval source, (hs.eval source).store⟩
  | executed source =>
    obtain ⟨honward, -⟩ := hs.engine.eval source
    exact ⟨_, h.executed source, honward.store⟩
  | register renderer hhonest => exact ⟨_, h.register renderer hhonest, (hs.register hhonest).store⟩
  | registerPlain renderer hhonest => exact ⟨_, h.registerPlain renderer hhonest, .refl _⟩
  | aside hmove => exact ⟨_, h.aside hmove, (hs.aside hmove).store⟩

/-- So do any number of steps. -/
theorem Reached.steps (h : Reached config s r) (hsteps : Relation.ReflTransGen Step s s') :
    ∃ r', Reached config s' r' ∧ s.engine.evaluator.Grows s'.engine.evaluator := by
  induction hsteps with
  | refl => exact ⟨r, h, .refl _⟩
  | tail _ hstep ih =>
    obtain ⟨r₁, h₁, hgrows₁⟩ := ih
    obtain ⟨r₂, h₂, hgrows₂⟩ := h₁.step hstep
    exact ⟨r₂, h₂, hgrows₁.trans hgrows₂⟩

/-- Does a global of the session hold this value, be it inside of arrays? -/
def Holds (s : Session) (f : Value) : Prop := ∃ v ∈ s.engine.evaluator.globals, f.Occurs v

/-- What the globals hold is made of functions of the session. -/
theorem Reached.madeOf_of_holds (h : Reached config s r) {f : Value} (hf : s.Holds f) :
    f.MadeOf s.engine.Owns := by
  obtain ⟨hs, -⟩ := h.engine.engine.sound
  obtain ⟨v, hv, hoccurs⟩ := hf
  exact hoccurs.madeOf (hs.owned (hs.linked.globals v hv))

/-- A function that a global holds keeps its meaning: calling it with values of the session leaves the store as
it is, both now and after any number of steps, and comes to the same, be it a value or an error. Redeclaring the
names that it uses makes no difference. -/
theorem Reached.call_keeps (h : Reached config s r) {f : Value} (hf : s.Holds f)
    {args : List Value} (hargs : ∀ v ∈ args, v.MadeOf s.engine.Owns)
    (hsteps : Relation.ReflTransGen Step s s') :
    (s.engine.evaluator.call f args).2 = s.engine.evaluator ∧
      (s'.engine.evaluator.call f args).2 = s'.engine.evaluator ∧
      (s'.engine.evaluator.call f args).1 = (s.engine.evaluator.call f args).1 := by
  obtain ⟨r', h', hgrows⟩ := h.steps hsteps
  obtain ⟨hs, -⟩ := h.engine.engine.sound
  obtain ⟨hs', -⟩ := h'.engine.engine.sound
  have hf : f.MadeOf s.engine.Owns := h.madeOf_of_holds hf
  have hstill : ∀ {v : Value}, v.MadeOf s.engine.Owns → v.MadeOf s'.engine.Owns :=
    fun hv => hv.mono fun _ hmem => hgrows.mem_constants hmem
  have hnow := hs.linked.call (hs.known hf) fun v hv => hs.known (hargs v hv)
  have hthen := hs'.linked.call (hs'.known (hstill hf)) fun v hv => hs'.known (hstill (hargs v hv))
  have hsame := hs.linked.call_grows hgrows (hs.known hf) fun v hv => hs.known (hargs v hv)
  exact ⟨hnow.1, hthen.1, hsame⟩

/-- Where there are no renderers, evaluating a snippet is all that happens to the engine. -/
theorem eval_engine_of_empty (h : s.renderers.renderers = #[]) (source : String) :
    (s.eval source).2.engine =
      (Engine.evalObserving SessionEngine.parts (fun id e => (id, e)) source s.engine).2 := by
  unfold Session.eval
  rcases Engine.evalObserving SessionEngine.parts (fun id e => (id, e)) source s.engine with
    ⟨⟨error | evaluation, observed⟩, engine⟩
  · rfl
  · cases observed with
    | none => rfl
    | some snippet => simp only [renderResult_of_empty h]

/-- A function that counts with a global, whose names are then given to other things. -/
theorem eval_call_keeps :
    let s := ((Session.new {}).eval "let a = [1]; let f = fn(n) { n + len(a) };").2
    let s' := ((s.eval "let a = 2; let f = a / 0;").2.eval "let a = []; let f = 1;").2
    ∃ f, f.type = .function ∧ s.Holds f ∧
      (s'.engine.evaluator.call f [.int 41]).1 = (s.engine.evaluator.call f [.int 41]).1 := by
  intro s s'
  have hnew : Reached {} (Session.new {}) {} := .new
  have hreached := hnew.eval "let a = [1]; let f = fn(n) { n + len(a) };"
  have htypes : ((SessionEngine.new {}).started.foreseenRun [] 0
      "let a = [1]; let f = fn(n) { n + len(a) };").map
      (fun ran => ran.2.globals.toList.map Value.type) = some [.array, .function] := by
    decide +kernel
  obtain ⟨⟨value, store⟩, hforeseen, htypes⟩ := Option.map_eq_some_iff.mp htypes
  obtain ⟨evaluation, -, -, hstore⟩ := (SessionEngine.Sound.new {}).ok_of_foreseenRun
    (fun id e => (id, e)) rfl (fun _ _ => rfl) hforeseen
  have hnone : (Session.new {}).renderers.renderers = #[] := rfl
  have hengine : s.engine.evaluator = store := by
    rw [← hstore]
    exact congrArg (·.evaluator) (eval_engine_of_empty hnone _)
  have hfunction : ValueType.function ∈ store.globals.toList.map Value.type := by
    rw [htypes]
    decide
  obtain ⟨f, hmem, htype⟩ := List.mem_map.mp hfunction
  have hf : s.Holds f := by
    refine ⟨f, ?_, .self⟩
    rw [hengine]
    exact Array.mem_toList_iff.mp hmem
  have hsteps : Relation.ReflTransGen Step s s' :=
    .tail (.single (.eval "let a = 2; let f = a / 0;")) (.eval "let a = []; let f = 1;")
  exact ⟨f, htype, hf, (hreached.call_keeps hf (by simp) hsteps).2.2⟩

end Session

end Notebook
