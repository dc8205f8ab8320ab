import Notebook.Proofs.Engine.Correctness
import Notebook.Proofs.Renderer.SessionRendering

/-!
Whole sessions: evaluating, showing, registering renderers and draining, in any order.

`Session.Reached` relates a session to its record, which has the value of every snippet that ran, be
it one of the user, of a renderer's registration or of a renderer at work.

* `Reached.engine`: the engine of a session is one that a session gets into, and its renderers are
  honest.
* `Reached.drained_replays`: the units drained from a session lead a new store through the same
  values to the session's store.
-/

namespace Notebook

namespace Session

open SessionEngine (recorded recordingHost)

/-! ### Records -/

/-- The record once a snippet was evaluated and its result was shown. What renderers evaluate on the way is on
record, too. -/
def recordEval (source : String) (s : Session) (r : Record) : Record :=
  let (reply, engine) :=
    Engine.evalObserving SessionEngine.parts (fun id e => (id, e)) source s.engine
  let r := recorded source s.engine r reply.result
  match reply.result, reply.observed with
  | .ok evaluation, some _ =>
    (s.renderers.renderResult recordingHost evaluation.result (engine, r)).2.2
  | _, _ => r

/-- The record once a renderer was registered, or failed to be. -/
def recordRegister (renderer : Renderer) (s : Session) (r : Record) : Record :=
  match (s.renderers.prepare renderer).code with
  | none => r
  | some code => recorded code s.engine r (Engine.eval SessionEngine.parts code s.engine).1

/-- The states of sessions, with their records. Renderers that are registered make up no functions.
Draining is one of the things done aside, as is calling a function of the session. -/
inductive Reached (config : Config) : Session → Record → Prop where
  | new : Reached config (.new config) {}
  | eval {s : Session} {r : Record} (source : String) :
      Reached config s r → Reached config (s.eval source).2 (s.recordEval source r)
  | executed {s : Session} {r : Record} (source : String) :
      Reached config s r →
      Reached config { s with engine := (SessionEngine.execute source s.engine).2 }
        (recorded source s.engine r (Engine.eval SessionEngine.parts source s.engine).1)
  | register {s : Session} {r : Record} (renderer : Renderer) :
      Reached config s r → renderer.Honest s.engine.Owns →
      Reached config (s.register renderer).2 (s.recordRegister renderer r)
  | registerPlain {s : Session} {r : Record} (renderer : Renderer) :
      Reached config s r → renderer.Honest s.engine.Owns →
      Reached config (s.registerPlain renderer) r
  | aside {s : Session} {r : Record} {engine : SessionEngine} {units : List SerializedUnit} :
      Reached config s r → s.engine.Aside engine units →
      Reached config { s with engine } (r.drain units)

variable {config : Config} {s : Session} {r : Record}

/-! ### Steps of a session -/

/-- Is the engine one that a session gets into, and are all renderers honest? This is the invariant of
`Reached`: every step of a session advances from one such state to another. -/
structure Sound (config : Config) (s : Session) (r : Record) : Prop where
  engine : SessionEngine.Reached config s.engine r
  honest : ∀ registered ∈ s.renderers.renderers, registered.renderer.Honest s.engine.Owns

/-- A step of a sound session leads to a sound one, in which the constants and globals that there
were are the same. -/
structure Advances (config : Config) (s s' : Session) (r' : Record) : Prop where
  sound : s'.Sound config r'
  store : s.engine.evaluator.Grows s'.engine.evaluator

/-- A session advances as its engine moves on. -/
theorem Sound.onward {engine : SessionEngine} {r' : Record} (hs : s.Sound config r)
    (h : SessionEngine.Onward config s.engine (engine, r')) :
    s.Advances config { s with engine } r' :=
  ⟨⟨h.reached, fun registered hmem => (hs.honest registered hmem).mono h.grows⟩, h.store⟩

/-- A session stays sound as a renderer is added. -/
theorem Sound.push {registry : Registry} {registered : Registered} (hs : s.Sound config r)
    (hregistry : registry.renderers = s.renderers.renderers.push registered)
    (h : registered.renderer.Honest s.engine.Owns) :
    Sound config { s with renderers := registry } r := by
  refine ⟨hs.engine, ?_⟩
  intro registered' hmem
  have hmem : registered' ∈ registry.renderers := hmem
  rw [hregistry] at hmem
  rcases Array.mem_push.mp hmem with hmem | rfl
  · exact hs.honest registered' hmem
  · exact h

theorem Sound.eval (hs : s.Sound config r) (source : String) :
    s.Advances config (s.eval source).2 (s.recordEval source r) := by
  obtain ⟨honward, hmade⟩ := hs.engine.observed (fun id e => (id, e)) (fun _ _ => rfl) source
  have hnext := hs.onward honward
  unfold Session.eval recordEval
  rcases heval : Engine.evalObserving SessionEngine.parts (fun id e => (id, e)) source s.engine with
    ⟨⟨error | evaluation, observed⟩, engine⟩
  · rw [heval] at hnext
    exact hnext
  · rw [heval] at hnext hmade
    cases observed with
    | none => exact hnext
    | some snippet =>
      have hshown : Sound config ⟨engine, s.renderers⟩
        (recorded source s.engine r (.ok evaluation)) := hnext.sound
      have hrendered := hshown.engine.rendered hshown.honest s.renderers.maxSteps
        (hmade evaluation rfl)
      obtain ⟨r', hrecording⟩ := SessionEngine.renderWithin_recording s.renderers
        s.renderers.maxSteps evaluation.result engine (recorded source s.engine r (.ok evaluation))
      rw [hrecording] at hrendered
      simp only [Registry.renderResult, hrecording]
      have hlast := hshown.onward hrendered
      exact ⟨hlast.sound, hnext.store.trans hlast.store⟩

theorem Sound.register (hs : s.Sound config r) {renderer : Renderer}
    (hhonest : renderer.Honest s.engine.Owns) :
    s.Advances config (s.register renderer).2 (s.recordRegister renderer r) := by
  have hprepared : (s.renderers.prepare renderer).registered.renderer = renderer := by
    unfold Registry.prepare
    split <;> rfl
  unfold Session.register recordRegister
  cases hcode : (s.renderers.prepare renderer).code with
  | none =>
    simp only [hcode]
    refine ⟨hs.push rfl ?_, .refl _⟩
    rw [hprepared]
    exact hhonest
  | some code =>
    obtain ⟨honward, -⟩ := hs.engine.eval code
    have hnext := hs.onward honward
    simp only [hcode]
    rcases heval : Engine.eval SessionEngine.parts code s.engine with ⟨error | evaluation, engine⟩
    · rw [heval] at hnext
      exact hnext
    · rw [heval] at hnext honward
      refine ⟨hnext.sound.push rfl ?_, hnext.store⟩
      rw [hprepared]
      exact hhonest.mono honward.grows

theorem Sound.aside (hs : s.Sound config r) {engine : SessionEngine} {units : List SerializedUnit}
    (hmove : s.engine.Aside engine units) : s.Advances config { s with engine } (r.drain units) := by
  have hreached := hs.engine.aside hmove
  obtain ⟨archive, files, rfl, -⟩ := hmove.eq hs.engine.sound.1
  exact hs.onward (SessionEngine.Reached.onward hreached (.refl _))

theorem Reached.engine (h : Reached config s r) : s.Sound config r := by
  induction h with
  | new => exact ⟨.new, fun registered hmem => absurd hmem (Array.not_mem_empty registered)⟩
  | eval source _ ih => exact (ih.eval source).sound
  | executed source _ ih =>
    obtain ⟨honward, -⟩ := ih.engine.eval source
    exact (ih.onward honward).sound
  | register renderer _ hhonest ih => exact (ih.register hhonest).sound
  | registerPlain renderer _ hhonest ih => exact ih.push rfl hhonest
  | aside _ hmove ih => exact (ih.aside hmove).sound

/-! ### Replaying what was archived -/

/-- The units that were drained from a session, up to a last time, replay it: read again and run one
after the other on a new store they all finish, with the values that their snippets had, and leave
the store that the session has. -/
theorem Reached.drained_replays (h : Reached config s r) :
    Store.Replays config.maxCallDepth (r.drained ++ s.drain.1)
      { maxCallDepth := config.maxCallDepth } r.values s.drain.2.engine.evaluator :=
  h.engine.engine.sound.1.replays

/-- Where there are no renderers, showing a result does nothing. -/
theorem renderResult_of_empty {registry : Registry} (h : registry.renderers = #[]) {σ : Type}
    (host : RenderHost σ) (result : TypedResult) (state : σ) :
    (registry.renderResult host result state).2 = state := by
  have hfind : ∀ type, registry.find? type = none := by
    intro type
    unfold Registry.find?
    rw [h]
    rfl
  unfold Registry.renderResult Registry.renderWithin
  simp only [hfind]
  split <;> rfl

theorem recordEval_of_empty (h : s.renderers.renderers = #[]) (source : String) (r : Record) :
    s.recordEval source r = recorded source s.engine r
      (Engine.evalObserving SessionEngine.parts (fun id e => (id, e)) source s.engine).1.result := by
  unfold recordEval
  rcases Engine.evalObserving SessionEngine.parts (fun id e => (id, e)) source s.engine with
    ⟨⟨error | evaluation, observed⟩, engine⟩
  · rfl
  · cases observed with
    | none => rfl
    | some snippet => simp only [renderResult_of_empty h]

/-- A session in which one snippet ran. -/
theorem eval_drained_replays :
    let s := ((Session.new {}).eval "let f = fn(a) \x7b a + 1 \x7d; f(41)").2
    Store.Replays 1024 s.drain.1 { maxCallDepth := 1024 } [some (.int 42)]
      s.drain.2.engine.evaluator := by
  intro s
  have hnew : Reached {} (Session.new {}) {} := .new
  have hreplays := (hnew.eval "let f = fn(a) \x7b a + 1 \x7d; f(41)").drained_replays
  have hforeseen : (SessionEngine.new {}).started.foreseen [] 0
      "let f = fn(a) \x7b a + 1 \x7d; f(41)" = some (some (.int 42)) := by decide +kernel
  obtain ⟨evaluation, hresult, hvalue⟩ := (SessionEngine.Sound.new {}).ok_of_foreseen
    (fun id e => (id, e)) rfl (fun _ _ => rfl) hforeseen
  have hengine : (Session.new {}).engine = SessionEngine.new {} := rfl
  rw [recordEval_of_empty rfl, hengine, hresult] at hreplays
  simpa [recorded, Record.ran, hvalue] using hreplays

end Session

end Notebook
