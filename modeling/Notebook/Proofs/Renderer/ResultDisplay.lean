import Notebook.Proofs.Renderer.CallableMethods

/-!
Showing a result leaves a session as it is, unless a renderer uses the session's services.

A renderer that is a function of the session is called on the globals as they are. An inline renderer
may evaluate texts and call functions, but it need not: `Registered.Quiet` is a renderer that is a
function of the session, or that does neither.

* `Registry.renderWithin_withServices`: what quiet renderers come to, and the state that they leave,
  have nothing to do with the services.
* `SessionEngine.Reached.keeps_refusing`: if no service is granted, every step of rendering leaves the
  engine as it is.
* `Session.Reached.eval_undisturbed`: hence a snippet that is evaluated and shown by quiet renderers
  leaves what it leaves when it is evaluated alone, however showing it ends.
-/

namespace Notebook

/-! ### Renderers without services -/

def Script.isQuiet : Script → Bool
  | .done _ | .fail _ => true
  | .execute _ _ | .call _ _ _ => false

/-- Is a renderer a function of the session, or does it use no services? A function of the session can change
nothing, as it is called on the globals as they are. -/
def Registered.Quiet (registered : Registered) : Prop :=
  registered.method ≠ none ∨ ∀ result, (registered.renderer.script result).isQuiet = true

variable {σ : Type}

def RenderHost.withServices (services : Host σ) (host : RenderHost σ) : RenderHost σ :=
  { host with toHost := services }

/-- Services that are never granted. A quiet renderer does not notice. -/
def Host.refusing : Host σ where
  execute _ s := (.error .concurrencyViolation, s)
  call _ _ s := (.error .concurrencyViolation, s)

theorem Script.run_of_isQuiet {script : Script} (h : script.isQuiet = true) (host host' : Host σ)
    (s : σ) : script.run host s = script.run host' s := by
  cases script with
  | done result => rfl
  | fail cause => rfl
  | execute source next => cases h
  | call f args next => cases h

namespace Registry

variable (services : Host σ) (host : RenderHost σ)

theorem applyRenderer_withServices {registered : Registered} (h : registered.Quiet)
    (result : TypedResult) (v : Value) (s : σ) :
    applyRenderer (host.withServices services) registered result v s =
      applyRenderer host registered result v s := by
  rcases h with hmethod | hscript
  · obtain ⟨id, hid⟩ := Option.ne_none_iff_exists'.mp hmethod
    unfold applyRenderer
    simp only [hid]
    rfl
  · have hrun := Script.run_of_isQuiet (hscript result) services host.toHost (host.refresh s)
    unfold applyRenderer
    cases registered.method with
    | none =>
      simp only [RenderHost.withServices, hrun]
    | some id => rfl

/-- Quiet renderers render to the same with any services. -/
theorem renderWithin_withServices {r : Registry}
    (hquiet : ∀ registered ∈ r.renderers, registered.Quiet) (steps : Nat) (result : TypedResult)
    (s : σ) :
    renderWithin (host.withServices services) r steps result s =
      renderWithin host r steps result s := by
  induction steps generalizing result s with
  | zero =>
    unfold renderWithin
    rfl
  | succ steps ih =>
    unfold renderWithin
    split
    · rfl
    · rfl
    · rename_i v _ _
      cases hfind : r.find? v.type with
      | none => rfl
      | some registered =>
        have happly := applyRenderer_withServices services host
          (hquiet registered (Array.mem_of_find?_eq_some hfind)) result v s
        simp only [happly]
        rcases applyRenderer host registered result v s with ⟨error | result', s'⟩
        · rfl
        · exact ih result' s'

end Registry

/-! ### Rendering in a session -/

namespace SessionEngine

variable {config : Config} {e : SessionEngine} {r : Record}

/-- The context of an engine is up to date and calling its functions changes nothing, so what is left
of its services keeps the engine as it is if none is granted to renderers. -/
theorem Reached.keeps_refusing (h : Reached config e r) :
    (host.withServices .refusing).Keeps Owns (· = e) := by
  have hstays : RenderHost.Leads Owns (· = e) e e := .refl rfl
  constructor
  · rintro s source rfl
    exact .of_error hstays SessionError.concurrencyViolation
  · rintro s f args rfl - -
    exact .of_error hstays SessionError.concurrencyViolation
  · rintro s rfl
    have hrefresh : (host.withServices .refusing).refresh s = s := h.sound.1.refresh
    rw [hrefresh]
    exact hstays
  · rintro s name entry rfl hentry
    exact (Reached.keeps config s).function? (s, r) name entry (.refl h) hentry
  · rintro s entry args rfl hentry hargs
    obtain ⟨hsame, hvalue⟩ := h.call hentry hargs
    have hcalled : (host.withServices .refusing).invoke entry args s =
      ((SessionEngine.call entry.value args s).1, (SessionEngine.call entry.value args s).2) := rfl
    rw [hcalled, hsame]
    cases hcall : (SessionEngine.call entry.value args s).1 with
    | error error => exact .of_error hstays error
    | ok v => exact .of_ok hstays (hvalue v hcall)

/-- Quiet renderers leave the engine as it is. -/
theorem Reached.renderResult_eq {registry : Registry} (h : Reached config e r)
    (hhonest : ∀ registered ∈ registry.renderers, registered.renderer.Honest e.Owns)
    (hquiet : ∀ registered ∈ registry.renderers, registered.Quiet)
    {result : TypedResult} (hresult : (result.value.getD .null).MadeOf e.Owns) :
    (registry.renderResult host result e).2 = e := by
  unfold Registry.renderResult
  rw [← Registry.renderWithin_withServices .refusing host hquiet]
  exact h.keeps_refusing.renderWithin registry.maxSteps rfl hhonest hresult

end SessionEngine

namespace Session

variable {config : Config} {s : Session} {r : Record}

/-- If every renderer is a function of the session or an inline renderer that uses no services, then
evaluating a snippet and showing its result leaves the session that evaluating the snippet alone
leaves: the compiler with the next snippet's number, the store, the context and the archive are the
same, be the result shown or not. -/
theorem Reached.eval_undisturbed (h : Reached config s r)
    (hquiet : ∀ registered ∈ s.renderers.renderers, registered.Quiet) (source : String) :
    (s.eval source).2 =
      { s with engine := (Engine.eval SessionEngine.parts source s.engine).2 } := by
  obtain ⟨hreached, hhonest⟩ := h.engine
  obtain ⟨honward, hmade⟩ := hreached.observed (fun id e => (id, e)) (fun _ _ => rfl) source
  have halone : (Engine.eval SessionEngine.parts source s.engine).2 =
      (Engine.evalObserving SessionEngine.parts (fun id e => (id, e)) source s.engine).2 := by
    obtain ⟨-, hidle⟩ := hreached.sound
    rw [SessionEngine.eval_eq hidle,
      (SessionEngine.evalObserving_eq (fun id e => (id, e)) hidle source).2]
  rw [halone]
  unfold Session.eval
  rcases heval : Engine.evalObserving SessionEngine.parts (fun id e => (id, e)) source s.engine with
    ⟨⟨error | evaluation, observed⟩, engine⟩
  · rfl
  · rw [heval] at honward hmade
    cases observed with
    | none => rfl
    | some snippet =>
      -- The renderers are honest in the engine that the evaluation left, too, since it has all functions of the
      -- one before.
      have hshown : (s.renderers.renderResult SessionEngine.host evaluation.result engine).2 =
          engine :=
        honward.reached.renderResult_eq
          (fun registered hmem => (hhonest registered hmem).mono honward.grows) hquiet
          (hmade evaluation rfl)
      simp only [hshown]

/-- A renderer is registered if its snippet is foreseen to succeed. -/
theorem Reached.renderers_register (h : Reached config s r) {renderer : Renderer} {code : String}
    {value : Option Value} (hcode : (s.renderers.prepare renderer).code = some code)
    (hforeseen : s.engine.started.foreseen r.routines s.engine.compiler.nextSnippet code =
      some value) :
    (s.register renderer).2.renderers = s.renderers.commit (s.renderers.prepare renderer) := by
  obtain ⟨hsound, hidle⟩ := h.engine.engine.sound
  obtain ⟨evaluation, hresult, -⟩ :=
    hsound.ok_of_foreseen (fun _ e => ((), e)) hidle (fun _ _ => rfl) hforeseen
  have heval : Engine.eval SessionEngine.parts code s.engine =
      (.ok evaluation, (Engine.eval SessionEngine.parts code s.engine).2) := Prod.ext hresult rfl
  rw [register_of_ok hcode heval]

/-- A renderer for integers that divides by zero, and one for strings that just fails. -/
theorem eval_undisturbed_of_failing :
    let s := (((Session.new {}).register (.code (.anyOf [.int]) "$it / 0")).2.register
      (.inline (.anyOf [.string]) fun _ => .fail (.note "no strings" []))).2
    s.renderers.size = 2 ∧
      (s.eval "41").2 = { s with engine := (Engine.eval SessionEngine.parts "41" s.engine).2 } := by
  intro s
  have hnew : Reached {} (Session.new {}) {} := .new
  have hdivides : Reached {} ((Session.new {}).register (.code (.anyOf [.int]) "$it / 0")).2 _ :=
    hnew.register (.code (.anyOf [.int]) "$it / 0") trivial
  have hforeseen : (SessionEngine.new {}).started.foreseen [] 0
      (precompiledSource "$it / 0" (methodName 0) methodParameter) = some none := by
    decide +kernel
  have hdivider :
      ((Session.new {}).register (.code (.anyOf [.int]) "$it / 0")).2.renderers = _ :=
    hnew.renderers_register rfl hforeseen
  have hrenderers : s.renderers.renderers =
      #[⟨.code (.anyOf [.int]) "$it / 0", some 0⟩,
        ⟨.inline (.anyOf [.string]) fun _ => .fail (.note "no strings" []), none⟩] := by
    show (((Session.new {}).register (.code (.anyOf [.int]) "$it / 0")).2.renderers.commit _).renderers
      = _
    rw [hdivider]
    rfl
  have hreached : Reached {} s _ :=
    hdivides.register (.inline (.anyOf [.string]) fun _ => .fail (.note "no strings" []))
      fun _ => trivial
  refine ⟨congrArg Array.size hrenderers, hreached.eval_undisturbed ?_ "41"⟩
  intro registered hmem
  rw [hrenderers] at hmem
  rcases List.mem_cons.mp (Array.mem_toList_iff.mpr hmem) with rfl | hmem
  · exact .inl (Option.some_ne_none 0)
  · obtain rfl := List.mem_singleton.mp hmem
    exact .inr fun _ => rfl

end Session

end Notebook
