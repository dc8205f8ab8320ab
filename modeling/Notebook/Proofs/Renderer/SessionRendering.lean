import Notebook.Proofs.Engine.History
import Notebook.Proofs.Renderer.RenderHosts

/-!
What renderers do to a session.

A renderer may evaluate snippets and call functions while a result is shown. `recordingHost` offers
the services of a session and keeps the record of what is evaluated; apart from the record it does
what a session does (`renderWithin_recording`).

* `Reached.keeps`: the services of a session lead from states of the session to states of the
  session, and answer with functions of the session.
* `Reached.rendered`: hence so does rendering with honest renderers.
-/

namespace Notebook

/-! ### Functions of the context -/

/-- A name more in a context, with a function that is made of known ones. -/
theorem Context.madeOf_add {known : FunctionCode → Prop} {c : Context} {added : ContextEntry}
    (hc : ∀ name entry, c.function? name = some entry → entry.value.MadeOf known)
    (hadded : added.value.MadeOf known) {key name : String} {entry : ContextEntry}
    (h : (c.add key added).function? name = some entry) : entry.value.MadeOf known := by
  unfold Context.add at h
  split at h
  · rw [Context.function?, NameTable.get?_insert] at h
    split at h
    · cases h
      exact hadded
    · exact hc name entry h
  · exact hc name entry h

/-- The functions of a context are globals of its store. -/
theorem Context.madeOf_function? {known : FunctionCode → Prop} {s : Store}
    (hglobals : ∀ v ∈ s.globals, v.MadeOf known) {name : String} {entry : ContextEntry}
    (h : (Context.ofStore s).function? name = some entry) : entry.value.MadeOf known := by
  have hentry : ∀ b, (Context.entryOf s b).value.MadeOf known := fun b =>
    madeOf_getD fun v hv => hglobals v (Array.mem_of_getElem? hv)
  have hall : ∀ (bindings : List (String × Binding)) (c : Context),
      (∀ name entry, c.function? name = some entry → entry.value.MadeOf known) →
      ∀ name entry, Context.function?
          (bindings.foldl (fun c entry => c.add entry.1 (Context.entryOf s entry.2)) c) name =
        some entry → entry.value.MadeOf known := by
    intro bindings
    induction bindings with
    | nil => exact fun c hc => hc
    | cons binding rest ih =>
      intro c hc
      exact ih _ fun name entry h => Context.madeOf_add hc (hentry binding.2) h
  exact hall s.bindings.entries {} (fun name entry h => by cases h) name entry h

namespace SessionEngine

/-! ### Recording -/

/-- The services of a session, with a record kept of what is evaluated. The record is what an engine being
reached refers to, and an engine does not have it. -/
def recordingHost : RenderHost (SessionEngine × Record) where
  execute source s :=
    let (result, e) := Engine.eval parts source s.1
    (result.map (·.result.value), e, recorded source s.1 s.2 result)
  call f args s :=
    let (result, e) := host.call f args s.1
    (result, e, s.2)
  refresh s := (host.refresh s.1, s.2)
  function? name s := host.function? name s.1
  invoke entry args s :=
    let (result, e) := host.invoke entry args s.1
    (result, e, s.2)

theorem recordingHost_extends : recordingHost.Extends host Prod.fst where
  execute _ _ := rfl
  call _ _ _ := rfl
  refresh _ := rfl
  function? _ _ := rfl
  invoke _ _ _ := rfl

/-- Keeping a record makes no difference to rendering. -/
theorem renderWithin_recording (registry : Registry) (steps : Nat) (result : TypedResult)
    (e : SessionEngine) (r : Record) :
    ∃ r', Registry.renderWithin recordingHost registry steps result (e, r) =
      ((Registry.renderWithin host registry steps result e).1,
        (Registry.renderWithin host registry steps result e).2, r') := by
  have hsame := recordingHost_extends.renderWithin registry steps result (e, r)
  rcases hrecording : Registry.renderWithin recordingHost registry steps result (e, r) with
    ⟨shown, e', r'⟩
  rw [hrecording] at hsame
  refine ⟨r', ?_⟩
  rw [← hsame]
  rfl

/-! ### Rendering in a session -/

/-- An engine with its record, later in the session of `e`: it has all functions of `e`. -/
structure Later (config : Config) (e : SessionEngine) (s : SessionEngine × Record) : Prop where
  reached : Reached config s.1 s.2
  grows : ∀ f, e.Owns f → Owns s.1 f

variable {config : Config} {e : SessionEngine} {r : Record}

theorem Reached.later (h : Reached config e r) : Later config e (e, r) := ⟨h, fun _ hf => hf⟩

/-- An engine later in the session, in which the constants and globals that there were are the same. Functions
that were known can be called as before. -/
structure Onward (config : Config) (e : SessionEngine) (s : SessionEngine × Record) : Prop extends
    Later config e s where
  store : e.evaluator.Grows s.1.evaluator

theorem Reached.onward {s : SessionEngine × Record} (h : Reached config s.1 s.2)
    (hstore : e.evaluator.Grows s.1.evaluator) : Onward config e s :=
  ⟨⟨h, fun _ hf => hstore.mem_constants hf⟩, hstore⟩

theorem Onward.refl (h : Reached config e r) : Onward config e (e, r) := Reached.onward h (.refl _)

theorem Onward.trans {s s' : SessionEngine × Record} (h : Onward config e s)
    (h' : Onward config s.1 s') : Onward config e s' :=
  Reached.onward h'.reached (h.store.trans h'.store)

/-- Evaluating a snippet leads on, and its value is made of functions of the session. -/
theorem Reached.observed (h : Reached config e r) {α : Type}
    (observe : SnippetId → SessionEngine → α × SessionEngine)
    (hquiet : ∀ n e₁, (observe n e₁).2 = e₁) (source : String) :
    Onward config e ((Engine.evalObserving parts observe source e).2,
        recorded source e r (Engine.evalObserving parts observe source e).1.result) ∧
      ∀ evaluation, (Engine.evalObserving parts observe source e).1.result = .ok evaluation →
        (evaluation.result.value.getD .null).MadeOf
          (Owns (Engine.evalObserving parts observe source e).2) := by
  obtain ⟨hs, hidle⟩ := h.sound
  have hmoves : Asides e.started (observe e.compiler.nextSnippet e.started).2 [] := by
    rw [hquiet]
    exact .refl
  have hreached := h.evaluated observe source hmoves
  have hnothing : r.drain [] = r := by simp [Record.drain]
  rw [hnothing] at hreached
  obtain ⟨hgrows, hvalue⟩ := hs.evaluated_owns observe hidle source hmoves
  exact ⟨Reached.onward hreached hgrows, hvalue⟩

theorem Reached.eval (h : Reached config e r) (source : String) :
    Onward config e ((Engine.eval parts source e).2,
        recorded source e r (Engine.eval parts source e).1) ∧
      ∀ evaluation, (Engine.eval parts source e).1 = .ok evaluation →
        (evaluation.result.value.getD .null).MadeOf (Owns (Engine.eval parts source e).2) :=
  h.observed (fun _ e => ((), e)) (fun _ _ => rfl) source

/-- Calling a function of the session changes nothing, and the result is made of such functions. -/
theorem Reached.call (h : Reached config e r) {f : Value} {args : List Value}
    (hf : f.MadeOf e.Owns) (hargs : ∀ v ∈ args, v.MadeOf e.Owns) :
    (SessionEngine.call f args e).2 = e ∧
      ∀ v, (SessionEngine.call f args e).1 = .ok v → v.MadeOf e.Owns := by
  obtain ⟨hs, -⟩ := h.sound
  obtain ⟨hsame, hvalue⟩ := hs.linked.call (hs.known hf) fun v hv => hs.known (hargs v hv)
  constructor
  · unfold SessionEngine.call
    simp only [hsame]
  · intro v hv
    exact hs.owned (hvalue v hv)

/-- The services of a session lead onward from `e`. So whatever renderers do, in whichever order, the session
gets to a state that it could have got to anyway. -/
theorem Reached.keeps (config : Config) (e : SessionEngine) :
    recordingHost.Keeps (fun s => Owns s.1) (Onward config e) where
  execute s source hs := by
    obtain ⟨hlater, hvalue⟩ := hs.reached.eval source
    refine ⟨⟨hs.trans hlater, hlater.grows⟩, ?_⟩
    intro v hv
    obtain ⟨evaluation, heval, hvalue'⟩ : ∃ evaluation,
        (Engine.eval parts source s.1).1 = .ok evaluation ∧ evaluation.result.value = v := by
      have hanswer : (Engine.eval parts source s.1).1.map (·.result.value) = .ok v := hv
      cases heval : (Engine.eval parts source s.1).1 with
      | error error =>
        rw [heval] at hanswer
        cases hanswer
      | ok evaluation =>
        rw [heval] at hanswer
        exact ⟨evaluation, rfl, Except.ok.inj hanswer⟩
    rw [← hvalue']
    exact hvalue evaluation heval
  call s f args hs hf hargs := by
    obtain ⟨hsame, hvalue⟩ := hs.reached.call hf hargs
    have hcalled : recordingHost.call f args s =
      ((SessionEngine.call f args s.1).1.mapError SessionError.ofRun,
        (SessionEngine.call f args s.1).2, s.2) := rfl
    rw [hcalled, hsame]
    exact .mapError ⟨.refl hs, hvalue⟩ SessionError.ofRun
  refresh s hs := by
    obtain ⟨hsound, -⟩ := hs.reached.sound
    have hrefresh : recordingHost.refresh s = s := by
      show (Engine.refresh parts s.1, s.2) = s
      rw [hsound.refresh]
    rw [hrefresh]
    exact .refl hs
  function? s name entry hs hentry := by
    obtain ⟨hsound, -⟩ := hs.reached.sound
    have hname : (Context.ofStore s.1.evaluator).function? name = some entry := by
      rw [← hsound.context]
      exact hentry
    refine Context.madeOf_function? ?_ hname
    intro w hw
    exact hsound.owned (hsound.linked.globals w hw)
  invoke s entry args hs hentry hargs := by
    obtain ⟨hsame, hvalue⟩ := hs.reached.call hentry hargs
    have hcalled : recordingHost.invoke entry args s =
      ((SessionEngine.call entry.value args s.1).1,
        (SessionEngine.call entry.value args s.1).2, s.2) := rfl
    rw [hcalled, hsame]
    exact ⟨.refl hs, hvalue⟩

/-- Rendering leads on, if every renderer is honest. -/
theorem Reached.rendered {registry : Registry} (h : Reached config e r)
    (hhonest : ∀ registered ∈ registry.renderers, registered.renderer.Honest e.Owns) (steps : Nat)
    {result : TypedResult} (hresult : (result.value.getD .null).MadeOf e.Owns) :
    Onward config e (Registry.renderWithin recordingHost registry steps result (e, r)).2 :=
  (Reached.keeps config e).renderWithin steps (.refl h) hhonest hresult

end SessionEngine

end Notebook
