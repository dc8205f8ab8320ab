import Notebook.Proofs.Renderer.RendererSnippets
import Notebook.Proofs.Session.ReachedSessions

/-!
Renderers that are functions of the session can be called whenever a result is shown.

The registry, the bindings of the store and the context change at different times. `SessionEngine.Serves`
says what an engine has to offer for a number of renderers, and `Session.Served` is a session in which
no text but the snippets for renderers declares a name of theirs.

* `Serves.evaluated`, `Serves.registered`: the functions stay as long as snippets declare none of
  their names, and the snippet for a renderer adds one.
* `Session.Served.callable`: the functions are there in every state of a session and whenever a
  renderer is dispatched, so none is ever found missing.
-/

namespace Notebook

/-- Does a text declare no name of a session's function for a renderer? It may use such names, and a text that
is no program declares none. -/
def SparesMethods (source : String) : Prop :=
  ∀ p, Program.ofSource source = .ok p → ∀ id, methodName id ∉ Program.declared p

def Program.isFunctionLet : Program → Bool
  | [.letIn _ value] => value.isFunction
  | _ => false

theorem Program.eq_of_isFunctionLet {p : Program} (h : p.isFunctionLet = true) :
    ∃ name params body, p = [.letIn name (.function params body)] := by
  unfold isFunctionLet at h
  split at h
  · rename_i name value
    cases value with
    | function params body => exact ⟨name, params, body, rfl⟩
    | _ => cases h
  · cases h

namespace SessionEngine

/-- Does an engine offer functions for renderers, bound by these snippets? The function number `id` is the one
that the snippet `lines[id]` bound. Its context is up to date. -/
structure Serves (lines : List SnippetId) (e : SessionEngine) : Prop where
  names : e.evaluator.bindings.names.Nodup
  context : e.context = .ofStore e.evaluator
  methods : ∀ (id : Nat) (line : SnippetId), lines[id]? = some line →
    ∃ i f, e.evaluator.bindings.get? (methodName id) = some ⟨i, line⟩ ∧
      e.evaluator.globals[i]? = some (.function f)

namespace Serves

variable {config : Config} {e e' : SessionEngine} {r : Record} {lines : List SnippetId}

theorem new (config : Config) : (SessionEngine.new config).Serves [] where
  names := List.nodup_nil
  context := rfl
  methods id line h := by cases h

/-- The functions for renderers are in the context. -/
theorem function? (h : e.Serves lines) {id : Nat} {line : SnippetId} (hline : lines[id]? = some line) :
    ∃ f, e.context.function? (methodName id) = some ⟨.function f, line⟩ := by
  obtain ⟨i, f, hbound, hvalue⟩ := h.methods id line hline
  refine ⟨f, ?_⟩
  rw [h.context]
  exact Context.function?_ofStore h.names hbound hvalue

/-- Only the store and the context matter. -/
theorem congr (h : e.Serves lines) (hstore : e'.evaluator = e.evaluator)
    (hcontext : e'.context = e.context) : e'.Serves lines := by
  refine ⟨?_, ?_, ?_⟩
  · rw [hstore]
    exact h.names
  · rw [hcontext, hstore]
    exact h.context
  · rw [hstore]
    exact h.methods

/-- One function more. -/
theorem snoc (h : e.Serves lines) {line : SnippetId}
    (hnew : ∃ i f, e.evaluator.bindings.get? (methodName lines.length) = some ⟨i, line⟩ ∧
      e.evaluator.globals[i]? = some (.function f)) : e.Serves (lines ++ [line]) := by
  refine ⟨h.names, h.context, ?_⟩
  intro id line' hline
  rcases Nat.lt_trichotomy id lines.length with hlt | rfl | hlt
  · rw [List.getElem?_append_left hlt] at hline
    exact h.methods id line' hline
  · rw [List.getElem?_concat_length] at hline
    cases hline
    exact hnew
  · rw [List.getElem?_eq_none (by rw [List.length_append]; exact hlt)] at hline
    cases hline

/-- A snippet that ran leaves the functions whose names it does not declare. -/
theorem kept {n : SnippetId} {source : String} {value : Option Value} {p : Program}
    {u : CompiledUnit} {stored : SerializedUnit} {commands : List Command} {place : Site}
    (hserves : e.Serves lines) (hs : e.Sound config r)
    (h : Kept r.routines n source value e e' p u stored commands place)
    (hspares : ∀ id < lines.length, methodName id ∉ Program.declared p) : e'.Serves lines := by
  have hbindings := Store.bindings_of_finished h.ran
  refine ⟨?_, ?_, ?_⟩
  · rw [hbindings]
    exact Store.nodup_bind hserves.names
  · rw [h.after]
  · intro id line hline
    obtain ⟨i, f, hbound, hvalue⟩ := hserves.methods id line hline
    obtain ⟨hlt, -⟩ := List.getElem?_eq_some_iff.mp hline
    refine ⟨i, f, ?_, (hs.kept_owns h).1.globals i _ hvalue⟩
    rw [hbindings, Store.get?_bind_of_notMem]
    · exact hbound
    · rintro d hd hname
      have hdeclared := h.compiled.name_mem_declared (congrArg Compiler.declarations hs.inStep.idle)
        hs.inStep.session hs.inStep.valid h.compiles hd
      rw [hname] at hdeclared
      exact hspares id hlt hdeclared

variable {α : Type} (observe : SnippetId → SessionEngine → α × SessionEngine)

/-- A text that declares no name of a function for a renderer leaves these functions. -/
theorem evaluated (hserves : e.Serves lines) (h : Reached config e r)
    (hquiet : ∀ n e₁, (observe n e₁).2 = e₁) {source : String} (hspares : SparesMethods source) :
    Serves lines (Engine.evalObserving parts observe source e).2 := by
  obtain ⟨hs, hidle⟩ := h.sound
  rw [(evalObserving_eq observe hidle source).2, hquiet]
  rcases evalAs_cases hs.started e.compiler.nextSnippet source with ⟨-, error, files, heval⟩ |
    ⟨evaluation, e', p, u, stored, commands, place, heval, hkept⟩
  · rw [heval]
    exact hserves.congr rfl rfl
  · rw [heval]
    have hstarted : e.started.Serves lines := hserves.congr rfl rfl
    exact (hstarted.kept hs.started hkept fun id _ => hspares p hkept.parsed id).congr rfl rfl

/-- The snippet for the next renderer adds its function, if it succeeds. -/
theorem registered (hserves : e.Serves lines) (h : Reached config e r) {body parameter : String}
    (hlet : ∀ p, Program.ofSource (precompiledSource body (methodName lines.length) parameter) = .ok p →
      p.isFunctionLet = true)
    {evaluation : Evaluation}
    (hok : (Engine.eval parts (precompiledSource body (methodName lines.length) parameter) e).1 =
      .ok evaluation) :
    Serves (lines ++ [e.compiler.nextSnippet])
      (Engine.eval parts (precompiledSource body (methodName lines.length) parameter) e).2 := by
  obtain ⟨hs, hidle⟩ := h.sound
  rw [eval_eq hidle] at hok ⊢
  rcases evalAs_cases hs.started e.compiler.nextSnippet
      (precompiledSource body (methodName lines.length) parameter) with ⟨-, error, files, heval⟩ |
    ⟨evaluation, e', p, u, stored, commands, place, heval, hkept⟩
  · rw [heval] at hok
    cases hok
  · rw [heval]
    obtain ⟨name, params, body, rfl⟩ := Program.eq_of_isFunctionLet (hlet p hkept.parsed)
    obtain ⟨value, rest, hname⟩ := Program.name_of_precompiled (isName_methodName _) hkept.parsed
    cases hname
    have hstarted : e.started.Serves lines := hserves.congr rfl rfl
    -- The snippet declares one name, which is none of those before it.
    have hothers : ∀ id < lines.length, methodName id ∉
        Program.declared [.letIn (methodName lines.length) (.function params body)] := by
      intro id hlt hmem
      have hsame := methodName_injective (List.mem_singleton.mp hmem)
      omega
    -- So the functions before it are kept, and its own one is added.
    exact ((hstarted.kept hs.started hkept hothers).snoc (hs.started.defines hkept)).congr rfl rfl

/-- A text that fails leaves the functions. -/
theorem failed (hserves : e.Serves lines) (h : Reached config e r) {source : String}
    {error : SessionError} (herror : (Engine.eval parts source e).1 = .error error) :
    Serves lines (Engine.eval parts source e).2 := by
  obtain ⟨hs, hidle⟩ := h.sound
  rw [eval_eq hidle] at herror ⊢
  rcases evalAs_cases hs.started e.compiler.nextSnippet source with ⟨-, error', files, heval⟩ |
    ⟨evaluation, e', p, u, stored, commands, place, heval, hkept⟩
  · rw [heval]
    exact hserves.congr rfl rfl
  · rw [heval] at herror
    cases herror

end Serves

/-- The services of a session leave the functions for renderers, as long as they evaluate only texts
that declare no name of these functions. -/
theorem Reached.serves_watched (config : Config) (e : SessionEngine) (lines : List SnippetId) :
    host.watched.Keeps (fun s => Owns s.1) fun s =>
      (∃ s', s'.1 = s.1 ∧ Onward config e s') ∧
        RenderHost.Undisturbed SparesMethods (Serves lines) s := by
  refine (recordingHost_extends.keeps (Reached.keeps config e)).watched ?_ ?_ ?_ ?_
  · rintro _ source ⟨s, rfl, hs⟩ hspares hserves
    exact hserves.evaluated (fun _ e => ((), e)) hs.reached (fun _ _ => rfl) hspares
  · rintro _ f args ⟨s, rfl, hs⟩ hf hargs hserves
    have hsame : (host.call f args s.1).2 = (SessionEngine.call f args s.1).2 := rfl
    rw [hsame, (hs.reached.call hf hargs).1]
    exact hserves
  · rintro _ ⟨s, rfl, hs⟩ hserves
    have hsame : host.refresh s.1 = s.1 := hs.reached.sound.1.refresh
    rw [hsame]
    exact hserves
  · rintro _ entry args ⟨s, rfl, hs⟩ hentry hargs hserves
    have hsame : (host.invoke entry args s.1).2 = (SessionEngine.call entry.value args s.1).2 := rfl
    rw [hsame, (hs.reached.call hentry hargs).1]
    exact hserves

end SessionEngine

namespace Session

variable {config : Config} {s : Session} {r : Record} {lines : List SnippetId}

/-- What happens while a text is evaluated and its result is shown. -/
def happenings (source : String) (s : Session) : List (RenderHost.Happening SessionEngine) :=
  let (reply, engine) :=
    Engine.evalObserving SessionEngine.parts (fun id e => (id, e)) source s.engine
  match reply.result, reply.observed with
  | .ok evaluation, some _ =>
    (s.renderers.renderResult SessionEngine.host.watched evaluation.result (engine, [])).2.2
  | _, _ => []

structure Spares (source : String) (s : Session) : Prop where
  text : SparesMethods source
  others : ∀ other, .executed other ∈ s.happenings source → SparesMethods other

/-- The snippets for renderers once one more was registered, or failed to be. A renderer without a function of
its own adds none. -/
def linesAfter (renderer : Renderer) (s : Session) (lines : List SnippetId) : List SnippetId :=
  match (s.renderers.prepare renderer).code with
  | none => lines
  | some code =>
    if (Engine.eval SessionEngine.parts code s.engine).1.isOk then
      lines ++ [s.engine.compiler.nextSnippet]
    else lines

/-- The states of sessions, with the snippets for the renderers that are functions of the session. The
snippet for a renderer, if it is a program at all, is a single `let` of a function literal, and no
other text that is evaluated declares a name of such a function. Renderers make up no functions. -/
inductive Served (config : Config) : Session → List SnippetId → Prop where
  | new : Served config (.new config) []
  | eval {s : Session} {lines : List SnippetId} (source : String) :
      Served config s lines → s.Spares source → Served config (s.eval source).2 lines
  | executed {s : Session} {lines : List SnippetId} (source : String) :
      Served config s lines → SparesMethods source →
      Served config { s with engine := (SessionEngine.execute source s.engine).2 } lines
  | register {s : Session} {lines : List SnippetId} (renderer : Renderer) :
      Served config s lines → renderer.Honest s.engine.Owns →
      (∀ code ∈ (s.renderers.prepare renderer).code, ∀ p, Program.ofSource code = .ok p →
        p.isFunctionLet = true) →
      Served config (s.register renderer).2 (s.linesAfter renderer lines)
  | registerPlain {s : Session} {lines : List SnippetId} (renderer : Renderer) :
      Served config s lines → renderer.Honest s.engine.Owns →
      Served config (s.registerPlain renderer) lines
  | aside {s : Session} {lines : List SnippetId} {engine : SessionEngine}
      {units : List SerializedUnit} :
      Served config s lines → s.engine.Aside engine units → Served config { s with engine } lines

/-- The registry of a session numbers its functions for renderers in order, and the engine offers them. This is
the invariant of `Served`: registering adds one to the numbers and one to the functions, or neither. -/
structure Provides (config : Config) (s : Session) (lines : List SnippetId) : Prop where
  reached : ∃ r, Reached config s r
  serves : s.engine.Serves lines
  counts : s.renderers.Counts
  next : s.renderers.nextMethod = lines.length

/-- Evaluating changes no registrations. -/
theorem renderers_eval (source : String) (s : Session) : (s.eval source).2.renderers = s.renderers := by
  unfold Session.eval
  rcases Engine.evalObserving SessionEngine.parts (fun id e => (id, e)) source s.engine with
    ⟨⟨error | evaluation, observed⟩, engine⟩
  · rfl
  · cases observed <;> rfl

/-- Registering commits the renderer if its snippet succeeds. -/
theorem register_of_ok {renderer : Renderer} {code : String} {evaluation : Evaluation}
    {engine : SessionEngine} (hcode : (s.renderers.prepare renderer).code = some code)
    (heval : Engine.eval SessionEngine.parts code s.engine = (.ok evaluation, engine)) :
    s.register renderer = (.ok (), ⟨engine, s.renderers.commit (s.renderers.prepare renderer)⟩) := by
  unfold Session.register
  simp only [hcode, heval]

/-- Registering fails with the renderer's snippet, and leaves the registry. -/
theorem register_of_error {renderer : Renderer} {code : String} {error : SessionError}
    {engine : SessionEngine} (hcode : (s.renderers.prepare renderer).code = some code)
    (heval : Engine.eval SessionEngine.parts code s.engine = (.error error, engine)) :
    s.register renderer = (.error error, { s with engine }) := by
  unfold Session.register
  simp only [hcode, heval]

/-- Registering commits the renderer, or it fails and changes none. -/
theorem register_cases (renderer : Renderer) (s : Session) :
    ((s.register renderer).1 = .ok () ∧
      (s.register renderer).2.renderers = s.renderers.commit (s.renderers.prepare renderer)) ∨
    ((∃ error, (s.register renderer).1 = .error error) ∧
      (s.register renderer).2.renderers = s.renderers) := by
  cases hcode : (s.renderers.prepare renderer).code with
  | none =>
    unfold Session.register
    simp only [hcode]
    exact .inl ⟨trivial, trivial⟩
  | some code =>
    rcases heval : Engine.eval SessionEngine.parts code s.engine with ⟨error | evaluation, engine⟩
    · rw [register_of_error hcode heval]
      exact .inr ⟨⟨error, rfl⟩, rfl⟩
    · rw [register_of_ok hcode heval]
      exact .inl ⟨rfl, rfl⟩

/-- While a text is evaluated and shown that spares the functions for renderers, they are there
whenever a renderer is dispatched; they are there afterwards, and none was missing. -/
theorem Provides.eval (h : s.Provides config lines) {source : String} (hspares : s.Spares source) :
    (∀ e, .dispatched e ∈ s.happenings source → e.Serves lines) ∧
      (s.eval source).2.engine.Serves lines ∧
      ∀ id, (s.eval source).1 ≠ .error (Registry.undefined id) := by
  obtain ⟨r, hreached⟩ := h.reached
  obtain ⟨hengine, hhonest⟩ := hreached.engine
  obtain ⟨-, hidle⟩ := hengine.sound
  obtain ⟨honward, hmade⟩ := hengine.observed (fun id e => (id, e)) (fun _ _ => rfl) source
  have hserves := h.serves.evaluated (fun id e => (id, e)) hengine (fun _ _ => rfl) hspares.text
  have hobserved : (Engine.evalObserving SessionEngine.parts (fun id e => (id, e)) source
      s.engine).1.observed ≠ none := Engine.observed_of_idle hidle _ source
  have hexecuted := hspares.others
  unfold Session.happenings at hexecuted ⊢
  unfold Session.eval
  -- Nothing is rendered if the text fails, and then nothing is dispatched.
  rcases heval : Engine.evalObserving SessionEngine.parts (fun id e => (id, e)) source s.engine with
    ⟨⟨error | evaluation, observed⟩, engine⟩
  · rw [heval] at hserves
    refine ⟨fun e he => absurd he List.not_mem_nil, hserves, fun id hid => ?_⟩
    have hsnippet := Engine.ofSnippet_of_idle hidle (congrArg (·.1.result) heval)
    rw [Except.error.inj hid] at hsnippet
    cases hsnippet
  · rw [heval] at honward hmade hserves hobserved hexecuted
    cases observed with
    | none => exact absurd rfl hobserved
    | some snippet =>
      simp only at hexecuted ⊢
      have hhonest' : ∀ registered ∈ s.renderers.renderers,
          registered.renderer.Honest (SessionEngine.Owns engine) :=
        fun registered hmem => (hhonest registered hmem).mono honward.grows
      -- Watching the host, every state in which a renderer is dispatched is seen to offer the functions.
      have hundisturbed : RenderHost.Undisturbed SparesMethods (SessionEngine.Serves lines)
          (s.renderers.renderResult SessionEngine.host.watched evaluation.result (engine, [])).2 :=
        ((SessionEngine.Reached.serves_watched config engine lines).renderWithin s.renderers.maxSteps
          ⟨⟨_, rfl, SessionEngine.Onward.refl honward.reached⟩,
            fun _ => ⟨hserves, fun e he => absurd he List.not_mem_nil⟩⟩
          hhonest' (hmade evaluation rfl)).2
      obtain ⟨hafter, hdispatched⟩ := hundisturbed hexecuted
      have hrendered : s.renderers.renderResult SessionEngine.host evaluation.result engine =
          (s.renderers.renderResult SessionEngine.host.watched evaluation.result
            (engine, [])).map id Prod.fst :=
        ((RenderHost.watched_extends SessionEngine.host).renderWithin s.renderers
          s.renderers.maxSteps evaluation.result (engine, [])).symm
      refine ⟨hdispatched, ?_, ?_⟩
      · rw [hrendered]
        exact hafter
      · intro id hid
        rw [hrendered] at hid
        have hmissing : (s.renderers.renderResult SessionEngine.host.watched evaluation.result
            (engine, [])).1 = .error (Registry.undefined id) := by
          cases hshown : (s.renderers.renderResult SessionEngine.host.watched evaluation.result
              (engine, [])).1 with
          | error error =>
            rw [Prod.map_fst, hshown] at hid
            rw [Except.error.inj hid]
          | ok shown =>
            rw [Prod.map_fst, hshown] at hid
            cases hid
        -- A function that was missing would have been missing in one of these states.
        obtain ⟨e, he, registered, hmem, id', hmethod, hnone⟩ :=
          Registry.exists_dispatched_of_undefined s.renderers.maxSteps hmissing
        have hlt : id' < lines.length := by
          have hid' : id' ∈ s.renderers.methods :=
            List.mem_filterMap.mpr ⟨registered, Array.mem_toList_iff.mpr hmem, hmethod⟩
          have hcounts : s.renderers.methods = List.range s.renderers.nextMethod := h.counts
          rw [hcounts, h.next] at hid'
          exact List.mem_range.mp hid'
        obtain ⟨f, hf⟩ := (hdispatched e he).function? (List.getElem?_eq_getElem hlt)
        cases hnone.symm.trans hf

/-- Registering a renderer adds one to both the numbers and the functions, or to neither. The number that it is
given is the one in the name that its snippet declares. -/
theorem Provides.register (h : s.Provides config lines) {renderer : Renderer}
    (hhonest : renderer.Honest s.engine.Owns)
    (hlet : ∀ code ∈ (s.renderers.prepare renderer).code, ∀ p, Program.ofSource code = .ok p →
      p.isFunctionLet = true) :
    (s.register renderer).2.Provides config (s.linesAfter renderer lines) := by
  obtain ⟨r, hreached⟩ := h.reached
  have hreached' : ∃ r, Reached config (s.register renderer).2 r :=
    ⟨_, hreached.register renderer hhonest⟩
  have hcounts : (s.renderers.commit (s.renderers.prepare renderer)).Counts := h.counts.register
  cases renderer with
  | inline accepts render => exact ⟨hreached', h.serves, hcounts, h.next⟩
  | code accepts body =>
    have hcode : (s.renderers.prepare (.code accepts body)).code = some (precompiledSource body
        (methodName lines.length) methodParameter) := by
      rw [← h.next]
      rfl
    have hlines : s.linesAfter (.code accepts body) lines =
        if (Engine.eval SessionEngine.parts (precompiledSource body (methodName lines.length)
          methodParameter) s.engine).1.isOk then lines ++ [s.engine.compiler.nextSnippet]
        else lines := by
      rw [← h.next]
      rfl
    obtain ⟨hengine, -⟩ := hreached.engine
    rw [hlines]
    rcases heval : Engine.eval SessionEngine.parts
        (precompiledSource body (methodName lines.length) methodParameter) s.engine with
      ⟨error | evaluation, engine⟩
    · have hserves := h.serves.failed hengine (congrArg (·.1) heval)
      rw [heval] at hserves
      rw [register_of_error hcode heval] at hreached' ⊢
      exact ⟨hreached', hserves, h.counts, h.next⟩
    · have hserves := h.serves.registered hengine (hlet _ hcode) (congrArg (·.1) heval)
      rw [heval] at hserves
      rw [register_of_ok hcode heval] at hreached' ⊢
      refine ⟨hreached', hserves, hcounts, ?_⟩
      show s.renderers.nextMethod + 1 = (lines ++ [s.engine.compiler.nextSnippet]).length
      rw [List.length_append, h.next]
      rfl

theorem Served.provides (h : Served config s lines) : s.Provides config lines := by
  induction h with
  | new => exact ⟨⟨_, .new⟩, .new config, rfl, rfl⟩
  | @eval s lines source _ hspares ih =>
    obtain ⟨-, hserves, -⟩ := ih.eval hspares
    obtain ⟨r, hreached⟩ := ih.reached
    refine ⟨⟨_, hreached.eval source⟩, hserves, ?_, ?_⟩
    · rw [renderers_eval]
      exact ih.counts
    · rw [renderers_eval]
      exact ih.next
  | executed source _ hspares ih =>
    obtain ⟨r, hreached⟩ := ih.reached
    have hserves := ih.serves.evaluated (fun _ e => ((), e)) hreached.engine.engine (fun _ _ => rfl)
      hspares
    exact ⟨⟨_, hreached.executed source⟩, hserves, ih.counts, ih.next⟩
  | register renderer _ hhonest hlet ih => exact ih.register hhonest hlet
  | registerPlain renderer _ hhonest ih =>
    obtain ⟨r, hreached⟩ := ih.reached
    exact ⟨⟨_, hreached.registerPlain renderer hhonest⟩, ih.serves, ih.counts.registerPlain, ih.next⟩
  | aside _ hmove ih =>
    obtain ⟨r, hreached⟩ := ih.reached
    obtain ⟨archive, files, rfl, -⟩ := hmove.eq hreached.engine.engine.sound.1
    exact ⟨⟨_, hreached.aside hmove⟩, ih.serves.congr rfl rfl, ih.counts, ih.next⟩

/-- In every state of such a session the functions for renderers have the first numbers in order, each
is in the context with the snippet that defined it, and a registration that fails leaves the registry
as it is. While a text is evaluated and shown that declares no name of theirs, nor do the texts that
renderers evaluate, the functions are in the context whenever a renderer is dispatched, and none is
found missing. -/
theorem Served.callable (h : Served config s lines) :
    s.renderers.methods = List.range lines.length ∧ s.renderers.nextMethod = lines.length ∧
      (∀ (id : Nat) (line : SnippetId), lines[id]? = some line →
        ∃ f, s.context.function? (methodName id) = some ⟨.function f, line⟩) ∧
      (∀ (renderer : Renderer) (error : SessionError), (s.register renderer).1 = .error error →
        (s.register renderer).2.renderers = s.renderers) ∧
      ∀ source, s.Spares source →
        (∀ e, .dispatched e ∈ s.happenings source → ∀ (id : Nat) (line : SnippetId),
          lines[id]? = some line →
            ∃ f, e.context.function? (methodName id) = some ⟨.function f, line⟩) ∧
        ∀ id, (s.eval source).1 ≠ .error (Registry.undefined id) := by
  have hprovides := h.provides
  have hmethods : s.renderers.methods = List.range s.renderers.nextMethod := hprovides.counts
  rw [hprovides.next] at hmethods
  refine ⟨hmethods, hprovides.next, fun id line => hprovides.serves.function?, ?_, ?_⟩
  · intro renderer error herror
    rcases register_cases renderer s with ⟨hok, -⟩ | ⟨-, hsame⟩
    · cases hok.symm.trans herror
    · exact hsame
  · intro source hspares
    obtain ⟨hdispatched, -, hdefined⟩ := hprovides.eval hspares
    exact ⟨fun e he id line => (hdispatched e he).function?, hdefined⟩

/-- Where all renderers are functions of the session, nothing else is evaluated while a result is
shown. -/
theorem spares_of_methods (h : ∀ registered ∈ s.renderers.renderers, registered.method ≠ none)
    {source : String} (hsource : SparesMethods source) : s.Spares source := by
  refine ⟨hsource, ?_⟩
  intro other hmem
  unfold happenings at hmem
  rcases heval : Engine.evalObserving SessionEngine.parts (fun id e => (id, e)) source s.engine with
    ⟨⟨error | evaluation, observed⟩, engine⟩
  · rw [heval] at hmem
    cases hmem
  · rw [heval] at hmem
    cases observed with
    | none => cases hmem
    | some snippet => cases Registry.executed_of_renderWithin h _ hmem

/-- A renderer for integers, which answers with a text that nothing is registered for. -/
theorem registered_callable :
    let renderer : Renderer := .code (.anyOf [.int]) "\"n\""
    let s := ((Session.new {}).register renderer).2
    s.renderers.methods = [0] ∧
      (∃ f, s.context.function? "___renderResult0" = some ⟨.function f, 0⟩) ∧
      s.Spares "41" ∧ ∀ id, (s.eval "41").1 ≠ .error (Registry.undefined id) := by
  intro renderer s
  let code := precompiledSource "\"n\"" (methodName 0) methodParameter
  have hlet : ∀ code' ∈ some code, ∀ p, Program.ofSource code' = .ok p →
      p.isFunctionLet = true := by
    rintro _ ⟨⟩ p hp
    have hparses : (Program.ofSource code).toOption.map Program.isFunctionLet = some true := by
      decide +kernel
    rw [hp] at hparses
    exact Option.some.inj hparses
  have hserved : Served {} s ((Session.new {}).linesAfter renderer []) :=
    .register renderer .new trivial hlet
  -- The snippet for the renderer succeeds.
  have hforeseen : (SessionEngine.new {}).started.foreseen [] 0 code = some none := by
    decide +kernel
  obtain ⟨evaluation, hresult, -⟩ := (SessionEngine.Sound.new {}).ok_of_foreseen
    (fun _ e => ((), e)) rfl (fun _ _ => rfl) hforeseen
  have heval : (Engine.eval SessionEngine.parts code (SessionEngine.new {})).1 = .ok evaluation :=
    hresult
  have hlines : (Session.new {}).linesAfter renderer [] = [0] := by
    show (if (Engine.eval SessionEngine.parts code (SessionEngine.new {})).1.isOk then [0] else []) = _
    rw [heval]
    rfl
  have hregistered : ((Session.new {}).register renderer).1 = .ok () := by
    rcases hboth : Engine.eval SessionEngine.parts code (SessionEngine.new {}) with ⟨result, engine⟩
    rw [hboth] at heval
    obtain rfl : result = .ok evaluation := heval
    have hcode : ((Session.new {}).renderers.prepare renderer).code = some code := rfl
    rw [register_of_ok hcode hboth]
  -- From here on it is an instance of the general statement.
  rw [hlines] at hserved
  obtain ⟨hmethods, -, hcontext, -, heval⟩ := hserved.callable
  have hspares : s.Spares "41" := by
    refine spares_of_methods ?_ ?_
    · have hcommitted : s.renderers = Registry.commit ⟨⟨renderer, some 0⟩, some code⟩
          (Session.new {}).renderers := by
        rcases register_cases renderer (Session.new {}) with ⟨-, hcommitted⟩ | ⟨⟨error, herror⟩, -⟩
        · exact hcommitted
        · cases hregistered.symm.trans herror
      intro registered hmem
      rw [hcommitted] at hmem
      obtain rfl : registered = ⟨renderer, some 0⟩ :=
        List.mem_singleton.mp (Array.mem_toList_iff.mpr hmem)
      exact Option.some_ne_none 0
    · intro p hp id
      have hdeclared : (Program.ofSource "41").toOption.map Program.declared = some [] := by
        decide +kernel
      rw [hp] at hdeclared
      rw [Option.some.inj hdeclared]
      exact List.not_mem_nil
  exact ⟨hmethods, hcontext 0 0 rfl, hspares, (heval "41" hspares).2⟩

end Session

end Notebook
