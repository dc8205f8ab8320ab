import Notebook.Proofs.Engine.NameMeaning
import Notebook.Proofs.Session.ReachedSessions
import Notebook.Proofs.Store.RunAtomicity

/-!
What the context of a session shows, at every moment.

A `Chronicle` has the units of the snippets that ran to their end, in order, and the engines of the session
at all its moments: after each evaluation and, while a result is shown, after everything that a renderer has
the session do. Nothing that a chronicle says is read from a store or a context.

* `Declared.get?_bindings`, `get?_bindings_of_undeclared`: a name is bound as the latest of its declarations
  says, and a name that was not declared is not bound.
* `SessionEngine.Mirrors`: what the context has to show of some units.
* `SessionEngine.Reached.mirrors`: the context shows the units that the names are bound by.
* `SessionEngine.Told.evaluated`, `SessionEngine.Telling.keeps`: an evaluation binds the names of its unit if
  it succeeds, and whatever else renderers do changes nothing.
* `Session.Chronicled.context_mirrors`: so at every moment of a session the context shows the units that ran
  until then.
-/

namespace Notebook

/-! ### The latest declaration -/

/-- The names as units bind them, one after the other. -/
def bindingsOf (units : List CompiledUnit) : NameTable Binding :=
  units.foldl (fun t u => Store.bind u.snippet u.declarations t) {}

def CompiledUnit.Declares (u : CompiledUnit) (name : String) : Prop := ∃ d ∈ u.declarations, d.name = name

/-- The last of some units that declares a name, and its last declaration of the name. This is what the name
stands for, by the language's rule that the latest declaration counts. -/
structure Declared (units : List CompiledUnit) (name : String) (u : CompiledUnit) (d : Declaration) :
    Prop where
  unit : ∃ before after, units = before ++ u :: after ∧ ∀ later ∈ after, ¬ later.Declares name
  declaration : ∃ before after, u.declarations = before ++ d :: after ∧
    ∀ later ∈ after, later.name ≠ name
  name : d.name = name

section

variable {units : List CompiledUnit} {name : String} {u : CompiledUnit} {d : Declaration}

/-- A name that some unit declares has a latest declaration. -/
theorem exists_declared (h : ∃ u ∈ units, u.Declares name) : ∃ u d, Declared units name u d := by
  obtain ⟨before, u, after, hunits, hdeclares, hafter⟩ := exists_last h
  obtain ⟨earlier, d, later, hdeclarations, hname, hlater⟩ := exists_last hdeclares
  exact ⟨u, d, ⟨before, after, hunits, hafter⟩, ⟨earlier, later, hdeclarations, hlater⟩, hname⟩

theorem bindingsOf_append (before after : List CompiledUnit) :
    bindingsOf (before ++ after) =
      after.foldl (fun t u => Store.bind u.snippet u.declarations t) (bindingsOf before) :=
  List.foldl_append

/-- Units that do not declare a name leave it bound as it was. -/
theorem get?_foldl_of_undeclared (h : ∀ u ∈ units, ¬ u.Declares name) (t : NameTable Binding) :
    (units.foldl (fun t u => Store.bind u.snippet u.declarations t) t).get? name = t.get? name := by
  induction units generalizing t with
  | nil => rfl
  | cons u rest ih =>
    obtain ⟨hu, hrest⟩ := List.forall_mem_cons.mp h
    exact (ih hrest _).trans (Store.get?_bind_of_notMem fun d hd hname => hu ⟨d, hd, hname⟩)

theorem get?_bindings_of_undeclared (h : ∀ u ∈ units, ¬ u.Declares name) :
    (bindingsOf units).get? name = none :=
  get?_foldl_of_undeclared h {}

/-- A name is bound as the latest of its declarations says. -/
theorem Declared.get?_bindings (h : Declared units name u d) :
    (bindingsOf units).get? name = some ⟨d.index, u.snippet⟩ := by
  obtain ⟨⟨before, after, rfl, hafter⟩, ⟨earlier, later, hdeclarations, hlater⟩, rfl⟩ := h
  rw [bindingsOf_append, List.foldl_cons, get?_foldl_of_undeclared hafter, hdeclarations]
  exact Store.get?_bind_of_last earlier hlater

end

/-! ### The names of a context -/

theorem NameTable.mem_names_iff {α : Type} {t : NameTable α} {name : String} :
    name ∈ t.names ↔ ∃ v, t.get? name = some v := by
  constructor
  · intro hmem
    cases hget : t.get? name with
    | none => exact absurd hmem (notMem_names_of_get? hget)
    | some v => exact ⟨v, rfl⟩
  · rintro ⟨v, hget⟩
    exact List.mem_map_of_mem (mem_of_get? hget)

namespace Context

def names (c : Context) : List String := c.functions.names ++ c.values.names

theorem nodup_foldl (s : Store) : ∀ (bindings : List (String × Binding)) (c : Context),
    c.functions.names.Nodup ∧ c.values.names.Nodup →
      let c' := bindings.foldl (fun c entry => c.add entry.1 (entryOf s entry.2)) c
      c'.functions.names.Nodup ∧ c'.values.names.Nodup := by
  intro bindings
  induction bindings with
  | nil => exact fun c h => h
  | cons binding rest ih =>
    intro c h
    refine ih _ ?_
    show (c.add _ _).functions.names.Nodup ∧ (c.add _ _).values.names.Nodup
    unfold add
    split
    · exact ⟨NameTable.nodup_insert h.1 _ _, h.2⟩
    · exact ⟨h.1, NameTable.nodup_insert h.2 _ _⟩

section

variable {s : Store} {name : String} (hnodup : s.bindings.names.Nodup)
include hnodup

theorem lookup_of_bound {b : Binding} (h : s.bindings.get? name = some b) :
    (ofStore s).lookup name = found (entryOf s b) := by
  rw [lookup_ofStore hnodup, h]

theorem lookup_of_unbound (h : s.bindings.get? name = none) : (ofStore s).lookup name = (none, none) := by
  rw [lookup_ofStore hnodup, h]

/-- The context of a store has each name once. -/
theorem nodup_ofStore : (ofStore s).names.Nodup := by
  obtain ⟨hfunctions, hvalues⟩ := nodup_foldl s s.bindings.entries {} ⟨List.nodup_nil, List.nodup_nil⟩
  refine List.Nodup.append hfunctions hvalues ?_
  intro name hfunction hvalue
  obtain ⟨f, hf⟩ := NameTable.mem_names_iff.mp hfunction
  obtain ⟨v, hv⟩ := NameTable.mem_names_iff.mp hvalue
  have hboth : (ofStore s).lookup name = (some f, some v) := Prod.ext hf hv
  cases hbound : s.bindings.get? name with
  | none =>
    rw [lookup_of_unbound hnodup hbound] at hboth
    cases hboth
  | some b =>
    rw [lookup_of_bound hnodup hbound] at hboth
    unfold found at hboth
    split at hboth <;> cases hboth

/-- The context of a store has the names that are bound. -/
theorem mem_names_ofStore : name ∈ (ofStore s).names ↔ ∃ b, s.bindings.get? name = some b := by
  have hlookup : ∀ entries, (ofStore s).lookup name = entries →
      (ofStore s).functions.get? name = entries.1 ∧ (ofStore s).values.get? name = entries.2 :=
    fun entries h => Prod.ext_iff.mp h
  unfold names
  rw [List.mem_append, NameTable.mem_names_iff, NameTable.mem_names_iff]
  cases hbound : s.bindings.get? name with
  | none =>
    obtain ⟨hfunction, hvalue⟩ := hlookup _ (lookup_of_unbound hnodup hbound)
    rw [hfunction, hvalue]
    simp
  | some b =>
    obtain ⟨hfunction, hvalue⟩ := hlookup _ (lookup_of_bound hnodup hbound)
    rw [hfunction, hvalue]
    unfold found
    split <;> simp

end

end Context

/-! ### What a context is to show -/

namespace SessionEngine

/-- The context shows the names that some units declare, each of them once. Under each name is the value of
the global of its latest declaration, among the functions if this is a function and among the other values if
not, and the number of the last unit that declares the name. -/
structure Mirrors (e : SessionEngine) (units : List CompiledUnit) : Prop where
  names : ∀ name, name ∈ e.context.names ↔ ∃ u ∈ units, u.Declares name
  once : e.context.names.Nodup
  shows : ∀ name u d, Declared units name u d → ∃ v, e.evaluator.globals[d.index]? = some v ∧
    (e.context.functions.get? name, e.context.values.get? name) =
      if v.isCallable then (some ⟨v, u.snippet⟩, none) else (none, some ⟨v, u.snippet⟩)

variable {config : Config} {e e' : SessionEngine} {r : Record} {units : List CompiledUnit}

/-- The context shows the units that the names of the store are bound by. -/
theorem Reached.mirrors (h : Reached config e r) (hbound : e.evaluator.bindings = bindingsOf units) :
    e.Mirrors units := by
  obtain ⟨hs, -⟩ := h.sound
  have hnodup := h.names_nodup
  refine ⟨fun name => ?_, ?_, fun name u d hd => ?_⟩
  · rw [hs.context, Context.mem_names_ofStore hnodup, hbound]
    -- A name that is bound was declared, and a name that was declared is bound as its latest declaration says.
    constructor
    · rintro ⟨b, hb⟩
      by_contra hnot
      have hnone := get?_bindings_of_undeclared fun u hu hdeclares => hnot ⟨u, hu, hdeclares⟩
      rw [hnone] at hb
      cases hb
    · intro hdeclares
      obtain ⟨u, d, hd⟩ := exists_declared hdeclares
      exact ⟨_, hd.get?_bindings⟩
  · rw [hs.context]
    exact Context.nodup_ofStore hnodup
  · have hget := hd.get?_bindings
    rw [← hbound] at hget
    have hresolve : e.compiler.compiler.scope.resolve name = some (.global d.index) := by
      rw [hs.agreement.names, hget]
      rfl
    -- Its slot is there, since the compiler knows the name, too.
    have hvalue := Array.getElem?_eq_getElem (hs.agreement.bound name d.index hresolve)
    refine ⟨_, hvalue, ?_⟩
    have hlookup := Context.lookup_of_bound hnodup hget
    unfold Context.entryOf at hlookup
    rw [hvalue, ← hs.context] at hlookup
    exact hlookup

/-! ### Chronicles -/

/-- The unit that the compiler makes of a text that is evaluated next, if it compiles. The engine does not show
it, so it is computed again. -/
def unitOf (source : String) (e : SessionEngine) : Option CompiledUnit :=
  (e.compiler.nextId.2.compile e.compiler.nextId.1 source).1.1.toOption

end SessionEngine

/-- The units of the snippets that ran to their end, in order, and the engines at the moments so far, each with
the units until then. It is written along with the session, from the answers that evaluations give. -/
structure Chronicle where
  units : List CompiledUnit := []
  moments : List (SessionEngine × List CompiledUnit) := []

namespace Chronicle

def note (e : SessionEngine) (c : Chronicle) : Chronicle :=
  { c with moments := c.moments ++ [(e, c.units)] }

/-- Once a text was evaluated: `e` is the engine before, and `e'` the engine afterwards. -/
def evaluated (source : String) (e : SessionEngine) (result : Except SessionError Evaluation)
    (e' : SessionEngine) (c : Chronicle) : Chronicle :=
  match result with
  | .ok _ => note e' { c with units := c.units ++ (e.unitOf source).toList }
  | .error _ => note e' c

end Chronicle

namespace SessionEngine

/-- The services of a session, with a chronicle kept: a moment passes with each of them. Renderers at work are
served by it, and notice nothing. -/
def chroniclingHost : RenderHost (SessionEngine × Chronicle) where
  execute source s :=
    let (result, e) := Engine.eval parts source s.1
    (result.map (·.result.value), e, s.2.evaluated source s.1 result e)
  call f args s :=
    let (result, e) := host.call f args s.1
    (result, e, s.2.note e)
  refresh s := (host.refresh s.1, s.2.note (host.refresh s.1))
  function? name s := host.function? name s.1
  invoke entry args s :=
    let (result, e) := host.invoke entry args s.1
    (result, e, s.2.note e)

theorem chroniclingHost_extends : chroniclingHost.Extends host Prod.fst where
  execute _ _ := rfl
  call _ _ _ := rfl
  refresh _ := rfl
  function? _ _ := rfl
  invoke _ _ _ := rfl

/-- The chronicle of an engine tells by which units its names are bound, and all moments until then were
mirrored. -/
structure Told (e : SessionEngine) (c : Chronicle) : Prop where
  bound : e.evaluator.bindings = bindingsOf c.units
  moments : ∀ moment ∈ c.moments, moment.1.Mirrors moment.2

variable {config : Config} {e e' : SessionEngine} {r : Record} {c : Chronicle}

theorem Told.note (h : Told e c) (hreached : Reached config e r) : Told e (c.note e) where
  bound := h.bound
  moments moment hmem := by
    rcases List.mem_append.mp hmem with hmem | hmem
    · exact h.moments moment hmem
    · rw [List.mem_singleton.mp hmem]
      exact hreached.mirrors h.bound

/-- An evaluation binds the names of its unit if it succeeds, and no names if it fails. -/
theorem Reached.bindings_of_evaluated (h : Reached config e r) {α : Type}
    (observe : SnippetId → SessionEngine → α × SessionEngine) (hquiet : ∀ n e₁, (observe n e₁).2 = e₁)
    (source : String) :
    (∃ error, (Engine.evalObserving parts observe source e).1.result = .error error ∧
      (Engine.evalObserving parts observe source e).2.evaluator.bindings = e.evaluator.bindings) ∨
    ∃ evaluation u, (Engine.evalObserving parts observe source e).1.result = .ok evaluation ∧
      e.unitOf source = some u ∧
      (Engine.evalObserving parts observe source e).2.evaluator.bindings =
        Store.bind u.snippet u.declarations e.evaluator.bindings := by
  obtain ⟨hs, hidle⟩ := h.sound
  obtain ⟨hresult, hafter⟩ := evalObserving_eq observe hidle source
  rw [hresult, hafter, hquiet]
  rcases evalAs_cases hs.started e.compiler.nextSnippet source with ⟨-, error, files, heval⟩ |
    ⟨evaluation, e₁, p, u, stored, commands, place, heval, hkept⟩
  · rw [heval]
    exact .inl ⟨error, rfl, rfl⟩
  · rw [heval]
    have hcompiles : e.started.compiler.compiler.compile e.compiler.nextSnippet p =
        (.ok u, e₁.compiler.compiler) := hkept.compiles
    have hunit : e.unitOf source = some u := by
      show (e.started.compiler.compile e.compiler.nextSnippet source).1.1.toOption = some u
      unfold IncrementalCompiler.compile Compiler.compileSource
      simp only [hkept.parsed, hcompiles]
      rfl
    exact .inr ⟨evaluation, u, rfl, hunit, Store.bindings_of_finished hkept.ran⟩

theorem Told.evaluated (h : Told e c) (hreached : Reached config e r) {α : Type}
    (observe : SnippetId → SessionEngine → α × SessionEngine) (hquiet : ∀ n e₁, (observe n e₁).2 = e₁)
    (source : String) :
    Told (Engine.evalObserving parts observe source e).2
      (c.evaluated source e (Engine.evalObserving parts observe source e).1.result
        (Engine.evalObserving parts observe source e).2) := by
  have hnext := (hreached.observed observe hquiet source).1.reached
  rcases hreached.bindings_of_evaluated observe hquiet source with ⟨error, hresult, hbound⟩ |
    ⟨evaluation, u, hresult, hunit, hbound⟩
  · rw [hresult]
    exact Told.note ⟨hbound.trans h.bound, h.moments⟩ hnext
  · rw [hresult]
    refine Told.note ⟨?_, h.moments⟩ hnext
    show _ = bindingsOf (c.units ++ (e.unitOf source).toList)
    rw [hbound, h.bound, hunit, bindingsOf_append]
    rfl

/-- An engine later in the session of `e`, with its chronicle. It is what the services of a session keep up
while a result is rendered. -/
def Telling (config : Config) (e : SessionEngine) (s : SessionEngine × Chronicle) : Prop :=
  (∃ r, Onward config e (s.1, r)) ∧ Told s.1 s.2

/-- A moment that passes without a change. -/
theorem Telling.note {s : SessionEngine × Chronicle} (h : Telling config e s) :
    RenderHost.Leads (fun s => Owns s.1) (Telling config e) s (s.1, s.2.note s.1) := by
  obtain ⟨⟨r, honward⟩, htold⟩ := h
  exact ⟨⟨⟨r, honward⟩, htold.note honward.reached⟩, fun _ hf => hf⟩

/-- The services of a session lead onward, and the chronicle goes on telling. -/
theorem Telling.keeps (config : Config) (e : SessionEngine) :
    chroniclingHost.Keeps (fun s => Owns s.1) (Telling config e) where
  execute s source h := by
    obtain ⟨⟨r, honward⟩, htold⟩ := h
    obtain ⟨hleads, hmade⟩ := (Reached.keeps config e).execute (s.1, r) source honward
    have htold' := htold.evaluated honward.reached (fun _ e => ((), e)) (fun _ _ => rfl) source
    exact ⟨⟨⟨⟨_, hleads.holds⟩, htold'⟩, hleads.grows⟩, hmade⟩
  call s f args h hf hargs := by
    obtain ⟨⟨r, honward⟩, -⟩ := id h
    obtain ⟨hsame, hvalue⟩ := honward.reached.call hf hargs
    have hcalled : chroniclingHost.call f args s =
      ((SessionEngine.call f args s.1).1.mapError SessionError.ofRun,
        (SessionEngine.call f args s.1).2, s.2.note (SessionEngine.call f args s.1).2) := rfl
    rw [hcalled, hsame]
    exact .mapError ⟨h.note, hvalue⟩ SessionError.ofRun
  refresh s h := by
    obtain ⟨⟨r, honward⟩, -⟩ := id h
    have hrefresh : chroniclingHost.refresh s = (s.1, s.2.note s.1) := by
      show (Engine.refresh parts s.1, s.2.note (Engine.refresh parts s.1)) = _
      rw [honward.reached.sound.1.refresh]
    rw [hrefresh]
    exact h.note
  function? s name entry h hentry := by
    obtain ⟨⟨r, honward⟩, -⟩ := h
    exact (Reached.keeps config e).function? (s.1, r) name entry honward hentry
  invoke s entry args h hentry hargs := by
    obtain ⟨⟨r, honward⟩, -⟩ := id h
    obtain ⟨hsame, hvalue⟩ := honward.reached.call hentry hargs
    have hcalled : chroniclingHost.invoke entry args s =
      ((SessionEngine.call entry.value args s.1).1,
        (SessionEngine.call entry.value args s.1).2,
        s.2.note (SessionEngine.call entry.value args s.1).2) := rfl
    rw [hcalled, hsame]
    exact ⟨h.note, hvalue⟩

end SessionEngine

/-! ### Sessions -/

namespace Session

open SessionEngine (Telling Told chroniclingHost)

/-- The chronicle once a snippet was evaluated and its result was shown. -/
def chronicleEval (source : String) (s : Session) (c : Chronicle) : Chronicle :=
  let (reply, engine) :=
    Engine.evalObserving SessionEngine.parts (fun id e => (id, e)) source s.engine
  let c := c.evaluated source s.engine reply.result engine
  match reply.result, reply.observed with
  | .ok evaluation, some _ =>
    (s.renderers.renderResult chroniclingHost evaluation.result (engine, c)).2.2
  | _, _ => c

/-- The chronicle once a renderer was registered, or failed to be. -/
def chronicleRegister (renderer : Renderer) (s : Session) (c : Chronicle) : Chronicle :=
  match (s.renderers.prepare renderer).code with
  | none => c
  | some code =>
    c.evaluated code s.engine (Engine.eval SessionEngine.parts code s.engine).1
      (Engine.eval SessionEngine.parts code s.engine).2

/-- The states of sessions, with their chronicles. Renderers that are registered make up no functions. -/
inductive Chronicled (config : Config) : Session → Chronicle → Prop where
  | new : Chronicled config (.new config) {}
  | eval {s : Session} {c : Chronicle} (source : String) :
      Chronicled config s c → Chronicled config (s.eval source).2 (s.chronicleEval source c)
  | executed {s : Session} {c : Chronicle} (source : String) :
      Chronicled config s c →
      Chronicled config { s with engine := (SessionEngine.execute source s.engine).2 }
        (c.evaluated source s.engine (Engine.eval SessionEngine.parts source s.engine).1
          (SessionEngine.execute source s.engine).2)
  | register {s : Session} {c : Chronicle} (renderer : Renderer) :
      Chronicled config s c → renderer.Honest s.engine.Owns →
      Chronicled config (s.register renderer).2 (s.chronicleRegister renderer c)
  | registerPlain {s : Session} {c : Chronicle} (renderer : Renderer) :
      Chronicled config s c → renderer.Honest s.engine.Owns →
      Chronicled config (s.registerPlain renderer) c
  | aside {s : Session} {c : Chronicle} {engine : SessionEngine} {units : List SerializedUnit} :
      Chronicled config s c → s.engine.Aside engine units →
      Chronicled config { s with engine } (c.note engine)

variable {config : Config} {s : Session} {c : Chronicle}

/-- A session with a chronicle has a record, too. -/
theorem Chronicled.reached (h : Chronicled config s c) : ∃ r, Session.Reached config s r := by
  induction h with
  | new => exact ⟨_, .new⟩
  | eval source _ ih =>
    obtain ⟨r, hr⟩ := ih
    exact ⟨_, hr.eval source⟩
  | executed source _ ih =>
    obtain ⟨r, hr⟩ := ih
    exact ⟨_, hr.executed source⟩
  | register renderer _ hhonest ih =>
    obtain ⟨r, hr⟩ := ih
    exact ⟨_, hr.register renderer hhonest⟩
  | registerPlain renderer _ hhonest ih =>
    obtain ⟨r, hr⟩ := ih
    exact ⟨_, hr.registerPlain renderer hhonest⟩
  | aside _ hmove ih =>
    obtain ⟨r, hr⟩ := ih
    exact ⟨_, hr.aside hmove⟩

/-- Evaluating a snippet and showing its result is told, up to the last of its moments. -/
theorem Sound.told_eval {r : Record} (hs : s.Sound config r) (h : Told s.engine c) (source : String) :
    Told (s.eval source).2.engine (s.chronicleEval source c) := by
  obtain ⟨honward, hmade⟩ := hs.engine.observed (fun id e => (id, e)) (fun _ _ => rfl) source
  have htold := h.evaluated hs.engine (fun id e => (id, e)) (fun _ _ => rfl) source
  have hnext := hs.onward honward
  unfold Session.eval chronicleEval
  rcases heval : Engine.evalObserving SessionEngine.parts (fun id e => (id, e)) source s.engine with
    ⟨⟨error | evaluation, observed⟩, engine⟩
  · rw [heval] at htold
    exact htold
  · rw [heval] at htold hnext hmade
    cases observed with
    | none => exact htold
    | some snippet =>
      have hshown : Session.Sound config ⟨engine, s.renderers⟩ _ := hnext.sound
      have htelling : Telling config engine
          (engine, c.evaluated source s.engine (.ok evaluation) engine) :=
        ⟨⟨_, .refl hshown.engine⟩, htold⟩
      have hvalue : (evaluation.result.value.getD .null).MadeOf (SessionEngine.Owns engine) :=
        hmade evaluation rfl
      -- Rendering goes through the services only, and each of them keeps the chronicle telling.
      have hrendered := (Telling.keeps config engine).renderWithin s.renderers.maxSteps
        htelling hshown.honest hvalue
      have hsame := SessionEngine.chroniclingHost_extends.renderWithin s.renderers s.renderers.maxSteps
        evaluation.result (engine, c.evaluated source s.engine (.ok evaluation) engine)
      have hengine := congrArg Prod.snd hsame
      show Told (Registry.renderWithin SessionEngine.host _ _ _ engine).2 _
      rw [← hengine]
      exact hrendered.2

theorem Sound.told_register {r : Record} (hs : s.Sound config r) (h : Told s.engine c) (renderer : Renderer) :
    Told (s.register renderer).2.engine (s.chronicleRegister renderer c) := by
  unfold Session.register chronicleRegister
  cases hcode : (s.renderers.prepare renderer).code with
  | none =>
    simp only [hcode]
    exact h
  | some code =>
    have htold : Told (Engine.eval SessionEngine.parts code s.engine).2
        (c.evaluated code s.engine (Engine.eval SessionEngine.parts code s.engine).1
          (Engine.eval SessionEngine.parts code s.engine).2) :=
      h.evaluated hs.engine (fun _ e => ((), e)) (fun _ _ => rfl) code
    simp only [hcode]
    rcases heval : Engine.eval SessionEngine.parts code s.engine with ⟨error | evaluation, engine⟩
    all_goals
      rw [heval] at htold
      exact htold

/-- What a chronicle tells of a session is so, at every moment of it. By induction on the session, with the
moments that pass while results are shown. -/
theorem Chronicled.told (h : Chronicled config s c) : Told s.engine c := by
  induction h with
  | new => exact ⟨rfl, fun _ hmem => (nomatch hmem)⟩
  | eval source before ih =>
    obtain ⟨r, hr⟩ := before.reached
    exact hr.engine.told_eval ih source
  | executed source before ih =>
    obtain ⟨r, hr⟩ := before.reached
    exact ih.evaluated hr.engine.engine (fun _ e => ((), e)) (fun _ _ => rfl) source
  | register renderer before hhonest ih =>
    obtain ⟨r, hr⟩ := before.reached
    exact hr.engine.told_register ih renderer
  | registerPlain renderer before hhonest ih => exact ih
  | aside before hmove ih =>
    obtain ⟨r, hr⟩ := before.reached
    have hreached := hr.engine.engine
    refine Told.note ?_ (hreached.aside hmove)
    obtain ⟨archive, files, rfl, -⟩ := hmove.eq hreached.sound.1
    exact ⟨ih.bound, ih.moments⟩

/-- At every moment of a session, after each evaluation and after everything that renderers at work have the
session do, whatever failed until then, the context shows the names that the snippets declare which ran to
their end, and no others: each of them once, among the functions or among the other values as its value is,
with the value of the global of its latest declaration, and with the number of the last of these snippets that
declares it. -/
theorem Chronicled.context_mirrors (h : Chronicled config s c) :
    s.engine.Mirrors c.units ∧ ∀ moment ∈ c.moments, moment.1.Mirrors moment.2 := by
  obtain ⟨r, hr⟩ := h.reached
  exact ⟨hr.engine.engine.mirrors h.told.bound, h.told.moments⟩

/-- A snippet declares a name twice, and another one, which does not compile, declares it again. The context
shows the function that the first one bound the name to. -/
theorem mirrors_of_redeclared :
    let source := "let a = 1; let a = len;"
    let e := SessionEngine.new {}
    let e₁ : SessionEngine := (SessionEngine.execute source e).2
    let e₂ : SessionEngine := (SessionEngine.execute "let a = 2; b" e₁).2
    ∃ c, Chronicled {} { Session.new {} with engine := e₂ } c ∧
      c.units.map CompiledUnit.declarations = [[⟨"a", 0⟩, ⟨"a", 1⟩]] ∧
      (∀ name, name ∈ e₂.context.names ↔ name = "a") ∧
      (e₂.context.functions.get? "a", e₂.context.values.get? "a") = (some ⟨.builtin .len, 0⟩, none) := by
  intro source e e₁ e₂
  have hunit : (e.unitOf source).map (fun u => (u.snippet, u.declarations)) =
      some (0, [⟨"a", 0⟩, ⟨"a", 1⟩]) := by decide +kernel
  have hforeseen : ((e.foreseenAfter [] source).map fun e₁ =>
      let failed := Engine.eval SessionEngine.parts "let a = 2; b" e₁
      (failed.1.toOption.isSome, failed.2.evaluator.globals[1]?)) =
      some (false, some (.builtin .len)) := by decide +kernel
  obtain ⟨e₁', hafter, hfailed⟩ := Option.map_eq_some_iff.mp hforeseen
  obtain ⟨evaluation, -, hran, -, -⟩ := SessionEngine.Reached.new.eval_of_foreseenAfter hafter
  obtain rfl : e₁ = e₁' := congrArg Prod.snd hran
  obtain ⟨hrefused, hglobal⟩ := Prod.mk.inj hfailed
  obtain ⟨u, hu, hsame⟩ := Option.map_eq_some_iff.mp hunit
  obtain ⟨hsnippet, hdeclarations⟩ := Prod.mk.inj hsame
  let c₁ : Chronicle :=
    Chronicle.evaluated source e (Engine.eval SessionEngine.parts source e).1 e₁ {}
  let c₂ := c₁.evaluated "let a = 2; b" e₁ (Engine.eval SessionEngine.parts "let a = 2; b" e₁).1 e₂
  have hchronicled : Chronicled {} { Session.new {} with engine := e₂ } c₂ :=
    (Chronicled.new.executed source).executed "let a = 2; b"
  have hfirst : c₁.units = [u] := by
    have hok : (Engine.eval SessionEngine.parts source e).1 = .ok evaluation := congrArg Prod.fst hran
    unfold c₁
    rw [hok]
    show [] ++ (e.unitOf source).toList = [u]
    rw [hu]
    rfl
  have hunits : c₂.units = [u] := by
    rw [← hfirst]
    unfold c₂
    cases hresult : (Engine.eval SessionEngine.parts "let a = 2; b" e₁).1 with
    | error error => rfl
    | ok evaluation =>
      rw [hresult] at hrefused
      cases hrefused
  -- The chronicle has the one unit, so the rest is what it declares.
  obtain ⟨⟨hnames, -, hshows⟩, -⟩ := hchronicled.context_mirrors
  rw [hunits] at hnames hshows
  refine ⟨c₂, hchronicled, ?_, fun name => ?_, ?_⟩
  · rw [hunits, List.map_singleton, hdeclarations]
  · show name ∈ e₂.context.names ↔ _
    rw [hnames name]
    simp [CompiledUnit.Declares, hdeclarations, eq_comm]
  · have hlatest : Declared [u] "a" u ⟨"a", 1⟩ :=
      ⟨⟨[], [], rfl, by simp⟩, ⟨[⟨"a", 0⟩], [], hdeclarations, by simp⟩, rfl⟩
    obtain ⟨v, hv, hentries⟩ := hshows "a" u ⟨"a", 1⟩ hlatest
    obtain rfl : v = .builtin .len := Option.some.inj (hv.symm.trans hglobal)
    rw [hsnippet] at hentries
    exact hentries

end Session

end Notebook
