import Notebook.Proofs.Semantics.FunctionsInValues
import Notebook.Renderer.Registry

/-!
Rendering with any host.

A renderer is honest if it makes up no functions: every function that it passes on was known before
or came with an answer (`Script.Honest`). Renderers written in the snippet language are honest
(`bodyScript_honest`).

* `RenderHost.Keeps.renderWithin`: what the services of a host keep true of its state, rendering with
  honest renderers does.
* `RenderHost.Extends.renderWithin`: a host that keeps more in its state than another one, and
  otherwise does what that one does, renders to the same.
* `RenderHost.watched`: a host that notes what happens in its state.
  `Registry.exists_dispatched_of_undefined` says what it has noted if a renderer's function was
  missing.
-/

namespace Notebook

/-! ### Honest renderers -/

/-- Does a script make up no functions? Those that it calls, passes on or ends with are known ones, or came with
the answers that it got. A script is written in another language than snippets are, and could otherwise build
any code it likes. -/
def Script.Honest : Script → (FunctionCode → Prop) → Prop
  | .done result, known => (result.value.getD .null).MadeOf known
  | .fail _, _ => True
  | .execute _ next, known =>
    ∀ answer, (next answer).Honest fun f =>
      known f ∨ ∃ v, answer = .ok (some v) ∧ f ∈ v.functions
  | .call f args next, known =>
    f.MadeOf known ∧ (∀ v ∈ args, v.MadeOf known) ∧
      ∀ answer, (next answer).Honest fun f => known f ∨ ∃ v, answer = .ok v ∧ f ∈ v.functions

/-- Does a renderer make up no functions? It may use those of the result that it renders. -/
def Renderer.Honest (known : FunctionCode → Prop) : Renderer → Prop
  | .code _ _ => True
  | .inline _ render =>
    ∀ result, (render result).Honest fun f => known f ∨ f ∈ (result.value.getD .null).functions

section

variable {known known' : FunctionCode → Prop}

theorem Script.Honest.mono {script : Script} (h : script.Honest known)
    (hsub : ∀ f, known f → known' f) : script.Honest known' := by
  induction script generalizing known known' with
  | done result => exact Value.MadeOf.mono hsub h
  | fail cause => trivial
  | execute source next ih =>
    intro answer
    refine ih answer (h answer) ?_
    intro f hf
    exact hf.imp_left (hsub f)
  | call f args next ih =>
    obtain ⟨hf, hargs, hnext⟩ := h
    refine ⟨hf.mono hsub, fun v hv => (hargs v hv).mono hsub, ?_⟩
    intro answer
    refine ih answer (hnext answer) ?_
    intro f hf
    exact hf.imp_left (hsub f)

theorem Renderer.Honest.mono {renderer : Renderer} (h : renderer.Honest known)
    (hsub : ∀ f, known f → known' f) : renderer.Honest known' := by
  cases renderer with
  | code accepts body => trivial
  | inline accepts render =>
    intro result
    refine (h result).mono ?_
    intro f hf
    exact hf.imp_left (hsub f)

/-- What a body in the snippet language does for a value is honest. -/
theorem bodyScript_honest (body : String) {result : TypedResult}
    (hresult : (result.value.getD .null).MadeOf known) : (bodyScript body result).Honest known := by
  intro answer
  cases answer with
  | error error => trivial
  | ok value =>
    cases value with
    | none => trivial
    | some f =>
      refine ⟨fun g hg => .inr ⟨f, rfl, hg⟩, fun v hv => ?_, fun answer => ?_⟩
      · obtain rfl := List.mem_singleton.mp hv
        exact hresult.mono fun g hg => .inl hg
      · cases answer with
        | error error => trivial
        | ok v => exact fun g hg => .inr ⟨v, rfl, hg⟩

theorem Renderer.Honest.script {renderer : Renderer} (h : renderer.Honest known)
    {result : TypedResult} (hresult : (result.value.getD .null).MadeOf known) :
    (renderer.script result).Honest known := by
  cases renderer with
  | code accepts body => exact bodyScript_honest body hresult
  | inline accepts render =>
    refine (h result).mono ?_
    intro f hf
    rcases hf with hf | hf
    · exact hf
    · exact hresult f hf

end

namespace RenderHost

variable {σ σ' : Type}

/-! ### What a host keeps -/

/-- From one state of a host to another one: something holds there, and the functions that were known
still are. -/
structure Leads (known : σ → FunctionCode → Prop) (holds : σ → Prop) (s s' : σ) : Prop where
  holds : holds s'
  grows : ∀ f, known s f → known s' f

/-- What comes of a service: a state that it leads to, and an answer, if there is one, that is made of the
functions known there. `value` is what of the answer is a value. -/
structure Yields {ε α : Type} (value : α → Value) (known : σ → FunctionCode → Prop)
    (holds : σ → Prop) (s : σ) (out : Except ε α × σ) : Prop where
  leads : Leads known holds s out.2
  made : ∀ a, out.1 = .ok a → (value a).MadeOf (known out.2)

/-- Do the services of a host keep something true of its state? Given known functions they answer with known
ones. One such property of single services gives one of rendering as a whole. -/
structure Keeps (host : RenderHost σ) (known : σ → FunctionCode → Prop) (holds : σ → Prop) :
    Prop where
  execute : ∀ s source, holds s → Yields (·.getD .null) known holds s (host.execute source s)
  call : ∀ s f args, holds s → f.MadeOf (known s) → (∀ v ∈ args, v.MadeOf (known s)) →
    Yields id known holds s (host.call f args s)
  refresh : ∀ s, holds s → Leads known holds s (host.refresh s)
  function? : ∀ s name entry, holds s → host.function? name s = some entry →
    entry.value.MadeOf (known s)
  invoke : ∀ s entry args, holds s → entry.value.MadeOf (known s) → (∀ v ∈ args, v.MadeOf (known s)) →
    Yields id known holds s (host.invoke entry args s)

section

variable {known : σ → FunctionCode → Prop} {holds : σ → Prop} {s s' : σ} {ε α : Type}
  {value : α → Value}

theorem Leads.refl (h : holds s) : Leads known holds s s := ⟨h, fun _ hf => hf⟩

theorem Leads.trans {s₁ : σ} (h₁ : Leads known holds s s₁) (h₂ : Leads known holds s₁ s') :
    Leads known holds s s' :=
  ⟨h₂.holds, fun f hf => h₂.grows f (h₁.grows f hf)⟩

theorem Yields.of_error (h : Leads known holds s s') (error : ε) :
    Yields value known holds s (.error error, s') :=
  ⟨h, fun a ha => by cases ha⟩

theorem Yields.of_ok {a : α} (h : Leads known holds s s') (hmade : (value a).MadeOf (known s')) :
    Yields value known holds s ((.ok a : Except ε α), s') :=
  ⟨h, fun a' ha => by cases ha; exact hmade⟩

/-- An error may be told in other terms. -/
theorem Yields.mapError {ε' : Type} {answer : Except ε α} (h : Yields value known holds s (answer, s'))
    (tell : ε → ε') : Yields value known holds s (answer.mapError tell, s') := by
  cases answer with
  | error error => exact .of_error h.leads _
  | ok a => exact .of_ok h.leads (h.made a rfl)

theorem Yields.trans {s₁ : σ} {out : Except ε α × σ} (h₁ : Leads known holds s s₁)
    (h₂ : Yields value known holds s₁ out) : Yields value known holds s out :=
  ⟨h₁.trans h₂.leads, h₂.made⟩

end

namespace Keeps

variable {host : RenderHost σ} {known : σ → FunctionCode → Prop} {holds : σ → Prop} {s : σ}

/-- An honest script keeps what its host keeps, and ends with known functions. -/
theorem run (h : host.Keeps known holds) {script : Script} (hs : holds s)
    (hhonest : script.Honest (known s)) :
    Yields (·.value.getD .null) known holds s (script.run host.toHost s) := by
  induction script generalizing s with
  | done result => exact .of_ok (.refl hs) hhonest
  | fail cause => exact .of_error (.refl hs) cause
  | execute source next ih =>
    obtain ⟨hleads, hmade⟩ := h.execute s source hs
    refine .trans hleads (ih _ hleads.holds ?_)
    refine (hhonest _).mono ?_
    rintro f (hf | ⟨v, hanswer, hf⟩)
    · exact hleads.grows f hf
    · exact hmade (some v) hanswer f hf
  | call f args next ih =>
    obtain ⟨hf, hargs, hnext⟩ := hhonest
    obtain ⟨hleads, hmade⟩ := h.call s f args hs hf hargs
    refine .trans hleads (ih _ hleads.holds ?_)
    refine (hnext _).mono ?_
    rintro g (hg | ⟨v, hanswer, hg⟩)
    · exact hleads.grows g hg
    · exact hmade v hanswer g hg

/-- An honest renderer that is applied keeps what its host keeps, and makes of known functions what it makes. -/
theorem applyRenderer (h : host.Keeps known holds) {registered : Registered} {result : TypedResult}
    {v : Value} (hs : holds s) (hhonest : registered.renderer.Honest (known s))
    (hresult : (result.value.getD .null).MadeOf (known s)) (hv : v.MadeOf (known s)) :
    Yields (·.value.getD .null) known holds s
      (Registry.applyRenderer host registered result v s) := by
  have hfresh := h.refresh s hs
  refine .trans hfresh ?_
  unfold Registry.applyRenderer
  -- A renderer inline runs its script. One that is a function of the session is looked up and called.
  cases registered.method with
  | none =>
    have hscript := (hhonest.mono hfresh.grows).script (hresult.mono hfresh.grows)
    obtain ⟨hleads, hmade⟩ := h.run hfresh.holds hscript
    rcases hrun : Script.run host.toHost (registered.renderer.script result) (host.refresh s) with
      ⟨cause | result', s'⟩
    · rw [hrun] at hleads
      simp only [hrun]
      exact .of_error hleads _
    · rw [hrun] at hleads hmade
      simp only [hrun]
      exact .of_ok hleads (hmade result' rfl)
  | some method =>
    cases hfunction : host.function? (methodName method) (host.refresh s) with
    | none =>
      simp only [hfunction]
      exact .of_error (.refl hfresh.holds) _
    | some entry =>
      have hentry := h.function? _ _ entry hfresh.holds hfunction
      have hargs : ∀ w ∈ [v], w.MadeOf (known (host.refresh s)) := by
        intro w hw
        rw [List.mem_singleton.mp hw]
        exact hv.mono hfresh.grows
      obtain ⟨hleads, hmade⟩ := h.invoke _ entry [v] hfresh.holds hentry hargs
      rcases hinvoke : host.invoke entry [v] (host.refresh s) with ⟨error | w, s'⟩
      · rw [hinvoke] at hleads
        simp only [hfunction, hinvoke]
        exact .of_error hleads _
      · rw [hinvoke] at hleads hmade
        simp only [hfunction, hinvoke]
        exact .of_ok hleads (hmade w rfl)

/-- Rendering keeps what the host keeps, if every renderer is honest. What one renderer makes is what the next
one is given, so it has to be made of known functions each time. -/
theorem renderWithin (h : host.Keeps known holds) {registry : Registry} (steps : Nat)
    {result : TypedResult} (hs : holds s)
    (hhonest : ∀ registered ∈ registry.renderers, registered.renderer.Honest (known s))
    (hresult : (result.value.getD .null).MadeOf (known s)) :
    holds (registry.renderWithin host steps result s).2 := by
  -- By induction on the steps that are left. A renderer that is applied leads to a state with more functions,
  -- where the others are still honest.
  induction steps generalizing result s with
  | zero =>
    unfold Registry.renderWithin
    split
    · exact hs
    · exact hs
    · split <;> exact hs
  | succ steps ih =>
    unfold Registry.renderWithin
    split
    · exact hs
    · exact hs
    · split
      · exact hs
      · rename_i v _ hvalue _ registered hfind
        have hv : v.MadeOf (known s) := by
          rw [hvalue] at hresult
          exact hresult
        obtain ⟨hleads, hmade⟩ :=
          h.applyRenderer hs (hhonest registered (Array.mem_of_find?_eq_some hfind)) hresult hv
        rcases happly : Registry.applyRenderer host registered result v s with ⟨error | result', s'⟩
        · rw [happly] at hleads
          exact hleads.holds
        · rw [happly] at hleads hmade
          refine ih hleads.holds ?_ (hmade result' rfl)
          intro registered hmem
          exact (hhonest registered hmem).mono hleads.grows

end Keeps

/-! ### Hosts that keep more in their state -/

/-- Does a host do what another one does, with more in its state? What the other one has of a state is its
`part`. Hosts that keep records or note what happens are such. -/
structure Extends (host' : RenderHost σ') (host : RenderHost σ) (part : σ' → σ) : Prop where
  execute : ∀ source s, (host'.execute source s).map id part = host.execute source (part s)
  call : ∀ f args s, (host'.call f args s).map id part = host.call f args (part s)
  refresh : ∀ s, part (host'.refresh s) = host.refresh (part s)
  function? : ∀ name s, host'.function? name s = host.function? name (part s)
  invoke : ∀ entry args s, (host'.invoke entry args s).map id part = host.invoke entry args (part s)

namespace Extends

variable {host' : RenderHost σ'} {host : RenderHost σ} {part : σ' → σ}

theorem run (h : host'.Extends host part) (script : Script) (s : σ') :
    (script.run host'.toHost s).map id part = script.run host.toHost (part s) := by
  induction script generalizing s with
  | done result => rfl
  | fail cause => rfl
  | execute source next ih =>
    simp only [Script.run, ← h.execute, Prod.map, id_eq]
    exact ih _ _
  | call f args next ih =>
    simp only [Script.run, ← h.call, Prod.map, id_eq]
    exact ih _ _

theorem applyRenderer (h : host'.Extends host part) (registered : Registered) (result : TypedResult)
    (v : Value) (s : σ') :
    (Registry.applyRenderer host' registered result v s).map id part =
      Registry.applyRenderer host registered result v (part s) := by
  unfold Registry.applyRenderer
  rw [← h.refresh]
  cases registered.method with
  | none =>
    simp only [← h.run]
    rcases Script.run host'.toHost (registered.renderer.script result) (host'.refresh s) with
      ⟨cause | result', s'⟩ <;> rfl
  | some method =>
    simp only [← h.function?]
    cases host'.function? (methodName method) (host'.refresh s) with
    | none => rfl
    | some entry =>
      simp only [← h.invoke]
      rcases host'.invoke entry [v] (host'.refresh s) with ⟨error | w, s'⟩ <;> rfl

/-- A host that keeps more in its state renders to the same. -/
theorem renderWithin (h : host'.Extends host part) (registry : Registry) (steps : Nat)
    (result : TypedResult) (s : σ') :
    (registry.renderWithin host' steps result s).map id part =
      registry.renderWithin host steps result (part s) := by
  induction steps generalizing result s with
  | zero =>
    unfold Registry.renderWithin
    split
    · rfl
    · rfl
    · split <;> rfl
  | succ steps ih =>
    unfold Registry.renderWithin
    split
    · rfl
    · rfl
    · split
      · rfl
      · simp only [← h.applyRenderer]
        rename_i v _ _ _ registered _
        rcases Registry.applyRenderer host' registered result v s with ⟨error | result', s'⟩
        · rfl
        · exact ih result' s'

/-- What a host that keeps more in its state keeps true, the other one keeps true of its part. -/
theorem keeps (h : host'.Extends host part) {known : σ → FunctionCode → Prop} {holds : σ' → Prop}
    (hkeeps : host'.Keeps (fun s => known (part s)) holds) :
    host.Keeps known fun s => ∃ s', part s' = s ∧ holds s' := by
  have hleads : ∀ {s s₁ : σ'}, Leads (fun s => known (part s)) holds s s₁ →
      Leads known (fun s => ∃ s', part s' = s ∧ holds s') (part s) (part s₁) :=
    fun hs => ⟨⟨_, rfl, hs.holds⟩, hs.grows⟩
  have hyields : ∀ {ε α : Type} {value : α → Value} {s : σ'} {out : Except ε α × σ'},
      Yields value (fun s => known (part s)) holds s out →
      Yields value known (fun s => ∃ s', part s' = s ∧ holds s') (part s) (out.map id part) :=
    fun hs => ⟨hleads hs.leads, hs.made⟩
  refine ⟨?_, ?_, ?_, ?_, ?_⟩
  · rintro _ source ⟨s, rfl, hs⟩
    rw [← h.execute]
    exact hyields (hkeeps.execute s source hs)
  · rintro _ f args ⟨s, rfl, hs⟩ hf hargs
    rw [← h.call]
    exact hyields (hkeeps.call s f args hs hf hargs)
  · rintro _ ⟨s, rfl, hs⟩
    rw [← h.refresh]
    exact hleads (hkeeps.refresh s hs)
  · rintro _ name entry ⟨s, rfl, hs⟩ hentry
    rw [← h.function?] at hentry
    exact hkeeps.function? s name entry hs hentry
  · rintro _ entry args ⟨s, rfl, hs⟩ hentry hargs
    rw [← h.invoke]
    exact hyields (hkeeps.invoke s entry args hs hentry hargs)

end Extends

/-! ### Watching -/

/-- What happens while a result is rendered: a renderer is dispatched, with the host in this state, or
a text is evaluated for one. -/
inductive Happening (σ : Type) where
  | dispatched (s : σ)
  | executed (source : String)

/-- A host that notes what happens, in order. A renderer is dispatched when the context is refreshed for it, so
that is when it is noted. -/
def watched (host : RenderHost σ) : RenderHost (σ × List (Happening σ)) where
  execute source s :=
    let (answer, s') := host.execute source s.1
    (answer, s', s.2 ++ [.executed source])
  call f args s :=
    let (answer, s') := host.call f args s.1
    (answer, s', s.2)
  refresh s := (host.refresh s.1, s.2 ++ [.dispatched (host.refresh s.1)])
  function? name s := host.function? name s.1
  invoke entry args s :=
    let (answer, s') := host.invoke entry args s.1
    (answer, s', s.2)

theorem watched_extends (host : RenderHost σ) : host.watched.Extends host Prod.fst where
  execute _ _ := rfl
  call _ _ _ := rfl
  refresh _ := rfl
  function? _ _ := rfl
  invoke _ _ _ := rfl

/-- Does something hold of a watched state, and did it of every state in which a renderer was dispatched? It has
to only if all texts that were evaluated are quiet ones. The texts are known only afterwards, which is why they
are a condition here. -/
def Undisturbed (quiet : String → Prop) (extra : σ → Prop) (s : σ × List (Happening σ)) : Prop :=
  (∀ source, .executed source ∈ s.2 → quiet source) →
    extra s.1 ∧ ∀ s', .dispatched s' ∈ s.2 → extra s'

section

variable {quiet : String → Prop} {extra : σ → Prop} {s : σ} {happened : List (Happening σ)}

theorem Undisturbed.executed (h : Undisturbed quiet extra (s, happened)) {source : String} {s' : σ}
    (hnext : quiet source → extra s → extra s') :
    Undisturbed quiet extra (s', happened ++ [.executed source]) := by
  intro hquiet
  obtain ⟨hextra, hdispatched⟩ := h fun source hmem => hquiet source (List.mem_append_left _ hmem)
  refine ⟨hnext (hquiet source (List.mem_append_right _ List.mem_cons_self)) hextra, ?_⟩
  intro s₁ hs₁
  rcases List.mem_append.mp hs₁ with hs₁ | hs₁
  · exact hdispatched s₁ hs₁
  · cases List.mem_singleton.mp hs₁

theorem Undisturbed.dispatched (h : Undisturbed quiet extra (s, happened)) {s' : σ}
    (hnext : extra s → extra s') : Undisturbed quiet extra (s', happened ++ [.dispatched s']) := by
  intro hquiet
  obtain ⟨hextra, hdispatched⟩ := h fun source hmem => hquiet source (List.mem_append_left _ hmem)
  refine ⟨hnext hextra, ?_⟩
  intro s₁ hs₁
  rcases List.mem_append.mp hs₁ with hs₁ | hs₁
  · exact hdispatched s₁ hs₁
  · cases List.mem_singleton.mp hs₁
    exact hnext hextra

theorem Undisturbed.imp (h : Undisturbed quiet extra (s, happened)) {s' : σ}
    (hnext : extra s → extra s') : Undisturbed quiet extra (s', happened) := by
  intro hquiet
  obtain ⟨hextra, hdispatched⟩ := h hquiet
  exact ⟨hnext hextra, hdispatched⟩

end

/-- A watched host keeps, besides what it keeps unwatched, whatever its services leave true as long as
only quiet texts are evaluated. -/
theorem Keeps.watched {host : RenderHost σ} {known : σ → FunctionCode → Prop} {holds : σ → Prop}
    (h : host.Keeps known holds) {quiet : String → Prop} {extra : σ → Prop}
    (hexecute : ∀ s source, holds s → quiet source → extra s → extra (host.execute source s).2)
    (hcall : ∀ s f args, holds s → f.MadeOf (known s) → (∀ v ∈ args, v.MadeOf (known s)) →
      extra s → extra (host.call f args s).2)
    (hrefresh : ∀ s, holds s → extra s → extra (host.refresh s))
    (hinvoke : ∀ s entry args, holds s → entry.value.MadeOf (known s) →
      (∀ v ∈ args, v.MadeOf (known s)) → extra s → extra (host.invoke entry args s).2) :
    host.watched.Keeps (fun s => known s.1) fun s => holds s.1 ∧ Undisturbed quiet extra s where
  execute := by
    rintro ⟨s, happened⟩ source ⟨hs, hextra⟩
    obtain ⟨hleads, hmade⟩ := h.execute s source hs
    exact ⟨⟨⟨hleads.holds, hextra.executed (hexecute s source hs)⟩, hleads.grows⟩, hmade⟩
  call := by
    rintro ⟨s, happened⟩ f args ⟨hs, hextra⟩ hf hargs
    obtain ⟨hleads, hmade⟩ := h.call s f args hs hf hargs
    exact ⟨⟨⟨hleads.holds, hextra.imp (hcall s f args hs hf hargs)⟩, hleads.grows⟩, hmade⟩
  refresh := by
    rintro ⟨s, happened⟩ ⟨hs, hextra⟩
    have hleads := h.refresh s hs
    exact ⟨⟨hleads.holds, hextra.dispatched (hrefresh s hs)⟩, hleads.grows⟩
  function? := by
    rintro ⟨s, happened⟩ name entry ⟨hs, -⟩ hentry
    exact h.function? s name entry hs hentry
  invoke := by
    rintro ⟨s, happened⟩ entry args ⟨hs, hextra⟩ hentry hargs
    obtain ⟨hleads, hmade⟩ := h.invoke s entry args hs hentry hargs
    exact ⟨⟨⟨hleads.holds, hextra.imp (hinvoke s entry args hs hentry hargs)⟩, hleads.grows⟩, hmade⟩

end RenderHost

namespace Registry

variable {σ : Type} {host : RenderHost σ} {result : TypedResult} {s : σ × List (RenderHost.Happening σ)}

/-- The error of a renderer whose function is missing. -/
def undefined (id : Nat) : SessionError :=
  .inconsistency ("renderer method " ++ methodName id ++ " is not defined in the session")

theorem unfinished_ne_undefined (r : Registry) (type : ValueType) (id : Nat) :
    r.unfinished type ≠ undefined id := by
  intro h
  have hchars := congrArg (fun text => text.toList.take 7) (SessionError.inconsistency.inj h)
  simp [toString, String.toList_append] at hchars

/-- A renderer's function was missing if the error says so. -/
theorem dispatched_of_undefined {registered : Registered} {v : Value} {id : Nat}
    (h : (applyRenderer host.watched registered result v s).1 = .error (undefined id)) :
    ∃ id', registered.method = some id' ∧ undefined id' = undefined id ∧
      host.function? (methodName id') (host.refresh s.1) = none ∧
      .dispatched (host.refresh s.1) ∈ (applyRenderer host.watched registered result v s).2.2 := by
  unfold applyRenderer at h ⊢
  cases hmethod : registered.method with
  | none =>
    simp only [hmethod] at h
    split at h <;> cases h
  | some id' =>
    simp only [hmethod] at h ⊢
    have hsame : host.watched.function? (methodName id') (host.watched.refresh s) =
        host.function? (methodName id') (host.refresh s.1) := rfl
    simp only [hsame] at h ⊢
    cases hfunction : host.function? (methodName id') (host.refresh s.1) with
    | none =>
      simp only [hfunction] at h ⊢
      exact ⟨id', rfl, Except.error.inj h, hfunction, List.mem_append_right _ List.mem_cons_self⟩
    | some entry =>
      simp only [hfunction] at h
      split at h <;> cases h

/-- If rendering fails because a renderer's function is missing, then some renderer was dispatched
whose function was. -/
theorem exists_dispatched_of_undefined {r : Registry} (steps : Nat) {id : Nat}
    (h : (r.renderWithin host.watched steps result s).1 = .error (undefined id)) :
    ∃ s', .dispatched s' ∈ (r.renderWithin host.watched steps result s).2.2 ∧
      ∃ registered ∈ r.renderers, ∃ id', registered.method = some id' ∧
        host.function? (methodName id') s' = none := by
  induction steps generalizing result s with
  | zero =>
    unfold renderWithin at h
    split at h
    · cases h
    · cases h
    · split at h
      · cases h
      · exact absurd (Except.error.inj h) (unfinished_ne_undefined r _ id)
  | succ steps ih =>
    unfold renderWithin at h ⊢
    split at h
    · cases h
    · cases h
    · rename_i v _ hvalue
      split at h
      · cases h
      · rename_i registered hfind
        rcases happly : applyRenderer host.watched registered result v s with ⟨error | result', s'⟩
        · simp only [happly] at h ⊢
          have hundefined : (applyRenderer host.watched registered result v s).1 =
              .error (undefined id) := by
            rw [happly, Except.error.inj h]
          obtain ⟨id', hmethod, -, hnone, hmem⟩ := dispatched_of_undefined hundefined
          rw [happly] at hmem
          exact ⟨_, hmem, registered, Array.mem_of_find?_eq_some hfind, id', hmethod, hnone⟩
        · simp only [happly] at h ⊢
          exact ih h

/-- A renderer that is a function of the session evaluates no text. -/
theorem executed_of_applyRenderer {registered : Registered} {v : Value} {source : String}
    (hmethod : registered.method ≠ none)
    (h : .executed source ∈ (applyRenderer host.watched registered result v s).2.2) :
    .executed source ∈ s.2 := by
  have hrefresh : ∀ {happened : List (RenderHost.Happening σ)},
      happened = s.2 ++ [.dispatched (host.refresh s.1)] → .executed source ∈ happened →
        .executed source ∈ s.2 := by
    rintro _ rfl hmem
    rcases List.mem_append.mp hmem with hmem | hmem
    · exact hmem
    · cases List.mem_singleton.mp hmem
  unfold applyRenderer at h
  cases hid : registered.method with
  | none => exact absurd hid hmethod
  | some id =>
    simp only [hid] at h
    split at h
    · exact hrefresh rfl h
    · rename_i entry _
      have hinvoke : (host.watched.invoke entry [v] (host.watched.refresh s)).2.2 =
          s.2 ++ [.dispatched (host.refresh s.1)] := rfl
      split at h
      · rename_i hsame
        rw [hsame] at hinvoke
        exact hrefresh hinvoke h
      · rename_i hsame
        rw [hsame] at hinvoke
        exact hrefresh hinvoke h

/-- Where all renderers are functions of the session, rendering evaluates no text. -/
theorem executed_of_renderWithin {r : Registry}
    (hmethods : ∀ registered ∈ r.renderers, registered.method ≠ none) (steps : Nat) {source : String}
    (h : .executed source ∈ (r.renderWithin host.watched steps result s).2.2) :
    .executed source ∈ s.2 := by
  induction steps generalizing result s with
  | zero =>
    unfold renderWithin at h
    split at h
    · exact h
    · exact h
    · split at h <;> exact h
  | succ steps ih =>
    unfold renderWithin at h
    split at h
    · exact h
    · exact h
    · split at h
      · exact h
      · rename_i v _ _ _ registered hfind
        have hmethod := hmethods registered (Array.mem_of_find?_eq_some hfind)
        rcases happly : applyRenderer host.watched registered result v s with ⟨error | result', s'⟩
        · have hmem : .executed source ∈ (applyRenderer host.watched registered result v s).2.2 := by
            rw [happly] at h ⊢
            exact h
          exact executed_of_applyRenderer hmethod hmem
        · have hmem : .executed source ∈ (applyRenderer host.watched registered result v s).2.2 := by
            rw [happly] at h ⊢
            exact ih h
          exact executed_of_applyRenderer hmethod hmem

end Registry

end Notebook
