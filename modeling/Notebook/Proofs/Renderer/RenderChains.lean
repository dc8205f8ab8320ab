import Notebook.Proofs.Renderer.ResultDisplay

/-!
Rendering as a chain of applications.

The first renderer that accepts a value is applied to it, then the first one that accepts what comes of
that, and so on (`Registry.Applied`). The chain stops where there is nothing to show, where no renderer
accepts the value, where a renderer fails, or where the steps are used up (`Registry.Stops`).

* `Registry.renderWithin_of_applied`, `Registry.exists_applied`: rendering follows the chain to where it
  stops.
* `Registry.dispatches_renderWithin_le`: it applies no more renderers than there are steps.
* `Registry.renderResult_iff`: if what renderers make of a result depends on the result alone, the chain is
  one of results (`Registry.Chain`), and how rendering ends says how the chain does.
* `Registry.renderResult_commit`: a renderer that is registered after all others changes nothing unless
  the others end with a value that it accepts, and then rendering goes on from there.
-/

namespace Notebook

namespace Registry

/-! ### The renderer that is due -/

def First (r : Registry) (type : ValueType) (registered : Registered) : Prop :=
  ∃ before after, r.renderers.toList = before ++ registered :: after ∧
    registered.renderer.accepts type = true ∧ ∀ other ∈ before, other.renderer.accepts type = false

/-- Is a renderer to be applied to a result? The result has a value, which is not null, and no earlier renderer
accepts the type of it. At most one renderer is due. -/
structure Due (r : Registry) (result : TypedResult) (v : Value) (registered : Registered) : Prop where
  value : result.value = some v
  shows : v ≠ .null
  first : r.First v.type registered

section

variable {r : Registry} {type : ValueType} {registered : Registered} {result : TypedResult} {v : Value}

theorem find?_eq_some_iff : r.find? type = some registered ↔ r.First type registered := by
  unfold find? First
  rw [← Array.find?_toList, List.find?_eq_some_iff_append]
  constructor
  · rintro ⟨haccepts, before, after, hlist, hbefore⟩
    refine ⟨before, after, hlist, haccepts, fun other hother => ?_⟩
    simpa using hbefore other hother
  · rintro ⟨before, after, hlist, haccepts, hbefore⟩
    refine ⟨haccepts, before, after, hlist, fun other hother => ?_⟩
    simpa using hbefore other hother

theorem find?_eq_none_iff :
    r.find? type = none ↔ ∀ registered ∈ r.renderers, registered.renderer.accepts type = false := by
  unfold find?
  rw [Array.find?_eq_none]
  simp only [Bool.not_eq_true]

/-- A type is accepted by no renderer, or there is a first one. -/
theorem first_or_none (r : Registry) (type : ValueType) : (∃ registered, r.First type registered) ∨
    ∀ registered ∈ r.renderers, registered.renderer.accepts type = false := by
  cases hfind : r.find? type with
  | none => exact .inr (find?_eq_none_iff.mp hfind)
  | some registered => exact .inl ⟨registered, find?_eq_some_iff.mp hfind⟩

theorem First.mem (h : r.First type registered) : registered ∈ r.renderers := by
  obtain ⟨before, after, hlist, -⟩ := h
  rw [← Array.mem_toList_iff, hlist]
  exact List.mem_append_right _ List.mem_cons_self

theorem Due.imp {r' : Registry} (h : r.Due result v registered)
    (hfirst : r.First v.type registered → r'.First v.type registered) :
    r'.Due result v registered :=
  ⟨h.value, h.shows, hfirst h.first⟩

end

/-! ### Chains of applications -/

section

variable {σ : Type}

/-- So many applications of renderers lead from one result and state to others. Each is applied to what the one
before it made, in the state that it left. -/
inductive Applied (host : RenderHost σ) (r : Registry) :
    Nat → TypedResult → σ → TypedResult → σ → Prop where
  | refl {result : TypedResult} {s : σ} : Applied host r 0 result s result s
  | next {k : Nat} {result result' last : TypedResult} {v : Value} {registered : Registered}
      {s s' t : σ} (due : r.Due result v registered)
      (applied : applyRenderer host registered result v s = (.ok result', s'))
      (rest : Applied host r k result' s' last t) : Applied host r (k + 1) result s last t

/-- How rendering stops at a result, with so many steps left. Nothing to show and a value that nobody renders
are ends at which no step is needed; a renderer that is due needs one. -/
inductive Stops (host : RenderHost σ) (r : Registry) (result : TypedResult) (s : σ) :
    Nat → Except SessionError (Option Value) × σ → Prop where
  | nothing {left : Nat} (empty : result.value = none ∨ result.value = some .null) :
      Stops host r result s left (.ok none, s)
  | shown {left : Nat} {v : Value} (value : result.value = some v) (shows : v ≠ .null)
      (refused : ∀ registered ∈ r.renderers, registered.renderer.accepts v.type = false) :
      Stops host r result s left (.ok (some v), s)
  | failed {left : Nat} {v : Value} {registered : Registered} {error : SessionError} {s' : σ}
      (due : r.Due result v registered)
      (applied : applyRenderer host registered result v s = (.error error, s')) :
      Stops host r result s (left + 1) (.error error, s')
  | unfinished {v : Value} {registered : Registered} (due : r.Due result v registered) :
      Stops host r result s 0 (.error (r.unfinished v.type), s)

variable {host : RenderHost σ} {r : Registry} {k left : Nat} {result last : TypedResult} {v : Value}
  {registered : Registered} {s t : σ}

/-- What is not null is rendered by the first renderer that accepts it. -/
theorem renderWithin_of_shows (hvalue : result.value = some v) (hshows : v ≠ .null) (steps : Nat)
    (s : σ) : r.renderWithin host steps result s = match r.find? v.type with
      | none => (.ok (some v), s)
      | some registered =>
        match steps with
        | 0 => (.error (r.unfinished v.type), s)
        | steps + 1 =>
          match applyRenderer host registered result v s with
          | (.ok result, s) => r.renderWithin host steps result s
          | (.error error, s) => (.error error, s) := by
  rw [renderWithin, hvalue]
  cases v with
  | null => exact absurd rfl hshows
  | _ => rfl

theorem Due.renderWithin (h : r.Due result v registered) (steps : Nat) (s : σ) :
    r.renderWithin host (steps + 1) result s = match applyRenderer host registered result v s with
      | (.ok result, s) => r.renderWithin host steps result s
      | (.error error, s) => (.error error, s) := by
  rw [renderWithin_of_shows h.value h.shows, find?_eq_some_iff.mpr h.first]

theorem renderWithin_of_applied (h : Applied host r k result s last t) (left : Nat) :
    r.renderWithin host (left + k) result s = r.renderWithin host left last t := by
  induction h with
  | refl => rfl
  | next due applied _ ih =>
    rw [← Nat.add_assoc, due.renderWithin, applied]
    exact ih

theorem renderWithin_of_stops {out : Except SessionError (Option Value) × σ}
    (h : Stops host r result s left out) : r.renderWithin host left result s = out := by
  cases h with
  | nothing empty =>
    unfold renderWithin
    rcases empty with hvalue | hvalue <;> rw [hvalue]
  | shown value shows refused =>
    rw [renderWithin_of_shows value shows, find?_eq_none_iff.mpr refused]
  | failed due applied => rw [due.renderWithin, applied]
  | unfinished due => rw [renderWithin_of_shows due.value due.shows, find?_eq_some_iff.mpr due.first]

/-- Rendering stops at a result, or a renderer is due. -/
theorem stops_or_due (host : RenderHost σ) (r : Registry) (result : TypedResult) (s : σ) :
    (∃ out, ∀ left, Stops host r result s left out) ∨ ∃ v registered, r.Due result v registered := by
  cases hvalue : result.value with
  | none => exact .inl ⟨_, fun left => .nothing (.inl hvalue)⟩
  | some v =>
    by_cases hnull : v = .null
    · exact .inl ⟨_, fun left => .nothing (.inr (hnull ▸ hvalue))⟩
    · rcases r.first_or_none v.type with ⟨registered, hfirst⟩ | hnone
      · exact .inr ⟨v, registered, hvalue, hnull, hfirst⟩
      · exact .inl ⟨_, fun left => .shown hvalue hnull hnone⟩

/-- Rendering applies renderers, no more than there are steps, to where it stops. Together with
`renderWithin_of_applied` this says that rendering is such a chain and nothing else. -/
theorem exists_applied (host : RenderHost σ) (r : Registry) (steps : Nat) (result : TypedResult)
    (s : σ) : ∃ k ≤ steps, ∃ last t, Applied host r k result s last t ∧
      Stops host r last t (steps - k) (r.renderWithin host steps result s) := by
  induction steps generalizing result s with
  | zero =>
    obtain ⟨out, hstops⟩ : ∃ out, Stops host r result s 0 out := by
      rcases stops_or_due host r result s with ⟨out, hstops⟩ | ⟨v, registered, hdue⟩
      · exact ⟨out, hstops 0⟩
      · exact ⟨_, .unfinished hdue⟩
    exact ⟨0, Nat.le_refl 0, result, s, .refl, renderWithin_of_stops hstops ▸ hstops⟩
  | succ steps ih =>
    rcases stops_or_due host r result s with ⟨out, hstops⟩ | ⟨v, registered, hdue⟩
    · exact ⟨0, Nat.zero_le _, result, s, .refl, renderWithin_of_stops (hstops (steps + 1)) ▸ hstops _⟩
    · rcases happly : applyRenderer host registered result v s with ⟨error | result', s'⟩
      · have hstops : Stops host r result s (steps + 1) (.error error, s') := .failed hdue happly
        exact ⟨0, Nat.zero_le _, result, s, .refl, renderWithin_of_stops hstops ▸ hstops⟩
      · obtain ⟨k, hk, last, t, happlied, hstops⟩ := ih result' s'
        refine ⟨k + 1, Nat.succ_le_succ hk, last, t, .next hdue happly happlied, ?_⟩
        rw [hdue.renderWithin, happly, Nat.succ_sub_succ]
        exact hstops

/-- A registry in which the same renderers come first makes the same applications. -/
theorem Applied.imp {r' : Registry} (h : Applied host r k result s last t)
    (hfirst : ∀ {type registered}, r.First type registered → r'.First type registered) :
    Applied host r' k result s last t := by
  induction h with
  | refl => exact .refl
  | next due applied _ ih => exact .next (due.imp hfirst) applied ih

end

end Registry

/-! ### How many renderers are applied -/

section

variable {σ : Type} {host : RenderHost σ} {r : Registry}

/-- How many renderers were dispatched, the texts that they evaluated not being counted. -/
def RenderHost.dispatches (happened : List (Happening σ)) : Nat :=
  happened.countP fun
    | .dispatched _ => true
    | .executed _ => false

open RenderHost (dispatches)

/-- What an inline renderer does dispatches no other one. -/
theorem Script.dispatches_run (host : RenderHost σ) (script : Script) (s : σ × List (RenderHost.Happening σ)) :
    dispatches (script.run host.watched.toHost s).2.2 = dispatches s.2 := by
  induction script generalizing s with
  | done result => rfl
  | fail cause => rfl
  | execute source next ih =>
    refine (ih _ _).trans ?_
    show dispatches (s.2 ++ [.executed source]) = dispatches s.2
    unfold dispatches
    rw [List.countP_append]
    rfl
  | call f args next ih => exact ih _ _

namespace Registry

/-- A renderer that is applied is dispatched once, whether it succeeds or not. -/
theorem dispatches_applyRenderer (host : RenderHost σ) (registered : Registered) (result : TypedResult) (v : Value)
    (s : σ × List (RenderHost.Happening σ)) :
    dispatches (applyRenderer host.watched registered result v s).2.2 = dispatches s.2 + 1 := by
  have hrefresh : dispatches (host.watched.refresh s).2 = dispatches s.2 + 1 := by
    show dispatches (s.2 ++ [.dispatched (host.refresh s.1)]) = dispatches s.2 + 1
    unfold dispatches
    rw [List.countP_append]
    rfl
  -- The context is refreshed once, which is what counts, and nothing that the renderer does then adds to it.
  unfold applyRenderer
  cases registered.method with
  | none =>
    have hrun := Script.dispatches_run host (registered.renderer.script result)
      (host.watched.refresh s)
    rw [hrefresh] at hrun
    rcases hscript : Script.run host.watched.toHost (registered.renderer.script result)
      (host.watched.refresh s) with ⟨cause | result', s'⟩
    · rw [hscript] at hrun
      simpa only [hscript] using hrun
    · rw [hscript] at hrun
      simpa only [hscript] using hrun
  | some id =>
    cases hfunction : host.watched.function? (methodName id) (host.watched.refresh s) with
    | none => simpa only [hfunction] using hrefresh
    | some entry =>
      have hinvoke : dispatches (host.watched.invoke entry [v] (host.watched.refresh s)).2.2 =
          dispatches s.2 + 1 := hrefresh
      rcases hcall : host.watched.invoke entry [v] (host.watched.refresh s) with ⟨error | w, s'⟩
      · rw [hcall] at hinvoke
        simpa only [hfunction, hcall] using hinvoke
      · rw [hcall] at hinvoke
        simpa only [hfunction, hcall] using hinvoke

theorem Applied.dispatches {k : Nat} {result last : TypedResult}
    {s t : σ × List (RenderHost.Happening σ)} (h : Applied host.watched r k result s last t) :
    dispatches t.2 = dispatches s.2 + k := by
  induction h with
  | refl => rfl
  | @next k result result' last v registered s s' t due applied _ ih =>
    have hone := dispatches_applyRenderer host registered result v s
    simp only [applied] at hone
    rw [ih, hone]
    omega

/-- No more renderers are applied than there are steps. -/
theorem dispatches_renderWithin_le (host : RenderHost σ) (r : Registry) (steps : Nat) (result : TypedResult)
    (s : σ × List (RenderHost.Happening σ)) :
    dispatches (r.renderWithin host.watched steps result s).2.2 ≤ dispatches s.2 + steps := by
  obtain ⟨k, hk, last, t, happlied, hstops⟩ := exists_applied host.watched r steps result s
  have hcount := happlied.dispatches
  generalize hout : r.renderWithin host.watched steps result s = out at hstops
  generalize hleft : steps - k = left at hstops
  cases hstops with
  | nothing | shown | unfinished =>
    show dispatches t.2 ≤ _
    omega
  | @failed left v registered error s' due applied =>
    have hone := dispatches_applyRenderer host registered last v t
    simp only [applied] at hone
    show dispatches s'.2 ≤ _
    omega

end Registry

end

/-! ### Renderers that look at results only -/

section

variable {σ : Type} {host : RenderHost σ}

/-- Is this what a renderer, which is no function of the session, makes of a result, in whatever state its host
is? Such a renderer may still change that state. -/
def Registered.Makes (host : Host σ) (registered : Registered) (result : TypedResult)
    (made : Except Cause TypedResult) : Prop :=
  registered.method = none ∧ ∀ s, ((registered.renderer.script result).run host s).1 = made

/-- Is a renderer no function of the session, and does what it makes of a result depend on the result
alone? -/
def Registered.FieldOnly (host : Host σ) (registered : Registered) : Prop :=
  ∀ result, ∃ made, registered.Makes host result made

/-- A renderer that uses no services depends on the result alone. -/
theorem Registered.fieldOnly_of_isQuiet {registered : Registered} (hmethod : registered.method = none)
    (hquiet : ∀ result, (registered.renderer.script result).isQuiet = true) (host : Host σ) :
    registered.FieldOnly host := by
  intro result
  have h := hquiet result
  cases hscript : registered.renderer.script result with
  | done made => exact ⟨.ok made, hmethod, fun s => by rw [hscript]; rfl⟩
  | fail cause => exact ⟨.error cause, hmethod, fun s => by rw [hscript]; rfl⟩
  | execute source next =>
    rw [hscript] at h
    cases h
  | call f args next =>
    rw [hscript] at h
    cases h

/-- What such a renderer comes to, with failures marked as those of a renderer. -/
theorem Registered.Makes.applyRenderer {registered : Registered} {result : TypedResult}
    {made : Except Cause TypedResult} (h : registered.Makes host.toHost result made) (v : Value)
    (s : σ) : (Registry.applyRenderer host registered result v s).1 =
      made.mapError SessionError.rendererFailure := by
  obtain ⟨hmethod, hmade⟩ := h
  have hrun := hmade (host.refresh s)
  unfold Registry.applyRenderer
  rw [hmethod]
  rcases hscript : Script.run host.toHost (registered.renderer.script result) (host.refresh s) with
    ⟨cause | result', s'⟩
  · rw [hscript] at hrun
    rw [← hrun]
    simp only [hscript, Except.mapError]
  · rw [hscript] at hrun
    rw [← hrun]
    simp only [hscript, Except.mapError]

namespace Registry

/-- So many times the renderer that is due makes of a result the next one. There are no states here: where
renderers depend on results alone, neither does the chain. -/
inductive Chain (host : Host σ) (r : Registry) : Nat → TypedResult → TypedResult → Prop where
  | refl {result : TypedResult} : Chain host r 0 result result
  | next {k : Nat} {result result' last : TypedResult} {v : Value} {registered : Registered}
      (due : r.Due result v registered) (makes : registered.Makes host result (.ok result'))
      (rest : Chain host r k result' last) : Chain host r (k + 1) result last

variable {r : Registry} {k : Nat} {result last : TypedResult} {s t : σ}

/-- Such a chain is followed from any state. -/
theorem Chain.applied (h : Chain host.toHost r k result last) (s : σ) :
    ∃ t, Applied host r k result s last t := by
  induction h generalizing s with
  | refl => exact ⟨s, .refl⟩
  | @next k result result' last v registered due makes _ ih =>
    have happly := makes.applyRenderer v s
    obtain ⟨t, happlied⟩ := ih (applyRenderer host registered result v s).2
    exact ⟨t, .next due (Prod.ext happly rfl) happlied⟩

/-- Where renderers look at results only, what they are applied to is such a chain. -/
theorem Applied.chain (hfields : ∀ registered ∈ r.renderers, registered.FieldOnly host.toHost)
    (h : Applied host r k result s last t) : Chain host.toHost r k result last := by
  induction h with
  | refl => exact .refl
  | @next k result result' last v registered s s' t due applied _ ih =>
    obtain ⟨made, hmakes⟩ := hfields registered due.first.mem result
    have happly := hmakes.applyRenderer v s
    rw [applied] at happly
    cases made with
    | error cause => cases happly
    | ok result'' =>
      cases happly
      exact .next due hmakes ih

/-- How a chain of results ends, with so many steps left. -/
inductive Ends (host : Host σ) (r : Registry) (result : TypedResult) :
    Nat → Except SessionError (Option Value) → Prop where
  | nothing {left : Nat} (empty : result.value = none ∨ result.value = some .null) :
      Ends host r result left (.ok none)
  | shown {left : Nat} {v : Value} (value : result.value = some v) (shows : v ≠ .null)
      (refused : ∀ registered ∈ r.renderers, registered.renderer.accepts v.type = false) :
      Ends host r result left (.ok (some v))
  | failed {left : Nat} {v : Value} {registered : Registered} {cause : Cause}
      (due : r.Due result v registered) (makes : registered.Makes host result (.error cause)) :
      Ends host r result (left + 1) (.error (.rendererFailure cause))
  | unfinished {v : Value} {registered : Registered} (due : r.Due result v registered) :
      Ends host r result 0 (.error (r.unfinished v.type))

variable {left : Nat} {answer : Except SessionError (Option Value)}

theorem Ends.stops (h : Ends host.toHost r result left answer) (s : σ) :
    ∃ s', Stops host r result s left (answer, s') := by
  cases h with
  | nothing empty => exact ⟨s, .nothing empty⟩
  | shown value shows refused => exact ⟨s, .shown value shows refused⟩
  | failed due makes => exact ⟨_, .failed due (Prod.ext (makes.applyRenderer _ s) rfl)⟩
  | unfinished due => exact ⟨s, .unfinished due⟩

theorem Stops.ends (hfields : ∀ registered ∈ r.renderers, registered.FieldOnly host.toHost)
    {out : Except SessionError (Option Value) × σ} (h : Stops host r result s left out) :
    Ends host.toHost r result left out.1 := by
  cases h with
  | nothing empty => exact .nothing empty
  | shown value shows refused => exact .shown value shows refused
  | @failed left v registered error s' due applied =>
    obtain ⟨made, hmakes⟩ := hfields registered due.first.mem result
    have happly := hmakes.applyRenderer v s
    rw [applied] at happly
    cases made with
    | error cause =>
      cases happly
      exact .failed due hmakes
    | ok result' => cases happly
  | unfinished due => exact .unfinished due

/-- Where renderers look at results only, rendering answers with the end of the chain. -/
theorem renderWithin_eq_iff
    (hfields : ∀ registered ∈ r.renderers, registered.FieldOnly host.toHost) (steps : Nat)
    (result : TypedResult) (s : σ) : (r.renderWithin host steps result s).1 = answer ↔
      ∃ k ≤ steps, ∃ last, Chain host.toHost r k result last ∧
        Ends host.toHost r last (steps - k) answer := by
  constructor
  · rintro rfl
    obtain ⟨k, hk, last, t, happlied, hstops⟩ := exists_applied host r steps result s
    exact ⟨k, hk, last, happlied.chain hfields, hstops.ends hfields⟩
  · rintro ⟨k, hk, last, hchain, hends⟩
    obtain ⟨t, happlied⟩ := hchain.applied s
    obtain ⟨t', hstops⟩ := hends.stops t
    have hrender := renderWithin_of_applied happlied (steps - k)
    rw [Nat.sub_add_cancel hk, renderWithin_of_stops hstops] at hrender
    rw [hrender]

section

variable {host : Host σ} {v : Value} {cause : Cause} {detail : String} {error : SessionError}

theorem ends_nothing_iff : Ends host r result left (.ok none) ↔
    result.value = none ∨ result.value = some .null := by
  constructor
  · intro h
    cases h with
    | nothing empty => exact empty
  · exact .nothing

theorem ends_shown_iff : Ends host r result left (.ok (some v)) ↔ result.value = some v ∧ v ≠ .null ∧
    ∀ registered ∈ r.renderers, registered.renderer.accepts v.type = false := by
  constructor
  · intro h
    cases h with
    | shown value shows refused => exact ⟨value, shows, refused⟩
  · rintro ⟨value, shows, refused⟩
    exact .shown value shows refused

theorem ends_failed_iff : Ends host r result left (.error (.rendererFailure cause)) ↔
    0 < left ∧ ∃ v registered, r.Due result v registered ∧
      registered.Makes host result (.error cause) := by
  constructor
  · intro h
    cases h with
    | failed due makes => exact ⟨Nat.succ_pos _, _, _, due, makes⟩
  · rintro ⟨hleft, v, registered, hdue, hmakes⟩
    rw [← Nat.succ_pred_eq_of_pos hleft]
    exact .failed hdue hmakes

theorem ends_unfinished_iff : Ends host r result left (.error (.inconsistency detail)) ↔
    left = 0 ∧ ∃ v registered, r.Due result v registered ∧
      .inconsistency detail = r.unfinished v.type := by
  constructor
  · intro h
    generalize herror : Except.error (SessionError.inconsistency detail) = answer at h
    cases h with
    | nothing | shown | failed => cases herror
    | unfinished due => exact ⟨rfl, _, _, due, Except.error.inj herror⟩
  · rintro ⟨rfl, v, registered, hdue, hdetail⟩
    rw [hdetail]
    exact .unfinished hdue

/-- No other errors come of renderers that look at results only. -/
theorem Ends.error_cases (h : Ends host r result left (.error error)) :
    (∃ cause, error = .rendererFailure cause) ∨ ∃ detail, error = .inconsistency detail := by
  cases h with
  | failed due makes => exact .inl ⟨_, rfl⟩
  | unfinished due => exact .inr ⟨_, rfl⟩

end

/-- Makes of an integer the one before it, and of zero a word. Its own values are rendered again, until it comes
to a word. -/
def counting : Registered where
  renderer := .inline (.anyOf [.int]) fun result => match result.value with
    | some (.int n) => .done (.of (if n = 0 then .str "zero" else .int (n - 1)))
    | _ => .fail (.note "no integer" [])
  method := none

/-- A registry that counts down within so many steps. -/
def countdown (maxSteps : Nat) : Registry where
  renderers := #[counting]
  maxSteps := maxSteps

theorem fieldOnly_countdown (host : Host σ) (maxSteps : Nat) :
    ∀ registered ∈ (countdown maxSteps).renderers, registered.FieldOnly host := by
  intro registered hmem
  obtain rfl := List.mem_singleton.mp (Array.mem_toList_iff.mpr hmem)
  refine Registered.fieldOnly_of_isQuiet rfl (fun result => ?_) host
  show (Script.isQuiet (match result.value with
    | some (.int n) => .done (.of (if n = 0 then .str "zero" else .int (n - 1)))
    | _ => .fail (.note "no integer" []))) = true
  split <;> rfl

/-- If what renderers make of a result depends on the result alone, then the answer is that of applying,
to the result and to what comes of it, the first renderer that accepts the value: nothing if that comes
to no value or to null within the steps that there are, the value if it comes to one that no renderer
accepts, the failure of a renderer, marked as such, if one fails first, and an error of its own if the
value that is left when the steps are used up is still accepted. No more renderers are applied than
there are steps. -/
theorem renderResult_iff
    (hfields : ∀ registered ∈ r.renderers, registered.FieldOnly host.toHost) (result : TypedResult)
    (s : σ) :
    let out := (r.renderResult host result s).1
    let watched := r.renderResult host.watched result (s, [])
    (out = .ok none ↔ ∃ k ≤ r.maxSteps, ∃ last, Chain host.toHost r k result last ∧
        (last.value = none ∨ last.value = some .null)) ∧
      (∀ v, out = .ok (some v) ↔ ∃ k ≤ r.maxSteps, ∃ last, Chain host.toHost r k result last ∧
        last.value = some v ∧ v ≠ .null ∧
          ∀ registered ∈ r.renderers, registered.renderer.accepts v.type = false) ∧
      (∀ cause, out = .error (.rendererFailure cause) ↔
        ∃ k < r.maxSteps, ∃ last, Chain host.toHost r k result last ∧ ∃ v registered,
          r.Due last v registered ∧ registered.Makes host.toHost last (.error cause)) ∧
      (∀ detail, out = .error (.inconsistency detail) ↔
        ∃ last, Chain host.toHost r r.maxSteps result last ∧ ∃ v registered,
          r.Due last v registered ∧ .inconsistency detail = r.unfinished v.type) ∧
      (∀ error, out = .error error →
        (∃ cause, error = .rendererFailure cause) ∨ ∃ detail, error = .inconsistency detail) ∧
      watched.1 = out ∧ RenderHost.dispatches watched.2.2 ≤ r.maxSteps := by
  intro out watched
  -- Every answer is that of one kind of end, so each part is this equivalence at one answer.
  have hout : ∀ answer, out = answer ↔ ∃ k ≤ r.maxSteps, ∃ last,
      Chain host.toHost r k result last ∧ Ends host.toHost r last (r.maxSteps - k) answer :=
    fun answer => renderWithin_eq_iff hfields r.maxSteps result s
  refine ⟨?_, fun v => ?_, fun cause => ?_, fun detail => ?_, fun error h => ?_, ?_, ?_⟩
  · simp only [hout, ends_nothing_iff]
  · simp only [hout, ends_shown_iff]
  · simp only [hout, ends_failed_iff, Nat.sub_pos_iff_lt]
    constructor
    · rintro ⟨k, -, last, hchain, hk, hfails⟩
      exact ⟨k, hk, last, hchain, hfails⟩
    · rintro ⟨k, hk, last, hchain, hfails⟩
      exact ⟨k, Nat.le_of_lt hk, last, hchain, hk, hfails⟩
  · simp only [hout, ends_unfinished_iff, Nat.sub_eq_zero_iff_le]
    constructor
    · rintro ⟨k, hk, last, hchain, hlast, hdue⟩
      obtain rfl := Nat.le_antisymm hk hlast
      exact ⟨last, hchain, hdue⟩
    · rintro ⟨last, hchain, hdue⟩
      exact ⟨_, Nat.le_refl _, last, hchain, Nat.le_refl _, hdue⟩
  · obtain ⟨k, -, last, -, hends⟩ := (hout _).mp h
    exact hends.error_cases
  · exact congrArg Prod.fst (host.watched_extends.renderWithin r r.maxSteps result (s, []))
  · have hcount := dispatches_renderWithin_le host r r.maxSteps result (s, [])
    rwa [show RenderHost.dispatches (s, ([] : List (RenderHost.Happening σ))).2 = 0 from rfl,
      Nat.zero_add] at hcount

/-- Three steps are enough to count down from two, and not from three. -/
theorem renderResult_iff_countdown :
    let host := SessionEngine.host
    let s := SessionEngine.new {}
    ((countdown 3).renderResult host (.of (.int 2)) s).1 = .ok (some (.str "zero")) ∧
      ((countdown 3).renderResult host (.of (.int 3)) s).1 = .error (.inconsistency
        "rendering a Int value did not finish after 3 renderer applications") := by
  intro host s
  have hdue : ∀ n, (countdown 3).Due (.of (.int n)) (.int n) counting :=
    fun n => ⟨rfl, nofun, [], [], rfl, rfl, nofun⟩
  have hmakes : ∀ n, counting.Makes host.toHost (.of (.int n))
      (.ok (.of (if n = 0 then .str "zero" else .int (n - 1)))) := fun n => ⟨rfl, fun s => rfl⟩
  obtain ⟨-, hshown, -⟩ := renderResult_iff (fieldOnly_countdown host.toHost 3) (.of (.int 2)) s
  obtain ⟨-, -, -, hunfinished, -⟩ :=
    renderResult_iff (fieldOnly_countdown host.toHost 3) (.of (.int 3)) s
  constructor
  · refine (hshown _).mpr ⟨3, Nat.le_refl 3, .of (.str "zero"), ?_, rfl, nofun, ?_⟩
    · exact .next (hdue 2) (hmakes 2) (.next (hdue 1) (hmakes 1) (.next (hdue 0) (hmakes 0) .refl))
    · rintro registered hmem
      obtain rfl := List.mem_singleton.mp (Array.mem_toList_iff.mpr hmem)
      rfl
  · refine (hunfinished _).mpr ⟨.of (.int 0), ?_, .int 0, counting, hdue 0, rfl⟩
    exact .next (hdue 3) (hmakes 3) (.next (hdue 2) (hmakes 2) (.next (hdue 1) (hmakes 1) .refl))

end Registry

end

/-! ### A renderer more -/

section

variable {σ : Type} {host : RenderHost σ} {r : Registry}

namespace Registry

/-- Are two outcomes the same, but for the limits that they name if two registries run out of steps? The state
is the same in any case. -/
def SameButLimit (r r' : Registry) (out out' : Except SessionError (Option Value) × σ) : Prop :=
  out = out' ∨ ∃ type s, out = (.error (r.unfinished type), s) ∧ out' = (.error (r'.unfinished type), s)

/-- Within so many steps, what the limit of a registry is makes no difference to more than the error. -/
theorem renderWithin_sameButLimit (host : RenderHost σ) (r r' : Registry)
    (hsame : r'.renderers = r.renderers) (steps : Nat) (result : TypedResult) (s : σ) :
    SameButLimit r r' (r.renderWithin host steps result s) (r'.renderWithin host steps result s) := by
  have hfirst : ∀ {type registered}, r.First type registered → r'.First type registered := by
    intro type registered h
    unfold First
    rw [hsame]
    exact h
  obtain ⟨k, hk, last, t, happlied, hstops⟩ := exists_applied host r steps result s
  have hfollow := renderWithin_of_applied (happlied.imp hfirst) (steps - k)
  rw [Nat.sub_add_cancel hk] at hfollow
  rw [hfollow]
  generalize r.renderWithin host steps result s = out at hstops
  generalize steps - k = left at hstops
  cases hstops with
  | nothing empty => exact .inl (renderWithin_of_stops (.nothing empty)).symm
  | shown value shows refused =>
    exact .inl (renderWithin_of_stops (.shown value shows (hsame ▸ refused))).symm
  | failed due applied =>
    exact .inl (renderWithin_of_stops (.failed (due.imp hfirst) applied)).symm
  | unfinished due =>
    exact .inr ⟨_, t, rfl, renderWithin_of_stops (.unfinished (due.imp hfirst))⟩

theorem First.commit {type : ValueType} {registered : Registered} (h : r.First type registered)
    (pending : PendingRenderer) : (r.commit pending).First type registered := by
  obtain ⟨before, after, hlist, haccepts, hbefore⟩ := h
  refine ⟨before, after ++ [pending.registered], ?_, haccepts, hbefore⟩
  show (r.renderers.push pending.registered).toList = _
  rw [Array.toList_push, hlist, List.append_assoc, List.cons_append]

/-- Where a value is shown, it is that of the result at which rendering stops. -/
theorem Stops.of_some {result : TypedResult} {s : σ} {left : Nat} {v : Value}
    {out : Except SessionError (Option Value) × σ} (h : Stops host r result s left out)
    (hv : out.1 = .ok (some v)) : out.2 = s ∧ result.value = some v := by
  cases h with
  | nothing | failed | unfinished => cases hv
  | shown value shows refused =>
    cases hv
    exact ⟨rfl, value⟩

/-- Rendering stops where it did, unless with a value that the renderer accepts. -/
theorem Stops.commit {result : TypedResult} {s : σ} {left : Nat}
    {out : Except SessionError (Option Value) × σ} (h : Stops host r result s left out)
    {pending : PendingRenderer}
    (hrefused : ∀ v, out.1 = .ok (some v) → pending.registered.renderer.accepts v.type = false) :
    Stops host (r.commit pending) result s left out := by
  cases h with
  | nothing empty => exact .nothing empty
  | @shown left v value shows refused =>
    refine .shown value shows fun registered hmem => ?_
    rcases Array.mem_push.mp hmem with hmem | rfl
    · exact refused registered hmem
    · exact hrefused v rfl
  | failed due applied => exact .failed (due.imp fun h => h.commit pending) applied
  | unfinished due => exact .unfinished (due.imp fun h => h.commit pending)

/-- A renderer that is registered after all others never comes before them. If rendering without it fails,
shows nothing, or shows a value whose type it does not accept, then rendering with it is the same. If a
value is shown that it accepts, then rendering with it goes on from the result that has the value, with
the steps that are left, but for the number of steps that an error may name. -/
theorem renderResult_commit (host : RenderHost σ) (r : Registry) (pending : PendingRenderer)
    (result : TypedResult) (s : σ) :
    let out := r.renderResult host result s
    let longer := r.commit pending
    ((∀ v, out.1 = .ok (some v) → pending.registered.renderer.accepts v.type = false) →
        longer.renderResult host result s = out) ∧
      ∀ v, out.1 = .ok (some v) → pending.registered.renderer.accepts v.type = true →
        ∃ k ≤ r.maxSteps, ∃ last, Applied host r k result s last out.2 ∧ last.value = some v ∧
          SameButLimit longer { longer with maxSteps := r.maxSteps - k }
            (longer.renderResult host result s)
            (renderResult host { longer with maxSteps := r.maxSteps - k } last out.2) := by
  intro out longer
  obtain ⟨k, hk, last, t, happlied, hstops⟩ := exists_applied host r r.maxSteps result s
  have hlonger : longer.renderResult host result s =
      longer.renderWithin host (r.maxSteps - k) last t := by
    have hfollow := renderWithin_of_applied (happlied.imp fun h => h.commit pending) (r.maxSteps - k)
    rwa [Nat.sub_add_cancel hk] at hfollow
  rw [hlonger]
  refine ⟨fun hrefused => renderWithin_of_stops (hstops.commit hrefused), fun v hv _ => ?_⟩
  obtain ⟨rfl, hvalue⟩ := hstops.of_some hv
  exact ⟨k, hk, last, happlied, hvalue, renderWithin_sameButLimit host longer
    { longer with maxSteps := r.maxSteps - k } rfl (r.maxSteps - k) last out.2⟩

/-- A renderer for words goes on where counting down from one ends, with a step left, and makes no
difference to counting down from three, which comes to no word in time. -/
theorem renderResult_commit_countdown :
    let host := SessionEngine.host
    let s := SessionEngine.new {}
    let r := countdown 3
    let longer := r.commit (r.prepare (.inline (.anyOf [.string]) fun _ => .done (.of (.bool true))))
    let one := r.renderResult host (.of (.int 1)) s
    one.1 = .ok (some (.str "zero")) ∧
      (∃ k ≤ 3, ∃ last, Applied host r k (.of (.int 1)) s last one.2 ∧
        last.value = some (.str "zero") ∧ SameButLimit longer { longer with maxSteps := 3 - k }
          (longer.renderResult host (.of (.int 1)) s)
          (renderResult host { longer with maxSteps := 3 - k } last one.2)) ∧
      (longer.renderResult host (.of (.int 1)) s).1 = .ok (some (.bool true)) ∧
      longer.renderResult host (.of (.int 3)) s = r.renderResult host (.of (.int 3)) s := by
  intro host s r longer one
  have hone : one.1 = .ok (some (.str "zero")) := by rfl
  have hthree : (r.renderResult host (.of (.int 3)) s).1 = .error (r.unfinished .int) := by rfl
  obtain ⟨-, hgoes⟩ := renderResult_commit host r
    (r.prepare (.inline (.anyOf [.string]) fun _ => .done (.of (.bool true)))) (.of (.int 1)) s
  obtain ⟨hstays, -⟩ := renderResult_commit host r
    (r.prepare (.inline (.anyOf [.string]) fun _ => .done (.of (.bool true)))) (.of (.int 3)) s
  refine ⟨hone, hgoes _ hone rfl, by rfl, hstays fun v hv => ?_⟩
  rw [hthree] at hv
  cases hv

end Registry

end

end Notebook
