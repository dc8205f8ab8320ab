import Notebook.Proofs.Engine.NameMeaning

/-!
What the handle of a snippet shows later on.

A handle looks a name up in the store as it is by then, whoever bound the name last. `SessionEngine.Continues`
is a session going on from some moment, with a log of the snippets that ran.

* `Continues.grows`: the globals that there were keep their values, whatever comes.
* `Continues.global?_eq`: a name has the value that the last snippet of the log left that declares it
  (`lastLeft`), and its first value if there is none.
* `Reached.handle_get`: so a handle shows what its snippet bound to a name until another snippet that
  declares the name has run, although the value is still there.
* `new_handle_loses`: a handle that shows the value of another snippet.
-/

namespace Notebook

/-- Does a text declare a name, outside of function literals? -/
def declares (name source : String) : Bool :=
  match Program.ofSource source with
  | .error _ => false
  | .ok p => decide (name ∈ Program.declared p)

theorem declares_of_parsed {source : String} {p : Program} (h : Program.ofSource source = .ok p)
    (name : String) : declares name source = decide (name ∈ Program.declared p) := by
  unfold declares
  rw [h]

namespace SessionEngine

variable {config : Config} {e e' e₁ e₂ : SessionEngine} {r : Record}

/-! ### One snippet -/

/-- A snippet that ran binds each name that it declares to a value. -/
theorem Sound.bound_of_kept {n : SnippetId} {source : String} {value : Option Value} {p : Program}
    {u : CompiledUnit} {stored : SerializedUnit} {commands : List Command} {place : Site}
    (hs : e.Sound config r) (h : Kept r.routines n source value e e' p u stored commands place)
    {name : String} (hname : name ∈ Program.declared p) :
    ∃ i v, e'.evaluator.bindings.get? name = some ⟨i, n⟩ ∧ e'.evaluator.globals[i]? = some v := by
  have hdeclared := h.compiled.exists_declaration (congrArg Compiler.declarations hs.inStep.idle)
    hs.inStep.session hs.inStep.valid h.compiles hname
  obtain ⟨i, hbound⟩ := Store.line_of_bind (n := u.snippet) (t := e.evaluator.bindings) hdeclared
  rw [← Store.bindings_of_finished h.ran, h.compiled.snippet] at hbound
  have hs' := hs.kept h
  have hresolve : e'.compiler.compiler.scope.resolve name = some (.global i) := by
    refine (hs'.names name i).mpr ?_
    rw [hbound]
    rfl
  exact ⟨i, _, hbound, Array.getElem?_eq_getElem (hs'.agreement.bound name i hresolve)⟩

/-- A snippet that ran leaves the names alone that it does not declare. They are bound as before, and their
globals are not assigned, since code assigns new ones only. -/
theorem Sound.global?_of_kept {n : SnippetId} {source : String} {value : Option Value} {p : Program}
    {u : CompiledUnit} {stored : SerializedUnit} {commands : List Command} {place : Site}
    (hs : e.Sound config r) (h : Kept r.routines n source value e e' p u stored commands place)
    {name : String} (hname : name ∉ Program.declared p) :
    e'.evaluator.global? name = e.evaluator.global? name := by
  have hbindings : e'.evaluator.bindings.get? name = e.evaluator.bindings.get? name := by
    rw [Store.bindings_of_finished h.ran]
    refine Store.get?_bind_of_notMem fun d hd hsame => hname ?_
    rw [← hsame]
    exact h.compiled.name_mem_declared (congrArg Compiler.declarations hs.inStep.idle)
      hs.inStep.session hs.inStep.valid h.compiles hd
  unfold Store.global?
  rw [hbindings]
  cases hbound : e.evaluator.bindings.get? name with
  | none => rfl
  | some binding =>
    have hresolve : e.compiler.compiler.scope.resolve name = some (.global binding.index) := by
      refine (hs.names name binding.index).mpr ?_
      rw [hbound]
      rfl
    have hvalue := Array.getElem?_eq_getElem (hs.agreement.bound name _ hresolve)
    exact ((hs.kept_owns h).1.globals _ _ hvalue).trans hvalue.symm

variable {α : Type} (observe : SnippetId → SessionEngine → α × SessionEngine)

/-- What an evaluation does to the store: nothing if it fails. Otherwise it binds the names that the text
declares, and leaves all other names. -/
theorem Reached.evaluated_cases (h : Reached config e r) (source : String) {units : List SerializedUnit}
    (hmoves : Asides e.started (observe e.compiler.nextSnippet e.started).2 units) :
    ((∃ error, (Engine.evalObserving parts observe source e).1.result = .error error) ∧
      (Engine.evalObserving parts observe source e).2.evaluator = e.evaluator) ∨
    ∃ evaluation p, (Engine.evalObserving parts observe source e).1.result = .ok evaluation ∧
      Program.ofSource source = .ok p ∧
      (∀ name ∈ Program.declared p, ∃ i v,
        (Engine.evalObserving parts observe source e).2.evaluator.bindings.get? name =
            some ⟨i, e.compiler.nextSnippet⟩ ∧
          (Engine.evalObserving parts observe source e).2.evaluator.globals[i]? = some v) ∧
      ∀ name, name ∉ Program.declared p →
        (Engine.evalObserving parts observe source e).2.evaluator.global? name =
          e.evaluator.global? name := by
  obtain ⟨hs, hidle⟩ := h.sound
  obtain ⟨hresult, hafter⟩ := evalObserving_eq observe hidle source
  -- What is done meanwhile does not touch the store.
  obtain ⟨archive, files, hseen⟩ := hmoves.eq hs.started
  have hsound := hs.started.asides hmoves
  have hstore : (observe e.compiler.nextSnippet e.started).2.evaluator = e.evaluator := by
    rw [hseen]
    rfl
  rw [hresult, hafter]
  rcases evalAs_cases hsound e.compiler.nextSnippet source with ⟨-, error, files', heval⟩ |
    ⟨evaluation, e', p, u, stored, commands, place, heval, hkept⟩
  · rw [heval]
    exact .inl ⟨⟨error, rfl⟩, hstore⟩
  · rw [heval]
    refine .inr ⟨evaluation, p, rfl, hkept.parsed, ?_, ?_⟩
    · intro name hname
      exact hsound.bound_of_kept hkept hname
    · intro name hname
      rw [← hstore]
      exact hsound.global?_of_kept hkept hname

/-! ### A session that goes on -/

/-- What an evaluation adds to a log: its text and the engine that it left, if the snippet ran. -/
def logged (source : String) (after : SessionEngine) :
    Except SessionError Evaluation → List (String × SessionEngine)
  | .ok _ => [(source, after)]
  | .error _ => []

/-- From one moment of a session to a later one between two evaluations, with a log of the snippets that ran:
their texts, and the engines that they left. Failed evaluations happen, but are not in the log. -/
inductive Continues (start : SessionEngine) : SessionEngine → List (String × SessionEngine) → Prop where
  | now : Continues start start []
  | aside {e e' : SessionEngine} {log : List (String × SessionEngine)} {units : List SerializedUnit} :
      Continues start e log → Aside e e' units → Continues start e' log
  | evaluated {e : SessionEngine} {log : List (String × SessionEngine)} {units : List SerializedUnit}
      {α : Type} (observe : SnippetId → SessionEngine → α × SessionEngine) (source : String) :
      Continues start e log →
      Asides e.started (observe e.compiler.nextSnippet e.started).2 units →
      Continues start (Engine.evalObserving parts observe source e).2
        (log ++ logged source (Engine.evalObserving parts observe source e).2
          (Engine.evalObserving parts observe source e).1.result)

/-- The value that the snippets of a log leave a name: each that declares the name replaces what it was. Which
snippets declare it is read off their texts. -/
def lastLeft (name : String) (log : List (String × SessionEngine)) (first : Option Value) :
    Option Value :=
  log.foldl (fun v ran => if declares name ran.1 then ran.2.evaluator.global? name else v) first

variable {log : List (String × SessionEngine)}

theorem Continues.reached (h : Continues e e' log) (hreached : Reached config e r) :
    ∃ r', Reached config e' r' := by
  induction h with
  | now => exact ⟨r, hreached⟩
  | aside _ hmove ih =>
    obtain ⟨r', hr'⟩ := ih
    exact ⟨_, hr'.aside hmove⟩
  | evaluated observe source _ hmoves ih =>
    obtain ⟨r', hr'⟩ := ih
    exact ⟨_, hr'.evaluated observe source hmoves⟩

/-- A snippet that runs is logged. -/
theorem Continues.eval {start : SessionEngine} (h : Continues start e log) {source : String}
    {evaluation : Evaluation} (hok : Engine.eval parts source e = (.ok evaluation, e')) :
    Continues start e' (log ++ [(source, e')]) := by
  have hnext := h.evaluated (fun _ e => ((), e)) source .refl
  have hresult : (Engine.evalObserving parts (fun _ e => ((), e)) source e).1.result =
      .ok evaluation := congrArg Prod.fst hok
  have hafter : (Engine.evalObserving parts (fun _ e => ((), e)) source e).2 = e' :=
    congrArg Prod.snd hok
  rw [hresult, hafter] at hnext
  exact hnext

/-- Globals keep their values for good, and so do constants. -/
theorem Continues.grows (h : Continues e e' log) (hreached : Reached config e r) :
    e.evaluator.Grows e'.evaluator := by
  induction h with
  | now => exact .refl _
  | aside hgoes hmove ih =>
    obtain ⟨r', hr'⟩ := hgoes.reached hreached
    obtain ⟨archive, files, rfl, -⟩ := hmove.eq hr'.sound.1
    exact ih
  | evaluated observe source hgoes hmoves ih =>
    obtain ⟨r', hr'⟩ := hgoes.reached hreached
    exact ih.trans (hr'.sound.1.evaluated_owns observe hr'.sound.2 source hmoves).1

/-- A name has the value that it was left last. Between two snippets that declare it nothing changes that:
neither other snippets nor calls nor failures do. -/
theorem Continues.global?_eq (h : Continues e e' log) (hreached : Reached config e r) (name : String) :
    e'.evaluator.global? name = lastLeft name log (e.evaluator.global? name) := by
  induction h with
  | now => rfl
  | aside hgoes hmove ih =>
    obtain ⟨r', hr'⟩ := hgoes.reached hreached
    obtain ⟨archive, files, rfl, -⟩ := hmove.eq hr'.sound.1
    exact ih
  | evaluated observe source hgoes hmoves ih =>
    obtain ⟨r', hr'⟩ := hgoes.reached hreached
    unfold lastLeft at ih ⊢
    rw [List.foldl_append, ← ih]
    rcases hr'.evaluated_cases observe source hmoves with
      ⟨⟨error, hresult⟩, hstore⟩ | ⟨evaluation, p, hresult, hparse, -, hothers⟩
    · rw [hresult, hstore]
      rfl
    · rw [hresult]
      show _ = if declares name source then _ else _
      rw [declares_of_parsed hparse]
      by_cases hname : name ∈ Program.declared p
      · rw [if_pos (decide_eq_true hname)]
      · rw [hothers name hname, if_neg (by simpa using hname)]

/-- Snippets that do not declare a name leave it its value. -/
theorem lastLeft_of_spared {name : String} (first : Option Value)
    (h : ∀ ran ∈ log, declares name ran.1 = false) : lastLeft name log first = first := by
  induction log with
  | nil => rfl
  | cons ran rest ih =>
    obtain ⟨hran, hrest⟩ := List.forall_mem_cons.mp h
    refine Eq.trans ?_ (ih hrest)
    unfold lastLeft
    rw [List.foldl_cons, hran]
    rfl

/-! ### Handles -/

/-- The handle of a snippet shows what the snippet bound to a name as long as no other snippet has run that
declares the name, and from then on what the last of these bound. The global that the snippet bound keeps
its value all the time. -/
theorem Reached.handle_get (h : Reached config e r) {source : String} {units : List SerializedUnit}
    {evaluation : Evaluation}
    (hmoves : Asides e.started (observe e.compiler.nextSnippet e.started).2 units)
    (hok : (Engine.evalObserving parts observe source e).1.result = .ok evaluation) :
    let e₁ := (Engine.evalObserving parts observe source e).2
    ∃ p, Program.ofSource source = .ok p ∧ ∀ name ∈ Program.declared p, ∃ i v,
      e₁.evaluator.bindings.get? name = some ⟨i, e.compiler.nextSnippet⟩ ∧
      evaluation.handle.get e₁.evaluator name = some v ∧
      ∀ e₂ log, Continues e₁ e₂ log →
        e₂.evaluator.globals[i]? = some v ∧
        evaluation.handle.get e₂.evaluator name = lastLeft name log (some v) ∧
        ((∀ ran ∈ log, declares name ran.1 = false) →
          evaluation.handle.get e₂.evaluator name = some v) := by
  intro e₁
  have hreached : Reached config e₁ _ := h.evaluated observe source hmoves
  rcases h.evaluated_cases observe source hmoves with ⟨⟨error, hresult⟩, -⟩ |
    ⟨evaluation', p, -, hparse, hbound, -⟩
  · cases hresult.symm.trans hok
  refine ⟨p, hparse, fun name hname => ?_⟩
  obtain ⟨i, v, hbinding, hvalue⟩ := hbound name hname
  have hfirst : e₁.evaluator.global? name = some v := by
    unfold Store.global?
    rw [hbinding]
    exact hvalue
  refine ⟨i, v, hbinding, hfirst, fun e₂ log hgoes => ?_⟩
  -- A handle asks the store for the name, so it shows whatever the name was left last; the slot itself is never
  -- written again.
  have hlast := hgoes.global?_eq hreached name
  rw [hfirst] at hlast
  refine ⟨(hgoes.grows hreached).globals i v hvalue, hlast, fun hspared => ?_⟩
  exact hlast.trans (lastLeft_of_spared (some v) hspared)

/-- A snippet that declares one name, one that uses it, and one that declares it again. The handle of the
first one shows its own value, and then that of the last one. -/
theorem handle_get_of_reassigned :
    let e := SessionEngine.new {}
    let e₁ : SessionEngine := (Engine.eval parts "let a = 1;" e).2
    let e₂ : SessionEngine := (Engine.eval parts "let b = a + 1;" e₁).2
    let e₃ : SessionEngine := (Engine.eval parts "let a = \"one\";" e₂).2
    ∃ evaluation, Engine.eval parts "let a = 1;" e = (.ok evaluation, e₁) ∧
      evaluation.handle.get e₁.evaluator "a" = some (.int 1) ∧
      evaluation.handle.get e₂.evaluator "a" = some (.int 1) ∧
      evaluation.handle.get e₃.evaluator "a" = some (.str "one") := by
  intro e e₁ e₂ e₃
  have hforeseen : ((e.foreseenAfter [] "let a = 1;").bind fun e₁ =>
      (e₁.foreseenAfter (routinesAfter "let a = 1;" e []) "let b = a + 1;").bind fun e₂ =>
        (e₂.foreseenAfter (routinesAfter "let b = a + 1;" e₁ (routinesAfter "let a = 1;" e []))
          "let a = \"one\";").map fun e₃ => (e₁.evaluator.global? "a", e₃.evaluator.global? "a")) =
      some (some (.int 1), some (.str "one")) := by decide +kernel
  obtain ⟨e₁', hfirst, hforeseen⟩ := Option.bind_eq_some_iff.mp hforeseen
  obtain ⟨e₂', hsecond, hforeseen⟩ := Option.bind_eq_some_iff.mp hforeseen
  obtain ⟨e₃', hthird, hvalues⟩ := Option.map_eq_some_iff.mp hforeseen
  obtain ⟨hvalue₁, hvalue₃⟩ := Prod.mk.inj hvalues
  obtain ⟨evaluation, r₁, hran₁, hreached₁, hroutines₁⟩ := Reached.new.eval_of_foreseenAfter hfirst
  obtain ⟨second, r₂, hran₂, hreached₂, hroutines₂⟩ :=
    hreached₁.eval_of_foreseenAfter (hroutines₁ ▸ hsecond)
  obtain ⟨third, -, hran₃, -, -⟩ :=
    hreached₂.eval_of_foreseenAfter (hroutines₂ ▸ hroutines₁ ▸ hthird)
  obtain rfl : e₁ = e₁' := congrArg Prod.snd hran₁
  obtain rfl : e₂ = e₂' := congrArg Prod.snd hran₂
  obtain rfl : e₃ = e₃' := congrArg Prod.snd hran₃
  have hnew : Reached {} e {} := .new
  obtain ⟨p, hparse, hnames⟩ := hnew.handle_get (fun _ e => ((), e)) .refl (congrArg Prod.fst hran₁)
  have hdeclared : (Program.ofSource "let a = 1;").toOption.map Program.declared = some ["a"] := by
    decide +kernel
  rw [hparse] at hdeclared
  have hmem : "a" ∈ Program.declared p := Option.some.inj hdeclared ▸ List.mem_singleton_self "a"
  obtain ⟨i, v, -, hget, hlater⟩ := hnames "a" hmem
  have hget₁ : evaluation.handle.get e₁.evaluator "a" = some v := hget
  obtain rfl : v = .int 1 := Option.some.inj (hget₁.symm.trans hvalue₁)
  have hgoes₂ : Continues e₁ e₂ _ := Continues.now.eval hran₂
  obtain ⟨-, -, hspared⟩ := hlater e₂ _ hgoes₂
  obtain ⟨-, hlast, -⟩ := hlater e₃ _ (hgoes₂.eval hran₃)
  refine ⟨evaluation, hran₁, hget₁, hspared ?_, hlast.trans ?_⟩
  · intro ran hran
    obtain rfl := List.mem_singleton.mp hran
    decide +kernel
  · have hdeclares : declares "a" "let a = \"one\";" = true := by decide +kernel
    simp only [lastLeft, List.nil_append, List.foldl_append, List.foldl_cons, List.foldl_nil, hdeclares,
      if_true]
    exact hvalue₃

/-- After two snippets that declare the same name, the handles of both show what the second one bound,
although the first one's value is still there. -/
theorem new_handle_loses :
    let e := SessionEngine.new {}
    let e₁ : SessionEngine := (Engine.eval parts "let a = 1;" e).2
    let e₂ : SessionEngine := (Engine.eval parts "let a = 2;" e₁).2
    ∃ first second, Engine.eval parts "let a = 1;" e = (.ok first, e₁) ∧
      Engine.eval parts "let a = 2;" e₁ = (.ok second, e₂) ∧
      first.handle.get e₁.evaluator "a" = some (.int 1) ∧
      first.handle.get e₂.evaluator "a" = some (.int 2) ∧
      e₂.evaluator.globals[0]? = some (.int 1) := by
  intro e e₁ e₂
  have hforeseen : ((e.foreseenAfter [] "let a = 1;").bind fun e₁ =>
      (e₁.foreseenAfter (routinesAfter "let a = 1;" e []) "let a = 2;").map fun e₂ =>
        (e₁.evaluator.global? "a", e₂.evaluator.global? "a", e₂.evaluator.globals[0]?)) =
      some (some (.int 1), some (.int 2), some (.int 1)) := by decide +kernel
  obtain ⟨e₁', hfirst, hforeseen⟩ := Option.bind_eq_some_iff.mp hforeseen
  obtain ⟨e₂', hsecond, hvalues⟩ := Option.map_eq_some_iff.mp hforeseen
  obtain ⟨first, r₁, hran₁, hreached₁, hroutines₁⟩ := Reached.new.eval_of_foreseenAfter hfirst
  rw [← hroutines₁] at hsecond
  obtain ⟨second, -, hran₂, -, -⟩ := hreached₁.eval_of_foreseenAfter hsecond
  obtain rfl : e₁ = e₁' := congrArg Prod.snd hran₁
  obtain rfl : e₂ = e₂' := congrArg Prod.snd hran₂
  obtain ⟨hget₁, hget₂, hkept⟩ : _ ∧ _ ∧ _ := by simpa only [Prod.mk.injEq] using hvalues
  exact ⟨first, second, hran₁, hran₂, hget₁, hget₂, hkept⟩

end SessionEngine

end Notebook
