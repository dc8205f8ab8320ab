import Notebook.Proofs.Engine.Correctness
import Notebook.Proofs.Semantics.EarlyReturns

/-!
Declared types.

A snippet declares the type of its last expression, where the form of the expression tells it. The
expression comes to a value of that type (`type_of_resolveExpr`), so the type is right whenever the
snippet gets to its end (`SessionEngine.Reached.type_eq_of_declared`). It need not be if a `return`
ends the snippet before, since what is returned may be anything
(`SessionEngine.new_declares_wrong_type`).
-/

namespace Notebook

/-! ### Types of operators -/

theorem UnaryOp.type_of_not {v w : Value} (h : UnaryOp.not.apply v = .ok w) :
    w.type = .boolean := by
  cases h
  rfl

/-- Comparisons come to truth values. -/
theorem BinaryOp.type_of_declared {op : BinaryOp} {left right : Expr} {type : ValueType}
    (htype : (Expr.binary op left right).declaredType = some type) {l r v : Value}
    (h : op.apply l r = .ok v) : v.type = type := by
  cases op with
  | equal | notEqual =>
    cases htype
    cases h
    rfl
  | less | greater =>
    cases htype
    cases l <;> cases r <;> cases h <;> rfl
  | _ => cases htype

namespace Semantics

/-! ### Evaluations that come to a value -/

section

variable {α β : Type} {x : Exec α} {f : α → Exec β} {s s' : State}

theorem value_of_bind {b : β} (h : (x >>= f) s = (.value b, s')) :
    ∃ a s₁, x s = (.value a, s₁) ∧ f a s₁ = (.value b, s') := by
  rw [Exec.bind_apply] at h
  rcases hfirst : x s with ⟨flow, s₁⟩
  rw [hfirst] at h
  cases flow with
  | value a => exact ⟨a, s₁, rfl, h⟩
  | returned v => cases h
  | failed error => cases h

theorem value_of_settle {r : Except RunError α} {a : α} (h : settle r s = (.value a, s')) :
    r = .ok a := by
  unfold settle at h
  split at h
  · cases h
    rfl
  · cases h

theorem value_of_keep {height : Nat} {v w : Value} (h : keep height v s = (.value w, s')) :
    v = w := by
  have hkept := value_of_settle h
  split at hkept
  · exact Except.ok.inj hkept
  · cases hkept

end

section

variable {calls : Calls} {place place' : Site} {type : ValueType} {s s' : State}

/-- An expression whose form tells a type comes to values of that type only. Names, calls and arithmetic tell
none, so there is no induction: only the outermost operation matters. -/
theorem type_of_resolveExpr {e : Expr} {t : Term} (htype : e.declaredType = some type)
    (hresolve : resolveExpr e place = .ok (t, place')) {height : Nat} {v : Value}
    (h : eval calls t height s = (.value v, s')) : v.type = type := by
  cases e with
  | int value =>
    cases hresolve
    obtain rfl := value_of_keep h
    exact Option.some.inj htype
  | str text =>
    cases hresolve
    obtain rfl := value_of_keep h
    exact Option.some.inj htype
  | bool value =>
    cases hresolve
    obtain rfl := value_of_keep h
    exact Option.some.inj htype
  | array elements =>
    obtain ⟨⟨terms, place₁⟩, -, hresolve⟩ := bind_eq_ok_iff.mp hresolve
    cases hresolve
    obtain ⟨values, s₁, -, hkept⟩ := value_of_bind h
    obtain rfl := value_of_keep hkept
    exact Option.some.inj htype
  | function params body =>
    obtain ⟨⟨commands, inner⟩, -, hresolve⟩ := bind_eq_ok_iff.mp hresolve
    cases hresolve
    obtain rfl := value_of_keep h
    exact Option.some.inj htype
  | unary op operand =>
    cases op with
    | negate => cases htype
    | not =>
      cases htype
      obtain ⟨⟨t₁, place₁⟩, -, hresolve⟩ := bind_eq_ok_iff.mp hresolve
      cases hresolve
      obtain ⟨w, s₁, -, happly⟩ := value_of_bind h
      exact UnaryOp.type_of_not (value_of_settle happly)
  -- Of the operators only comparisons tell a type. The order in which the operands are evaluated makes two
  -- cases of it.
  | binary op left right =>
    unfold resolveExpr at hresolve
    split at hresolve
    · obtain ⟨⟨second, place₁⟩, -, hresolve⟩ := bind_eq_ok_iff.mp hresolve
      obtain ⟨⟨first, place₂⟩, -, hresolve⟩ := bind_eq_ok_iff.mp hresolve
      cases hresolve
      unfold eval at h
      rw [if_pos ‹_›] at h
      obtain ⟨r, s₁, -, h⟩ := value_of_bind h
      obtain ⟨l, s₂, -, happly⟩ := value_of_bind h
      exact BinaryOp.type_of_declared htype (value_of_settle happly)
    · obtain ⟨⟨first, place₁⟩, -, hresolve⟩ := bind_eq_ok_iff.mp hresolve
      obtain ⟨⟨second, place₂⟩, -, hresolve⟩ := bind_eq_ok_iff.mp hresolve
      cases hresolve
      unfold eval at h
      rw [if_neg ‹_›] at h
      obtain ⟨l, s₁, -, h⟩ := value_of_bind h
      obtain ⟨r, s₂, -, happly⟩ := value_of_bind h
      exact BinaryOp.type_of_declared htype (value_of_settle happly)
  | _ => cases htype

/-- A snippet that gets to its end comes to a value of the type that it declares. -/
theorem type_of_resolveStmts {p : Program} {commands : List Command}
    (htype : Program.valueType p = some type)
    (hresolve : resolveStmts p place = .ok (commands, place')) {v : Value}
    (h : evalProgram calls commands s = (.value (some v), s')) : v.type = type := by
  induction p generalizing place commands s with
  | nil => cases htype
  | cons statement rest ih =>
    obtain ⟨⟨c, place₁⟩, hstatement, hresolve⟩ := bind_eq_ok_iff.mp hresolve
    obtain ⟨⟨cs, place₂⟩, hrest, hresolve⟩ := bind_eq_ok_iff.mp hresolve
    cases hresolve
    cases rest with
    | nil =>
      -- The last statement declares a type, so it is an expression.
      cases hrest
      cases statement with
      | expr value =>
        obtain ⟨⟨t, place₃⟩, hvalue, hstatement⟩ := bind_eq_ok_iff.mp hstatement
        cases hstatement
        obtain ⟨w, s₁, heval, hsome⟩ := value_of_bind h
        cases hsome
        exact type_of_resolveExpr htype hvalue heval
      | _ => cases htype
    | cons next more =>
      have hmore : ¬ ∃ value, c = .expr value ∧ cs = [] := by
        rintro ⟨-, -, rfl⟩
        obtain ⟨⟨c', place₃⟩, -, hrest⟩ := bind_eq_ok_iff.mp hrest
        obtain ⟨⟨cs', place₄⟩, -, hrest⟩ := bind_eq_ok_iff.mp hrest
        cases hrest
      -- Only the last statement declares, so the type is that of the rest.
      have happend : Program.valueType ([statement] ++ next :: more) =
          Program.valueType (next :: more) := Program.valueType_append (List.cons_ne_nil next more)
      rw [evalProgram_cons hmore] at h
      obtain ⟨-, s₁, -, h⟩ := value_of_bind h
      exact ih (happend.symm.trans htype) hrest h

end

/-- Does a `return` of its own end a program that is run at a place, against some globals? Returns inside of
functions that it calls do not count. -/
def EndsByReturn (place : Site) (maxFrames : Nat) (p : Program) (globals : Array Value) : Prop :=
  ∃ commands place' v s, resolveStmts p place = .ok (commands, place') ∧
    evalProgram (callsWithin place'.routines maxFrames (maxFrames - 1)) commands
      ⟨Store.padded globals place'.scope.slots, #[]⟩ = (.returned v, s)

/-- A program without `return` gets to its end. -/
theorem not_endsByReturn {place : Site} {maxFrames : Nat} {p : Program} {globals : Array Value}
    (h : Program.returns p = false) : ¬ EndsByReturn place maxFrames p globals := by
  rintro ⟨commands, place', v, s, hresolve, hreturned⟩
  have hstays := evalProgram_stays (resolveStmts_stays
    (callsWithin place'.routines maxFrames (maxFrames - 1)) p hresolve h)
  exact hstays _ v (congrArg Prod.fst hreturned)

/-- What a program comes to is of the type that it declares, unless a `return` ends it. -/
theorem type_of_interpret {place : Site} {maxFrames : Nat} {p : Program} {globals : Array Value}
    {ran : Ran (Option Value)} (hinterpret : interpret place maxFrames p globals = .ok ran)
    (hends : ¬ EndsByReturn place maxFrames p globals) {type : ValueType}
    (htype : Program.valueType p = some type) {v : Value} (hresult : ran.result = .ok (some v)) :
    v.type = type := by
  obtain ⟨⟨commands, place'⟩, hresolve, hinterpret⟩ := bind_eq_ok_iff.mp hinterpret
  cases hinterpret
  unfold run at hresult
  rcases hprogram : evalProgram (callsWithin place'.routines maxFrames (maxFrames - 1)) commands
    ⟨Store.padded globals place'.scope.slots, #[]⟩ with ⟨flow, s⟩
  simp only [hprogram] at hresult
  cases flow with
  | value value =>
    cases hresult
    exact type_of_resolveStmts htype hresolve hprogram
  | returned w => exact absurd ⟨commands, place', w, s, hresolve, hprogram⟩ hends
  | failed error => cases hresult

end Semantics

namespace SessionEngine

variable {config : Config} {e : SessionEngine} {r : Record}

/-- What an evaluation gives is what the evaluator has for the program, and the type that the program
declares. -/
theorem Sound.ran_of_evalAs (hs : e.Sound config r) {n : SnippetId} {source : String}
    {evaluation : Evaluation} (h : (Engine.evalAs parts n source e).1 = .ok evaluation) :
    ∃ p ran, Program.ofSource source = .ok p ∧
      Semantics.interpret (e.compiler.compiler.site r.routines) config.maxCallDepth p
        e.evaluator.globals = .ok ran ∧
      ran.result = .ok evaluation.result.value ∧
      evaluation.result.declaredType = evaluation.result.value.bind fun _ =>
        (Program.valueType p).map ValueType.name := by
  rcases evalAs_cases hs n source with ⟨-, error, files, heval⟩ |
    ⟨evaluation', e', p, u, stored, commands, place, heval, hkept⟩
  · rw [heval] at h
    cases h
  · obtain rfl : evaluation' = evaluation := by
      rw [heval] at h
      exact Except.ok.inj h
    obtain ⟨ran, hinterpret, -, hrun⟩ := hs.run_eq_after hkept.compiles ⟨n, e.compiler.maxCallDepth⟩
    rw [hs.compilerDepth, hs.storeDepth, Nat.min_self] at hinterpret
    obtain ⟨handle, heval'⟩ :=
      evalAs_eq hs hkept.parsed hkept.compiles hkept.persisted hkept.ran
    rw [heval] at heval'
    have hevaluation := Except.ok.inj (congrArg Prod.fst heval')
    -- The value is that of the run, and the type is the one in the unit, which the compiler took from the
    -- program.
    refine ⟨p, ran, hkept.parsed, hinterpret, ?_, ?_⟩
    · rw [hkept.ran, Store.after] at hrun
      cases hresult : ran.result with
      | error error =>
        rw [hresult] at hrun
        cases hrun
      | ok value =>
        rw [hresult] at hrun
        injection congrArg Prod.fst hrun with hvalue
        rw [hvalue]
    · rw [← Compiler.compile_declaredType hkept.compiles]
      exact congrArg (·.result.declaredType) hevaluation

/-- The value that is foreseen for a snippet comes with the type that its program declares. -/
theorem Sound.result_of_foreseen (hs : e.Sound config r) (hidle : e.executing = false) {α : Type}
    (observe : SnippetId → SessionEngine → α × SessionEngine)
    (hquiet : ∀ n e₁, (observe n e₁).2 = e₁) {source : String} {v : Value}
    (hforeseen : e.started.foreseen r.routines e.compiler.nextSnippet source = some (some v))
    {type : Option ValueType}
    (htype : (Program.ofSource source).toOption.map Program.valueType = some type) :
    ∃ evaluation, (Engine.evalObserving parts observe source e).1.result = .ok evaluation ∧
      evaluation.result = ⟨some v, type.map ValueType.name⟩ := by
  obtain ⟨evaluation, hresult, hvalue⟩ := hs.ok_of_foreseen observe hidle hquiet hforeseen
  have heval := (evalObserving_eq observe hidle source).1.symm.trans hresult
  rw [hquiet] at heval
  obtain ⟨p, ran, hparse, -, -, hdeclared⟩ := hs.started.ran_of_evalAs heval
  rw [hparse] at htype
  obtain rfl : Program.valueType p = type := Option.some.inj htype
  rw [hvalue] at hdeclared
  refine ⟨evaluation, hresult, ?_⟩
  obtain ⟨⟨value, declaredType⟩, handle⟩ := evaluation
  cases hvalue
  cases hdeclared
  rfl

/-- The type that a snippet declares is the type of its value, unless a `return` of its own ends the
snippet before its last expression does. -/
theorem Reached.type_eq_of_declared (h : Reached config e r) {α : Type}
    {observe : SnippetId → SessionEngine → α × SessionEngine} {units : List SerializedUnit}
    (hmoves : Asides e.started (observe e.compiler.nextSnippet e.started).2 units)
    {source : String} {p : Program} (hparse : Program.ofSource source = .ok p)
    (hends : ¬ Semantics.EndsByReturn (e.compiler.compiler.site r.routines) config.maxCallDepth p
      e.evaluator.globals)
    {evaluation : Evaluation}
    (hresult : (Engine.evalObserving parts observe source e).1.result = .ok evaluation)
    {v : Value} (hvalue : evaluation.result.value = some v) {type : String}
    (htype : evaluation.result.declaredType = some type) : type = v.typeName := by
  obtain ⟨hs, hidle⟩ := h.sound
  obtain ⟨archive, files, hseen⟩ := hmoves.eq hs.started
  have heval := (evalObserving_eq observe hidle source).1.symm.trans hresult
  obtain ⟨p', ran, hparse', hinterpret, hran, hdeclared⟩ :=
    (hs.started.asides hmoves).ran_of_evalAs heval
  obtain rfl := Except.ok.inj (hparse.symm.trans hparse')
  rw [hseen] at hinterpret
  rw [hvalue] at hran hdeclared
  rw [htype] at hdeclared
  obtain ⟨valueType, hvalueType, rfl⟩ := Option.map_eq_some_iff.mp hdeclared.symm
  exact congrArg ValueType.name (Semantics.type_of_interpret hinterpret hends hvalueType hran).symm

/-- A snippet in which only a function returns early. -/
theorem comparison_type_eq_of_declared :
    let source := "let f = fn(n) \x7b if (n < 0) \x7b return 0; \x7d n \x7d; f(1 - 2) == 0"
    ∃ evaluation, (Engine.evalObserving parts (fun _ e => ((), e)) source
        (SessionEngine.new {})).1.result = .ok evaluation ∧
      evaluation.result.declaredType = some "Boolean" ∧
      evaluation.result.value = some (.bool true) ∧ "Boolean" = (Value.bool true).typeName := by
  intro source
  have hforeseen : (SessionEngine.new {}).started.foreseen [] 0 source =
      some (some (.bool true)) := by decide +kernel
  have htype : (Program.ofSource source).toOption.map Program.valueType = some (some .boolean) := by
    decide +kernel
  have hstays : (Program.ofSource source).toOption.map Program.returns = some false := by
    decide +kernel
  obtain ⟨evaluation, hresult, hevaluation⟩ := (Sound.new {}).result_of_foreseen rfl
    (fun _ e => ((), e)) (fun _ _ => rfl) hforeseen htype
  have hvalue : evaluation.result.value = some (.bool true) := by rw [hevaluation]
  have hdeclared : evaluation.result.declaredType = some "Boolean" := by
    rw [hevaluation]
    rfl
  cases hparse : Program.ofSource source with
  | error cause =>
    rw [hparse] at hstays
    cases hstays
  | ok p =>
    rw [hparse] at hstays
    exact ⟨evaluation, hresult, hdeclared, hvalue, Reached.new.type_eq_of_declared .refl hparse
      (Semantics.not_endsByReturn (Option.some.inj hstays)) hresult hvalue hdeclared⟩

/-- A `return` before the last expression: the value is a string, and the declared type is that of the
number after it. -/
theorem new_declares_wrong_type :
    ∃ evaluation, (Engine.evalObserving parts (fun _ e => ((), e)) "return \"a\"; 1"
        (SessionEngine.new {})).1.result = .ok evaluation ∧
      evaluation.result = ⟨some (.str "a"), some "Int"⟩ ∧ "Int" ≠ (Value.str "a").typeName := by
  have hforeseen : (SessionEngine.new {}).started.foreseen [] 0 "return \"a\"; 1" =
      some (some (.str "a")) := by decide +kernel
  have htype : (Program.ofSource "return \"a\"; 1").toOption.map Program.valueType =
      some (some .int) := by decide +kernel
  obtain ⟨evaluation, hresult, hevaluation⟩ := (Sound.new {}).result_of_foreseen rfl
    (fun _ e => ((), e)) (fun _ _ => rfl) hforeseen htype
  exact ⟨evaluation, hresult, hevaluation, by decide⟩

end SessionEngine

end Notebook
