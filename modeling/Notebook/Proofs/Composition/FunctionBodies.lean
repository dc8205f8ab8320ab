import Notebook.Proofs.Compiler.PoolOffset
import Notebook.Proofs.Machine.CallNesting
import Notebook.Proofs.Renderer.InlineHandlers

/-!
Programs as snippets, and as the bodies of functions.

A program without `let`s and function literals is the body of the function literal `Program.asBody`. Inside of
it every name means what it means outside, so both have the same commands and constants.

* `Compiler.compile_asBody`: the literal compiles if the program does, or there is no room for one more constant.
* `Semantics.evalProgram_eq`: a snippet keeps the value of its commands if the very last of them is an
  expression. A body keeps that of the last command which is not empty.
* `Semantics.call_agrees`: a snippet and the function that has its commands for a body come to the same but for
  this, and but for the limits.
* `Reached.body_agrees`: so do a program as a snippet of a session, and the function that its literal stands for.
-/

namespace Notebook

open Store (padded)

/-! ### Programs in a function literal -/

def Program.asBody (p : Program) : Program := [.expr (.function [] p)]

/-- Does a program end with an expression that empty statements come after? As a snippet it has no value then,
while a block or a body has the value of the expression. -/
def Program.HidesValue (p : Program) : Prop :=
  ∃ before value empties, p = before ++ .expr value :: empties ∧ empties ≠ [] ∧ ∀ s ∈ empties, s = .empty

theorem Program.HidesValue.cons {p : Program} (h : HidesValue p) (s : Stmt) : HidesValue (s :: p) := by
  obtain ⟨before, value, empties, rfl, hsome, hempty⟩ := h
  exact ⟨s :: before, value, empties, rfl, hsome, hempty⟩

/-- Only programs that end with an empty statement do so. -/
theorem Program.HidesValue.ends_empty {p : Program} (h : HidesValue p) : p.getLast? = some .empty := by
  obtain ⟨before, value, empties, rfl, hsome, hempty⟩ := h
  obtain ⟨s, rest, rfl⟩ := List.exists_cons_of_ne_nil hsome
  rw [List.getLast?_append_of_ne_nil _ (List.cons_ne_nil _ _), List.getLast?_cons_cons]
  have hlast := hempty _ (List.getLast_mem hsome)
  rw [List.getLast?_eq_some_getLast hsome, hlast]

/-- Inside of a function without parameters, the names of the session mean what they mean outside. -/
theorem Scope.resolve_enter_nil {scope : Scope} (h : scope.isSession = true) (name : String) :
    (scope.enter []).resolve name = scope.resolve name := by
  cases scope with
  | function level enclosing => cases h
  | session level =>
    show (resolve name (.session level)).map Reference.fromInside = resolve name (.session level)
    unfold resolve
    split <;> rfl

/-! ### Resolving -/

/-- Two places that differ in the scope alone. -/
structure Site.Moved (scope scope' : Scope) (s s' : Site) : Prop where
  scope : s.scope = scope
  eq : s' = { s with scope := scope' }

/-- Where names mean the same, bare programs do. -/
theorem Site.Moved.comparison {scope scope' : Scope}
    (hnames : ∀ name, scope'.resolve name = scope.resolve name) :
    Comparison .bare .equal id id fun _ => Site.Moved scope scope' where
  ident {_ name s _} _ h := by
    obtain ⟨rfl, rfl⟩ := h
    intro t after hres
    unfold resolveExpr at hres ⊢
    simp only [id, hnames] at hres ⊢
    split at hres <;> cases hres <;> exact ⟨_, _, rfl, rfl, rfl, rfl⟩
  literal _ h := by
    obtain ⟨hscope, rfl⟩ := h
    exact ⟨rfl, hscope, rfl⟩
  define hlet := nomatch hlet
  assign hlet := nomatch hlet
  enter hliteral := nomatch hliteral
  function hliteral := nomatch hliteral

/-- Inside of a function without parameters, a bare program resolves to the same commands as outside. -/
theorem resolveStmts_inside {p : Program} {s place : Site} {cs : List Command} (hbare : Program.isBare p = true)
    (hsession : s.scope.isSession = true) (hres : resolveStmts p s = .ok (cs, place)) :
    place.scope = s.scope ∧ resolveStmts p { s with scope := s.scope.enter [] } =
      .ok (cs, { place with scope := s.scope.enter [] }) := by
  have hkind : ProgramKind.bare.stmts [] p := hbare
  have hmoved : Site.Moved s.scope (s.scope.enter []) s { s with scope := s.scope.enter [] } := ⟨rfl, rfl⟩
  obtain ⟨cs', place', hinside, hcommands, hscope, rfl⟩ :=
    (Site.Moved.comparison (Scope.resolve_enter_nil hsession)).program hkind hmoved hres
  obtain rfl : cs = cs' := hcommands
  exact ⟨hscope, hinside⟩

/-! ### Compiling -/

namespace Compiler

variable {scope : Scope} {c c' : Compiler} {p : Program}

/-- Two compilers at the same place of a program, the second one inside of a function without parameters. Their
buffers agree, so the code is the same up to how it ends. -/
def Inside (scope : Scope) (c c' : Compiler) : Prop :=
  c.scope = scope ∧ c' = { c with scope := scope.enter [] }

theorem Inside.alike (hsession : scope.isSession = true) : Alike (Inside scope) where
  buffer := by
    rintro c _ ⟨-, rfl⟩
    rfl
  withBuffer := by
    rintro c _ ⟨hscope, rfl⟩ buffer
    exact ⟨hscope, rfl⟩
  resolve := by
    rintro c _ ⟨rfl, rfl⟩ name
    exact Scope.resolve_enter_nil hsession name
  size := by
    rintro c _ ⟨-, rfl⟩
    rfl
  literal := by
    rintro c _ ⟨hscope, rfl⟩ v -
    exact ⟨hscope, rfl⟩

/-- A bare program compiles inside of a function if it compiles as a snippet, with the same constants. -/
theorem topLevel_inside (hsession : scope.isSession = true) : ∀ (p : Program) {c c' : Compiler},
    Program.isBare p = true → Inside scope c c' →
    Outcomes (fun done c' => c'.constants = done.constants) (topLevel p c) (stmts p c')
  | [], c, c', _, hc => by
    obtain ⟨-, rfl⟩ := hc
    show Outcomes _ (c.emit .ret []) _
    rw [emit_plain .ret rfl]
    exact .ok rfl
  | s :: rest, c, c', hbare, hc => by
    obtain ⟨hfirst, hrest⟩ := Bool.and_eq_true_iff.mp hbare
    have hwalk := (Inside.alike hsession).related (P := .bare) (.inr rfl)
    by_cases hvalue : ∃ value, s = .expr value ∧ rest = []
    · obtain ⟨value, rfl, rfl⟩ := hvalue
      have hbare : ProgramKind.bare.expr [] value := hfirst
      -- The snippet returns the value, and the body drops it: what becomes of it is settled at the body's end.
      show Outcomes _ (expr value c >>= emit .returnValue []) ((expr value c' >>= emit .pop []) >>= .ok)
      rw [bind_assoc]
      refine (hwalk.expr value hbare hc).bind fun c₁ c₁' hc₁ => ?_
      obtain ⟨-, rfl⟩ := hc₁
      rw [emit_plain .returnValue rfl, emit_plain .pop rfl]
      exact .ok rfl
    · have hbare : ProgramKind.bare.stmt [] s := hfirst
      rw [topLevel_cons hvalue]
      exact (hwalk.stmt s hbare hc).bind fun _ _ hc => topLevel_inside hsession rest hrest hc

/-- The end of a function's body takes no constants. -/
theorem constants_of_closeBody (h : c.closeBody = .ok c') : c'.constants = c.constants := by
  unfold closeBody at h
  split at h
  · rw [emit_plain _ rfl] at h
    cases h
    rfl
  · split at h
    · cases h
      rfl
    · rw [emit_plain _ rfl] at h
      cases h
      rfl

/-- One constant too many cannot be emitted. -/
theorem emitConstant_eq_error (h : 65536 ≤ c.constants.size) (v : Value) :
    ∃ cause, c.emitConstant v = .error (.operand cause) := by
  rcases hemit : c.emitConstant v with error | c'
  · unfold emitConstant emit onBuffer at hemit
    simp only at hemit
    split at hemit
    · cases hemit
    · cases hemit
      exact ⟨_, rfl⟩
  · have hfits : c.constants.size < 65536 :=
      ((emit_eq_ok_iff (⟨.constant, c.constants.size⟩ : Instr) fun hw => by cases hw).mp hemit).1
    omega

/-- What a function literal adds to compiling its body. -/
theorem topLevel_asBody (p : Program) (c : Compiler) :
    topLevel p.asBody c =
      (stmts p { c with scope := c.scope.enter [], buffer := {} } >>= fun c₁ => c₁.closeBody >>= fun c₂ =>
        emitConstant (.function ⟨c₂.buffer.code, c₂.constantsOffset, c₂.scope.slots, 0⟩)
          { c₂ with scope := c.scope, buffer := c.buffer }) >>= fun c₃ =>
        c₃.emit .returnValue [] :=
  rfl

/-- Nothing is compiled of empty statements. -/
theorem stmts_append_empty (p : List Stmt) (k : Nat) (c : Compiler) :
    stmts (p ++ List.replicate k .empty) c = stmts p c := by
  induction p generalizing c with
  | nil =>
    induction k with
    | zero => rfl
    | succ k ih => exact ih
  | cons s rest ih => exact congrArg (stmt s c >>= ·) (funext ih)

/-- So a function is the same with and without empty statements at its end. -/
theorem compile_asBody_append (p : Program) (k : Nat) (n : SnippetId) (c : Compiler) :
    c.compile n (Program.asBody (p ++ List.replicate k .empty)) = c.compile n p.asBody := by
  unfold compile
  rw [topLevel_asBody, topLevel_asBody, stmts_append_empty]
  rfl

/-- Compiling a program as a snippet, and as the body of a function literal: both fail for the same reason, or
the program compiles, and so does the literal if there is room for the function among the constants. -/
theorem compile_asBody {offset : Nat} (hidle : c = idle c.scope offset) (hsession : c.scope.isSession = true)
    (hbare : Program.isBare p = true) (n m : SnippetId) :
    (∃ cause, c.compile n p = (.error cause, c) ∧ c.compile m p.asBody = (.error cause, c)) ∨
      ∃ u c', c.compile n p = (.ok u, c') ∧
        ((65536 ≤ u.constants.length ∧ ∃ cause, c.compile m p.asBody = (.error (.operand cause), c)) ∨
          ∃ u' c'', c.compile m p.asBody = (.ok u', c'')) := by
  have hforget : idle c.scope c.constantsOffset = c := by
    rw [hidle]
    rfl
  have hbuffer : c.buffer = {} := congrArg Compiler.buffer hidle
  have hstart : Inside c.scope c { c with scope := c.scope.enter [], buffer := {} } := by
    rw [← hbuffer]
    exact ⟨rfl, rfl⟩
  -- The inside of the literal is compiled beside the snippet: with the same constants, or to the same error.
  rcases (topLevel_inside hsession p hbare hstart).cases with
    ⟨done, c₁, htop, hbody, hconstants⟩ | ⟨cause, htop, hbody⟩
  · obtain ⟨c₂, hclose⟩ := exists_closeBody c₁
    have hcount : c₂.constants.size = done.constants.size :=
      congrArg Array.size ((constants_of_closeBody hclose).trans hconstants)
    have hcompile : c.compile n p =
        (.ok (done.finished n (Program.valueType p)),
          idle done.scope (done.constantsOffset + done.constants.size)) := by
      simp only [compile, htop]
    refine .inr ⟨_, _, hcompile, ?_⟩
    -- The literal itself needs one constant more, for the function. This is all that can still go wrong.
    by_cases hroom : done.constants.size < 65536
    · obtain ⟨c₃, hconstant⟩ := exists_emitConstant
        (c := { c₂ with scope := c.scope, buffer := c.buffer }) (hcount ▸ hroom)
        (.function ⟨c₂.buffer.code, c₂.constantsOffset, c₂.scope.slots, 0⟩)
      have hreturn : c₃.emit .returnValue [] = .ok (c₃.extend ⟨.returnValue, 0⟩) := emit_plain _ rfl c₃
      have hdone : topLevel p.asBody c = .ok (c₃.extend ⟨.returnValue, 0⟩) := by
        simp only [topLevel_asBody, hbody, hclose, hconstant, hreturn, bind, Except.bind]
      rcases hcompile' : c.compile m p.asBody with ⟨cause | u', c''⟩
      · simp only [compile, hdone] at hcompile'
        cases hcompile'
      · exact .inr ⟨u', c'', rfl⟩
    · obtain ⟨cause, hconstant⟩ := emitConstant_eq_error
        (c := { c₂ with scope := c.scope, buffer := c.buffer }) (hcount ▸ Nat.not_lt.mp hroom)
        (.function ⟨c₂.buffer.code, c₂.constantsOffset, c₂.scope.slots, 0⟩)
      have hfails : topLevel p.asBody c = .error (.operand cause) := by
        simp only [topLevel_asBody, hbody, hclose, hconstant, bind, Except.bind]
      refine .inl ⟨?_, cause, by simp only [compile, hfails, hforget]⟩
      show 65536 ≤ done.constants.toList.length
      rw [Array.length_toList]
      omega
  · refine .inl ⟨cause, by simp only [compile, htop, hforget], ?_⟩
    have hfails : topLevel p.asBody c = .error cause := by
      rw [topLevel_asBody, hbody]
      rfl
    simp only [compile, hfails, hforget]

end Compiler

/-! ### Evaluating -/

namespace Semantics

variable {calls : Calls} {cs : List Command} {height : Nat}

/-- Commands that are all empty come to null. -/
theorem evalBody_of_closingOf_eq_none (h : closingOf cs = none) : evalBody calls cs height = pure .null := by
  induction cs with
  | nil => rfl
  | cons c rest ih =>
    obtain ⟨hrest, hc⟩ := Option.or_eq_none_iff.mp h
    rw [evalBody_cons (by simp [hc]), ih hrest]
    cases c <;> cases hc
    rfl

theorem hasValue_of_closingOf_eq_none (h : closingOf cs = none) : hasValue cs = false := by
  induction cs with
  | nil => rfl
  | cons c rest ih =>
    obtain ⟨hrest, hc⟩ := Option.or_eq_none_iff.mp h
    rw [hasValue_cons, ih hrest]
    rintro ⟨value, rfl, -⟩
    cases hc

/-- A snippet does what a body does, and keeps the value if its very last command is an expression. -/
theorem evalProgram_eq (calls : Calls) (cs : List Command) :
    evalProgram calls cs =
      (evalBody calls cs 0 >>= fun v => pure (if hasValue cs then some v else none)) := by
  induction cs with
  | nil => rfl
  | cons c rest ih =>
    funext s
    by_cases hlast : c.closing = some .pop ∧ closingOf rest = none
    · obtain ⟨hc, hrest⟩ := hlast
      cases c with
      | expr value =>
        rw [evalBody_of_expr hrest]
        by_cases hend : rest = []
        · rw [hend]
          rfl
        · -- The value is dropped, because empty commands come after it.
          have hmiddle : ¬ ∃ v, Command.expr value = .expr v ∧ rest = [] := fun ⟨_, _, h⟩ => hend h
          rw [evalProgram_cons hmiddle, hasValue_cons hmiddle, ih, evalBody_of_closingOf_eq_none hrest,
            hasValue_of_closingOf_eq_none hrest]
          simp only [perform, Exec.bind_apply]
          rcases eval calls value 0 s with ⟨flow, s₁⟩
          cases flow <;> rfl
      | _ => cases hc
    · -- A command in the middle is performed alike in both, and the rest goes on alike.
      have hmiddle : c.closing = some .pop → closingOf rest ≠ none := fun hc hrest => hlast ⟨hc, hrest⟩
      have hmiddle' : ¬ ∃ value, c = .expr value ∧ rest = [] := by
        rintro ⟨value, rfl, rfl⟩
        exact hlast ⟨rfl, rfl⟩
      rw [evalProgram_cons hmiddle', hasValue_cons hmiddle', ih, evalBody_cons hmiddle]
      simp only [Exec.bind_apply]
      rcases perform calls c 0 s with ⟨flow, s₁⟩
      cases flow <;> rfl

/-- A body that does not end with an expression comes to null, unless it returns. -/
theorem eq_null_of_evalBody {s s' : State} {v : Value} (h : evalBody calls cs height s = (.value v, s'))
    (hends : closingOf cs ≠ some .pop) : v = .null := by
  induction cs generalizing s with
  | nil =>
    cases h
    rfl
  | cons c rest ih =>
    have hrest : closingOf rest ≠ some .pop := by
      intro hrest
      simp [closingOf, hrest] at hends
    have hmiddle : c.closing = some .pop → closingOf rest ≠ none := by
      intro hc hrest
      simp [closingOf, hc, hrest] at hends
    rw [evalBody_cons hmiddle, Exec.bind_apply] at h
    rcases hperform : perform calls c height s with ⟨flow, s₁⟩
    rw [hperform] at h
    cases flow with
    | value _ => exact ih h hrest
    | returned w => cases h
    | failed error => cases h

/-- A snippet, and a call of the function without parameters that has its commands for a body. The call fails at
a limit that the snippet does not meet, or both fail with the same error, or both come to a value. It is the
same value, unless the snippet hides the one of its last expression. -/
theorem call_agrees {routines : List Routine} {f : FunctionCode} (hparams : f.params = 0)
    (hlocals : f.locals = 0) (hbody : bodyOf routines f = cs) (maxFrames : Nat) (g : Array Value) :
    let ran := run routines maxFrames cs g
    let called := (call routines maxFrames (.function f) [] g).result
    (called = .error .stackOverflow ∨ called = .error (.callDepth 0)) ∨
      (∃ error, ran.result = .error error ∧ called = .error error) ∨
      ∃ value v, ran.result = .ok value ∧ called = .ok v ∧
        (v = value.getD .null ∨ value = none ∧ hasValue cs = false ∧ closingOf cs = some .pop) := by
  intro ran called
  have hcalled : called = (callsWithin routines maxFrames maxFrames f [] 0 g).result :=
    call_function hparams.symm (by decide)
  clear_value called
  subst hcalled
  cases maxFrames with
  | zero => exact .inl (.inr rfl)
  | succ room =>
    let calls := callsWithin routines (room + 1) room
    have hslots : slots f [] = #[] := by
      simp [slots, hlocals]
    have hfits : ¬ Machine.stackLimit < 0 + 1 + 0 := by decide
    let limit : RunError → Prop := (· = .stackOverflow)
    have hlimit : 1 = 0 ∨ limit .stackOverflow := .inr rfl
    -- The call has one operand below its own and one frame less to use, so it may meet a limit where the
    -- snippet does not. Apart from that the bodies are evaluated alike.
    have htight : Tighter limit 1 calls calls :=
      callsWithin_sameUnless hlimit (Nat.le_refl room) (.inl ⟨rfl, rfl⟩)
    simp only [ran, run, callsWithin, hlocals, hbody, hslots, if_neg hfits, evalProgram_eq, Exec.bind_apply,
      Nat.add_sub_cancel]
    -- The function takes the place of one operand, and leaves as many frames for calls as the snippet does.
    have hheight : 0 + 1 + 0 = 0 + 1 := rfl
    rcases evalBody_sameUnless htight hheight cs ⟨g, #[]⟩ with
      hsame | ⟨error, s', hfails, rfl⟩
    · rw [hsame]
      rcases hend : evalBody calls cs 0 ⟨g, #[]⟩ with ⟨flow, s⟩
      cases flow with
      | value v =>
        refine .inr (.inr ⟨_, v, rfl, rfl, ?_⟩)
        cases hvalue : hasValue cs with
        | true => exact .inl rfl
        | false =>
          by_cases hpop : closingOf cs = some .pop
          · exact .inr ⟨rfl, rfl, hpop⟩
          · exact .inl (eq_null_of_evalBody hend hpop)
      | returned v => exact .inr (.inr ⟨some v, v, rfl, rfl, .inl rfl⟩)
      | failed error => exact .inr (.inl ⟨error, rfl, rfl⟩)
    · rw [hfails]
      exact .inl (.inl rfl)

end Semantics

/-! ### Hidden values -/

/-- Only empty statements resolve to empty commands. -/
theorem eq_empty_of_closingOf_eq_none {p : Program} {s s' : Site} {cs : List Command}
    (hres : resolveStmts p s = .ok (cs, s')) (h : closingOf cs = none) : ∀ statement ∈ p, statement = .empty := by
  induction p generalizing s cs with
  | nil => exact List.forall_mem_nil _
  | cons statement rest ih =>
    obtain ⟨⟨c, s₁⟩, hfirst, hres⟩ := bind_eq_ok_iff.mp hres
    obtain ⟨⟨commands, s₂⟩, hrest, hres⟩ := bind_eq_ok_iff.mp hres
    cases hres
    obtain ⟨hempty, hc⟩ := Option.or_eq_none_iff.mp h
    refine List.forall_mem_cons.mpr ⟨?_, ih hrest hempty⟩
    obtain rfl : c = .empty := by cases c <;> cases hc; rfl
    cases statement with
    | empty => rfl
    | letIn name value =>
      unfold resolveStmt at hfirst
      split at hfirst
      all_goals
        obtain ⟨⟨t, s₃⟩, -, hfirst⟩ := bind_eq_ok_iff.mp hfirst
        simp only [Except.ok.injEq, Prod.mk.injEq, Site.assignment] at hfirst
        split at hfirst <;> cases hfirst.1
    | ret value | throw value | expr value =>
      obtain ⟨⟨t, s₃⟩, -, hfirst⟩ := bind_eq_ok_iff.mp hfirst
      cases hfirst

/-- Where commands drop the value of the last one that is not empty, the program hides it: the commands are
empty exactly where the statements are. -/
theorem Program.hidesValue_of_closingOf {p : Program} {s s' : Site} {cs : List Command}
    (hres : resolveStmts p s = .ok (cs, s')) (hvalue : hasValue cs = false)
    (hpop : closingOf cs = some .pop) : p.HidesValue := by
  induction p generalizing s cs with
  | nil =>
    cases hres
    cases hpop
  | cons statement rest ih =>
    obtain ⟨⟨c, s₁⟩, hfirst, hres⟩ := bind_eq_ok_iff.mp hres
    obtain ⟨⟨commands, s₂⟩, hrest, hres⟩ := bind_eq_ok_iff.mp hres
    cases hres
    -- If nothing with code comes later then this statement is the one whose value is dropped. Otherwise it is
    -- further on.
    cases hclosing : closingOf commands with
    | none =>
      simp only [closingOf, hclosing, Option.none_or] at hpop
      cases c with
      | expr t =>
        obtain ⟨value, rfl⟩ := eq_expr_of_resolveStmt hfirst
        refine ⟨[], value, rest, rfl, ?_, eq_empty_of_closingOf_eq_none hrest hclosing⟩
        rintro rfl
        cases hrest
        cases hvalue
      | _ => cases hpop
    | some op =>
      simp only [closingOf, hclosing, Option.some_or] at hpop
      rw [hasValue_cons] at hvalue
      · exact (ih hrest hvalue (hclosing.trans hpop)).cons statement
      · rintro ⟨value, -, rfl⟩
        cases hclosing

/-! ### Running -/

section

variable {s s' : Store} {routines routines' : List Routine} {c c' c'' : Compiler} {n m : SnippetId}
variable {p : Program} {u u' : CompiledUnit} {cs cs' : List Command} {place place' : Site}

/-- A snippet would come to the same in a store that has the snippet's constants and more. What it runs against
is only larger. -/
theorem Store.Linked.run_congr (hs : s.Linked routines) (hc : c.Compiled routines n p u c' cs place)
    (hstep : c.InStep s) (hs' : s'.Linked routines')
    (hpool : Continues (s.constants ++ place.constants) s'.constants)
    (hglobals : s'.globals = padded s.globals u.globals)
    (hknown : ∀ f, KnownAmong place.routines f → KnownAmong routines' f) (maxFrames : Nat) :
    Semantics.run routines' maxFrames cs s'.globals =
      Semantics.run place.routines maxFrames cs (padded s.globals u.globals) := by
  have hfits := hs.fits_padded hc hstep maxFrames
  obtain ⟨hends, hkeeps⟩ := ends_program (hs.load hc hstep maxFrames) rfl hc.splits.holds
    (hc.leads.allowed _ (covers_loaded hc hstep maxFrames)) hfits
  have hgrown : ((s.loadedWorld place maxFrames).bounds u.main true).Grown
      ((s'.world routines' maxFrames).bounds u.main true) := by
    refine ⟨hpool, rfl, ?_, Nat.le_refl _, hknown, rfl⟩
    show place.scope.slots ≤ s'.globals.size
    rw [hglobals]
    exact Nat.le_of_eq hfits.1.symm
  obtain ⟨hends', -⟩ := ends_program (hs'.world maxFrames) rfl hc.splits.holds
    (fun use huse => (hc.leads.allowed _ (covers_loaded hc hstep maxFrames) use huse).grown hgrown)
    ⟨rfl, hs'.globals⟩
  have hsame : Machine.Ends (s'.world routines' maxFrames).setting (padded s.globals u.globals)
      ⟨⟨u.main, 0, 0⟩, [], #[]⟩ _ := hends.continues hpool rfl hkeeps.ordinary
  rw [← hglobals] at hsame ⊢
  exact (Machine.run_of_ends hends').symm.trans (Machine.run_of_ends hsame)

/-- What the literal of a bare program resolves to, beside the program itself. -/
theorem Compiler.Compiled.asBody (hc : c.Compiled routines n p u c' cs place)
    (hc' : c.Compiled routines m p.asBody u' c'' cs' place') (hsession : c.scope.isSession = true)
    (hbare : Program.isBare p = true) :
    ∃ f : FunctionCode, f.params = 0 ∧ f.locals = 0 ∧
      cs' = [.expr (.constant place.constants.size (.function f))] ∧
      place.scope = c.scope ∧ place'.scope = c.scope ∧
      place'.constants = place.constants.push (.function f) ∧
      place'.routines = place.routines ++ [⟨f, cs⟩] := by
  obtain ⟨hscope, hbody⟩ := resolveStmts_inside hbare hsession hc.resolved
  have hliteral : resolveExpr (.function [] p) (c.site routines) = .ok (_, _) :=
    bind_eq_ok_iff.mpr ⟨_, hbody, rfl⟩
  cases (resolveStmts_literal hliteral).symm.trans hc'.resolved
  exact ⟨_, rfl, rfl, rfl, hscope, rfl, rfl, rfl⟩

/-- Globals that are as many already stay as they are. -/
theorem Store.padded_self (g : Array Value) : padded g g.size = g := by
  simp [padded]

/-- One store is another one with the function `f` added, which takes nothing and has the commands `cs` for a
body. They belong to a snippet that ends at `place`, and whose constants are there, too. Nothing else of the
first store has changed. -/
structure Store.AddsBody (cs : List Command) (place : Site) (f : FunctionCode) (s s' : Store) : Prop where
  params : f.params = 0
  locals : f.locals = 0
  linked : s'.Linked (⟨f, cs⟩ :: place.routines)
  constants : Continues (s.constants ++ place.constants) s'.constants
  globals : s'.globals = s.globals
  depth : s'.maxCallDepth = s.maxCallDepth

/-- Running the literal of a bare program adds the function. -/
theorem Store.Linked.addsBody (hs : s.Linked routines) (hstep : c.InStep s) (hbare : Program.isBare p = true)
    (hc : c.Compiled routines n p u c' cs place) (hc' : c.Compiled routines m p.asBody u' c'' cs' place')
    (config : RunConfig) :
    ∃ f s', s.run u' config = (.finished (some (.function f)), s') ∧ s.AddsBody cs place f s' := by
  obtain ⟨f, hparams, hlocals, rfl, -, hscope, hconstants, hroutines⟩ := hc.asBody hc' hstep.session hbare
  have hglobals : padded s.globals u'.globals = s.globals := by
    rw [hc'.globals, hscope, hstep.slots, padded_self]
  obtain ⟨s', hrun, hsame⟩ : ∃ s', s.run u' config = (.finished (some (.function f)), s') ∧
      s'.globals = s.globals := by
    obtain ⟨-, -, hrun⟩ := Store.run_eq hs hc' hstep config
    exact ⟨_, hrun, hglobals⟩
  obtain ⟨hlinked, -, -, hpool, hdepth⟩ := hs.finished hc' hstep hrun
  refine ⟨f, s', hrun, hparams, hlocals, ?_, ?_, hsame, hdepth⟩
  · refine hlinked.congr fun r => ?_
    rw [hroutines, List.mem_append, List.mem_singleton, List.mem_cons, or_comm]
  · rw [hpool, hconstants, Array.push_eq_append, ← Array.append_assoc]
    exact continues_append _ _

/-- A bare program as a snippet of a store, and the function that its literal is evaluated to. -/
theorem Store.Linked.function_agrees (hs : s.Linked routines) (hstep : c.InStep s)
    (hbare : Program.isBare p = true) (hc : c.Compiled routines n p u c' cs place)
    (hc' : c.Compiled routines m p.asBody u' c'' cs' place')
    (config : RunConfig) (hdepth : config.maxCallDepth = s.maxCallDepth) (config' : RunConfig) :
    ∃ f s', s.run u' config' = (.finished (some (.function f)), s') ∧
      let called := (s'.call (.function f) []).1
      ((called = .error .stackOverflow ∨ called = .error (.callDepth 0)) ∨
        (∃ error, s.run u config = (.failed error, s) ∧ called = .error error) ∨
        ∃ value s₁ v, s.run u config = (.finished value, s₁) ∧ called = .ok v ∧
          (v = value.getD .null ∨ value = none ∧ p.HidesValue)) := by
  obtain ⟨f, s', hrun', hadds⟩ := hs.addsBody hstep hbare hc hc' config'
  obtain ⟨-, -, hrun⟩ := Store.run_eq hs hc hstep config
  obtain ⟨hscope, -⟩ := resolveStmts_inside hbare hstep.session hc.resolved
  have hglobals : s'.globals = padded s.globals u.globals := by
    rw [hadds.globals, hc.globals, hscope]
    exact (hstep.slots ▸ padded_self s.globals).symm
  -- The snippet would come to the same beside the function, and there both are evaluated alike.
  have hcongr := hs.run_congr hc hstep hadds.linked hadds.constants hglobals
    (fun g ⟨r, hr, hg⟩ => ⟨r, List.mem_cons_of_mem _ hr, hg⟩) s.maxCallDepth
  rw [hdepth, Nat.min_self, ← hcongr] at hrun
  have hbody : Semantics.bodyOf (⟨f, cs⟩ :: place.routines) f = cs := by
    simp [Semantics.bodyOf]
  have hf : (Value.function f).MadeOf (KnownAmong (⟨f, cs⟩ :: place.routines)) :=
    (Value.madeOf_function f).mpr ⟨_, List.mem_cons_self, rfl⟩
  obtain ⟨hcall, -⟩ := Store.call_eq hadds.linked hf (List.forall_mem_nil _) rfl
  have hagrees := Semantics.call_agrees hadds.params hadds.locals hbody s.maxCallDepth s'.globals
  refine ⟨f, s', hrun', ?_⟩
  rw [hcall, hadds.depth, hrun]
  rcases hagrees with hlimit | ⟨error, hfails, hcalled⟩ | ⟨value, v, hresult, hcalled, hvalue⟩
  · exact .inl hlimit
  · refine .inr (.inl ⟨error, ?_, hcalled⟩)
    rw [hfails]
  · refine .inr (.inr ⟨value, _, v, by rw [hresult], hcalled, hvalue.imp_right ?_⟩)
    rintro ⟨hnone, hdropped, hpop⟩
    exact ⟨hnone, Program.hidesValue_of_closingOf hc.resolved hdropped hpop⟩

end

/-! ### In a session -/

namespace SessionEngine

variable {config : Config} {e : SessionEngine} {r : Record}

/-- A snippet finishes with the value that the evaluator has for it. -/
theorem Sound.finished_of_interpret (hs : e.Sound config r) {n : SnippetId} {p : Program} {u : CompiledUnit}
    {c' : Compiler} (hcompile : e.compiler.compiler.compile n p = (.ok u, c')) {value : Option Value}
    (h : (Semantics.interpret (e.compiler.compiler.site r.routines) config.maxCallDepth p
      e.evaluator.globals).toOption.bind (·.result.toOption) = some value) :
    ∃ s, e.evaluator.run u ⟨n, e.compiler.maxCallDepth⟩ = (.finished value, s) := by
  obtain ⟨ran, hinterpret, hresult⟩ := Option.bind_eq_some_iff.mp h
  rw [hs.run_of_interpret hcompile (eq_ok_of_toOption hinterpret), Store.after, eq_ok_of_toOption hresult]
  exact ⟨_, rfl⟩

/-- What the evaluator has for calling the function that a snippet is evaluated to, without arguments. -/
def foreseenCall (routines : List Routine) (p : Program) (e : SessionEngine) : Option Value := do
  let (commands, place) ← (resolveStmts p (e.compiler.compiler.site routines)).toOption
  let ran := Semantics.run place.routines e.compiler.maxCallDepth commands
    (padded e.evaluator.globals place.scope.slots)
  let f ← (← ran.result.toOption)
  (Semantics.call place.routines e.compiler.maxCallDepth f [] ran.globals).result.toOption

/-- The function comes to that. -/
theorem Sound.call_of_foreseenCall (hs : e.Sound config r) {n : SnippetId} {p : Program} {u : CompiledUnit}
    {c' : Compiler} (hcompile : e.compiler.compiler.compile n p = (.ok u, c')) {f v : Value} {s : Store}
    (hrun : e.evaluator.run u ⟨n, e.compiler.maxCallDepth⟩ = (.finished (some f), s))
    (hcallable : f.isCallable = true) (h : e.foreseenCall r.routines p = some v) :
    (s.call f []).1 = .ok v := by
  obtain ⟨commands, place, hc⟩ := hs.compiled hcompile
  obtain ⟨hlinked, -, hf, -, hmax⟩ := hs.linked.finished hc hs.inStep hrun
  obtain ⟨-, -, hafter⟩ := Store.run_eq hs.linked hc hs.inStep ⟨n, e.compiler.maxCallDepth⟩
  have hdepth : e.evaluator.maxCallDepth = e.compiler.maxCallDepth :=
    hs.storeDepth.trans hs.compilerDepth.symm
  rw [hrun, hdepth, Nat.min_self, hc.globals] at hafter
  unfold foreseenCall at h
  rw [hc.resolved] at h
  obtain ⟨_, hresolved, h⟩ := Option.bind_eq_some_iff.mp h
  cases hresolved
  obtain ⟨value, hvalue, h⟩ := Option.bind_eq_some_iff.mp h
  obtain ⟨f', rfl, h⟩ := Option.bind_eq_some_iff.mp h
  rw [eq_ok_of_toOption hvalue] at hafter
  cases hafter
  obtain ⟨hcall, -⟩ := Store.call_eq hlinked hf (List.forall_mem_nil _) hcallable
  rw [Option.getD_some] at hcall
  rw [hcall, hmax, hdepth]
  exact eq_ok_of_toOption h

/-- A bare program as a snippet, and the function that a literal with this body is evaluated to. Neither compiles,
for the same reason, or both do, if there is room for the function among the constants. A call of the function
fails at a limit that the snippet does not meet, or both fail with the same error, or the function comes to the
value of the snippet, and to null if there is none. But a snippet in which empty statements come after the last
expression hides its value, and a function does not: it is the same with and without them. -/
theorem Reached.body_agrees (h : Reached config e r) {p : Program} (hbare : Program.isBare p = true)
    (n m : SnippetId) :
    (∀ k, e.compiler.compiler.compile m (Program.asBody (p ++ List.replicate k .empty)) =
        e.compiler.compiler.compile m p.asBody) ∧
      ((∃ cause, e.compiler.compiler.compile n p = (.error cause, e.compiler.compiler) ∧
          e.compiler.compiler.compile m p.asBody = (.error cause, e.compiler.compiler)) ∨
        ∃ u c', e.compiler.compiler.compile n p = (.ok u, c') ∧
          ((65536 ≤ u.constants.length ∧ ∃ cause,
              e.compiler.compiler.compile m p.asBody = (.error (.operand cause), e.compiler.compiler)) ∨
            ∃ u' c'' f s, e.compiler.compiler.compile m p.asBody = (.ok u', c'') ∧
              e.evaluator.run u' ⟨m, e.compiler.maxCallDepth⟩ = (.finished (some (.function f)), s) ∧
              let called := (s.call (.function f) []).1
              ((called = .error .stackOverflow ∨ called = .error (.callDepth 0)) ∨
                (∃ error, e.evaluator.run u ⟨n, e.compiler.maxCallDepth⟩ = (.failed error, e.evaluator) ∧
                  called = .error error) ∨
                ∃ value s₁ v, e.evaluator.run u ⟨n, e.compiler.maxCallDepth⟩ = (.finished value, s₁) ∧
                  called = .ok v ∧ (v = value.getD .null ∨ value = none ∧ p.HidesValue)))) := by
  obtain ⟨hs, -⟩ := h.sound
  refine ⟨fun k => Compiler.compile_asBody_append p k m _, ?_⟩
  -- Whether both compile is a matter of the compiler alone; if they do, their runs are compared.
  rcases Compiler.compile_asBody hs.inStep.idle hs.inStep.session hbare n m with
    hfails | ⟨u, c', hcompile, hfull | ⟨u', c'', hcompile'⟩⟩
  · exact .inl hfails
  · exact .inr ⟨u, c', hcompile, .inl hfull⟩
  · obtain ⟨cs, place, hc⟩ := hs.compiled hcompile
    obtain ⟨cs', place', hc'⟩ := hs.compiled hcompile'
    have hdepth : e.compiler.maxCallDepth = e.evaluator.maxCallDepth :=
      hs.compilerDepth.trans hs.storeDepth.symm
    obtain ⟨f, s, hrun, hagrees⟩ := hs.linked.function_agrees hs.inStep hbare hc hc'
      ⟨n, e.compiler.maxCallDepth⟩ hdepth ⟨m, e.compiler.maxCallDepth⟩
    exact .inr ⟨u, c', hcompile, .inr ⟨u', c'', f, s, hcompile', hrun, hagrees⟩⟩

/-- A snippet that ends early, and the function. -/
theorem body_agrees_of_return :
    let p : Program := [.expr (.cond (.binary .less (.call (.ident "len") [.str "abc"]) (.int 4))
      [.ret (.str "short")] none), .expr (.int 1)]
    let e := SessionEngine.new {}
    ∃ u c' u' c'' f s s₁, e.compiler.compiler.compile 0 p = (.ok u, c') ∧
      e.compiler.compiler.compile 0 p.asBody = (.ok u', c'') ∧
      e.evaluator.run u ⟨0, e.compiler.maxCallDepth⟩ = (.finished (some (.str "short")), s₁) ∧
      e.evaluator.run u' ⟨0, e.compiler.maxCallDepth⟩ = (.finished (some (.function f)), s) ∧
      (s.call (.function f) []).1 = .ok (.str "short") := by
  intro p e
  have hcount : (e.compiler.compiler.compile 0 p).1.toOption.map (·.constants.length) = some 4 := by
    decide +kernel
  have hforeseen : e.foreseenCall [] p.asBody = some (.str "short") := by decide +kernel
  have hnew : Reached {} e {} := .new
  obtain ⟨hs, -⟩ := hnew.sound
  have hbare : Program.isBare p = true := by decide
  obtain ⟨-, ⟨cause, hfails, -⟩ | ⟨u, c', hcompile, hboth⟩⟩ := hnew.body_agrees hbare 0 0
  · rw [hfails] at hcount
    cases hcount
  · rw [hcompile] at hcount
    obtain ⟨hfull, -⟩ | ⟨u', c'', f, s, hcompile', hrun', hagrees⟩ := hboth
    · have hfew : u.constants.length = 4 := Option.some.inj hcount
      omega
    · have hcalled := hs.call_of_foreseenCall hcompile' hrun' rfl hforeseen
      simp only [hcalled] at hagrees
      obtain (hlimit | hlimit) | ⟨error, -, herror⟩ | ⟨value, s₁, v, hrun, hv, hvalue⟩ := hagrees
      · cases hlimit
      · cases hlimit
      · cases herror
      · cases hv
        obtain hvalue | ⟨-, hhides⟩ := hvalue
        · cases value with
          | none => cases hvalue
          | some v =>
            obtain rfl : Value.str "short" = v := hvalue
            exact ⟨u, c', u', c'', f, s, s₁, hcompile, hcompile', hrun, hrun', hcalled⟩
        · cases hhides.ends_empty

/-- A snippet hides its value behind one empty statement, and the function of the same statements returns it. -/
theorem new_body_returns :
    let p : Program := [.expr (.binary .add (.int 1) (.int 2)), .empty]
    let e := SessionEngine.new {}
    Program.ofSource "1 + 2;;" = .ok p ∧ Program.ofSource "fn() { 1 + 2;; }" = .ok p.asBody ∧
      ∃ u c' u' c'' f s s₁, e.compiler.compiler.compile 0 p = (.ok u, c') ∧
        e.compiler.compiler.compile 0 p.asBody = (.ok u', c'') ∧
        e.evaluator.run u ⟨0, e.compiler.maxCallDepth⟩ = (.finished none, s₁) ∧
        e.evaluator.run u' ⟨0, e.compiler.maxCallDepth⟩ = (.finished (some (.function f)), s) ∧
        (s.call (.function f) []).1 = .ok (.int 3) := by
  intro p e
  have hsource : Program.ofSource "1 + 2;;" = .ok p := by with_unfolding_all rfl
  have hsource' : Program.ofSource "fn() { 1 + 2;; }" = .ok p.asBody := by
    with_unfolding_all rfl
  have hcompiles : (e.compiler.compiler.compile 0 p).1.toOption.isSome = true ∧
      (e.compiler.compiler.compile 0 p.asBody).1.toOption.isSome = true := by decide +kernel
  have hresult : ((Semantics.interpret (e.compiler.compiler.site []) 1024 p
      e.evaluator.globals).toOption.bind (·.result.toOption)) = some none := by decide +kernel
  have hforeseen : e.foreseenCall [] p.asBody = some (.int 3) := by decide +kernel
  refine ⟨hsource, hsource', ?_⟩
  have hs : e.Sound {} {} := .new {}
  rcases hcompile : e.compiler.compiler.compile 0 p with ⟨cause | u, c'⟩
  · rw [hcompile] at hcompiles
    cases hcompiles.1
  · rcases hcompile' : e.compiler.compiler.compile 0 p.asBody with ⟨cause | u', c''⟩
    · rw [hcompile'] at hcompiles
      cases hcompiles.2
    · obtain ⟨s₁, hrun⟩ := hs.finished_of_interpret hcompile hresult
      obtain ⟨cs, place, hc⟩ := hs.compiled hcompile
      obtain ⟨cs', place', hc'⟩ := hs.compiled hcompile'
      obtain ⟨f, s, hrun', -⟩ :=
        hs.linked.addsBody hs.inStep (by decide) hc hc' ⟨0, e.compiler.maxCallDepth⟩
      have hcalled := hs.call_of_foreseenCall hcompile' hrun' rfl hforeseen
      exact ⟨u, c', u', c'', f, s, s₁, rfl, rfl, hrun, hrun', hcalled⟩

end SessionEngine

end Notebook
