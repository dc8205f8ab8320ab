import Notebook.Proofs.Composition.SessionRoom
import Notebook.Proofs.Machine.FrameRoom
import Notebook.Proofs.Semantics.EvaluationLimits
import Notebook.Proofs.Store.ConstantPool

/-!
How deep calls nest, and how deep they may.

A function is called from a snippet, whose own code takes a frame, or from outside of any snippet.
`Store.RunNests` and `Store.CallNests` count the calls that are nested in either case, had they frames enough.

* `Store.call_tooDeep_iff`: a call from outside fails for its depth if more calls nest than there may be frames.
* `Store.run_tooDeep_iff`: a snippet already does if as many calls nest as there may be frames.
* `Semantics.tooDeep_callsWithin_iff`: a function comes to the same depth with one frame more below it.
* `Reached.tooDeep_iff`: so a snippet that only calls a function nests the same calls as the call from outside,
  but has one frame less for them.
-/

namespace Notebook

namespace Store

/-! ### Counting -/

/-- Do as many as `k` calls of functions nest when a unit runs, if there are frames enough for them? One frame
is that of the unit's own code. What counts is that the run gets to a call at such a depth, so nothing is said
of what comes after. -/
def RunNests (s : Store) (u : CompiledUnit) (k : Nat) : Prop :=
  k = 0 ∨ ∃ maxFrames g m, { s with maxCallDepth := maxFrames }.Runs u ⟨u.snippet, maxFrames⟩ g m ∧
    m.AtCall ∧ k ≤ m.depth

/-- Do as many as `k` calls of functions nest when a function is called from outside, if there are frames enough
for them? The first one is the call from outside, which is there without any frame below it. -/
def CallNests (s : Store) (f : Value) (args : List Value) (k : Nat) : Prop :=
  k ≤ 1 ∨ ∃ maxFrames g m, { s with maxCallDepth := maxFrames }.Calls f args g m ∧ m.AtCall ∧
    k ≤ m.depth + 1

section

variable {s : Store} {routines : List Routine} {c c' : Compiler} {n : SnippetId} {p : Program}
variable {u : CompiledUnit} {commands : List Command} {place : Site} {depth : Nat}

/-- The calls that nest in the run of a unit are as many as the frames that it fails for want of. -/
theorem runNests_iff (hs : s.Linked routines) (hc : c.Compiled routines n p u c' commands place)
    (hstep : c.InStep s) (hdepth : 1 ≤ depth) :
    s.RunNests u depth ↔
      TooDeep (Semantics.run place.routines depth commands (padded s.globals u.globals)).result := by
  obtain ⟨hends, -⟩ := ends_program (hs.load hc hstep depth) rfl hc.splits.holds
    (hc.leads.allowed _ (covers_loaded hc hstep depth)) (hs.fits_padded hc hstep depth)
  have hsetting : ∀ maxFrames, { s with maxCallDepth := maxFrames }.settingOf u ⟨u.snippet, maxFrames⟩ =
      ⟨s.constants ++ place.constants, maxFrames⟩ := by
    intro maxFrames
    simp only [settingOf, pool_loaded hc hstep, Nat.min_self]
  constructor
  · rintro (hzero | ⟨maxFrames, g, m, ⟨-, hreach⟩, hcall, hdeep⟩)
    · omega
    · rw [hsetting] at hreach
      exact hends.tooDeep_of_reaches hreach hcall hdeep
  · intro hfails
    obtain ⟨g, m, hreach, hcall, hdeep⟩ := hends.reaches_of_tooDeep hfails
    have hoffset : s.constants.size ≤ u.constantsOffset :=
      Nat.le_of_eq (hc.offset.trans hstep.offset).symm
    refine .inr ⟨depth, g, m, ⟨hoffset, ?_⟩, hcall, hdeep⟩
    rw [hsetting]
    exact hreach

/-- A call from outside that goes on with some frames is entered with any. -/
theorem Calls.enters {maxFrames : Nat} {f : Value} {args : List Value} {g : Array Value} {m : Machine}
    (h : { s with maxCallDepth := maxFrames }.Calls f args g m) (hdepth : 1 ≤ depth) :
    ∃ frame stack, args.length + 1 ≤ Machine.stackLimit ∧
      Machine.enter depth 0 args.length (Machine.operands #[] f args) = .ok (some frame, stack) ∧
      Machine.Reaches ⟨s.constants, maxFrames⟩ s.globals ⟨frame, [], stack⟩ g m := by
  obtain ⟨operands, frame, stack, hpush, hentered, hreach⟩ := h
  have hroom : args.length + 1 ≤ Machine.stackLimit := by
    rw [Machine.pushAll_eq _ _ (Nat.zero_le _)] at hpush
    split at hpush
    · rename_i hroom
      rwa [Array.size_empty, Nat.zero_add, List.length_cons] at hroom
    · cases hpush
  cases (Machine.pushAll_operands hroom f).symm.trans hpush
  exact ⟨frame, stack, hroom, Machine.enter_of_ok hentered hdepth, hreach⟩

/-- The calls that nest in a call from outside are one more than the frames that it fails for want of. -/
theorem callNests_iff (hs : s.Linked routines) {f : Value} {args : List Value}
    (hf : f.MadeOf (KnownAmong routines)) (hargs : ∀ v ∈ args, v.MadeOf (KnownAmong routines))
    (hdepth : 1 ≤ depth) :
    s.CallNests f args (depth + 1) ↔ TooDeep (Semantics.call routines depth f args s.globals).result := by
  obtain ⟨hcall, -⟩ := call_follows (hs.world depth) hf hargs ⟨rfl, hs.globals⟩
  have hsame : Machine.call ⟨s.constants, depth⟩ s.globals f args =
      Semantics.call routines depth f args s.globals := hcall
  have hentered_ends : ∀ {frame stack},
      Machine.enter depth 0 args.length (Machine.operands #[] f args) = .ok (some frame, stack) →
      ∃ ran, Machine.Ends ⟨s.constants, depth⟩ s.globals ⟨frame, [], stack⟩ ran :=
    fun hentered => (hs.world depth).entered_ends hf hargs ⟨rfl, hs.globals⟩ hentered
  rw [← hsame]
  -- If so many calls nest with more frames, then the run with these frames stops for want of one no later.
  constructor
  · rintro (hsmall | ⟨maxFrames, g, m, hcalls, hcall, hdeep⟩)
    · omega
    · obtain ⟨frame, stack, hroom, hentered, hreach⟩ := hcalls.enters hdepth
      obtain ⟨ran, hends⟩ := hentered_ends hentered
      rw [Machine.call_of_entered hroom hentered hends]
      exact tooDeep_map_iff.mpr (hends.tooDeep_of_reaches hreach hcall (Nat.le_of_succ_le_succ hdeep))
  · intro hfails
    -- If the call fails for want of a frame, then it was entered, and its run came to a call where there was
    -- none left: a call that is refused at once, or a builtin, fails for other reasons.
    by_cases hroom : args.length + 1 ≤ Machine.stackLimit
    · cases henter : Machine.enter depth 0 args.length (Machine.operands #[] f args) with
      | error cause =>
        rw [Machine.call_of_refused hroom henter] at hfails
        obtain ⟨limit, rfl⟩ := tooDeep_error_iff.mp hfails
        have hnone := (Machine.tooDeep_enter_iff.mp ⟨limit, henter⟩).1
        omega
      | ok entered =>
        obtain ⟨frame, stack⟩ := entered
        cases frame with
        | none =>
          unfold Machine.call at hfails
          rw [Machine.pushAll_operands hroom] at hfails
          simp only [henter] at hfails
          exact absurd (tooDeep_map_iff.mp hfails) (Machine.not_tooDeep_pop stack)
        | some frame =>
          obtain ⟨ran, hends⟩ := hentered_ends henter
          rw [Machine.call_of_entered hroom henter hends] at hfails
          obtain ⟨g, m, hreach, hcall, hdeep⟩ := hends.reaches_of_tooDeep (tooDeep_map_iff.mp hfails)
          exact .inr ⟨depth, g, m, ⟨_, frame, stack, Machine.pushAll_operands hroom f, henter, hreach⟩,
            hcall, Nat.succ_le_succ hdeep⟩
    · -- Too many arguments overflow the stack before anything is called.
      have hpush := Machine.pushAll_eq #[] (f :: args) (Nat.zero_le _)
      rw [Array.size_empty, Nat.zero_add, List.length_cons, if_neg hroom] at hpush
      unfold Machine.call at hfails
      rw [hpush] at hfails
      obtain ⟨limit, ⟨⟩⟩ := hfails

/-- The run of a unit fails for want of a frame if as many calls nest as there may be frames. -/
theorem run_tooDeep_iff (hs : s.Linked routines) (hc : c.Compiled routines n p u c' commands place)
    (hstep : c.InStep s) {config : RunConfig} (hdepth : 1 ≤ min s.maxCallDepth config.maxCallDepth) :
    (∃ limit, (s.run u config).1 = .failed (.callDepth limit)) ↔
      s.RunNests u (min s.maxCallDepth config.maxCallDepth) := by
  obtain ⟨-, -, hrun⟩ := Store.run_eq hs hc hstep config
  rw [runNests_iff hs hc hstep hdepth, hrun]
  unfold TooDeep
  split <;> rename_i hresult <;> simp [hresult]

/-- A call from outside fails for want of a frame if more calls nest than there may be frames. -/
theorem call_tooDeep_iff (hs : s.Linked routines) {f : Value} {args : List Value}
    (hf : f.MadeOf (KnownAmong routines)) (hargs : ∀ v ∈ args, v.MadeOf (KnownAmong routines))
    (hcallable : f.isCallable = true) (hdepth : 1 ≤ s.maxCallDepth) :
    TooDeep (s.call f args).1 ↔ s.CallNests f args (s.maxCallDepth + 1) := by
  obtain ⟨hcall, -⟩ := Store.call_eq hs hf hargs hcallable
  rw [callNests_iff hs hf hargs hdepth, hcall]

end

end Store

/-! ### One frame more or less -/

namespace Semantics

variable {routines : List Routine} {maxFrames : Nat} {f : FunctionCode} {args : List Value}
variable {g : Array Value}

/-- A run that does the same as another one unless that fails for want of a frame fails for it if that does. -/
theorem tooDeep_of_sameUnless {α : Type} {ran ran' : Ran α}
    (h : ran.SameUnless (fun error => ∃ limit, error = .callDepth limit) ran')
    (hfails : TooDeep ran.result) : TooDeep ran'.result := by
  rcases h with rfl | ⟨error, hresult, limit, rfl⟩
  · exact hfails
  · exact ⟨limit, hresult⟩

/-- Whether a function runs out of frames depends on how many are left for it, and not on how many there are in
all. The number of all frames is only what the message says. -/
theorem tooDeep_callsWithin_iff (routines : List Routine) (maxFrames maxFrames' room : Nat)
    (f : FunctionCode) (args : List Value) (height : Nat) (g : Array Value) :
    TooDeep (callsWithin routines maxFrames room f args height g).result ↔
      TooDeep (callsWithin routines maxFrames' room f args height g).result := by
  constructor
  all_goals
    refine tooDeep_of_sameUnless ?_
    exact (callsWithin_sameUnless (.inl rfl) (Nat.le_refl room) (.inr ⟨_, rfl⟩)).calls f args height g

/-- Globals are evaluated to their values, as long as there is room for these. -/
theorem evalAll_globals (calls : Calls) {is : List Nat} {values : List Value}
    (h : List.Forall₂ (fun i v => g[i]? = some v) is values) (locals : Array Value) {height : Nat}
    (hroom : height + is.length ≤ Machine.stackLimit) :
    evalAll calls (is.map .global) height ⟨g, locals⟩ = (.value values, ⟨g, locals⟩) := by
  induction h generalizing height with
  | nil => rfl
  | @cons i v is values hv _ ih =>
    rw [List.length_cons] at hroom
    have hfits : height < Machine.stackLimit := by omega
    have hrest := @ih (height + 1) (by omega)
    simp only [List.map_cons, evalAll, eval, Exec.bind_apply, look, keep, settle, if_pos hfits, hv,
      Option.getD_some, hrest]
    rfl

/-- A snippet that only calls a function comes to what the function comes to, with a frame less. -/
theorem run_globalCall {i : Nat} {is : List Nat} (hf : g[i]? = some (.function f))
    (hargs : List.Forall₂ (fun i v => g[i]? = some v) is args) (harity : args.length = f.params)
    (hroom : args.length < Machine.stackLimit) :
    (run routines maxFrames [.expr (.call (.global i) (is.map .global))] g).result =
      (callsWithin routines maxFrames (maxFrames - 1) f args 0 g).result.map some := by
  have hlength := hargs.length_eq
  have hvalues : evalAll (callsWithin routines maxFrames (maxFrames - 1)) (is.map .global) (0 + 1) ⟨g, #[]⟩ =
      (.value args, ⟨g, #[]⟩) := evalAll_globals _ hargs #[] (by omega)
  have hfits : 0 < Machine.stackLimit := by decide
  unfold run
  simp only [evalProgram, eval, Exec.bind_apply, look, keep, settle, if_pos hfits, hf, Option.getD_some,
    hvalues, apply, harity, if_true]
  cases (callsWithin routines maxFrames (maxFrames - 1) f args 0 g).result <;> rfl

/-- The call from outside has a frame more than the snippet. -/
theorem call_function (harity : args.length = f.params) (hroom : args.length < Machine.stackLimit) :
    (call routines maxFrames (.function f) args g).result =
      (callsWithin routines maxFrames maxFrames f args 0 g).result := by
  unfold call
  rw [if_neg (by omega)]
  simp only [apply, harity, if_true, settle]
  cases (callsWithin routines maxFrames maxFrames f args 0 g).result <;> rfl

end Semantics

/-! ### Snippets that only call a function -/

def Program.callOf (name : String) (names : List String) : Program :=
  [.expr (.call (.ident name) (names.map .ident))]

section

variable {site : Site} {name : String} {names : List String} {i : Nat} {is : List Nat}

/-- Names of globals resolve to the globals. -/
theorem resolveExprs_globals
    (h : List.Forall₂ (fun name i => site.scope.resolve name = some (.global i)) names is) :
    resolveExprs (names.map .ident) site = .ok (is.map .global, site) := by
  induction h with
  | nil => rfl
  | @cons name i names is hname _ ih =>
    have hfirst : resolveExpr (.ident name) site = .ok (.global i, site) := by
      unfold resolveExpr
      rw [hname]
    exact bind_eq_ok_iff.mpr ⟨_, hfirst, bind_eq_ok_iff.mpr ⟨_, ih, rfl⟩⟩

theorem resolveStmts_callOf (hname : site.scope.resolve name = some (.global i))
    (hnames : List.Forall₂ (fun name i => site.scope.resolve name = some (.global i)) names is) :
    resolveStmts (Program.callOf name names) site =
      .ok ([.expr (.call (.global i) (is.map .global))], site) := by
  have hcallee : resolveExpr (.ident name) site = .ok (.global i, site) := by
    unfold resolveExpr
    rw [hname]
  have hcall : resolveExpr (.call (.ident name) (names.map .ident)) site =
      .ok (.call (.global i) (is.map .global), site) :=
    bind_eq_ok_iff.mpr ⟨_, hcallee, bind_eq_ok_iff.mpr ⟨_, resolveExprs_globals hnames, rfl⟩⟩
  exact bind_eq_ok_iff.mpr ⟨_, bind_eq_ok_iff.mpr ⟨_, hcall, rfl⟩, rfl⟩

/-- Such a snippet can be laid out if one call takes as many arguments. -/
theorem fits_callOf (hi : i < 65536) (his : ∀ j ∈ is, j < 65536) (hlength : is.length < 256) :
    ∀ instr ∈ layoutProgram [.expr (.call (.global i) (is.map .global))] 0, instr.Fits := by
  have hterms : ∀ start, ∀ instr ∈ layoutTerms (is.map .global) start, instr.Fits := by
    clear hlength
    intro start
    induction is generalizing start with
    | nil => exact fun instr hinstr => absurd hinstr List.not_mem_nil
    | cons j is ih =>
      obtain ⟨hj, his⟩ := List.forall_mem_cons.mp his
      exact List.forall_mem_cons.mpr ⟨hj, ih his _⟩
  have hcallee : ∀ instr ∈ [(⟨.getGlobal, i⟩ : Instr)], instr.Fits := List.forall_mem_singleton.mpr hi
  have hcall : Instr.Fits ⟨.call, (is.map Term.global).length⟩ := by
    simpa [Instr.Fits, Opcode.operandWidth] using hlength
  have hargs := List.forall_mem_append.mpr ⟨hterms (0 + codeSize [⟨.getGlobal, i⟩]),
    List.forall_mem_singleton.mpr hcall⟩
  exact List.forall_mem_append.mpr
    ⟨List.forall_mem_append.mpr ⟨hcallee, hargs⟩, List.forall_mem_singleton.mpr rfl⟩

theorem length_lt_of_fits
    (h : ∀ instr ∈ layoutProgram [.expr (.call (.global i) (is.map .global))] 0, instr.Fits) :
    is.length < 256 := by
  have hcall : Instr.Fits ⟨.call, (is.map Term.global).length⟩ := h _ (by simp [layoutProgram, Term.layout])
  simpa [Instr.Fits, Opcode.operandWidth] using hcall

end

/-- The values of globals are made of known functions. -/
theorem Store.Linked.madeOf_of_globals {s : Store} {routines : List Routine} (hs : s.Linked routines)
    {is : List Nat} {values : List Value} (h : List.Forall₂ (fun i v => s.globals[i]? = some v) is values) :
    ∀ v ∈ values, v.MadeOf (KnownAmong routines) := by
  intro v hv
  obtain ⟨k, hk, rfl⟩ := List.mem_iff_getElem.mp hv
  exact hs.globals _ (Array.mem_of_getElem? (h.get (h.length_eq ▸ hk) hk))

/-- The snippet nests the same calls as the call of the function from outside. A frame more is what the
snippet's own code takes, and what the call from outside has for its function. -/
theorem Store.Linked.nests_callOf_iff {s : Store} {routines : List Routine} {c c' : Compiler}
    {n : SnippetId} {p : Program} {u : CompiledUnit} {i : Nat} {is : List Nat} {f : FunctionCode}
    {args : List Value} (hs : s.Linked routines)
    (hc : c.Compiled routines n p u c' [.expr (.call (.global i) (is.map .global))] (c.site routines))
    (hstep : c.InStep s) (hf : s.globals[i]? = some (.function f))
    (hargs : List.Forall₂ (fun i v => s.globals[i]? = some v) is args) (harity : args.length = f.params)
    (hroom : args.length < Machine.stackLimit) (k : Nat) :
    s.RunNests u k ↔ s.CallNests (.function f) args k := by
  have hglobals : Store.padded s.globals u.globals = s.globals := by
    have hslots : u.globals = s.globals.size := hc.globals.trans hstep.slots
    simp [Store.padded, hslots]
  have hruns : ∀ depth, 1 ≤ depth → (s.RunNests u depth ↔
      TooDeep (Semantics.callsWithin routines depth (depth - 1) f args 0 s.globals).result) := by
    intro depth hdepth
    rw [Store.runNests_iff hs hc hstep hdepth, hglobals,
      Semantics.run_globalCall hf hargs harity hroom, tooDeep_map_iff]
    rfl
  rcases k with _ | _ | k
  · exact iff_of_true (.inl rfl) (.inl (Nat.zero_le 1))
  · exact iff_of_true ((hruns 1 (Nat.le_refl 1)).mpr ⟨1, rfl⟩) (.inl (Nat.le_refl 1))
  · have hfunction := hs.globals _ (Array.mem_of_getElem? hf)
    have hvalues : ∀ v ∈ args, v.MadeOf (KnownAmong routines) := hs.madeOf_of_globals hargs
    rw [hruns (k + 2) (Nat.le_add_left 1 _), Store.callNests_iff hs hfunction hvalues (Nat.le_add_left 1 k),
      Semantics.call_function harity hroom]
    exact Semantics.tooDeep_callsWithin_iff routines (k + 2) (k + 1) (k + 1) f args 0 s.globals

namespace SessionEngine

variable {config : Config} {e : SessionEngine} {r : Record}

/-- A name that stands for a value is that of a global. -/
theorem Sound.resolve_of_global? (hs : e.Sound config r) {name : String} {v : Value}
    (h : e.evaluator.global? name = some v) :
    ∃ i, e.compiler.compiler.scope.resolve name = some (.global i) ∧ e.evaluator.globals[i]? = some v := by
  unfold Store.global? at h
  cases hbound : e.evaluator.bindings.get? name with
  | none =>
    rw [hbound] at h
    cases h
  | some binding =>
    rw [hbound] at h
    refine ⟨binding.index, (hs.names name binding.index).mpr ?_, h⟩
    rw [hbound]
    rfl

theorem Sound.resolve_of_globals? (hs : e.Sound config r) {names : List String} {values : List Value}
    (h : List.Forall₂ (fun name v => e.evaluator.global? name = some v) names values) :
    ∃ is : List Nat,
      List.Forall₂ (fun name i => e.compiler.compiler.scope.resolve name = some (.global i)) names is ∧
        List.Forall₂ (fun i v => e.evaluator.globals[i]? = some v) is values := by
  induction h with
  | nil => exact ⟨[], .nil, .nil⟩
  | cons hname _ ih =>
    obtain ⟨i, hresolve, hvalue⟩ := hs.resolve_of_global? hname
    obtain ⟨is, hresolves, hvalues⟩ := ih
    exact ⟨i :: is, .cons hresolve hresolves, .cons hvalue hvalues⟩

/-- A snippet that only calls a function of the session nests the same calls as the call from outside. -/
theorem Sound.nests_callOf_iff (hs : e.Sound config r) {name : String} {names : List String}
    {f : FunctionCode} {args : List Value} (hf : e.evaluator.global? name = some (.function f))
    (hargs : List.Forall₂ (fun name v => e.evaluator.global? name = some v) names args)
    (harity : args.length = f.params) {n : SnippetId} {u : CompiledUnit} {c' : Compiler}
    (hcompile : e.compiler.compiler.compile n (Program.callOf name names) = (.ok u, c')) (k : Nat) :
    e.evaluator.RunNests u k ↔ e.evaluator.CallNests (.function f) args k := by
  obtain ⟨i, hresolve, hi⟩ := hs.resolve_of_global? hf
  obtain ⟨is, hresolves, his⟩ := hs.resolve_of_globals? hargs
  obtain ⟨commands, place, hcompiled⟩ := hs.compiled hcompile
  have hres : resolveStmts (Program.callOf name names) (e.compiler.compiler.site r.routines) =
      .ok (_, e.compiler.compiler.site r.routines) := resolveStmts_callOf hresolve hresolves
  cases hres.symm.trans hcompiled.resolved
  have hroom : args.length < Machine.stackLimit := by
    have hlength := length_lt_of_fits hcompiled.splits.2
    rw [his.length_eq] at hlength
    exact Nat.lt_trans hlength (by decide)
  exact hs.linked.nests_callOf_iff hcompiled hs.inStep hi his harity hroom k

/-- Such a snippet compiles if one call takes as many arguments. -/
theorem Reached.callOf_compiles (h : Reached config e r) {name : String} {names : List String} {v : Value}
    {args : List Value} (hf : e.evaluator.global? name = some v)
    (hargs : List.Forall₂ (fun name v => e.evaluator.global? name = some v) names args)
    (hlength : args.length < 256) (n : SnippetId) :
    ∃ u c', e.compiler.compiler.compile n (Program.callOf name names) = (.ok u, c') := by
  obtain ⟨hs, -⟩ := h.sound
  obtain ⟨i, hresolve, hi⟩ := hs.resolve_of_global? hf
  obtain ⟨is, hresolves, his⟩ := hs.resolve_of_globals? hargs
  have hsmall : ∀ {j : Nat} {v : Value}, e.evaluator.globals[j]? = some v → j < 65536 := fun hv =>
    Nat.lt_of_lt_of_le (Array.getElem?_eq_some_iff.mp hv).1 h.globals_le
  have hsmalls : ∀ j ∈ is, j < 65536 := by
    intro j hj
    obtain ⟨k, hk, rfl⟩ := List.mem_iff_getElem.mp hj
    exact hsmall (his.get hk (his.length_eq ▸ hk))
  exact Compiler.compile_of_fits (congrArg Compiler.buffer hs.inStep.idle) hs.inStep.valid
    (resolveStmts_callOf hresolve hresolves) (fits_callOf (hsmall hi) hsmalls (his.length_eq ▸ hlength))
    (fun routine hroutine => (hs.linked.world 0 routine hroutine).1) n

/-- A call from outside fails for want of a frame if more calls nest than there may be frames. -/
theorem Sound.call_tooDeep_iff (hs : e.Sound config r) (hdepth : 1 ≤ config.maxCallDepth) {name : String}
    {names : List String} {f : FunctionCode} {args : List Value}
    (hf : e.evaluator.global? name = some (.function f))
    (hargs : List.Forall₂ (fun name v => e.evaluator.global? name = some v) names args) :
    TooDeep (e.evaluator.call (.function f) args).1 ↔
      e.evaluator.CallNests (.function f) args (config.maxCallDepth + 1) := by
  obtain ⟨i, -, hi⟩ := hs.resolve_of_global? hf
  obtain ⟨is, -, his⟩ := hs.resolve_of_globals? hargs
  have hcall := Store.call_tooDeep_iff hs.linked (hs.linked.globals _ (Array.mem_of_getElem? hi))
    (hs.linked.madeOf_of_globals his) rfl (hs.storeDepth ▸ hdepth)
  rwa [hs.storeDepth] at hcall

/-! ### What to foresee -/

/-- How something failed, if it did. -/
def failure? {α : Type} : Except RunError α → Option RunError
  | .ok _ => none
  | .error error => some error

/-- A snippet comes to what the evaluator has for it. -/
theorem Sound.run_of_interpret (hs : e.Sound config r) {n : SnippetId} {p : Program} {u : CompiledUnit}
    {c' : Compiler} (hcompile : e.compiler.compiler.compile n p = (.ok u, c')) {ran : Ran (Option Value)}
    (h : Semantics.interpret (e.compiler.compiler.site r.routines) config.maxCallDepth p
      e.evaluator.globals = .ok ran) :
    e.evaluator.run u ⟨n, e.compiler.maxCallDepth⟩ = e.evaluator.after u ran := by
  obtain ⟨ran', hinterpret, -, hrun⟩ := hs.run_eq_after hcompile ⟨n, e.compiler.maxCallDepth⟩
  simp only [hs.compilerDepth, hs.storeDepth, Nat.min_self] at hinterpret
  cases h.symm.trans hinterpret
  exact hrun

/-- So it fails if the evaluator fails. -/
theorem Sound.run_of_foreseen (hs : e.Sound config r) {n : SnippetId} {p : Program} {u : CompiledUnit}
    {c' : Compiler} (hcompile : e.compiler.compiler.compile n p = (.ok u, c')) {error : RunError}
    (h : (Semantics.interpret (e.compiler.compiler.site r.routines) config.maxCallDepth p
      e.evaluator.globals).toOption.bind (failure? ·.result) = some error) :
    (e.evaluator.run u ⟨n, e.compiler.maxCallDepth⟩).1 = .failed error := by
  obtain ⟨ran, hinterpret, hresult⟩ := Option.bind_eq_some_iff.mp h
  rw [hs.run_of_interpret hcompile (eq_ok_of_toOption hinterpret), Store.after]
  cases hran : ran.result with
  | ok value =>
    rw [hran] at hresult
    cases hresult
  | error cause =>
    rw [hran] at hresult
    exact congrArg RunOutcome.failed (Option.some.inj hresult)

/-- A call from outside comes to the value that the evaluator has for it. -/
theorem Sound.call_of_foreseen (hs : e.Sound config r) {name : String} {names : List String}
    {f : FunctionCode} {args : List Value} {v : Value}
    (hf : e.evaluator.global? name = some (.function f))
    (hargs : List.Forall₂ (fun name v => e.evaluator.global? name = some v) names args)
    (h : (Semantics.call r.routines config.maxCallDepth (.function f) args
      e.evaluator.globals).result.toOption = some v) :
    (e.evaluator.call (.function f) args).1 = .ok v := by
  obtain ⟨i, -, hi⟩ := hs.resolve_of_global? hf
  obtain ⟨is, -, his⟩ := hs.resolve_of_globals? hargs
  rw [(Store.call_eq hs.linked (hs.linked.globals _ (Array.mem_of_getElem? hi))
    (hs.linked.madeOf_of_globals his) rfl).1, hs.storeDepth]
  exact eq_ok_of_toOption h

/-! ### Snippets and calls from outside -/

/-- A snippet that calls a function of the session, and the call of that function from outside, nest the same
calls. The snippet fails for its depth if as many of them nest as there may be frames, and the call from outside
only if more of them do. A snippet with more arguments than one call takes does not compile. -/
theorem Reached.tooDeep_iff (h : Reached config e r) (hdepth : 1 ≤ config.maxCallDepth) {name : String}
    {names : List String} {f : FunctionCode} {args : List Value}
    (hf : e.evaluator.global? name = some (.function f))
    (hargs : List.Forall₂ (fun name v => e.evaluator.global? name = some v) names args)
    (harity : args.length = f.params) (n : SnippetId) :
    (TooDeep (e.evaluator.call (.function f) args).1 ↔
        e.evaluator.CallNests (.function f) args (config.maxCallDepth + 1)) ∧
      ((256 ≤ args.length ∧ ∃ cause c',
          e.compiler.compiler.compile n (Program.callOf name names) = (.error cause, c')) ∨
        ∃ u c', e.compiler.compiler.compile n (Program.callOf name names) = (.ok u, c') ∧
          (∀ k, e.evaluator.RunNests u k ↔ e.evaluator.CallNests (.function f) args k) ∧
          ((∃ limit, (e.evaluator.run u ⟨n, e.compiler.maxCallDepth⟩).1 = .failed (.callDepth limit)) ↔
            e.evaluator.RunNests u config.maxCallDepth)) := by
  obtain ⟨hs, -⟩ := h.sound
  refine ⟨hs.call_tooDeep_iff hdepth hf hargs, ?_⟩
  rcases hcompile : e.compiler.compiler.compile n (Program.callOf name names) with ⟨cause | u, c'⟩
  · refine .inl ⟨Nat.not_lt.mp fun hlength => ?_, cause, c', rfl⟩
    obtain ⟨u, c', hok⟩ := h.callOf_compiles hf hargs hlength n
    cases hcompile.symm.trans hok
  · obtain ⟨commands, place, hcompiled⟩ := hs.compiled hcompile
    have hlimit : min e.evaluator.maxCallDepth e.compiler.maxCallDepth = config.maxCallDepth := by
      rw [hs.compilerDepth, hs.storeDepth, Nat.min_self]
    have hrun : (∃ limit, (e.evaluator.run u ⟨n, e.compiler.maxCallDepth⟩).1 = .failed (.callDepth limit)) ↔
        e.evaluator.RunNests u (min e.evaluator.maxCallDepth e.compiler.maxCallDepth) :=
      Store.run_tooDeep_iff hs.linked hcompiled hs.inStep (hlimit ▸ hdepth)
    rw [hlimit] at hrun
    exact .inr ⟨u, c', rfl, fun k => hs.nests_callOf_iff hf hargs harity hcompile k, hrun⟩

/-- A function that calls itself twice more: with room for three frames, a snippet that calls it fails, and the
call from outside does not. -/
theorem tooDeep_iff_of_recursion :
    let source := "let down = fn(n) { if (0 < n) { down(n - 1) } else { 7 } }; let two = 2;"
    let e := SessionEngine.new { maxCallDepth := 3 }
    let e₁ : SessionEngine := (Engine.eval parts source e).2
    ∃ evaluation f u c', Engine.eval parts source e = (.ok evaluation, e₁) ∧
      e₁.evaluator.global? "down" = some (.function f) ∧
      e₁.compiler.compiler.compile 1 (Program.callOf "down" ["two"]) = (.ok u, c') ∧
      e₁.evaluator.RunNests u 3 ∧ ¬ e₁.evaluator.RunNests u 4 ∧
      (e₁.evaluator.run u ⟨1, e₁.compiler.maxCallDepth⟩).1 = .failed (.callDepth 3) ∧
      (e₁.evaluator.call (.function f) [.int 2]).1 = .ok (.int 7) := by
  intro source e e₁
  have hforeseen : ((e.foreseenAfter [] source).bind fun e₁ =>
      (e₁.evaluator.global? "down").map fun f =>
        let rs := routinesAfter source e []
        ((f.type, f.functions.map FunctionCode.params), e₁.evaluator.global? "two",
          (Semantics.interpret (e₁.compiler.compiler.site rs) 3 (Program.callOf "down" ["two"])
            e₁.evaluator.globals).toOption.bind (failure? ·.result),
          (Semantics.call rs 3 f [.int 2] e₁.evaluator.globals).result.toOption)) =
      some ((.function, [1]), some (.int 2), some (.callDepth 3), some (.int 7)) := by decide +kernel
  -- What the evaluator foresees of both is what becomes of the engine.
  obtain ⟨e₁', hafter, hforeseen⟩ := Option.bind_eq_some_iff.mp hforeseen
  obtain ⟨evaluation, r₁, hran, hreached, hroutines⟩ := Reached.new.eval_of_foreseenAfter hafter
  obtain rfl : e₁ = e₁' := congrArg Prod.snd hran
  obtain ⟨f, hf, hforeseen⟩ := Option.map_eq_some_iff.mp hforeseen
  simp only [Prod.mk.injEq] at hforeseen
  obtain ⟨⟨htype, hparams⟩, htwo, hrun, hcall⟩ := hforeseen
  cases f with
  | function f =>
    have hargs := List.Forall₂.cons (R := fun name v => e₁.evaluator.global? name = some v) htwo .nil
    have harity : [Value.int 2].length = f.params := (List.singleton_inj.mp hparams).symm
    have hcalled := hreached.sound.1.call_of_foreseen hf hargs (hroutines ▸ hcall)
    obtain ⟨hcallNests, ⟨hmany, -⟩ | ⟨u, c', hcompile, hnests, hrunNests⟩⟩ :=
      hreached.tooDeep_iff (by decide) hf hargs harity 1
    · exact absurd hmany (by decide)
    · have hfails := hreached.sound.1.run_of_foreseen hcompile (hroutines ▸ hrun)
      refine ⟨evaluation, f, u, c', hran, hf, hcompile, hrunNests.mp ⟨_, hfails⟩, ?_, hfails, hcalled⟩
      rw [hnests, ← hcallNests, hcalled]
      exact not_tooDeep_ok _
  | _ => cases htype

/-- With room for one frame, a snippet cannot call a function that itself calls nothing. From outside it can be
called. -/
theorem new_callOf_fails :
    let source := "let f = fn() { 1 };"
    let e := SessionEngine.new { maxCallDepth := 1 }
    let e₁ : SessionEngine := (Engine.eval parts source e).2
    ∃ evaluation f u c', Engine.eval parts source e = (.ok evaluation, e₁) ∧
      e₁.evaluator.global? "f" = some (.function f) ∧
      e₁.compiler.compiler.compile 1 (Program.callOf "f" []) = (.ok u, c') ∧
      ¬ e₁.evaluator.RunNests u 2 ∧ ¬ e₁.evaluator.CallNests (.function f) [] 2 ∧
      (e₁.evaluator.run u ⟨1, e₁.compiler.maxCallDepth⟩).1 = .failed (.callDepth 1) ∧
      (e₁.evaluator.call (.function f) []).1 = .ok (.int 1) := by
  intro source e e₁
  have hforeseen : ((e.foreseenAfter [] source).bind fun e₁ =>
      (e₁.evaluator.global? "f").map fun f =>
        let rs := routinesAfter source e []
        ((f.type, f.functions.map FunctionCode.params),
          (Semantics.interpret (e₁.compiler.compiler.site rs) 1 (Program.callOf "f" [])
            e₁.evaluator.globals).toOption.bind (failure? ·.result),
          (Semantics.call rs 1 f [] e₁.evaluator.globals).result.toOption)) =
      some ((.function, [0]), some (.callDepth 1), some (.int 1)) := by decide +kernel
  obtain ⟨e₁', hafter, hforeseen⟩ := Option.bind_eq_some_iff.mp hforeseen
  obtain ⟨evaluation, r₁, hran, hreached, hroutines⟩ := Reached.new.eval_of_foreseenAfter hafter
  obtain rfl : e₁ = e₁' := congrArg Prod.snd hran
  obtain ⟨f, hf, hforeseen⟩ := Option.map_eq_some_iff.mp hforeseen
  simp only [Prod.mk.injEq] at hforeseen
  obtain ⟨⟨htype, hparams⟩, hrun, hcall⟩ := hforeseen
  cases f with
  | function f =>
    obtain ⟨hs, -⟩ := hreached.sound
    have harity : ([] : List Value).length = f.params := (List.singleton_inj.mp hparams).symm
    have hcalled := hs.call_of_foreseen hf .nil (hroutines ▸ hcall)
    obtain ⟨u, c', hcompile⟩ := hreached.callOf_compiles hf .nil (by decide) 1
    have hnever : ¬ e₁.evaluator.CallNests (.function f) [] 2 := by
      rw [← hs.call_tooDeep_iff (by decide) hf .nil, hcalled]
      exact not_tooDeep_ok _
    refine ⟨evaluation, f, u, c', hran, hf, hcompile, ?_, hnever,
      hs.run_of_foreseen hcompile (hroutines ▸ hrun), hcalled⟩
    rwa [hs.nests_callOf_iff hf .nil harity hcompile]
  | _ => cases htype

end SessionEngine

end Notebook
