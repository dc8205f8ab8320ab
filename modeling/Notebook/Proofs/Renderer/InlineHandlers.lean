import Notebook.Proofs.Composition.SessionRoom
import Notebook.Proofs.Engine.NameMeaning
import Notebook.Proofs.Renderer.BodyTemplates
import Notebook.Proofs.Renderer.CallableMethods
import Notebook.Proofs.Resolution.RenamedParameters

/-!
Code renderers as functions of the session, and inline.

A code renderer that is registered gets a function of the session, whose parameter stands for the value.
Inline, its body is evaluated as one more snippet to a function with another parameter, which is then called.
The two functions have the same commands but constants of different units.

* `Store.Linked.call_congr`: functions with the same body do the same in a store.
* `SessionEngine.Sound.resolves_again`: after a `let` of a function literal, the literal resolves to the same
  commands again under another name of its parameter.
* `SessionEngine.Reached.inline_agrees`: the function of the session and the one that the body is evaluated
  to come to the same for all arguments.
* `Session.Reached.precompiled_agrees`: both ways of rendering have the same outcome right after the renderer
  was registered.
-/

namespace Notebook

open UnitFormat (encodeConstant)

/-! ### Functions with the same body -/

section

variable {s : Store} {routines routines' : List Routine} {f f' : FunctionCode}
variable {commands : List Command} {args : List Value}

/-- Two functions with the same body, and with as many slots and parameters, come to the same. The evaluator
looks at nothing else of a function. -/
theorem Semantics.call_congr (hlocals : f'.locals = f.locals) (hparams : f'.params = f.params)
    (hbody : bodyOf routines f' = bodyOf routines f) (maxFrames : Nat) (args : List Value)
    (globals : Array Value) :
    call routines maxFrames (.function f') args globals =
      call routines maxFrames (.function f) args globals := by
  have hcalls : ∀ room height globals,
      callsWithin routines maxFrames room f' args height globals =
        callsWithin routines maxFrames room f args height globals := by
    intro room height globals
    cases room with
    | zero => rfl
    | succ room => simp only [callsWithin, slots, hlocals, hbody]
  simp only [call, apply, hcalls, hparams]

/-- A store does not mind in which order its functions are listed, or how often. -/
theorem Store.Linked.congr (hs : s.Linked routines) (hsame : ∀ r, r ∈ routines' ↔ r ∈ routines) :
    s.Linked routines' := by
  have hknown : KnownAmong routines' = KnownAmong routines := by
    funext f
    exact propext (exists_congr fun r => and_congr_left' (hsame r))
  have hbounds : ∀ maxFrames (f : FunctionCode), (s.world routines' maxFrames).bounds f false =
      (s.world routines maxFrames).bounds f false := by
    intro maxFrames f
    simp only [World.bounds, World.Known, Store.world, hknown]
  exact
    { world := fun maxFrames r hr => by
        rw [hbounds]
        exact hs.world maxFrames r ((hsame r).mp hr)
      pooled := fun r hr => hs.pooled r ((hsame r).mp hr)
      constants := hknown ▸ hs.constants
      globals := hknown ▸ hs.globals }

/-- In a store, functions with the same body, and with as many slots and parameters, do the same. -/
theorem Store.Linked.call_congr (hs : s.Linked routines) (hf : ⟨f, commands⟩ ∈ routines)
    (hf' : ⟨f', commands⟩ ∈ routines) (hlocals : f'.locals = f.locals) (hparams : f'.params = f.params)
    (hargs : ∀ v ∈ args, v.MadeOf (KnownAmong routines)) :
    (s.call (.function f') args).1 = (s.call (.function f) args).1 := by
  -- Listed first, each of them is found with this body, whatever else has the same code.
  have hfirst : s.Linked (⟨f, commands⟩ :: ⟨f', commands⟩ :: routines) := by
    refine hs.congr fun r => ?_
    simp only [List.mem_cons]
    constructor
    · rintro (rfl | rfl | hr)
      · exact hf
      · exact hf'
      · exact hr
    · exact fun hr => .inr (.inr hr)
  have hknown : ∀ {v : Value}, v.MadeOf (KnownAmong routines) →
      v.MadeOf (KnownAmong (⟨f, commands⟩ :: ⟨f', commands⟩ :: routines)) := fun hv =>
    hv.mono fun g ⟨r, hr, hg⟩ => ⟨r, List.mem_cons_of_mem _ (List.mem_cons_of_mem _ hr), hg⟩
  have hbody : Semantics.bodyOf (⟨f, commands⟩ :: ⟨f', commands⟩ :: routines) f' =
      Semantics.bodyOf (⟨f, commands⟩ :: ⟨f', commands⟩ :: routines) f := by
    by_cases hsame : f = f' <;> simp [Semantics.bodyOf, hsame]
  have hmade : (Value.function f).MadeOf (KnownAmong routines) :=
    (Value.madeOf_function f).mpr ⟨_, hf, rfl⟩
  have hmade' : (Value.function f').MadeOf (KnownAmong routines) :=
    (Value.madeOf_function f').mpr ⟨_, hf', rfl⟩
  have hargs' := fun v hv => hknown (hargs v hv)
  rw [(Store.call_eq hfirst (hknown hmade) hargs' rfl).1,
    (Store.call_eq hfirst (hknown hmade') hargs' rfl).1,
    Semantics.call_congr hlocals hparams hbody]

end

/-! ### A snippet that is a function literal -/

section

variable {c c' : Compiler} {s : Store} {routines : List Routine} {n : SnippetId} {u : CompiledUnit}
variable {params : List String} {body : List Stmt} {scope : Scope} {offset : Nat}
variable {constants : Array Value} {f : FunctionCode} {commands : List Command}

/-- A literal alone resolves to one command. -/
theorem resolveStmts_literal {start place : Site} {t : Term}
    (h : resolveExpr (.function params body) start = .ok (t, place)) :
    resolveStmts [.expr (.function params body)] start = .ok ([.expr t], place) :=
  bind_eq_ok_iff.mpr ⟨_, bind_eq_ok_iff.mpr ⟨_, h, rfl⟩, rfl⟩

/-- The unit of a literal declares nothing. -/
theorem Compiler.Compiled.declarations_eq_nil {p : Program} {cs : List Command} {place : Site}
    (hc : c.Compiled routines n p u c' cs place) (hstep : c.InStep s)
    (hcompile : c.compile n p = (.ok u, c')) (hscope : place.scope.slots = c.scope.slots) :
    u.declarations = [] := by
  have hintro := hc.introduces (congrArg Compiler.declarations hstep.idle) hstep.session hstep.valid
    hcompile
  have hslots : place.scope.slots = c.scope.slots + u.declarations.length := hintro.slots
  exact List.eq_nil_of_length_eq_zero (by omega)

/-- A literal runs to the function that it stands for, and leaves the globals. -/
theorem Store.run_literal {place : Site} {k : Nat} (hs : s.Linked routines)
    (hc : c.Compiled routines n [.expr (.function params body)] u c'
      [.expr (.constant k (.function f))] place) (hstep : c.InStep s) (config : RunConfig) :
    ∃ s', s.run u config = (.finished (some (.function f)), s') := by
  obtain ⟨-, -, hrun⟩ := Store.run_eq hs hc hstep config
  exact ⟨_, hrun⟩

/-- A function literal that resolves can be evaluated as a snippet, if what it resolves to can be laid out
and stored. The store gets its function and nothing is changed that there was. -/
theorem Finishes.literal (hs : s.Linked routines) (hstep : c.InStep s)
    (hres : resolveExpr (.function params body) (c.site routines) =
      .ok (Site.constant (.function f) ⟨c.scope, offset, constants, routines ++ [⟨f, commands⟩]⟩))
    (hlaid : Routine.Laid ⟨f, commands⟩) (hfits : Instr.Fits ⟨.constant, constants.size⟩)
    (hroom : s.constants.size < UInt32.size) (hslots : s.globals.size < UInt32.size)
    (hconstants : ∀ v ∈ constants, Encodes encodeConstant v)
    (hf : Encodes encodeConstant (.function f)) (config : RunConfig) :
    ∃ u c' s', Finishes c s config [.expr (.function params body)] u c' (some (.function f)) s' ∧
      s'.Linked (routines ++ [⟨f, commands⟩]) ∧ s.Grows s' := by
  have hprogram := resolveStmts_literal hres
  have hall : ∀ r ∈ routines ++ [⟨f, commands⟩], r.Laid := by
    intro r hr
    rcases List.mem_append.mp hr with hr | hr
    · exact (hs.world 0 r hr).1
    · exact List.mem_singleton.mp hr ▸ hlaid
  have hlayout : layoutProgram [.expr (.constant constants.size (.function f))] 0 =
      [⟨.constant, constants.size⟩, ⟨.returnValue, 0⟩] := rfl
  -- It compiles, since the code is a constant and a return.
  obtain ⟨u, c', hcompile⟩ := Compiler.compile_of_fits (congrArg Compiler.buffer hstep.idle)
    hstep.valid hprogram (by
      intro i hi
      change i ∈ layoutProgram [.expr (.constant constants.size (.function f))] 0 at hi
      rw [hlayout] at hi
      rcases List.mem_cons.mp hi with rfl | hi
      · exact hfits
      · exact List.mem_singleton.mp hi ▸ rfl) hall config.snippet
  obtain ⟨cs, place, hc⟩ := Compiler.compile_eq_ok (congrArg Compiler.buffer hstep.idle) hstep.valid
    hcompile routines
  cases hprogram.symm.trans hc.resolved
  have hdeclared := hc.declarations_eq_nil hstep hcompile rfl
  have hcount : constants.size < 65536 := hfits
  -- It can be stored, since its constants can, and it declares nothing.
  have hstorable : u.Storable := by
    refine hc.storable (hc.introduces (congrArg Compiler.declarations hstep.idle) hstep.session
      hstep.valid hcompile) (Compiler.compile_declaredType hcompile) ?_ ?_ ?_ ?_ ?_ ?_
    · exact hstep.offset ▸ hroom
    · show (constants.push (.function f)).size < UInt32.size
      rw [Array.size_push]
      exact Nat.lt_of_le_of_lt hcount (by decide)
    · exact hstep.slots ▸ hslots
    · intro v hv
      rcases Array.mem_push.mp hv with hv | rfl
      · exact hconstants v hv
      · exact hf
    · intro d hd
      rw [hdeclared] at hd
      cases hd
    · show 4 < UInt32.size
      decide
  obtain ⟨s', hrun⟩ := Store.run_literal hs hc hstep config
  obtain ⟨hlinked, -⟩ := hs.finished hc hstep hrun
  exact ⟨u, c', s', ⟨hcompile, hstorable, hrun⟩, hlinked, hs.grows hc hstep hrun⟩

end

/-! ### Parameters for placeholders -/

/-- Bodies with one parameter for the placeholders, or with another. The names that are fine are those that
neither parameter could be mistaken for, so no name in the body is captured. -/
def Renamings.parameters (parameter other : String) : Renamings where
  fine name := name != parameter && name != other
  first := Template.naming parameter
  second := Template.naming other
  first_inj x y hx hy h := by
    simp only [Bool.and_eq_true, bne_iff_ne] at hx hy
    unfold Template.naming at h
    split at h <;> split at h <;> simp_all
  second_inj x y hx hy h := by
    simp only [Bool.and_eq_true, bne_iff_ne] at hx hy
    unfold Template.naming at h
    split at h <;> split at h <;> simp_all

/-- Nothing is in a body that the two parameters could be mistaken for, if neither of them is. -/
theorem Renamings.fine_of_notMem {parameter other : String} {ts : List Token}
    (hplain : .keyword .function ∉ ts) (hparameter : .ident parameter ∉ ts)
    (hother : .ident other ∉ ts) :
    ts.all (Token.isPlain (Renamings.parameters parameter other).fine) = true := by
  refine List.all_eq_true.mpr fun t ht => ?_
  cases t with
  | ident name =>
    refine Bool.and_eq_true_iff.mpr ⟨bne_iff_ne.mpr ?_, bne_iff_ne.mpr ?_⟩
    · rintro rfl
      exact hparameter ht
    · rintro rfl
      exact hother ht
  | keyword k => cases k with
    | function => exact absurd ht hplain
    | _ => rfl
  | _ => rfl

/-- The parameter means the same whatever its name is, and so does what is not called like it. -/
theorem Scope.resolve_naming (s : Scope) {parameter name : String} (hname : name ≠ parameter) :
    (s.enter [parameter]).resolve (Template.naming parameter name) =
      if name = Template.placeholderName then some (.own 0)
      else (s.resolve name).map Reference.fromInside := by
  rw [Scope.resolve_enter_singleton]
  unfold Template.naming
  by_cases hplace : name = Template.placeholderName
  · simp only [if_pos hplace, if_true]
  · rw [if_neg hplace, if_neg hplace, if_neg hname.symm]

/-- Where a program that is a `let` of a function literal was kept, the literal resolves once more, under
another name of its parameter. -/
theorem SessionEngine.Sound.resolves_again {config : Config} {e e' : SessionEngine} {r : Record}
    {n : SnippetId} {source : String} {value : Option Value} {u : CompiledUnit}
    {stored : SerializedUnit} {commands : List Command} {place : Site}
    {method parameter other : String} {body : List Stmt} (hs : e.Sound config r)
    (hplain : Program.isPlain (Renamings.parameters parameter other).fine true body = true)
    (h : Kept r.routines n source value e e' [.letIn method
      (.function [parameter] (Program.rename (Template.naming parameter) body))] u stored commands
        place) :
    ∃ (constants : Array Value) (f : FunctionCode) (cs : List Command),
      let again : FunctionCode := { f with constantsOffset := e'.evaluator.constants.size }
      commands = [.setGlobal e.compiler.compiler.scope.slots (.constant constants.size (.function f))] ∧
        place.constants = constants.push (.function f) ∧ ⟨f, cs⟩ ∈ place.routines ∧
        resolveExpr (.function [other] (Program.rename (Template.naming other) body))
            (e'.compiler.compiler.site place.routines) =
          .ok (Site.constant (.function again) ⟨e'.compiler.compiler.scope,
            e'.evaluator.constants.size, constants, place.routines ++ [⟨again, cs⟩]⟩) := by
  have hsite : ∀ {c : Compiler} {s : Store}, c.InStep s → ∀ rs,
      c.site rs = ⟨c.scope, s.constants.size, #[], rs⟩ := fun hstep rs => by
    rw [congrArg (Compiler.site · rs) hstep.idle]
    rfl
  have hsession := hs.inStep.session
  have hscope : e'.compiler.compiler.scope = e.compiler.compiler.scope.define method :=
    h.compiled.scope
  have hresolved := h.compiled.resolved
  rw [hsite hs.inStep] at hresolved
  obtain ⟨⟨c, s₁⟩, hstatement, hresolved⟩ := bind_eq_ok_iff.mp hresolved
  obtain ⟨⟨t, s₂⟩, hvalue, hstatement⟩ := bind_eq_ok_iff.mp hstatement
  cases hstatement
  cases hresolved
  -- In the scope of either function a name means the same, whatever the parameter is called.
  have hnames : ∀ name, (Renamings.parameters parameter other).fine name = true →
      ((e.compiler.compiler.scope.define method).enter [other]).resolve
          (Template.naming other name) =
        ((e.compiler.compiler.scope.define method).enter [parameter]).resolve
          (Template.naming parameter name) := by
    intro name hname
    obtain ⟨hparameter, hother⟩ := Bool.and_eq_true_iff.mp hname
    rw [Scope.resolve_naming _ (bne_iff_ne.mp hparameter), Scope.resolve_naming _ (bne_iff_ne.mp hother)]
  -- Then the literals resolve alike, up to where their constants are.
  obtain ⟨constants, f, cs, -, hplace, hagain⟩ := resolveExpr_parameter
    e'.evaluator.constants.size place.routines hnames hplain hvalue
  obtain ⟨rfl, rfl⟩ := Prod.mk.inj hplace
  have hinStep := (hs.kept h).inStep
  refine ⟨constants, f, cs, ?_, rfl, List.mem_append_right _ (List.mem_singleton_self _), ?_⟩
  · cases hlevel : e.compiler.compiler.scope with
    | function level enclosing =>
      rw [hlevel] at hsession
      cases hsession
    | session level => rfl
  · rw [hsite hinStep, hscope]
    exact hagain

/-! ### Both ways of rendering -/

namespace SessionEngine

variable {config : Config} {e e' : SessionEngine} {r : Record}

/-- A snippet that is kept changes no files where writing is off. -/
theorem Kept.files_eq {routines : List Routine} {n : SnippetId} {source : String}
    {value : Option Value} {p : Program} {u : CompiledUnit} {stored : SerializedUnit}
    {commands : List Command} {place : Site}
    (h : Kept routines n source value e e' p u stored commands place)
    (hoff : e.files.current = none) : e'.files = e.files := by
  have hpersisted := h.persisted
  unfold Engine.persist UnitFiles.write at hpersisted
  rw [hoff] at hpersisted
  split at hpersisted
  · cases hpersisted
  · simp only [Except.ok.injEq, Prod.mk.injEq] at hpersisted
    exact hpersisted.2.symm

/-- A snippet that finishes is carried out for its value, if no files are written. -/
theorem Sound.execute_of_finishes (hs : e.Sound config r) (hidle : e.executing = false)
    (hfiles : e.files.current = none) {source : String} {p : Program} {u : CompiledUnit}
    {c' : Compiler} {value : Option Value} {s' : Store} (hparse : Program.ofSource source = .ok p)
    (h : Finishes e.compiler.compiler e.evaluator
      ⟨e.compiler.nextSnippet, e.compiler.maxCallDepth⟩ p u c' value s') :
    ∃ e', SessionEngine.execute source e = (.ok value, e') ∧ e'.evaluator = s' := by
  obtain ⟨handle, archive, heval⟩ := hs.eval_of_finishes hidle hfiles hparse h
  refine ⟨(Engine.eval parts source e).2, ?_, by rw [heval]⟩
  unfold SessionEngine.execute
  rw [heval]
  rfl

/-- A snippet that was kept and is a `let` of a function literal binds the function. Then the literal
finishes once more under another name of its parameter, and comes to a function that does the same. -/
theorem Sound.finishes_again {n : SnippetId} {source : String} {value : Option Value}
    {u : CompiledUnit} {stored : SerializedUnit} {commands : List Command} {place : Site}
    {method parameter other : String} {body : List Stmt} (hs : e.Sound config r)
    (hplain : Program.isPlain (Renamings.parameters parameter other).fine true body = true)
    (h : Kept r.routines n source value e e' [.letIn method
      (.function [parameter] (Program.rename (Template.naming parameter) body))] u stored commands
        place)
    (hroom : e'.evaluator.constants.size < UInt32.size)
    (hslots : e'.evaluator.globals.size < UInt32.size) :
    ∃ (f again : FunctionCode) (i : Nat) (u' : CompiledUnit) (c' : Compiler) (s' : Store),
      e'.evaluator.bindings.get? method = some ⟨i, n⟩ ∧
        e'.evaluator.globals[i]? = some (.function f) ∧
        Finishes e'.compiler.compiler e'.evaluator ⟨e'.compiler.nextSnippet, e'.compiler.maxCallDepth⟩
          [.expr (.function [other] (Program.rename (Template.naming other) body))] u' c'
            (some (.function again)) s' ∧
        ∀ args : List Value, (∀ v ∈ args, v.MadeOf e'.Owns) →
          (s'.call (.function again) args).1 = (e'.evaluator.call (.function f) args).1 := by
  have hs' := hs.kept h
  have hroutines : (r.ran source e value).routines = place.routines := h.routinesAfter_eq
  have hlinked : e'.evaluator.Linked place.routines := hroutines ▸ hs'.linked
  obtain ⟨constants, f, cs, rfl, hconstants, hknown, hagain⟩ := hs.resolves_again hplain h
  obtain ⟨i, hbound, hvalue⟩ := hs.binds h
  -- The literal's own constants are those that were stored before.
  have hstored : u.Storable :=
    CompiledUnit.serialize_ok_iff.mp ⟨stored, Engine.serialize_eq_of_persist h.persisted⟩
  have hencodes : ∀ v ∈ constants.push (.function f), Encodes encodeConstant v := by
    intro v hv
    refine hstored.constants v ?_
    rw [h.compiled.constants, hconstants]
    exact Array.mem_toList_iff.mpr hv
  have hfunction : Encodes encodeConstant (.function f) := hencodes _ Array.mem_push_self
  have hfits : Instr.Fits ⟨.constant, constants.size⟩ := h.compiled.splits.2 _ List.mem_cons_self
  obtain ⟨u', c', s', hfinishes, hlinked', hgrows⟩ := Finishes.literal hlinked hs'.inStep hagain
    (hlinked.world 0 _ hknown).1 hfits hroom hslots
    (fun v hv => hencodes v (Array.mem_push_of_mem _ hv))
    (encodes_function_iff.mpr (encodes_function_iff.mp hfunction))
    ⟨e'.compiler.nextSnippet, e'.compiler.maxCallDepth⟩
  refine ⟨f, _, i, u', c', s', hbound, hvalue, hfinishes, fun args hargs => ?_⟩
  have hargs : ∀ v ∈ args, v.MadeOf (KnownAmong place.routines) :=
    fun v hv => hroutines ▸ hs'.known (hargs v hv)
  -- Both functions are known to the store afterwards, with the same commands.
  refine (hlinked'.call_congr (List.mem_append_left _ hknown)
    (List.mem_append_right _ (List.mem_singleton_self _)) rfl rfl fun v hv => ?_).trans
      (hlinked.call_grows hgrows ((Value.madeOf_function f).mpr ⟨_, hknown, rfl⟩) hargs)
  exact (hargs v hv).mono fun g ⟨r, hr, hg⟩ => ⟨r, List.mem_append_left _ hr, hg⟩

/-- Only programs are evaluated. -/
theorem Reached.parsed_of_ok (h : Reached config e r) {source : String} {evaluation : Evaluation}
    (heval : (Engine.eval parts source e).1 = .ok evaluation) :
    ∃ p, Program.ofSource source = .ok p := by
  obtain ⟨hs, hidle⟩ := h.sound
  rw [eval_eq hidle] at heval
  rcases evalAs_cases hs.started e.compiler.nextSnippet source with ⟨-, error, files, hfailed⟩ |
    ⟨evaluation', e', p, u, stored, commands, place, -, hkept⟩
  · rw [hfailed] at heval
    cases heval
  · exact ⟨p, hkept.parsed⟩

/-- If the snippet that makes a function of a body was evaluated, the context has the function. Then the
body is evaluated inline, too, and comes to a function that does the same. -/
theorem Reached.inline_agrees (h : Reached config e r) (hoff : e.files.current = none)
    {method parameter other source inline : String} {body : List Stmt}
    (hparse : Program.ofSource source = .ok [.letIn method
      (.function [parameter] (Program.rename (Template.naming parameter) body))])
    (hinline : Program.ofSource inline =
      .ok [.expr (.function [other] (Program.rename (Template.naming other) body))])
    (hplain : Program.isPlain (Renamings.parameters parameter other).fine true body = true)
    {evaluation : Evaluation} (heval : Engine.eval parts source e = (.ok evaluation, e'))
    (hroom : e'.evaluator.constants.size < UInt32.size) :
    ∃ (f again : FunctionCode) (line : SnippetId) (e'' : SessionEngine),
      e'.context.function? method = some ⟨.function f, line⟩ ∧
        SessionEngine.execute inline e' = (.ok (some (.function again)), e'') ∧
        ∀ args : List Value, (∀ v ∈ args, v.MadeOf e'.Owns) →
          (SessionEngine.call (.function again) args e'').1 =
            (SessionEngine.call (.function f) args e').1 := by
  obtain ⟨hs, hidle⟩ := h.sound
  have hreached' := (h.eval source).1.reached
  rw [heval] at hreached'
  obtain ⟨hs', hidle'⟩ := hreached'.sound
  rw [eval_eq hidle] at heval
  rcases evalAs_cases hs.started e.compiler.nextSnippet source with ⟨-, error, files, hfailed⟩ |
    ⟨evaluation', e₁, p, u, stored, commands, place, hevalAs, hkept⟩
  · rw [hfailed] at heval
    cases heval
  · obtain rfl := Except.ok.inj (hparse.symm.trans hkept.parsed)
    rw [hevalAs] at heval
    cases heval
    -- The body finishes as a literal of its own, and that is what evaluating it inline does.
    obtain ⟨f, again, i, u', c', s', hbound, hvalue, hfinishes, hcalls⟩ :=
      hs.started.finishes_again hplain hkept hroom
        (Nat.lt_of_le_of_lt hreached'.globals_le (by decide))
    have hoff' : e₁.files.current = none := by
      rw [hkept.files_eq hoff]
      exact hoff
    obtain ⟨e'', hexecute, rfl⟩ := hs'.execute_of_finishes hidle' hoff' hinline hfinishes
    refine ⟨f, again, e.compiler.nextSnippet, e'', ?_, hexecute, hcalls⟩
    show e₁.context.function? method = _
    rw [(hs.started.kept hkept).context]
    exact Context.function?_ofStore hreached'.names_nodup hbound hvalue

end SessionEngine

/-- Is this the same outcome, of a call and of a script: the same value, or failures with the same message? The
two fail with errors of different kinds, so only what a reader sees of these is compared. -/
def SameOutcome (called : Except RunError Value) (rendered : Except Cause TypedResult) : Prop :=
  match called, rendered with
  | .ok v, .ok result => result = .of v
  | .error error, .error cause => cause.message = error.message
  | _, _ => False

/-- A body that evaluates to a function has the outcome of calling the function. -/
theorem sameOutcome_bodyScript {body : String} {result : TypedResult} {e e' : SessionEngine}
    {f : Value} {called : Except RunError Value}
    (hexecute : SessionEngine.execute (functionSource body inlineParameter) e = (.ok (some f), e'))
    (hcall : (SessionEngine.call f [result.value.getD .null] e').1 = called) :
    SameOutcome called ((bodyScript body result).run SessionEngine.host.toHost e).1 := by
  subst hcall
  simp only [bodyScript, Script.run, SessionEngine.host, hexecute]
  cases (SessionEngine.call f [result.value.getD .null] e').1 with
  | ok v => exact rfl
  | error error => exact rfl

namespace Session

variable {config : Config} {s : Session} {r : Record} {body : String} {program : Program}

/-- Rendering by the session's function for a code renderer agrees with rendering inline, right after the
renderer was registered. The body, with identifiers for its placeholders, reads as a program on its own; it
holds no function literal and neither name that stands for the value, and its placeholders stand for
themselves. No files are written, and the pool has room for one unit more. -/
theorem Reached.precompiled_agrees (h : Reached config s r) (hoff : s.engine.files.current = none)
    {accepts : TypeMatcher} (hbody : Program.ofTokens (Template.tokens body) = .ok program)
    (hclear : Template.Clear body) (hplain : .keyword .function ∉ Template.tokens body)
    (hmethod : .ident methodParameter ∉ Template.tokens body)
    (hinline : .ident inlineParameter ∉ Template.tokens body)
    (hregister : (s.register (.code accepts body)).1 = .ok ())
    (hroom : (s.register (.code accepts body)).2.engine.evaluator.constants.size < UInt32.size) :
    let s' : Session := (s.register (.code accepts body)).2
    ∃ (id : Nat) (entry : ContextEntry),
      s'.renderers.renderers.back? = some ⟨.code accepts body, some id⟩ ∧
      s'.context.function? (methodName id) = some entry ∧
      ∀ result : TypedResult, (result.value.getD .null).MadeOf s'.engine.Owns →
        SameOutcome (SessionEngine.host.invoke entry [result.value.getD .null] s'.engine).1
          (((Renderer.code accepts body).script result).run SessionEngine.host.toHost s'.engine).1 := by
  have hcode : (s.renderers.prepare (.code accepts body)).code =
      some (precompiledSource body (methodName s.renderers.nextMethod) methodParameter) := rfl
  rcases heval : Engine.eval SessionEngine.parts
      (precompiledSource body (methodName s.renderers.nextMethod) methodParameter) s.engine with
    ⟨error | evaluation, engine⟩
  · rw [register_of_error hcode heval] at hregister
    cases hregister
  · rw [register_of_ok hcode heval] at hroom ⊢
    intro s'
    have hengine := h.engine.engine
    have hfine := Renamings.fine_of_notMem hplain hmethod hinline
    have hisName : Token.isName methodParameter = true := by decide +kernel
    have hisName' : Token.isName inlineParameter = true := by decide +kernel
    obtain ⟨p, hparse⟩ := hengine.parsed_of_ok (congrArg Prod.fst heval)
    -- The snippet that was registered is the body's program under the one parameter, and the inline text is it
    -- under the other.
    obtain ⟨rfl, hothers⟩ := Program.of_precompiledSource hclear hbody hfine (isName_methodName _)
      hisName hparse
    obtain ⟨hprogram, -⟩ := Program.block_of_ofTokens hbody hfine id [] (Nat.lt_succ_self _)
    obtain ⟨f, again, line, e'', hcontext, hexecute, hcalls⟩ :=
      hengine.inline_agrees hoff hparse (hothers _ hisName') hprogram heval hroom
    refine ⟨s.renderers.nextMethod, ⟨.function f, line⟩, ?_, hcontext, fun result hvalue => ?_⟩
    · exact Array.back?_push
    · exact sameOutcome_bodyScript hexecute (hcalls _ fun v hv => List.mem_singleton.mp hv ▸ hvalue)

/-- A renderer that adds one to what it is given. -/
theorem successor_agrees :
    let body := "$it + 1"
    let renderer : Renderer := .code (.anyOf [.int]) body
    let s : Session := ((Session.new {}).register renderer).2
    Template.tokens body = [.ident "$it", .symbol .plus, .int "1"] ∧ Template.Clear body ∧
      ∃ (id : Nat) (entry : ContextEntry),
        s.renderers.renderers.back? = some ⟨renderer, some id⟩ ∧
        s.context.function? (methodName id) = some entry ∧
        ∀ result : TypedResult, (result.value.getD .null).MadeOf s.engine.Owns →
          SameOutcome (SessionEngine.host.invoke entry [result.value.getD .null] s.engine).1
            ((renderer.script result).run SessionEngine.host.toHost s.engine).1 := by
  intro body renderer s
  have htokens : Template.tokens body = [.ident "$it", .symbol .plus, .int "1"] := by decide +kernel
  have hclear : Template.Clear body := by decide +kernel
  have hparses : (Program.ofTokens (Template.tokens body)).toOption.isSome = true := by decide +kernel
  -- The snippet for the renderer succeeds, and leaves two constants.
  let code := precompiledSource body (methodName 0) methodParameter
  have hforeseen : ((SessionEngine.new {}).started.foreseenRun [] 0 code).map
      (fun out => out.2.constants.size) = some 2 := by decide +kernel
  obtain ⟨⟨value, store⟩, hrun, hsize⟩ := Option.map_eq_some_iff.mp hforeseen
  obtain ⟨evaluation, hresult, -, hstore⟩ := (SessionEngine.Sound.new {}).ok_of_foreseenRun
    (fun _ e => ((), e)) rfl (fun _ _ => rfl) hrun
  have heval : Engine.eval SessionEngine.parts code (SessionEngine.new {}) =
      (.ok evaluation, (Engine.eval SessionEngine.parts code (SessionEngine.new {})).2) :=
    Prod.ext hresult rfl
  have hregister : (Session.new {}).register renderer = _ :=
    register_of_ok (s := Session.new {}) rfl heval
  have hroom : s.engine.evaluator.constants.size < UInt32.size := by
    have hengine : s.engine.evaluator = store := by
      show ((Session.new {}).register renderer).2.engine.evaluator = store
      rw [hregister]
      exact hstore
    rw [hengine, show store.constants.size = 2 from hsize]
    decide
  cases hprogram : Program.ofTokens (Template.tokens body) with
  | error cause =>
    rw [hprogram] at hparses
    cases hparses
  | ok program =>
    exact ⟨htokens, hclear, Reached.precompiled_agrees .new rfl hprogram hclear
      (by rw [htokens]; decide) (by rw [htokens]; decide) (by rw [htokens]; decide)
      (by rw [hregister]) hroom⟩

end Session

end Notebook
