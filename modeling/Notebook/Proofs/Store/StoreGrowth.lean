import Notebook.Proofs.Compiler.WellFormedCode
import Notebook.Proofs.Machine.LockstepRuns

/-!
Stores that grow, and what functions mean in them.

A pairing that `Extends` a world sets it beside one in which the pool and the globals go on after
their ends. Code of the world refers to nothing behind these ends, and functions assign no globals,
so it does the same in both.

* `Pairing.Extends.sound`: all known functions mean the same in the larger world.
* `Store.Linked.grows`: running a unit adds constants and globals and leaves alone those that there
  were.
* `Store.Linked.call_grows`: calling a function of a store comes to the same once the store has
  grown.
-/

namespace Notebook

namespace Pairing

/-- Does a pairing set a world beside one whose pool and globals may go on after their ends? A function is the
same as itself, if it is known, and functions that were added later are no part of it. -/
structure Extends (p : Pairing) (w : World) : Prop where
  setting : p.setting = w.setting
  maxFrames : p.setting'.maxFrames = w.setting.maxFrames
  constants : ∀ (i : Nat) (v : Value),
    w.setting.constants[i]? = some v → p.setting'.constants[i]? = some v
  same : ∀ f f', p.same f f' ↔ f = f' ∧ w.Known f
  globals : ∀ g g', p.globals g g' →
    w.Fits g ∧ ∀ (i : Nat) (v : Value), g[i]? = some v → g'[i]? = some v

namespace Extends

variable {p : Pairing} {w : World} {f f' : FunctionCode} {v v' : Value} {i : Instr}

theorem related (h : p.Extends w) (hv : v.MadeOf w.Known) : v.Related p.same v :=
  Value.related_refl fun f hf => (h.same f f).mpr ⟨rfl, hv f hf⟩

theorem eq_of_same (h : p.Extends w) (f f' : FunctionCode) (hsame : p.same f f') : f = f' :=
  ((h.same f f').mp hsame).1

theorem biUnique (h : p.Extends w) : Relator.BiUnique p.same := by
  constructor
  · intro f g f' hf hg
    rw [h.eq_of_same f f' hf, h.eq_of_same g f' hg]
  · intro f f' g' hf hg
    rw [← h.eq_of_same f f' hf, ← h.eq_of_same f g' hg]

theorem eq_of_related (h : p.Extends w) (hv : v.Related p.same v') : v = v' :=
  hv.eq_of_imp h.eq_of_same

theorem madeOf_of_related (h : p.Extends w) (hv : v.Related p.same v') : v.MadeOf w.Known :=
  hv.madeOf fun f f' hsame => ((h.same f f').mp hsame).2

/-- The operand of an instruction within the bounds of its function means the same in the larger
world. An assignment of a global is not looked at here. -/
theorem means (h : p.Extends w) {top : Bool} (hoffset : f.constantsOffset = f'.constantsOffset)
    (hmeets : i.Meets (·.Allowed (w.bounds f top))) (hset : i.opcode ≠ .setGlobal) :
    p.Means i.opcode f f' i.operand i.operand := by
  unfold Instr.Meets at hmeets
  unfold Pairing.Means
  cases hop : i.opcode <;> simp only [hop] at hmeets ⊢
  case constant =>
    obtain ⟨v, hv, hmade⟩ := hmeets
    rw [h.setting]
    have hv' := h.constants _ v hv
    exact ⟨v, v, hv, hoffset ▸ hv', h.related hmade⟩
  case getGlobal =>
    intro g g' hglobals
    obtain ⟨⟨hsize, hmade⟩, hkeeps⟩ := h.globals g g' hglobals
    have hlt : i.operand < g.size := hsize ▸ hmeets
    have hv : g[i.operand]? = some g[i.operand] := Array.getElem?_eq_getElem hlt
    exact ⟨_, _, hv, hkeeps _ _ hv, h.related (hmade _ (Array.getElem_mem hlt))⟩
  case setGlobal => exact absurd hop hset

/-- Instructions of the same code are alike in both worlds. -/
theorem alike (h : p.Extends w) {top : Bool} {start : Nat}
    (hoffset : f.constantsOffset = f'.constantsOffset)
    (hmeets : i.Meets (·.Allowed (w.bounds f top)))
    (hset : ∀ index, i = ⟨.setGlobal, index⟩ → p.Means .setGlobal f f' index index) :
    p.Alike f f' start start i i := by
  refine ⟨rfl, ?_, fun _ => rfl⟩
  by_cases hop : i.opcode = .setGlobal
  · obtain ⟨op, operand⟩ := i
    cases hop
    exact hset operand rfl
  · exact h.means hoffset hmeets hop

/-- Code that leaves at its end is matched with itself. Assignments of globals have to mean the same,
if there are any. -/
theorem matched_of_leaving {P : Use → Prop} {is : List Instr} {top : Bool} (h : p.Extends w)
    (hcode : f.code.Holds 0 is) (hleaving : Leaving P 0 is)
    (hallowed : ∀ u, P u → u.Allowed (w.bounds f top))
    (hset : ∀ index, P (.setGlobal index) → p.Means .setGlobal f f index index) (base : Nat) :
    p.Matched ⟨f, 0, base⟩ ⟨f, 0, base⟩ := by
  obtain ⟨hstart, hmeets, hgoes, height, -, hbalanced⟩ := hleaving.closed
  refine ⟨Along f f 0 0 fun q => ∃ i, Stands 0 is q i,
    along_closed hcode hcode ?_ (fun q _ hq _ => hq) hgoes ?_, rfl, rfl, rfl, rfl, hstart⟩
  · refine List.forall₂_same.mpr fun i hi => ?_
    refine h.alike rfl ((hmeets i hi).mono hallowed) ?_
    rintro index rfl
    exact hset index (hmeets _ hi)
  · intro q i hi hjumps
    exact (hbalanced.jumps q i hi hjumps).2.1

/-- Known functions are matched with themselves. -/
theorem matched (h : p.Extends w) (hw : w.Linked) (hf : w.Known f) (base : Nat) :
    p.Matched ⟨f, 0, base⟩ ⟨f, 0, base⟩ := by
  obtain ⟨r, hr, rfl⟩ := hf
  obtain ⟨hlaid, -, -, huses⟩ := hw r hr
  refine h.matched_of_leaving hlaid.holds (leaving_of_body r.body 0 huses) (fun _ hu => hu) ?_ base
  rintro index ⟨-, hnever⟩
  cases hnever

/-- All that is known means the same in both worlds. -/
theorem sound (h : p.Extends w) (hw : w.Linked) : p.Sound where
  maxFrames := h.setting ▸ h.maxFrames.symm
  params f f' hsame := congrArg FunctionCode.params (h.eq_of_same f f' hsame)
  locals f f' hsame := congrArg FunctionCode.locals (h.eq_of_same f f' hsame)
  starts f f' hsame base := by
    obtain ⟨rfl, hf⟩ := (h.same f f').mp hsame
    exact h.matched hw hf base

end Extends

end Pairing

/-- A world beside one whose pool is this one, and whose globals may go on after their end. -/
def World.larger (w : World) (constants : Array Value) : Pairing where
  setting := w.setting
  setting' := ⟨constants, w.setting.maxFrames⟩
  same f f' := f = f' ∧ w.Known f
  globals g g' := w.Fits g ∧ ∀ (i : Nat) (v : Value), g[i]? = some v → g'[i]? = some v

theorem World.larger_extends {w : World} {constants : Array Value}
    (h : ∀ (i : Nat) (v : Value), w.setting.constants[i]? = some v → constants[i]? = some v) :
    (w.larger constants).Extends w where
  setting := rfl
  maxFrames := rfl
  constants := h
  same _ _ := Iff.rfl
  globals _ _ hglobals := hglobals

/-! ### Calls -/

/-- A call from outside that enters a function comes to an end, since the evaluator comes to one, and the
machine does what the evaluator says. -/
theorem World.Linked.entered_ends {w : World} (hw : w.Linked) {callee : Value} {args : List Value}
    {g : Array Value} {frame : Frame} {stack : Array Value} (hcallee : callee.MadeOf w.Known)
    (hargs : ∀ v ∈ args, v.MadeOf w.Known) (hfits : w.Fits g)
    (hentered : Machine.enter w.setting.maxFrames 0 args.length
      (Machine.operands #[] callee args) = .ok (some frame, stack)) :
    ∃ ran, Machine.Ends w.setting g ⟨frame, [], stack⟩ ran := by
  have henter := hentered
  rw [Machine.enter_operands] at henter
  -- Only a function is entered, and what its call comes to is how the machine ends.
  cases callee with
  | function f =>
    by_cases harity : args.length = f.params
    · have hcall := calls_follow hw w.setting.maxFrames 0 rfl [] f args #[] g rfl
        ((Value.madeOf_function f).mp hcallee) harity hargs hfits
      rcases hran : Semantics.callsWithin w.routines w.setting.maxFrames w.setting.maxFrames f args
        (#[] : Array Value).size g with ⟨result, g'⟩
      rw [hran] at hcall
      cases result with
      | ok v =>
        obtain ⟨-, -, frame', stack', result, hentered', -, m', ip, rest, hreach, hleave⟩ := hcall
        cases hentered.symm.trans hentered'
        exact ⟨_, hreach.ends hleave⟩
      | error error =>
        obtain ⟨-, -, hrefused | ⟨frame', stack', hentered', hfail⟩⟩ := hcall
        · cases hentered.symm.trans hrefused
        · cases hentered.symm.trans hentered'
          exact ⟨_, hfail.ends⟩
    · simp only [ne_eq, harity, not_false_eq_true, if_true] at henter
      cases henter
  | builtin b =>
    simp only at henter
    split at henter
    · rename_i v hb
      cases hpush : Machine.push #[] v with
      | error error =>
        rw [hpush] at henter
        cases henter
      | ok stack' =>
        rw [hpush] at henter
        cases henter
    · cases henter
  | _ => cases henter

/-- The operands of a call are related to themselves. -/
theorem Pairing.Extends.operands {p : Pairing} {w : World} {callee : Value} {args : List Value}
    (h : p.Extends w) (hcallee : callee.MadeOf w.Known) (hargs : ∀ v ∈ args, v.MadeOf w.Known) :
    Stacked p.same (Machine.operands #[] callee args) (Machine.operands #[] callee args) := by
  refine List.forall₂_same.mpr fun v hv => h.related ?_
  rcases Array.mem_append.mp (Array.mem_toList_iff.mp hv) with hv | hv
  · rcases Array.mem_push.mp hv with hv | rfl
    · exact absurd hv (Array.not_mem_empty v)
    · exact hcallee
  · exact hargs v (List.mem_toArray.mp hv)

/-- A call from outside has the same result in the larger world. The two machines run in lock-step, with the
same functions and with operands that are equal. -/
theorem Pairing.Extends.call_eq {p : Pairing} {w : World} {callee : Value} {args : List Value}
    {g g' : Array Value} (h : p.Extends w) (hw : w.Linked) (hcallee : callee.MadeOf w.Known)
    (hargs : ∀ v ∈ args, v.MadeOf w.Known) (hglobals : p.globals g g') :
    (Machine.call p.setting' g' callee args).result =
      (Machine.call w.setting g callee args).result := by
  by_cases hroom : args.length + 1 ≤ Machine.stackLimit
  · unfold Machine.call
    rw [Machine.pushAll_operands hroom]
    simp only [h.maxFrames]
    cases henter : Machine.enter w.setting.maxFrames 0 args.length
        (Machine.operands #[] callee args) with
    | error error => rfl
    | ok entered =>
      obtain ⟨frame, stack⟩ := entered
      cases frame with
      | none => rfl
      | some frame =>
        have hsound := h.sound hw
        -- Both machines enter the same function, and from there they run in lock-step.
        have hentered := enter_related hsound w.setting.maxFrames 0 args.length
          (h.operands hcallee hargs)
        rw [henter] at hentered
        obtain ⟨ran, hends⟩ := hw.entered_ends hcallee hargs (h.globals g g' hglobals).1 henter
        cases hentered with
        | ok hpair =>
          obtain ⟨hframe, hstack⟩ := hpair
          cases hframe with
          | some hmatched =>
            have hpaired : p.Paired p.Matched ⟨frame, [], stack⟩ ⟨frame, [], stack⟩ :=
              ⟨.outermost hmatched, hstack⟩
            obtain ⟨ran', hends', hresults, -⟩ :=
              hpaired.ends hsound matched_closed hglobals (.inl h.biUnique) (h.setting ▸ hends)
            simp only [Machine.run_of_ends hends, Machine.run_of_ends hends']
            rcases hresults.cases with ⟨value, value', hvalue, hvalue', hrelated⟩ |
              ⟨error, herror, herror'⟩
            · rw [hvalue, hvalue']
              exact congrArg Except.ok (h.eq_of_related (Value.related_getD hrelated)).symm
            · rw [herror, herror']
  · have hpush := Machine.pushAll_eq #[] (callee :: args) (Nat.zero_le _)
    rw [Array.size_empty, Nat.zero_add, List.length_cons, if_neg hroom] at hpush
    unfold Machine.call
    rw [hpush]

/-! ### Stores -/

/-- Has a store at most got more constants and globals? What there was is at the same places, with the same
values. -/
structure Store.Grows (s s' : Store) : Prop where
  constants : ∀ (i : Nat) (v : Value), s.constants[i]? = some v → s'.constants[i]? = some v
  globals : ∀ (i : Nat) (v : Value), s.globals[i]? = some v → s'.globals[i]? = some v
  maxCallDepth : s'.maxCallDepth = s.maxCallDepth

theorem Store.Grows.refl (s : Store) : s.Grows s :=
  ⟨fun _ _ h => h, fun _ _ h => h, rfl⟩

theorem Store.Grows.trans {s s₁ s₂ : Store} (h₁ : s.Grows s₁) (h₂ : s₁.Grows s₂) : s.Grows s₂ where
  constants i v h := h₂.constants i v (h₁.constants i v h)
  globals i v h := h₂.globals i v (h₁.globals i v h)
  maxCallDepth := h₂.maxCallDepth.trans h₁.maxCallDepth

theorem Store.Grows.mem_constants {s s' : Store} (h : s.Grows s') {v : Value}
    (hv : v ∈ s.constants) : v ∈ s'.constants := by
  obtain ⟨i, hi⟩ := Array.mem_iff_getElem?.mp hv
  exact Array.mem_of_getElem? (h.constants i v hi)

/-- What an array holds it still holds after a change behind it. -/
theorem getElem?_assign_of_lt {g : Array Value} {i index : Nat} {v w : Value} (hlt : i < index)
    (h : g[i]? = some v) : (Machine.assign g index w)[i]? = some v := by
  obtain ⟨hi, rfl⟩ := Array.getElem?_eq_some_iff.mp h
  unfold Machine.assign
  split
  · rw [Array.getElem?_setIfInBounds_ne (by omega), h]
  · have hi' : i < (g ++ Array.replicate (index - g.size) Value.null).size := by
      rw [Array.size_append]
      omega
    rw [Array.getElem?_push_lt hi', Array.getElem_append_left hi]

section

variable {s : Store} {routines : List Routine} {c c' : Compiler} {n : SnippetId} {p : Program}
variable {u : CompiledUnit} {commands : List Command} {place : Site}

/-- Running a unit to its end leaves alone what there was in the store. The run is set beside itself, with the
old globals kept on one side. -/
theorem Store.Linked.grows (hs : s.Linked routines)
    (hc : c.Compiled routines n p u c' commands place) (hstep : c.InStep s) {config : RunConfig}
    {value : Option Value} {s' : Store} (h : s.run u config = (.finished value, s')) :
    s.Grows s' := by
  obtain ⟨hends, -, hrun⟩ := Store.run_eq hs hc hstep config
  have hlinked := hs.load hc hstep (min s.maxCallDepth config.maxCallDepth)
  have hcovers := covers_loaded hc hstep (min s.maxCallDepth config.maxCallDepth)
  have hfits := hs.fits_padded hc hstep (min s.maxCallDepth config.maxCallDepth)
  -- The run beside itself: the globals are the same on both sides and start with those of the store.
  let w : World := s.loadedWorld place (min s.maxCallDepth config.maxCallDepth)
  let beside : Pairing :=
    { setting := w.setting
      setting' := w.setting
      same := fun f f' => f = f' ∧ w.Known f
      globals := fun g g' => g = g' ∧ w.Fits g ∧
        ∀ (i : Nat) (v : Value), s.globals[i]? = some v → g[i]? = some v }
  have hextends : beside.Extends w := by
    refine ⟨rfl, rfl, fun _ _ hv => hv, fun _ _ => Iff.rfl, ?_⟩
    rintro g _ ⟨rfl, hfits, -⟩
    exact ⟨hfits, fun _ _ hv => hv⟩
  -- Globals that there were are not assigned, as the commands only assign new ones.
  have hfresh : ∀ index, Use.setGlobal index ∈ usesOfCommands commands → s.globals.size ≤ index := by
    intro index hindex
    rw [← hstep.slots, Scope.slots_eq_globals hstep.session]
    exact hc.leads.fresh index hindex
  have hmatched : beside.Matched ⟨u.main, 0, 0⟩ ⟨u.main, 0, 0⟩ := by
    refine hextends.matched_of_leaving (P := fun u' => u' ∈ usesOfCommands commands)
      hc.splits.holds (leaving_of_program commands 0 fun _ hu => hu)
      (fun u' hu' => hc.leads.allowed _ hcovers u' hu') ?_ 0
    rintro index hindex g _ v v' ⟨rfl, hfits, hold⟩ hv
    obtain rfl := hextends.eq_of_related hv
    obtain ⟨hlt, -⟩ := hc.leads.allowed _ hcovers _ hindex
    refine ⟨rfl, hfits.assign hlt (hextends.madeOf_of_related hv), ?_⟩
    intro i old hi
    have hbound := (Array.getElem?_eq_some_iff.mp hi).1
    exact getElem?_assign_of_lt (Nat.lt_of_lt_of_le hbound (hfresh index hindex)) (hold i old hi)
  have hpaired : beside.Paired beside.Matched ⟨⟨u.main, 0, 0⟩, [], #[]⟩ ⟨⟨u.main, 0, 0⟩, [], #[]⟩ :=
    ⟨.outermost hmatched, .empty⟩
  have hstart : ∀ (i : Nat) (v : Value), s.globals[i]? = some v →
      (padded s.globals u.globals)[i]? = some v := by
    intro i v hi
    exact (Array.getElem?_append_left (Array.getElem?_eq_some_iff.mp hi).1).trans hi
  obtain ⟨-, -, -, -, -, hold⟩ := hpaired.ends (hextends.sound hlinked) Pairing.matched_closed ⟨rfl, hfits, hstart⟩
    (.inl hextends.biUnique) hends
  rw [h] at hrun
  split at hrun
  · cases hrun
    refine ⟨fun i v hi => ?_, hold, rfl⟩
    exact (Array.getElem?_append_left (Array.getElem?_eq_some_iff.mp hi).1).trans hi
  · cases hrun

/-- Calling a function of a store comes to the same once the store has grown. -/
theorem Store.Linked.call_grows (hs : s.Linked routines) {s' : Store} (hgrows : s.Grows s')
    {f : Value} {args : List Value} (hf : f.MadeOf (KnownAmong routines))
    (hargs : ∀ v ∈ args, v.MadeOf (KnownAmong routines)) : (s'.call f args).1 = (s.call f args).1 := by
  have hcall : (Machine.call ⟨s'.constants, s.maxCallDepth⟩ s'.globals f args).result =
      (Machine.call ⟨s.constants, s.maxCallDepth⟩ s.globals f args).result :=
    (World.larger_extends hgrows.constants).call_eq (hs.world s.maxCallDepth) hf hargs
      ⟨⟨rfl, hs.globals⟩, hgrows.globals⟩
  unfold Store.call
  rw [hgrows.maxCallDepth]
  split
  · exact hcall
  · rfl

end

end Notebook
