import Notebook.Proofs.Bytecode.Fragments
import Notebook.Proofs.Semantics.RelatedValues

/-!
Two runs in lock-step.

A `Pairing` says what two settings have in common: which functions of the one are the same as which
of the other, and which globals. A relation between frames is `Closed` if the same instructions are
read from frames that it holds of, on and on, with operands that mean the same (`Pairing.Means`); the
places in the code may differ. Two frames are `Matched` if some closed relation holds of them. The
relation between the outermost frames of two machines may be closed only up to where the first one
stops.

* `Pairing.Paired.step`: machines whose frames and operands are related step to such machines, or end
  with related results.
* `Pairing.Paired.reaches`: so they do for any number of steps, until the first one stops.
* `Pairing.Paired.ends`: if it never stops, then the second run ends as the first one does.
-/

namespace Notebook

/-- What two runs have in common: the functions that are the same in both, and the globals. Both relations are
fixed before anything runs, and a function of the one may be the same as several of the other. -/
structure Pairing where
  setting : Setting
  setting' : Setting
  same : FunctionCode → FunctionCode → Prop
  globals : Array Value → Array Value → Prop

/-- Are the operands that come next free of functions, if the next instruction compares them? -/
def Machine.ComparesData (m : Machine) : Prop :=
  ∀ i, m.frame.function.code.fetch m.frame.ip = .ok i → i.opcode = .equal ∨ i.opcode = .notEqual →
    ∀ right below left rest, pop m.stack = .ok (right, below) → pop below = .ok (left, rest) →
      right.functions = [] ∧ left.functions = []

/-- Is a machine outside of all calls, and where it stops? -/
def Machine.Stopped (stops : Frame → Prop) (m : Machine) : Prop := m.callers = [] ∧ stops m.frame

namespace Pairing

variable (p : Pairing)

/-- Does the operand of an instruction mean the same in the code of two functions? A constant or a global has to
be there on both sides, as related values. Jumps are compared by where they lead, which is part of `Reads`; all
other operands have to be equal. -/
def Means (op : Opcode) (f f' : FunctionCode) (operand operand' : Nat) : Prop :=
  match op with
  | .constant => ∃ v v', p.setting.constants[f.constantsOffset + operand]? = some v ∧
      p.setting'.constants[f'.constantsOffset + operand']? = some v' ∧ v.Related p.same v'
  | .getGlobal => ∀ g g', p.globals g g' →
      ∃ v v', g[operand]? = some v ∧ g'[operand']? = some v' ∧ v.Related p.same v'
  | .setGlobal => ∀ g g' v v', p.globals g g' → v.Related p.same v' →
      p.globals (Machine.assign g operand v) (Machine.assign g' operand' v')
  | .jump | .jumpNotTruthy => True
  | _ => operand = operand'

/-- Is the same instruction read from two frames, and does `K` hold of the frames after it? -/
def Reads (K : Frame → Frame → Prop) (fr fr' : Frame) : Prop :=
  ∃ op operand operand' next next',
    fr.function.code.fetch fr.ip = .ok ⟨op, operand, next⟩ ∧
    fr'.function.code.fetch fr'.ip = .ok ⟨op, operand', next'⟩ ∧
    p.Means op fr.function fr'.function operand operand' ∧
    (op.goesOn = true → K { fr with ip := next } { fr' with ip := next' }) ∧
    (op.jumps = true → K { fr with ip := operand } { fr' with ip := operand' })

/-- Are the same instructions read from frames that `K` holds of, until the first one stops? Stopping lets a run
be followed up to some place in its code, where the other run may go another way. -/
structure Closed (stops : Frame → Prop) (K : Frame → Frame → Prop) : Prop where
  base : ∀ fr fr', K fr fr' → fr.base = fr'.base
  reads : ∀ fr fr', K fr fr' → ¬ stops fr → p.Reads K fr fr'

def never (_ : Frame) : Prop := False

/-- Are the same instructions read from two frames, on and on? It is the largest relation that is closed without
anything that stops, so any such relation that holds of two frames shows that they are matched. -/
def Matched (fr fr' : Frame) : Prop := ∃ K, p.Closed never K ∧ K fr fr'

/-- What two settings have in common holds throughout: functions that are the same take equally many
arguments and have equally many locals, and their code is matched from the start. -/
structure Sound : Prop where
  maxFrames : p.setting.maxFrames = p.setting'.maxFrames
  params : ∀ f f', p.same f f' → f.params = f'.params
  locals : ∀ f f', p.same f f' → f.locals = f'.locals
  starts : ∀ f f', p.same f f' → ∀ base, p.Matched ⟨f, 0, base⟩ ⟨f', 0, base⟩

variable {p} {stops : Frame → Prop} {K : Frame → Frame → Prop} {fr fr' : Frame}

theorem Reads.mono {L : Frame → Frame → Prop} (h : p.Reads K fr fr')
    (hsub : ∀ fr fr', K fr fr' → L fr fr') : p.Reads L fr fr' := by
  obtain ⟨op, operand, operand', next, next', hfetch, hfetch', hmeans, hgoes, hjumps⟩ := h
  exact ⟨op, operand, operand', next, next', hfetch, hfetch', hmeans,
    fun hgo => hsub _ _ (hgoes hgo), fun hjump => hsub _ _ (hjumps hjump)⟩

theorem matched_closed : p.Closed never p.Matched where
  base := by
    rintro fr fr' ⟨K, hclosed, hK⟩
    exact hclosed.base _ _ hK
  reads := by
    rintro fr fr' ⟨K, hclosed, hK⟩ hgoes
    exact (hclosed.reads _ _ hK hgoes).mono fun _ _ h => ⟨K, hclosed, h⟩

/-! ### Machines -/

variable (p K)

/-- Frames of which `K` holds if they are the outermost ones, and which are matched with matched
callers otherwise. -/
inductive Frames : Frame → List Frame → Frame → List Frame → Prop where
  | outermost {fr fr' : Frame} : K fr fr' → Frames fr [] fr' []
  | called {fr fr' caller caller' : Frame} {callers callers' : List Frame} :
      p.Matched fr fr' → Frames caller callers caller' callers' →
      Frames fr (caller :: callers) fr' (caller' :: callers')

/-- Two machines in the same state, but for what the pairing says and for where `K` has them. -/
structure Paired (m m' : Machine) : Prop where
  frames : p.Frames K m.frame m.callers m'.frame m'.callers
  stack : Stacked p.same m.stack m'.stack

/-- Two steps with the same effect, but for what the pairing says. -/
inductive Acts : Action → Action → Prop where
  | next {m m' : Machine} : p.Paired K m m' → Acts (.next m) (.next m')
  | assign {index index' : Nat} {v v' : Value} {m m' : Machine} :
      (∀ g g', p.globals g g' →
        p.globals (Machine.assign g index v) (Machine.assign g' index' v')) →
      p.Paired K m m' → Acts (.assign index v m) (.assign index' v' m')
  | finish {value value' : Option Value} : Option.Rel (Value.Related p.same) value value' →
      Acts (.finish value) (.finish value')

variable {p K} {g g' : Array Value} {callers callers' : List Frame}

theorem Frames.length_eq (h : p.Frames K fr callers fr' callers') :
    callers.length = callers'.length := by
  induction h with
  | outermost _ => rfl
  | called _ _ ih => exact congrArg Nat.succ ih

theorem Frames.outermost_of_callers (h : p.Frames K fr callers fr' callers')
    (hcallers : callers = []) : K fr fr' ∧ callers' = [] := by
  cases h with
  | outermost h => exact ⟨h, rfl⟩
  | called _ _ => cases hcallers

/-- The same is read from the active frames, unless the first has stopped. -/
theorem Frames.reads (h : p.Frames K fr callers fr' callers') (hK : p.Closed stops K)
    (hgoes : ¬ (callers = [] ∧ stops fr)) :
    p.Reads (fun fr fr' => p.Frames K fr callers fr' callers') fr fr' := by
  cases h with
  | outermost h =>
    refine (hK.reads _ _ h fun hstops => hgoes ⟨rfl, hstops⟩).mono ?_
    exact fun _ _ h => .outermost h
  | called h hcallers =>
    refine (matched_closed.reads _ _ h id).mono ?_
    exact fun _ _ h => .called h hcallers

theorem Frames.base (h : p.Frames K fr callers fr' callers') (hK : p.Closed stops K) :
    fr.base = fr'.base := by
  cases h with
  | outermost h => exact hK.base _ _ h
  | called h _ => exact matched_closed.base _ _ h

/-! ### Instructions -/

section

variable {stack stack' : Array Value} {op : Opcode} {operand operand' : Nat}

/-- Does a comparison come to the same in both runs? It does if functions are the same one to one, or if there
are none to compare. Otherwise two functions that are equal in one run may differ in the other. -/
def Comparable (p : Pairing) (op : Opcode) (stack' : Array Value) : Prop :=
  op = .equal ∨ op = .notEqual → Relator.BiUnique p.same ∨
    ∀ right below left rest, Machine.pop stack' = .ok (right, below) →
      Machine.pop below = .ok (left, rest) → right.functions = [] ∧ left.functions = []

/-- An operator's instruction takes related operands to related ones. -/
theorem operator_related (hstack : Stacked p.same stack stack')
    (hcompare : p.Comparable op stack') :
    Outcomes (Stacked p.same)
      (do
        let (right, stack) ← Machine.pop stack
        let (left, stack) ← Machine.pop stack
        let v ← Machine.binary op left right
        Machine.push stack v)
      (do
        let (right, stack) ← Machine.pop stack'
        let (left, stack) ← Machine.pop stack
        let v ← Machine.binary op left right
        Machine.push stack v) := by
  rcases hstack.pop.cases with ⟨⟨r, below⟩, ⟨r', below'⟩, hpop, hpop', hr, hbelow⟩ | ⟨e, hpop, hpop'⟩
  · rcases hbelow.pop.cases with ⟨⟨l, rest⟩, ⟨l', rest'⟩, hpopl, hpopl', hl, hrest⟩ | ⟨e, hpopl, hpopl'⟩
    · -- Only `==` and `!=` look at functions; the other operators take data, which is related only to itself.
      have hsame : Machine.binary op l r = Machine.binary op l' r' := by
        refine binary_related hl hr fun hop => ?_
        rcases hcompare hop with hunique | hdata
        · exact hl.eq_iff hunique hr
        · obtain ⟨hr', hl'⟩ := hdata _ _ _ _ hpop' hpopl'
          obtain rfl : l = l' := hl.eq_of_functions hl'
          obtain rfl : r = r' := hr.eq_of_functions hr'
          rfl
      simp only [hpop, hpop', hpopl, hpopl', hsame, bind, Except.bind]
      cases hvalue : Machine.binary op l' r' with
      | error e => exact .error e
      | ok v =>
        have hnone : v.MadeOf fun _ => False := madeOf_of_binary hvalue
        exact hrest.push (Value.related_refl fun f hf => (hnone f hf).elim)
    · simp only [hpop, hpop', hpopl, hpopl', bind, Except.bind]
      exact .error e
  · simp only [hpop, hpop', bind, Except.bind]
    exact .error e

/-- Instructions that change the operands alone take related operands to related ones, or fail for the same
reason. Comparisons need to be known to come to the same. -/
theorem compute_related
    (hmeans : p.Means op fr.function fr'.function operand operand') (hbase : fr.base = fr'.base)
    (hglobals : p.globals g g') (hstack : Stacked p.same stack stack')
    (hcompare : p.Comparable op stack') (hop : op.computes = true) :
    Outcomes (Stacked p.same) (Machine.compute p.setting g fr op operand stack)
      (Machine.compute p.setting' g' fr' op operand' stack') := by
  unfold Machine.compute
  -- What is pushed is related either by what the operand means, or because it comes from related operands.
  cases op with
  | constant =>
    obtain ⟨v, v', hv, hv', hrelated⟩ := hmeans
    simp only [hv, hv']
    exact hstack.push hrelated
  | getGlobal =>
    obtain ⟨v, v', hv, hv', hrelated⟩ := hmeans g g' hglobals
    simp only [hv, hv']
    exact hstack.push hrelated
  | add | sub | mul | div | equal | notEqual | greaterThan => exact operator_related hstack hcompare
  | pop => exact hstack.pop.bind fun _ _ h => .ok h.2
  | pushTrue => exact hstack.push (.bool true)
  | pushFalse => exact hstack.push (.bool false)
  | pushNull => exact hstack.push .null
  | minus =>
    refine hstack.pop.bind ?_
    rintro ⟨v, rest⟩ ⟨v', rest'⟩ ⟨hv, hrest⟩
    cases hv with
    | int n =>
      have hchecked : Outcomes (Value.Related p.same) (Machine.checked (-n.toInt))
          (Machine.checked (-n.toInt)) := by
        refine .refl fun w hw => ?_
        have hnone : w.MadeOf fun _ => False := madeOf_of_checked hw
        exact Value.related_refl fun f hf => (hnone f hf).elim
      exact hchecked.bind fun w w' hw => hrest.push hw
    | _ => exact .error _
  | bang =>
    refine hstack.pop.bind ?_
    rintro ⟨v, rest⟩ ⟨v', rest'⟩ ⟨hv, hrest⟩
    have htruthy : v.isTruthy = v'.isTruthy := hv.isTruthy_eq
    simp only [htruthy]
    exact hrest.push (.bool _)
  | getLocal =>
    cases hmeans
    have hslot := hstack.getElem? (fr.base + operand)
    simp only [← hbase]
    generalize stack[fr.base + operand]? = v, stack'[fr.base + operand]? = v' at hslot
    cases hslot with
    | some hv => exact hstack.push hv
    | none => exact .error _
  | setLocal =>
    cases hmeans
    refine hstack.pop.bind ?_
    rintro ⟨v, rest⟩ ⟨v', rest'⟩ ⟨hv, hrest⟩
    simp only [← hbase, hrest.size_eq]
    split
    · exact .ok (hrest.set hv _)
    · exact .error _
  | getBuiltin =>
    cases hmeans
    cases Builtin.ofIndex? operand with
    | some b => exact hstack.push (.builtin b)
    | none => exact .error _
  | array =>
    cases hmeans
    simp only [hstack.size_eq]
    split
    · exact (hstack.shrink _).push (.array (hstack.extract _ _))
    · exact .error _
  | index =>
    refine hstack.pop.bind ?_
    rintro ⟨i, rest⟩ ⟨i', rest'⟩ ⟨hi, hrest⟩
    refine hrest.pop.bind ?_
    rintro ⟨c, rest₁⟩ ⟨c', rest₁'⟩ ⟨hc, hrest₁⟩
    exact (element_related hc hi).bind fun w w' hw => hrest₁.push hw
  | _ => cases hop

/-! ### Calls -/

/-- Calling is refused for the same reason, or it leads to matched frames or related values. Functions that are
the same take equally many arguments, and need equally much room. -/
theorem enter_related (hp : p.Sound) (maxFrames depth args : Nat)
    (hstack : Stacked p.same stack stack') :
    Outcomes (fun e e' => Option.Rel p.Matched e.1 e'.1 ∧ Stacked p.same e.2 e'.2)
      (Machine.enter maxFrames depth args stack) (Machine.enter maxFrames depth args stack') := by
  unfold Machine.enter
  rw [hstack.size_eq]
  split
  · exact .error _
  · have hcallee := hstack.getElem? (stack'.size - (args + 1))
    simp only
    generalize stack[stack'.size - (args + 1)]? = callee, stack'[stack'.size - (args + 1)]? = callee'
      at hcallee
    cases hcallee with
    | none => exact .error _
    | some h =>
      cases h with
      | function hf =>
        -- Functions that are the same agree in all that calling them depends on.
        simp only [hp.params _ _ hf, hp.locals _ _ hf]
        split
        · exact .error _
        · split
          · exact .error _
          · split
            · exact .error _
            · exact .ok ⟨.some (hp.starts _ _ hf _), hstack.resize _⟩
      | builtin b =>
        have hgiven := hstack.extract (stack'.size - (args + 1) + 1) stack'.size
        have happly := apply_related b hgiven hp.params
        simp only
        rcases happly.cases with ⟨v, v', hv, hv', hrelated⟩ | ⟨e, he, he'⟩
        · simp only [hv, hv']
          exact ((hstack.shrink _).push hrelated).bind fun _ _ h => .ok ⟨.none, h⟩
        · simp only [he, he']
          exact .error _
      | _ => exact .error _

/-- Leaving the active frame leads back to matched frames, or to the end with related results. -/
theorem leave_related {v v' : Value} {result result' : Option Value} (next next' : Nat)
    (hK : p.Closed stops K) (hframes : p.Frames K fr callers fr' callers')
    (hstack : Stacked p.same stack stack') (hv : v.Related p.same v')
    (hresult : Option.Rel (Value.Related p.same) result result') :
    Outcomes (p.Acts K) (Machine.leave { fr with ip := next } callers stack v result)
      (Machine.leave { fr' with ip := next' } callers' stack' v' result') := by
  have hbase := hframes.base hK
  cases hframes with
  | outermost _ => exact .ok (.finish hresult)
  | called _ hcallers =>
    unfold Machine.leave
    rw [hbase]
    exact ((hstack.shrink _).push hv).bind fun _ _ h => .ok (.next ⟨hcallers, h⟩)

end

/-! ### Steps -/

/-- Machines in the same state take steps with the same effect, until the first one stops. This is the step of
the lock-step; `Paired.reaches` goes along with a whole run. -/
theorem Paired.step (hp : p.Sound) (hK : p.Closed stops K) {m m' : Machine} (h : p.Paired K m m')
    (hglobals : p.globals g g') (hgoes : ¬ m.Stopped stops)
    (hcompare : Relator.BiUnique p.same ∨ m'.ComparesData) :
    Outcomes (p.Acts K) (Machine.step p.setting g m) (Machine.step p.setting' g' m') := by
  obtain ⟨fr, callers, stack⟩ := m
  obtain ⟨fr', callers', stack'⟩ := m'
  obtain ⟨hframes, hstack⟩ := h
  obtain ⟨op, operand, operand', next, next', hfetch, hfetch', hmeans, hgoesOn, hjumps⟩ :=
    hframes.reads hK hgoes
  unfold Machine.step
  simp only [hfetch, hfetch']
  -- The same instruction is read. Where it leads is told by the relation between the frames, what it does to
  -- the operands by `compute_related`.
  by_cases hop : op.computes = true
  · have hcomparable : p.Comparable op stack' := by
      intro hcompares
      refine hcompare.imp_right fun hdata => ?_
      exact hdata _ hfetch' hcompares
    have hnext := hgoesOn (by cases op <;> first | rfl | cases hop)
    rw [Machine.execute_of_computes hop, Machine.execute_of_computes hop]
    refine (compute_related hmeans (hframes.base hK) hglobals hstack hcomparable hop).map ?_
    exact fun _ _ hs => .next ⟨hnext, hs⟩
  · cases op with
    | jump => exact .ok (.next ⟨hjumps rfl, hstack⟩)
    | jumpNotTruthy =>
      refine hstack.pop.bind ?_
      rintro ⟨v, rest⟩ ⟨v', rest'⟩ ⟨hv, hrest⟩
      have htruthy : v.isTruthy = v'.isTruthy := hv.isTruthy_eq
      simp only [htruthy]
      split
      · exact .ok (.next ⟨hgoesOn rfl, hrest⟩)
      · exact .ok (.next ⟨hjumps rfl, hrest⟩)
    | setGlobal =>
      refine hstack.pop.bind ?_
      rintro ⟨v, rest⟩ ⟨v', rest'⟩ ⟨hv, hrest⟩
      exact .ok (.assign (fun g g' h => hmeans g g' v v' h hv) ⟨hgoesOn rfl, hrest⟩)
    | call =>
      cases hmeans
      have hdepth : callers.length = callers'.length := hframes.length_eq
      unfold Machine.execute
      rw [← hp.maxFrames, ← hdepth]
      refine (enter_related hp _ _ _ hstack).bind ?_
      rintro ⟨entered, rest⟩ ⟨entered', rest'⟩ ⟨hentered, hrest⟩
      cases hentered with
      | some h => exact .ok (.next ⟨.called h (hgoesOn rfl), hrest⟩)
      | none => exact .ok (.next ⟨hgoesOn rfl, hrest⟩)
    | returnValue =>
      refine hstack.pop.bind ?_
      rintro ⟨v, rest⟩ ⟨v', rest'⟩ ⟨hv, hrest⟩
      exact leave_related next next' hK hframes hrest hv (.some hv)
    | ret => exact leave_related next next' hK hframes hstack .null .none
    | throwValue =>
      refine hstack.pop.bind ?_
      rintro ⟨v, rest⟩ ⟨v', rest'⟩ ⟨hv, -⟩
      have hdisplay : v.display = v'.display := hv.display_eq hp.params
      simp only [hdisplay]
      exact .error _
    | _ => exact absurd rfl hop

/-! ### Runs -/

section

variable {m m' m₁ : Machine} {g₁ : Array Value}

/-- Does a second run only compare data, unless functions are the same one to one? -/
def ComparesFrom (p : Pairing) (g' : Array Value) (m' : Machine) : Prop :=
  Relator.BiUnique p.same ∨
    ∀ g₁' m₁', Machine.Reaches p.setting' g' m' g₁' m₁' → m₁'.ComparesData

theorem ComparesFrom.now (h : p.ComparesFrom g' m') :
    Relator.BiUnique p.same ∨ m'.ComparesData :=
  h.imp_right fun hdata => hdata _ _ .refl

theorem ComparesFrom.of_reaches {g₁' : Array Value} {m₁' : Machine} (h : p.ComparesFrom g' m')
    (hreach : Machine.Reaches p.setting' g' m' g₁' m₁') : p.ComparesFrom g₁' m₁' :=
  h.imp_right fun hdata _ _ hmore => hdata _ _ (hreach.trans hmore)

/-- The second run goes along with the first for as long as that does not stop. If it stops, then the second one
is where it would go another way, and in the same state. -/
theorem Paired.reaches (hp : p.Sound) (hK : p.Closed stops K) (h : p.Paired K m m')
    (hglobals : p.globals g g') (hcompare : p.ComparesFrom g' m') (hreach : Machine.Reaches p.setting g m g₁ m₁) :
    ∃ g₂ m₂ g₂' m₂', Machine.Reaches p.setting g₂ m₂ g₁ m₁ ∧
      Machine.Reaches p.setting' g' m' g₂' m₂' ∧ p.globals g₂ g₂' ∧ p.Paired K m₂ m₂' ∧
      (m₂.Stopped stops ∨ g₂ = g₁ ∧ m₂ = m₁) := by
  induction hreach generalizing g' m' with
  | @refl g m => exact ⟨g, m, g', m', .refl, .refl, hglobals, h, .inr ⟨rfl, rfl⟩⟩
  | @next g g₁ m m₀ m₁ hstep hrest ih =>
    -- The induction ends early if the first run stops here. Otherwise both take a step.
    by_cases hstopped : m.Stopped stops
    · exact ⟨g, m, g', m', .next hstep hrest, .refl, hglobals, h, .inl hstopped⟩
    · have hsteps := h.step hp hK hglobals hstopped hcompare.now
      rw [hstep] at hsteps
      generalize hstep' : Machine.step p.setting' g' m' = next at hsteps
      cases hsteps with
      | ok hacts =>
        cases hacts with
        | next hpaired =>
          obtain ⟨g₂, m₂, g₂', m₂', hafter, hreach', hend⟩ :=
            ih hpaired hglobals (hcompare.of_reaches (.single hstep'))
          exact ⟨g₂, m₂, g₂', m₂', hafter, .next hstep' hreach', hend⟩
  | @assign g g₁ m m₀ m₁ index v hstep hrest ih =>
    by_cases hstopped : m.Stopped stops
    · exact ⟨g, m, g', m', .assign hstep hrest, .refl, hglobals, h, .inl hstopped⟩
    · have hsteps := h.step hp hK hglobals hstopped hcompare.now
      rw [hstep] at hsteps
      generalize hstep' : Machine.step p.setting' g' m' = next at hsteps
      cases hsteps with
      | ok hacts =>
        cases hacts with
        | assign hassigned hpaired =>
          obtain ⟨g₂, m₂, g₂', m₂', hafter, hreach', hend⟩ :=
            ih hpaired (hassigned _ _ hglobals) (hcompare.of_reaches (.assign hstep' .refl))
          exact ⟨g₂, m₂, g₂', m₂', hafter, .assign hstep' hreach', hend⟩

/-- A run that never stops and ends takes the other one along to a like end. -/
theorem Paired.ends (hp : p.Sound) (hK : p.Closed never K) (h : p.Paired K m m')
    (hglobals : p.globals g g') (hcompare : p.ComparesFrom g' m') {ran : Ran (Option Value)}
    (hends : Machine.Ends p.setting g m ran) :
    ∃ ran', Machine.Ends p.setting' g' m' ran' ∧
      Outcomes (Option.Rel (Value.Related p.same)) ran.result ran'.result ∧
      p.globals ran.globals ran'.globals := by
  obtain ⟨result, g₁⟩ := ran
  obtain ⟨m₁, hreach, hadvance⟩ := hends
  obtain ⟨g₂, m₂, g₂', m₂', -, hreach', hglobals₂, hpaired, hstopped | ⟨rfl, rfl⟩⟩ :=
    h.reaches hp hK hglobals hcompare hreach
  · exact hstopped.2.elim
  · have hsteps := hpaired.step hp hK hglobals₂ (fun h => h.2.elim) (hcompare.of_reaches hreach').now
    rcases hsteps.cases with ⟨a, a', ha, ha', hacts⟩ | ⟨error, ha, ha'⟩
    · simp only [Machine.advance, ha] at hadvance
      cases hacts with
      | next _ => cases hadvance
      | assign _ _ => cases hadvance
      | finish hvalue =>
        cases hadvance
        exact ⟨_, hreach'.ends ha', .ok hvalue, hglobals₂⟩
    · simp only [Machine.advance, ha] at hadvance
      cases hadvance
      exact ⟨_, Machine.Fails.ends ⟨m₂', hreach', ha'⟩, .error error, hglobals₂⟩

end

/-! ### Code -/

variable (p)

/-- Do two instructions mean the same, in code that starts at `start` in one function and at
`start'` in the other? -/
structure Alike (f f' : FunctionCode) (start start' : Nat) (i i' : Instr) : Prop where
  opcode : i.opcode = i'.opcode
  means : p.Means i.opcode f f' i.operand i'.operand
  jumps : i.opcode.jumps = true → i.operand + start' = i'.operand + start

variable {p} {f f' : FunctionCode} {start start' : Nat} {is is' : List Instr}

theorem Alike.size_eq {i i' : Instr} (h : p.Alike f f' start start' i i') : i.size = i'.size := by
  unfold Instr.size
  rw [h.opcode]

/-- Instructions that are alike stand at places that correspond. -/
theorem exists_stands {first first' q q' : Nat} {i : Instr}
    (h : List.Forall₂ (p.Alike f f' start start') is is') (hstands : Stands first is q i)
    (hplace : q + first' = q' + first) :
    ∃ i', Stands first' is' q' i' ∧ p.Alike f f' start start' i i' := by
  induction h generalizing first first' with
  | nil => exact hstands.elim
  | @cons j j' is is' hfirst _ ih =>
    rcases hstands with ⟨rfl, rfl⟩ | hstands
    · exact ⟨j', .inl ⟨by omega, rfl⟩, hfirst⟩
    · have hsize := hfirst.size_eq
      have hplace' : q + (first' + j'.size) = q' + (first + j.size) := by omega
      obtain ⟨i', hi', halike⟩ := ih hstands hplace'
      exact ⟨i', .inr hi', halike⟩

/-- Frames of two functions at places that correspond, the first being one of `places`. -/
structure Along (f f' : FunctionCode) (start start' : Nat) (places : Nat → Prop)
    (fr fr' : Frame) : Prop where
  function : fr.function = f
  function' : fr'.function = f'
  base : fr.base = fr'.base
  place : fr.ip + start' = fr'.ip + start
  inside : places fr.ip

/-- The same is read along code that is alike, as long as control stays in it. So for two pieces of code to be
matched, only their instructions have to be compared. -/
theorem along_closed {places : Nat → Prop} (hcode : f.code.Holds start is)
    (hcode' : f'.code.Holds start' is') (halike : List.Forall₂ (p.Alike f f' start start') is is')
    (hstands : ∀ q base, places q → ¬ stops ⟨f, q, base⟩ → ∃ i, Stands start is q i)
    (hgoes : ∀ q i, Stands start is q i → i.opcode.goesOn = true → places (q + i.size))
    (hjumps : ∀ q i, Stands start is q i → i.opcode.jumps = true → places i.operand) :
    p.Closed stops (Along f f' start start' places) where
  base _ _ h := h.base
  reads := by
    rintro ⟨_, q, base⟩ ⟨_, q', base'⟩ ⟨rfl, rfl, hbase, hplace, hq⟩ hnot
    obtain ⟨i, hi⟩ := hstands q base hq hnot
    obtain ⟨i', hi', hsame⟩ := exists_stands halike hi hplace
    have hsize := hsame.size_eq
    have hfetch' := hi'.fetch hcode'
    rw [← hsame.opcode] at hfetch'
    refine ⟨i.opcode, i.operand, i'.operand, _, _, hi.fetch hcode, hfetch', hsame.means,
      fun hgo => ⟨rfl, rfl, hbase, ?_, hgoes q i hi hgo⟩,
      fun hjump => ⟨rfl, rfl, hbase, hsame.jumps hjump, hjumps q i hi hjump⟩⟩
    simp only at hplace ⊢
    omega

end Pairing

end Notebook
