import Notebook.Proofs.Store.ConstantPool

/-!
A run that fails leaves nothing behind.

Running a unit need not make a new store. The constants can be loaded into the pool that there is, and the
code can assign the globals that there are, as long as both are put back if the run fails: the globals from
a copy, and the pool by cutting it where it ended (`Store.runInPlace`). Nothing is assumed of the unit. Its
code may be no code at all, and may assign globals that do not exist until then.

* `Store.undo_during`: undoing gives the store back at every moment of a run.
* `Store.run_eq_runInPlace`: it makes no difference whether a unit is run in place.
* `Store.Extended`: what a run that finishes does to the store.
* `Store.run_atomic`: a run that fails, or does not take place, leaves the store as it was.
-/

namespace Notebook

/-- A run that ends with an error has come to a step that fails. -/
theorem Machine.Ends.fails {setting : Setting} {g g' : Array Value} {m : Machine} {error : RunError}
    (h : Ends setting g m ⟨.error error, g'⟩) : Fails setting g m error g' := by
  obtain ⟨last, hreaches, hend⟩ := h
  refine ⟨last, hreaches, ?_⟩
  unfold advance at hend
  simp only at hend
  split at hend <;> cases hend
  assumption

namespace Store

/-! ### In place -/

/-- A store at a moment of the run of a unit, when the code has made the globals what they are. Nulls fill
the pool up to where the unit's constants start. -/
def during (u : CompiledUnit) (globals : Array Value) (s : Store) : Store :=
  { s with constants := padded s.constants u.constantsOffset ++ u.constants, globals }

def undo (loaded : Nat) (snapshot : Array Value) (s : Store) : Store :=
  { s with constants := s.constants.shrink loaded, globals := snapshot }

/-- Loads a unit into the store and runs its top-level code on the globals of the store. If the code fails, what
was done is undone. This is how an implementation goes about it that cannot afford to copy its pool. -/
def runInPlace (u : CompiledUnit) (config : RunConfig) (s : Store) : RunOutcome × Store :=
  if u.constantsOffset < s.constants.size then (.skipped (mismatch u s), s)
  else
    let loaded := s.constants.size
    let snapshot := s.globals
    let s := s.during u (padded s.globals u.globals)
    let setting : Setting := ⟨s.constants, min s.maxCallDepth config.maxCallDepth⟩
    let ran := Machine.runCode setting s.globals u.main
    let s := { s with globals := ran.globals }
    match ran.result with
    | .ok value =>
      (.finished value, { s with bindings := bind u.snippet u.declarations s.bindings })
    | .error error => (.failed error, s.undo loaded snapshot)

section

variable {u : CompiledUnit} {config : RunConfig} {s s' : Store}

/-- Undoing what a run has done so far gives back the store with which it started. -/
theorem undo_during (u : CompiledUnit) (globals : Array Value) (s : Store) :
    (s.during u globals).undo s.constants.size s.globals = s := by
  have hpool : (padded s.constants u.constantsOffset ++ u.constants).shrink s.constants.size =
      s.constants := by
    apply Array.ext'
    simp [padded]
  unfold during undo
  rw [hpool]

/-- Running a unit in place comes to the same, and leaves the same store. -/
theorem run_eq_runInPlace (u : CompiledUnit) (config : RunConfig) (s : Store) :
    s.run u config = s.runInPlace u config := by
  unfold run runInPlace
  split
  · rfl
  · simp only [during, show (⟨u.code, u.constantsOffset, 0, 0⟩ : FunctionCode) = u.main from rfl]
    generalize Machine.runCode _ _ _ = ran
    rcases ran with ⟨error | value, globals⟩
    · exact congrArg (RunOutcome.failed error, ·) (undo_during u globals s).symm
    · rfl

/-! ### What a run does to the store -/

/-- What a run that finishes does to a store. The constants of the unit are at the end of the pool, where
the unit says, with nothing but nulls between them and the constants that there were. The names that the
unit declares stand for the globals that it declares, and all other names for what they did. -/
structure Extended (u : CompiledUnit) (s s' : Store) : Prop where
  accepted : s.constants.size ≤ u.constantsOffset
  constants : s'.constants = s.constants ++
    Array.replicate (u.constantsOffset - s.constants.size) Value.null ++ u.constants.toArray
  declared : ∀ before d after, u.declarations = before ++ d :: after →
    (∀ later ∈ after, later.name ≠ d.name) → s'.bindings.get? d.name = some ⟨d.index, u.snippet⟩
  others : ∀ name, (∀ d ∈ u.declarations, d.name ≠ name) →
    s'.bindings.get? name = s.bindings.get? name
  depth : s'.maxCallDepth = s.maxCallDepth

/-- What becomes of the store if a run finishes. -/
theorem extended_of_finished {value : Option Value} (h : s.run u config = (.finished value, s')) :
    s.Extended u s' := by
  unfold run at h
  split at h
  · cases h
  · rename_i haccepted
    simp only at h
    split at h
    · cases h
      refine ⟨Nat.not_lt.mp haccepted, ?_, fun before d after hds hlast => ?_, fun name hname => ?_, rfl⟩
      · exact Array.ext' (by simp [padded])
      · simp only [hds]
        exact get?_bind_of_last before hlast
      · exact get?_bind_of_notMem hname
    · cases h

/-- Running a unit, whatever its code and its numbers are, comes to the same as running it in place, on a
store that is filled up and assigned to while the code runs. If the unit is refused or its code fails, then
the store is as it was. It is wherever the code fails, whatever it has assigned until then, and if it
finishes, no more has changed than that the store is extended. -/
theorem run_atomic (u : CompiledUnit) (config : RunConfig) (s : Store) :
    s.run u config = s.runInPlace u config ∧
      (∀ report s', s.runInPlace u config = (.skipped report, s') → s' = s) ∧
      (∀ error s', s.runInPlace u config = (.failed error, s') → s' = s) ∧
      (∀ value s', s.runInPlace u config = (.finished value, s') → s.Extended u s') ∧
      ∀ g m error, s.Runs u config g m → Machine.step (s.settingOf u config) g m = .error error →
        s.run u config = (.failed error, (s.during u g).undo s.constants.size s.globals) := by
  rw [← run_eq_runInPlace]
  refine ⟨rfl, fun report s' h => ?_, fun error s' h => ?_, fun value s' h => extended_of_finished h,
    fun g m error ⟨haccepted, hreaches⟩ hstep => ?_⟩
  · unfold run at h
    split at h
    · exact (congrArg Prod.snd h).symm
    · simp only at h
      split at h <;> cases h
  · unfold run at h
    split at h
    · cases h
    · simp only at h
      split at h <;> cases h
      rfl
  · rw [undo_during]
    exact run_of_accepted haccepted (Machine.Fails.ends ⟨m, hreaches, hstep⟩)

/-- A unit made by hand, whose constant goes two places behind the end of the pool and whose code assigns
a global five places behind the last one. If a byte follows that is no instruction, all of this is undone,
and if the code returns there, all of it stays. -/
theorem run_atomic_of_malformed :
    let s : Store := ⟨#[.str "a"], #[.int 1], ⟨[("x", ⟨0, 1⟩)]⟩, 4⟩
    let u : UInt8 → CompiledUnit := fun byte =>
      ⟨2, 3, [.int 7], ⟨#[6, 17, 0, 5, byte]⟩, [⟨"x", 5⟩], 2, none⟩
    (∃ g m, s.Runs (u 255) ⟨2, 3⟩ g m ∧ g = #[.int 1, .null, .null, .null, .null, .bool true] ∧
      (s.during (u 255) g).constants = #[.str "a", .null, .null, .int 7] ∧
      s.run (u 255) ⟨2, 3⟩ = (.failed (.fetch (.unknownOpcode 255)), s)) ∧
    ∃ s', s.run (u 22) ⟨2, 3⟩ = (.finished none, s') ∧ s.Extended (u 22) s' ∧
      s'.global? "x" = some (.bool true) := by
  intro s u
  have hfailed : (Machine.runWithin (s.settingOf (u 255) ⟨2, 3⟩) 3 (padded s.globals (u 255).globals)
      ⟨⟨(u 255).main, 0, 0⟩, [], #[]⟩).map (fun ran => (ran.result, ran.globals)) =
        some (.error (.fetch (.unknownOpcode 255)),
          #[.int 1, .null, .null, .null, .null, .bool true]) := by decide +kernel
  have hfinished : (Machine.runWithin (s.settingOf (u 22) ⟨2, 3⟩) 3 (padded s.globals (u 22).globals)
      ⟨⟨(u 22).main, 0, 0⟩, [], #[]⟩).map (fun ran => (ran.result, ran.globals)) =
        some (.ok none, #[.int 1, .null, .null, .null, .null, .bool true]) := by decide +kernel
  constructor
  · obtain ⟨-, -, -, -, hfails⟩ := run_atomic (u 255) ⟨2, 3⟩ s
    obtain ⟨⟨_, g⟩, hwithin, hran⟩ := Option.map_eq_some_iff.mp hfailed
    cases hran
    obtain ⟨m, hreaches, hstep⟩ := (Machine.ends_of_runWithin hwithin).fails
    have hruns : s.Runs (u 255) ⟨2, 3⟩ _ m := ⟨by decide, hreaches⟩
    have hrun := hfails _ m _ hruns hstep
    rw [undo_during] at hrun
    exact ⟨_, m, hruns, rfl, rfl, hrun⟩
  · obtain ⟨hplace, -, -, hfinishes, -⟩ := run_atomic (u 22) ⟨2, 3⟩ s
    obtain ⟨⟨_, g⟩, hwithin, hran⟩ := Option.map_eq_some_iff.mp hfinished
    cases hran
    have hrun := run_of_accepted (by decide) (Machine.ends_of_runWithin hwithin)
    exact ⟨_, hrun, hfinishes _ _ (hplace ▸ hrun), rfl⟩

end

end Store

end Notebook
