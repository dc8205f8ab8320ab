import Notebook.Proofs.Bytecode.FunctionSameness
import Notebook.Proofs.Compiler.WellFormedCode
import Notebook.Proofs.Resolution.Comparison

/-!
Programs resolved at two places that differ in where constants go.

`Site.Mirrors d s s'` says that names refer to the same at both places, that `s'` has `d` constants
more in front, and that the constants of `s` are the same as those that `s'` has for them.

* `resolveStmts_mirrors`: what resolves at the second place resolves at the first one, to what is the same
  once it was relocated, and the places afterwards mirror each other again.
* `resolveStmts_related`: hence the constants of a snippet are the same as themselves in any pools
  that go on after them.
-/

namespace Notebook

namespace Site

/-- Does a pool hold the constants of a place? They are in it from the place's offset on. -/
def PooledIn (s : Site) (pool : Array Value) : Prop :=
  ∀ (i : Nat) (v : Value), s.constants[i]? = some v → pool[s.offset + i]? = some v

/-- Two places at which the same names mean the same, where the second has `d` constants in front of
those that the first has. The constants are the same in any pools that hold them, as long as the
code of the functions has been laid out, and then the first place's code has been, too. -/
structure Mirrors (d : Nat) (s s' : Site) : Prop where
  valid : s.scope.Valid
  scope : s'.scope = s.scope
  size : s'.constants.size = s.constants.size + d
  laid : (∀ r ∈ s'.routines, r.Laid) → ∀ r ∈ s.routines, r.Laid
  same : (∀ r ∈ s'.routines, r.Laid) → ∀ pool pool', s.PooledIn pool → s'.PooledIn pool' →
    ∀ (i : Nat) (v : Value), s.constants[i]? = some v →
      ∃ v', s'.constants[i + d]? = some v' ∧ v.Related (FunctionCode.Same pool pool') v'

theorem PooledIn.of_push {s : Site} {v : Value} {scope : Scope} {routines : List Routine}
    {pool : Array Value} (h : PooledIn ⟨scope, s.offset, s.constants.push v, routines⟩ pool) :
    s.PooledIn pool :=
  fun i w hi => h i w (getElem?_push_of_eq_some v hi)

def pool (s : Site) : Array Value := Array.replicate s.offset .null ++ s.constants

theorem getElem?_pool (s : Site) (i : Nat) : s.pool[s.offset + i]? = s.constants[i]? := by
  unfold pool
  rw [Array.getElem?_append_right (by simp)]
  simp

theorem pooledIn_pool (s : Site) : s.PooledIn s.pool :=
  fun i _ hi => (s.getElem?_pool i).trans hi

/-- The literals that are used stand among the constants. -/
theorem Leads.getElem?_of_uses {s s' : Site} {uses : List Use} (h : s.Leads s' uses) {i : Nat}
    {v : Value} (hu : .constant i v ∈ uses) : s'.constants[i]? = some v := by
  let w : Bounds :=
    { pool := s'.pool
      offset := s'.offset
      globals := s'.scope.globals
      locals := s'.scope.locals
      known := KnownAmong s'.routines
      top := s'.scope.isSession }
  have hw : w.Covers s' :=
    { offset := rfl
      pool := s'.pooledIn_pool
      globals := Nat.le_refl _
      locals := Nat.le_refl _
      top := rfl
      known := fun r hr => ⟨r, hr, rfl⟩ }
  rw [← getElem?_pool]
  exact (h.allowed w hw _ hu).1

namespace Mirrors

variable {d : Nat} {s s' : Site}

theorem withScope (h : s.Mirrors d s') {scope : Scope} (hscope : scope.Valid) :
    Mirrors d { s with scope } { s' with scope } :=
  { h with valid := hscope, scope := rfl }

theorem define (h : s.Mirrors d s') (name : String) : (s.define name).Mirrors d (s'.define name) := by
  unfold Site.define
  rw [h.scope]
  exact h.withScope (h.valid.define name)

/-- One constant more at each of the places, and maybe some functions. The new constants have to be the same,
given that the code of all functions has been laid out. -/
theorem push (h : s.Mirrors d s') {v v' : Value} {routines routines' : List Routine}
    (hmore : ∀ r ∈ s'.routines, r ∈ routines')
    (hlaid : (∀ r ∈ routines', r.Laid) → ∀ r ∈ routines, r.Laid)
    (hsame : (∀ r ∈ routines', r.Laid) → ∀ pool pool', s.PooledIn pool → s'.PooledIn pool' →
      v.Related (FunctionCode.Same pool pool') v') {scope : Scope} (hscope : scope.Valid) :
    Mirrors d ⟨scope, s.offset, s.constants.push v, routines⟩
      ⟨scope, s'.offset, s'.constants.push v', routines'⟩ where
  valid := hscope
  scope := rfl
  size := by
    simp only [Array.size_push, h.size]
    omega
  laid := hlaid
  same := by
    intro hroutines pool pool' hpool hpool' i w hi
    have hpool : s.PooledIn pool := hpool.of_push
    have hpool' : s'.PooledIn pool' := hpool'.of_push
    -- The constant is an old one, or the new one.
    rcases Nat.lt_trichotomy i s.constants.size with hlt | rfl | hlt
    · rw [Array.getElem?_push_lt hlt] at hi
      have hw : s.constants[i]? = some w := by rw [Array.getElem?_eq_getElem hlt, ← hi]
      obtain ⟨w', hw', hrelated⟩ :=
        h.same (fun r hr => hroutines r (hmore r hr)) pool pool' hpool hpool' i w hw
      exact ⟨w', getElem?_push_of_eq_some v' hw', hrelated⟩
    · rw [Array.getElem?_push_size] at hi
      cases hi
      refine ⟨v', ?_, hsame hroutines pool pool' hpool hpool'⟩
      rw [← h.size]
      exact Array.getElem?_push_size
    · have hnone : (s.constants.push v)[i]? = none :=
        Array.getElem?_eq_none (by rw [Array.size_push]; omega)
      cases hnone.symm.trans hi

/-- The same literal at both places. -/
theorem constant (h : s.Mirrors d s') {v : Value} (hv : v.functions = []) :
    (s.constant v).1.relocate d 0 = (s'.constant v).1.relocate 0 0 ∧
      (s.constant v).2.Mirrors d (s'.constant v).2 := by
  constructor
  · simp only [Site.constant, Term.relocate, h.size, Nat.add_zero]
  · have hscope : s'.scope = s.scope := h.scope
    unfold Site.constant
    rw [hscope]
    exact h.push (fun _ hr => hr) h.laid (fun _ _ _ _ _ => Value.related_of_functions hv) h.valid

/-- The same function literal at both places. Its code is that of the other place with the constants moved, and
what these are is known by then. -/
theorem function (h : s.Mirrors d s') {params : List String} {body body' : List Command}
    {inner inner' : Site} (hinner : inner.Mirrors d inner')
    (hbody : relocateCommands d 0 body = relocateCommands 0 0 body')
    (hleads : Leads { s with scope := s.scope.enter params } inner (usesOfCommands body)) :
    let routine := inner.routine params body
    let routine' := inner'.routine params body'
    let after := { inner with scope := s.scope, routines := inner.routines ++ [routine] }
    let after' := { inner' with scope := s'.scope, routines := inner'.routines ++ [routine'] }
    (after.constant (.function routine.code)).1.relocate d 0 =
        (after'.constant (.function routine'.code)).1.relocate 0 0 ∧
      (after.constant (.function routine.code)).2.Mirrors d
        (after'.constant (.function routine'.code)).2 := by
  intro routine routine' after after'
  have hlayout : layoutBody body' 0 = (layoutBody body 0).map (Instr.relocate d 0 0) :=
    layoutBody_relocated hbody 0 0
  have hlaid : routine'.Laid → routine.Laid := by
    intro hroutine
    refine Code.splits_assemble (fits_of_relocate (d := d) (g := 0) (k := 0) ?_)
    rw [← hlayout]
    exact hroutine.2
  constructor
  · simp only [Site.constant, Term.relocate, after, after', hinner.size, Nat.add_zero]
  · unfold Site.constant
    simp only [after, after', h.scope]
    refine hinner.push (fun r hr => List.mem_append_left _ hr) ?_ ?_ h.valid
    · intro hroutines r hr
      rcases List.mem_append.mp hr with hr | hr
      · exact hinner.laid (fun r hr => hroutines r (List.mem_append_left _ hr)) r hr
      · obtain rfl := List.mem_singleton.mp hr
        exact hlaid (hroutines routine' (List.mem_append_right _ (List.mem_singleton_self _)))
    · intro hroutines pool pool' hpool hpool'
      have hroutine : routine'.Laid :=
        hroutines routine' (List.mem_append_right _ (List.mem_singleton_self _))
      have hsplits' : routine'.code.code.Splits ((layoutBody body 0).map (Instr.relocate d 0 0)) := by
        rw [← hlayout]
        exact hroutine
      have hslots : routine.code.locals = routine'.code.locals := by
        show inner.scope.slots = inner'.scope.slots
        rw [hinner.scope]
      -- The code of the one is that of the other with its constants moved, so the functions are the same if the
      -- constants are.
      refine .function (.of_relocate rfl hslots (hlaid hroutine) hsplits' ?_)
      -- An operand of the body names a constant that both places have.
      intro i hi hop
      have hmeets := (leaving_of_body (P := (· ∈ usesOfCommands body)) body 0
        fun _ hu => hu).closed.2.1 i hi
      simp only [Instr.Meets, hop] at hmeets
      obtain ⟨v, hv⟩ := hmeets
      have hget := hleads.getElem?_of_uses hv
      obtain ⟨v', hget', hrelated⟩ := hinner.same
        (fun r hr => hroutines r (List.mem_append_left _ hr)) pool pool' hpool hpool' _ v hget
      exact ⟨v, v', hpool _ v hget, hpool' _ v' hget', hrelated⟩

theorem assignment (h : s.Mirrors d s') {t t' : Term} (ht : t.relocate d 0 = t'.relocate 0 0)
    (index : Nat) : (s.assignment index t).relocate d 0 = (s'.assignment index t').relocate 0 0 := by
  unfold Site.assignment
  rw [h.scope]
  cases s.scope <;> simp only [Command.relocate, ht]

end Mirrors

end Site

/-! ### Programs -/

/-- What a name stands for does not hang on where the constants go. -/
theorem resolveExpr_ident_mirrors {d : Nat} {s s' : Site} (h : s.Mirrors d s') (name : String) :
    Follows (Likeness.relocated 0 0 d 0).term (fun s' s => s.Mirrors d s') (resolveExpr (.ident name) s')
      (resolveExpr (.ident name) s) := by
  intro t after hres
  unfold resolveExpr at hres ⊢
  rw [h.scope] at hres
  split at hres <;> cases hres <;> exact ⟨_, s, rfl, rfl, h⟩

/-- Programs mean the same at two places that mirror each other. -/
theorem Site.Mirrors.comparison (d : Nat) :
    Comparison .all (.relocated 0 0 d 0) id id fun _ s' s => s.Mirrors d s' where
  ident _ h := resolveExpr_ident_mirrors h _
  literal hv h := by
    obtain ⟨hterm, hsite⟩ := h.constant hv
    exact ⟨hterm.symm, hsite⟩
  define _ h := h.define _
  assign _ h hterm := by
    rw [h.scope]
    exact (h.assignment hterm.symm _).symm
  enter _ h := by
    rw [h.scope]
    exact h.withScope (h.valid.enter _)
  function _ h _ hbody hcommands hinner := by
    have hleads := resolveStmts_leads _ (h.valid.enter _) hbody
    obtain ⟨hterm, hsite⟩ := h.function hinner hcommands.symm hleads
    exact ⟨hterm.symm, hsite⟩

/-- What resolves at one of two places that mirror each other resolves at the other one. -/
theorem resolveStmts_mirrors {d : Nat} {p : List Stmt} {s s' s₁' : Site} {cs' : List Command}
    (hm : s.Mirrors d s') (h : resolveStmts p s' = .ok (cs', s₁')) : ∃ cs s₁,
      resolveStmts p s = .ok (cs, s₁) ∧ relocateCommands d 0 cs = relocateCommands 0 0 cs' ∧
        s₁.Mirrors d s₁' := by
  have hall : ProgramKind.all.stmts [] p := trivial
  obtain ⟨cs, s₁, hres, hsame, hm⟩ := (Site.Mirrors.comparison d).program hall hm h
  exact ⟨cs, s₁, hres, hsame.symm, hm⟩

/-- The constants of a snippet are the same as themselves in any pools that hold them. -/
theorem resolveStmts_related {p : Program} {s s' : Site} {cs : List Command}
    (h : resolveStmts p s = .ok (cs, s')) (hvalid : s.scope.Valid) (hempty : s.constants = #[])
    (hlaid : ∀ r ∈ s'.routines, r.Laid) {pool pool' : Array Value} (hpool : s'.PooledIn pool)
    (hpool' : s'.PooledIn pool') {v : Value} (hv : v ∈ s'.constants) :
    v.Related (FunctionCode.Same pool pool') v := by
  have hself : s.Mirrors 0 s := by
    refine ⟨hvalid, rfl, rfl, fun h => h, fun _ _ _ _ _ i v hi => ?_⟩
    rw [hempty] at hi
    cases hi
  obtain ⟨cs₁, s₁, hres, -, hmirrors⟩ := resolveStmts_mirrors hself h
  cases h.symm.trans hres
  obtain ⟨i, hi⟩ := Array.mem_iff_getElem?.mp hv
  obtain ⟨v', hi', hrelated⟩ := hmirrors.same hlaid pool pool' hpool hpool' i v hi
  cases hi.symm.trans hi'
  exact hrelated

end Notebook
