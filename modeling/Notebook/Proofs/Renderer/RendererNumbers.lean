import Mathlib.Data.List.Nodup
import Notebook.Proofs.Syntax.ProgramText
import Notebook.Renderer.Registry

/-!
The numbers of the session's functions for renderers.

A renderer gets its number when it is prepared, and the registry counts it when it is committed; any
number of other renderers may be prepared, committed and registered in between (`Registry.Course`).

* `methodName_injective`: different numbers make different names.
* `Registry.Course.nodup_iff`: the numbers in a registry are different exactly as long as no renderer
  is committed late, that is, when its number is not the next one any more; and then they are the
  first numbers in order.
-/

namespace Notebook

/-- Different numbers make different names. -/
theorem methodName_injective : Function.Injective methodName := by
  intro i j h
  have hchars := congrArg String.toList h
  simp only [methodName, String.toList_append, List.append_cancel_left_eq] at hchars
  have hrepr : i.repr.toList = j.repr.toList := by simpa using hchars
  exact eq_of_repr_eq (String.toList_inj.mp hrepr)

/-- The number of a prepared renderer, if it has one that is not the next one any more. Such a renderer was
prepared when another one had not been committed yet. -/
def PendingRenderer.late (r : Registry) (pending : PendingRenderer) : List Nat :=
  pending.registered.method.toList.filter (· ≠ r.nextMethod)

namespace Registry

variable {r : Registry} {renderer : Renderer} {pending : PendingRenderer}

def methods (r : Registry) : List Nat := r.renderers.toList.filterMap (·.method)

@[simp] theorem methods_commit :
    (r.commit pending).methods = r.methods ++ pending.registered.method.toList := by
  unfold methods commit
  cases h : pending.registered.method <;> simp [List.filterMap_append, h]

@[simp] theorem methods_registerPlain : (r.registerPlain renderer).methods = r.methods := by
  simp [methods, registerPlain, List.filterMap_append]

/-- Whoever is prepared with a number has the next one. -/
theorem method_prepare {id : Nat} (h : (r.prepare renderer).registered.method = some id) :
    id = r.nextMethod := by
  unfold prepare at h
  split at h <;> cases h
  rfl

theorem nextMethod_commit {id : Nat} (h : pending.registered.method = some id) :
    (r.commit pending).nextMethod = id + 1 := by
  simp only [commit, h]

theorem nextMethod_commit_none (h : pending.registered.method = none) :
    (r.commit pending).nextMethod = r.nextMethod := by
  simp only [commit, h]

/-- A registry that has got whatever was done with it, the renderers that are prepared and may yet be committed,
and the numbers that were committed late. Prepared renderers are committed in any order, or dropped. -/
inductive Course (maxSteps : Nat) : Registry → List PendingRenderer → List Nat → Prop where
  | new : Course maxSteps { maxSteps } [] []
  | prepare {r : Registry} {prepared : List PendingRenderer} {late : List Nat} (renderer : Renderer) :
      Course maxSteps r prepared late →
      Course maxSteps r (prepared ++ [r.prepare renderer]) late
  | commit {r : Registry} {before after : List PendingRenderer} {late : List Nat}
      {pending : PendingRenderer} :
      Course maxSteps r (before ++ pending :: after) late →
      Course maxSteps (r.commit pending) (before ++ after) (late ++ pending.late r)
  | drop {r : Registry} {before after : List PendingRenderer} {late : List Nat}
      {pending : PendingRenderer} :
      Course maxSteps r (before ++ pending :: after) late →
      Course maxSteps r (before ++ after) late
  | register {r : Registry} {prepared : List PendingRenderer} {late : List Nat}
      (renderer : Renderer) :
      Course maxSteps r prepared late → Course maxSteps (r.register renderer).2 prepared late
  | registerPlain {r : Registry} {prepared : List PendingRenderer} {late : List Nat}
      (renderer : Renderer) :
      Course maxSteps r prepared late → Course maxSteps (r.registerPlain renderer) prepared late

/-! ### Numbers in order -/

/-- Are the numbers in a registry the first ones in order? -/
def Counts (r : Registry) : Prop := r.methods = List.range r.nextMethod

/-- A renderer that is committed in time is the next one. -/
theorem Counts.commit (h : r.Counts) (hin : pending.late r = []) : (r.commit pending).Counts := by
  cases hmethod : pending.registered.method with
  | none =>
    have hsame : r.methods = List.range r.nextMethod := h
    unfold Counts
    rw [methods_commit, nextMethod_commit_none hmethod, hmethod, hsame]
    exact List.append_nil _
  | some id =>
    have hnext : id = r.nextMethod := by
      by_contra hne
      simp [PendingRenderer.late, hmethod, hne] at hin
    have hsame : r.methods = List.range r.nextMethod := h
    unfold Counts
    rw [methods_commit, nextMethod_commit hmethod, hmethod, hsame, hnext]
    exact List.range_succ.symm

theorem late_prepare : (r.prepare renderer).late r = [] := by
  unfold PendingRenderer.late
  cases hmethod : (r.prepare renderer).registered.method with
  | none => rfl
  | some id => simp [method_prepare hmethod]

/-- A renderer that is registered at once is the next one. -/
theorem Counts.register (h : r.Counts) : (r.register renderer).2.Counts :=
  h.commit late_prepare

theorem Counts.registerPlain (h : r.Counts) : (r.registerPlain renderer).Counts :=
  methods_registerPlain.trans h

theorem nextMethod_le_commit (hle : ∀ id, pending.registered.method = some id → r.nextMethod ≤ id) :
    r.nextMethod ≤ (r.commit pending).nextMethod := by
  cases hmethod : pending.registered.method with
  | none => exact Nat.le_of_eq (nextMethod_commit_none hmethod).symm
  | some id =>
    rw [nextMethod_commit hmethod]
    exact Nat.le_succ_of_le (hle id hmethod)

/-- As long as no renderer is committed late, the numbers are the first ones in order, and those of
prepared renderers go no further than the next one. A number that is committed late is there twice. -/
theorem Course.counts {maxSteps : Nat} {prepared : List PendingRenderer} {late : List Nat}
    (h : Course maxSteps r prepared late) :
    (late = [] → r.Counts ∧ ∀ p ∈ prepared, ∀ id, p.registered.method = some id → id ≤ r.nextMethod) ∧
      (late ≠ [] → ¬ r.methods.Nodup) := by
  -- Before the first late commit the registry counts, and after it there is a number twice for good.
  induction h with
  | new => exact ⟨fun _ => ⟨rfl, fun p hp => absurd hp List.not_mem_nil⟩, fun h => absurd rfl h⟩
  | prepare renderer _ ih =>
    refine ⟨fun hlate => ?_, ih.2⟩
    obtain ⟨hcounts, hprepared⟩ := ih.1 hlate
    refine ⟨hcounts, ?_⟩
    intro p hp id hid
    rcases List.mem_append.mp hp with hp | hp
    · exact hprepared p hp id hid
    · obtain rfl := List.mem_singleton.mp hp
      exact Nat.le_of_eq (method_prepare hid)
  | @commit r before after late pending _ ih =>
    constructor
    · intro hlate
      obtain ⟨hlate, hin⟩ := List.append_eq_nil_iff.mp hlate
      obtain ⟨hcounts, hprepared⟩ := ih.1 hlate
      refine ⟨hcounts.commit hin, ?_⟩
      have hgrows : r.nextMethod ≤ (r.commit pending).nextMethod := by
        refine nextMethod_le_commit fun id hid => ?_
        by_contra hlt
        have hne : id ≠ r.nextMethod := by omega
        simp [PendingRenderer.late, hid, hne] at hin
      intro p hp id hid
      have hmem : p ∈ before ++ pending :: after := by
        rcases List.mem_append.mp hp with hp | hp
        · exact List.mem_append_left _ hp
        · exact List.mem_append_right _ (List.mem_cons_of_mem _ hp)
      exact Nat.le_trans (hprepared p hmem id hid) hgrows
    · intro hlate hnodup
      rw [methods_commit] at hnodup
      have hbefore : late = [] := by
        by_contra hne
        exact ih.2 hne hnodup.of_append_left
      obtain ⟨hcounts, hprepared⟩ := ih.1 hbefore
      rw [hbefore, List.nil_append] at hlate
      -- This is the first late commit, of a number below the next one.
      obtain ⟨id, hid⟩ := List.exists_mem_of_ne_nil _ hlate
      obtain ⟨hid, hne⟩ := List.mem_filter.mp hid
      have hmethod : pending.registered.method = some id := Option.mem_toList.mp hid
      have hle := hprepared pending (List.mem_append_right _ List.mem_cons_self) id hmethod
      -- A number below the next one has been given to a renderer of the registry.
      have hmem : id ∈ r.methods := by
        have hsame : r.methods = List.range r.nextMethod := hcounts
        rw [hsame, List.mem_range]
        exact Nat.lt_of_le_of_ne hle (of_decide_eq_true hne)
      exact (List.disjoint_of_nodup_append hnodup) hmem hid
  | @drop r before after late pending _ ih =>
    refine ⟨fun hlate => ?_, ih.2⟩
    obtain ⟨hcounts, hprepared⟩ := ih.1 hlate
    refine ⟨hcounts, fun p hp => hprepared p ?_⟩
    rcases List.mem_append.mp hp with hp | hp
    · exact List.mem_append_left _ hp
    · exact List.mem_append_right _ (List.mem_cons_of_mem _ hp)
  | @register r prepared late renderer _ ih =>
    constructor
    · intro hlate
      obtain ⟨hcounts, hprepared⟩ := ih.1 hlate
      refine ⟨hcounts.register, ?_⟩
      have hgrows : r.nextMethod ≤ (r.register renderer).2.nextMethod :=
        nextMethod_le_commit fun id hid => Nat.le_of_eq (method_prepare hid).symm
      exact fun p hp id hid => Nat.le_trans (hprepared p hp id hid) hgrows
    · intro hlate hnodup
      have hmethods : (r.register renderer).2.methods = _ := methods_commit
      rw [hmethods] at hnodup
      exact ih.2 hlate hnodup.of_append_left
  | @registerPlain r prepared late renderer _ ih =>
    constructor
    · intro hlate
      obtain ⟨hcounts, hprepared⟩ := ih.1 hlate
      exact ⟨hcounts.registerPlain, hprepared⟩
    · rw [methods_registerPlain]
      exact ih.2

/-- Whatever is done with a registry, the numbers of its renderers are all different, and so are the
names made from them, exactly if no renderer was committed late. Then they are the first numbers in
order. -/
theorem Course.nodup_iff {maxSteps : Nat} {prepared : List PendingRenderer} {late : List Nat}
    (h : Course maxSteps r prepared late) :
    (r.methods.Nodup ↔ late = []) ∧ ((r.methods.map methodName).Nodup ↔ late = []) ∧
      (late = [] → r.methods = List.range r.nextMethod) := by
  obtain ⟨hin, hlate⟩ := h.counts
  have hiff : r.methods.Nodup ↔ late = [] := by
    constructor
    · intro hnodup
      by_contra hne
      exact hlate hne hnodup
    · intro hnone
      have hsame : r.methods = List.range r.nextMethod := (hin hnone).1
      rw [hsame]
      exact List.nodup_range
  exact ⟨hiff, (List.nodup_map_iff methodName_injective).trans hiff, fun hnone => (hin hnone).1⟩

end Registry

/-- A renderer is prepared and never committed, a second one is prepared and committed after a plain
one is registered, and a third one is registered. -/
theorem course_methods_nodup :
    let body : Renderer := .code (.anyOf [.int]) "$it + 1"
    let r₀ : Registry := { maxSteps := 10 }
    let r₁ := (r₀.registerPlain body).commit (r₀.prepare body)
    let r₂ := (r₁.register body).2
    Registry.Course 10 r₂ [r₀.prepare body] [] ∧ r₂.methods = [0, 1] ∧
      (r₂.methods.map methodName).Nodup := by
  intro body r₀ r₁ r₂
  have hprepared : Registry.Course 10 (r₀.registerPlain body)
      ([r₀.prepare body] ++ r₀.prepare body :: []) [] :=
    .registerPlain body (.prepare body (.prepare body .new))
  have hcourse : Registry.Course 10 r₂ [r₀.prepare body] [] := .register body (.commit hprepared)
  exact ⟨hcourse, rfl, hcourse.nodup_iff.2.1.mpr rfl⟩

/-- Two renderers that were both prepared before one of them was committed have the same number. -/
theorem course_methods_collide :
    let first : Renderer := .code (.anyOf [.int]) "$it"
    let second : Renderer := .code (.anyOf [.string]) "$it"
    let r₀ : Registry := { maxSteps := 10 }
    let r := (r₀.commit (r₀.prepare first)).commit (r₀.prepare second)
    Registry.Course 10 r [] [0] ∧ r.methods = [0, 0] ∧ ¬ (r.methods.map methodName).Nodup := by
  intro first second r₀ r
  have hprepared : Registry.Course 10 r₀ ([] ++ r₀.prepare first :: [r₀.prepare second]) [] :=
    .prepare second (.prepare first .new)
  have hcommitted : Registry.Course 10 (r₀.commit (r₀.prepare first))
      ([] ++ r₀.prepare second :: []) [] := .commit hprepared
  have hcourse : Registry.Course 10 r [] [0] := .commit hcommitted
  refine ⟨hcourse, rfl, ?_⟩
  have hmethods : r.methods.map methodName = [methodName 0, methodName 0] := rfl
  rw [hmethods]
  simp

end Notebook
