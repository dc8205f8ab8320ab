import Notebook.Proofs.Fallible
import Notebook.Proofs.Resolution.Resolver
import Notebook.Proofs.Semantics.FunctionsInValues

/-!
The bounds within which a term is evaluated: the pool, the slots that there are, and the functions
that are known. `Use.Allowed` says that one use of a term is within them.

`resolveExpr_leads` and its companions say that names resolve to what is there: whatever covers the
place after an expression (`Bounds.Covers`) covers the place before it, and allows all uses of the
resolved term. No command inside of a function assigns a global.

That bounds are those of the end is what makes the induction work. Resolving adds constants, slots and
functions as it goes, so a term is within the bounds of the place that it leads to and of all later
ones, but not of the one before. `Site.Leads` composes (`Site.Leads.trans`), and each form of
expressions is a chain of such steps.
-/

namespace Notebook

/-- What there is for a term to use. Its constants are in the pool from `offset` on. Globals may be
assigned at the top level of a snippet only. -/
structure Bounds where
  pool : Array Value
  offset : Nat
  globals : Nat
  locals : Nat
  known : FunctionCode → Prop
  top : Bool

/-- Is a use within the bounds? A constant has to be the very value that the term has, with its functions
known. -/
def Use.Allowed (w : Bounds) : Use → Prop
  | .constant index v => w.pool[w.offset + index]? = some v ∧ v.MadeOf w.known
  | .global index => index < w.globals
  | .own index => index < w.locals
  | .builtin index => ∃ b, Builtin.ofIndex? index = some b
  | .setGlobal index => index < w.globals ∧ w.top = true
  | .setOwn index => index < w.locals

/-- Is this the value of a literal within the bounds? A function belongs to the unit that it is
written in. -/
def Value.IsLiteral (w : Bounds) : Value → Prop
  | .int _ | .str _ => True
  | .function f => w.known f ∧ f.constantsOffset = w.offset
  | _ => False

theorem Value.IsLiteral.madeOf {w : Bounds} {v : Value} (h : v.IsLiteral w) : v.MadeOf w.known := by
  cases v with
  | int n => simp
  | str text => simp
  | function f => exact (Value.madeOf_function f).mpr h.1
  | _ => exact h.elim

/-- Bounds that have grown: the pool and the globals at their ends, and the functions. -/
structure Bounds.Grown (w w' : Bounds) : Prop where
  pool : ∀ (i : Nat) (v : Value), w.pool[i]? = some v → w'.pool[i]? = some v
  offset : w'.offset = w.offset
  globals : w.globals ≤ w'.globals
  locals : w.locals ≤ w'.locals
  known : ∀ f, w.known f → w'.known f
  top : w'.top = w.top

theorem Use.Allowed.grown {w w' : Bounds} {u : Use} (hw : w.Grown w') (h : u.Allowed w) :
    u.Allowed w' := by
  cases u with
  | constant index v => exact ⟨hw.offset ▸ hw.pool _ _ h.1, h.2.mono hw.known⟩
  | global index => exact Nat.lt_of_lt_of_le h hw.globals
  | own index => exact Nat.lt_of_lt_of_le h hw.locals
  | builtin index => exact h
  | setGlobal index => exact ⟨Nat.lt_of_lt_of_le h.1 hw.globals, hw.top ▸ h.2⟩
  | setOwn index => exact Nat.lt_of_lt_of_le h hw.locals

/-- The bounds inside of a function, where slots of its own are there and globals are not assigned. -/
def Bounds.inside (w : Bounds) (f : FunctionCode) : Bounds :=
  { w with locals := f.locals, top := false }

/-- Does a routine keep to the bounds of its unit, and is there room for its arguments? -/
def Routine.Keeps (w : Bounds) (r : Routine) : Prop :=
  r.code.constantsOffset = w.offset ∧ r.code.params ≤ r.code.locals ∧
    ∀ u ∈ usesOfCommands r.body, u.Allowed (w.inside r.code)

theorem Routine.Keeps.grown {w w' : Bounds} {r : Routine} (hw : w.Grown w') (h : r.Keeps w) :
    r.Keeps w' := by
  obtain ⟨hoffset, hparams, huses⟩ := h
  have hinside : (w.inside r.code).Grown (w'.inside r.code) :=
    ⟨hw.pool, hw.offset, hw.globals, Nat.le_refl _, hw.known, rfl⟩
  exact ⟨hoffset.trans hw.offset.symm, hparams, fun u hu => (huses u hu).grown hinside⟩

/-- Is this the code of one of some functions? -/
def KnownAmong (routines : List Routine) (f : FunctionCode) : Prop := ∃ r ∈ routines, r.code = f

/-! ### Scopes -/

namespace Scope

def globals : Scope → Nat
  | .session level => level.slots
  | .function _ enclosing => enclosing.globals

def locals : Scope → Nat
  | .session _ => 0
  | .function level _ => level.slots

def isSession : Scope → Bool
  | .session _ => true
  | .function _ _ => false

end Scope

/-- Names of a level stand for slots that it has handed out, or for builtins that exist. -/
def Level.Valid (l : Level) : Prop :=
  ∀ name, (∀ i, l.names.get? name = some (.slot i) → i < l.slots) ∧
    ∀ i, l.names.get? name = some (.builtin i) → ∃ b, Builtin.ofIndex? i = some b

/-- Names of a scope stand for slots that have been handed out, or for builtins that exist. -/
def Scope.Valid : Scope → Prop
  | .session level => level.Valid
  | .function level enclosing => level.Valid ∧ enclosing.Valid

theorem Level.Valid.define {l : Level} (h : l.Valid) (name : String) : (l.define name).Valid := by
  intro other
  simp only [Level.define, NameTable.get?_insert]
  by_cases heq : name = other
  · simp [heq]
  · simp only [heq, if_false]
    refine ⟨?_, (h other).2⟩
    intro i hi
    have := (h other).1 i hi
    omega

theorem Level.valid_empty : ({} : Level).Valid := by
  intro name
  constructor <;> intro i hi <;> cases hi

theorem Level.valid_params (params : List String) {l : Level} (h : l.Valid) :
    (params.foldl Level.define l).Valid ∧
      (params.foldl Level.define l).slots = l.slots + params.length := by
  induction params generalizing l with
  | nil => exact ⟨h, rfl⟩
  | cons p rest ih =>
    obtain ⟨hvalid, hslots⟩ := ih (h.define p)
    have hone : (l.define p).slots = l.slots + 1 := rfl
    refine ⟨hvalid, ?_⟩
    rw [List.foldl_cons, hslots, hone, List.length_cons]
    omega

theorem Level.Valid.defineBuiltin {l : Level} (h : l.Valid) (b : Builtin) :
    (l.defineBuiltin b.name b.index).Valid := by
  intro other
  unfold Level.defineBuiltin
  constructor
  · intro i hi
    rw [NameTable.get?_insert] at hi
    split at hi
    · cases hi
    · exact (h other).1 i hi
  · intro i hi
    rw [NameTable.get?_insert] at hi
    split at hi
    · cases hi
      exact ⟨b, Builtin.ofIndex?_index b⟩
    · exact (h other).2 i hi

theorem Scope.valid_initial : Scope.initial.Valid := by
  have hall : ∀ (bs : List Builtin) (l : Level), l.Valid →
      (bs.foldl (fun l b => l.defineBuiltin b.name b.index) l).Valid := by
    intro bs
    induction bs with
    | nil => exact fun l hl => hl
    | cons b rest ih => exact fun l hl => ih _ (hl.defineBuiltin b)
  exact hall Builtin.all {} Level.valid_empty

namespace Scope

theorem Valid.define {s : Scope} (h : s.Valid) (name : String) : (s.define name).Valid := by
  cases s with
  | session level => exact Level.Valid.define h name
  | function level enclosing => exact ⟨h.1.define name, h.2⟩

theorem Valid.enter {s : Scope} (h : s.Valid) (params : List String) : (s.enter params).Valid :=
  ⟨(Level.valid_params params Level.valid_empty).1, h⟩

/-- What names refer to: a slot that has been handed out, or a builtin that exists. So code that is made from it
never names what is not there. -/
theorem Valid.resolve {s : Scope} (h : s.Valid) (name : String) :
    match s.resolve name with
    | some (.global i) => i < s.globals
    | some (.own i) => i < s.locals
    | some (.builtin i) => ∃ b, Builtin.ofIndex? i = some b
    | _ => True := by
  -- Looking a name up goes outwards, level by level. What an outer function has is captured, of which nothing
  -- is said.
  induction s with
  | session level =>
    obtain ⟨hslot, hbuiltin⟩ := h name
    unfold Scope.resolve
    cases hget : level.names.get? name with
    | none => trivial
    | some meaning =>
      cases meaning with
      | slot i => exact hslot i hget
      | builtin i => exact hbuiltin i hget
  | function level enclosing ih =>
    obtain ⟨hslot, hbuiltin⟩ := h.1 name
    unfold Scope.resolve
    cases hget : level.names.get? name with
    | some meaning =>
      cases meaning with
      | slot i => exact hslot i hget
      | builtin i => exact hbuiltin i hget
    | none =>
      have hrest := ih h.2
      cases hres : Scope.resolve name enclosing with
      | none => trivial
      | some reference =>
        rw [hres] at hrest
        cases reference with
        | own i => trivial
        | captured i => trivial
        | global i => exact hrest
        | builtin i => exact hrest

theorem globals_define_le (s : Scope) (name : String) : s.globals ≤ (s.define name).globals := by
  cases s with
  | session level => exact Nat.le_succ _
  | function level enclosing => exact Nat.le_refl _

theorem locals_define_le (s : Scope) (name : String) : s.locals ≤ (s.define name).locals := by
  cases s with
  | session level => exact Nat.le_refl _
  | function level enclosing => exact Nat.le_succ _

@[simp] theorem isSession_define (s : Scope) (name : String) :
    (s.define name).isSession = s.isSession := by
  cases s <;> rfl

theorem slots_lt_define (s : Scope) (name : String) : s.slots < (s.define name).slots := by
  cases s with
  | session level => exact Nat.lt_succ_self _
  | function level enclosing => exact Nat.lt_succ_self _

theorem slots_eq_globals {s : Scope} (h : s.isSession = true) : s.slots = s.globals := by
  cases s with
  | session level => rfl
  | function level enclosing => cases h

theorem slots_eq_locals {s : Scope} (h : s.isSession = false) : s.slots = s.locals := by
  cases s with
  | session level => cases h
  | function level enclosing => rfl

end Scope

/-! ### Resolving -/

/-- What an array holds it still holds once it has grown. -/
theorem getElem?_push_of_eq_some {α : Type} {xs : Array α} {i : Nat} {a : α} (b : α)
    (h : xs[i]? = some a) : (xs.push b)[i]? = some a := by
  obtain ⟨hlt, rfl⟩ := Array.getElem?_eq_some_iff.mp h
  rw [Array.getElem?_push_lt hlt]

/-- Do these bounds take in everything that there is at a place? They may take in more, such as the constants of
later snippets. -/
structure Bounds.Covers (w : Bounds) (s : Site) : Prop where
  offset : w.offset = s.offset
  pool : ∀ (i : Nat) (v : Value), s.constants[i]? = some v → w.pool[w.offset + i]? = some v
  globals : s.scope.globals ≤ w.globals
  locals : s.scope.locals ≤ w.locals
  top : w.top = s.scope.isSession
  known : ∀ r ∈ s.routines, w.known r.code

/-- One place leads to a later one, with some uses in between: what covers the later place covers
the earlier one and allows the uses, new constants and routines keep to it, and every new function
is among the constants. No global is assigned that was there before. -/
structure Site.Leads (s s' : Site) (uses : List Use) : Prop where
  valid : s'.scope.Valid
  offset : s'.offset = s.offset
  session : s'.scope.isSession = s.scope.isSession
  slots : s.scope.slots ≤ s'.scope.slots
  globals : s.scope.isSession = false → s'.scope.globals = s.scope.globals
  fresh : ∀ index, Use.setGlobal index ∈ uses → s.scope.globals ≤ index
  covers : ∀ w : Bounds, w.Covers s' → w.Covers s
  allowed : ∀ w : Bounds, w.Covers s' → ∀ u ∈ uses, u.Allowed w
  constants : ∀ w : Bounds, w.Covers s' → ∀ v ∈ s'.constants, v ∈ s.constants ∨ v.IsLiteral w
  keeps : ∀ w : Bounds, w.Covers s' → ∀ r ∈ s'.routines, r ∈ s.routines ∨ r.Keeps w
  grows : ∀ v ∈ s.constants, v ∈ s'.constants
  routines : ∀ r ∈ s.routines, r ∈ s'.routines
  pooled : ∀ r ∈ s'.routines, r ∈ s.routines ∨ Value.function r.code ∈ s'.constants

namespace Site.Leads

variable {s s₁ s₂ : Site} {us vs : List Use}

theorem refl (h : s.scope.Valid) : s.Leads s [] where
  valid := h
  offset := rfl
  session := rfl
  slots := Nat.le_refl _
  globals _ := rfl
  fresh _ hu := by cases hu
  covers _ hw := hw
  allowed _ _ u hu := by cases hu
  constants _ _ _ hv := .inl hv
  keeps _ _ _ hr := .inl hr
  grows _ hv := hv
  routines _ hr := hr
  pooled _ hr := .inl hr

/-- There are no fewer globals than before. -/
theorem globals_le (h : s.Leads s₁ us) : s.scope.globals ≤ s₁.scope.globals := by
  cases hscope : s.scope.isSession with
  | false => exact Nat.le_of_eq (h.globals hscope).symm
  | true =>
    rw [← Scope.slots_eq_globals hscope, ← Scope.slots_eq_globals (h.session.trans hscope)]
    exact h.slots

theorem trans (h₁ : s.Leads s₁ us) (h₂ : s₁.Leads s₂ vs) : s.Leads s₂ (us ++ vs) where
  valid := h₂.valid
  offset := h₂.offset.trans h₁.offset
  session := h₂.session.trans h₁.session
  slots := Nat.le_trans h₁.slots h₂.slots
  globals hs := (h₂.globals (h₁.session.trans hs)).trans (h₁.globals hs)
  fresh index hu := by
    rcases List.mem_append.mp hu with hu | hu
    · exact h₁.fresh index hu
    · exact Nat.le_trans h₁.globals_le (h₂.fresh index hu)
  covers w hw := h₁.covers w (h₂.covers w hw)
  allowed w hw u hu := by
    rcases List.mem_append.mp hu with hu | hu
    · exact h₁.allowed w (h₂.covers w hw) u hu
    · exact h₂.allowed w hw u hu
  constants w hw v hv := by
    rcases h₂.constants w hw v hv with hv | hv
    · exact h₁.constants w (h₂.covers w hw) v hv
    · exact .inr hv
  keeps w hw r hr := by
    rcases h₂.keeps w hw r hr with hr | hr
    · exact h₁.keeps w (h₂.covers w hw) r hr
    · exact .inr hr
  grows v hv := h₂.grows v (h₁.grows v hv)
  routines r hr := h₂.routines r (h₁.routines r hr)
  pooled r hr := by
    rcases h₂.pooled r hr with hr | hr
    · exact (h₁.pooled r hr).imp_right (h₂.grows _)
    · exact .inr hr

theorem mono (h : s.Leads s₁ us) (hsub : ∀ u ∈ vs, u ∈ us) : s.Leads s₁ vs :=
  { h with
    fresh := fun index hu => h.fresh index (hsub _ hu)
    allowed := fun w hw u hu => h.allowed w hw u (hsub u hu) }

theorem of_use {u : Use} (h : s.scope.Valid) (hset : ∀ index, u ≠ .setGlobal index)
    (hu : ∀ w : Bounds, w.Covers s → u.Allowed w) : s.Leads s [u] where
  valid := h
  offset := rfl
  session := rfl
  slots := Nat.le_refl _
  globals _ := rfl
  fresh index hmem := absurd (List.mem_singleton.mp hmem).symm (hset index)
  covers _ hw := hw
  allowed w hw u' hu' := by
    rw [List.mem_singleton.mp hu']
    exact hu w hw
  constants _ _ _ hv := .inl hv
  keeps _ _ _ hr := .inl hr
  grows _ hv := hv
  routines _ hr := hr
  pooled _ hr := .inl hr

/-- Defining a name leaves everything else covered, and its slot is there from then on. -/
theorem define (h : s.scope.Valid) (name : String) : s.Leads (s.define name) [] where
  valid := h.define name
  offset := rfl
  session := Scope.isSession_define s.scope name
  slots := Nat.le_of_lt (Scope.slots_lt_define s.scope name)
  globals hs := by
    cases hscope : s.scope with
    | session level => simp [hscope, Scope.isSession] at hs
    | function level enclosing => simp [Site.define, hscope, Scope.define, Scope.globals]
  fresh _ hu := by cases hu
  covers w hw :=
    { offset := hw.offset
      pool := hw.pool
      globals := Nat.le_trans (Scope.globals_define_le s.scope name) hw.globals
      locals := Nat.le_trans (Scope.locals_define_le s.scope name) hw.locals
      top := hw.top.trans (Scope.isSession_define s.scope name)
      known := hw.known }
  allowed _ _ u hu := by cases hu
  constants _ _ _ hv := .inl hv
  keeps _ _ _ hr := .inl hr
  grows _ hv := hv
  routines _ hr := hr
  pooled _ hr := .inl hr

/-- A literal takes its place among the constants. -/
theorem constant {v : Value} (h : s.scope.Valid) (hv : ∀ w, v.IsLiteral w) :
    s.Leads (s.constant v).2 (s.constant v).1.uses where
  valid := h
  offset := rfl
  session := rfl
  slots := Nat.le_refl _
  globals _ := rfl
  fresh _ hu := by cases List.mem_singleton.mp hu
  covers w hw :=
    { offset := hw.offset
      pool := fun i a hi => hw.pool i a (getElem?_push_of_eq_some v hi)
      globals := hw.globals
      locals := hw.locals
      top := hw.top
      known := hw.known }
  allowed w hw u hu := by
    rw [List.mem_singleton.mp hu]
    exact ⟨hw.pool _ _ (by simp [Site.constant]), (hv w).madeOf⟩
  constants w _ a ha := by
    rcases Array.mem_push.mp ha with ha | rfl
    · exact .inl ha
    · exact .inr (hv w)
  keeps _ _ _ hr := .inl hr
  grows a ha := Array.mem_push.mpr (.inl ha)
  routines _ hr := hr
  pooled _ hr := .inl hr

/-- A function literal: the body is resolved in a scope of its own, and the function becomes a
constant of the unit. -/
theorem function {inner : Site} {params : List String} {body : List Command}
    (h : s.scope.Valid)
    (hbody : Site.Leads { s with scope := s.scope.enter params } inner (usesOfCommands body)) :
    let routine := inner.routine params body
    let after := { inner with scope := s.scope, routines := inner.routines ++ [routine] }
    s.Leads (after.constant (.function routine.code)).2
      (after.constant (.function routine.code)).1.uses := by
  intro routine after
  -- What covers the place after the literal covers the end of the body, seen from inside.
  have hin : ∀ w : Bounds, w.Covers (after.constant (.function routine.code)).2 →
      (w.inside routine.code).Covers inner := by
    intro w hw
    have hslots := Scope.slots_eq_locals hbody.session
    exact
      { offset := hw.offset
        pool := fun i v hi => hw.pool i v (getElem?_push_of_eq_some _ hi)
        globals := by rw [hbody.globals rfl]; exact hw.globals
        locals := Nat.le_of_eq hslots.symm
        top := hbody.session.symm
        known := fun r hr => hw.known r (List.mem_append_left _ hr) }
  have hknown : ∀ w : Bounds, w.Covers (after.constant (.function routine.code)).2 →
      w.known routine.code := fun w hw => hw.known routine (List.mem_append_right _ (by simp))
  refine
    { valid := h
      offset := hbody.offset
      session := rfl
      slots := Nat.le_refl _
      globals := fun _ => rfl
      fresh := fun _ hu => by cases List.mem_singleton.mp hu
      covers := fun w hw => ?_
      allowed := fun w hw u hu => ?_
      constants := fun w hw v hv => ?_
      keeps := fun w hw r hr => ?_
      grows := fun v hv => Array.mem_push.mpr (.inl (hbody.grows v hv))
      routines := fun r hr => List.mem_append_left _ (hbody.routines r hr)
      pooled := fun r hr => ?_ }
  · have hstart := hbody.covers _ (hin w hw)
    exact ⟨hstart.offset, hstart.pool, hw.globals, hw.locals, hw.top, hstart.known⟩
  · rw [List.mem_singleton.mp hu]
    exact ⟨hw.pool _ _ (by simp [Site.constant, after]), by simpa using hknown w hw⟩
  · rcases Array.mem_push.mp hv with hv | rfl
    · exact hbody.constants _ (hin w hw) v hv
    · exact .inr ⟨hknown w hw, hw.offset.symm⟩
  · rcases List.mem_append.mp hr with hr | hr
    · exact hbody.keeps _ (hin w hw) r hr
    · obtain rfl := List.mem_singleton.mp hr
      have hstart := hbody.covers _ (hin w hw)
      refine .inr ⟨hw.offset.symm, ?_, hbody.allowed _ (hin w hw)⟩
      have hparams := (Level.valid_params params Level.valid_empty).2
      have hle : (s.scope.enter params).locals ≤ routine.code.locals := hstart.locals
      simpa [Scope.enter, Scope.locals, hparams, routine, Site.routine] using hle
  · rcases List.mem_append.mp hr with hr | hr
    · exact (hbody.pooled r hr).imp_right fun hpool => Array.mem_push.mpr (.inl hpool)
    · obtain rfl := List.mem_singleton.mp hr
      exact .inr (Array.mem_push_self)

/-- An assignment uses the slot that was handed out for it, which is a new one. -/
theorem assignment {t : Term} {index : Nat} (h : s.Leads s₁ t.uses)
    (hnew : s.scope.slots ≤ index) (hlt : index < s₁.scope.slots) :
    s.Leads s₁ (s₁.assignment index t).uses := by
  have hsession := h.session
  refine { h with fresh := fun i hi => ?_, allowed := fun w hw u hu => ?_ }
  · unfold Site.assignment at hi
    cases hscope : s₁.scope with
    | session level =>
      rw [hscope] at hi hsession
      rcases List.mem_cons.mp hi with heq | hi
      · cases heq
        rw [← Scope.slots_eq_globals hsession.symm]
        exact hnew
      · exact h.fresh i hi
    | function level enclosing =>
      rw [hscope] at hi
      rcases List.mem_cons.mp hi with heq | hi
      · cases heq
      · exact h.fresh i hi
  · have hglobals := hw.globals
    have hlocals := hw.locals
    have htop := hw.top
    unfold Site.assignment at hu
    cases hscope : s₁.scope with
    | session level =>
      rw [hscope] at hu hlt hglobals htop
      rcases List.mem_cons.mp hu with rfl | hu
      · exact ⟨Nat.lt_of_lt_of_le hlt hglobals, htop⟩
      · exact h.allowed w hw u hu
    | function level enclosing =>
      rw [hscope] at hu hlt hlocals
      rcases List.mem_cons.mp hu with rfl | hu
      · exact Nat.lt_of_lt_of_le hlt hlocals
      · exact h.allowed w hw u hu

end Site.Leads

open Site

mutual

/-- A resolved expression keeps to what there is at its end. One case for each form of expressions; each part
leads on from where the one before it got to. -/
theorem resolveExpr_leads : ∀ (e : Expr) {s s' : Site} {t : Term}, s.scope.Valid →
    resolveExpr e s = .ok (t, s') → s.Leads s' t.uses
  | .ident name, s, s', t, hs, h => by
    have hname := hs.resolve name
    unfold resolveExpr at h
    split at h <;> cases h <;> rename_i hres <;> rw [hres] at hname
    · exact .of_use hs (by rintro _ ⟨⟩) fun w hw => Nat.lt_of_lt_of_le hname hw.globals
    · exact .of_use hs (by rintro _ ⟨⟩) fun w hw => Nat.lt_of_lt_of_le hname hw.locals
    · exact .of_use hs (by rintro _ ⟨⟩) fun w hw => hname
  | .int value, s, s', t, hs, h => by
    cases h
    exact .constant hs fun _ => trivial
  | .str text, s, s', t, hs, h => by
    cases h
    exact .constant hs fun _ => trivial
  | .bool value, s, s', t, hs, h => by
    cases h
    exact .refl hs
  | .null, s, s', t, hs, h => by
    cases h
    exact .refl hs
  | .array elements, s, s', t, hs, h => by
    obtain ⟨⟨terms, s₁⟩, hterms, h⟩ := bind_eq_ok_iff.mp h
    cases h
    have h₁ := resolveExprs_leads elements hs hterms
    exact h₁
  | .unary op operand, s, s', t, hs, h => by
    obtain ⟨⟨t₁, s₁⟩, hoperand, h⟩ := bind_eq_ok_iff.mp h
    cases h
    have h₁ := resolveExpr_leads operand hs hoperand
    exact h₁
  | .binary op left right, s, s', t, hs, h => by
    unfold resolveExpr at h
    split at h
    · obtain ⟨⟨second, s₁⟩, hsecond, h⟩ := bind_eq_ok_iff.mp h
      obtain ⟨⟨first, s₂⟩, hfirst, h⟩ := bind_eq_ok_iff.mp h
      cases h
      have h₁ := resolveExpr_leads right hs hsecond
      -- The operands of `<` are resolved in the other order than their uses are listed.
      have h₂ := h₁.trans (resolveExpr_leads left h₁.valid hfirst)
      exact h₂.mono fun u hu => List.mem_append.mpr (List.mem_append.mp hu).symm
    · obtain ⟨⟨first, s₁⟩, hfirst, h⟩ := bind_eq_ok_iff.mp h
      obtain ⟨⟨second, s₂⟩, hsecond, h⟩ := bind_eq_ok_iff.mp h
      cases h
      have h₁ := resolveExpr_leads left hs hfirst
      exact h₁.trans (resolveExpr_leads right h₁.valid hsecond)
  | .cond condition consequence alternative, s, s', t, hs, h => by
    unfold resolveExpr at h
    obtain ⟨⟨test, s₁⟩, htest, h⟩ := bind_eq_ok_iff.mp h
    obtain ⟨⟨yes, s₂⟩, hyes, h⟩ := bind_eq_ok_iff.mp h
    have h₁ := resolveExpr_leads condition hs htest
    have h₂ := h₁.trans (resolveStmts_leads consequence h₁.valid hyes)
    cases alternative with
    | none =>
      cases h
      exact h₂
    | some body =>
      obtain ⟨⟨no, s₃⟩, hno, h⟩ := bind_eq_ok_iff.mp h
      cases h
      have h₃ := h₂.trans (resolveStmts_leads body h₂.valid hno)
      simpa [Term.uses] using h₃
  | .function params body, s, s', t, hs, h => by
    obtain ⟨⟨commands, inner⟩, hbody, h⟩ := bind_eq_ok_iff.mp h
    cases h
    exact .function hs (resolveStmts_leads body (hs.enter params) hbody)
  | .call callee args, s, s', t, hs, h => by
    obtain ⟨⟨function, s₁⟩, hcallee, h⟩ := bind_eq_ok_iff.mp h
    obtain ⟨⟨terms, s₂⟩, hargs, h⟩ := bind_eq_ok_iff.mp h
    cases h
    have h₁ := resolveExpr_leads callee hs hcallee
    exact h₁.trans (resolveExprs_leads args h₁.valid hargs)
  | .index collection position, s, s', t, hs, h => by
    obtain ⟨⟨first, s₁⟩, hfirst, h⟩ := bind_eq_ok_iff.mp h
    obtain ⟨⟨second, s₂⟩, hsecond, h⟩ := bind_eq_ok_iff.mp h
    cases h
    have h₁ := resolveExpr_leads collection hs hfirst
    exact h₁.trans (resolveExpr_leads position h₁.valid hsecond)

theorem resolveExprs_leads : ∀ (es : List Expr) {s s' : Site} {ts : List Term}, s.scope.Valid →
    resolveExprs es s = .ok (ts, s') → s.Leads s' (usesOfTerms ts)
  | [], s, s', ts, hs, h => by
    cases h
    exact .refl hs
  | e :: rest, s, s', ts, hs, h => by
    obtain ⟨⟨t, s₁⟩, hfirst, h⟩ := bind_eq_ok_iff.mp h
    obtain ⟨⟨terms, s₂⟩, hrest, h⟩ := bind_eq_ok_iff.mp h
    cases h
    have h₁ := resolveExpr_leads e hs hfirst
    exact h₁.trans (resolveExprs_leads rest h₁.valid hrest)

theorem resolveStmt_leads : ∀ (statement : Stmt) {s s' : Site} {c : Command}, s.scope.Valid →
    resolveStmt statement s = .ok (c, s') → s.Leads s' c.uses
  | .letIn name value, s, s', c, hs, h => by
    unfold resolveStmt at h
    split at h
    · obtain ⟨⟨t, s₁⟩, hvalue, h⟩ := bind_eq_ok_iff.mp h
      cases h
      have h₀ := Leads.define hs name
      have h₁ := resolveExpr_leads value h₀.valid hvalue
      have hlt := Nat.lt_of_lt_of_le (Scope.slots_lt_define s.scope name) h₁.slots
      exact (h₀.trans h₁).assignment (Nat.le_refl _) hlt
    · obtain ⟨⟨t, s₁⟩, hvalue, h⟩ := bind_eq_ok_iff.mp h
      cases h
      have h₁ := resolveExpr_leads value hs hvalue
      have hlt : s₁.scope.slots < (s₁.define name).scope.slots :=
        Scope.slots_lt_define s₁.scope name
      have h₂ : s.Leads (s₁.define name) t.uses :=
        (h₁.trans (Leads.define h₁.valid name)).mono fun u hu => List.mem_append_left _ hu
      rw [← assignment_define s₁ name]
      exact h₂.assignment h₁.slots hlt
  | .ret value, s, s', c, hs, h => by
    obtain ⟨⟨t, s₁⟩, hvalue, h⟩ := bind_eq_ok_iff.mp h
    cases h
    have h₁ := resolveExpr_leads value hs hvalue
    exact h₁
  | .throw value, s, s', c, hs, h => by
    obtain ⟨⟨t, s₁⟩, hvalue, h⟩ := bind_eq_ok_iff.mp h
    cases h
    have h₁ := resolveExpr_leads value hs hvalue
    exact h₁
  | .expr value, s, s', c, hs, h => by
    obtain ⟨⟨t, s₁⟩, hvalue, h⟩ := bind_eq_ok_iff.mp h
    cases h
    have h₁ := resolveExpr_leads value hs hvalue
    exact h₁
  | .empty, s, s', c, hs, h => by
    cases h
    exact .refl hs

theorem resolveStmts_leads : ∀ (statements : List Stmt) {s s' : Site} {cs : List Command},
    s.scope.Valid → resolveStmts statements s = .ok (cs, s') → s.Leads s' (usesOfCommands cs)
  | [], s, s', cs, hs, h => by
    cases h
    exact .refl hs
  | statement :: rest, s, s', cs, hs, h => by
    obtain ⟨⟨c, s₁⟩, hfirst, h⟩ := bind_eq_ok_iff.mp h
    obtain ⟨⟨commands, s₂⟩, hrest, h⟩ := bind_eq_ok_iff.mp h
    cases h
    have h₁ := resolveStmt_leads statement hs hfirst
    exact h₁.trans (resolveStmts_leads rest h₁.valid hrest)

end

end Notebook
