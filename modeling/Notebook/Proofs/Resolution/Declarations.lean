import Notebook.Proofs.Compiler.Emission
import Notebook.Proofs.Resolution.UseBounds
import Notebook.Store

/-!
What a program declares, and what its names refer to afterwards.

The compiler defines a name in its scope and declares it for the store at different moments, and the
store binds what was declared once the program has run. `Compiler.Declares` says that at the end of
every statement definitions and declarations have kept pace.

* `expr_declares` and its companions: they keep pace through every program that compiles.
* `Compiler.compile_introduces`: what a unit declares are the names that were given slots.
* `Compiler.compile_declaredType`: the type that a unit declares depends on its program alone.
* `Scope.Agrees`: a scope and some bindings know the same globals by the same names.
* `Compiler.compile_agrees`: they still do once a unit's declarations are bound.
-/

namespace Notebook

/-! ### Definitions and declarations -/

/-- The declarations once a name was defined and declared. Names of functions are not declared, as they are
nothing to the store. -/
def Scope.declare (name : String) (declared : Array Declaration) : Scope → Array Declaration
  | .session level => declared.push ⟨name, level.slots⟩
  | .function _ _ => declared

/-- One scope leads to another by definitions, and so do the declarations. A slot is handed out only
if an instruction can name it. -/
inductive Scope.Declares (s : Scope) (ds : Array Declaration) : Scope → Array Declaration → Prop where
  | refl : Declares s ds s ds
  | define {s' : Scope} {ds' : Array Declaration} (name : String) :
      s'.slots < 65536 → Declares s ds s' ds' →
      Declares s ds (s'.define name) (s'.declare name ds')

theorem Scope.Declares.trans {s s₁ s₂ : Scope} {ds ds₁ ds₂ : Array Declaration}
    (h₁ : s.Declares ds s₁ ds₁) (h₂ : s₁.Declares ds₁ s₂ ds₂) : s.Declares ds s₂ ds₂ := by
  induction h₂ with
  | refl => exact h₁
  | define name hlt _ ih => exact .define name hlt ih

/-- Inside of a function nothing is declared. -/
theorem Scope.Declares.function {s s' : Scope} {ds ds' : Array Declaration}
    (h : s.Declares ds s' ds') (hs : s.isSession = false) :
    ds' = ds ∧ s'.isSession = false := by
  induction h with
  | refl => exact ⟨rfl, hs⟩
  | @define s₁ ds₁ name _ _ ih =>
    obtain ⟨rfl, hs₁⟩ := ih
    cases s₁ with
    | session level => cases hs₁
    | function level enclosing => exact ⟨rfl, rfl⟩

/-! ### What has been declared -/

/-- What a name of a session refers to once a name was defined. -/
theorem Scope.resolve_define {level : Level} (name other : String) :
    ((Scope.session level).define name).resolve other =
      if name = other then some (.global level.slots) else (Scope.session level).resolve other := by
  simp only [Scope.define, Level.define, Scope.resolve, NameTable.get?_insert]
  by_cases hname : name = other
  · simp [hname]
  · simp only [hname, if_false]

/-- From one scope of a session to another one these names have been given slots. Names from before are kept,
though perhaps with new slots, and every name with a new slot is among those declared. -/
structure Scope.Introduces (s : Scope) (ds : Array Declaration) (s' : Scope) : Prop where
  session : s'.isSession = true
  valid : s'.Valid
  slots : s'.slots = s.slots + ds.size
  bound : ∀ d ∈ ds, d.index < s'.slots
  kept : ∀ name i, s.resolve name = some (.global i) →
    ∃ i', i ≤ i' ∧ s'.resolve name = some (.global i')
  found : ∀ d ∈ ds, ∃ i, s.slots ≤ i ∧ s'.resolve d.name = some (.global i)
  named : ∀ name i, s'.resolve name = some (.global i) → s.slots ≤ i → ∃ d ∈ ds, d.name = name

namespace Scope.Introduces

variable {s s' : Scope} {ds : Array Declaration}

/-- What a name of a session refers to is a slot that was handed out. -/
theorem lt_slots (hs : s.isSession = true) (hvalid : s.Valid) {name : String} {i : Nat}
    (h : s.resolve name = some (.global i)) : i < s.slots := by
  have hbound := hvalid.resolve name
  rw [h] at hbound
  rw [Scope.slots_eq_globals hs]
  exact hbound

theorem refl (hs : s.isSession = true) (hvalid : s.Valid) : s.Introduces #[] s where
  session := hs
  valid := hvalid
  slots := rfl
  bound d hd := absurd hd (Array.not_mem_empty d)
  kept _ i h := ⟨i, Nat.le_refl i, h⟩
  found d hd := absurd hd (Array.not_mem_empty d)
  named _ i h hle := by
    have hlt := lt_slots hs hvalid h
    omega

/-- One more name is given a slot, the next one there is, and is declared with it. -/
theorem define (h : s.Introduces ds s') (name : String) :
    s.Introduces (s'.declare name ds) (s'.define name) := by
  obtain ⟨hs, hvalid, hslots, hbound, hkept, hfound, hnamed⟩ := h
  cases s' with
  | function level enclosing => cases hs
  | session level =>
    have hlevel : level.slots = s.slots + ds.size := hslots
    have hnew : ((Scope.session level).define name).slots = level.slots + 1 := rfl
    -- The name that is new takes the next slot, and hides any older one of its own.
    refine ⟨rfl, hvalid.define name, ?_, ?_, ?_, ?_, ?_⟩
    · rw [hnew, hlevel, Scope.declare, Array.size_push, Nat.add_assoc]
    · intro d hd
      rcases Array.mem_push.mp hd with hd | rfl
      · exact Nat.lt_succ_of_lt (hbound d hd)
      · exact Nat.lt_succ_self _
    · intro other i hi
      obtain ⟨i', hle, hi'⟩ := hkept other i hi
      rw [Scope.resolve_define]
      split
      · exact ⟨_, Nat.le_trans hle (Nat.le_of_lt (lt_slots rfl hvalid hi')), rfl⟩
      · exact ⟨i', hle, hi'⟩
    · intro d hd
      rw [Scope.resolve_define]
      rcases Array.mem_push.mp hd with hd | rfl
      · split
        · exact ⟨_, hlevel ▸ Nat.le_add_right _ _, rfl⟩
        · exact hfound d hd
      · rw [if_pos rfl]
        exact ⟨_, hlevel ▸ Nat.le_add_right _ _, rfl⟩
    · intro other i hi hle
      rw [Scope.resolve_define] at hi
      split at hi
      · exact ⟨⟨name, level.slots⟩, Array.mem_push_self, ‹_›⟩
      · obtain ⟨d, hd, hname⟩ := hnamed other i hi hle
        exact ⟨d, Array.mem_push.mpr (.inl hd), hname⟩

/-- A name that was given a slot on the way is among those that were given one on the whole way. -/
theorem name_mem {s₁ : Scope} {ds₁ ds₂ ds' : Array Declaration} (h₁ : s.Introduces ds₁ s₁)
    (h₂ : s₁.Introduces ds₂ s') (h : s.Introduces ds' s') {d : Declaration}
    (hd : d ∈ ds₁ ∨ d ∈ ds₂) : ∃ d' ∈ ds', d'.name = d.name := by
  rcases hd with hd | hd
  · obtain ⟨i, hle, hi⟩ := h₁.found d hd
    obtain ⟨i', hle', hi'⟩ := h₂.kept d.name i hi
    exact h.named d.name i' hi' (Nat.le_trans hle hle')
  · obtain ⟨i, hle, hi⟩ := h₂.found d hd
    have hslots := h₁.slots
    exact h.named d.name i hi (by omega)

end Scope.Introduces

theorem Scope.Declares.introduces {s s' : Scope} {ds : Array Declaration} (h : s.Declares #[] s' ds)
    (hs : s.isSession = true) (hvalid : s.Valid) : s.Introduces ds s' := by
  induction h with
  | refl => exact .refl hs hvalid
  | define name _ _ ih => exact ih.define name

/-- There are no more slots than instructions can name. -/
theorem Scope.Declares.slots_le {s s' : Scope} {ds ds' : Array Declaration}
    (h : s.Declares ds s' ds') (hs : s.slots ≤ 65536) : s'.slots ≤ 65536 := by
  induction h with
  | refl => exact hs
  | @define s₁ ds₁ name hlt _ ih =>
    cases s₁ with
    | session level => exact hlt
    | function level enclosing => exact hlt

namespace Compiler

/-- Have definitions and declarations kept pace from one state of the compiler to another one? -/
def Declares (c c' : Compiler) : Prop :=
  c.scope.Declares c.declarations c'.scope c'.declarations

/-- Do two states of the compiler know and declare the same names? -/
def SameNames (c c' : Compiler) : Prop :=
  c'.scope = c.scope ∧ c'.declarations = c.declarations

variable {c c' c₁ c₂ : Compiler}

theorem SameNames.declares (h : c.SameNames c') : c.Declares c' := by
  obtain ⟨hscope, hdeclared⟩ := h
  unfold Declares
  rw [hscope, hdeclared]
  exact .refl

theorem Declares.trans (h₁ : c.Declares c₁) (h₂ : c₁.Declares c₂) : c.Declares c₂ :=
  Scope.Declares.trans h₁ h₂

/-- What only changes the code changes no names. -/
theorem sameNames_of_onBuffer {change : Buffer → Except OperandError Buffer}
    (h : c.onBuffer change = .ok c') : c.SameNames c' := by
  obtain ⟨scope, offset, buffer, constants, declarations⟩ := c
  simp only [onBuffer] at h
  split at h <;> cases h
  exact ⟨rfl, rfl⟩

theorem sameNames_of_emit {op : Opcode} {operands : List Nat} (h : c.emit op operands = .ok c') :
    c.SameNames c' :=
  sameNames_of_onBuffer h

theorem sameNames_of_step {op : Opcode} {operands : List Nat} (h : steps.emit op operands c = .ok c') :
    c.SameNames c' :=
  sameNames_of_emit h

theorem sameNames_of_closeBlock (h : c.closeBlock = .ok c') : c.SameNames c' := by
  unfold closeBlock at h
  split at h
  · cases h
    exact ⟨rfl, rfl⟩
  · exact sameNames_of_onBuffer h

theorem sameNames_of_closeBody (h : c.closeBody = .ok c') : c.SameNames c' := by
  unfold closeBody at h
  split at h
  · exact sameNames_of_onBuffer (c := { c with buffer := c.buffer.dropPop }) h
  · split at h
    · cases h
      exact ⟨rfl, rfl⟩
    · exact sameNames_of_onBuffer h

theorem sameNames_of_emitConstant {v : Value} (h : c.emitConstant v = .ok c') : c.SameNames c' :=
  sameNames_of_onBuffer (c := { c with constants := c.constants.push v }) h

theorem sameNames_of_emitReference {name : String} (h : c.emitReference name = .ok c') :
    c.SameNames c' := by
  unfold emitReference at h
  split at h
  · exact sameNames_of_onBuffer h
  · exact sameNames_of_onBuffer h
  · exact sameNames_of_onBuffer h
  · cases h
  · cases h

/-- An assignment declares the name that it is for, and an instruction can name its slot. At this moment the
name has been defined and not yet declared. -/
theorem declarations_of_emitAssignment {name : String} {s : Scope}
    (h : c.emitAssignment name s.slots = .ok c') (hscope : c.scope = s.define name) :
    c'.scope = c.scope ∧ c'.declarations = s.declare name c.declarations ∧ s.slots < 65536 := by
  unfold emitAssignment at h
  rw [hscope] at h
  cases s with
  | session level =>
    obtain ⟨c₁, hemit, h⟩ := bind_eq_ok_iff.mp h
    obtain ⟨hsame, hdeclared⟩ := sameNames_of_onBuffer hemit
    have hfits : Instr.Fits ⟨.setGlobal, level.slots⟩ :=
      ((emit_eq_ok_iff ⟨.setGlobal, level.slots⟩ (fun hw => by cases hw)).mp hemit).1
    cases h
    exact ⟨hsame, congrArg (·.push ⟨name, level.slots⟩) hdeclared, hfits⟩
  | function level enclosing =>
    obtain ⟨hsame, hdeclared⟩ := sameNames_of_onBuffer h
    have hfits : Instr.Fits ⟨.setLocal, level.slots⟩ :=
      ((emit_eq_ok_iff ⟨.setLocal, level.slots⟩ (fun hw => by cases hw)).mp h).1
    have hbyte : level.slots < 256 := hfits
    exact ⟨hsame, hdeclared, Nat.lt_trans hbyte (by decide)⟩

/-- A function literal changes no names: those that are defined in its body are its own. -/
theorem sameNames_of_function {params : List String} {v : Value}
    (hbody : Declares { c with scope := c.scope.enter params, buffer := {} } c₁)
    (hclose : c₁.closeBody = .ok c₂)
    (h : emitConstant v { c₂ with scope := c.scope, buffer := c.buffer } = .ok c') :
    c.SameNames c' := by
  obtain ⟨hdeclared, -⟩ := Scope.Declares.function hbody rfl
  have hclosed := (sameNames_of_closeBody hclose).2
  obtain ⟨hscope, hsame⟩ := sameNames_of_emitConstant h
  exact ⟨hscope, hsame.trans (hclosed.trans hdeclared)⟩

mutual

/-- Definitions and declarations keep pace through an expression. A function literal has none. -/
theorem expr_declares : ∀ (e : Expr) {c c' : Compiler}, expr e c = .ok c' →
    c.Declares c' ∧ (e.isFunction = true → c.SameNames c')
  | .ident name, c, c', h => ⟨(sameNames_of_emitReference h).declares, fun hf => nomatch hf⟩
  | .int value, c, c', h => ⟨(sameNames_of_emitConstant h).declares, fun hf => nomatch hf⟩
  | .str text, c, c', h => ⟨(sameNames_of_emitConstant h).declares, fun hf => nomatch hf⟩
  | .bool true, c, c', h => ⟨(sameNames_of_step h).declares, fun hf => nomatch hf⟩
  | .bool false, c, c', h => ⟨(sameNames_of_step h).declares, fun hf => nomatch hf⟩
  | .null, c, c', h => ⟨(sameNames_of_step h).declares, fun hf => nomatch hf⟩
  | .array elements, c, c', h => by
    refine ⟨?_, fun hf => nomatch hf⟩
    obtain ⟨c₁, helements, h⟩ := bind_eq_ok_iff.mp h
    exact (exprs_declares elements helements).trans (sameNames_of_step h).declares
  | .unary op operand, c, c', h => by
    refine ⟨?_, fun hf => nomatch hf⟩
    obtain ⟨c₁, hoperand, h⟩ := bind_eq_ok_iff.mp h
    exact (expr_declares operand hoperand).1.trans (sameNames_of_step h).declares
  | .binary op left right, c, c', h => by
    refine ⟨?_, fun hf => nomatch hf⟩
    by_cases hless : op = .less
    · subst hless
      obtain ⟨c₁, hright, h⟩ := bind_eq_ok_iff.mp h
      obtain ⟨c₂, hleft, h⟩ := bind_eq_ok_iff.mp h
      have hoperands := (expr_declares right hright).1.trans (expr_declares left hleft).1
      exact hoperands.trans (sameNames_of_step h).declares
    · rw [expr_binary hless] at h
      obtain ⟨c₁, hleft, h⟩ := bind_eq_ok_iff.mp h
      obtain ⟨c₂, hright, h⟩ := bind_eq_ok_iff.mp h
      have hoperands := (expr_declares left hleft).1.trans (expr_declares right hright).1
      exact hoperands.trans (sameNames_of_step h).declares
  | .cond condition consequence alternative, c, c', h => by
    refine ⟨?_, fun hf => nomatch hf⟩
    rw [expr_cond] at h
    obtain ⟨c₁, htest, h⟩ := bind_eq_ok_iff.mp h
    obtain ⟨c₂, hbranch, h⟩ := bind_eq_ok_iff.mp h
    obtain ⟨c₃, hyes, h⟩ := bind_eq_ok_iff.mp h
    obtain ⟨c₄, hclose, h⟩ := bind_eq_ok_iff.mp h
    obtain ⟨c₅, hskip, h⟩ := bind_eq_ok_iff.mp h
    obtain ⟨c₆, hpatch, h⟩ := bind_eq_ok_iff.mp h
    have htested := (expr_declares condition htest).1.trans (sameNames_of_onBuffer hbranch).declares
    have hfirst := htested.trans ((stmts_declares consequence hyes).trans
      (sameNames_of_closeBlock hclose).declares)
    have hjumped := hfirst.trans ((sameNames_of_onBuffer hskip).declares.trans
      (sameNames_of_onBuffer hpatch).declares)
    cases alternative with
    | none =>
      obtain ⟨c₇, hnull, h⟩ := bind_eq_ok_iff.mp h
      exact hjumped.trans ((sameNames_of_onBuffer hnull).declares.trans
        (sameNames_of_onBuffer h).declares)
    | some body =>
      obtain ⟨c₇, hbody, h⟩ := bind_eq_ok_iff.mp h
      obtain ⟨c₈, hclosed, h⟩ := bind_eq_ok_iff.mp h
      have hsecond := (stmts_declares body hbody).trans (sameNames_of_closeBlock hclosed).declares
      exact hjumped.trans (hsecond.trans (sameNames_of_onBuffer h).declares)
  | .function params body, c, c', h => by
    obtain ⟨c₁, hbody, h⟩ := bind_eq_ok_iff.mp h
    obtain ⟨c₂, hclose, h⟩ := bind_eq_ok_iff.mp h
    -- The scope of the body is dropped when it ends, and with it whatever was defined there.
    have hsame := sameNames_of_function (stmts_declares body hbody) hclose h
    exact ⟨hsame.declares, fun _ => hsame⟩
  | .call callee args, c, c', h => by
    refine ⟨?_, fun hf => nomatch hf⟩
    obtain ⟨c₁, hcallee, h⟩ := bind_eq_ok_iff.mp h
    obtain ⟨c₂, hargs, h⟩ := bind_eq_ok_iff.mp h
    have hoperands := (expr_declares callee hcallee).1.trans (exprs_declares args hargs)
    exact hoperands.trans (sameNames_of_step h).declares
  | .index collection position, c, c', h => by
    refine ⟨?_, fun hf => nomatch hf⟩
    obtain ⟨c₁, hcollection, h⟩ := bind_eq_ok_iff.mp h
    obtain ⟨c₂, hposition, h⟩ := bind_eq_ok_iff.mp h
    have hoperands := (expr_declares collection hcollection).1.trans
      (expr_declares position hposition).1
    exact hoperands.trans (sameNames_of_step h).declares

theorem exprs_declares : ∀ (es : List Expr) {c c' : Compiler}, exprs es c = .ok c' → c.Declares c'
  | [], c, c', h => by
    cases h
    exact .refl
  | e :: rest, c, c', h => by
    obtain ⟨c₁, hfirst, h⟩ := bind_eq_ok_iff.mp h
    exact (expr_declares e hfirst).1.trans (exprs_declares rest h)

theorem stmt_declares : ∀ (s : Stmt) {c c' : Compiler}, stmt s c = .ok c' → c.Declares c'
  | .letIn name value, c, c', h => by
    rw [stmt_letIn] at h
    unfold Declares
    split at h
    · rename_i hfunction
      obtain ⟨c₁, hvalue, h⟩ := bind_eq_ok_iff.mp h
      obtain ⟨hscope, hdeclared⟩ := (expr_declares value hvalue).2 hfunction
      obtain ⟨hscope', hdeclared', hlt⟩ := declarations_of_emitAssignment h hscope
      rw [hscope', hscope, hdeclared', hdeclared]
      exact .define name hlt .refl
    · obtain ⟨c₁, hvalue, h⟩ := bind_eq_ok_iff.mp h
      obtain ⟨hscope, hdeclared, hlt⟩ := declarations_of_emitAssignment h rfl
      rw [hscope, hdeclared]
      exact .define name hlt (expr_declares value hvalue).1
  | .ret value, c, c', h => by
    obtain ⟨c₁, hvalue, h⟩ := bind_eq_ok_iff.mp h
    exact (expr_declares value hvalue).1.trans (sameNames_of_step h).declares
  | .throw value, c, c', h => by
    obtain ⟨c₁, hvalue, h⟩ := bind_eq_ok_iff.mp h
    exact (expr_declares value hvalue).1.trans (sameNames_of_step h).declares
  | .expr value, c, c', h => by
    obtain ⟨c₁, hvalue, h⟩ := bind_eq_ok_iff.mp h
    exact (expr_declares value hvalue).1.trans (sameNames_of_step h).declares
  | .empty, c, c', h => by
    cases h
    exact .refl

theorem stmts_declares : ∀ (ss : List Stmt) {c c' : Compiler}, stmts ss c = .ok c' → c.Declares c'
  | [], c, c', h => by
    cases h
    exact .refl
  | s :: rest, c, c', h => by
    obtain ⟨c₁, hfirst, h⟩ := bind_eq_ok_iff.mp h
    exact (stmt_declares s hfirst).trans (stmts_declares rest h)

end

/-- Definitions and declarations keep pace through a snippet. -/
theorem topLevel_declares : ∀ (p : Program) {c c' : Compiler}, topLevel p c = .ok c' → c.Declares c'
  | [], c, c', h => (sameNames_of_step h).declares
  | s :: rest, c, c', h => by
    by_cases hvalue : ∃ value, s = .expr value ∧ rest = []
    · obtain ⟨value, rfl, rfl⟩ := hvalue
      obtain ⟨c₁, hexpr, h⟩ := bind_eq_ok_iff.mp h
      exact (expr_declares value hexpr).1.trans (sameNames_of_step h).declares
    · rw [topLevel_cons hvalue] at h
      obtain ⟨c₁, hfirst, h⟩ := bind_eq_ok_iff.mp h
      exact (stmt_declares s hfirst).trans (topLevel_declares rest h)

end Compiler

/-- What a unit declares has been given slots since the snippet before it. -/
theorem Compiler.compile_introduces {c c' : Compiler} {n : SnippetId} {p : Program} {u : CompiledUnit}
    (hidle : c.declarations = #[]) (hsession : c.scope.isSession = true) (hvalid : c.scope.Valid)
    (h : c.compile n p = (.ok u, c')) : c.scope.Introduces u.declarations.toArray c'.scope := by
  unfold compile at h
  split at h
  · rename_i done htop
    cases h
    have hdeclares : c.scope.Declares c.declarations done.scope done.declarations :=
      topLevel_declares p htop
    rw [hidle] at hdeclares
    simpa [finished, Compiler.idle] using hdeclares.introduces hsession hvalid
  · cases h

/-- A program that compiles leaves no more slots than instructions can name. -/
theorem Compiler.compile_slots_le {c c' : Compiler} {n : SnippetId} {p : Program} {u : CompiledUnit}
    (h : c.compile n p = (.ok u, c')) (hslots : c.scope.slots ≤ 65536) : c'.scope.slots ≤ 65536 := by
  unfold compile at h
  split at h
  · rename_i done htop
    cases h
    exact (topLevel_declares p htop).slots_le hslots
  · cases h

/-! ### Types -/

/-- The type that is declared depends on the end of a program alone. -/
theorem Program.valueType_append {p₁ p₂ : List Stmt} (h : p₂ ≠ []) :
    Program.valueType (p₁ ++ p₂) = Program.valueType p₂ := by
  unfold Program.valueType
  rw [List.getLast?_append, List.getLast?_eq_some_getLast h, Option.some_or]

/-- A unit declares the type of its program's value. -/
theorem Compiler.compile_declaredType {c c' : Compiler} {n : SnippetId} {p : Program} {u : CompiledUnit}
    (h : c.compile n p = (.ok u, c')) :
    u.declaredType = (Program.valueType p).map ValueType.name := by
  unfold compile at h
  split at h
  · rename_i done htop
    cases h
    rfl
  · cases h

/-! ### Scopes and bindings -/

/-- Do a scope and some bindings know the same globals by the same names? The scope is the compiler's and the
bindings are the store's, and neither sees the other. -/
def Scope.Agrees (s : Scope) (bindings : NameTable Binding) : Prop :=
  ∀ name i, s.resolve name = some (.global i) ↔
    (bindings.get? name).map Binding.index = some i

/-- A new session knows builtins only. -/
theorem Scope.agrees_initial : Scope.initial.Agrees {} := by
  intro name i
  have hname := Scope.valid_initial.resolve name
  constructor
  · intro h
    rw [h] at hname
    exact absurd hname (Nat.not_lt_zero i)
  · intro h
    cases h

/-- A name that is defined anew and bound to its slot is known by both. -/
theorem Scope.Agrees.define {level : Level} {bindings : NameTable Binding}
    (h : (Scope.session level).Agrees bindings) (name : String) (n : SnippetId) :
    ((Scope.session level).define name).Agrees (bindings.insert name ⟨level.slots, n⟩) := by
  intro other i
  have hother := h other i
  simp only [Scope.define, Level.define, Scope.resolve, NameTable.get?_insert] at hother ⊢
  by_cases hname : name = other
  · simp [hname]
  · simpa only [hname, if_false] using hother

/-- Binding what was declared keeps a session's scope and its bindings in agreement. -/
theorem Scope.Declares.bind_agrees {s s' : Scope} {ds ds' : Array Declaration}
    {bindings : NameTable Binding} (h : s.Declares ds s' ds') (hs : s.isSession = true)
    (n : SnippetId) (hagrees : s.Agrees (Store.bind n ds.toList bindings)) :
    s'.isSession = true ∧ s'.Agrees (Store.bind n ds'.toList bindings) := by
  induction h with
  | refl => exact ⟨hs, hagrees⟩
  | @define s₁ ds₁ name _ _ ih =>
    obtain ⟨hs₁, hagrees₁⟩ := ih
    cases s₁ with
    | function level enclosing => cases hs₁
    | session level =>
      refine ⟨rfl, ?_⟩
      have hbound := hagrees₁.define name n
      simpa only [Scope.declare, Store.bind, Array.toList_push, List.foldl_append, List.foldl_cons,
        List.foldl_nil] using hbound

/-- Once a unit's declarations are bound, the compiler that compiled it still agrees. -/
theorem Compiler.compile_agrees {c c' : Compiler} {n : SnippetId} {p : Program} {u : CompiledUnit}
    {bindings : NameTable Binding} (hidle : c.declarations = #[])
    (hsession : c.scope.isSession = true) (h : c.compile n p = (.ok u, c'))
    (hagrees : c.scope.Agrees bindings) :
    c'.scope.Agrees (Store.bind u.snippet u.declarations bindings) := by
  unfold compile at h
  split at h
  · rename_i done htop
    cases h
    refine ((topLevel_declares p htop).bind_agrees hsession n ?_).2
    rw [hidle]
    exact hagrees
  · cases h

end Notebook
