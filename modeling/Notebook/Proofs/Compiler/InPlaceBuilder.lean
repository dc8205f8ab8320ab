import Notebook.Proofs.Compiler.StepRelation
import Notebook.Proofs.Compiler.WellFormedCode

/-!
Compiling in place.

`Compiler.compile` makes a new compiler out of an old one, and a snippet that does not compile hands back
the old one. The compiler can also be one object that is changed as the walk goes on: each function literal
pushes a buffer and puts a level around the names, and an error leaves behind what was built until then. A
`Builder` is such an object, and `Builder.compile` clears it up after each snippet.

* `Builder.walks`: building goes on as compiling does, and fails where it fails, however many functions are
  under construction around it.
* `Builder.compile_within`: a snippet that is compiled in place makes the same unit or the same error, and
  leaves the builder as the compiler is left.
* `Builder.History.keeps_nothing_hidden`: whatever was compiled and gone back to, a builder between snippets
  holds nothing but its names and its count of constants.
-/

namespace Notebook

/-! ### Changing a builder -/

/-- Why building stops: the program does not compile, or the builder lacks what the next step needs. That the
latter never happens is part of what is proved. -/
inductive BuildError where
  | program (cause : CompileError)
  | noActiveBuffer
  | noBufferToLeave
  | noEnclosingNames
  | noTopLevelBuffer
  deriving DecidableEq, Repr

/-- A compiler that is changed in place. The buffers are those of the functions under construction, the
innermost first, and of the snippet. Nothing in the type says that there is one. -/
structure Builder where
  buffers : List Buffer := [{}]
  constantsOffset : Nat := 0
  constants : Array Value := #[]
  scope : Scope := .initial
  declarations : Array Declaration := #[]
  deriving DecidableEq, Repr

/-- A step of building. One that fails leaves the builder as it was made until then, buffers and names of
unfinished functions included. -/
abbrev Build := EStateM BuildError Builder

namespace Builder

def current : Build Buffer := fun b =>
  match b.buffers with
  | [] => .error .noActiveBuffer b
  | inner :: _ => .ok inner b

def onBuffer (change : Buffer → Except OperandError Buffer) : Build Unit := fun b =>
  match b.buffers with
  | [] => .error .noActiveBuffer b
  | inner :: around =>
    match change inner with
    | .ok inner => .ok () { b with buffers := inner :: around }
    | .error cause => .error (.program (.operand cause)) b

def emit (op : Opcode) (operands : List Nat) : Build Unit := onBuffer (Buffer.emit op operands)

def patchJump (position : Nat) : Build Unit := onBuffer (Buffer.patchJump position)

def dropPop : Build Unit := onBuffer fun inner => .ok inner.dropPop

/-- Where the next instruction will start. -/
def here : Build Nat := do
  return (← current).code.size

def endsWith (op : Opcode) : Build Bool := do
  return (← current).endsWith op

/-- Adds a constant, and tells its index. -/
def addConstant (v : Value) : Build Nat := fun b =>
  .ok b.constants.size { b with constants := b.constants.push v }

def emitConstant (v : Value) : Build Unit := do
  let index ← addConstant v
  emit .constant [index]

def emitReference (name : String) : Build Unit := fun b =>
  match b.scope.resolve name with
  | some (.global index) => emit .getGlobal [index] b
  | some (.own index) => emit .getLocal [index] b
  | some (.builtin index) => emit .getBuiltin [index] b
  | some (.captured _) => .error (.program (.closure name)) b
  | none => .error (.program (.unresolved name)) b

/-- Gives a name the next slot, and tells which. -/
def define (name : String) : Build Nat := fun b =>
  .ok b.scope.slots { b with scope := b.scope.define name }

def declare (name : String) (index : Nat) : Build Unit := fun b =>
  .ok () { b with declarations := b.declarations.push ⟨name, index⟩ }

def emitAssignment (name : String) (index : Nat) : Build Unit := fun b =>
  match b.scope with
  | .session _ => (do
    emit .setGlobal [index]
    declare name index : Build Unit) b
  | .function _ _ => emit .setLocal [index] b

def closeBlock : Build Unit := do
  if ← endsWith .pop then dropPop else emit .pushNull []

def returnLast : Build Unit := do
  if ← endsWith .pop then
    dropPop
    emit .returnValue []

def closeBody : Build Unit := do
  returnLast
  unless ← endsWith .returnValue do
    emit .ret []

/-- Starts a function: a new buffer, and a level of names around which those until then are. -/
def enter : Build Unit := fun b =>
  .ok () { b with buffers := {} :: b.buffers, scope := .function {} b.scope }

def leave : Build Code := fun b =>
  match b.buffers with
  | [] => .error .noBufferToLeave b
  | inner :: around =>
    match b.scope with
    | .session _ => .error .noEnclosingNames { b with buffers := around }
    | .function _ enclosing => .ok inner.code { b with buffers := around, scope := enclosing }

def defineAll : List String → Build Unit
  | [] => pure ()
  | name :: rest => do
    let _ ← define name
    defineAll rest

/-! ### Building programs -/

/-- A function literal, the inside of which is built in a buffer and at a level of names of its own. The code
becomes one more constant. -/
def functionLiteral (params : List String) (inside : Build Unit) : Build Unit := do
  enter
  defineAll params
  inside
  closeBody
  let locals := (← get).scope.slots
  let code ← leave
  let offset := (← get).constantsOffset
  emitConstant (.function ⟨code, offset, locals, params.length⟩)

/-- The steps of a builder, each of which changes it. -/
def steps : Steps (Build Unit) where
  skip := pure ()
  andThen first second := do
    first
    second
  emit := emit
  constant := emitConstant
  reference := emitReference
  define name next := define name >>= next
  assign := emitAssignment
  here next := here >>= next
  patchJump := patchJump
  block _ inside := do
    inside
    closeBlock
  function params _ := functionLiteral params

def expr : Expr → Build Unit := steps.expr

def stmts : List Stmt → Build Unit := steps.stmts

def topLevel : Program → Build Unit := steps.topLevel

/-! ### Snippets -/

def checkpoint (b : Builder) : Checkpoint := ⟨b.scope, b.constantsOffset⟩

/-- The builder with the names and the count of constants that it had at a checkpoint. Nothing else is
touched. -/
def restore (saved : Checkpoint) (b : Builder) : Builder :=
  { b with scope := saved.scope, constantsOffset := saved.constantsOffset }

/-- The builder with one empty buffer, and nothing that belongs to a snippet. -/
def cleared (b : Builder) : Builder := { b with buffers := [{}], constants := #[], declarations := #[] }

/-- Compiles a snippet in place. The unit's code is that of the outermost buffer. Whether it compiles or not,
the builder is cleared afterwards; if not, its names and counts go back to what they were. -/
def compile (snippet : SnippetId) (p : Program) : Build CompiledUnit := fun b =>
  match topLevel p b with
  | .error cause halfway => .error cause (halfway.cleared.restore b.checkpoint)
  | .ok _ done =>
    match done.buffers.getLast? with
    | none => .error .noTopLevelBuffer done.cleared
    | some outermost =>
      .ok
        { snippet
          constantsOffset := done.constantsOffset
          constants := done.constants.toList
          code := outermost.code
          declarations := done.declarations.toList
          globals := done.scope.slots
          declaredType := (Program.valueType p).map ValueType.name }
        { done.cleared with constantsOffset := done.constantsOffset + done.constants.size }

/-- The builder that compiling a snippet leaves behind, whether it compiles or not. -/
def after (snippet : SnippetId) (p : Program) (b : Builder) : Builder :=
  match compile snippet p b with
  | .ok _ b | .error _ b => b

end Builder

/-! ### Building and compiling -/

/-- The names around the innermost level. -/
def Scope.enclosing : Scope → Option Scope
  | .session _ => none
  | .function _ enclosing => some enclosing

@[simp] theorem Scope.enclosing_define (name : String) (s : Scope) :
    (s.define name).enclosing = s.enclosing := by
  cases s <;> rfl

/-- A compiler as a builder, while code with these buffers is under construction around its own. -/
def Compiler.within (around : List Buffer) (c : Compiler) : Builder :=
  ⟨c.buffer :: around, c.constantsOffset, c.constants, c.scope, c.declarations⟩

namespace Builder

/-- Building comes to what compiling comes to: to something that is related, or to the same error. A builder
that fails may be left in any state, since clearing up is left to `compile`. -/
inductive Tracks {α β : Type} (R : β → α → Builder → Prop) :
    EStateM.Result BuildError Builder α → Except CompileError β → Prop where
  | ok {x : β} {a : α} {b : Builder} : R x a b → Tracks R (.ok a b) (.ok x)
  | error (cause : CompileError) (halfway : Builder) :
      Tracks R (.error (.program cause) halfway) (.error cause)

/-- The builder is the compiler with some buffers around its own, and these are the names around its innermost
level. A compiler keeps no buffers but its own, so the ones around are a parameter. -/
def Inside (around : List Buffer) (outer : Option Scope) (c : Compiler) (_ : Unit) (b : Builder) : Prop :=
  b = c.within around ∧ c.scope.enclosing = outer

theorem bind_of_ok {α β : Type} {m : Build α} {next : α → Build β} {b b' : Builder} {a : α}
    (h : m b = .ok a b') : (m >>= next) b = next a b' := by
  show EStateM.bind m next b = next a b'
  unfold EStateM.bind
  rw [h]

theorem Tracks.bind {α β γ δ : Type} {R : β → α → Builder → Prop} {T : δ → γ → Builder → Prop}
    {m : Build α} {next : α → Build γ} {b : Builder} {x : Except CompileError β}
    {f : β → Except CompileError δ} (h : Tracks R (m b) x)
    (hnext : ∀ y a b', R y a b' → Tracks T (next a b') (f y)) : Tracks T ((m >>= next) b) (x >>= f) := by
  show Tracks T (EStateM.bind m next b) (x >>= f)
  unfold EStateM.bind
  generalize m b = r at h ⊢
  cases h with
  | ok hR => exact hnext _ _ _ hR
  | error cause halfway => exact .error cause halfway

section

variable {around : List Buffer} {outer : Option Scope} {c : Compiler}

/-- Building in one place after the other. -/
theorem Tracks.andThen {β γ : Type} {T : β → γ → Builder → Prop} {m : Build Unit} {next : Build γ}
    {b : Builder} {x : Except CompileError Compiler} {f : Compiler → Except CompileError β}
    (h : Tracks (Inside around outer) (m b) x)
    (hnext : ∀ c, c.scope.enclosing = outer → Tracks T (next (c.within around)) (f c)) :
    Tracks T ((m >>= fun _ => next) b) (x >>= f) := by
  refine h.bind ?_
  rintro c - - ⟨rfl, hc⟩
  exact hnext c hc

/-- What is known of everything that compiling comes to is known of what building comes to. -/
theorem Tracks.and {α β : Type} {R : β → α → Builder → Prop} {S : β → Prop}
    {r : EStateM.Result BuildError Builder α} {x : Except CompileError β} (h : Tracks R r x)
    (hS : ∀ y, x = .ok y → S y) : Tracks (fun y a b => R y a b ∧ S y) r x := by
  cases h with
  | ok hR => exact .ok ⟨hR, hS _ rfl⟩
  | error cause halfway => exact .error cause halfway

/-! ### Single steps -/

theorem onBuffer_tracks (hc : c.scope.enclosing = outer) (change : Buffer → Except OperandError Buffer) :
    Tracks (Inside around outer) (onBuffer change (c.within around)) (c.onBuffer change) := by
  obtain ⟨scope, offset, buffer, constants, declarations⟩ := c
  simp only [onBuffer, Compiler.onBuffer, Compiler.within]
  cases change buffer with
  | ok b => exact .ok ⟨rfl, hc⟩
  | error cause => exact .error _ _

theorem emit_tracks (hc : c.scope.enclosing = outer) (op : Opcode) (operands : List Nat) :
    Tracks (Inside around outer) (emit op operands (c.within around)) (c.emit op operands) :=
  onBuffer_tracks hc _

theorem patchJump_tracks (hc : c.scope.enclosing = outer) (position : Nat) :
    Tracks (Inside around outer) (patchJump position (c.within around)) (c.patchJump position) :=
  onBuffer_tracks hc _

theorem emitConstant_tracks (hc : c.scope.enclosing = outer) (v : Value) :
    Tracks (Inside around outer) (emitConstant v (c.within around)) (c.emitConstant v) :=
  emit_tracks (c := { c with constants := c.constants.push v }) hc _ _

theorem emitReference_tracks (hc : c.scope.enclosing = outer) (name : String) :
    Tracks (Inside around outer) (emitReference name (c.within around)) (c.emitReference name) := by
  have hscope : (c.within around).scope = c.scope := rfl
  unfold emitReference Compiler.emitReference
  rw [hscope]
  cases Scope.resolve name c.scope with
  | none => exact .error _ _
  | some reference =>
    cases reference with
    | captured index => exact .error _ _
    | global index | own index | builtin index => exact emit_tracks hc _ _

theorem emitAssignment_tracks (hc : c.scope.enclosing = outer) (name : String) (index : Nat) :
    Tracks (Inside around outer) (emitAssignment name index (c.within around))
      (c.emitAssignment name index) := by
  obtain ⟨scope, offset, buffer, constants, declarations⟩ := c
  cases scope with
  | session level => exact (emit_tracks hc _ _).andThen fun _ hc => .ok ⟨rfl, hc⟩
  | function level enclosing => exact emit_tracks hc _ _

theorem dropPop_tracks (hc : c.scope.enclosing = outer) :
    Tracks (Inside around outer) (dropPop (c.within around)) (.ok { c with buffer := c.buffer.dropPop }) :=
  .ok ⟨rfl, hc⟩

theorem closeBlock_tracks (hc : c.scope.enclosing = outer) :
    Tracks (Inside around outer) (closeBlock (c.within around)) c.closeBlock := by
  show Tracks _ ((if c.buffer.endsWith .pop then dropPop else emit .pushNull []) (c.within around)) _
  unfold Compiler.closeBlock
  split
  · exact dropPop_tracks hc
  · exact emit_tracks hc _ _

theorem endsWith_bind {α : Type} (op : Opcode) (next : Bool → Build α) (c : Compiler)
    (around : List Buffer) :
    (endsWith op >>= next) (c.within around) = next (c.buffer.endsWith op) (c.within around) := rfl

theorem closeBody_tracks (hc : c.scope.enclosing = outer) :
    Tracks (Inside around outer) (closeBody (c.within around)) c.closeBody := by
  unfold Compiler.closeBody
  -- The builder looks at the last instruction twice, before and after it makes the body return. The compiler
  -- looks for the `Pop` first, and only if there is none for a return.
  cases hpop : c.buffer.endsWith .pop with
  | true =>
    let dropped : Compiler := { c with buffer := c.buffer.dropPop }
    have hreturn : returnLast (c.within around) = emit .returnValue [] (dropped.within around) := by
      unfold returnLast
      rw [endsWith_bind, hpop]
      rfl
    have hends : ∀ c', dropped.emit .returnValue [] = .ok c' →
        c'.buffer.endsWith .returnValue = true := by
      intro c' h
      obtain ⟨-, rfl⟩ := (Compiler.emit_eq_ok_iff ⟨.returnValue, 0⟩ fun _ => rfl).mp h
      rfl
    have hdropped : dropped.scope.enclosing = outer := hc
    have hemitted : Tracks (Inside around outer) (emit .returnValue [] (dropped.within around))
        (dropped.emit .returnValue []) := emit_tracks hdropped .returnValue []
    have hlast := hemitted.and hends
    rw [← hreturn] at hlast
    rw [if_pos rfl, ← bind_pure (Compiler.emit _ _ _)]
    refine hlast.bind ?_
    rintro c₁ - - ⟨⟨rfl, hc₁⟩, hends⟩
    rw [endsWith_bind, hends]
    exact .ok ⟨rfl, hc₁⟩
  | false =>
    have hreturn : Tracks (Inside around outer) (returnLast (c.within around)) (.ok c) := by
      unfold returnLast
      rw [endsWith_bind, hpop]
      exact .ok ⟨rfl, hc⟩
    show Tracks _ _ (Except.ok c >>= fun c =>
      if c.buffer.endsWith .returnValue then .ok c else c.emit .ret [])
    refine hreturn.andThen fun c₁ hc₁ => ?_
    rw [endsWith_bind]
    cases c₁.buffer.endsWith .returnValue with
    | true => exact .ok ⟨rfl, hc₁⟩
    | false => exact emit_tracks hc₁ _ _

end

/-! ### The walk -/

/-- The parameters of a function get the first slots of its level. -/
theorem defineAll_within (params : List String) (c : Compiler) (around : List Buffer) :
    defineAll params (c.within around) =
      .ok () (Compiler.within around
        { c with scope := params.foldl (fun s name => Scope.define name s) c.scope }) := by
  induction params generalizing c with
  | nil => rfl
  | cons name rest ih => exact ih { c with scope := c.scope.define name }

theorem foldl_define (params : List String) (level : Level) (enclosing : Scope) :
    params.foldl (fun s name => Scope.define name s) (Scope.function level enclosing) =
      Scope.function (params.foldl Level.define level) enclosing := by
  induction params generalizing level with
  | nil => rfl
  | cons name rest ih => exact ih (level.define name)

/-- Where the inside of a function is built. -/
theorem enter_bind {α : Type} (params : List String) (next : Build α) (c : Compiler)
    (around : List Buffer) :
    (do enter; defineAll params; next : Build α) (c.within around) =
      next (Compiler.within (c.buffer :: around) { c with scope := c.scope.enter params, buffer := {} }) := by
  have hparams := defineAll_within params { c with scope := .function {} c.scope, buffer := {} }
    (c.buffer :: around)
  rw [foldl_define] at hparams
  exact bind_of_ok hparams

/-- Wherever a builder is, it goes on as the compiler does. -/
def Walks (m : Build Unit) (f : Compiler → Except CompileError Compiler) : Prop :=
  ∀ ⦃around : List Buffer⦄ ⦃outer : Option Scope⦄ ⦃c : Compiler⦄, c.scope.enclosing = outer →
    Tracks (Inside around outer) (m (c.within around)) (f c)

/-- The code around a function goes on where it was, with the names that it had. -/
theorem functionLiteral_tracks (params : List String) {inside : Build Unit}
    {inside' : Compiler → Except CompileError Compiler} (hinside : Walks inside inside') :
    Walks (functionLiteral params inside) (Compiler.functionLiteral params inside') := by
  intro around outer c hc
  unfold functionLiteral
  rw [enter_bind]
  refine (hinside rfl).andThen fun _ hinside => ?_
  refine (closeBody_tracks hinside).andThen fun closed hinside => ?_
  obtain ⟨scope, offset, buffer, constants, declarations⟩ := closed
  cases scope with
  | session level => cases hinside
  | function level enclosing =>
    cases hinside
    let outside : Compiler := ⟨c.scope, offset, c.buffer, constants, declarations⟩
    exact emitConstant_tracks (c := outside) hc
      (.function ⟨buffer.code, offset, level.slots, params.length⟩)

/-- Building goes on as compiling does, whatever is built. -/
theorem walks : Steps.Related steps Compiler.steps .all Walks where
  skip _ _ _ hc := .ok ⟨rfl, hc⟩
  andThen hfirst hsecond _ _ _ hc := (hfirst hc).andThen fun _ hc => hsecond hc
  emit op operands _ _ _ hc := emit_tracks hc op operands
  constant _ _ _ _ hc := emitConstant_tracks hc _
  reference name _ _ _ hc := emitReference_tracks hc name
  here hnext _ _ _ hc := hnext _ hc
  patchJump position _ _ _ hc := patchJump_tracks hc position
  block _ hinside _ _ _ hc := (hinside hc).andThen fun _ hc => closeBlock_tracks hc
  define {_ name _ _ _} _ hnext _ _ c hc := by
    have hdefined := (Scope.enclosing_define name c.scope).trans hc
    exact hnext _ (c := { c with scope := c.scope.define name }) hdefined
  assign index _ _ _ _ hc := emitAssignment_tracks hc _ index
  function _ hinside := functionLiteral_tracks _ hinside

/-! ### Snippets in place -/

/-- What compiling a snippet comes to, as the outcome of compiling it in place. A failing compiler hands back
the one from before, and so has the builder to be. -/
def outcome : Except CompileError CompiledUnit × Compiler → EStateM.Result BuildError Builder CompiledUnit
  | (.ok u, c) => .ok u (c.within [])
  | (.error cause, c) => .error (.program cause) (c.within [])

/-- A snippet that is compiled in place makes the same unit or the same error, and leaves the builder as the
compiler is left. -/
theorem compile_within (c : Compiler) (n : SnippetId) (p : Program) :
    compile n p (c.within []) = outcome (c.compile n p) := by
  have hall : ProgramKind.all.stmts [] p := trivial
  have htop : Tracks (Inside [] c.scope.enclosing) (topLevel p (c.within [])) (Compiler.topLevel p c) :=
    walks.topLevel p hall rfl
  unfold compile Compiler.compile
  generalize topLevel p (c.within []) = built at htop ⊢
  generalize Compiler.topLevel p c = compiled at htop ⊢
  cases htop with
  | ok hR =>
    obtain ⟨rfl, -⟩ := hR
    rfl
  | error cause halfway => rfl

theorem after_within (c : Compiler) (n : SnippetId) (p : Program) :
    (c.within []).after n p = (c.compile n p).2.within [] := by
  unfold after
  rw [compile_within]
  rcases c.compile n p with ⟨u | cause, c'⟩ <;> rfl

/-! ### Histories -/

/-- A builder between snippets: one empty buffer, nothing that belongs to a snippet, and no names around those
of the session. What was half built when a snippet failed would show here. -/
structure Resting (b : Builder) : Prop where
  buffers : b.buffers = [{}]
  constants : b.constants = #[]
  declarations : b.declarations = #[]
  enclosing : b.scope.enclosing = none

theorem Resting.eq_within {b : Builder} (h : b.Resting) :
    b = (Compiler.idle b.scope b.constantsOffset).within [] := by
  obtain ⟨buffers, offset, constants, scope, declarations⟩ := b
  obtain ⟨rfl, rfl, rfl, -⟩ := h
  rfl

/-- The builders to which compiling snippets, taking checkpoints and going back to them lead, each with the
builders from the moments at which its checkpoints were taken. A checkpoint may be gone back to at any later
time, and more than once. -/
inductive History : Builder → List Builder → Prop where
  | new : History {} []
  | compile {b : Builder} {moments : List Builder} (n : SnippetId) (p : Program)
      (before : History b moments) : History (b.after n p) moments
  | checkpoint {b : Builder} {moments : List Builder} (before : History b moments) :
      History b (b :: moments)
  | restore {b saved : Builder} {moments : List Builder} (before : History b moments)
      (taken : saved ∈ moments) : History (b.restore saved.checkpoint) moments

/-- A builder, and each moment at which a checkpoint was taken, is a compiler between snippets. -/
theorem History.reachable {b : Builder} {moments : List Builder} (h : History b moments) :
    ∀ b' ∈ b :: moments, ∃ c : Compiler, c.Reachable ∧ b' = c.within [] := by
  induction h with
  | new => exact fun b' hb' => ⟨{}, .new, List.mem_singleton.mp hb'⟩
  | compile n p before ih =>
    intro b' hb'
    rcases List.mem_cons.mp hb' with rfl | hb'
    · obtain ⟨c, hc, rfl⟩ := ih _ List.mem_cons_self
      exact ⟨_, hc.compile n p, after_within c n p⟩
    · exact ih b' (List.mem_cons_of_mem _ hb')
  | checkpoint before ih =>
    intro b' hb'
    rcases List.mem_cons.mp hb' with rfl | hb'
    · exact ih b' List.mem_cons_self
    · exact ih b' hb'
  | restore before taken ih =>
    intro b' hb'
    rcases List.mem_cons.mp hb' with rfl | hb'
    · obtain ⟨c, hc, rfl⟩ := ih _ List.mem_cons_self
      obtain ⟨saved, hsaved, rfl⟩ := ih _ (List.mem_cons_of_mem _ taken)
      exact ⟨_, hc.restore hsaved, rfl⟩
    · exact ih b' (List.mem_cons_of_mem _ hb')

theorem resting_within {c : Compiler} (hc : c.Ready) : (c.within []).Resting := by
  have hidle := hc.idle
  have hsession := hc.session
  obtain ⟨scope, offset, buffer, constants, declarations⟩ := c
  cases hidle
  cases scope with
  | session level => exact ⟨rfl, rfl, rfl, rfl⟩
  | function level enclosing => cases hsession

theorem History.resting {b : Builder} {moments : List Builder} (h : History b moments) :
    ∀ b' ∈ b :: moments, b'.Resting := by
  intro b' hb'
  obtain ⟨c, hc, rfl⟩ := h.reachable b' hb'
  exact resting_within hc.ready

/-- Whatever was compiled, however deep inside of functions it failed, and whichever checkpoints were gone
back to: between snippets a builder holds nothing but its names and its count of constants. A snippet that
does not compile leaves the builder as it was, a checkpoint brings back the builder of its moment, and what
compiling a snippet comes to depends on the names and the count alone. -/
theorem History.keeps_nothing_hidden {b : Builder} {moments : List Builder} (h : History b moments) :
    b.Resting ∧
    (∀ n p cause left, Builder.compile n p b = .error cause left → left = b) ∧
    (∀ saved ∈ moments, b.restore saved.checkpoint = saved) ∧
    (∀ n p, Builder.compile n p b = outcome ((Compiler.idle b.scope b.constantsOffset).compile n p)) ∧
    ∀ b' moments', History b' moments' → b'.checkpoint = b.checkpoint →
      ∀ n p, Builder.compile n p b' = Builder.compile n p b := by
  have hrest := h.resting b List.mem_cons_self
  have hcompile : ∀ n p,
      Builder.compile n p b = outcome ((Compiler.idle b.scope b.constantsOffset).compile n p) := by
    intro n p
    conv => lhs; rw [hrest.eq_within]
    exact compile_within _ n p
  -- Between snippets a builder is a compiler with no buffers around its own, and then compiling in place is
  -- compiling.
  refine ⟨hrest, fun n p cause left hfail => ?_, fun saved hsaved => ?_, hcompile,
    fun b' moments' h' hsame n p => ?_⟩
  · rw [hcompile] at hfail
    unfold Compiler.compile at hfail
    split at hfail
    · cases hfail
    · cases hfail
      exact hrest.eq_within.symm
  · rw [hrest.eq_within, (h.resting saved (List.mem_cons_of_mem _ hsaved)).eq_within]
    rfl
  · have hscope : b'.scope = b.scope := congrArg Checkpoint.scope hsame
    have hoffset : b'.constantsOffset = b.constantsOffset := congrArg Checkpoint.constantsOffset hsame
    rw [(h'.resting b' List.mem_cons_self).eq_within, compile_within, hcompile, hscope, hoffset]

/-- A snippet fails while two functions are under construction, and leaves a literal, three buffers and
other names behind. Afterwards the builder goes back to the first of two checkpoints, and on to the second. -/
theorem nested_failure_leaves_nothing :
    let declaring : Program := [.letIn "x" (.int 7)]
    let failing : Program :=
      [.letIn "f" (.function ["a"] [.expr (.cond (.ident "a") [.expr (.int 1),
        .expr (.function ["b"] [.ret (.ident "missing")])] none)])]
    let declared := after 0 declaring {}
    let halfway := match topLevel failing declared with | .ok _ b | .error _ b => b
    let back := (after 1 failing declared).restore (checkpoint {})
    halfway.buffers.length = 3 ∧ halfway.constants.size = 1 ∧ halfway.scope ≠ declared.scope ∧
    declared ≠ {} ∧ back.History [declared, {}] ∧ back.Resting ∧
    back.restore declared.checkpoint = declared ∧
    ∃ cause, compile 2 failing back = .error cause back := by
  intro declaring failing declared halfway back
  have hhistory : History back [declared, {}] :=
    (((History.new.checkpoint.compile 0 declaring).checkpoint.compile 1 failing).restore
      (.tail _ (.head _)))
  obtain ⟨hrest, hfail, hback, -, -⟩ := hhistory.keeps_nothing_hidden
  refine ⟨by decide +kernel, by decide +kernel, by decide +kernel, by decide +kernel, hhistory, hrest,
    hback declared (.head _), ?_⟩
  have hfails : (match compile 2 failing back with | .ok _ _ => true | .error _ _ => false) = false := by
    decide +kernel
  cases hcompile : compile 2 failing back with
  | ok u left =>
    rw [hcompile] at hfails
    cases hfails
  | error cause left => exact ⟨cause, by rw [hfail 2 failing cause left hcompile]⟩

end Builder

end Notebook
