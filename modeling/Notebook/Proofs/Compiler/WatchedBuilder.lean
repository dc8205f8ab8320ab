import Notebook.Proofs.Compiler.InPlaceBuilder

/-!
Watching a builder.

A snippet is built in many small changes, and nothing of what a builder was in between is left in the end. A
`Watch` looks on: it keeps every builder that there was, the jumps that were patched in each buffer, and what was
there whenever a `Pop` was taken back. It takes no part in the building (`Watch.mirrors_topLevel`).

The walk is the one of the compiler and of the builder (`Steps`), with steps of its own. All of them change the
builder through `Watch.does` and write down the rest with `Watch.note`, so that no change is missed: the relation
`Watch.Mirrors` to the builder's step is kept by both, and by doing one after the other. It holds of whole programs
by `Steps.Related`.
-/

namespace Notebook

/-- A jump that has been patched, and where it leads. -/
structure Patch where
  position : Nat
  target : Nat
  deriving DecidableEq, Repr

/-- A `Pop` taken back: the statements that were built before it was, the builders from before them and from
after them, the jumps patched until then in the same buffer, and what was left of the buffer. This is all that
is needed to judge it later (`Removal.Right`). -/
structure Removal where
  block : List Stmt
  start : Builder
  stop : Builder
  patched : List Patch
  left : Buffer

/-- A builder that is watched. The patched jumps are those of each of its buffers, the innermost first. What was
seen last comes first. A watch outlives failures: it is the state that a failing step leaves behind. -/
structure Watch where
  builder : Builder
  patched : List (List Patch) := [[]]
  moments : List Builder := []
  removals : List Removal := []

/-- A step of building that is watched. -/
abbrev Watched := EStateM BuildError Watch

namespace Watch

def start (b : Builder) : Watch := { builder := b, moments := [b] }

/-- The watched builder changed, with the builder that this leads to, even if the change fails. It is the only
way in which a watch changes its builder. -/
def does {α : Type} (m : Build α) : Watched α := fun w =>
  match m w.builder with
  | .ok a b => .ok a { w with builder := b, moments := b :: w.moments }
  | .error cause b => .error cause { w with builder := b, moments := b :: w.moments }

def now : Watched Builder := fun w => .ok w.builder w

/-- Something is only written down. -/
def note (change : Watch → Watch) : Watched Unit := fun w => .ok () (change w)

/-! ### Single steps -/

def emit (op : Opcode) (operands : List Nat) : Watched Unit := does (Builder.emit op operands)

def patchJump (position : Nat) : Watched Unit := do
  let target ← does Builder.here
  does (Builder.patchJump position)
  note fun w => { w with patched := w.patched.modifyHead (⟨position, target⟩ :: ·) }

def dropPop (block : List Stmt) (start : Builder) : Watched Unit := do
  let stop ← now
  does Builder.dropPop
  let left ← does Builder.current
  note fun w => { w with removals := ⟨block, start, stop, w.patched.headD [], left⟩ :: w.removals }

def emitConstant (v : Value) : Watched Unit := do
  let index ← does (Builder.addConstant v)
  emit .constant [index]

def emitAssignment (name : String) (index : Nat) : Watched Unit := do
  match (← now).scope with
  | .session _ => do
    emit .setGlobal [index]
    does (Builder.declare name index)
  | .function _ _ => emit .setLocal [index]

def closeBlock (block : List Stmt) (start : Builder) : Watched Unit := do
  if ← does (Builder.endsWith .pop) then dropPop block start else emit .pushNull []

/-- A block that is used for its value. It is built as `inside` says. -/
def blockValue (block : List Stmt) (inside : Watched Unit) : Watched Unit := do
  let start ← now
  inside
  closeBlock block start

def returnLast (body : List Stmt) (start : Builder) : Watched Unit := do
  if ← does (Builder.endsWith .pop) then
    dropPop body start
    emit .returnValue []

def closeBody (body : List Stmt) (start : Builder) : Watched Unit := do
  returnLast body start
  unless ← does (Builder.endsWith .returnValue) do
    emit .ret []

def enter : Watched Unit := fun w => does Builder.enter { w with patched := [] :: w.patched }

def leave : Watched Code := fun w => does Builder.leave { w with patched := w.patched.tail }

def defineAll : List String → Watched Unit
  | [] => pure ()
  | name :: rest => do
    let _ ← does (Builder.define name)
    defineAll rest

def functionLiteral (params : List String) (body : List Stmt) (inside : Watched Unit) : Watched Unit := do
  enter
  defineAll params
  let start ← now
  inside
  closeBody body start
  let locals := (← now).scope.slots
  let code ← leave
  let offset := (← now).constantsOffset
  emitConstant (.function ⟨code, offset, locals, params.length⟩)

/-- The steps of a builder that is watched. Of blocks and functions, the statements inside are written down. -/
def steps : Steps (Watched Unit) where
  skip := pure ()
  andThen first second := do
    first
    second
  emit := emit
  constant := emitConstant
  reference name := does (Builder.emitReference name)
  define name next := does (Builder.define name) >>= next
  assign := emitAssignment
  here next := does Builder.here >>= next
  patchJump := patchJump
  block := blockValue
  function := functionLiteral

def expr : Expr → Watched Unit := steps.expr

def exprs : List Expr → Watched Unit := steps.exprs

def stmt : Stmt → Watched Unit := steps.stmt

def stmts : List Stmt → Watched Unit := steps.stmts

def topLevel : Program → Watched Unit := steps.topLevel

/-- A builder that has been watched while a snippet was compiled. -/
def compile (snippet : SnippetId) (p : Program) (b : Builder) : Watch :=
  match topLevel p (start b) with
  | .ok _ w | .error _ w =>
    { w with builder := b.after snippet p, moments := b.after snippet p :: w.moments }

/-! ### Watching changes nothing -/

def unwatched {α : Type} : EStateM.Result BuildError Watch α → EStateM.Result BuildError Builder α
  | .ok a w => .ok a w.builder
  | .error cause w => .error cause w.builder

/-- Does a step do the same when it is watched? Success, error and the builder left behind are compared,
whatever was seen before. -/
def Mirrors {α : Type} (m : Watched α) (m' : Build α) : Prop :=
  ∀ w, unwatched (m w) = m' w.builder

section

variable {α β : Type}

theorem bind_eq (m : Watched α) (next : α → Watched β) (w : Watch) :
    (m >>= next) w = match m w with
      | .ok a w => next a w
      | .error cause w => .error cause w := by
  show EStateM.bind m next w = _
  unfold EStateM.bind
  cases m w <;> rfl

theorem Mirrors.pure (a : α) : Mirrors (pure a) (pure a) := fun _ => rfl

theorem Mirrors.bind {m : Watched α} {m' : Build α} {next : α → Watched β} {next' : α → Build β}
    (h : Mirrors m m') (hnext : ∀ a, Mirrors (next a) (next' a)) : Mirrors (m >>= next) (m' >>= next') := by
  intro w
  show _ = EStateM.bind m' next' w.builder
  unfold EStateM.bind
  rw [bind_eq, ← h w]
  cases m w with
  | ok a w => exact hnext a w
  | error cause w => rfl

theorem mirrors_does (m : Build α) : Mirrors (does m) m := by
  intro w
  unfold does
  cases m w.builder <;> rfl

theorem mirrors_get : Mirrors now get := fun _ => rfl

/-- Looking on changes nothing. -/
theorem Mirrors.seen {next : Builder → Watched α} {m : Build α} (h : ∀ b, Mirrors (next b) m) :
    Mirrors (now >>= next) m := fun w => h w.builder w

/-- What is only written down changes nothing. -/
theorem Mirrors.noted {m : Watched Unit} {m' : Build Unit} (h : Mirrors m m') {change : Watch → Watch}
    (hchange : ∀ w, (change w).builder = w.builder) : Mirrors (m >>= fun _ => note change) m' := by
  intro w
  rw [bind_eq, ← h w]
  cases m w with
  | ok a w => exact congrArg (EStateM.Result.ok a) (hchange w)
  | error cause w => rfl

theorem mirrors_emit (op : Opcode) (operands : List Nat) :
    Mirrors (emit op operands) (Builder.emit op operands) := mirrors_does _

theorem mirrors_patchJump (position : Nat) : Mirrors (patchJump position) (Builder.patchJump position) := by
  intro w
  have hpatch (target : Nat) : Mirrors (does (Builder.patchJump position) >>= fun _ => note fun w =>
      { w with patched := w.patched.modifyHead (⟨position, target⟩ :: ·) }) (Builder.patchJump position) :=
    (mirrors_does _).noted fun _ => rfl
  obtain ⟨⟨buffers, offset, constants, scope, declarations⟩, patched, moments, removals⟩ := w
  cases buffers with
  | nil => rfl
  | cons inner around => exact hpatch inner.code.size ⟨_, patched, _ :: moments, removals⟩

theorem mirrors_dropPop (block : List Stmt) (start : Builder) :
    Mirrors (dropPop block start) Builder.dropPop := by
  intro w
  obtain ⟨⟨buffers, offset, constants, scope, declarations⟩, patched, moments, removals⟩ := w
  cases buffers <;> rfl

theorem mirrors_emitConstant (v : Value) : Mirrors (emitConstant v) (Builder.emitConstant v) :=
  (mirrors_does _).bind fun _ => mirrors_emit _ _

theorem mirrors_emitAssignment (name : String) (index : Nat) :
    Mirrors (emitAssignment name index) (Builder.emitAssignment name index) := by
  intro w
  obtain ⟨⟨buffers, offset, constants, scope, declarations⟩, patched, moments, removals⟩ := w
  cases scope with
  | session level => exact ((mirrors_emit _ _).bind fun _ => mirrors_does _) _
  | function level enclosing => exact mirrors_emit _ _ _

theorem mirrors_closeBlock (block : List Stmt) (start : Builder) :
    Mirrors (closeBlock block start) Builder.closeBlock := by
  refine (mirrors_does _).bind fun ends => ?_
  cases ends with
  | true => exact mirrors_dropPop block start
  | false => exact mirrors_emit _ _

theorem mirrors_closeBody (body : List Stmt) (start : Builder) :
    Mirrors (closeBody body start) Builder.closeBody := by
  refine Mirrors.bind ((mirrors_does _).bind fun ends => ?_) fun _ => (mirrors_does _).bind fun ends => ?_
  · cases ends with
    | true => exact (mirrors_dropPop body start).bind fun _ => mirrors_emit _ _
    | false => exact .pure ()
  · cases ends with
    | true => exact .pure ()
    | false => exact mirrors_emit _ _

theorem mirrors_enter : Mirrors enter Builder.enter := fun _ => rfl

theorem mirrors_leave : Mirrors leave Builder.leave := fun w =>
  mirrors_does Builder.leave { w with patched := w.patched.tail }

theorem mirrors_defineAll : ∀ params : List String, Mirrors (defineAll params) (Builder.defineAll params)
  | [] => .pure ()
  | _ :: rest => (mirrors_does _).bind fun _ => mirrors_defineAll rest

theorem mirrors_blockValue {block : List Stmt} {inside : Watched Unit} {inside' : Build Unit}
    (hinside : Mirrors inside inside') :
    Mirrors (blockValue block inside) (inside' >>= fun _ => Builder.closeBlock) :=
  .seen fun _ => hinside.bind fun _ => mirrors_closeBlock _ _

theorem mirrors_functionLiteral {params : List String} {body : List Stmt} {inside : Watched Unit}
    {inside' : Build Unit} (hinside : Mirrors inside inside') :
    Mirrors (functionLiteral params body inside) (Builder.functionLiteral params inside') := by
  refine mirrors_enter.bind fun _ => (mirrors_defineAll params).bind fun _ => .seen fun _ => ?_
  refine hinside.bind fun _ => (mirrors_closeBody _ _).bind fun _ => mirrors_get.bind fun _ => ?_
  exact mirrors_leave.bind fun _ => mirrors_get.bind fun _ => mirrors_emitConstant _

theorem mirrors : Steps.Related steps Builder.steps .all Mirrors where
  skip := .pure ()
  andThen hfirst hsecond := hfirst.bind fun _ => hsecond
  emit op operands := mirrors_emit op operands
  constant _ := mirrors_emitConstant _
  reference _ := mirrors_does _
  here hnext := (mirrors_does _).bind hnext
  patchJump position := mirrors_patchJump position
  block _ hinside := mirrors_blockValue hinside
  define _ hnext := (mirrors_does _).bind hnext
  assign index _ := mirrors_emitAssignment _ index
  function _ hinside := mirrors_functionLiteral hinside

theorem mirrors_expr (e : Expr) : Mirrors (expr e) (Builder.expr e) :=
  have hall : ProgramKind.all.expr [] e := trivial
  mirrors.expr e hall

theorem mirrors_stmts (ss : List Stmt) : Mirrors (stmts ss) (Builder.stmts ss) :=
  have hall : ProgramKind.all.stmts [] ss := trivial
  mirrors.stmts ss hall

theorem mirrors_topLevel (p : Program) : Mirrors (topLevel p) (Builder.topLevel p) :=
  have hall : ProgramKind.all.stmts [] p := trivial
  mirrors.topLevel p hall

end

end Watch

end Notebook
