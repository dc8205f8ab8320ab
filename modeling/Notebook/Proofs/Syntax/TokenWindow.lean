import Notebook.Proofs.Syntax.TokenConsumption

/-!
Reading tokens through a window.

The parser takes tokens and gives back those that it has not used. It can also be one object that moves a
window over the tokens and sees only the one that it is on and the one after it: then every part of it has to
leave the window on the last token of what it read, and nothing but the window says when it is done. A
`Window` is such an object. It keeps a record of how deep expressions have nested and of every turn of a loop,
and a part that never ends comes to `none`.

* `Window.Part.step`: what each part does, if it is known what the parts come to that it goes through.
* `Window.Part.read_eq`: what a part comes to, however deep that goes, is what it does with what the parts come to.
-/

namespace Notebook

/-- The loops of the parser. -/
inductive Loop where
  | program | block | suffixes | items | params
  deriving DecidableEq, Repr

/-- One turn of a loop, and how many tokens there were when it began and when it was done. -/
structure Turn where
  loop : Loop
  before : Nat
  after : Nat
  deriving DecidableEq, Repr

/-- How deep expressions have nested so far, and the turns of loops, the latest first. No part looks at it. -/
structure WorkRecord where
  deepest : Nat := 0
  turns : List Turn := []
  deriving DecidableEq, Repr

/-- A window over tokens: those from the one that it is on. What is behind it is gone. -/
structure Window where
  ahead : List Token
  record : WorkRecord := {}
  deriving DecidableEq, Repr

/-- A part of the parser. One that fails leaves the window where it was moved until then, and one that
goes on forever comes to `none`. -/
abbrev Reading := ExceptT ParseError (StateT Window Option)

namespace Window

/-! ### Moving a window -/

def current? : Reading (Option Token) := do
  return (← get).ahead.head?

def current : Reading Token := do
  match ← current? with
  | some t => return t
  | none => throw .unexpectedEnd

/-- The token after the current one. -/
def next? : Reading (Option Token) := do
  return (← get).ahead.tail.head?

def nextIs (t : Token) : Reading Bool := do
  return decide ((← next?) = some t)

def advance : Reading Unit :=
  modify fun w => { w with ahead := w.ahead.tail }

/-- Moves on to a token that has to be `expected`. -/
def expectNext (expected : Symbol) : Reading Unit := do
  match ← next? with
  | some t => if t = .symbol expected then advance else throw (.expectedNext expected (some t))
  | none => throw (.expectedNext expected none)

def skipSemicolon : Reading Unit := do
  if ← nextIs (.symbol .semicolon) then advance

/-- How many tokens there are from the current one on. -/
def remaining : Reading Nat := do
  return (← get).ahead.length

/-- Records that a turn of a loop is done. -/
def turned (loop : Loop) (before : Nat) : Reading Unit := do
  let after ← remaining
  modify fun w => { w with record.turns := ⟨loop, before, after⟩ :: w.record.turns }

def nests (depth : Nat) : Reading Unit :=
  modify fun w => { w with record.deepest := max w.record.deepest depth }

def separator : Reading Unit := do
  unless ← nextIs (.symbol .rightParen) do expectNext .comma

/-! ### The parts -/

/-- The parts of the parser, by what they read, with what a loop has read so far. The number `depth` is in how
many expressions a part is. A part is data, so that one part can ask for another without the parts being
functions that call each other. -/
inductive Part : Type → Type where
  | program (read : List Stmt) : Part Program
  | statement (depth : Nat) : Part Stmt
  | binding (depth : Nat) : Part Stmt
  /-- What comes after `return` and `throw`. -/
  | keywordOperand (depth : Nat) : Part Expr
  /-- An expression as a statement. -/
  | value (depth : Nat) : Part Stmt
  /-- An expression with every suffix that binds tighter than `p`. -/
  | expression (depth : Nat) (p : Precedence) : Part Expr
  | operand (depth : Nat) : Part Expr
  | suffixes (depth : Nat) (p : Precedence) (left : Expr) : Part Expr
  | extend (depth : Nat) (left : Expr) (suffix : Suffix) : Part Expr
  | unary (depth : Nat) (op : UnaryOp) : Part Expr
  | grouped (depth : Nat) : Part Expr
  | conditional (depth : Nat) : Part Expr
  | function (depth : Nat) : Part Expr
  /-- Parameter names, up to the one before the closing parenthesis. -/
  | params (read : List String) : Part (List String)
  /-- Expressions separated by commas, up to `close`. -/
  | items (depth : Nat) (close : Symbol) : Part (List Expr)
  | moreItems (depth : Nat) (close : Symbol) (read : List Expr) : Part (List Expr)
  /-- Statements up to the closing brace. -/
  | block (depth : Nat) : Part (List Stmt)
  | moreStatements (depth : Nat) (read : List Stmt) : Part (List Stmt)

/-- What the parts come to. -/
abbrev Parts := (α : Type) → Part α → Reading α

/-- What a part does, if the parts that it goes through come to what `parts` says. -/
def Part.step (parts : Parts) {α : Type} : Part α → Reading α
  | .program read => do
    let before ← remaining
    match ← current? with
    | some _ =>
      let s ← parts _ (.statement 0)
      advance
      turned .program before
      parts _ (.program (s :: read))
    | none => return read.reverse
  | .statement depth => do
    match ← current with
    | .keyword .letBinding => parts _ (.binding depth)
    | .keyword .returnValue => return .ret (← parts _ (.keywordOperand depth))
    | .keyword .throwValue => return .throw (← parts _ (.keywordOperand depth))
    | .symbol .semicolon => return .empty
    | _ => parts _ (.value depth)
  | .binding depth => do
    advance
    match ← current with
    | .ident name =>
      expectNext .assign
      advance
      let value ← parts _ (.expression depth .lowest)
      skipSemicolon
      return .letIn name value
    | t => throw (.expectedIdentifier t)
  | .keywordOperand depth => do
    advance
    let value ← parts _ (.expression depth .lowest)
    skipSemicolon
    return value
  | .value depth => do
    let value ← parts _ (.expression depth .lowest)
    skipSemicolon
    return .expr value
  | .expression depth p => do
    nests (depth + 1)
    let left ← parts _ (.operand (depth + 1))
    parts _ (.suffixes (depth + 1) p left)
  | .operand depth => do
    match ← current with
    | .ident name => return .ident name
    | .int digits => return .int (← Parser.integer digits)
    | .str text => return .str text
    | .keyword .trueLiteral => return .bool true
    | .keyword .falseLiteral => return .bool false
    | .keyword .nullLiteral => return .null
    | .symbol .bang => parts _ (.unary depth .not)
    | .symbol .minus => parts _ (.unary depth .negate)
    | .symbol .leftParen => parts _ (.grouped depth)
    | .symbol .leftBracket => return .array (← parts _ (.items depth .rightBracket))
    | .keyword .ifBranch => parts _ (.conditional depth)
    | .keyword .function => parts _ (.function depth)
    | .illegal text => throw (.illegal text)
    | t => throw (.noOperand t)
  | .suffixes depth p left => do
    let before ← remaining
    match (← next?).bind Token.suffix? with
    | some suffix =>
      if p.rank < suffix.precedence.rank then
        advance
        let longer ← parts _ (.extend depth left suffix)
        turned .suffixes before
        parts _ (.suffixes depth p longer)
      else return left
    | none => return left
  | .extend depth left (.binary op) => do
    advance
    let right ← parts _ (.expression depth op.precedence)
    return .binary op left right
  | .extend depth left .call => do
    return .call left (← parts _ (.items depth .rightParen))
  | .extend depth left .index => do
    advance
    let position ← parts _ (.expression depth .lowest)
    expectNext .rightBracket
    return .index left position
  | .unary depth op => do
    advance
    return .unary op (← parts _ (.expression depth .unary))
  | .grouped depth => do
    advance
    let e ← parts _ (.expression depth .lowest)
    expectNext .rightParen
    return e
  | .conditional depth => do
    expectNext .leftParen
    advance
    let condition ← parts _ (.expression depth .lowest)
    expectNext .rightParen
    expectNext .leftBrace
    let consequence ← parts _ (.block depth)
    if ← nextIs (.keyword .elseBranch) then
      advance
      expectNext .leftBrace
      let alternative ← parts _ (.block depth)
      return .cond condition consequence (some alternative)
    else return .cond condition consequence none
  | .function depth => do
    expectNext .leftParen
    let names ← parts _ (.params [])
    expectNext .rightParen
    expectNext .leftBrace
    let body ← parts _ (.block depth)
    return .function names body
  | .params read => do
    let before ← remaining
    if ← nextIs (.symbol .rightParen) then return read.reverse
    else
      advance
      match ← current with
      | .ident name =>
        separator
        turned .params before
        parts _ (.params (name :: read))
      | t => throw (.expectedParameter t)
  | .items depth close => do
    if ← nextIs (.symbol close) then
      advance
      return []
    else
      advance
      let e ← parts _ (.expression depth .lowest)
      parts _ (.moreItems depth close [e])
  | .moreItems depth close read => do
    let before ← remaining
    if ← nextIs (.symbol .comma) then
      advance
      advance
      let e ← parts _ (.expression depth .lowest)
      turned .items before
      parts _ (.moreItems depth close (e :: read))
    else
      expectNext close
      return read.reverse
  | .block depth => do
    advance
    parts _ (.moreStatements depth [])
  | .moreStatements depth read => do
    let before ← remaining
    match ← current? with
    | some t =>
      if t = .symbol .rightBrace then return read.reverse
      else
        let s ← parts _ (.statement depth)
        advance
        turned .block before
        parts _ (.moreStatements depth (s :: read))
    | none => throw .unclosedBlock

/-- What the parts come to, if parts go through parts no deeper than a number. There is no other bound, in
particular none by the tokens. -/
def within : Nat → Parts
  | 0 => fun _ _ _ => none
  | n + 1 => fun _ part => part.step (within n)

open Classical in
/-- What a part comes to, however deep that goes. -/
noncomputable def Part.read {α : Type} (part : Part α) : Reading α := fun w =>
  if h : ∃ result n, within n α part w = some result then some h.choose else none

/-! ### Single moves -/

section

variable {α β : Type} {ts : List Token} {r : WorkRecord} {t : Token}

theorem bind_eq (m : Reading α) (next : α → Reading β) (w : Window) :
    (m >>= next) w = (m w).bind fun p => match p.1 with
      | .ok a => next a p.2
      | .error cause => some (.error cause, p.2) := by
  show Option.bind (m w) _ = _
  congr 1
  funext p
  obtain ⟨e, w'⟩ := p
  cases e <;> rfl

theorem bind_of_ok {m : Reading α} {next : α → Reading β} {w w' : Window} {a : α}
    (h : m w = some (.ok a, w')) : (m >>= next) w = next a w' := by
  rw [bind_eq, h]
  rfl

theorem current_bind_cons (next : Token → Reading α) :
    (current >>= next) ⟨t :: ts, r⟩ = next t ⟨t :: ts, r⟩ := rfl

theorem current?_bind (next : Option Token → Reading α) :
    (current? >>= next) ⟨ts, r⟩ = next ts.head? ⟨ts, r⟩ := rfl

theorem next?_bind (next : Option Token → Reading α) :
    (next? >>= next) ⟨ts, r⟩ = next ts.tail.head? ⟨ts, r⟩ := rfl

theorem remaining_bind (next : Nat → Reading α) :
    (remaining >>= next) ⟨ts, r⟩ = next ts.length ⟨ts, r⟩ := rfl

theorem turned_bind (loop : Loop) (before : Nat) (next : Unit → Reading α) :
    (turned loop before >>= next) ⟨ts, r⟩ =
      next () ⟨ts, { r with turns := ⟨loop, before, ts.length⟩ :: r.turns }⟩ := rfl

theorem nests_bind (depth : Nat) (next : Unit → Reading α) :
    (nests depth >>= next) ⟨ts, r⟩ = next () ⟨ts, { r with deepest := max r.deepest depth }⟩ := rfl

theorem advance_bind (next : Unit → Reading α) :
    (advance >>= next) ⟨ts, r⟩ = next () ⟨ts.tail, r⟩ := rfl

theorem nextIs_bind (t : Token) (next : Bool → Reading α) :
    (nextIs t >>= next) ⟨ts, r⟩ = next (decide (ts.tail.head? = some t)) ⟨ts, r⟩ := rfl

theorem head?_ne_of_forall (h : ∀ rest, ts = t :: rest → False) : ts.head? ≠ some t := fun hhead =>
  have ⟨rest, hts⟩ := List.head?_eq_some_iff.mp hhead
  h rest hts

theorem expectNext_of_ne {s : Symbol} (h : ts.tail.head? ≠ some (.symbol s)) :
    expectNext s ⟨ts, r⟩ = some (.error (.expectedNext s ts.tail.head?), ⟨ts, r⟩) := by
  rw [expectNext, next?_bind]
  cases hnext : ts.tail.head? with
  | none => rfl
  | some t =>
    have ht : t ≠ .symbol s := fun ht => h (hnext.trans (congrArg some ht))
    simp only [if_neg ht]
    rfl

end

/-! ### Going on until the end -/

/-- What one way to go through the parts comes to, another one comes to as well. -/
def Below (parts parts' : Parts) : Prop :=
  ∀ {α : Type} (part : Part α) (w : Window) (result : Except ParseError α × Window),
    parts α part w = some result → parts' α part w = some result

/-- Readings that do nothing with the parts but go through them, one after the other. Such a reading cannot tell
what the parts are, so a bound that is high enough makes no difference to it. -/
inductive Steps : {β : Type} → (Parts → Reading β) → Prop where
  | alone {β : Type} (m : Reading β) : Steps fun _ => m
  | part {β : Type} (part : Part β) : Steps fun parts => parts _ part
  | bind {β γ : Type} {m : Parts → Reading β} {next : β → Parts → Reading γ} :
      Steps m → (∀ a, Steps (next a)) → Steps fun parts => m parts >>= fun a => next a parts

theorem Steps.mono {β : Type} {m : Parts → Reading β} (h : Steps m) {parts parts' : Parts}
    (hbelow : Below parts parts') : ∀ {w : Window} {result : Except ParseError β × Window},
    m parts w = some result → m parts' w = some result := by
  induction h with
  | alone m => exact fun h => h
  | part part => exact fun h => hbelow part _ _ h
  | bind hm hnext ihm ihnext =>
    intro w result h
    simp only [bind_eq, Option.bind_eq_some_iff] at h ⊢
    obtain ⟨⟨x, w'⟩, hx, h⟩ := h
    refine ⟨_, ihm hx, ?_⟩
    cases x with
    | ok a => exact ihnext a h
    | error cause => exact h

theorem Steps.ite {β : Type} {m m' : Parts → Reading β} (c : Prop) [Decidable c] (h : Steps m)
    (h' : Steps m') : Steps fun parts => if c then m parts else m' parts := by
  by_cases hc : c
  · simpa only [if_pos hc] using h
  · simpa only [if_neg hc] using h'

/-- One part, and what is done after it. -/
theorem Steps.partThen {β γ : Type} (part : Part β) {next : β → Parts → Reading γ}
    (hnext : ∀ a, Steps (next a)) : Steps fun parts => parts _ part >>= fun a => next a parts :=
  .bind (.part part) hnext

/-- Something else, and what is done after it. -/
theorem Steps.andThen {β γ : Type} (m : Reading β) {next : β → Parts → Reading γ}
    (hnext : ∀ a, Steps (next a)) : Steps fun parts => m >>= fun a => next a parts :=
  .bind (.alone m) hnext

/-- Every part does nothing with the parts but go through them. This is read off the parts one by one, and makes
`Part.read_eq` hold without a bound. -/
theorem Part.steps : ∀ {α : Type} (part : Part α), Steps fun parts => part.step parts
  | _, .program _ => .andThen _ fun _ => .andThen _ fun
    | some _ => .partThen _ fun _ => .andThen _ fun _ => .andThen _ fun _ => .part _
    | none => .alone _
  -- Which part comes next depends on the current token.
  | _, .statement _ => .andThen _ fun t => by
    cases t with
    | keyword k =>
      cases k with
      | letBinding => exact .part _
      | returnValue | throwValue => exact .partThen _ fun _ => .alone _
      | _ => exact .part _
    | symbol s =>
      cases s with
      | semicolon => exact .alone _
      | _ => exact .part _
    | _ => exact .part _
  | _, .binding _ => .andThen _ fun _ => .andThen _ fun
    | .ident _ => .andThen _ fun _ => .andThen _ fun _ => .partThen _ fun _ => .alone _
    | .int _ | .str _ | .symbol _ | .keyword _ | .illegal _ => .alone _
  | _, .keywordOperand _ => .andThen _ fun _ => .partThen _ fun _ => .alone _
  | _, .value _ => .partThen _ fun _ => .alone _
  | _, .expression _ _ => .andThen _ fun _ => .partThen _ fun _ => .part _
  | _, .operand _ => .andThen _ fun t => by
    cases t with
    | symbol s =>
      cases s with
      | bang | minus | leftParen => exact .part _
      | leftBracket => exact .partThen _ fun _ => .alone _
      | _ => exact .alone _
    | keyword k =>
      cases k with
      | ifBranch | function => exact .part _
      | _ => exact .alone _
    | _ => exact .alone _
  | _, .suffixes _ _ _ => .andThen _ fun _ => .andThen _ fun t => by
    cases t.bind Token.suffix? with
    | none => exact .alone _
    | some suffix =>
      exact .ite _ (.andThen _ fun _ => .partThen _ fun _ => .andThen _ fun _ => .part _) (.alone _)
  | _, .extend _ _ (.binary _) => .andThen _ fun _ => .partThen _ fun _ => .alone _
  | _, .extend _ _ .call => .partThen _ fun _ => .alone _
  | _, .extend _ _ .index => .andThen _ fun _ => .partThen _ fun _ => .alone _
  | _, .unary _ _ => .andThen _ fun _ => .partThen _ fun _ => .alone _
  | _, .grouped _ => .andThen _ fun _ => .partThen _ fun _ => .alone _
  | _, .conditional _ => .andThen _ fun _ => .andThen _ fun _ => .partThen _ fun _ => .andThen _ fun _ =>
    .andThen _ fun _ => .partThen _ fun _ => .andThen _ fun _ =>
      .ite _ (.andThen _ fun _ => .andThen _ fun _ => .partThen _ fun _ => .alone _) (.alone _)
  | _, .function _ => .andThen _ fun _ => .partThen _ fun _ => .andThen _ fun _ => .andThen _ fun _ =>
    .partThen _ fun _ => .alone _
  | _, .params _ => .andThen _ fun _ => .andThen _ fun _ =>
    .ite _ (.alone _) (.andThen _ fun _ => .andThen _ fun
      | .ident _ => .andThen _ fun _ => .andThen _ fun _ => .part _
      | .int _ | .str _ | .symbol _ | .keyword _ | .illegal _ => .alone _)
  | _, .items _ _ => .andThen _ fun _ =>
    .ite _ (.alone _) (.andThen _ fun _ => .partThen _ fun _ => .part _)
  | _, .moreItems _ _ _ => .andThen _ fun _ => .andThen _ fun _ =>
    .ite _ (.andThen _ fun _ => .andThen _ fun _ => .partThen _ fun _ => .andThen _ fun _ => .part _) (.alone _)
  | _, .block _ => .andThen _ fun _ => .part _
  | _, .moreStatements _ _ => .andThen _ fun _ => .andThen _ fun
    | some _ => .ite _ (.alone _) (.partThen _ fun _ => .andThen _ fun _ => .andThen _ fun _ => .part _)
    | none => .alone _

theorem below_within_succ : ∀ n, Below (within n) (within (n + 1))
  | 0, _, _, _, _, h => nomatch h
  | n + 1, _, part, _, _, h => part.steps.mono (below_within_succ n) h

theorem below_within {n k : Nat} (h : n ≤ k) : Below (within n) (within k) := by
  induction h with
  | refl => exact fun _ _ _ h => h
  | step _ ih => exact fun part w result h => below_within_succ _ part w result (ih part w result h)

/-- A part comes to what it comes to at some depth. -/
theorem Part.read_eq_some_iff {α : Type} {part : Part α} {w : Window} {result : Except ParseError α × Window} :
    part.read w = some result ↔ ∃ n, within n α part w = some result := by
  unfold Part.read
  constructor
  · intro h
    split at h
    · rename_i hends
      cases h
      exact hends.choose_spec
    · cases h
  · rintro ⟨n, h⟩
    have hends : ∃ result n, within n α part w = some result := ⟨result, n, h⟩
    obtain ⟨k, hk⟩ := hends.choose_spec
    rw [dif_pos hends]
    have hn := below_within (Nat.le_max_left n k) part w _ h
    exact (below_within (Nat.le_max_right n k) part w _ hk).symm.trans hn

theorem Steps.read_eq_some_iff {β : Type} {m : Parts → Reading β} (h : Steps m) :
    ∀ {w : Window} {result : Except ParseError β × Window},
    m @Part.read w = some result ↔ ∃ n, m (within n) w = some result := by
  induction h with
  | alone m => exact fun {_ _} => ⟨fun h => ⟨0, h⟩, fun ⟨_, h⟩ => h⟩
  | part part => exact Part.read_eq_some_iff
  | @bind β γ m next hm hnext ihm ihnext =>
    intro w result
    simp only [bind_eq, Option.bind_eq_some_iff]
    constructor
    · rintro ⟨⟨x, w'⟩, hx, h⟩
      obtain ⟨n, hx⟩ := ihm.mp hx
      cases x with
      | ok a =>
        obtain ⟨k, h⟩ := (ihnext a).mp h
        have hx := hm.mono (below_within (Nat.le_max_left n k)) hx
        exact ⟨max n k, _, hx, (hnext a).mono (below_within (Nat.le_max_right n k)) h⟩
      | error cause => exact ⟨n, _, hx, h⟩
    · rintro ⟨n, ⟨x, w'⟩, hx, h⟩
      refine ⟨_, ihm.mpr ⟨n, hx⟩, ?_⟩
      cases x with
      | ok a => exact (ihnext a).mpr ⟨n, h⟩
      | error cause => exact h

/-- A part does what it does, with what the parts come to. -/
theorem Part.read_eq {α : Type} (part : Part α) : part.read = part.step @Part.read := by
  funext w
  refine Option.ext fun result => ?_
  rw [part.steps.read_eq_some_iff, Part.read_eq_some_iff]
  constructor
  · rintro ⟨n, h⟩
    exact ⟨n, below_within_succ n part w result h⟩
  · rintro ⟨n, h⟩
    exact ⟨n + 1, h⟩

end Window

end Notebook
