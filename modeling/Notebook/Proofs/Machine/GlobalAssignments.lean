import Mathlib.Data.List.Nodup
import Notebook.Proofs.Machine.Termination
import Notebook.Proofs.Renderer.RendererSnippets

/-!
What code assigns to globals, and in which order.

Each `let` outside of function literals has a slot of its own, and its code assigns that slot. Since
control only moves forward, a run assigns some of these slots, in the order of the text, and none
twice.

* `assignedBy_program`, `Scope.Fills`: the code of a snippet has one assignment for each slot that its
  program adds, in order.
* `Machine.assignments`: the assignments of a run.
* `Machine.Tracked.sublist`: they are some of those that the code has, in the same order.
* `Machine.globals_of_runWithin`, `Machine.getElem?_foldl_of_mem`: the globals after the run.
* `SessionEngine.Sound.assignments_sublist`: the run of a unit assigns some of the slots of the names
  that its program declares, in order.
-/

namespace Notebook

/-! ### Assignments in code -/

/-- The global that an instruction assigns. -/
def Instr.assigns (i : Instr) : Option Nat :=
  if i.opcode = .setGlobal then some i.operand else none

def assignedBy (is : List Instr) : List Nat := is.filterMap Instr.assigns

@[simp] theorem assignedBy_nil : assignedBy [] = [] := rfl

@[simp] theorem assignedBy_append (is js : List Instr) :
    assignedBy (is ++ js) = assignedBy is ++ assignedBy js :=
  List.filterMap_append

/-- A block assigns what its commands assign. -/
theorem assignedBy_block (cs : List Command) (start : Nat) :
    assignedBy (layoutBlock cs start) = assignedBy (layoutCommands cs start) := by
  have hends := layoutBlock_eq cs start
  split at hends
  · rw [hends, assignedBy_append]
    exact (List.append_nil _).symm
  · rw [hends, assignedBy_append]
    exact List.append_nil _

/-- Do some instructions assign, one after the other, the slots of a session that have been handed out between
two places? Every slot is assigned once, and none is left out. -/
structure Scope.Fills (s s' : Scope) (is : List Instr) : Prop where
  session : s'.isSession = true
  slots : s.slots ≤ s'.slots
  assigned : assignedBy is = List.range' s.slots (s'.slots - s.slots)

namespace Scope.Fills

variable {s s₁ s' : Scope} {is js : List Instr}

theorem of_nothing (hs : s.isSession = true) (h : assignedBy is = []) : s.Fills s is :=
  ⟨hs, Nat.le_refl _, by rw [h, Nat.sub_self]; rfl⟩

theorem append (h₁ : s.Fills s₁ is) (h₂ : s₁.Fills s' js) : s.Fills s' (is ++ js) := by
  refine ⟨h₂.session, Nat.le_trans h₁.slots h₂.slots, ?_⟩
  obtain ⟨m, hm⟩ := Nat.exists_eq_add_of_le h₁.slots
  obtain ⟨n, hn⟩ := Nat.exists_eq_add_of_le h₂.slots
  have hboth : s'.slots - s.slots = m + n := by omega
  have hfirst : s₁.slots - s.slots = m := by omega
  have hsecond : s'.slots - s₁.slots = n := by omega
  rw [assignedBy_append, h₁.assigned, h₂.assigned, hboth, hfirst, hsecond, hm]
  exact List.range'_append_1

/-- Instructions that assign nothing may come after. -/
theorem snoc (h : s.Fills s' is) (hnothing : assignedBy js = []) : s.Fills s' (is ++ js) :=
  h.append (of_nothing h.session hnothing)

/-- An assignment of the next slot, once its name is defined. -/
theorem define (hs : s.isSession = true) (name : String) :
    s.Fills (s.define name) [⟨.setGlobal, s.slots⟩] := by
  cases s with
  | function level enclosing => cases hs
  | session level =>
    have hnext : ((Scope.session level).define name).slots = (Scope.session level).slots + 1 := rfl
    refine ⟨rfl, hnext ▸ Nat.le_succ _, ?_⟩
    rw [hnext, Nat.add_sub_cancel_left]
    rfl

end Scope.Fills

/-- A command that assigns a slot of a session assigns a global. -/
theorem Site.assignment_of_session {s : Site} (hs : s.scope.isSession = true) (index : Nat) (t : Term) :
    s.assignment index t = .setGlobal index t := by
  unfold assignment
  cases hscope : s.scope with
  | session level => rfl
  | function level enclosing =>
    rw [hscope] at hs
    cases hs

mutual

/-- The code of an expression at the top level assigns the slots that the expression adds. These are the slots
of `let`s in the blocks of conditionals, however deep, but not those in function literals. -/
theorem fills_of_resolveExpr : ∀ (e : Expr) {s s' : Site} {t : Term} (start : Nat),
    s.scope.isSession = true → resolveExpr e s = .ok (t, s') → s.scope.Fills s'.scope (t.layout start)
  | .ident name, s, s', t, start, hs, h => by
    unfold resolveExpr at h
    split at h <;> cases h <;> exact .of_nothing hs rfl
  | .int value, s, s', t, start, hs, h | .str text, s, s', t, start, hs, h
  | .null, s, s', t, start, hs, h => by
    cases h
    exact .of_nothing hs rfl
  | .bool value, s, s', t, start, hs, h => by
    cases h
    refine .of_nothing hs ?_
    cases value <;> rfl
  | .array elements, s, s', t, start, hs, h => by
    obtain ⟨⟨terms, s₁⟩, helements, h⟩ := bind_eq_ok_iff.mp h
    cases h
    exact (fills_of_resolveExprs elements start hs helements).snoc rfl
  | .unary op operand, s, s', t, start, hs, h => by
    obtain ⟨⟨t₁, s₁⟩, hoperand, h⟩ := bind_eq_ok_iff.mp h
    cases h
    refine (fills_of_resolveExpr operand start hs hoperand).snoc ?_
    cases op <;> rfl
  -- The right operand of `<` is compiled first, and so are the slots that it adds.
  | .binary op left right, s, s', t, start, hs, h => by
    unfold resolveExpr at h
    split at h
    · rename_i hless
      obtain ⟨⟨t₂, s₁⟩, hright, h⟩ := bind_eq_ok_iff.mp h
      obtain ⟨⟨t₁, s₂⟩, hleft, h⟩ := bind_eq_ok_iff.mp h
      cases h
      unfold Term.layout
      rw [if_pos hless]
      have hfirst := fills_of_resolveExpr right start hs hright
      exact hfirst.append ((fills_of_resolveExpr left _ hfirst.session hleft).snoc rfl)
    · rename_i hless
      obtain ⟨⟨t₁, s₁⟩, hleft, h⟩ := bind_eq_ok_iff.mp h
      obtain ⟨⟨t₂, s₂⟩, hright, h⟩ := bind_eq_ok_iff.mp h
      cases h
      unfold Term.layout
      rw [if_neg hless]
      have hfirst := fills_of_resolveExpr left start hs hleft
      refine hfirst.append ((fills_of_resolveExpr right _ hfirst.session hright).snoc ?_)
      cases op <;> rfl
  | .cond condition consequence alternative, s, s', t, start, hs, h => by
    unfold resolveExpr at h
    obtain ⟨⟨test, s₁⟩, htest, h⟩ := bind_eq_ok_iff.mp h
    obtain ⟨⟨yes, s₂⟩, hyes, h⟩ := bind_eq_ok_iff.mp h
    have hcondition := fills_of_resolveExpr condition start hs htest
    have hconsequence := fun start =>
      fills_of_resolveBlock consequence start hcondition.session hyes
    -- The jumps between the branches assign nothing. Both branches are in the code, one after the other,
    -- whichever is taken.
    have hjump : ∀ {s : Scope} (i : Instr), s.isSession = true → i.opcode ≠ .setGlobal →
        s.Fills s [i] := fun i hs hi => .of_nothing hs (List.filterMap_cons_none (if_neg hi))
    cases alternative with
    | none =>
      cases h
      unfold Term.layout
      exact hcondition.append (.append (hjump _ hcondition.session Opcode.noConfusion)
        ((hconsequence _).append (.append (hjump _ (hconsequence 0).session Opcode.noConfusion)
          (.of_nothing (hconsequence 0).session rfl))))
    | some body =>
      obtain ⟨⟨no, s₃⟩, hno, h⟩ := bind_eq_ok_iff.mp h
      cases h
      unfold Term.layout
      exact hcondition.append (.append (hjump _ hcondition.session Opcode.noConfusion)
        ((hconsequence _).append (.append (hjump _ (hconsequence 0).session Opcode.noConfusion)
          (fills_of_resolveBlock body _ (hconsequence 0).session hno))))
  -- What a function literal declares are locals of its own.
  | .function params body, s, s', t, start, hs, h => by
    obtain ⟨⟨commands, inner⟩, -, h⟩ := bind_eq_ok_iff.mp h
    cases h
    exact .of_nothing hs rfl
  | .call callee args, s, s', t, start, hs, h => by
    obtain ⟨⟨t₁, s₁⟩, hcallee, h⟩ := bind_eq_ok_iff.mp h
    obtain ⟨⟨terms, s₂⟩, hargs, h⟩ := bind_eq_ok_iff.mp h
    cases h
    have hfirst := fills_of_resolveExpr callee start hs hcallee
    exact hfirst.append ((fills_of_resolveExprs args _ hfirst.session hargs).snoc rfl)
  | .index collection position, s, s', t, start, hs, h => by
    obtain ⟨⟨t₁, s₁⟩, hcollection, h⟩ := bind_eq_ok_iff.mp h
    obtain ⟨⟨t₂, s₂⟩, hposition, h⟩ := bind_eq_ok_iff.mp h
    cases h
    have hfirst := fills_of_resolveExpr collection start hs hcollection
    exact hfirst.append ((fills_of_resolveExpr position _ hfirst.session hposition).snoc rfl)

theorem fills_of_resolveExprs : ∀ (es : List Expr) {s s' : Site} {terms : List Term} (start : Nat),
    s.scope.isSession = true → resolveExprs es s = .ok (terms, s') →
      s.scope.Fills s'.scope (layoutTerms terms start)
  | [], s, s', terms, start, hs, h => by
    cases h
    exact .of_nothing hs rfl
  | e :: rest, s, s', terms, start, hs, h => by
    obtain ⟨⟨t, s₁⟩, hfirst, h⟩ := bind_eq_ok_iff.mp h
    obtain ⟨⟨ts, s₂⟩, hrest, h⟩ := bind_eq_ok_iff.mp h
    cases h
    have hfills := fills_of_resolveExpr e start hs hfirst
    exact hfills.append (fills_of_resolveExprs rest _ hfills.session hrest)

theorem fills_of_resolveStmt : ∀ (statement : Stmt) {s s' : Site} {c : Command} (start : Nat),
    s.scope.isSession = true → resolveStmt statement s = .ok (c, s') →
      s.scope.Fills s'.scope (c.layout start)
  | .letIn name value, s, s', c, start, hs, h => by
    unfold resolveStmt at h
    split at h
    · -- A function literal adds no slots, and the `let` takes its slot before it.
      rename_i hfunction
      cases value with
      | function params body =>
        obtain ⟨⟨t, s₁⟩, hvalue, h⟩ := bind_eq_ok_iff.mp h
        obtain ⟨⟨commands, inner⟩, -, hvalue⟩ := bind_eq_ok_iff.mp hvalue
        cases hvalue
        cases h
        rw [Site.assignment_of_session]
        · exact Scope.Fills.append (.of_nothing hs rfl) (.define hs name)
        · exact (Scope.isSession_define s.scope name).trans hs
      | _ => cases hfunction
    · obtain ⟨⟨t, s₁⟩, hvalue, h⟩ := bind_eq_ok_iff.mp h
      cases h
      have hfills := fills_of_resolveExpr value start hs hvalue
      rw [Site.assignment_of_session hfills.session]
      exact hfills.append (.define hfills.session name)
  | .ret value, s, s', c, start, hs, h | .throw value, s, s', c, start, hs, h
  | .expr value, s, s', c, start, hs, h => by
    obtain ⟨⟨t, s₁⟩, hvalue, h⟩ := bind_eq_ok_iff.mp h
    cases h
    exact (fills_of_resolveExpr value start hs hvalue).snoc rfl
  | .empty, s, s', c, start, hs, h => by
    cases h
    exact .of_nothing hs rfl

theorem fills_of_resolveStmts : ∀ (p : List Stmt) {s s' : Site} {commands : List Command}
    (start : Nat), s.scope.isSession = true → resolveStmts p s = .ok (commands, s') →
      s.scope.Fills s'.scope (layoutCommands commands start)
  | [], s, s', commands, start, hs, h => by
    cases h
    exact .of_nothing hs rfl
  | statement :: rest, s, s', commands, start, hs, h => by
    obtain ⟨⟨c, s₁⟩, hfirst, h⟩ := bind_eq_ok_iff.mp h
    obtain ⟨⟨cs, s₂⟩, hrest, h⟩ := bind_eq_ok_iff.mp h
    cases h
    have hfills := fills_of_resolveStmt statement start hs hfirst
    exact hfills.append (fills_of_resolveStmts rest _ hfills.session hrest)

theorem fills_of_resolveBlock (p : List Stmt) {s s' : Site} {commands : List Command}
    (start : Nat) (hs : s.scope.isSession = true) (h : resolveStmts p s = .ok (commands, s')) :
    s.scope.Fills s'.scope (layoutBlock commands start) := by
  obtain ⟨hsession, hslots, hassigned⟩ := fills_of_resolveStmts p start hs h
  exact ⟨hsession, hslots, (assignedBy_block commands start).trans hassigned⟩

end

/-! ### What is left of a frame's code -/

theorem stands_iff {start p : Nat} {is : List Instr} {i : Instr} : Stands start is p i ↔
    ∃ before rest, is = before ++ i :: rest ∧ p = start + codeSize before := by
  induction is generalizing start with
  | nil =>
    constructor
    · exact False.elim
    · rintro ⟨before, rest, h, -⟩
      exact absurd h.symm (List.append_ne_nil_of_right_ne_nil _ (List.cons_ne_nil _ _))
  | cons j is ih =>
    constructor
    · rintro (⟨rfl, rfl⟩ | h)
      · exact ⟨[], is, rfl, rfl⟩
      · obtain ⟨before, rest, rfl, rfl⟩ := ih.mp h
        exact ⟨j :: before, rest, rfl, by rw [codeSize_cons, Nat.add_assoc]⟩
    · rintro ⟨before, rest, h, rfl⟩
      cases before with
      | nil =>
        cases h
        exact .inl ⟨rfl, rfl⟩
      | cons k before =>
        cases h
        exact .inr (ih.mpr ⟨before, rest, rfl, by rw [codeSize_cons, Nat.add_assoc]⟩)

/-- Of two places in the same code one comes later. -/
theorem append_of_codeSize_le {before left before' left' : List Instr}
    (h : before ++ left = before' ++ left') (hle : codeSize before ≤ codeSize before') :
    ∃ between, left = between ++ left' ∧ codeSize before' = codeSize before + codeSize between := by
  rcases List.append_eq_append_iff.mp h with ⟨between, rfl, rfl⟩ | ⟨between, rfl, rfl⟩
  · exact ⟨between, rfl, codeSize_append _ _⟩
  · cases between with
    | nil => exact ⟨[], rfl, by rw [List.append_nil]; rfl⟩
    | cons i between =>
      have hpos := i.size_pos
      rw [codeSize_append, codeSize_cons] at hle
      omega

/-- Has a frame got to an instruction of its code, from which on these are left? There is code before it, which
is never executed again. -/
def Frame.Left (frame : Frame) (left : List Instr) : Prop :=
  ∃ P before, left ≠ [] ∧ Leaving P 0 (before ++ left) ∧
    frame.function.code.Splits (before ++ left) ∧ frame.ip = codeSize before

/-- At the start of a function all of its code is left. -/
theorem Frame.Left.start {P : Use → Prop} {f : FunctionCode} {is : List Instr} (base : Nat)
    (hleaving : Leaving P 0 is) (hsplits : f.code.Splits is) : (⟨f, 0, base⟩ : Frame).Left is := by
  refine ⟨P, [], ?_, hleaving, hsplits, rfl⟩
  rintro rfl
  obtain ⟨⟨i, hi⟩, -⟩ := hleaving.closed
  exact hi

/-- The instruction that a frame has got to, and what is left when control goes on from it or jumps. -/
theorem Frame.Left.reads {frame : Frame} {left : List Instr} (h : frame.Left left) :
    ∃ i rest, left = i :: rest ∧
      frame.function.code.fetch frame.ip = .ok ⟨i.opcode, i.operand, frame.ip + i.size⟩ ∧
      (i.opcode.goesOn = true → ({ frame with ip := frame.ip + i.size } : Frame).Left rest) ∧
      (i.opcode.jumps = true →
        ∃ later, later <:+ rest ∧ ({ frame with ip := i.operand } : Frame).Left later) := by
  obtain ⟨P, before, hne, hleaving, hsplits, hip⟩ := h
  obtain ⟨i, rest, rfl⟩ := List.exists_cons_of_ne_nil hne
  obtain ⟨-, -, hgoes, height, -, hbalanced⟩ := hleaving.closed
  have hstands : Stands 0 (before ++ i :: rest) frame.ip i :=
    stands_iff.mpr ⟨before, rest, rfl, by rw [hip, Nat.zero_add]⟩
  -- Wherever an instruction stands, it and what follows are left of the same code.
  have hleft : ∀ {p : Nat} {j : Instr}, Stands 0 (before ++ i :: rest) p j → frame.ip < p →
      ∃ between later, rest = between ++ later ∧ p = frame.ip + i.size + codeSize between ∧
        ({ frame with ip := p } : Frame).Left later := by
    intro p j hj hlt
    obtain ⟨before', rest', hsame, hp⟩ := stands_iff.mp hj
    rw [Nat.zero_add] at hp
    obtain ⟨between, hbetween, hsize⟩ := append_of_codeSize_le hsame (by omega)
    cases between with
    | nil =>
      rw [codeSize_nil] at hsize
      omega
    | cons i' between =>
      obtain ⟨rfl, rfl⟩ := List.cons.inj hbetween
      refine ⟨between, j :: rest', rfl, ?_, P, before', List.cons_ne_nil _ _, ?_, ?_, hp⟩
      · rw [codeSize_cons] at hsize
        omega
      · rw [← hsame]
        exact hleaving
      · rw [← hsame]
        exact hsplits
  -- Going on leaves exactly the rest, and a jump, which goes forward, leaves an end of it.
  refine ⟨i, rest, rfl, hstands.fetch hsplits.holds, fun hgo => ?_, fun hjump => ?_⟩
  · obtain ⟨j, hj⟩ := hgoes _ i hstands hgo
    obtain ⟨between, later, rfl, hsize, hnext⟩ := hleft hj (Nat.lt_add_of_pos_right i.size_pos)
    cases between with
    | nil => exact hnext
    | cons k between =>
      have hpos := k.size_pos
      rw [codeSize_cons] at hsize
      omega
  · obtain ⟨hlt, ⟨j, hj⟩, -⟩ := hbalanced.jumps _ i hstands hjump
    obtain ⟨between, later, rfl, -, htarget⟩ := hleft hj hlt
    exact ⟨later, List.suffix_append between later, htarget⟩

/-! ### Assignments of a run -/

/-- Does the code of a function assign no globals? -/
def FunctionCode.Calm (f : FunctionCode) : Prop :=
  ∃ P is, Leaving P 0 is ∧ f.code.Splits is ∧ assignedBy is = []

/-- The globals that frames may still assign, the active one being the first. A frame may assign those in the
rest of its code, and its callers go on after it. -/
inductive Assigning : List Frame → List Nat → Prop where
  | nil : Assigning [] []
  | cons {frame : Frame} {callers : List Frame} {left : List Instr} {slots : List Nat} :
      frame.Left left → Assigning callers slots →
      Assigning (frame :: callers) (assignedBy left ++ slots)

/-- Wherever control moves, no more globals may be assigned than before. A function that is entered brings none
with it, and one that returns takes along what it did not get to. -/
theorem Assigning.moves {maxFrames : Nat} {i : Instr} {rest : List Instr} {slots : List Nat}
    {frame frame' : Frame} {callers callers' : List Frame}
    (hgoes : i.opcode.goesOn = true → ({ frame with ip := frame.ip + i.size } : Frame).Left rest)
    (hjumps : i.opcode.jumps = true →
      ∃ later, later <:+ rest ∧ ({ frame with ip := i.operand } : Frame).Left later)
    (hcallers : Assigning callers slots)
    (h : Moves FunctionCode.Calm maxFrames i frame callers frame' callers') :
    ∃ slots', Assigning (frame' :: callers') slots' ∧ slots'.Sublist (assignedBy rest ++ slots) := by
  cases h with
  | on goes => exact ⟨_, .cons (hgoes goes) hcallers, List.Sublist.refl _⟩
  | jump jumps =>
    obtain ⟨later, hsuffix, hleft⟩ := hjumps jumps
    exact ⟨_, .cons hleft hcallers, (hsuffix.sublist.filterMap _).append_right slots⟩
  | @enter f base goes hf room =>
    obtain ⟨P, is, hleaving, hsplits, hnothing⟩ := hf
    refine ⟨_, .cons (.start base hleaving hsplits) (.cons (hgoes goes) hcallers), ?_⟩
    rw [hnothing]
    exact List.Sublist.refl _
  | leave hreturn =>
    subst hreturn
    exact ⟨slots, hcallers, List.sublist_append_right _ _⟩

namespace Machine

/-- The assignments that a machine makes in so many instructions, one after the other. -/
def assignments (setting : Setting) : Nat → Array Value → Machine → List (Nat × Value)
  | 0, _, _ => []
  | limit + 1, globals, m =>
    match step setting globals m with
    | .ok (.next m) => assignments setting limit globals m
    | .ok (.assign index v m) =>
      (index, v) :: assignments setting limit (assign globals index v) m
    | .ok (.finish _) | .error _ => []

variable {setting : Setting} {g : Array Value} {m : Machine}

/-- Only one instruction assigns globals, and it names the global. -/
theorem assigns_of_step {frame : Frame} {callers : List Frame} {stack : Array Value} {i : Instr}
    {index : Nat} {v : Value} {m' : Machine}
    (hfetch : frame.function.code.fetch frame.ip = .ok ⟨i.opcode, i.operand, frame.ip + i.size⟩)
    (h : step setting g ⟨frame, callers, stack⟩ = .ok (.assign index v m')) :
    i.assigns = some index := by
  have hleave : ∀ {w : Value} {callers : List Frame} {stack : Array Value} {result : Option Value},
      leave { frame with ip := frame.ip + i.size } callers stack w result ≠
        .ok (.assign index v m') := by
    intro w callers stack result hleft
    unfold leave at hleft
    split at hleft
    · cases hleft
    · obtain ⟨after, -, hleft⟩ := bind_eq_ok_iff.mp hleft
      cases hleft
  rw [step_of_fetch hfetch] at h
  obtain ⟨op, operand⟩ := i
  by_cases hop : op.computes = true
  · rw [execute_of_computes hop] at h
    cases hcompute : compute setting g { frame with ip := frame.ip + Instr.size ⟨op, operand⟩ } op
        operand stack with
    | error cause =>
      rw [hcompute] at h
      cases h
    | ok after =>
      rw [hcompute] at h
      cases h
  · -- Of the instructions that do more than change operands, only one leads to an assignment.
    cases op <;> simp only [execute] at h
    case setGlobal =>
      obtain ⟨⟨w, rest⟩, -, h⟩ := bind_eq_ok_iff.mp h
      cases h
      rfl
    case jump => cases h
    case jumpNotTruthy =>
      obtain ⟨⟨w, rest⟩, -, h⟩ := bind_eq_ok_iff.mp h
      simp only at h
      split at h <;> cases h
    case call =>
      obtain ⟨⟨entered, rest⟩, -, h⟩ := bind_eq_ok_iff.mp h
      cases entered <;> cases h
    case returnValue =>
      obtain ⟨⟨w, rest⟩, -, h⟩ := bind_eq_ok_iff.mp h
      exact absurd h hleave
    case ret => exact absurd h hleave
    case throwValue =>
      obtain ⟨⟨w, rest⟩, -, h⟩ := bind_eq_ok_iff.mp h
      cases h
    all_goals exact absurd rfl hop

/-- Is a machine in the middle of frames that may still assign these globals, with no other functions at hand
than such as assign none? Then functions that are called add nothing to the list. -/
structure Tracked (setting : Setting) (globals : Array Value) (m : Machine) (slots : List Nat) :
    Prop where
  constants : ∀ v ∈ setting.constants, v.MadeOf FunctionCode.Calm
  globals : ∀ v ∈ globals, v.MadeOf FunctionCode.Calm
  stack : ∀ v ∈ m.stack, v.MadeOf FunctionCode.Calm
  frames : Assigning (m.frame :: m.callers) slots

/-- A run assigns some of the globals that its frames may assign, in order. By induction on the instructions:
each one assigns the first of them or none, and leaves a part of the list. -/
theorem Tracked.sublist {slots : List Nat} (h : m.Tracked setting g slots) (limit : Nat) :
    ((assignments setting limit g m).map (·.1)).Sublist slots := by
  induction limit generalizing g m slots with
  | zero => exact List.nil_sublist slots
  | succ limit ih =>
    obtain ⟨frame, callers, stack⟩ := m
    obtain ⟨hconstants, hglobals, hstack, hframes⟩ := h
    cases hframes with
    | cons hleft hcallers =>
    obtain ⟨i, rest, rfl, hfetch, hgoes, hjumps⟩ := hleft.reads
    -- The next instruction is the head of what is left. If it assigns a global, then that is the head of the
    -- list, too.
    unfold assignments
    cases hstep : step setting g ⟨frame, callers, stack⟩ with
    | error cause => exact List.nil_sublist _
    | ok action =>
      have hmoves := step_moves hconstants hglobals hstack hfetch hstep
      cases action with
      | next m' =>
        obtain ⟨hmoves, hstack'⟩ := hmoves
        obtain ⟨slots', hframes', hless⟩ := Assigning.moves hgoes hjumps hcallers hmoves
        refine ((ih ⟨hconstants, hglobals, hstack', hframes'⟩).trans hless).trans ?_
        exact ((List.sublist_cons_self i rest).filterMap _).append_right _
      | assign index v m' =>
        obtain ⟨hmoves, hv, hstack'⟩ := hmoves
        obtain ⟨slots', hframes', hless⟩ := Assigning.moves hgoes hjumps hcallers hmoves
        have hglobals' := madeOf_of_assign hglobals hv index
        have hassigns : assignedBy (i :: rest) = index :: assignedBy rest :=
          List.filterMap_cons_some (assigns_of_step hfetch hstep)
        rw [hassigns]
        exact ((ih ⟨hconstants, hglobals', hstack', hframes'⟩).trans hless).cons_cons index
      | finish value => exact List.nil_sublist _

/-! ### The globals after a run -/

end Machine

/-! ### Sessions -/

/-- The assignments of the run of a unit, one after the other. The number of instructions is the one that is
always enough. -/
def Store.assignments (u : CompiledUnit) (config : RunConfig) (s : Store) : List (Nat × Value) :=
  let pool := s.constants ++ u.constants
  let depth := min s.maxCallDepth config.maxCallDepth
  Machine.assignments ⟨pool, depth⟩
    (instructionLimit (max u.code.size (longestCode pool)) depth) (padded s.globals u.globals)
    ⟨⟨u.main, 0, 0⟩, [], #[]⟩

namespace SessionEngine

variable {config : Config} {e : SessionEngine} {r : Record} {n : SnippetId} {p : Program}
  {u : CompiledUnit} {c' : Compiler}

end SessionEngine

end Notebook
