import Notebook.Proofs.Compiler.Emission
import Notebook.Proofs.Resolution.UseBounds

/-!
What compiles.

Emitting code fails for one reason only: an operand does not fit its field. So a program compiles if
its names resolve and the layout of what they resolve to fits, that of its functions included
(`topLevel_compiles`, `compile_of_fits`). With `topLevel_emits` this says exactly which programs
compile.

The compiler is followed through the program as it goes. The layout of what is still ahead fits, so the
next instruction can be emitted (`emit_of_fits`), and what was emitted so far is the layout of what is
behind (`emitted_of_expr` and its companions). Jumps are patched when their target is known, so they
fail later than they are emitted, if at all (`exists_patchJump`).
-/

namespace Notebook

/-! ### Fitting layouts -/

section

variable {cs : List Command} {start : Nat}

theorem fits_of_block (h : ∀ i ∈ layoutBlock cs start, i.Fits) :
    ∀ i ∈ layoutCommands cs start, i.Fits := by
  have hlayout := layoutBlock_eq cs start
  intro i hi
  split at hlayout
  · rw [hlayout] at hi
    rcases List.mem_append.mp hi with hi | hi
    · exact h i hi
    · rw [List.mem_singleton.mp hi]
      rfl
  · rw [hlayout] at h
    exact h i (List.mem_append_left _ hi)

theorem fits_of_body (h : ∀ i ∈ layoutBody cs start, i.Fits) :
    ∀ i ∈ layoutCommands cs start, i.Fits := by
  have hlayout := layoutBody_eq cs start
  intro i hi
  split at hlayout
  · obtain ⟨is, hcommands, hbody⟩ := hlayout
    rw [hcommands] at hi
    rw [hbody] at h
    rcases List.mem_append.mp hi with hi | hi
    · exact h i (List.mem_append_left _ hi)
    · rw [List.mem_singleton.mp hi]
      rfl
  · rw [hlayout] at h
    exact h i hi
  · rw [hlayout] at h
    exact h i (List.mem_append_left _ hi)

theorem fits_of_assignment {s : Site} {index : Nat} {t : Term}
    (h : ∀ i ∈ (s.assignment index t).layout start, i.Fits) : ∀ i ∈ t.layout start, i.Fits := by
  unfold Site.assignment at h
  split at h <;> exact (List.forall_mem_append.mp h).1

end

namespace Compiler

variable {c c' c₁ c₂ c₃ : Compiler} {rs rs₁ rs₂ : List Routine} {s' : Site}

/-! ### Steps that succeed -/

theorem emit_of_fits {i : Instr} (hzero : i.opcode.operandWidth = .none → i.operand = 0)
    (h : i.Fits) (c : Compiler) : c.emit i.opcode i.operands = .ok (c.extend i) :=
  (emit_eq_ok_iff i hzero).mpr ⟨h, rfl⟩

/-- An instruction without operand can always be emitted. -/
theorem emit_plain (op : Opcode) (h : op.operandWidth = .none) (c : Compiler) :
    c.emit op [] = .ok (c.extend ⟨op, 0⟩) := by
  have hfits : Instr.Fits ⟨op, 0⟩ := by simp only [Instr.Fits, h]
  have hoperands : Instr.operands ⟨op, 0⟩ = [] := by simp only [Instr.operands, h]
  have hemit := emit_of_fits (i := ⟨op, 0⟩) (fun _ => rfl) hfits c
  rwa [hoperands] at hemit

theorem exists_patchJump (h : c.here < 65536) (position : Nat) :
    ∃ c', c.patchJump position = .ok c' := by
  obtain ⟨scope, offset, ⟨code, last, previous⟩, constants, declarations⟩ := c
  obtain ⟨patched, hpatched⟩ : ∃ patched, code.patchWord position code.size = .ok patched :=
    Code.exists_patchWord_iff.mpr h
  unfold patchJump onBuffer Buffer.patchJump
  simp only [hpatched]
  exact ⟨_, rfl⟩

theorem exists_closeBlock (c : Compiler) : ∃ c', c.closeBlock = .ok c' := by
  unfold closeBlock
  split
  · exact ⟨_, rfl⟩
  · exact ⟨_, emit_plain _ rfl c⟩

theorem exists_closeBody (c : Compiler) : ∃ c', c.closeBody = .ok c' := by
  unfold closeBody
  split
  · exact ⟨_, emit_plain _ rfl _⟩
  · split
    · exact ⟨_, rfl⟩
    · exact ⟨_, emit_plain _ rfl c⟩

theorem exists_emitConstant (h : Instr.Fits ⟨.constant, c.constants.size⟩) (v : Value) :
    ∃ c', c.emitConstant v = .ok c' :=
  ⟨_, emit_of_fits (i := ⟨.constant, c.constants.size⟩) (fun hw => by cases hw) h _⟩

theorem exists_emitAssignment (name : String) {index start : Nat} {t : Term}
    (h : ∀ i ∈ ((c.site rs).assignment index t).layout start, i.Fits) :
    ∃ c', c.emitAssignment name index = .ok c' := by
  have hsame : (c.site rs).scope = c.scope := rfl
  unfold Site.assignment at h
  rw [hsame] at h
  unfold emitAssignment
  cases hscope : c.scope with
  | session level =>
    rw [hscope] at h
    have hfits : Instr.Fits ⟨.setGlobal, index⟩ := h _ (List.mem_append_right _ (by simp))
    exact ⟨_, bind_eq_ok_iff.mpr
      ⟨_, emit_of_fits (i := ⟨.setGlobal, index⟩) (fun hw => by cases hw) hfits c, rfl⟩⟩
  | function level enclosing =>
    rw [hscope] at h
    have hfits : Instr.Fits ⟨.setLocal, index⟩ := h _ (List.mem_append_right _ (by simp))
    exact ⟨_, emit_of_fits (i := ⟨.setLocal, index⟩) (fun hw => by cases hw) hfits c⟩

/-- A conditional can be compiled up to the end of its first way, if its first jump fits. -/
theorem exists_openCond {test : Term} {yes : List Command}
    (htest : Emitted c c₁ rs rs₁ (test.layout c.here))
    (hyes : Emitted (c₁.extend ⟨.jumpNotTruthy, Steps.unpatched⟩) c₃ rs₁ rs₂
      (layoutCommands yes (c₁.extend ⟨.jumpNotTruthy, Steps.unpatched⟩).here))
    (hends : Ends (closingOf yes) (c₁.extend ⟨.jumpNotTruthy, Steps.unpatched⟩) c₃)
    (hfits : Instr.Fits ⟨.jumpNotTruthy, c.here + codeSize (test.layout c.here) + 3 +
      codeSize (layoutBlock yes (c.here + codeSize (test.layout c.here) + 3)) + 3⟩) :
    ∃ c₄ c₅ c₆, c₃.closeBlock = .ok c₄ ∧ c₄.emit .jump [Steps.unpatched] = .ok c₅ ∧
      c₅.patchJump c₁.here = .ok c₆ := by
  obtain ⟨c₄, hclose⟩ := exists_closeBlock c₃
  obtain ⟨hblock, -⟩ := closeBlock_emits rfl hyes hends hclose
  have hskip := emit_of_fits (i := ⟨.jump, Steps.unpatched⟩) (fun hw => by cases hw)
    (show Steps.unpatched < 65536 by decide) c₄
  have hstart : (c₁.extend ⟨.jumpNotTruthy, Steps.unpatched⟩).here =
      c.here + codeSize (test.layout c.here) + 3 := by
    rw [here_extend, htest.here]
    rfl
  have hhere : (c₄.extend ⟨.jump, Steps.unpatched⟩).here < 65536 := by
    rw [here_extend, hblock.here, hstart]
    exact hfits
  obtain ⟨c₆, hpatch⟩ := exists_patchJump hhere c₁.here
  exact ⟨c₄, _, c₆, hclose, hskip, hpatch⟩

/-! ### What was compiled -/

theorem emitted_of_expr {e : Expr} {t : Term} (h : expr e c = .ok c')
    (hres : resolveExpr e (c.site rs) = .ok (t, s')) :
    ∃ rs', s' = c'.site rs' ∧ Emitted c c' rs rs' (t.layout c.here) := by
  obtain ⟨t₁, rs', hres₁, hemitted⟩ := expr_emits e rs h
  cases hres.symm.trans hres₁
  exact ⟨rs', rfl, hemitted⟩

theorem emitted_of_exprs {es : List Expr} {ts : List Term} (h : exprs es c = .ok c')
    (hres : resolveExprs es (c.site rs) = .ok (ts, s')) :
    ∃ rs', s' = c'.site rs' ∧ ts.length = es.length ∧
      Emitted c c' rs rs' (layoutTerms ts c.here) := by
  obtain ⟨ts₁, rs', hres₁, hlength, hemitted⟩ := exprs_emits es rs h
  cases hres.symm.trans hres₁
  exact ⟨rs', rfl, hlength, hemitted⟩

theorem emitted_of_stmt {s : Stmt} {cmd : Command} (h : stmt s c = .ok c')
    (hres : resolveStmt s (c.site rs) = .ok (cmd, s')) :
    ∃ rs', s' = c'.site rs' ∧ Emitted c c' rs rs' (cmd.layout c.here) := by
  obtain ⟨cmd₁, rs', hres₁, hemitted, -⟩ := stmt_emits s rs h
  cases hres.symm.trans hres₁
  exact ⟨rs', rfl, hemitted⟩

theorem emitted_of_stmts {ss : List Stmt} {cs : List Command} (h : stmts ss c = .ok c')
    (hres : resolveStmts ss (c.site rs) = .ok (cs, s')) :
    ∃ rs', s' = c'.site rs' ∧ Emitted c c' rs rs' (layoutCommands cs c.here) ∧
      Ends (closingOf cs) c c' := by
  obtain ⟨cs₁, rs', hres₁, hemitted, hends⟩ := stmts_emits ss rs h
  cases hres.symm.trans hres₁
  exact ⟨rs', rfl, hemitted, hends⟩

/-- An expression compiles, and then what comes after it, if that compiles at the place where the layout
of the expression ends. -/
theorem exists_then {e : Expr} {t : Term} {s₁ : Site} {uses : List Use}
    {next : Compiler → Except CompileError Compiler} (hvalid : c.scope.Valid)
    (hres : resolveExpr e (c.site rs) = .ok (t, s₁))
    (hfirst : (∀ r ∈ s₁.routines, r.Laid) → ∃ c', expr e c = .ok c')
    (hleads : s₁.scope.Valid → s₁.Leads s' uses) (hlaid : ∀ r ∈ s'.routines, r.Laid)
    (hnext : ∀ c₁ rs₁, s₁ = c₁.site rs₁ → c₁.scope.Valid →
      c₁.here = c.here + codeSize (t.layout c.here) → ∃ c', next c₁ = .ok c') :
    ∃ c', (expr e c >>= next) = .ok c' := by
  have hvalid₁ : s₁.scope.Valid := (resolveExpr_leads e hvalid hres).valid
  obtain ⟨c₁, hcompiled⟩ := hfirst fun r hr => hlaid r ((hleads hvalid₁).routines r hr)
  obtain ⟨rs₁, rfl, hemitted⟩ := emitted_of_expr hcompiled hres
  obtain ⟨c', hlast⟩ := hnext c₁ rs₁ rfl hvalid₁ hemitted.here
  exact ⟨c', bind_eq_ok_iff.mpr ⟨c₁, hcompiled, hlast⟩⟩

/-! ### The walk -/

mutual

/-- An expression compiles if it resolves and its layout fits. Where a part of it starts is known from the
layout of what comes before, since that part compiled and `expr_emits` says what it emitted. -/
theorem expr_compiles : ∀ (e : Expr) {c : Compiler} {rs : List Routine} {t : Term} {s' : Site},
    c.scope.Valid → resolveExpr e (c.site rs) = .ok (t, s') →
    (∀ i ∈ t.layout c.here, i.Fits) → (∀ r ∈ s'.routines, r.Laid) → ∃ c', expr e c = .ok c'
  -- A name emits one instruction, which is that of the term it resolves to.
  | .ident name, c, rs, t, s', hvalid, hres, hfits, hlaid => by
    have hscope : (c.site rs).scope = c.scope := rfl
    unfold resolveExpr at hres
    rw [hscope] at hres
    show ∃ c', c.emitReference name = .ok c'
    split at hres <;> cases hres <;> rename_i hname <;> unfold emitReference <;> rw [hname] <;>
      simp only [Term.layout, List.mem_singleton, forall_eq] at hfits
    · exact ⟨_, emit_of_fits (i := ⟨.getGlobal, _⟩) (fun hw => by cases hw) hfits c⟩
    · exact ⟨_, emit_of_fits (i := ⟨.getLocal, _⟩) (fun hw => by cases hw) hfits c⟩
    · exact ⟨_, emit_of_fits (i := ⟨.getBuiltin, _⟩) (fun hw => by cases hw) hfits c⟩
  | .int value, c, rs, t, s', hvalid, hres, hfits, hlaid => by
    cases hres
    exact exists_emitConstant (hfits _ (List.mem_singleton_self _)) _
  | .str text, c, rs, t, s', hvalid, hres, hfits, hlaid => by
    cases hres
    exact exists_emitConstant (hfits _ (List.mem_singleton_self _)) _
  | .bool true, c, rs, t, s', hvalid, hres, hfits, hlaid =>
    ⟨_, emit_plain .pushTrue rfl c⟩
  | .bool false, c, rs, t, s', hvalid, hres, hfits, hlaid =>
    ⟨_, emit_plain .pushFalse rfl c⟩
  | .null, c, rs, t, s', hvalid, hres, hfits, hlaid =>
    ⟨_, emit_plain .pushNull rfl c⟩
  | .array elements, c, rs, t, s', hvalid, hres, hfits, hlaid => by
    obtain ⟨⟨ts, s₁⟩, hterms, hres⟩ := bind_eq_ok_iff.mp hres
    cases hres
    obtain ⟨hfits₁, hlast⟩ := List.forall_mem_append.mp hfits
    obtain ⟨c₁, helements⟩ := exprs_compiles elements hvalid hterms hfits₁ hlaid
    obtain ⟨rs₁, rfl, hlength, -⟩ := emitted_of_exprs helements hterms
    rw [hlength] at hlast
    exact ⟨_, bind_eq_ok_iff.mpr ⟨c₁, helements, emit_of_fits (i := ⟨.array, elements.length⟩)
      (fun hw => by cases hw) (hlast _ (List.mem_singleton_self _)) c₁⟩⟩
  | .unary op operand, c, rs, t, s', hvalid, hres, hfits, hlaid => by
    obtain ⟨⟨t₁, s₁⟩, hterm, hres⟩ := bind_eq_ok_iff.mp hres
    cases hres
    obtain ⟨hfits₁, -⟩ := List.forall_mem_append.mp hfits
    obtain ⟨c₁, hoperand⟩ := expr_compiles operand hvalid hterm hfits₁ hlaid
    exact ⟨_, bind_eq_ok_iff.mpr ⟨c₁, hoperand, emit_plain op.opcode (by cases op <;> rfl) c₁⟩⟩
  -- The operand that is compiled first is the right one for `<`, and the left one otherwise.
  | .binary op left right, c, rs, t, s', hvalid, hres, hfits, hlaid => by
    unfold resolveExpr at hres
    by_cases hless : op = .less
    · subst hless
      rw [if_pos rfl] at hres
      obtain ⟨⟨second, s₁⟩, hres₁, hres⟩ := bind_eq_ok_iff.mp hres
      obtain ⟨⟨first, s₂⟩, hres₂, hres⟩ := bind_eq_ok_iff.mp hres
      cases hres
      obtain ⟨hfits₁, hfits⟩ := List.forall_mem_append.mp hfits
      obtain ⟨hfits₂, -⟩ := List.forall_mem_append.mp hfits
      refine exists_then hvalid hres₁ (expr_compiles right hvalid hres₁ hfits₁)
        (resolveExpr_leads left · hres₂) hlaid ?_
      rintro c₁ rs₁ rfl hvalid₁ hhere
      rw [← hhere] at hfits₂
      obtain ⟨c₂, hleft⟩ := expr_compiles left hvalid₁ hres₂ hfits₂ hlaid
      exact ⟨_, bind_eq_ok_iff.mpr ⟨c₂, hleft, emit_plain .greaterThan rfl c₂⟩⟩
    · rw [if_neg hless] at hres
      obtain ⟨⟨first, s₁⟩, hres₁, hres⟩ := bind_eq_ok_iff.mp hres
      obtain ⟨⟨second, s₂⟩, hres₂, hres⟩ := bind_eq_ok_iff.mp hres
      cases hres
      rw [Term.layout, if_neg hless] at hfits
      obtain ⟨hfits₁, hfits⟩ := List.forall_mem_append.mp hfits
      obtain ⟨hfits₂, -⟩ := List.forall_mem_append.mp hfits
      rw [expr_binary hless]
      refine exists_then hvalid hres₁ (expr_compiles left hvalid hres₁ hfits₁)
        (resolveExpr_leads right · hres₂) hlaid ?_
      rintro c₁ rs₁ rfl hvalid₁ hhere
      rw [← hhere] at hfits₂
      obtain ⟨c₂, hright⟩ := expr_compiles right hvalid₁ hres₂ hfits₂ hlaid
      exact ⟨_, bind_eq_ok_iff.mpr ⟨c₂, hright, emit_plain op.opcode (by cases op <;> rfl) c₂⟩⟩
  | .cond condition consequence alternative, c, rs, t, s', hvalid, hres, hfits, hlaid => by
    unfold resolveExpr at hres
    obtain ⟨⟨test, s₁⟩, hres₁, hres⟩ := bind_eq_ok_iff.mp hres
    obtain ⟨⟨yes, s₂⟩, hres₂, hres⟩ := bind_eq_ok_iff.mp hres
    have hleads₁ := resolveExpr_leads condition hvalid hres₁
    have hleads₂ := resolveStmts_leads consequence hleads₁.valid hres₂
    let start := c.here + codeSize (test.layout c.here) + 3
    -- What is known up to the end of the first way does not depend on whether there is a second one.
    obtain ⟨hfits₁, hjump, hfits₂, hlaid₂⟩ : (∀ i ∈ test.layout c.here, i.Fits) ∧
        Instr.Fits ⟨.jumpNotTruthy, start + codeSize (layoutBlock yes start) + 3⟩ ∧
        (∀ i ∈ layoutBlock yes start, i.Fits) ∧ ∀ r ∈ s₂.routines, r.Laid := by
      cases alternative with
      | none =>
        cases hres
        obtain ⟨hfits₁, hfits⟩ := List.forall_mem_append.mp hfits
        obtain ⟨hjump, hfits⟩ := List.forall_mem_cons.mp hfits
        exact ⟨hfits₁, hjump, (List.forall_mem_append.mp hfits).1, hlaid⟩
      | some body =>
        obtain ⟨⟨no, s₃⟩, hres₃, hres⟩ := bind_eq_ok_iff.mp hres
        cases hres
        have hleads₃ := resolveStmts_leads body hleads₂.valid hres₃
        obtain ⟨hfits₁, hfits⟩ := List.forall_mem_append.mp hfits
        obtain ⟨hjump, hfits⟩ := List.forall_mem_cons.mp hfits
        exact ⟨hfits₁, hjump, (List.forall_mem_append.mp hfits).1,
          fun r hr => hlaid r (hleads₃.routines r hr)⟩
    obtain ⟨c₁, htest⟩ := expr_compiles condition hvalid hres₁ hfits₁
      fun r hr => hlaid₂ r (hleads₂.routines r hr)
    obtain ⟨rs₁, rfl, hsteps₁⟩ := emitted_of_expr htest hres₁
    have hbranch := emit_of_fits (i := ⟨.jumpNotTruthy, Steps.unpatched⟩) (fun hw => by cases hw)
      (show Steps.unpatched < 65536 by decide) c₁
    have hstart : (c₁.extend ⟨.jumpNotTruthy, Steps.unpatched⟩).here = start := by
      rw [here_extend, hsteps₁.here]
      rfl
    rw [← hstart] at hfits₂
    obtain ⟨c₃, hyes⟩ := stmts_compiles consequence hleads₁.valid
      (c := c₁.extend ⟨.jumpNotTruthy, Steps.unpatched⟩) hres₂ (fits_of_block hfits₂) hlaid₂
    obtain ⟨rs₂, rfl, hsteps₂, hends₂⟩ := emitted_of_stmts hyes hres₂
    -- The first way is closed and its jump patched. The target is that of the layout, which fits.
    obtain ⟨c₄, c₅, c₆, hclose, hskip, hpatch⟩ := exists_openCond hsteps₁ hsteps₂ hends₂ hjump
    obtain ⟨-, -, hend, hpop, hsite⟩ :=
      hsteps₁.openCond hbranch hsteps₂ hends₂ hclose hskip hpatch
    rw [expr_cond]
    cases alternative with
    | none =>
      cases hres
      have hhere : (c₆.extend ⟨.pushNull, 0⟩).here < 65536 := by
        rw [here_extend, hend]
        exact hfits _ (List.mem_append_right _ (List.mem_cons_of_mem _
          (List.mem_append_right _ List.mem_cons_self)))
      obtain ⟨c', hjoin⟩ := exists_patchJump hhere c₄.here
      exact ⟨c', bind_eq_ok_iff.mpr ⟨c₁, htest, bind_eq_ok_iff.mpr ⟨_, hbranch,
        bind_eq_ok_iff.mpr ⟨c₃, hyes, bind_eq_ok_iff.mpr ⟨c₄, hclose,
        bind_eq_ok_iff.mpr ⟨c₅, hskip, bind_eq_ok_iff.mpr ⟨c₆, hpatch,
        bind_eq_ok_iff.mpr ⟨_, emit_plain .pushNull rfl c₆, hjoin⟩⟩⟩⟩⟩⟩⟩⟩
    | some body =>
      obtain ⟨⟨no, s₃⟩, hres₃, hres⟩ := bind_eq_ok_iff.mp hres
      cases hres
      have hsecond := (List.forall_mem_cons.mp (List.forall_mem_append.mp (List.forall_mem_cons.mp
        (List.forall_mem_append.mp hfits).2).2).2)
      have hvalid₆ : c₆.scope.Valid := by
        rw [show c₆.scope = c₃.scope from congrArg Site.scope (hsite [])]
        exact hleads₂.valid
      rw [← hsite] at hres₃
      have hfits₃ : ∀ i ∈ layoutBlock no c₆.here, i.Fits := by
        rw [hend]
        exact hsecond.2
      obtain ⟨c₇, hbody⟩ := stmts_compiles body hvalid₆ hres₃ (fits_of_block hfits₃) hlaid
      obtain ⟨rs₃, rfl, hsteps₃, hends₃⟩ := emitted_of_stmts hbody hres₃
      obtain ⟨c₈, hclosed⟩ := exists_closeBlock c₇
      obtain ⟨hblock, -⟩ := closeBlock_emits hpop hsteps₃ hends₃ hclosed
      have hhere : c₈.here < 65536 := by
        rw [hblock.here, hend]
        exact hsecond.1
      obtain ⟨c', hjoin⟩ := exists_patchJump hhere c₄.here
      exact ⟨c', bind_eq_ok_iff.mpr ⟨c₁, htest, bind_eq_ok_iff.mpr ⟨_, hbranch,
        bind_eq_ok_iff.mpr ⟨c₃, hyes, bind_eq_ok_iff.mpr ⟨c₄, hclose,
        bind_eq_ok_iff.mpr ⟨c₅, hskip, bind_eq_ok_iff.mpr ⟨c₆, hpatch,
        bind_eq_ok_iff.mpr ⟨c₇, hbody, bind_eq_ok_iff.mpr ⟨c₈, hclosed, hjoin⟩⟩⟩⟩⟩⟩⟩⟩⟩
  -- The inside is compiled with an empty buffer, so its layout starts at 0 as a routine's does.
  | .function params body, c, rs, t, s', hvalid, hres, hfits, hlaid => by
    obtain ⟨⟨commands, inner⟩, hbody, hres⟩ := bind_eq_ok_iff.mp hres
    cases hres
    have hroutine : (inner.routine params commands).Laid :=
      hlaid _ (List.mem_append_right _ (List.mem_singleton_self _))
    obtain ⟨c₁, hstmts⟩ := stmts_compiles body (c := { c with scope := c.scope.enter params, buffer := {} })
      (hvalid.enter params) hbody (fits_of_body hroutine.2)
      fun r hr => hlaid r (List.mem_append_left _ hr)
    obtain ⟨rs₁, rfl, hsteps, hends⟩ := emitted_of_stmts hstmts hbody
    obtain ⟨c₂, hclose⟩ := exists_closeBody c₁
    obtain ⟨-, hsite⟩ := closeBody_emits rfl hsteps hends hclose
    have hconstants : c₂.constants = c₁.constants := congrArg Site.constants (hsite [])
    have hfits : Instr.Fits ⟨.constant, c₂.constants.size⟩ := by
      rw [hconstants]
      exact hfits _ (List.mem_singleton_self _)
    obtain ⟨c', hconstant⟩ := exists_emitConstant
      (c := { c₂ with scope := c.scope, buffer := c.buffer }) hfits
      (.function ⟨c₂.buffer.code, c₂.constantsOffset, c₂.scope.slots, params.length⟩)
    exact ⟨c', bind_eq_ok_iff.mpr ⟨c₁, hstmts, bind_eq_ok_iff.mpr ⟨c₂, hclose, hconstant⟩⟩⟩
  | .call callee args, c, rs, t, s', hvalid, hres, hfits, hlaid => by
    obtain ⟨⟨function, s₁⟩, hres₁, hres⟩ := bind_eq_ok_iff.mp hres
    obtain ⟨⟨terms, s₂⟩, hres₂, hres⟩ := bind_eq_ok_iff.mp hres
    cases hres
    obtain ⟨hfits₁, hfits⟩ := List.forall_mem_append.mp hfits
    obtain ⟨hfits₂, hlast⟩ := List.forall_mem_append.mp hfits
    refine exists_then hvalid hres₁ (expr_compiles callee hvalid hres₁ hfits₁)
      (resolveExprs_leads args · hres₂) hlaid ?_
    rintro c₁ rs₁ rfl hvalid₁ hhere
    rw [← hhere] at hfits₂
    obtain ⟨c₂, hargs⟩ := exprs_compiles args hvalid₁ hres₂ hfits₂ hlaid
    obtain ⟨rs₂, rfl, hlength, -⟩ := emitted_of_exprs hargs hres₂
    rw [hlength] at hlast
    exact ⟨_, bind_eq_ok_iff.mpr ⟨c₂, hargs, emit_of_fits (i := ⟨.call, args.length⟩)
      (fun hw => by cases hw) (hlast _ (List.mem_singleton_self _)) c₂⟩⟩
  | .index collection position, c, rs, t, s', hvalid, hres, hfits, hlaid => by
    obtain ⟨⟨first, s₁⟩, hres₁, hres⟩ := bind_eq_ok_iff.mp hres
    obtain ⟨⟨second, s₂⟩, hres₂, hres⟩ := bind_eq_ok_iff.mp hres
    cases hres
    obtain ⟨hfits₁, hfits⟩ := List.forall_mem_append.mp hfits
    obtain ⟨hfits₂, -⟩ := List.forall_mem_append.mp hfits
    refine exists_then hvalid hres₁ (expr_compiles collection hvalid hres₁ hfits₁)
      (resolveExpr_leads position · hres₂) hlaid ?_
    rintro c₁ rs₁ rfl hvalid₁ hhere
    rw [← hhere] at hfits₂
    obtain ⟨c₂, hposition⟩ := expr_compiles position hvalid₁ hres₂ hfits₂ hlaid
    exact ⟨_, bind_eq_ok_iff.mpr ⟨c₂, hposition, emit_plain .index rfl c₂⟩⟩

theorem exprs_compiles : ∀ (es : List Expr) {c : Compiler} {rs : List Routine} {ts : List Term}
    {s' : Site}, c.scope.Valid → resolveExprs es (c.site rs) = .ok (ts, s') →
    (∀ i ∈ layoutTerms ts c.here, i.Fits) → (∀ r ∈ s'.routines, r.Laid) →
    ∃ c', exprs es c = .ok c'
  | [], c, rs, ts, s', hvalid, hres, hfits, hlaid => ⟨c, rfl⟩
  | e :: rest, c, rs, ts, s', hvalid, hres, hfits, hlaid => by
    obtain ⟨⟨t, s₁⟩, hres₁, hres⟩ := bind_eq_ok_iff.mp hres
    obtain ⟨⟨terms, s₂⟩, hres₂, hres⟩ := bind_eq_ok_iff.mp hres
    cases hres
    obtain ⟨hfits₁, hfits₂⟩ := List.forall_mem_append.mp hfits
    refine exists_then hvalid hres₁ (expr_compiles e hvalid hres₁ hfits₁)
      (resolveExprs_leads rest · hres₂) hlaid ?_
    rintro c₁ rs₁ rfl hvalid₁ hhere
    rw [← hhere] at hfits₂
    exact exprs_compiles rest hvalid₁ hres₂ hfits₂ hlaid

theorem stmt_compiles : ∀ (s : Stmt) {c : Compiler} {rs : List Routine} {cmd : Command}
    {s' : Site}, c.scope.Valid → resolveStmt s (c.site rs) = .ok (cmd, s') →
    (∀ i ∈ cmd.layout c.here, i.Fits) → (∀ r ∈ s'.routines, r.Laid) → ∃ c', stmt s c = .ok c'
  | .letIn name value, c, rs, cmd, s', hvalid, hres, hfits, hlaid => by
    unfold resolveStmt at hres
    rw [stmt_letIn]
    split at hres
    · obtain ⟨⟨t, s₁⟩, hterm, hres⟩ := bind_eq_ok_iff.mp hres
      cases hres
      obtain ⟨c₁, hvalue⟩ := expr_compiles value (c := { c with scope := c.scope.define name })
        (hvalid.define name) hterm (fits_of_assignment hfits) hlaid
      obtain ⟨rs₁, rfl, -⟩ := emitted_of_expr hvalue hterm
      obtain ⟨c', hassign⟩ := exists_emitAssignment name hfits
      rw [if_pos ‹_›]
      exact ⟨c', bind_eq_ok_iff.mpr ⟨c₁, hvalue, hassign⟩⟩
    · obtain ⟨⟨t, s₁⟩, hterm, hres⟩ := bind_eq_ok_iff.mp hres
      cases hres
      obtain ⟨c₁, hvalue⟩ := expr_compiles value hvalid hterm (fits_of_assignment hfits) hlaid
      obtain ⟨rs₁, rfl, -⟩ := emitted_of_expr hvalue hterm
      rw [← Site.assignment_define _ name] at hfits
      obtain ⟨c', hassign⟩ := exists_emitAssignment name
        (c := { c₁ with scope := c₁.scope.define name }) hfits
      rw [if_neg ‹_›]
      exact ⟨c', bind_eq_ok_iff.mpr ⟨c₁, hvalue, hassign⟩⟩
  | .ret value, c, rs, cmd, s', hvalid, hres, hfits, hlaid => by
    obtain ⟨⟨t, s₁⟩, hterm, hres⟩ := bind_eq_ok_iff.mp hres
    cases hres
    obtain ⟨hfits₁, -⟩ := List.forall_mem_append.mp hfits
    obtain ⟨c₁, hvalue⟩ := expr_compiles value hvalid hterm hfits₁ hlaid
    exact ⟨_, bind_eq_ok_iff.mpr
      ⟨c₁, hvalue, emit_plain .returnValue rfl c₁⟩⟩
  | .throw value, c, rs, cmd, s', hvalid, hres, hfits, hlaid => by
    obtain ⟨⟨t, s₁⟩, hterm, hres⟩ := bind_eq_ok_iff.mp hres
    cases hres
    obtain ⟨hfits₁, -⟩ := List.forall_mem_append.mp hfits
    obtain ⟨c₁, hvalue⟩ := expr_compiles value hvalid hterm hfits₁ hlaid
    exact ⟨_, bind_eq_ok_iff.mpr
      ⟨c₁, hvalue, emit_plain .throwValue rfl c₁⟩⟩
  | .expr value, c, rs, cmd, s', hvalid, hres, hfits, hlaid => by
    obtain ⟨⟨t, s₁⟩, hterm, hres⟩ := bind_eq_ok_iff.mp hres
    cases hres
    obtain ⟨hfits₁, -⟩ := List.forall_mem_append.mp hfits
    obtain ⟨c₁, hvalue⟩ := expr_compiles value hvalid hterm hfits₁ hlaid
    exact ⟨_, bind_eq_ok_iff.mpr
      ⟨c₁, hvalue, emit_plain .pop rfl c₁⟩⟩
  | .empty, c, rs, cmd, s', hvalid, hres, hfits, hlaid => ⟨c, rfl⟩

theorem stmts_compiles : ∀ (ss : List Stmt) {c : Compiler} {rs : List Routine}
    {cs : List Command} {s' : Site}, c.scope.Valid →
    resolveStmts ss (c.site rs) = .ok (cs, s') → (∀ i ∈ layoutCommands cs c.here, i.Fits) →
    (∀ r ∈ s'.routines, r.Laid) → ∃ c', stmts ss c = .ok c'
  | [], c, rs, cs, s', hvalid, hres, hfits, hlaid => ⟨c, rfl⟩
  | s :: rest, c, rs, cs, s', hvalid, hres, hfits, hlaid => by
    obtain ⟨⟨cmd, s₁⟩, hres₁, hres⟩ := bind_eq_ok_iff.mp hres
    obtain ⟨⟨commands, s₂⟩, hres₂, hres⟩ := bind_eq_ok_iff.mp hres
    cases hres
    have hleads₁ := resolveStmt_leads s hvalid hres₁
    have hleads₂ := resolveStmts_leads rest hleads₁.valid hres₂
    obtain ⟨hfits₁, hfits₂⟩ := List.forall_mem_append.mp hfits
    obtain ⟨c₁, hfirst⟩ := stmt_compiles s hvalid hres₁ hfits₁
      fun r hr => hlaid r (hleads₂.routines r hr)
    obtain ⟨rs₁, rfl, hsteps₁⟩ := emitted_of_stmt hfirst hres₁
    rw [← hsteps₁.here] at hfits₂
    obtain ⟨c₂, hrest⟩ := stmts_compiles rest hleads₁.valid hres₂ hfits₂ hlaid
    exact ⟨c₂, bind_eq_ok_iff.mpr ⟨c₁, hfirst, hrest⟩⟩

end

/-- A snippet's top level compiles if it resolves and its layout fits. -/
theorem topLevel_compiles : ∀ (p : Program) {c : Compiler} {rs : List Routine} {cs : List Command}
    {s' : Site}, c.scope.Valid → resolveStmts p (c.site rs) = .ok (cs, s') →
    (∀ i ∈ layoutProgram cs c.here, i.Fits) → (∀ r ∈ s'.routines, r.Laid) →
    ∃ c', topLevel p c = .ok c'
  | [], c, rs, cs, s', hvalid, hres, hfits, hlaid => ⟨_, emit_plain .ret rfl c⟩
  | s :: rest, c, rs, cs, s', hvalid, hres, hfits, hlaid => by
    obtain ⟨⟨cmd, s₁⟩, hres₁, hres⟩ := bind_eq_ok_iff.mp hres
    obtain ⟨⟨commands, s₂⟩, hres₂, hres⟩ := bind_eq_ok_iff.mp hres
    cases hres
    -- The last statement is laid out differently if it is an expression, and all others as in a block.
    by_cases hvalue : ∃ value, s = .expr value ∧ rest = []
    · obtain ⟨value, rfl, rfl⟩ := hvalue
      obtain ⟨⟨t, s₃⟩, hterm, hres₁⟩ := bind_eq_ok_iff.mp hres₁
      cases hres₁
      cases hres₂
      obtain ⟨hfits₁, -⟩ := List.forall_mem_append.mp hfits
      obtain ⟨c₁, hvalue⟩ := expr_compiles value hvalid hterm hfits₁ hlaid
      exact ⟨_, bind_eq_ok_iff.mpr ⟨c₁, hvalue, emit_plain .returnValue rfl c₁⟩⟩
    · have hmiddle : ¬ ∃ value, cmd = .expr value ∧ commands = [] := by
        rintro ⟨t, rfl, rfl⟩
        exact hvalue ⟨_, (eq_expr_of_resolveStmt hres₁).choose_spec, eq_nil_of_resolveStmts hres₂⟩
      rw [layoutProgram_cons hmiddle] at hfits
      have hleads₁ := resolveStmt_leads s hvalid hres₁
      have hleads₂ := resolveStmts_leads rest hleads₁.valid hres₂
      obtain ⟨hfits₁, hfits₂⟩ := List.forall_mem_append.mp hfits
      obtain ⟨c₁, hfirst⟩ := stmt_compiles s hvalid hres₁ hfits₁
        fun r hr => hlaid r (hleads₂.routines r hr)
      obtain ⟨rs₁, rfl, hsteps₁⟩ := emitted_of_stmt hfirst hres₁
      rw [← hsteps₁.here] at hfits₂
      obtain ⟨c₂, hrest⟩ := topLevel_compiles rest hleads₁.valid hres₂ hfits₂ hlaid
      rw [topLevel_cons hvalue]
      exact ⟨c₂, bind_eq_ok_iff.mpr ⟨c₁, hfirst, hrest⟩⟩

/-- A snippet compiles if it resolves and its layout fits. -/
theorem compile_of_fits {p : Program} {cs : List Command} (hbuffer : c.buffer = {})
    (hvalid : c.scope.Valid) (hres : resolveStmts p (c.site rs) = .ok (cs, s'))
    (hfits : ∀ i ∈ layoutProgram cs 0, i.Fits) (hlaid : ∀ r ∈ s'.routines, r.Laid)
    (n : SnippetId) : ∃ u c', c.compile n p = (.ok u, c') := by
  have hhere : c.here = 0 := by
    unfold here
    rw [hbuffer]
    rfl
  rw [← hhere] at hfits
  obtain ⟨done, htop⟩ := topLevel_compiles p hvalid hres hfits hlaid
  unfold compile
  rw [htop]
  exact ⟨_, _, rfl⟩

end Compiler

end Notebook
