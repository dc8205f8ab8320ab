import Notebook.Proofs.Compiler.BufferMemory

/-!
What is remembered while a program is built.

A `Pop` is taken back at the end of a block or of a function's body, while conditionals and functions are under
construction around it, and one of the two instructions that are remembered is then out of date. That the buffers
remember rightly is therefore shown together with what the code ends with (`Watch.Ended`).

* `Watch.expr_values` and its companions: building on from buffers that remember rightly leads to such buffers
  only, and what is taken back is taken back rightly.
* `Builder.History.bookkeeping_sound`: so it is in every builder that there can be.
-/

namespace Notebook

namespace Watch

/-! ### What has been built -/

section

variable {α : Type} {around : List Buffer} {pss : List (List Patch)} {is js ks : List Instr} {b : Buffer}
  {ps : List Patch} {w w' w'' : Watch}

/-- Have these instructions been added, and have only jumps among them been patched? This is what every step of
building comes to, whatever it builds. -/
def Grown (around : List Buffer) (pss : List (List Patch)) (is : List Instr) (ps : List Patch)
    (js : List Instr) (w : Watch) : Prop :=
  ∃ new b, At around pss (is ++ js) b (new ++ ps) w ∧ ∀ p ∈ new, codeSize is ≤ p.position

/-- Do some instructions end with one that is no `Pop`? -/
def EndsValue (is : List Instr) : Prop := ∃ is' i, is = is' ++ [i] ∧ i.opcode ≠ .pop

/-- Have some instructions been added, of which the last is no `Pop`? -/
def Valued (around : List Buffer) (pss : List (List Patch)) (is : List Instr) (ps : List Patch)
    (w : Watch) : Prop :=
  ∃ js, Grown around pss is ps js w ∧ EndsValue js

theorem EndsValue.append (h : EndsValue js) (is : List Instr) : EndsValue (is ++ js) := by
  obtain ⟨js, i, rfl, hi⟩ := h
  exact ⟨is ++ js, i, (List.append_assoc _ _ _).symm, hi⟩

theorem At.grown (h : At around pss is b ps w) : Grown around pss is ps [] w :=
  ⟨[], b, by rwa [List.append_nil], nofun⟩

theorem Grown.trans {new : List Patch} (h : Grown around pss (is ++ js) (new ++ ps) ks w)
    (hnew : ∀ p ∈ new, codeSize is ≤ p.position) : Grown around pss is ps (js ++ ks) w := by
  obtain ⟨more, b, hat, hmore⟩ := h
  rw [List.append_assoc is, ← List.append_assoc more] at hat
  refine ⟨more ++ new, b, hat, fun p hp => ?_⟩
  rcases List.mem_append.mp hp with hp | hp
  · have := hmore p hp
    rw [codeSize_append] at this
    omega
  · exact hnew p hp

/-- How some statements have been built: nothing came of them, or the code ends with an instruction that is no
`Pop`, or it ends with the `Pop` of an expression statement. In the last case it is known which builders there
were before and after its value, since the removal may come much later. -/
inductive Ended (around : List Buffer) (pss : List (List Patch)) (is : List Instr) (ps : List Patch)
    (block : List Stmt) (w : Watch) : Watch → Prop where
  | nothing (hempty : ∀ s ∈ block, s = .empty) : Ended around pss is ps block w w
  | value {w' : Watch} {js : List Instr} (hgrown : Grown around pss is ps js w') (hends : EndsValue js) :
      Ended around pss is ps block w w'
  | pop {earlier later : List Stmt} {value : Expr} {before valued w' : Watch} {js : List Instr}
      (hblock : block = earlier ++ .expr value :: later) (hlater : ∀ s ∈ later, s = .empty)
      (hearlier : stmts earlier w = .ok () before) (hvalue : expr value before = .ok () valued)
      (hpop : Watch.emit .pop [] valued = .ok () w') (hgood : Good valued)
      (hgrown : Grown around pss is ps js valued) (hends : EndsValue js) :
      Ended around pss is ps block w w'

theorem ok_of_watched {m : Watched Unit} {m' : Build Unit} (h : Mirrors m m') (hm : m w = .ok () w') :
    m' w.builder = .ok () w'.builder := by
  rw [← h w, hm]
  rfl

theorem Ended.grown {block : List Stmt} (h : At around pss is b ps w)
    (hended : Ended around pss is ps block w w') : ∃ js, Grown around pss is ps js w' := by
  cases hended with
  | nothing => exact ⟨[], h.grown⟩
  | value hgrown => exact ⟨_, hgrown⟩
  | pop _ _ _ _ hpop hgood hgrown =>
    obtain ⟨new, b₂, hat, hnew⟩ := hgrown
    obtain ⟨-, i, b', -, hat⟩ := (hat.emit hgood .pop []).good_of_ok hpop
    exact ⟨_, Grown.trans ⟨[], b', hat, nofun⟩ hnew⟩

/-- The innermost buffer with a `Pop` at its end. -/
theorem At.popped (h : At around pss is b ps w) (hpop : Watch.emit .pop [] w = .ok () w') :
    w'.builder.buffers = ⟨b.code.append [Opcode.pop.byte], some ⟨.pop, b.code.size⟩, b.last⟩ :: around ∧
      w'.patched = ps :: pss := by
  obtain ⟨⟨buffers, offset, constants, scope, declarations⟩, patched, moments, removals⟩ := w
  obtain ⟨rfl, rfl, -⟩ := h
  cases hpop
  exact ⟨rfl, rfl⟩

/-- The older of the two instructions that were remembered is now remembered twice. -/
theorem dropPop_eq {code : Code} {previous : Option Emitted} (block : List Stmt) (start : Builder)
    (h : w.builder.buffers = ⟨code.append [Opcode.pop.byte], some ⟨.pop, code.size⟩, previous⟩ :: around) :
    let builder := { w.builder with buffers := ⟨code, previous, previous⟩ :: around }
    dropPop block start w = .ok () ⟨builder, w.patched, builder :: builder :: w.moments,
      ⟨block, start, w.builder, w.patched.headD [], ⟨code, previous, previous⟩⟩ :: w.removals⟩ := by
  obtain ⟨⟨buffers, offset, constants, scope, declarations⟩, patched, moments, removals⟩ := w
  cases h
  have hdrop : Buffer.dropPop ⟨code.append [Opcode.pop.byte], some ⟨.pop, code.size⟩, previous⟩ =
      ⟨code, previous, previous⟩ := congrArg (Buffer.mk · previous previous) (Code.take_append code _)
  rw [← hdrop]
  rfl

/-- A `Pop` that was just written is taken back, and the statements end as their value does. The buffer
remembers the instruction before it, so another one could be taken back only after something was written. -/
theorem dropPop_holds {block earlier later : List Stmt} {value : Expr} {before valued popped : Watch}
    (hblock : block = earlier ++ .expr value :: later) (hlater : ∀ s ∈ later, s = .empty)
    (hearlier : stmts earlier w = .ok () before) (hvalue : expr value before = .ok () valued)
    (hpop : Watch.emit .pop [] valued = .ok () popped) (hbuilder : w'.builder = popped.builder)
    (hpatched : w'.patched = popped.patched) (hgood : Good w') (hgrown : Grown around pss is ps js valued)
    (hends : EndsValue js) : Holds (fun _ w'' => Grown around pss is ps js w'') (dropPop block w.builder w') := by
  obtain ⟨new, inner, hat, hnew⟩ := hgrown
  obtain ⟨hbuffers, hpopped⟩ := hat.popped hpop
  rw [← hbuilder] at hbuffers
  rw [dropPop_eq _ _ hbuffers, hpatched, hpopped]
  -- What is left is the buffer from before the `Pop`, but for the older instruction that it remembers.
  have hlaid : Buffer.Laid (is ++ js) ⟨inner.code, inner.last, inner.last⟩ (new ++ ps) :=
    ⟨hat.laid.splits, hat.laid.last, hat.laid.stands⟩
  have haround : ∀ buffer ∈ around, buffer.Sound := fun buffer hbuffer =>
    hgood.buffers buffer (hbuffers ▸ List.mem_cons_of_mem _ hbuffer)
  have hsound := List.forall_mem_cons.mpr ⟨hlaid.sound, haround⟩
  obtain ⟨is', i, hi, hne⟩ := hends.append is
  have hstop := ok_of_watched (mirrors_emit _ _) hpop
  rw [← hbuilder] at hstop
  -- The unwatched builders went through the same steps, which is what the removal is to be judged by.
  have hright : Removal.Right
      ⟨block, w.builder, w'.builder, new ++ ps, ⟨inner.code, inner.last, inner.last⟩⟩ :=
    { ends := ⟨earlier, value, later, hblock, hlater, before.builder, valued.builder, inner, around,
        ok_of_watched (mirrors_stmts earlier) hearlier, ok_of_watched (mirrors_expr value) hvalue, hstop,
        hat.buffers, rfl⟩
      removes := ⟨_, around, hbuffers, by simp [Code.append]⟩
      patched := hlaid.stands
      last := ⟨⟨i.opcode, codeSize is'⟩, by rw [hlaid.last, hi, lastOf_append], hne⟩ }
  have hremovals := List.forall_mem_cons.mpr ⟨hright, hgood.removals⟩
  refine .ok ⟨?_, hsound, hremovals⟩ ⟨new, _, ⟨rfl, rfl, hlaid⟩, hnew⟩
  exact List.forall_mem_cons.mpr ⟨hsound, List.forall_mem_cons.mpr ⟨hsound, hgood.moments⟩⟩

end

/-! ### Steps that build on -/

/-- Does a step build on, whatever there is? -/
def Extends (m : Watched Unit) : Prop :=
  ∀ ⦃around pss is b ps w⦄, Good w → At around pss is b ps w →
    Holds (fun _ w' => ∃ js, Grown around pss is ps js w') (m w)

/-- Does a step build on and end with an instruction that is no `Pop`? -/
def Values (m : Watched Unit) : Prop :=
  ∀ ⦃around pss is b ps w⦄, Good w → At around pss is b ps w →
    Holds (fun _ w' => Valued around pss is ps w') (m w)

section

variable {α : Type} {around : List Buffer} {pss : List (List Patch)} {is js : List Instr} {b : Buffer}
  {ps : List Patch} {m next : Watched Unit} {w w' : Watch}

theorem Values.extends (h : Values m) : Extends m := fun _ _ _ _ _ _ hgood hat =>
  (h hgood hat).imp fun _ _ ⟨js, hgrown, _⟩ => ⟨js, hgrown⟩

theorem extends_pure : Extends (pure ()) := fun _ _ _ _ _ _ hgood hat => .ok hgood ⟨[], hat.grown⟩

theorem Extends.after (h : Extends m) (hgood : Good w) (hgrown : Grown around pss is ps js w) :
    Holds (fun _ w' => ∃ js, Grown around pss is ps js w') (m w) := by
  obtain ⟨new, b, hat, hnew⟩ := hgrown
  exact (h hgood hat).imp fun _ _ ⟨_, hgrown⟩ => ⟨_, hgrown.trans hnew⟩

theorem Values.after (h : Values m) (hgood : Good w) (hgrown : Grown around pss is ps js w) :
    Holds (fun _ w' => Valued around pss is ps w') (m w) := by
  obtain ⟨new, b, hat, hnew⟩ := hgrown
  exact (h hgood hat).imp fun _ _ ⟨_, hgrown, hends⟩ => ⟨_, hgrown.trans hnew, hends.append _⟩

theorem Extends.bind (h : Extends m) (hnext : Extends next) : Extends (m >>= fun _ => next) :=
  fun _ _ _ _ _ _ hgood hat => (h hgood hat).bind fun _ _ _ hgood ⟨_, hgrown⟩ => hnext.after hgood hgrown

theorem Extends.values (h : Extends m) (hnext : Values next) : Values (m >>= fun _ => next) :=
  fun _ _ _ _ _ _ hgood hat => (h hgood hat).bind fun _ _ _ hgood ⟨_, hgrown⟩ => hnext.after hgood hgrown

theorem values_emit (op : Opcode) (operands : List Nat) (hop : op ≠ .pop) : Values (emit op operands) := by
  intro around pss is b ps w hgood hat
  refine (hat.emit hgood op operands).imp ?_
  rintro - w' ⟨i, b', rfl, hat⟩
  exact ⟨[i], ⟨[], b', hat, nofun⟩, [], i, rfl, hop⟩

/-- A step that leaves the buffers alone may come before. -/
theorem Quiet.values {β : Type} {quiet : Build β} (hquiet : Quiet quiet) {next : β → Watched Unit}
    (hnext : ∀ a, Values (next a)) : Values (does quiet >>= next) := fun _ _ _ _ _ _ hgood hat =>
  (hat.quiet hquiet hgood).bind fun a _ _ hgood ⟨hat, _⟩ => hnext a hgood hat

/-- A step that leaves the buffers alone may come after. -/
theorem Values.quiet (h : Values m) {quiet : Build Unit} (hquiet : Quiet quiet) :
    Values (m >>= fun _ => does quiet) := fun _ _ _ _ _ _ hgood hat =>
  (h hgood hat).bind fun _ _ _ hgood ⟨js, ⟨new, b, hat, hnew⟩, hends⟩ =>
    (hat.quiet hquiet hgood).imp fun _ _ ⟨hat, _⟩ => ⟨js, ⟨new, b, hat, hnew⟩, hends⟩

theorem quiet_addConstant (v : Value) : Quiet (Builder.addConstant v) := fun _ => rfl

theorem quiet_define (name : String) : Quiet (Builder.define name) := fun _ => rfl

theorem quiet_declare (name : String) (index : Nat) : Quiet (Builder.declare name index) := fun _ => rfl

theorem values_emitConstant (v : Value) : Values (emitConstant v) :=
  (quiet_addConstant v).values fun _ => values_emit _ _ nofun

/-- What a step is may depend on the builder. -/
theorem values_does {m : Build Unit} (h : ∀ builder, ∃ m', m builder = m' builder ∧ Values (does m')) :
    Values (does m) := by
  intro around pss is b ps w hgood hat
  obtain ⟨m', heq, hm'⟩ := h w.builder
  have hdoes : does m w = does m' w := by
    unfold does
    rw [heq]
  rw [hdoes]
  exact hm' hgood hat

theorem values_error (cause : BuildError) : Values (does fun builder => .error cause builder) :=
  fun _ _ _ _ _ _ hgood _ => .error (hgood.turn hgood.buffers _)

theorem values_emitReference (name : String) : Values (does (Builder.emitReference name)) := by
  refine values_does fun builder => ?_
  unfold Builder.emitReference
  cases Scope.resolve name builder.scope with
  | none => exact ⟨_, rfl, values_error _⟩
  | some reference =>
    cases reference with
    | captured index => exact ⟨_, rfl, values_error _⟩
    | global index => exact ⟨_, rfl, values_emit .getGlobal [index] nofun⟩
    | own index => exact ⟨_, rfl, values_emit .getLocal [index] nofun⟩
    | builtin index => exact ⟨_, rfl, values_emit .getBuiltin [index] nofun⟩

theorem values_emitAssignment (name : String) (index : Nat) : Values (emitAssignment name index) := by
  intro around pss is b ps w hgood hat
  have hsession : Values (do emit .setGlobal [index]; does (Builder.declare name index)) :=
    (values_emit .setGlobal [index] nofun).quiet (quiet_declare name index)
  have hfunction : Values (emit .setLocal [index]) := values_emit _ _ nofun
  obtain ⟨⟨buffers, offset, constants, scope, declarations⟩, patched, moments, removals⟩ := w
  cases scope with
  | session level => exact hsession hgood hat
  | function level enclosing => exact hfunction hgood hat

end

/-! ### Blocks -/

section

variable {α : Type} {around : List Buffer} {pss : List (List Patch)} {is : List Instr} {b : Buffer}
  {ps : List Patch} {w w' : Watch}

/-- Statements that have been built end with a `Pop` only if it can be taken back. -/
theorem Ended.ifPop_holds {block : List Stmt} {T : α → Watch → Prop} {yes no : Watched α} (hgood : Good w')
    (hat : At around pss is b ps w) (hb : b.endsWith .pop = false)
    (hended : Ended around pss is ps block w w')
    (hyes : ∀ w', Holds (fun _ w'' => Valued around pss is ps w'') (dropPop block w.builder w') →
      Holds T (yes w'))
    (hno : ∀ w' js, Good w' → Grown around pss is ps js w' → Holds T (no w')) :
    Holds T ((does (Builder.endsWith .pop) >>= fun ends => if ends then yes else no) w') := by
  -- Statements that do nothing leave the code as it was, which did not end with a `Pop`; a value does not end
  -- with one; and after an expression statement there is one, which can be taken back.
  cases hended with
  | nothing =>
    refine (hat.endsWith hgood .pop).bind ?_
    rintro ends w₁ - hgood ⟨rfl, hat, -⟩
    rw [hb]
    exact hno w₁ [] hgood hat.grown
  | value hgrown hends =>
    obtain ⟨is', i, hi, hne⟩ := hends.append is
    obtain ⟨new, b', hat, hnew⟩ := hgrown
    have hlaid := hat.laid
    rw [hi] at hlaid
    refine (hat.endsWith hgood .pop).bind ?_
    rintro ends w₁ - hgood ⟨rfl, hat₁, -⟩
    rw [hlaid.endsWith, beq_eq_false_iff_ne.mpr hne]
    exact hno w₁ _ hgood ⟨new, b', hat₁, hnew⟩
  | pop hblock hlater hearlier hvalue hpop hvalued hgrown hends =>
    obtain ⟨new, b', hat', -⟩ := id hgrown
    obtain ⟨-, i, b₂, hi, hat₂⟩ := (hat'.emit hvalued .pop []).good_of_ok hpop
    refine (hat₂.endsWith hgood .pop).bind ?_
    rintro ends w₁ - hgood ⟨rfl, hat₁, hbuilder⟩
    rw [hat₂.laid.endsWith, hi]
    refine hyes w₁ ((dropPop_holds hblock hlater hearlier hvalue hpop hbuilder ?_ hgood hgrown hends).imp ?_)
    · rw [hat₁.patched, hat₂.patched]
    · exact fun _ _ hgrown => ⟨_, hgrown, hends⟩

/-- A block is closed so that it leaves a value. -/
theorem closeBlock_holds {block : List Stmt} (hgood : Good w') (hat : At around pss is b ps w)
    (hb : b.endsWith .pop = false) (hended : Ended around pss is ps block w w') :
    Holds (fun _ w'' => Valued around pss is ps w'') (closeBlock block w.builder w') :=
  hended.ifPop_holds hgood hat hb (fun _ h => h) fun _ _ hgood hgrown =>
    (values_emit .pushNull [] nofun).after hgood hgrown

theorem closeBody_holds {body : List Stmt} (hgood : Good w') (hat : At around pss is b ps w)
    (hb : b.endsWith .pop = false) (hended : Ended around pss is ps body w w') :
    Holds (fun _ w'' => ∃ js, Grown around pss is ps js w'') (closeBody body w.builder w') := by
  have hreturn : Values (emit .returnValue []) := values_emit _ _ nofun
  have hret : Values (emit .ret []) := values_emit _ _ nofun
  have hlast : Holds (fun _ w'' => ∃ js, Grown around pss is ps js w'') (returnLast body w.builder w') := by
    refine hended.ifPop_holds hgood hat hb (fun w₁ h => h.bind ?_) fun w₁ js hgood hgrown => ?_
    · rintro - w₂ - hgood ⟨js, hgrown, -⟩
      exact hreturn.extends.after hgood hgrown
    · exact .ok hgood ⟨js, hgrown⟩
  refine hlast.bind ?_
  rintro - w₁ - hgood ⟨js, new, b', hat, hnew⟩
  refine (hat.endsWith hgood .returnValue).bind ?_
  rintro ends w₂ - hgood ⟨-, hat, -⟩
  have hgrown : Grown around pss is ps js w₂ := ⟨new, b', hat, hnew⟩
  cases ends with
  | true => exact .ok hgood ⟨js, hgrown⟩
  | false => exact hret.extends.after hgood hgrown

end

/-! ### The walk -/

/-- Do some statements end as they may when they are built? -/
def Settles (block : List Stmt) : Prop :=
  ∀ ⦃around pss is b ps w⦄, Good w → At around pss is b ps w →
    Holds (fun _ w' => Ended around pss is ps block w w') (stmts block w)

/-- Does a step build a value where the code does not end with a `Pop`? -/
def Opens (m : Watched Unit) : Prop :=
  ∀ ⦃around pss is b ps w⦄, Good w → At around pss is b ps w → b.endsWith .pop = false →
    Holds (fun _ w' => Valued around pss is ps w') (m w)

section

variable {around : List Buffer} {pss : List (List Patch)} {is : List Instr} {b : Buffer} {ps qs : List Patch}
  {block body : List Stmt} {params : List String} {w : Watch}

theorem Values.opens {m : Watched Unit} (h : Values m) : Opens m := fun _ _ _ _ _ _ hgood hat _ => h hgood hat

theorem Settles.opens (h : Settles block) : Opens (blockValue block (stmts block)) :=
  fun _ _ _ _ _ _ hgood hat hb =>
    (h hgood hat).bind fun _ _ _ hgood hended => closeBlock_holds hgood hat hb hended

theorem At.inside (h : At around pss is b ps w) : ∀ p ∈ ps, p.position + 3 ≤ codeSize is := fun p hp =>
  h.laid.size_eq ▸ (h.laid.stands p hp).inside

theorem codeSize_jump {op : Opcode} (hop : op = .jump ∨ op = .jumpNotTruthy) (is : List Instr) (n : Nat) :
    codeSize (is ++ [⟨op, n⟩]) = codeSize is + 3 := by
  rw [codeSize_append]
  rcases hop with rfl | rfl <;> rfl

/-- A jump is patched after what it leads past was built. The jumps that were patched before it was written, and
those in what it leads past, are apart from it. -/
theorem At.land {op : Opcode} {m : Nat} {js ks : List Instr} {new more : List Patch} (hgood : Good w)
    (hat : At around pss (is ++ js ++ [⟨op, m⟩] ++ ks) b (more ++ (new ++ ps)) w)
    (hop : op = .jump ∨ op = .jumpNotTruthy) (hnew : ∀ p ∈ new, codeSize is ≤ p.position)
    (hbefore : ∀ p ∈ new ++ ps, p.position + 3 ≤ codeSize (is ++ js))
    (hmore : ∀ p ∈ more, codeSize (is ++ js ++ [⟨op, m⟩]) ≤ p.position) :
    Holds (fun _ w' => ∃ t b', At around pss (is ++ (js ++ ⟨op, t⟩ :: ks)) b'
        (⟨codeSize (is ++ js), t⟩ :: (more ++ new) ++ ps) w' ∧
        ∀ p ∈ (⟨codeSize (is ++ js), t⟩ :: (more ++ new) : List Patch), codeSize is ≤ p.position)
      (Watch.patchJump (codeSize (is ++ js)) w) := by
  rw [codeSize_jump hop] at hmore
  have hat : At around pss (is ++ js ++ ⟨op, m⟩ :: ks) b (more ++ (new ++ ps)) w := by simpa using hat
  have hapart : ∀ p ∈ more ++ (new ++ ps), p.position + 3 ≤ codeSize (is ++ js) ∨
      codeSize (is ++ js) + 3 ≤ p.position := fun p hp =>
    (List.mem_append.mp hp).elim (.inr ∘ hmore p) (.inl ∘ hbefore p)
  have hjs : codeSize is ≤ codeSize (is ++ js) := by simp
  have hpast : ∀ p ∈ more, codeSize is ≤ p.position := fun p hp =>
    Nat.le_trans (Nat.le_add_right_of_le hjs) (hmore p hp)
  refine (hat.patchJump hgood hop hapart).imp ?_
  rintro - w' ⟨t, b', hat⟩
  refine ⟨t, b', ?_, List.forall_mem_cons.mpr ⟨hjs, List.forall_mem_append.mpr ⟨hpast, hnew⟩⟩⟩
  simpa using hat

/-- After the first way of a conditional there is a jump over the second one. The jump that leads past it is
patched, and so are those inside of it. -/
theorem firstWay_holds {test : Watched Unit} {T : Unit → Watch → Prop} (next : Nat → Watched Unit)
    (htest : Values test) (hblock : Settles block) (hgood : Good w) (hat : At around pss is b ps w)
    (hnext : ∀ {w' js m new b'}, Good w' → At around pss (is ++ js ++ [⟨.jump, m⟩]) b' (new ++ ps) w' →
      (∀ p ∈ new, codeSize is ≤ p.position) → (∀ p ∈ new ++ ps, p.position + 3 ≤ codeSize (is ++ js)) →
      Holds T (next (codeSize (is ++ js)) w')) :
    Holds T ((do
      test
      let branch ← does Builder.here
      emit .jumpNotTruthy [Steps.unpatched]
      blockValue block (stmts block)
      let skip ← does Builder.here
      emit .jump [Steps.unpatched]
      patchJump branch
      next skip : Watched Unit) w) := by
  -- Step by step, with the instructions laid out so far as the index of the invariant.
  refine (htest hgood hat).bind ?_
  rintro - w₁ - hgood ⟨js, ⟨new, b₁, hat, hnew⟩, -⟩
  have hbefore := hat.inside
  refine (hat.here hgood).bind ?_
  rintro branch w₂ - hgood ⟨rfl, hat⟩
  refine (hat.emit hgood .jumpNotTruthy [Steps.unpatched]).bind ?_
  rintro - w₃ - hgood ⟨⟨op, m⟩, b₃, rfl, hat⟩
  refine (hblock.opens hgood hat (hat.laid.endsWith .pop)).bind ?_
  rintro - w₄ - hgood ⟨ks, ⟨more, b₄, hat, hmore⟩, -⟩
  have hwithin := hat.inside
  refine (hat.here hgood).bind ?_
  rintro skip w₅ - hgood ⟨hskip, hat⟩
  refine (hat.emit hgood .jump [Steps.unpatched]).bind ?_
  rintro - w₆ - hgood ⟨⟨op, n⟩, b₆, rfl, hat⟩
  rw [List.append_assoc _ ks] at hat
  refine (hat.land hgood (.inr rfl) hnew hbefore hmore).bind ?_
  rintro - w₇ - hgood ⟨t, b₇, hat, hnew⟩
  -- The jump over the second way comes after everything that was patched, so patching it later is apart from
  -- all of it.
  have hbranch : codeSize (is ++ js) + 3 ≤ skip := by
    rw [hskip, codeSize_append _ ks, codeSize_jump (.inr rfl)]
    exact Nat.le_add_right _ _
  have hlands : skip = codeSize (is ++ (js ++ ⟨.jumpNotTruthy, t⟩ :: ks)) := by simp [hskip, Instr.size]
  rw [hlands]
  refine hnext (m := n) hgood (by simpa using hat) hnew ?_
  rw [← hlands, List.cons_append, List.append_assoc]
  exact List.forall_mem_cons.mpr ⟨hbranch, hskip ▸ hwithin⟩

/-- A conditional leaves the value of one of its two ways. -/
theorem choice_values {test second : Watched Unit} (htest : Values test) (hblock : Settles block)
    (hsecond : Opens second) : Values (steps.choice test (blockValue block (stmts block)) second) := by
  intro around pss is b ps w hgood hat
  refine firstWay_holds (fun skip => second >>= fun _ => patchJump skip) htest hblock hgood hat ?_
  intro w₁ js m new b₁ hgood hat hnew hbefore
  refine (hsecond hgood hat (hat.laid.endsWith .pop)).bind ?_
  rintro - w₂ - hgood ⟨ks, ⟨more, b₂, hat, hmore⟩, hends⟩
  refine (hat.land hgood (.inl rfl) hnew hbefore hmore).imp ?_
  rintro - w₃ ⟨t, b₃, hat, hnew⟩
  refine ⟨_, ⟨_, b₃, hat, hnew⟩, ?_⟩
  rw [List.append_cons]
  exact hends.append _

/-! ### Functions -/

theorem At.enter (hgood : Good w) (h : At around pss is b ps w) :
    Holds (fun _ w' => At (b :: around) (ps :: pss) [] {} [] w') (enter w) := by
  have hsound : ∀ buffer ∈ {} :: w.builder.buffers, buffer.Sound :=
    List.forall_mem_cons.mpr ⟨Buffer.laid_nil.sound, hgood.buffers⟩
  exact .ok (hgood.turn hsound _)
    ⟨congrArg ({} :: ·) h.buffers, congrArg ([] :: ·) h.patched, Buffer.laid_nil⟩

theorem At.defineAll : ∀ (params : List String) {w : Watch}, Good w → At around pss is b ps w →
    Holds (fun _ w' => At around pss is b ps w') (defineAll params w)
  | [], _, hgood, hat => .ok hgood hat
  | name :: rest, _, hgood, hat =>
    (hat.quiet (quiet_define name) hgood).bind fun _ _ _ hgood ⟨hat, _⟩ => At.defineAll rest hgood hat

/-- The buffer around a function is as it was before. -/
theorem At.leave {outer : Buffer} {js : List Instr} (hgood : Good w)
    (h : At (outer :: around) (qs :: pss) is b ps w) (houter : outer.Laid js qs) :
    Holds (fun _ w' => At around pss js outer qs w') (Watch.leave w) := by
  have haround := h.around_sound hgood
  obtain ⟨⟨buffers, offset, constants, scope, declarations⟩, patched, moments, removals⟩ := w
  obtain ⟨rfl, rfl, -⟩ := h
  cases scope with
  | session level => exact .error (hgood.turn haround _)
  | function level enclosing => exact .ok (hgood.turn haround _) ⟨rfl, rfl, houter⟩

theorem functionLiteral_values (hbody : Settles body) : Values (functionLiteral params body (stmts body)) := by
  intro around pss is b ps w hgood hat
  have hlaid := hat.laid
  refine (hat.enter hgood).bind ?_
  rintro - w₁ - hgood hat
  refine (At.defineAll params hgood hat).bind ?_
  rintro - w₂ - hgood hat
  refine (hbody hgood hat).bind ?_
  rintro - w₃ - hgood hended
  refine (closeBody_holds hgood hat rfl hended).bind ?_
  rintro - w₄ - hgood ⟨js, new, b₁, hat, -⟩
  refine (hat.leave hgood hlaid).bind ?_
  rintro code w₅ - hgood hat
  exact values_emitConstant _ hgood hat

end

/-! ### Programs -/

/-- Does a statement end as it may when it is built? -/
def Closes (s : Stmt) : Prop :=
  ∀ ⦃around pss is b ps w⦄, Good w → At around pss is b ps w →
    Holds (fun _ w' => Ended around pss is ps [s] w w') (stmt s w)

section

variable {around : List Buffer} {pss : List (List Patch)} {is js : List Instr} {ps new : List Patch} {s : Stmt}
  {block rest : List Stmt} {value : Expr} {w w₁ w' : Watch}

theorem Values.closes (h : Values (stmt s)) : Closes s := fun _ _ _ _ _ _ hgood hat =>
  (h hgood hat).imp fun _ _ ⟨_, hgrown, hends⟩ => .value hgrown hends

theorem closes_expr (h : Values (expr value)) : Closes (.expr value) := by
  intro around pss is b ps w hgood hat
  refine (h hgood hat).bind ?_
  rintro ⟨⟩ valued hvalue hvalued ⟨js, ⟨new, b', hat', hnew⟩, hends⟩
  refine (hat'.emit hvalued .pop []).known.imp ?_
  rintro ⟨⟩ w' ⟨hpop, -⟩
  have hnone : ∀ s ∈ ([] : List Stmt), s = .empty := nofun
  exact .pop (List.nil_append _).symm hnone rfl hvalue hpop hvalued ⟨new, b', hat', hnew⟩ hends

/-- Statements that come to nothing may follow. -/
theorem Ended.append_empty (h : Ended around pss is ps block w w') (hrest : ∀ s ∈ rest, s = .empty) :
    Ended around pss is ps (block ++ rest) w w' := by
  cases h with
  | nothing hempty => exact .nothing (List.forall_mem_append.mpr ⟨hempty, hrest⟩)
  | value hgrown hends => exact .value hgrown hends
  | pop hblock hlater hearlier hvalue hpop hgood hgrown hends =>
    refine .pop ?_ (List.forall_mem_append.mpr ⟨hlater, hrest⟩) hearlier hvalue hpop hgood hgrown hends
    rw [hblock, List.append_assoc, List.cons_append]

/-- How a statement and then others end. -/
theorem Ended.cons (hs : stmt s w = .ok () w₁) (h : Ended around pss is ps [s] w w₁)
    (hnew : ∀ p ∈ new, codeSize is ≤ p.position)
    (hrest : Ended around pss (is ++ js) (new ++ ps) rest w₁ w') : Ended around pss is ps (s :: rest) w w' := by
  cases hrest with
  | nothing hempty => exact h.append_empty hempty
  | value hgrown hends => exact .value (hgrown.trans hnew) (hends.append _)
  | @pop earlier later value before valued w' ks hblock hlater hearlier hvalue hpop hgood hgrown hends =>
    have hstmts : stmts (s :: earlier) w = .ok () before := by
      show (stmt s >>= fun _ => stmts earlier) w = _
      rw [bind_eq, hs]
      exact hearlier
    exact .pop (congrArg (s :: ·) hblock) hlater hstmts hvalue hpop hgood (hgrown.trans hnew) (hends.append _)

theorem Settles.cons (hs : Closes s) (hrest : Settles rest) : Settles (s :: rest) := by
  intro around pss is b ps w hgood hat
  refine (hs hgood hat).bind ?_
  rintro ⟨⟩ w₁ hstmt hgood hended
  obtain ⟨js, new, b₁, hat₁, hnew⟩ := hended.grown hat
  exact (hrest hgood hat₁).imp fun _ _ hrest => hended.cons hstmt hnew hrest

end

mutual

theorem expr_values : ∀ e : Expr, Values (expr e)
  | .ident name => values_emitReference name
  | .int _ | .str _ => values_emitConstant _
  | .bool true => values_emit .pushTrue [] nofun
  | .bool false => values_emit .pushFalse [] nofun
  | .null => values_emit .pushNull [] nofun
  | .array elements => (exprs_extends elements).values (values_emit .array _ nofun)
  | .unary op operand => (expr_values operand).extends.values (values_emit op.opcode _ (by cases op <;> nofun))
  | .binary op left right => by
    have hleft := (expr_values left).extends
    have hright := (expr_values right).extends
    by_cases hless : op = .less
    · subst hless
      exact hright.values (hleft.values (values_emit .greaterThan _ nofun))
    · show Values (steps.expr _)
      rw [steps.expr_binary hless]
      exact hleft.values (hright.values (values_emit op.opcode _ (by cases op <;> nofun)))
  -- A conditional without an alternative has an instruction for its second way, which is no `Pop` either.
  | .cond condition consequence none =>
    choice_values (expr_values condition) (stmts_settles consequence) (values_emit .pushNull [] nofun).opens
  | .cond condition consequence (some alternative) =>
    choice_values (expr_values condition) (stmts_settles consequence) (stmts_settles alternative).opens
  | .function _ body => functionLiteral_values (stmts_settles body)
  | .call callee args =>
    (expr_values callee).extends.values ((exprs_extends args).values (values_emit .call _ nofun))
  | .index collection position =>
    (expr_values collection).extends.values ((expr_values position).extends.values (values_emit .index _ nofun))

theorem exprs_extends : ∀ es : List Expr, Extends (exprs es)
  | [] => extends_pure
  | e :: rest => (expr_values e).extends.bind (exprs_extends rest)

theorem stmt_closes : ∀ s : Stmt, Closes s
  | .letIn name value => by
    refine Values.closes ?_
    have hvalue := expr_values value
    unfold stmt Steps.stmt
    split
    · exact (quiet_define name).values fun _ => hvalue.extends.values (values_emitAssignment name _)
    · exact hvalue.extends.values ((quiet_define name).values fun _ => values_emitAssignment name _)
  | .ret value => Values.closes ((expr_values value).extends.values (values_emit .returnValue [] nofun))
  | .throw value => Values.closes ((expr_values value).extends.values (values_emit .throwValue [] nofun))
  | .expr value => closes_expr (expr_values value)
  | .empty => fun _ _ _ _ _ _ hgood _ => .ok hgood (.nothing (List.forall_mem_singleton.mpr rfl))

theorem stmts_settles : ∀ ss : List Stmt, Settles ss
  | [] => fun _ _ _ _ _ _ hgood _ => .ok hgood (.nothing nofun)
  | s :: rest => Settles.cons (stmt_closes s) (stmts_settles rest)

end

theorem topLevel_holds {around : List Buffer} {pss : List (List Patch)} : ∀ (p : Program) {is : List Instr}
    {b : Buffer} {ps : List Patch} {w : Watch}, Good w → At around pss is b ps w →
    Holds (fun _ _ => True) (topLevel p w)
  | [], _, _, _, _, hgood, hat => (hat.emit hgood .ret []).imp fun _ _ _ => trivial
  | s :: rest, _, _, _, _, hgood, hat => by
    by_cases hvalue : ∃ value, s = .expr value ∧ rest = []
    · obtain ⟨value, rfl, rfl⟩ := hvalue
      have hreturn : Values (emit .returnValue []) := values_emit _ _ nofun
      refine (expr_values value hgood hat).bind ?_
      rintro - w₁ - hgood ⟨js, hgrown, -⟩
      exact (hreturn.after hgood hgrown).imp fun _ _ _ => trivial
    · unfold topLevel
      rw [steps.topLevel_cons hvalue]
      refine (stmt_closes s hgood hat).bind ?_
      rintro - w₁ - hgood hended
      obtain ⟨js, new, b₁, hat, -⟩ := hended.grown hat
      exact topLevel_holds rest hgood hat

theorem good_start {b : Builder} (hb : b.Resting) : Good (start b) where
  moments := List.forall_mem_singleton.mpr (hb.buffers ▸ List.forall_mem_singleton.mpr Buffer.laid_nil.sound)
  buffers := hb.buffers ▸ List.forall_mem_singleton.mpr Buffer.laid_nil.sound
  removals := nofun

end Watch

namespace Builder

/-- Whatever was compiled before and gone back to: a builder that compiles a program is built on as it would be
unwatched, at every moment each of its buffers remembers the instruction that its code ends with, and whenever a
`Pop` is taken back it is that of an expression statement at the end, and what is left is in order. -/
theorem History.bookkeeping_sound {b : Builder} {moments : List Builder} (h : History b moments) (n : SnippetId)
    (p : Program) :
    Watch.unwatched (Watch.topLevel p (Watch.start b)) = topLevel p b ∧
    (Watch.compile n p b).builder = b.after n p ∧
    (∀ b' ∈ (Watch.compile n p b).moments, ∀ buffer ∈ b'.buffers, buffer.Sound) ∧
    ∀ r ∈ (Watch.compile n p b).removals, r.Right := by
  have hrest := h.resting b List.mem_cons_self
  have hafter := (History.compile n p h).resting _ List.mem_cons_self
  have hholds := Watch.topLevel_holds p (Watch.good_start hrest) ⟨hrest.buffers, rfl, Buffer.laid_nil⟩
  have hend := (Watch.good_start hafter).buffers
  refine ⟨Watch.mirrors_topLevel p _, ?_⟩
  unfold Watch.compile
  generalize Watch.topLevel p (Watch.start b) = watched at hholds ⊢
  cases hholds with
  | ok hgood | error hgood => exact ⟨rfl, List.forall_mem_cons.mpr ⟨hend, hgood.moments⟩, hgood.removals⟩

/-- With a `Pop` that is taken back at the end of a way, of a way inside of it, and of a function's body. -/
def nesting : Program :=
  [.letIn "f" (.cond (.bool true) [.expr (.cond (.bool false) [.expr (.int 1), .empty] none)]
    (some [.expr (.function ["n"] [.expr (.ident "n")])])), .expr (.ident "f")]

theorem nesting_bookkeeping_sound :
    let before := after 0 nesting {}
    (Watch.compile 1 nesting before).removals.map (·.patched.length) = [3, 0, 2, 0] ∧ History before [] ∧
    (∀ b' ∈ (Watch.compile 1 nesting before).moments, ∀ buffer ∈ b'.buffers, buffer.Sound) ∧
    ∀ r ∈ (Watch.compile 1 nesting before).removals, r.Right := by
  have hhistory := History.compile 0 nesting .new
  obtain ⟨-, -, hsound, hright⟩ := hhistory.bookkeeping_sound 1 nesting
  exact ⟨by decide +kernel, hhistory, hsound, hright⟩

end Builder

end Notebook
