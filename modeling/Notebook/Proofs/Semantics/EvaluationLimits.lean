import Notebook.Proofs.Semantics.Evaluator

/-!
What evaluations come to when there is less room.

Two limits are counted while code is evaluated: how many operands are waiting, and how many calls are in
progress. `Exec.SameUnless limit` sets two evaluations side by side, where the second one may run into errors
of `limit` that the first one is spared.

* `Semantics.eval_sameUnless` and its companions: with more operands waiting, a term comes to the same unless
  there is no room for them. Its calls may have less room, too.
* `Semantics.callsWithin_sameUnless`: calls with less room for operands or frames come to the same unless they
  run into a limit.
-/

namespace Notebook

namespace Semantics

/-- Does a second evaluation do the same as a first one, unless it fails at a limit? Where it fails, nothing is
said of the state. -/
def Exec.SameUnless {α : Type} (limit : RunError → Prop) (x x' : Exec α) : Prop :=
  ∀ s, x' s = x s ∨ ∃ error s', x' s = (.failed error, s') ∧ limit error

end Semantics

/-- Did a second run end as a first one, unless it failed at a limit? -/
def Ran.SameUnless {α : Type} (limit : RunError → Prop) (ran ran' : Ran α) : Prop :=
  ran' = ran ∨ ∃ error, ran'.result = .error error ∧ limit error

namespace Semantics

variable {limit : RunError → Prop} {α β : Type}

theorem Exec.SameUnless.refl (x : Exec α) : x.SameUnless limit x :=
  fun _ => .inl rfl

theorem Exec.SameUnless.bind {x x' : Exec α} {f f' : α → Exec β} (hx : x.SameUnless limit x')
    (hf : ∀ a, (f a).SameUnless limit (f' a)) : (x >>= f).SameUnless limit (x' >>= f') := by
  intro s
  rw [Exec.bind_apply, Exec.bind_apply]
  rcases hx s with hsame | ⟨error, s', hfails, hlimit⟩
  · rw [hsame]
    rcases x s with ⟨flow, s₁⟩
    cases flow with
    | value a => exact hf a s₁
    | returned v => exact .inl rfl
    | failed error => exact .inl rfl
  · rw [hfails]
    exact .inr ⟨error, s', rfl, hlimit⟩

/-! ### Terms and commands -/

/-- What a second evaluation is up against: `k` more operands are waiting, which may be too many of them, and
its calls come to the same unless they fail at a limit. -/
structure Tighter (limit : RunError → Prop) (k : Nat) (calls calls' : Calls) : Prop where
  operands : k = 0 ∨ limit .stackOverflow
  calls : ∀ f args height globals,
    (calls f args height globals).SameUnless limit (calls' f args (height + k) globals)

variable {k height height' : Nat} {calls calls' : Calls}

theorem keep_sameUnless (h : Tighter limit k calls calls') (hheight : height' = height + k) (v : Value) :
    (keep height v).SameUnless limit (keep height' v) := by
  by_cases hroom : height' < Machine.stackLimit
  · have hroom' : height < Machine.stackLimit := by omega
    unfold keep
    rw [if_pos hroom, if_pos hroom']
    exact .refl _
  · rcases h.operands with rfl | hlimit
    · obtain rfl : height' = height := hheight
      exact .refl _
    · intro s
      refine .inr ⟨.stackOverflow, s, ?_, hlimit⟩
      unfold keep
      rw [if_neg hroom]
      rfl

theorem apply_sameUnless (h : Tighter limit k calls calls') (hheight : height' = height + k)
    (callee : Value) (args : List Value) :
    (apply calls callee args height).SameUnless limit (apply calls' callee args height') := by
  subst hheight
  intro s
  cases callee with
  | function f =>
    simp only [apply]
    split
    · rcases h.calls f args height s.globals with hsame | ⟨error, hfails, hlimit⟩
      · rw [hsame]
        exact .inl rfl
      · rw [hfails]
        exact .inr ⟨error, _, rfl, hlimit⟩
    · exact .inl rfl
  | _ => exact .inl rfl

mutual

/-- A term comes to the same unless it fails at a limit. Nothing that is evaluated depends on how many operands
are waiting, other than by failing. -/
theorem eval_sameUnless (h : Tighter limit k calls calls') :
    ∀ (t : Term) {height height' : Nat}, height' = height + k →
      (eval calls t height).SameUnless limit (eval calls' t height')
  | .constant _ v, _, _, hheight => keep_sameUnless h hheight v
  | .bool value, _, _, hheight => keep_sameUnless h hheight (.bool value)
  | .null, _, _, hheight => keep_sameUnless h hheight .null
  | .global index, _, _, hheight =>
    (Exec.SameUnless.refl (look _)).bind fun v => keep_sameUnless h hheight v
  | .own index, _, _, hheight =>
    (Exec.SameUnless.refl (look _)).bind fun v => keep_sameUnless h hheight v
  | .builtin index, _, _, hheight => keep_sameUnless h hheight _
  | .array elements, _, _, hheight =>
    (evalAll_sameUnless h elements hheight).bind fun vs => keep_sameUnless h hheight (.array vs)
  | .unary op operand, _, _, hheight => (eval_sameUnless h operand hheight).bind fun _ => .refl _
  | .binary op left right, height, height', hheight => by
    have hmore : height' + 1 = height + 1 + k := by omega
    unfold eval
    split
    · exact (eval_sameUnless h right hheight).bind fun _ =>
        (eval_sameUnless h left hmore).bind fun _ => .refl _
    · exact (eval_sameUnless h left hheight).bind fun _ =>
        (eval_sameUnless h right hmore).bind fun _ => .refl _
  | .cond condition consequence none, _, _, hheight => by
    refine (eval_sameUnless h condition hheight).bind fun v => ?_
    cases v.isTruthy with
    | true => exact evalBlock_sameUnless h consequence hheight
    | false => exact keep_sameUnless h hheight .null
  | .cond condition consequence (some alternative), _, _, hheight => by
    refine (eval_sameUnless h condition hheight).bind fun v => ?_
    cases v.isTruthy with
    | true => exact evalBlock_sameUnless h consequence hheight
    | false => exact evalBlock_sameUnless h alternative hheight
  | .call callee args, height, height', hheight => by
    have hmore : height' + 1 = height + 1 + k := by omega
    exact (eval_sameUnless h callee hheight).bind fun function =>
      (evalAll_sameUnless h args hmore).bind fun values => apply_sameUnless h hheight function values
  | .index collection position, height, height', hheight => by
    have hmore : height' + 1 = height + 1 + k := by omega
    exact (eval_sameUnless h collection hheight).bind fun _ =>
      (eval_sameUnless h position hmore).bind fun _ => .refl _

theorem evalAll_sameUnless (h : Tighter limit k calls calls') :
    ∀ (ts : List Term) {height height' : Nat}, height' = height + k →
      (evalAll calls ts height).SameUnless limit (evalAll calls' ts height')
  | [], _, _, _ => .refl _
  | t :: rest, height, height', hheight => by
    have hmore : height' + 1 = height + 1 + k := by omega
    exact (eval_sameUnless h t hheight).bind fun _ =>
      (evalAll_sameUnless h rest hmore).bind fun _ => .refl _

theorem perform_sameUnless (h : Tighter limit k calls calls') :
    ∀ (c : Command) {height height' : Nat}, height' = height + k →
      (perform calls c height).SameUnless limit (perform calls' c height')
  | .setGlobal _ value, _, _, hheight | .setOwn _ value, _, _, hheight | .ret value, _, _, hheight
  | .throw value, _, _, hheight | .expr value, _, _, hheight =>
    (eval_sameUnless h value hheight).bind fun _ => .refl _
  | .empty, _, _, _ => .refl _

theorem evalBlock_sameUnless (h : Tighter limit k calls calls') :
    ∀ (cs : List Command) {height height' : Nat}, height' = height + k →
      (evalBlock calls cs height).SameUnless limit (evalBlock calls' cs height')
  | [], _, _, hheight => keep_sameUnless h hheight .null
  | c :: rest, height, height', hheight => by
    by_cases hlast : c.closing = some .pop ∧ closingOf rest = none
    · cases c with
      | expr value =>
        rw [evalBlock_of_expr hlast.2, evalBlock_of_expr hlast.2]
        exact eval_sameUnless h value hheight
      | _ => cases hlast.1
    · have hmiddle : c.closing = some .pop → closingOf rest ≠ none := fun hc hrest => hlast ⟨hc, hrest⟩
      rw [evalBlock_cons hmiddle, evalBlock_cons hmiddle]
      exact (perform_sameUnless h c hheight).bind fun _ => evalBlock_sameUnless h rest hheight

end

/-- So does the body of a function. -/
theorem evalBody_sameUnless (h : Tighter limit k calls calls') (hheight : height' = height + k)
    (cs : List Command) : (evalBody calls cs height).SameUnless limit (evalBody calls' cs height') := by
  induction cs with
  | nil => exact .refl _
  | cons c rest ih =>
    by_cases hlast : c.closing = some .pop ∧ closingOf rest = none
    · cases c with
      | expr value =>
        rw [evalBody_of_expr hlast.2, evalBody_of_expr hlast.2]
        exact eval_sameUnless h value hheight
      | _ => cases hlast.1
    · have hmiddle : c.closing = some .pop → closingOf rest ≠ none := fun hc hrest => hlast ⟨hc, hrest⟩
      rw [evalBody_cons hmiddle, evalBody_cons hmiddle]
      exact (perform_sameUnless h c hheight).bind fun _ => ih

/-! ### Calls -/

/-- Calls come to the same with `k` more operands waiting and with room for no more frames than before,
unless they fail at a limit. Where the frames are as many as before, the depth of calls is no such limit. -/
theorem callsWithin_sameUnless {routines : List Routine} {maxFrames maxFrames' : Nat}
    (hk : k = 0 ∨ limit .stackOverflow) {room room' : Nat} (hroom : room' ≤ room)
    (hdepth : room' = room ∧ maxFrames' = maxFrames ∨ limit (.callDepth maxFrames')) :
    Tighter limit k (callsWithin routines maxFrames room) (callsWithin routines maxFrames' room') := by
  refine ⟨hk, ?_⟩
  -- On the room of the second evaluation, which has no more than the first.
  induction room' generalizing room with
  | zero =>
    intro f args height globals
    rcases hdepth with ⟨rfl, rfl⟩ | hlimit
    · exact .inl rfl
    · exact .inr ⟨_, rfl, hlimit⟩
  | succ room' ih =>
    intro f args height globals
    obtain ⟨room, rfl⟩ : ∃ n, room = n + 1 := ⟨room - 1, by omega⟩
    have hdepth' : room' = room ∧ maxFrames' = maxFrames ∨ limit (.callDepth maxFrames') :=
      hdepth.imp_left fun h => ⟨by omega, h.2⟩
    have hcalls := ih (by omega) hdepth'
    have htop : height + k + 1 + f.locals = height + 1 + f.locals + k := by omega
    -- The second one has more operands waiting, so it may be the only one that lacks room for the slots.
    by_cases hover : Machine.stackLimit < height + k + 1 + f.locals
    · rcases hk with rfl | hlimit
      · simp only [callsWithin, if_pos hover]
        exact .inl rfl
      · simp only [callsWithin, if_pos hover]
        exact .inr ⟨_, rfl, hlimit⟩
    · have hover' : ¬ Machine.stackLimit < height + 1 + f.locals := by omega
      simp only [callsWithin, if_neg hover, if_neg hover']
      rcases evalBody_sameUnless ⟨hk, hcalls⟩ htop (bodyOf routines f) ⟨globals, slots f args⟩ with
        hsame | ⟨error, s', hfails, hlimit⟩
      · rw [hsame]
        exact .inl rfl
      · rw [hfails]
        exact .inr ⟨error, rfl, hlimit⟩

end Semantics

end Notebook
