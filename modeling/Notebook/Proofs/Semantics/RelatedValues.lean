import Mathlib.Data.List.Forall2
import Notebook.Proofs.Machine.InstructionEffects
import Notebook.Proofs.Semantics.FunctionsInValues

/-!
Values that are the same but for their functions.

`Value.Related R v v'` says that `v` and `v'` differ in functions only, and that `R` holds of the
functions that stand at the same places. Programs see no difference between related values unless
they compare them: operators other than `==` and `!=`, indexing, builtins and the operand stack take
related values to related values, and fail with the same errors (`binary_related`,
`element_related`, `apply_related`, `pop_related` and the like). Comparisons agree where `R` relates
functions one to one (`Related.eq_iff`), or where there are no functions in the values
(`Related.eq_of_functions`).
-/

namespace Notebook

/-! ### Results -/

/-- Both results are there and `S` holds of them, or both failed with the same error. It goes through binds, so
that computations are compared step by step. -/
inductive Outcomes {ε α β : Type} (S : α → β → Prop) : Except ε α → Except ε β → Prop where
  | ok {a : α} {b : β} : S a b → Outcomes S (.ok a) (.ok b)
  | error (e : ε) : Outcomes S (.error e) (.error e)

namespace Outcomes

variable {ε α β γ δ : Type} {S : α → β → Prop} {T : γ → δ → Prop}
variable {x : Except ε α} {y : Except ε β} {f : α → Except ε γ} {g : β → Except ε δ}

theorem bind (h : Outcomes S x y) (hnext : ∀ a b, S a b → Outcomes T (f a) (g b)) :
    Outcomes T (x >>= f) (y >>= g) := by
  cases h with
  | ok hab => exact hnext _ _ hab
  | error e => exact .error e

theorem map {f : α → γ} {g : β → δ} (h : Outcomes S x y) (hnext : ∀ a b, S a b → T (f a) (g b)) :
    Outcomes T (x.map f) (y.map g) := by
  cases h with
  | ok hab => exact .ok (hnext _ _ hab)
  | error e => exact .error e

theorem refl {S : α → α → Prop} {x : Except ε α} (h : ∀ a, x = .ok a → S a a) : Outcomes S x x := by
  cases x with
  | ok a => exact .ok (h a rfl)
  | error e => exact .error e

theorem cases (h : Outcomes S x y) :
    (∃ a b, x = .ok a ∧ y = .ok b ∧ S a b) ∨ ∃ e, x = .error e ∧ y = .error e := by
  cases h with
  | ok hab => exact .inl ⟨_, _, rfl, rfl, hab⟩
  | error e => exact .inr ⟨e, rfl, rfl⟩

end Outcomes

/-! ### Lists -/

section

variable {α β : Type} {S : α → β → Prop} {l : List α} {l' : List β}

theorem forall₂_getElem? (h : List.Forall₂ S l l') (i : Nat) : Option.Rel S l[i]? l'[i]? := by
  induction h generalizing i with
  | nil => exact .none
  | cons h _ ih =>
    cases i with
    | zero => exact .some h
    | succ i => exact ih i

theorem forall₂_set {a : α} {b : β} (h : List.Forall₂ S l l') (hab : S a b) (i : Nat) :
    List.Forall₂ S (l.set i a) (l'.set i b) := by
  induction h generalizing i with
  | nil => exact .nil
  | cons h hs ih =>
    cases i with
    | zero => exact .cons hab hs
    | succ i => exact .cons h (ih i)

theorem forall₂_replicate {a : α} {b : β} (hab : S a b) (n : Nat) :
    List.Forall₂ S (List.replicate n a) (List.replicate n b) := by
  induction n with
  | zero => exact .nil
  | succ n ih => exact .cons hab ih

end

/-! ### Values -/

namespace Value

/-- Two values that differ in functions only, with `R` between the functions. Arrays are as long as each other,
and nest in the same way. -/
inductive Related (R : FunctionCode → FunctionCode → Prop) : Value → Value → Prop where
  | int (n : Int64) : Related R (.int n) (.int n)
  | str (text : String) : Related R (.str text) (.str text)
  | bool (b : Bool) : Related R (.bool b) (.bool b)
  | null : Related R .null .null
  | array {vs vs' : List Value} :
      List.Forall₂ (Related R) vs vs' → Related R (.array vs) (.array vs')
  | function {f f' : FunctionCode} : R f f' → Related R (.function f) (.function f')
  | builtin (b : Builtin) : Related R (.builtin b) (.builtin b)

variable {R S : FunctionCode → FunctionCode → Prop} {v v' w w' : Value}

theorem Related.type_eq (h : Related R v v') : v.type = v'.type := by
  cases h <;> rfl

theorem Related.isTruthy_eq (h : Related R v v') : v.isTruthy = v'.isTruthy := by
  cases h <;> rfl

mutual

/-- Related values are shown the same, as long as related functions have equally many parameters. -/
theorem Related.display_eq (hparams : ∀ f f', R f f' → f.params = f'.params) :
    ∀ {v v' : Value}, Related R v v' → v.display = v'.display
  | .int _, _, .int _ => rfl
  | .str _, _, .str _ => rfl
  | .bool _, _, .bool _ => rfl
  | .null, _, .null => rfl
  | .builtin _, _, .builtin _ => rfl
  | .function f, _, .function h => by
    rw [display, display, hparams _ _ h]
  | .array _, _, .array h => by
    rw [display, display, displayAll_eq hparams h]

theorem displayAll_eq (hparams : ∀ f f', R f f' → f.params = f'.params) :
    ∀ {vs vs' : List Value}, List.Forall₂ (Related R) vs vs' → displayAll vs = displayAll vs'
  | [], _, .nil => rfl
  | v :: vs, _, .cons h hs => by
    rw [displayAll, displayAll, Related.display_eq hparams h, displayAll_eq hparams hs]

end

mutual

/-- A value whose functions are related to themselves is so, too. -/
theorem related_refl : ∀ {v : Value}, (∀ f ∈ v.functions, R f f) → Related R v v
  | .int n, _ => .int n
  | .str text, _ => .str text
  | .bool b, _ => .bool b
  | .null, _ => .null
  | .builtin b, _ => .builtin b
  | .function f, h => .function (h f (List.mem_singleton_self f))
  | .array _, h => .array (related_refl_all h)

theorem related_refl_all : ∀ {vs : List Value}, (∀ f ∈ functionsOfAll vs, R f f) →
    List.Forall₂ (Related R) vs vs
  | [], _ => .nil
  | _ :: _, h => by
    refine .cons (related_refl ?_) (related_refl_all ?_)
    · exact fun f hf => h f (List.mem_append_left _ hf)
    · exact fun f hf => h f (List.mem_append_right _ hf)

end

mutual

/-- Values are related in another way, too, if their functions are. -/
theorem Related.imp : ∀ {v v' : Value}, Related R v v' →
    (∀ f ∈ v.functions, ∀ f', R f f' → S f f') → Related S v v'
  | .int _, _, .int n, _ => .int n
  | .str _, _, .str text, _ => .str text
  | .bool _, _, .bool b, _ => .bool b
  | .null, _, .null, _ => .null
  | .builtin _, _, .builtin b, _ => .builtin b
  | .function f, _, .function h, hsub => .function (hsub f (List.mem_singleton_self f) _ h)
  | .array _, _, .array h, hsub => .array (related_imp_all h hsub)

theorem related_imp_all : ∀ {vs vs' : List Value}, List.Forall₂ (Related R) vs vs' →
    (∀ f ∈ functionsOfAll vs, ∀ f', R f f' → S f f') → List.Forall₂ (Related S) vs vs'
  | [], _, .nil, _ => .nil
  | _ :: _, _, .cons h hs, hsub => by
    refine .cons (h.imp ?_) (related_imp_all hs ?_)
    · exact fun f hf => hsub f (List.mem_append_left _ hf)
    · exact fun f hf => hsub f (List.mem_append_right _ hf)

end

mutual

/-- The functions of related values are related one by one. -/
theorem Related.functions : ∀ {v v' : Value}, Related R v v' →
    List.Forall₂ R v.functions v'.functions
  | .int _, _, .int _ => .nil
  | .str _, _, .str _ => .nil
  | .bool _, _, .bool _ => .nil
  | .null, _, .null => .nil
  | .builtin _, _, .builtin _ => .nil
  | .function _, _, .function h => .cons h .nil
  | .array _, _, .array h => functionsOfAll_related h

theorem functionsOfAll_related : ∀ {vs vs' : List Value}, List.Forall₂ (Related R) vs vs' →
    List.Forall₂ R (functionsOfAll vs) (functionsOfAll vs')
  | [], _, .nil => .nil
  | _ :: _, _, .cons h hs => List.rel_append h.functions (functionsOfAll_related hs)

end

mutual

/-- Related values are equal if their functions are. -/
theorem Related.eq : ∀ {v v' : Value}, Related R v v' → v.functions = v'.functions → v = v'
  | .int _, _, .int _, _ => rfl
  | .str _, _, .str _, _ => rfl
  | .bool _, _, .bool _, _ => rfl
  | .null, _, .null, _ => rfl
  | .builtin _, _, .builtin _, _ => rfl
  | .function _, _, .function _, hsame => by
    rw [List.singleton_inj.mp hsame]
  | .array _, _, .array h, hsame => by
    rw [eq_of_related_all h hsame]

theorem eq_of_related_all : ∀ {vs vs' : List Value}, List.Forall₂ (Related R) vs vs' →
    functionsOfAll vs = functionsOfAll vs' → vs = vs'
  | [], _, .nil, _ => rfl
  | _ :: _, _, .cons h hs, hsame => by
    obtain ⟨hfirst, hrest⟩ := List.append_inj hsame h.functions.length_eq
    rw [h.eq hfirst, eq_of_related_all hs hrest]

end

mutual

/-- Related values are equal to each other if what they are related to is, as long as no function is
related to two. -/
theorem Related.eq_iff (hR : Relator.BiUnique R) : ∀ {v v' w w' : Value}, Related R v v' →
    Related R w w' → (v = w ↔ v' = w')
  | _, _, _, _, .int _, hw => by cases hw <;> simp
  | _, _, _, _, .str _, hw => by cases hw <;> simp
  | _, _, _, _, .bool _, hw => by cases hw <;> simp
  | _, _, _, _, .null, hw => by cases hw <;> simp
  | _, _, _, _, .builtin _, hw => by cases hw <;> simp
  | _, _, _, _, .function hf, hw => by
    cases hw with
    | function hg =>
      rw [function.injEq, function.injEq]
      exact ⟨fun h => hR.2 hf (h ▸ hg), fun h => hR.1 hf (h ▸ hg)⟩
    | _ => simp
  | _, _, _, _, .array hs, hw => by
    cases hw with
    | array ks => rw [array.injEq, array.injEq, eq_iff_of_related_all hR hs ks]
    | _ => simp

theorem eq_iff_of_related_all (hR : Relator.BiUnique R) : ∀ {vs vs' ws ws' : List Value},
    List.Forall₂ (Related R) vs vs' → List.Forall₂ (Related R) ws ws' → (vs = ws ↔ vs' = ws')
  | _, _, _, _, .nil, hw => by cases hw <;> simp
  | _, _, _, _, .cons h hs, hw => by
    cases hw with
    | nil => simp
    | cons k ks =>
      rw [List.cons.injEq, List.cons.injEq, h.eq_iff hR k, eq_iff_of_related_all hR hs ks]

end

/-- Values that are related by a part of equality are equal. -/
theorem Related.eq_of_imp (hR : ∀ f f', R f f' → f = f') (h : Related R v v') : v = v' := by
  refine h.eq ?_
  have hfunctions := h.functions.imp hR
  rwa [List.forall₂_eq_eq_eq] at hfunctions

/-- A value that is related to another one is made of functions that are. -/
theorem Related.madeOf {known : FunctionCode → Prop} (h : Related R v v')
    (hR : ∀ f f', R f f' → known f) : v.MadeOf known := by
  have hall : ∀ {fs fs' : List FunctionCode}, List.Forall₂ R fs fs' → ∀ f ∈ fs, known f := by
    intro fs fs' hfs
    induction hfs with
    | nil => exact fun f hf => absurd hf List.not_mem_nil
    | cons h _ ih => exact List.forall_mem_cons.mpr ⟨hR _ _ h, ih⟩
  exact hall h.functions

/-- Data without functions is related to nothing but itself. -/
theorem Related.eq_of_functions (h : Related R v v') (hdata : v'.functions = []) : v = v' := by
  refine h.eq ?_
  have hfunctions := h.functions
  rw [hdata, List.forall₂_nil_right_iff] at hfunctions
  rw [hfunctions, hdata]

theorem related_of_functions (hdata : v.functions = []) : Related R v v := by
  refine related_refl fun f hf => ?_
  rw [hdata] at hf
  cases hf

/-- What may be missing is related to null where it is. -/
theorem related_getD {o o' : Option Value} (h : Option.Rel (Related R) o o') :
    Related R (o.getD .null) (o'.getD .null) := by
  cases h with
  | some h => exact h
  | none => exact .null

end Value

open Value

variable {R : FunctionCode → FunctionCode → Prop} {v v' w w' : Value}

/-! ### Operators -/

/-- Operators do not tell related operands apart, if comparisons do not. -/
theorem binary_related {op : Opcode} {l l' r r' : Value} (hl : Related R l l')
    (hr : Related R r r') (hsame : op = .equal ∨ op = .notEqual → (l = r ↔ l' = r')) :
    Machine.binary op l r = Machine.binary op l' r' := by
  by_cases hcompare : op = .equal ∨ op = .notEqual
  · have hbeq : (l == r) = (l' == r') := by
      rw [Bool.eq_iff_iff, beq_iff_eq, beq_iff_eq]
      exact hsame hcompare
    rcases hcompare with rfl | rfl <;> simp only [Machine.binary, bne, hbeq]
  · have htypes := hl.type_eq
    have htypes' := hr.type_eq
    cases op with
    | equal => exact absurd (.inl rfl) hcompare
    | notEqual => exact absurd (.inr rfl) hcompare
    | _ => cases hl <;> cases hr <;> rfl

theorem element_related {c c' p p' : Value} (hc : Related R c c') (hp : Related R p p') :
    Outcomes (Related R) (Machine.element c p) (Machine.element c' p') := by
  cases hc with
  | array hs =>
    cases hp with
    | int i =>
      simp only [Machine.element]
      split
      · exact .ok Related.null
      · exact .ok (related_getD (forall₂_getElem? hs _))
    | _ => exact .error _
  | _ => cases hp <;> exact .error _

/-- Builtins do not tell related arguments apart: they look at lengths, at texts and at how values are shown, or
pass on parts of what they are given. -/
theorem apply_related {args args' : List Value} (b : Builtin)
    (h : List.Forall₂ (Related R) args args')
    (hparams : ∀ f f', R f f' → f.params = f'.params) :
    Outcomes (Related R) (b.apply args) (b.apply args') := by
  unfold Builtin.apply
  rw [h.length_eq]
  split
  · cases h with
    | nil => exact .error _
    | cons hv hmore =>
      have hdisplay := hv.display_eq hparams
      have htype : Value.typeName _ = Value.typeName _ := congrArg ValueType.name hv.type_eq
      cases b with
      | str => exact .ok (hdisplay ▸ .str _)
      | type => exact .ok (htype ▸ .str _)
      | len =>
        cases hv with
        | array hs => exact .ok (hs.length_eq ▸ .int _)
        | str text => exact .ok (.int _)
        | _ => exact .error _
      | first =>
        cases hv with
        | array hs =>
          cases hs with
          | nil => exact .ok .null
          | cons h _ => exact .ok h
        | _ => exact .error _
      | last =>
        cases hv with
        | array hs =>
          refine .ok (related_getD ?_)
          rw [List.getLast?_eq_getElem?, List.getLast?_eq_getElem?, hs.length_eq]
          exact forall₂_getElem? hs _
        | _ => exact .error _
      | rest =>
        cases hv with
        | array hs =>
          cases hs with
          | nil => exact .ok .null
          | cons _ hs => exact .ok (.array hs)
        | _ => exact .error _
      | push =>
        cases hv with
        | array hs => exact .ok (.array (List.rel_append hs hmore))
        | _ => exact .error _
  · exact .error _

/-! ### Operands -/

/-- Equally many operands, related one by one. -/
def Stacked (R : FunctionCode → FunctionCode → Prop) (stack stack' : Array Value) : Prop :=
  List.Forall₂ (Related R) stack.toList stack'.toList

namespace Stacked

variable {stack stack' : Array Value}

theorem empty : Stacked R #[] #[] := .nil

theorem size_eq (h : Stacked R stack stack') : stack.size = stack'.size := by
  simpa using h.length_eq

/-- Operands are related in another way, too, if their functions are. -/
theorem imp {S : FunctionCode → FunctionCode → Prop} (h : Stacked R stack stack')
    (hsub : ∀ v ∈ stack, ∀ f ∈ v.functions, ∀ f', R f f' → S f f') : Stacked S stack stack' := by
  have hall : List.Forall₂ (fun v v' => v ∈ stack.toList ∧ Related R v v') stack.toList
      stack'.toList := (List.forall₂_and_left _ _).mpr ⟨fun _ hv => hv, h⟩
  exact hall.imp fun v v' hv => hv.2.imp (hsub v (Array.mem_toList_iff.mp hv.1))

theorem getElem? (h : Stacked R stack stack') (i : Nat) :
    Option.Rel (Related R) stack[i]? stack'[i]? := by
  have hi := forall₂_getElem? h i
  rwa [Array.getElem?_toList, Array.getElem?_toList] at hi

theorem snoc (h : Stacked R stack stack') (hv : Related R v v') :
    Stacked R (stack.push v) (stack'.push v') := by
  unfold Stacked
  rw [Array.toList_push, Array.toList_push]
  exact List.rel_append h (.cons hv .nil)

theorem pop (h : Stacked R stack stack') :
    Outcomes (fun p p' => Related R p.1 p'.1 ∧ Stacked R p.2 p'.2) (Machine.pop stack)
      (Machine.pop stack') := by
  have htop := h.getElem? (stack'.size - 1)
  have hbelow : Stacked R stack.pop stack'.pop := by
    unfold Stacked
    rw [Array.toList_pop, Array.toList_pop, List.dropLast_eq_take, List.dropLast_eq_take,
      h.length_eq]
    exact List.forall₂_take _ h
  unfold Machine.pop
  rw [Array.back?_eq_getElem?, Array.back?_eq_getElem?, h.size_eq]
  generalize stack[stack'.size - 1]? = top, stack'[stack'.size - 1]? = top' at htop
  cases htop with
  | some hv => exact .ok ⟨hv, hbelow⟩
  | none => exact .error _

theorem push (h : Stacked R stack stack') (hv : Related R v v') :
    Outcomes (Stacked R) (Machine.push stack v) (Machine.push stack' v') := by
  rw [Machine.push_eq, Machine.push_eq, h.size_eq]
  split
  · exact .ok (h.snoc hv)
  · exact .error _

theorem shrink (h : Stacked R stack stack') (n : Nat) :
    Stacked R (stack.shrink n) (stack'.shrink n) := by
  unfold Stacked
  rw [Array.toList_shrink, Array.toList_shrink]
  exact List.forall₂_take n h

theorem extract (h : Stacked R stack stack') (start stop : Nat) :
    Stacked R (stack.extract start stop) (stack'.extract start stop) := by
  unfold Stacked
  rw [Array.toList_extract, Array.toList_extract]
  exact List.forall₂_take _ (List.forall₂_drop _ h)

theorem resize (h : Stacked R stack stack') (n : Nat) :
    Stacked R (Machine.resize stack n) (Machine.resize stack' n) := by
  unfold Machine.resize
  rw [h.size_eq]
  split
  · exact h.shrink n
  · unfold Stacked
    rw [Array.toList_append, Array.toList_append, Array.toList_replicate]
    exact List.rel_append h (forall₂_replicate .null _)

theorem set (h : Stacked R stack stack') (hv : Related R v v') (i : Nat) :
    Stacked R (stack.setIfInBounds i v) (stack'.setIfInBounds i v') := by
  unfold Stacked
  rw [Array.toList_setIfInBounds, Array.toList_setIfInBounds]
  exact forall₂_set h hv i

end Stacked

end Notebook
