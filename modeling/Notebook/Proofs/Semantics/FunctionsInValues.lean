import Notebook.Machine

/-!
The functions that occur in values.

`Value.MadeOf known v` says that every function in `v`, at any depth of arrays, is a known one.
Operators, indexing and builtins make values of the functions that they are given and of no others
(`madeOf_of_binary`, `madeOf_of_element`, `madeOf_of_builtin`).
-/

namespace Notebook

namespace Value

mutual

/-- The functions that occur in a value, at any depth of arrays and in order. Builtins are none of them. -/
def functions : Value → List FunctionCode
  | .array elements => functionsOfAll elements
  | .function f => [f]
  | _ => []

def functionsOfAll : List Value → List FunctionCode
  | [] => []
  | v :: vs => functions v ++ functionsOfAll vs

end

/-- Is every function in a value a known one? -/
def MadeOf (known : FunctionCode → Prop) (v : Value) : Prop := ∀ f ∈ v.functions, known f

variable {known known' : FunctionCode → Prop} {v : Value}

theorem MadeOf.mono (hsub : ∀ f, known f → known' f) (h : v.MadeOf known) : v.MadeOf known' :=
  fun f hf => hsub f (h f hf)

theorem madeOf_of_functions_eq_nil (h : v.functions = []) : v.MadeOf known := by
  intro f hf
  rw [h] at hf
  cases hf

@[simp] theorem madeOf_int (n : Int64) : (Value.int n).MadeOf known :=
  madeOf_of_functions_eq_nil rfl

@[simp] theorem madeOf_str (text : String) : (Value.str text).MadeOf known :=
  madeOf_of_functions_eq_nil rfl

@[simp] theorem madeOf_bool (b : Bool) : (Value.bool b).MadeOf known :=
  madeOf_of_functions_eq_nil rfl

@[simp] theorem madeOf_null : Value.null.MadeOf known := madeOf_of_functions_eq_nil rfl

@[simp] theorem madeOf_builtin (b : Builtin) : (Value.builtin b).MadeOf known :=
  madeOf_of_functions_eq_nil rfl

@[simp] theorem madeOf_function (f : FunctionCode) : (Value.function f).MadeOf known ↔ known f := by
  simp [MadeOf, functions]

theorem mem_functionsOfAll {f : FunctionCode} {vs : List Value} :
    f ∈ functionsOfAll vs ↔ ∃ v ∈ vs, f ∈ v.functions := by
  induction vs with
  | nil => simp [functionsOfAll]
  | cons v vs ih => simp [functionsOfAll, ih]

@[simp] theorem madeOf_array (vs : List Value) :
    (Value.array vs).MadeOf known ↔ ∀ v ∈ vs, v.MadeOf known := by
  constructor
  · intro h v hv f hf
    exact h f (mem_functionsOfAll.mpr ⟨v, hv, hf⟩)
  · intro h f hf
    obtain ⟨v, hv, hmem⟩ := mem_functionsOfAll.mp hf
    exact h v hv f hmem

/-- Is a value the other one, or somewhere inside of it? -/
inductive Occurs (f : Value) : Value → Prop where
  | self : Occurs f f
  | inside {v : Value} {elements : List Value} :
      v ∈ elements → Occurs f v → Occurs f (.array elements)

/-- What occurs in a value is made of the same functions. -/
theorem Occurs.madeOf {f : Value} (h : f.Occurs v) (hv : v.MadeOf known) : f.MadeOf known := by
  induction h with
  | self => exact hv
  | inside hmem _ ih => exact ih ((madeOf_array _).mp hv _ hmem)

end Value

open Value

variable {known : FunctionCode → Prop}

/-- A value that may be missing is made of known functions if it is there. -/
theorem madeOf_getD {o : Option Value} (h : ∀ v, o = some v → v.MadeOf known) :
    (o.getD .null).MadeOf known := by
  cases o with
  | none => simp
  | some v => exact h v rfl

theorem madeOf_of_checked {n : Int} {v : Value} (h : Machine.checked n = .ok v) :
    v.MadeOf known := by
  unfold Machine.checked at h
  split at h <;> cases h
  simp

/-- Operators make no functions. -/
theorem madeOf_of_binary {op : Opcode} {l r v : Value} (h : Machine.binary op l r = .ok v) :
    v.MadeOf known := by
  unfold Machine.binary at h
  split at h
  case h_1 | h_2 | h_7 | h_8 | h_9 => cases h; simp
  case h_3 | h_4 | h_5 => exact madeOf_of_checked h
  case h_6 =>
    split at h
    · cases h
    · exact madeOf_of_checked h
  case h_10 => cases h

theorem madeOf_of_element {c p v : Value} (hc : c.MadeOf known)
    (h : Machine.element c p = .ok v) : v.MadeOf known := by
  unfold Machine.element at h
  split at h
  · rename_i elements i
    split at h <;> cases h
    · simp
    · refine madeOf_getD ?_
      intro w hw
      exact (madeOf_array _).mp hc w (List.mem_of_getElem? hw)
  · cases h

/-- Builtins take values apart and put them together, and that is all they do with functions. -/
theorem madeOf_of_builtin {b : Builtin} {args : List Value} {v : Value}
    (hargs : ∀ a ∈ args, a.MadeOf known) (h : b.apply args = .ok v) : v.MadeOf known := by
  unfold Builtin.apply at h
  split at h
  · cases args with
    | nil => cases h
    | cons first more =>
      obtain ⟨hfirst, hmore⟩ := List.forall_mem_cons.mp hargs
      simp only [Builtin.eval] at h
      split at h <;> cases h
      -- Only those that work on arrays pass on what may be a function: an element, some of the elements, or all
      -- of them and one more.
      case h_5 elements =>
        exact madeOf_getD fun w hw => (madeOf_array _).mp hfirst w (List.mem_of_mem_head? hw)
      case h_6 elements =>
        exact madeOf_getD fun w hw => (madeOf_array _).mp hfirst w (List.mem_of_getLast? hw)
      case h_8 head elements =>
        refine (madeOf_array _).mpr ?_
        intro w hw
        exact (madeOf_array _).mp hfirst w (List.mem_cons_of_mem _ hw)
      case h_9 elements =>
        refine (madeOf_array _).mpr ?_
        intro w hw
        rcases List.mem_append.mp hw with hw | hw
        · exact (madeOf_array _).mp hfirst w hw
        · exact hmore w hw
      all_goals simp
  · cases h

end Notebook
