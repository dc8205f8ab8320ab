import Notebook.CompiledUnit.Decode
import Notebook.Store

/-!
Replaying stored units, one after the other, on a store of its own.

`Store.Replays` relates the units and the store at the start to the values and the store that come
of it. It asks of every unit that its bytes can be read, that its constants go right at the end of
the pool, and that its run finishes.
-/

namespace Notebook

/-- Stored units run one after the other, with these values and this store at the end. Each of them finds the
store that the one before it left. -/
inductive Store.Replays (depth : Nat) :
    List SerializedUnit → Store → List (Option Value) → Store → Prop where
  | done {s : Store} : Replays depth [] s [] s
  | next {stored : SerializedUnit} {rest : List SerializedUnit} {u : CompiledUnit}
      {value : Option Value} {values : List (Option Value)} {s s₁ s' : Store} :
      CompiledUnit.deserialize stored.data = .ok u → u.constantsOffset = s.constants.size →
      s.run u ⟨u.snippet, depth⟩ = (.finished value, s₁) → Replays depth rest s₁ values s' →
      Replays depth (stored :: rest) s (value :: values) s'

namespace Store.Replays

variable {depth : Nat} {units units' : List SerializedUnit} {values values' : List (Option Value)}
variable {s s₁ s' : Store}

theorem append (h₁ : Replays depth units s values s₁) (h₂ : Replays depth units' s₁ values' s') :
    Replays depth (units ++ units') s (values ++ values') s' := by
  induction h₁ with
  | done => exact h₂
  | next hread hoffset hrun _ ih => exact .next hread hoffset hrun (ih h₂)

/-- One more unit at the end. -/
theorem snoc {stored : SerializedUnit} {u : CompiledUnit} {value : Option Value}
    (h : Replays depth units s values s₁) (hread : CompiledUnit.deserialize stored.data = .ok u)
    (hoffset : u.constantsOffset = s₁.constants.size)
    (hrun : s₁.run u ⟨u.snippet, depth⟩ = (.finished value, s')) :
    Replays depth (units ++ [stored]) s (values ++ [value]) s' :=
  h.append (.next hread hoffset hrun .done)

end Store.Replays

end Notebook
