/-!
Tables from names to what they stand for.

A name has one entry at most; entries keep the order in which their names first came. Main facts:
`get?_insert` says what a look-up finds after an insertion, and `names_insert` that an insertion
adds its name and no other.
-/

namespace Notebook

/-- What some names stand for, in the order in which the names came. A table that is made by insertions has one
entry for each of its names. -/
structure NameTable (α : Type) where
  entries : List (String × α) := []
  deriving DecidableEq, Repr

namespace NameTable

variable {α : Type}

def lookup (name : String) : List (String × α) → Option α
  | [] => none
  | (key, v) :: rest => if key = name then some v else lookup name rest

def update (name : String) (v : α) : List (String × α) → List (String × α)
  | [] => [(name, v)]
  | (key, old) :: rest =>
    if key = name then (key, v) :: rest else (key, old) :: update name v rest

def get? (t : NameTable α) (name : String) : Option α := lookup name t.entries

/-- The table in which `name` stands for `v` and every other name for what it did. -/
def insert (t : NameTable α) (name : String) (v : α) : NameTable α := ⟨update name v t.entries⟩

def names (t : NameTable α) : List String := t.entries.map (·.1)

def size (t : NameTable α) : Nat := t.entries.length

@[simp] theorem get?_empty (name : String) : (⟨[]⟩ : NameTable α).get? name = none := rfl

theorem get?_insert (t : NameTable α) (name other : String) (v : α) :
    (t.insert name v).get? other = if name = other then some v else t.get? other := by
  obtain ⟨entries⟩ := t
  simp only [get?, insert]
  induction entries with
  | nil => simp [update, lookup]
  | cons entry rest ih =>
    obtain ⟨key, old⟩ := entry
    by_cases hkey : key = name
    · subst hkey
      by_cases hother : key = other <;> simp [update, lookup, hother]
    · by_cases hother : key = other
      · subst hother
        simp [update, lookup, hkey, Ne.symm hkey]
      · simp [update, lookup, hkey, hother, ih]

theorem names_insert (t : NameTable α) (name : String) (v : α) :
    (t.insert name v).names = if name ∈ t.names then t.names else t.names ++ [name] := by
  obtain ⟨entries⟩ := t
  simp only [names, insert]
  induction entries with
  | nil => simp [update]
  | cons entry rest ih =>
    obtain ⟨key, old⟩ := entry
    by_cases hkey : key = name
    · simp [update, hkey]
    · have hname : name ≠ key := fun h => hkey h.symm
      by_cases hmem : name ∈ rest.map (·.1) <;>
        simp only [update, hkey, if_false, List.map_cons, ih, hmem, if_true, List.mem_cons,
          hname, false_or, List.cons_append]

end NameTable

end Notebook
