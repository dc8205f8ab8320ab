import Mathlib.Data.List.Nodup
import Notebook.Proofs.Engine.ArchiveContents

/-!
What the directories of compiled units hold.

Any evaluator may run the units, but snippets are numbered and compiled as in a session. An engine
evaluates texts, is drained, and is told to write into a new directory or to write nothing, also while an
evaluation is going on that has its number. `Shelves` says what its directories are to hold: for each of
them the units that compiled and were stored while it was the current one, whatever became of their runs.

* `Engine.Shelved`: how the directories of an engine agree with its shelves.
* `UnitFiles.Holds.add_some`: writing a unit is putting it on the current shelf.
* `Engine.holds_act`, `Engine.Shelved.move`: everything that is done keeps them in agreement, as long as
  there are numbers.
* `Shelves.Grows`: shelves only get longer, and one that is not the current one stays as it is.
* `Engine.directories_faithful`: so each directory holds the two files of each unit on its shelf and no
  others, and no file is written twice.
-/

namespace Notebook

/-! ### Shelves -/

/-- A unit with its byte form, so that both of its files are known. -/
structure StoredUnit where
  unit : CompiledUnit
  stored : SerializedUnit
  serialized : unit.serialize = .ok stored

namespace StoredUnit

/-- A unit with its byte form, if it has one. -/
def of? (u : CompiledUnit) : Option StoredUnit :=
  match h : u.serialize with
  | .ok stored => some ⟨u, stored, h⟩
  | .error _ => none

def number (f : StoredUnit) : Nat := f.unit.snippet.toNat

def files (f : StoredUnit) : List (String × FileContent) :=
  [("Line_" ++ f.number.repr ++ ".bin", .bytes f.stored.data),
    ("Line_" ++ f.number.repr ++ ".txt", .text f.unit.listing)]

end StoredUnit

/-- What the directories are to hold, in the order in which they were started, and which one is current. There
are no files here, only units, and nothing can fail. -/
structure Shelves where
  shelves : List (List StoredUnit) := []
  current : Option Nat := none

namespace Shelves

def start (s : Shelves) : Shelves := ⟨s.shelves ++ [[]], some s.shelves.length⟩

/-- Puts a unit on the current shelf, if there is a unit and such a shelf. -/
def put (made : Option StoredUnit) (s : Shelves) : Shelves :=
  match made, s.current with
  | some f, some i => { s with shelves := s.shelves.modify i (· ++ [f]) }
  | _, _ => s

end Shelves

/-! ### What is done with an engine -/

namespace Engine

/-- What can be done with an engine while an evaluation is going on: to evaluate a text is refused. -/
inductive Act where
  | drain
  | write (on : Bool)
  | refused (source : String)

/-- What can be done with an engine. Some of it can be done as soon as the snippet has its number. -/
inductive Move where
  | drain
  | write (on : Bool)
  | eval (source : String) (meanwhile : List Act)

def Move.evaluates : Move → Bool
  | .eval _ _ => true
  | _ => false

variable {σ τ : Type}

def act (parts : Parts σ τ) : Act → Engine σ τ → Engine σ τ
  | .drain, e => e.drain.2
  | .write on, e => e.setWriting on
  | .refused source, e => (eval parts source e).2

def actAll (parts : Parts σ τ) (acts : List Act) (e : Engine σ τ) : Engine σ τ :=
  acts.foldl (fun e a => e.act parts a) e

def move (parts : Parts σ τ) : Move → Engine σ τ → Engine σ τ
  | .drain, e => e.drain.2
  | .write on, e => e.setWriting on
  | .eval source meanwhile, e =>
    (evalObserving parts (fun _ e => ((), e.actAll parts meanwhile)) source e).2

/-- The engine when the compiler gets the text, after what was done meanwhile. -/
def asked (parts : Parts σ τ) (meanwhile : List Act) (e : Engine σ τ) : Engine σ τ :=
  (e.begun parts).actAll parts meanwhile

/-- The unit that the compiler makes of a text, with its byte form, if it makes one that has one. -/
def made (parts : Parts σ τ) (source : String) (meanwhile : List Act) (e : Engine σ τ) :
    Option StoredUnit :=
  let compiled := parts.compiler.compile (e.nextNumber parts) source (e.asked parts meanwhile).compiler
  compiled.1.1.toOption.bind StoredUnit.of?

end Engine

namespace Shelves

/-- What turning the writing on or off does to the shelves. -/
def turn (s : Shelves) : Bool → Shelves
  | true => s.start
  | false => { s with current := none }

def act : Engine.Act → Shelves → Shelves
  | .write on, s => s.turn on
  | _, s => s

def actAll (acts : List Engine.Act) (s : Shelves) : Shelves := acts.foldl (fun s a => s.act a) s

/-- A unit that was made is put on the shelf that is the current one by then. -/
def move {σ τ : Type} (parts : Parts σ τ) (e : Engine σ τ) : Engine.Move → Shelves → Shelves
  | .drain, s => s
  | .write on, s => s.turn on
  | .eval source meanwhile, s => (s.actAll meanwhile).put (e.made parts source meanwhile)

end Shelves

namespace Engine

variable {σ τ : Type}

/-- The engine and its shelves after some moves. -/
def moveAll (parts : Parts σ τ) : List Move → Engine σ τ × Shelves → Engine σ τ × Shelves
  | [], w => w
  | m :: rest, (e, s) => moveAll parts rest (e.move parts m, s.move parts e m)

def bundled (evaluator : EvaluatorPart τ) : Parts IncrementalCompiler τ :=
  ⟨IncrementalCompiler.part, evaluator⟩

/-- A new engine that numbers and compiles snippets as in a session, and its shelves. -/
def opened (config : Config) (evaluator : τ) : Engine IncrementalCompiler τ × Shelves :=
  (setWriting config.writeUnits { compiler := { maxCallDepth := config.maxCallDepth }, evaluator },
    Shelves.turn {} config.writeUnits)

end Engine

/-! ### Files and their names -/

/-- A name that is new to a table comes last. -/
theorem NameTable.insert_of_new {α : Type} {t : NameTable α} {name : String} (h : name ∉ t.names) (v : α) :
    t.insert name v = ⟨t.entries ++ [(name, v)]⟩ := by
  obtain ⟨entries⟩ := t
  simp only [insert, names, mk.injEq] at h ⊢
  induction entries with
  | nil => rfl
  | cons entry rest ih =>
    rw [List.map_cons, List.mem_cons, not_or] at h
    rw [update, if_neg (Ne.symm h.1), ih h.2]
    rfl

namespace StoredUnit

def nameIn (extension : String) (n : Nat) : String := "Line_" ++ n.repr ++ extension

theorem eq_of_nameIn {extension : String} {m n : Nat} (h : nameIn extension m = nameIn extension n) :
    m = n :=
  eq_of_repr_eq ((String.append_right_inj _).mp ((String.append_left_inj _).mp h))

theorem nameIn_bin_ne_txt (m n : Nat) : nameIn ".bin" m ≠ nameIn ".txt" n := by
  intro h
  have hlists := congrArg String.toList h
  unfold nameIn at hlists
  rw [String.toList_append (t := ".bin"), String.toList_append (t := ".txt")] at hlists
  have hlengths : ".bin".toList.length = ".txt".toList.length := by simp
  exact absurd (List.append_inj_right' hlists hlengths) (by decide)

variable {f g : StoredUnit}

theorem of?_eq {u : CompiledUnit} {stored : SerializedUnit} (h : u.serialize = .ok stored) :
    of? u = some ⟨u, stored, h⟩ := by
  unfold of?
  split
  · rename_i stored' h'
    cases h.symm.trans h'
    rfl
  · rename_i cause h'
    cases h.symm.trans h'

theorem unit_of_of? {u : CompiledUnit} (h : of? u = some f) : f.unit = u := by
  unfold of? at h
  split at h <;> cases h
  rfl

theorem names_files (f : StoredUnit) :
    f.files.map (·.1) = [nameIn ".bin" f.number, nameIn ".txt" f.number] := rfl

theorem nodup_names (f : StoredUnit) : (f.files.map (·.1)).Nodup := by
  rw [names_files]
  simp [nameIn_bin_ne_txt]

/-- A file name belongs to one number. -/
theorem number_eq_of_name {name : String} (hf : name ∈ f.files.map (·.1)) (hg : name ∈ g.files.map (·.1)) :
    f.number = g.number := by
  rw [names_files, List.mem_pair] at hf hg
  rcases hf with rfl | rfl <;> rcases hg with hg | hg
  · exact eq_of_nameIn hg
  · exact absurd hg (nameIn_bin_ne_txt _ _)
  · exact absurd hg.symm (nameIn_bin_ne_txt _ _)
  · exact eq_of_nameIn hg

/-- No two units with different numbers have a file name in common. -/
theorem nodup_files {units : List StoredUnit} (h : units.Pairwise fun f g => f.number < g.number) :
    ((units.flatMap files).map (·.1)).Nodup := by
  rw [List.map_flatMap]
  refine List.nodup_flatMap.mpr ⟨fun f _ => nodup_names f, h.imp ?_⟩
  intro f g hlt name hf hg
  exact absurd (number_eq_of_name hf hg) (Nat.ne_of_lt hlt)

theorem exists_of_mem_names {units : List StoredUnit} {name : String}
    (h : name ∈ (units.flatMap files).map (·.1)) : ∃ f ∈ units, name ∈ f.files.map (·.1) := by
  rw [List.map_flatMap] at h
  exact List.mem_flatMap.mp h

/-- Writing the files of a unit into a table that has none of their names. -/
theorem written_eq {t : NameTable FileContent} (f : StoredUnit)
    (hnew : ∀ name ∈ f.files.map (·.1), name ∉ t.names) :
    (t.insert f.stored.fileName (.bytes f.stored.data)).insert f.unit.listingFileName
      (.text f.unit.listing) = ⟨t.entries ++ f.files⟩ := by
  have hbytes : f.stored.fileName = nameIn ".bin" f.number := by
    show nameIn ".bin" f.stored.snippet.toNat = _
    rw [(CompiledUnit.ends_of_serialize f.serialized).1]
    rfl
  have hlisting : f.unit.listingFileName = nameIn ".txt" f.number := rfl
  rw [names_files] at hnew
  have hfirst := hnew _ List.mem_cons_self
  have hsecond : nameIn ".txt" f.number ∉ (t.insert (nameIn ".bin" f.number) (.bytes f.stored.data)).names := by
    rw [NameTable.names_insert, if_neg hfirst, List.mem_append, List.mem_singleton, not_or]
    exact ⟨hnew _ (List.mem_cons_of_mem _ List.mem_cons_self), (nameIn_bin_ne_txt _ _).symm⟩
  rw [hbytes, hlisting, NameTable.insert_of_new hsecond, NameTable.insert_of_new hfirst,
    List.append_assoc]
  rfl

end StoredUnit

/-! ### Directories and shelves -/

/-- The directory that holds the files of the units on a shelf. -/
def Shelves.directory (units : List StoredUnit) : UnitDirectory := some ⟨units.flatMap StoredUnit.files⟩

/-- The directories hold what is on the shelves, which are in the order of the units' numbers. The numbers are
below `n`, so a unit with the next number has file names that are new to every directory. -/
structure UnitFiles.Holds (n : Nat) (files : UnitFiles) (s : Shelves) : Prop where
  current : files.current = s.current
  within : ∀ i, s.current = some i → i < s.shelves.length
  directories : files.directories = s.shelves.map Shelves.directory
  numbered : ∀ units ∈ s.shelves, ∀ f ∈ units, f.number < n
  ordered : ∀ units ∈ s.shelves, units.Pairwise fun f g => f.number < g.number

namespace UnitFiles

variable {n m : Nat} {files : UnitFiles} {s : Shelves}

theorem Holds.mono (h : files.Holds n s) (hle : n ≤ m) : files.Holds m s where
  current := h.current
  within := h.within
  directories := h.directories
  numbered units hunits f hf := Nat.lt_of_lt_of_le (h.numbered units hunits f hf) hle
  ordered := h.ordered

theorem Holds.start (h : files.Holds n s) : files.start.Holds n s.start where
  current := by
    show some files.directories.length = some s.shelves.length
    rw [h.directories, List.length_map]
  within := by
    rintro i ⟨⟩
    show s.shelves.length < (s.shelves ++ [[]]).length
    simp
  directories := by
    show files.directories ++ _ = (s.shelves ++ [[]]).map Shelves.directory
    rw [h.directories, List.map_append]
    rfl
  numbered units hunits := by
    rcases List.mem_append.mp hunits with hunits | hunits
    · exact h.numbered units hunits
    · rw [List.mem_singleton.mp hunits]
      exact fun f hf => nomatch hf
  ordered units hunits := by
    rcases List.mem_append.mp hunits with hunits | hunits
    · exact h.ordered units hunits
    · rw [List.mem_singleton.mp hunits]
      exact .nil

theorem Holds.stop (h : files.Holds n s) : files.stop.Holds n { s with current := none } :=
  ⟨rfl, fun _ hnone => (nomatch hnone), h.directories, h.numbered, h.ordered⟩

/-- The files after those of a unit were written, if there is one and writing them succeeds. -/
def add (files : UnitFiles) : Option StoredUnit → UnitFiles
  | none => files
  | some f => (files.write f.unit f.stored).toOption.getD files

/-- One more unit, with the next number, on a shelf and in its directory. Other directories are not touched, and
the current one only grows at its end. -/
theorem Holds.set (h : files.Holds n s) {f : StoredUnit} (hf : f.number = n) {i : Nat}
    (hi : i < s.shelves.length) :
    Holds (n + 1) { files with directories := files.directories.set i (Shelves.directory (s.shelves[i] ++ [f])) }
      { s with shelves := s.shelves.set i (s.shelves[i] ++ [f]) } where
  current := h.current
  within j hj := by
    rw [List.length_set]
    exact h.within j hj
  directories := by rw [h.directories, List.map_set]
  numbered units hunits g hg := by
    rcases List.mem_or_eq_of_mem_set hunits with hunits | rfl
    · exact Nat.lt_succ_of_lt (h.numbered units hunits g hg)
    · rcases List.mem_append.mp hg with hg | hg
      · exact Nat.lt_succ_of_lt (h.numbered _ (List.getElem_mem hi) g hg)
      · rw [List.mem_singleton.mp hg, hf]
        exact Nat.lt_succ_self n
  ordered units hunits := by
    rcases List.mem_or_eq_of_mem_set hunits with hunits | rfl
    · exact h.ordered units hunits
    · refine List.pairwise_append.mpr
        ⟨h.ordered _ (List.getElem_mem hi), List.pairwise_singleton _ _, ?_⟩
      intro g hg g' hg'
      rw [List.mem_singleton.mp hg', hf]
      exact h.numbered _ (List.getElem_mem hi) g hg

/-- The directory that is written to is the one of the current shelf. -/
theorem Holds.directory?_eq (h : files.Holds n s) {i : Nat} (hcurrent : s.current = some i)
    (hi : i < s.shelves.length) : files.directory? = some (Shelves.directory s.shelves[i]) := by
  unfold directory?
  rw [h.current, hcurrent, h.directories]
  simp [hi]

/-- The files of the unit with the next number are added to the current directory, if there is one. -/
theorem Holds.add_some (h : files.Holds n s) {f : StoredUnit} (hf : f.number = n) :
    (files.add (some f)).Holds (n + 1) (s.put (some f)) := by
  cases hcurrent : s.current with
  | none =>
    have hadd : files.add (some f) = files := by
      unfold add UnitFiles.write
      rw [h.current, hcurrent]
      rfl
    have hput : s.put (some f) = s := by
      unfold Shelves.put
      rw [hcurrent]
    rw [hadd, hput]
    exact h.mono (Nat.le_succ n)
  | some i =>
    have hi := h.within i hcurrent
    have hput : s.put (some f) = { s with shelves := s.shelves.set i (s.shelves[i] ++ [f]) } := by
      unfold Shelves.put
      rw [hcurrent]
      simp only [List.modify_eq_set, List.getElem?_eq_getElem hi, Option.getD_some]
    -- The units on the shelf have smaller numbers, and so other file names.
    have hnew : ∀ name ∈ f.files.map (·.1),
        name ∉ (s.shelves[i].flatMap StoredUnit.files).map (·.1) := by
      intro name hname hold
      obtain ⟨g, hg, hgname⟩ := StoredUnit.exists_of_mem_names hold
      have hlt := h.numbered _ (List.getElem_mem hi) g hg
      rw [← hf, StoredUnit.number_eq_of_name hname hgname] at hlt
      exact Nat.lt_irrefl _ hlt
    -- With new names, writing appends the two files to the directory.
    have hadd : files.add (some f) = { files with
        directories := files.directories.set i (Shelves.directory (s.shelves[i] ++ [f])) } := by
      have hwritten := StoredUnit.written_eq (t := ⟨s.shelves[i].flatMap StoredUnit.files⟩) f hnew
      unfold add UnitFiles.write
      rw [h.directory?_eq hcurrent hi, h.current, hcurrent]
      simp only [Shelves.directory, hwritten, List.flatMap_append, List.flatMap_singleton]
      rfl
    rw [hadd, hput]
    exact h.set hf hi

/-- The directory that is written to is there. -/
theorem Holds.write_ok (h : files.Holds n s) (u : CompiledUnit) (stored : SerializedUnit) :
    ∃ files', files.write u stored = .ok files' := by
  unfold UnitFiles.write
  cases hcurrent : s.current with
  | none =>
    rw [h.current, hcurrent]
    exact ⟨_, rfl⟩
  | some i =>
    rw [h.directory?_eq hcurrent (h.within i hcurrent), h.current, hcurrent]
    exact ⟨_, rfl⟩

end UnitFiles

/-! ### Shelves grow -/

/-- Shelves have become longer. One that was not the current one is not either now, and is as it was. -/
structure Shelves.Grows (s s' : Shelves) : Prop where
  longer : ∀ i units, s.shelves[i]? = some units → ∃ added, s'.shelves[i]? = some (units ++ added) ∧
    (s.current ≠ some i → added = [] ∧ s'.current ≠ some i)

namespace Shelves

theorem Grows.refl (s : Shelves) : s.Grows s where
  longer i units h := ⟨[], by rw [h, List.append_nil], fun hother => ⟨rfl, hother⟩⟩

theorem Grows.trans {s s' s'' : Shelves} (h : s.Grows s') (h' : s'.Grows s'') : s.Grows s'' where
  longer i units hunits := by
    obtain ⟨added, hadded, hold⟩ := h.longer i units hunits
    obtain ⟨more, hmore, hold'⟩ := h'.longer i _ hadded
    refine ⟨added ++ more, by rw [hmore, List.append_assoc], fun hother => ?_⟩
    obtain ⟨rfl, hother⟩ := hold hother
    exact hold' hother

theorem grows_turn (s : Shelves) (on : Bool) : s.Grows (s.turn on) where
  longer i units h := by
    have hi := (List.getElem?_eq_some_iff.mp h).1
    cases on with
    | true =>
      refine ⟨[], ?_, fun _ => ⟨rfl, ?_⟩⟩
      · show (s.shelves ++ [[]])[i]? = _
        rw [List.getElem?_append_left hi, h, List.append_nil]
      · intro hcurrent
        have hlast : s.shelves.length = i := Option.some.inj hcurrent
        exact absurd hi (hlast ▸ Nat.lt_irrefl _)
    | false => exact ⟨[], by rw [List.append_nil]; exact h, fun _ => ⟨rfl, fun hnone => (nomatch hnone)⟩⟩

theorem grows_put (s : Shelves) (made : Option StoredUnit) : s.Grows (s.put made) := by
  unfold put
  split
  · rename_i f j hcurrent
    refine ⟨fun i units h => ?_⟩
    by_cases hij : j = i
    · subst hij
      exact ⟨[f], by simp [h], fun hother => absurd hcurrent hother⟩
    · exact ⟨[], by simp [hij, h], fun hother => ⟨rfl, hother⟩⟩
  · exact .refl s

theorem grows_actAll (acts : List Engine.Act) (s : Shelves) : s.Grows (s.actAll acts) := by
  induction acts generalizing s with
  | nil => exact .refl s
  | cons a rest ih =>
    refine Grows.trans ?_ (ih (s.act a))
    cases a with
    | write on => exact s.grows_turn on
    | drain | refused source => exact .refl s

theorem grows_move {σ τ : Type} (parts : Parts σ τ) (e : Engine σ τ) (m : Engine.Move) (s : Shelves) :
    s.Grows (s.move parts e m) := by
  cases m with
  | drain => exact .refl s
  | write on => exact s.grows_turn on
  | eval source meanwhile => exact (s.grows_actAll meanwhile).trans (grows_put _ _)

theorem grows_moveAll {σ τ : Type} (parts : Parts σ τ) (moves : List Engine.Move)
    (w : Engine σ τ × Shelves) : w.2.Grows (Engine.moveAll parts moves w).2 := by
  induction moves generalizing w with
  | nil => exact .refl _
  | cons m rest ih => exact (grows_move parts w.1 m w.2).trans (ih (w.1.move parts m, w.2.move parts w.1 m))

end Shelves

/-! ### Moves -/

namespace Engine

variable {σ τ : Type} {parts : Parts σ τ} {n : Nat}

theorem holds_setWriting {e : Engine σ τ} {s : Shelves} (h : e.files.Holds n s) (on : Bool) :
    (e.setWriting on).files.Holds n (s.turn on) := by
  cases on with
  | true => exact h.start
  | false => exact h.stop

/-- What is done while an evaluation is going on leaves it going on, and the compiler as it is. -/
theorem holds_act (parts : Parts σ τ) (a : Act) {e : Engine σ τ} {s : Shelves} (h : e.files.Holds n s)
    (hbusy : e.executing = true) :
    (e.act parts a).files.Holds n (s.act a) ∧ (e.act parts a).executing = true ∧
      (e.act parts a).compiler = e.compiler := by
  cases a with
  | drain => exact ⟨h, hbusy, rfl⟩
  | write on => exact ⟨holds_setWriting h on, hbusy, rfl⟩
  | refused source =>
    have hsame : e.act parts (.refused source) = e := by
      show (evalObserving parts (fun _ e => ((), e)) source e).2 = e
      rw [evalObserving_of_busy hbusy]
    rw [hsame]
    exact ⟨h, hbusy, rfl⟩

theorem holds_actAll (parts : Parts σ τ) (acts : List Act) {e : Engine σ τ} {s : Shelves}
    (h : e.files.Holds n s) (hbusy : e.executing = true) :
    (e.actAll parts acts).files.Holds n (s.actAll acts) ∧
      (e.actAll parts acts).compiler = e.compiler := by
  induction acts generalizing e s with
  | nil => exact ⟨h, rfl⟩
  | cons a rest ih =>
    obtain ⟨h, hbusy, hsame⟩ := holds_act parts a h hbusy
    obtain ⟨h, hrest⟩ := ih h hbusy
    exact ⟨h, hrest.trans hsame⟩

theorem add_of_persist {u : CompiledUnit} {files files' : UnitFiles} {stored : SerializedUnit}
    (h : persist u files = .ok (stored, files')) : files' = files.add (StoredUnit.of? u) := by
  have hstored := serialize_eq_of_persist h
  rw [StoredUnit.of?_eq hstored]
  unfold persist at h
  rw [hstored] at h
  unfold UnitFiles.add
  simp only at h ⊢
  split at h
  · cases h
  · rename_i hwrite
    cases h
    rw [hwrite]
    rfl

theorem add_of_persist_error {u : CompiledUnit} {files : UnitFiles} {error : SessionError}
    (h : persist u files = .error error) : files = files.add (StoredUnit.of? u) := by
  cases hmade : StoredUnit.of? u with
  | none => rfl
  | some f =>
    obtain rfl := StoredUnit.unit_of_of? hmade
    unfold persist at h
    rw [f.serialized] at h
    unfold UnitFiles.add
    simp only at h ⊢
    split at h
    · rename_i hwrite
      rw [hwrite]
      rfl
    · cases h

/-- The files of a unit that was made are written, whatever becomes of its run. -/
theorem evalAs_files (id : SnippetId) (source : String) (e : Engine σ τ) :
    (evalAs parts id source e).2.files =
      e.files.add ((parts.compiler.compile id source e.compiler).1.1.toOption.bind StoredUnit.of?) := by
  have hends := evalAs_concludes parts id source e
  generalize evalAs parts id source e = ended at hends ⊢
  obtain ⟨result, e'⟩ := ended
  cases hends with
  | uncompiled hcompile =>
    rw [hcompile]
    rfl
  | unstored hcompile hpersist =>
    rw [hcompile]
    exact add_of_persist_error hpersist
  | failed hcompile hpersist hevaluate houtcome =>
    rw [hcompile]
    exact add_of_persist hpersist
  | kept hcompile hpersist hevaluate houtcome =>
    rw [hcompile]
    exact add_of_persist hpersist

section

variable {evaluator : EvaluatorPart τ} {e : Engine IncrementalCompiler τ} {s : Shelves}

/-- An engine between evaluations that has handed out `n` numbers, with its shelves. -/
structure Shelved (n : Nat) (e : Engine IncrementalCompiler τ) (s : Shelves) : Prop where
  idle : e.executing = false
  next : e.compiler.nextSnippet = .ofNat n
  holds : e.files.Holds n s

theorem Shelved.eval (h : Shelved n e s) (hfew : n < UInt32.size) (source : String) (meanwhile : List Act) :
    Shelved (n + 1) (e.move (bundled evaluator) (.eval source meanwhile))
      (s.move (bundled evaluator) e (.eval source meanwhile)) := by
  have hbegun : (e.begun (bundled evaluator)).files.Holds n s := h.holds
  obtain ⟨hholds, hcompiler⟩ := holds_actAll (bundled evaluator) meanwhile hbegun rfl
  have hnumber : e.nextNumber (bundled evaluator) = .ofNat n := h.next
  have hmove : e.move (bundled evaluator) (.eval source meanwhile) =
      { (evalAs (bundled evaluator) (e.nextNumber (bundled evaluator)) source
          (e.asked (bundled evaluator) meanwhile)).2 with executing := false } := by
    show (evalObserving _ _ source e).2 = _
    rw [evalObserving_of_idle h.idle]
    rfl
  refine ⟨by rw [hmove], ?_, ?_⟩
  · rw [hmove]
    -- One number was taken when the evaluation began, and none by what came after.
    refine (nextSnippet_evalAs evaluator _ source _).trans ?_
    show (e.asked (bundled evaluator) meanwhile).compiler.nextSnippet = _
    unfold asked
    rw [hcompiler]
    show e.compiler.nextSnippet + 1 = _
    rw [h.next, UInt32.ofNat_add]
    rfl
  · rw [hmove]
    show (evalAs _ _ source _).2.files.Holds (n + 1) ((s.actAll meanwhile).put (e.made _ source meanwhile))
    rw [evalAs_files]
    show ((e.asked _ meanwhile).files.add (e.made _ source meanwhile)).Holds _ _
    -- A unit that was made has the number that was handed out, and is put both on the shelf and into the
    -- directory.
    cases hmade : e.made (bundled evaluator) source meanwhile with
    | none => exact hholds.mono (Nat.le_succ n)
    | some f =>
      obtain ⟨u, hcompiled, hstored⟩ := Option.bind_eq_some_iff.mp hmade
      have hsnippet : u.snippet = e.nextNumber (bundled evaluator) :=
        IncrementalCompiler.snippet_of_compile (eq_ok_of_toOption hcompiled)
      refine hholds.add_some ?_
      show f.unit.snippet.toNat = n
      rw [StoredUnit.unit_of_of? hstored, hsnippet, hnumber]
      exact UInt32.toNat_ofNat_of_lt hfew

/-- Whatever is done next, directories and shelves stay in agreement. -/
theorem Shelved.move (h : Shelved n e s) (hfew : n < UInt32.size) (m : Move) :
    Shelved (n + if m.evaluates then 1 else 0) (e.move (bundled evaluator) m)
      (s.move (bundled evaluator) e m) := by
  cases m with
  | drain => exact ⟨h.idle, h.next, h.holds⟩
  | write on => exact ⟨h.idle, h.next, holds_setWriting h.holds on⟩
  | eval source meanwhile => exact h.eval hfew source meanwhile

theorem Shelved.moveAll (evaluator : EvaluatorPart τ) (moves : List Move) (h : Shelved n e s)
    (hfew : n + moves.countP Move.evaluates < UInt32.size) :
    Shelved (n + moves.countP Move.evaluates) (moveAll (bundled evaluator) moves (e, s)).1
      (moveAll (bundled evaluator) moves (e, s)).2 := by
  induction moves generalizing n e s with
  | nil => exact h
  | cons m rest ih =>
    rw [List.countP_cons] at hfew ⊢
    rw [Nat.add_comm (rest.countP _), ← Nat.add_assoc] at hfew ⊢
    exact ih (h.move (Nat.lt_of_le_of_lt (Nat.le_trans (Nat.le_add_right _ _) (Nat.le_add_right _ _)) hfew) m) hfew

theorem shelved_opened (config : Config) (evaluator : τ) :
    Shelved 0 (opened config evaluator).1 (opened config evaluator).2 := by
  have hnew : UnitFiles.Holds 0 {} {} :=
    ⟨rfl, fun _ h => (nomatch h), rfl, fun _ h => (nomatch h), fun _ h => (nomatch h)⟩
  unfold opened
  cases config.writeUnits with
  | true => exact ⟨rfl, rfl, hnew.start⟩
  | false => exact ⟨rfl, rfl, hnew.stop⟩

end

theorem moveAll_append (parts : Parts σ τ) (before after : List Move) (w : Engine σ τ × Shelves) :
    moveAll parts (before ++ after) w = moveAll parts after (moveAll parts before w) := by
  induction before generalizing w with
  | nil => rfl
  | cons m rest ih => exact ih _

/-- Whatever an engine is told to do, fewer texts than there are numbers among it: each of its directories
holds the two files of each unit that compiled and was stored while it was the current one, in order, and
nothing else. Later on no file has gone or changed, a directory that is not the current one is as it is, and
writing does not fail. -/
theorem directories_faithful (evaluator : EvaluatorPart τ) (start : τ) (config : Config)
    (before after : List Move) (hfew : (before ++ after).countP Move.evaluates < UInt32.size) :
    let w := moveAll (bundled evaluator) before (opened config start)
    let w' := moveAll (bundled evaluator) (before ++ after) (opened config start)
    w.1.files.current = w.2.current ∧
    w.1.files.directories = w.2.shelves.map (fun units => some ⟨units.flatMap StoredUnit.files⟩) ∧
    (∀ units ∈ w.2.shelves, ((units.flatMap StoredUnit.files).map (·.1)).Nodup) ∧
    (∀ i table, w.1.files.directories[i]? = some (some table) →
      ∃ added, w'.1.files.directories[i]? = some (some ⟨table.entries ++ added⟩) ∧
        (w.1.files.current ≠ some i → added = [])) ∧
    ∀ u stored, ∃ files, w.1.files.write u stored = .ok files := by
  intro w w'
  have hnew := shelved_opened config start
  have hbefore : 0 + before.countP Move.evaluates < UInt32.size := by
    rw [List.countP_append] at hfew
    omega
  have hw : Shelved _ w.1 w.2 := hnew.moveAll evaluator before hbefore
  have hw' : Shelved _ w'.1 w'.2 :=
    hnew.moveAll evaluator (before ++ after) (by rw [Nat.zero_add]; exact hfew)
  refine ⟨hw.holds.current, hw.holds.directories, fun units hunits =>
    StoredUnit.nodup_files (hw.holds.ordered units hunits), ?_, hw.holds.write_ok⟩
  intro i table htable
  rw [hw.holds.directories, List.getElem?_map, Option.map_eq_some_iff] at htable
  obtain ⟨units, hunits, htable⟩ := htable
  cases htable
  -- What holds at the end of `before` is compared with the end of all moves: shelves only become longer, and so
  -- do directories.
  have hgrows : w.2.Grows w'.2 := by
    show w.2.Grows (moveAll _ (before ++ after) _).2
    rw [moveAll_append]
    exact Shelves.grows_moveAll _ after w
  obtain ⟨added, hadded, hold⟩ := hgrows.longer i units hunits
  refine ⟨added.flatMap StoredUnit.files, ?_, fun hother => ?_⟩
  · rw [hw'.holds.directories, List.getElem?_map, hadded]
    simp only [Option.map_some, Shelves.directory, List.flatMap_append]
  · rw [hw.holds.current] at hother
    rw [(hold hother).1]
    rfl

/-- The evaluator fails every second unit. Such a unit is written all the same, a text that does not compile
is not, and later the writing goes on in another directory. -/
theorem directories_of_failing_texts :
    let evaluator : EvaluatorPart Bool :=
      { evaluate := fun u _ fails =>
          (if fails then ⟨.notEvaluated, []⟩ else ⟨.unit ⟨u.snippet⟩, []⟩, !fails)
        store := fun _ => { maxCallDepth := 0 } }
    let before : List Move :=
      [.eval "let a = 1;" [], .write true, .eval "let b = a;" [], .eval "b" [], .eval "let b = a;" [],
        .eval "let c = b;" [.write false], .drain]
    let after : List Move := [.write true, .eval "let d = a;" [.drain, .refused "let e = 1;"]]
    let e := (moveAll (bundled evaluator) before (opened {} false)).1
    let e' := (moveAll (bundled evaluator) (before ++ after) (opened {} false)).1
    (before ++ after).countP Move.evaluates < UInt32.size ∧
      e.files.directories.map (·.map NameTable.names) =
        [some ["Line_1.bin", "Line_1.txt", "Line_3.bin", "Line_3.txt"]] ∧
      e'.files.directories[0]? = e.files.directories[0]? ∧
      e'.files.directories[1]?.map (·.map NameTable.names) = some (some ["Line_5.bin", "Line_5.txt"]) := by
  intro evaluator before after e e'
  have hfew : (before ++ after).countP Move.evaluates < UInt32.size := by decide
  obtain ⟨-, -, -, hlater, -⟩ := directories_faithful evaluator false {} before after hfew
  have hfiles : (e.files.directories.map (·.map NameTable.names), e.files.current) =
      ([some ["Line_1.bin", "Line_1.txt", "Line_3.bin", "Line_3.txt"]], none) := by decide +kernel
  obtain ⟨hnames, hcurrent⟩ := Prod.mk.inj hfiles
  have hfirst := congrArg (·[0]?) hnames
  simp only [List.getElem?_map] at hfirst
  obtain ⟨directory, htable, hsome⟩ := Option.map_eq_some_iff.mp hfirst
  obtain ⟨table, rfl, -⟩ := Option.map_eq_some_iff.mp hsome
  obtain ⟨added, hadded, hold⟩ := hlater 0 table htable
  refine ⟨hfew, hnames, ?_, by decide +kernel⟩
  rw [htable, hadded, hold (hcurrent ▸ nofun), List.append_nil]

end Engine

end Notebook
