import Notebook.Proofs.Compiler.WellFormedCode
import Notebook.Proofs.Resolution.DeclaredNames

/-!
Names mean what the innermost level that defines them last said.

`Scope.Built` are the scopes that levels are put around and defined in, each with the definitions that its
levels were given: what every definition returned, in order, the innermost level first.

* `Scope.Built.chained`: a level remembers the last definition of each name, and hands out one slot after the
  other.
* `Scope.Built.resolve_lexical`: a name refers to its last definition in the innermost level that has one, and
  to nothing if there is none; what kind of reference it is tells where that level is.
-/

namespace Notebook

/-- A definition that a level was given: a name, and what it was told to stand for. -/
structure Definition where
  name : String
  meaning : Meaning
  deriving DecidableEq, Repr

/-- The slots that definitions returned, in order. -/
def slotsOf (table : List Definition) : List Nat :=
  table.filterMap fun d => match d.meaning with
    | .slot index => some index
    | .builtin _ => none

namespace Scope

def levels : Scope → List Level
  | .session level => [level]
  | .function level enclosing => level :: enclosing.levels

/-- Scopes made from an empty session by putting levels around, defining names in the innermost level, defining
builtins at the session's level, and going back to the enclosing scope. The tables have the definitions of each
level in order, the innermost level first, with the slots that were handed out. -/
inductive Built : List (List Definition) → Scope → Prop where
  | new : Built [[]] (.session {})
  | enclose {tables : List (List Definition)} {s : Scope} :
      Built tables s → Built ([] :: tables) (.function {} s)
  | define {table : List Definition} {outer : List (List Definition)} {s : Scope} (name : String) :
      Built (table :: outer) s → Built ((table ++ [⟨name, .slot s.slots⟩]) :: outer) (s.define name)
  | defineBuiltin {table : List Definition} {level : Level} (name : String) (index : Nat) :
      Built [table] (.session level) →
      Built [table ++ [⟨name, .builtin index⟩]] (.session (level.defineBuiltin name index))
  | leave {table : List Definition} {outer : List (List Definition)} {level : Level} {enclosing : Scope} :
      Built (table :: outer) (.function level enclosing) → Built outer enclosing

end Scope

/-! ### What a level remembers -/

/-- A level that was given these definitions: each name stands for what its last definition says, and the slots
are those that were handed out, from zero on and none twice. -/
structure Level.Records (table : List Definition) (l : Level) : Prop where
  last : ∀ before d after, table = before ++ d :: after → (∀ later ∈ after, later.name ≠ d.name) →
    l.names.get? d.name = some d.meaning
  absent : ∀ name, (∀ d ∈ table, d.name ≠ name) → l.names.get? name = none
  slots : slotsOf table = List.range l.slots

namespace Level.Records

variable {table : List Definition} {l : Level}

theorem empty : Level.Records [] {} where
  last before d after h _ := by cases before <;> cases h
  absent _ _ := rfl
  slots := rfl

/-- One more definition is the last one of its name and leaves all other names alone. -/
theorem snoc (h : Level.Records table l) {l' : Level} (d : Definition)
    (hnames : l'.names = l.names.insert d.name d.meaning)
    (hslots : slotsOf (table ++ [d]) = List.range l'.slots) : Level.Records (table ++ [d]) l' where
  last before e after htable hlast := by
    rw [hnames, NameTable.get?_insert]
    rcases List.eq_nil_or_concat after with rfl | ⟨more, final, rfl⟩
    · obtain ⟨-, hsame⟩ := List.append_inj' htable rfl
      cases hsame
      rw [if_pos rfl]
    · have hsplit : table ++ [d] = (before ++ e :: more) ++ [final] := by
        rw [htable, List.concat_eq_append, List.append_assoc, List.cons_append]
      obtain ⟨rfl, hsame⟩ := List.append_inj' hsplit rfl
      cases hsame
      have hother : d.name ≠ e.name := hlast d (by simp)
      rw [if_neg hother]
      exact h.last before e more rfl fun later hlater => hlast later (by simp [hlater])
  absent name habsent := by
    rw [hnames, NameTable.get?_insert, if_neg (habsent d (by simp))]
    exact h.absent name fun e he => habsent e (by simp [he])
  slots := hslots

theorem define (h : Level.Records table l) (name : String) :
    Level.Records (table ++ [⟨name, .slot l.slots⟩]) (l.define name) := by
  refine h.snoc ⟨name, .slot l.slots⟩ rfl ?_
  have hnew : (l.define name).slots = l.slots + 1 := rfl
  rw [slotsOf, List.filterMap_append, ← slotsOf, h.slots, hnew, List.range_succ]
  rfl

theorem defineBuiltin (h : Level.Records table l) (name : String) (index : Nat) :
    Level.Records (table ++ [⟨name, .builtin index⟩]) (l.defineBuiltin name index) := by
  refine h.snoc ⟨name, .builtin index⟩ rfl ?_
  have hsame : (l.defineBuiltin name index).slots = l.slots := rfl
  rw [slotsOf, List.filterMap_append, ← slotsOf, h.slots, hsame]
  exact List.append_nil _

end Level.Records

namespace Scope

/-- A scope whose levels were given these definitions. Only the session's level was given builtins. -/
inductive Chained : List (List Definition) → Scope → Prop where
  | session {table : List Definition} {level : Level} :
      level.Records table → Chained [table] (.session level)
  | function {table : List Definition} {outer : List (List Definition)} {level : Level} {enclosing : Scope} :
      level.Records table → (∀ d ∈ table, ∃ index, d.meaning = .slot index) → Chained outer enclosing →
      Chained (table :: outer) (.function level enclosing)

variable {tables : List (List Definition)} {s : Scope} {name : String}

theorem Built.chained (h : Built tables s) : Chained tables s := by
  induction h with
  | new => exact .session .empty
  | enclose _ ih => exact .function .empty (fun d hd => absurd hd List.not_mem_nil) ih
  | define name _ ih =>
    cases ih with
    | session hlevel => exact .session (hlevel.define name)
    | function hlevel hslots houter =>
      refine .function (hlevel.define name) (fun d hd => ?_) houter
      rcases List.mem_append.mp hd with hd | hd
      · exact hslots d hd
      · obtain rfl := List.mem_singleton.mp hd
        exact ⟨_, rfl⟩
  | defineBuiltin name index _ ih =>
    cases ih with
    | session hlevel => exact .session (hlevel.defineBuiltin name index)
  | leave _ ih =>
    cases ih with
    | function _ _ houter => exact houter

theorem Chained.slots (h : Chained tables s) :
    List.Forall₂ (fun table level => slotsOf table = List.range level.slots) tables s.levels := by
  induction h with
  | session hlevel => exact .cons hlevel.slots .nil
  | function hlevel _ _ ih => exact .cons hlevel.slots ih

/-! ### Looking names up -/

/-- What a definition looks like from the innermost level: `inner` are the definitions of the levels inside of
its own, and `outer` those of the levels around. -/
inductive Seen (inner outer : List (List Definition)) : Definition → Reference → Prop where
  | global {name : String} {index : Nat} : outer = [] → Seen inner outer ⟨name, .slot index⟩ (.global index)
  | builtin {name : String} {index : Nat} :
      outer = [] → Seen inner outer ⟨name, .builtin index⟩ (.builtin index)
  | own {name : String} {index : Nat} :
      outer ≠ [] → inner = [] → Seen inner outer ⟨name, .slot index⟩ (.own index)
  | captured {name : String} {index : Nat} :
      outer ≠ [] → inner ≠ [] → Seen inner outer ⟨name, .slot index⟩ (.captured index)

/-- The last definition of a name in the innermost level that has one, as the innermost level sees it. It says
nothing of how scopes are represented or looked up in. -/
def Finds (tables : List (List Definition)) (name : String) (r : Reference) : Prop :=
  ∃ inner before d after outer, tables = inner ++ (before ++ d :: after) :: outer ∧
    (∀ table ∈ inner, ∀ other ∈ table, other.name ≠ name) ∧
    d.name = name ∧ (∀ later ∈ after, later.name ≠ name) ∧ Seen inner outer d r

/-- From one level further in, what was found looks as it does from inside a function literal. -/
theorem Seen.inside {inner outer : List (List Definition)} {d : Definition} {r : Reference}
    (h : Seen inner outer d r) (table : List Definition) : Seen (table :: inner) outer d r.fromInside := by
  cases h with
  | global houter => exact .global houter
  | builtin houter => exact .builtin houter
  | own houter _ | captured houter _ => exact .captured houter (List.cons_ne_nil _ _)

/-- A definition looks like one kind of reference only. -/
theorem Seen.unique {inner outer : List (List Definition)} {d : Definition} {r r' : Reference}
    (h : Seen inner outer d r) (h' : Seen inner outer d r') : r = r' := by
  cases h with
  | global houter =>
    cases h' with
    | global => rfl
    | own hne | captured hne => exact absurd houter hne
  | builtin houter =>
    cases h'
    rfl
  | own hne hnil =>
    cases h' with
    | global houter => exact absurd houter hne
    | own => rfl
    | captured _ hinside => exact absurd hnil hinside
  | captured hne hinside =>
    cases h' with
    | global houter => exact absurd houter hne
    | own _ hnil => exact absurd hnil hinside
    | captured => rfl

theorem Finds.inside {r : Reference} {table : List Definition} (h : Finds tables name r)
    (hnone : ∀ d ∈ table, d.name ≠ name) : Finds (table :: tables) name r.fromInside := by
  obtain ⟨inner, before, d, after, outer, rfl, hinner, hname, hlast, hseen⟩ := h
  exact ⟨table :: inner, before, d, after, outer, rfl, List.forall_mem_cons.mpr ⟨hnone, hinner⟩, hname, hlast,
    hseen.inside table⟩

/-- What is looked up is found, or there is nothing to be found. Since a name is found at one place only
(`Finds.unique`), this settles what looking up answers. -/
theorem Chained.resolves (h : Chained tables s) (name : String) :
    (∃ r, s.resolve name = some r ∧ Finds tables name r) ∨
      (s.resolve name = none ∧ ∀ table ∈ tables, ∀ d ∈ table, d.name ≠ name) := by
  -- On the chain of levels, from the session's inwards. A level that defines the name hides those around it;
  -- otherwise what is found further out is seen from one level further in.
  induction h with
  | @session table level hlevel =>
    unfold resolve
    by_cases hdefined : ∃ d ∈ table, d.name = name
    · obtain ⟨before, d, after, rfl, rfl, hlast⟩ := exists_last hdefined
      rw [hlevel.last before d after rfl hlast]
      obtain ⟨name, _ | _⟩ := d
      · exact .inl ⟨_, rfl, [], before, _, after, [], rfl, by simp, rfl, hlast, .global rfl⟩
      · exact .inl ⟨_, rfl, [], before, _, after, [], rfl, by simp, rfl, hlast, .builtin rfl⟩
    · have hnone : ∀ d ∈ table, d.name ≠ name := fun d hd hname => hdefined ⟨d, hd, hname⟩
      rw [hlevel.absent name hnone]
      exact .inr ⟨rfl, by simpa using hnone⟩
  | @function table outer level enclosing hlevel hslots houter ih =>
    unfold resolve
    by_cases hdefined : ∃ d ∈ table, d.name = name
    · obtain ⟨before, d, after, rfl, rfl, hlast⟩ := exists_last hdefined
      rw [hlevel.last before d after rfl hlast]
      obtain ⟨index, hmeaning⟩ := hslots d (by simp)
      obtain ⟨name, meaning⟩ := d
      cases hmeaning
      have hinside : outer ≠ [] := by
        rintro rfl
        cases houter
      exact .inl ⟨_, rfl, [], before, _, after, outer, rfl, by simp, rfl, hlast, .own hinside rfl⟩
    · have hnone : ∀ d ∈ table, d.name ≠ name := fun d hd hname => hdefined ⟨d, hd, hname⟩
      rw [hlevel.absent name hnone]
      rcases ih with ⟨r, hres, hfinds⟩ | ⟨hres, habsent⟩
      · exact .inl ⟨r.fromInside, by simp only [hres, Option.map_some], hfinds.inside hnone⟩
      · exact .inr ⟨by simp only [hres, Option.map_none], List.forall_mem_cons.mpr ⟨hnone, habsent⟩⟩

/-- There is one way only to cut a list at the first element of a kind. -/
theorem cut_at_first {α : Type} {P : α → Prop} : ∀ {before before' : List α} {a a' : α} {after after' : List α},
    before ++ a :: after = before' ++ a' :: after' → (∀ b ∈ before, ¬ P b) → P a →
    (∀ b ∈ before', ¬ P b) → P a' → before = before' ∧ a = a' ∧ after = after'
  | [], [], a, a', after, after', h, _, _, _, _ => by
    cases h
    exact ⟨rfl, rfl, rfl⟩
  | [], b :: _, _, _, _, _, h, _, ha, hbefore', _ => by
    cases h
    exact absurd ha (hbefore' b List.mem_cons_self)
  | b :: _, [], _, _, _, _, h, hbefore, _, _, hb => by
    cases h
    exact absurd hb (hbefore b List.mem_cons_self)
  | b :: _, _ :: _, _, _, _, _, h, hbefore, ha, hbefore', ha' => by
    obtain ⟨rfl, hrest⟩ := List.cons_eq_cons.mp h
    obtain ⟨rfl, hsame⟩ := cut_at_first hrest (fun c hc => hbefore c (List.mem_cons_of_mem _ hc)) ha
      (fun c hc => hbefore' c (List.mem_cons_of_mem _ hc)) ha'
    exact ⟨rfl, hsame⟩

/-- What is found is found at one place only. -/
theorem Finds.unique {r r' : Reference} (h : Finds tables name r) (h' : Finds tables name r') : r = r' := by
  obtain ⟨inner, before, d, after, outer, rfl, hinner, hname, hlast, hseen⟩ := h
  obtain ⟨inner', before', d', after', outer', hsplit, hinner', hname', hlast', hseen'⟩ := h'
  have hdefines : ∀ {before after : List Definition} {d : Definition}, d.name = name →
      ∃ e ∈ before ++ d :: after, e.name = name := fun h => ⟨_, by simp, h⟩
  have hskips : ∀ {inner : List (List Definition)}, (∀ table ∈ inner, ∀ other ∈ table, other.name ≠ name) →
      ∀ table ∈ inner, ¬ ∃ e ∈ table, e.name = name := by
    rintro inner h table htable ⟨e, he, hsame⟩
    exact h table htable e he hsame
  obtain ⟨rfl, htable, rfl⟩ := cut_at_first (P := fun table => ∃ e ∈ table, e.name = name) hsplit
    (hskips hinner) (hdefines hname) (hskips hinner') (hdefines hname')
  have hreversed : after.reverse ++ d :: before.reverse = after'.reverse ++ d' :: before'.reverse := by
    simpa using congrArg List.reverse htable
  obtain ⟨-, rfl, -⟩ := cut_at_first (P := fun e => e.name = name) hreversed
    (fun e he => hlast e (List.mem_reverse.mp he)) hname
    (fun e he => hlast' e (List.mem_reverse.mp he)) hname'
  exact hseen.unique hseen'

/-- A name refers to nothing exactly if no level defines it, and otherwise to its last definition in the
innermost level that has one: a global or builtin if that is the outermost level, a slot of its own if it is the
innermost of several, and a captured one if it lies in between. The slots that definitions of a level return
are the numbers below the count of its slots, in order. -/
theorem Built.resolve_lexical (h : Built tables s) :
    (∀ name, s.resolve name = none ↔ ∀ table ∈ tables, ∀ d ∈ table, d.name ≠ name) ∧
    (∀ name r, s.resolve name = some r ↔ Finds tables name r) ∧
    List.Forall₂ (fun table level => slotsOf table = List.range level.slots) tables s.levels := by
  refine ⟨fun name => ?_, fun name r => ?_, h.chained.slots⟩
  · rcases h.chained.resolves name with ⟨r, hres, hfinds⟩ | ⟨hres, habsent⟩
    · obtain ⟨inner, before, d, after, outer, rfl, -, hname, -⟩ := hfinds
      constructor
      · intro hnone
        cases hres.symm.trans hnone
      · intro habsent
        exact absurd hname (habsent (before ++ d :: after) (by simp) d (by simp))
    · exact ⟨fun _ => habsent, fun _ => hres⟩
  · rcases h.chained.resolves name with ⟨r', hres, hfinds⟩ | ⟨hres, habsent⟩
    · rw [hres, Option.some_inj]
      constructor
      · rintro rfl
        exact hfinds
      · exact hfinds.unique
    · constructor
      · intro hsome
        cases hres.symm.trans hsome
      · rintro ⟨inner, before, d, after, outer, rfl, -, hname, -⟩
        exact absurd hname (habsent (before ++ d :: after) (by simp) d (by simp))

/-- A builtin and a name that is defined twice at the session's level, with two functions around a place: what
is defined at the middle level is captured, and the last definition counts at each level. -/
theorem nested_resolve_lexical :
    let tables : List (List Definition) := [[⟨"c", .slot 0⟩],
      [⟨"b", .slot 0⟩, ⟨"x", .slot 1⟩, ⟨"b", .slot 2⟩],
      [⟨"len", .builtin 0⟩, ⟨"a", .slot 0⟩, ⟨"a", .slot 1⟩]]
    let session : Scope := .session ((({} : Level).defineBuiltin "len" 0 |>.define "a").define "a")
    let middle : Scope := ((Scope.function {} session).define "b" |>.define "x").define "b"
    let s : Scope := (Scope.function {} middle).define "c"
    Built tables s ∧ Finds tables "b" (.captured 2) ∧ Finds tables "a" (.global 1) ∧
      Finds tables "len" (.builtin 0) ∧ Finds tables "c" (.own 0) ∧ s.resolve "missing" = none ∧
      s.levels.map Level.slots = [1, 3, 2] := by
  intro tables session middle s
  have hsession := ((Built.new.defineBuiltin "len" 0).define "a").define "a"
  have hmiddle := ((hsession.enclose.define "b").define "x").define "b"
  have hbuilt : Built tables s := hmiddle.enclose.define "c"
  obtain ⟨hnone, hsome, -⟩ := hbuilt.resolve_lexical
  exact ⟨hbuilt, (hsome _ _).mp (by decide), (hsome _ _).mp (by decide), (hsome _ _).mp (by decide),
    (hsome _ _).mp (by decide), (hnone _).mpr (by decide), by decide⟩

/-! ### The scopes of compilers -/

theorem built_initial : ∃ table, Built [table] initial := by
  have hall : ∀ (bs : List Builtin) {table : List Definition} {level : Level}, Built [table] (.session level) →
      ∃ table, Built [table] (.session (bs.foldl (fun l b => l.defineBuiltin b.name b.index) level)) := by
    intro bs
    induction bs with
    | nil => exact fun h => ⟨_, h⟩
    | cons b rest ih => exact fun h => ih (h.defineBuiltin b.name b.index)
  exact hall Builtin.all .new

/-- What is declared is defined at the innermost level. -/
theorem Built.declares {table : List Definition} {outer : List (List Definition)} {s' : Scope}
    {ds ds' : Array Declaration} (h : Built (table :: outer) s) (hdeclares : s.Declares ds s' ds') :
    ∃ table', Built (table' :: outer) s' := by
  induction hdeclares with
  | refl => exact ⟨table, h⟩
  | define name _ _ ih =>
    obtain ⟨table', hbuilt⟩ := ih
    exact ⟨_, hbuilt.define name⟩

end Scope

/-- A compiler's names are those of a session that names were defined in. -/
theorem Compiler.Reachable.built {c : Compiler} (h : c.Reachable) : ∃ table, Scope.Built [table] c.scope := by
  induction h with
  | new => exact Scope.built_initial
  | @compile c n p _ ih =>
    obtain ⟨table, hbuilt⟩ := ih
    unfold Compiler.compile
    cases htop : topLevel p c with
    | error cause => exact ⟨table, hbuilt⟩
    | ok done =>
      have hdeclares : c.Declares done := topLevel_declares p htop
      exact hbuilt.declares hdeclares
  | restore _ _ _ ih => exact ih

end Notebook
