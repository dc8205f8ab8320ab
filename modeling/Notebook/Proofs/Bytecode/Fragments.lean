import Notebook.Proofs.Compiler.TermLayout

/-!
Fragments: pieces of laid out code, with the number of operands at each of their places.

`Stands` says where the instructions of a piece of code start. A fragment gives each of its places
one height, the number of operands that there are when control gets there, and its jumps lead
forward to places of its own (`Fragment`). Fragments can be put one after the other
(`Fragment.append`) and into the branches of a conditional (`Fragment.branches`).

* `Term.fragment` and its companions: the layout of a term is a fragment that adds one operand, that
  of a command one that adds none.
* `leaving_of_body`, `leaving_of_program`: a body or the top level of a snippet is such a fragment
  and one more instruction, which leaves.
-/

namespace Notebook

/-! ### What an instruction does to the number of operands -/

/-- How many operands an instruction takes. For arrays and calls it depends on the instruction, which says how
many elements or arguments there are. -/
def Instr.pops (i : Instr) : Nat :=
  match i.opcode with
  | .constant | .pushTrue | .pushFalse | .pushNull | .getGlobal | .getLocal | .getBuiltin => 0
  | .jump | .ret => 0
  | .pop | .minus | .bang | .jumpNotTruthy | .setGlobal | .setLocal => 1
  | .returnValue | .throwValue => 1
  | .add | .sub | .mul | .div | .equal | .notEqual | .greaterThan | .index => 2
  | .array => i.operand
  | .call => i.operand + 1

def Instr.pushes (i : Instr) : Nat :=
  match i.opcode with
  | .pop | .jumpNotTruthy | .jump | .setGlobal | .setLocal => 0
  | .returnValue | .ret | .throwValue => 0
  | _ => 1

/-- How many operands there are after an instruction, where there were `n`. -/
def Instr.after (i : Instr) (n : Nat) : Nat := n - i.pops + i.pushes

/-- Does control get from an instruction to the one behind it? -/
def Opcode.goesOn : Opcode → Bool
  | .jump | .returnValue | .ret | .throwValue => false
  | _ => true

/-- Does control get from an instruction to the place that its operand names? -/
def Opcode.jumps : Opcode → Bool
  | .jump | .jumpNotTruthy => true
  | _ => false

/-- Does an instruction refer only to what satisfies `P`? A constant is referred to together with the value it
has in the source, which the instruction alone does not tell. -/
def Instr.Meets (P : Use → Prop) (i : Instr) : Prop :=
  match i.opcode with
  | .constant => ∃ v, P (.constant i.operand v)
  | .getGlobal => P (.global i.operand)
  | .setGlobal => P (.setGlobal i.operand)
  | .getLocal => P (.own i.operand)
  | .setLocal => P (.setOwn i.operand)
  | .getBuiltin => P (.builtin i.operand)
  | _ => True

theorem Instr.Meets.mono {P Q : Use → Prop} {i : Instr} (h : i.Meets P) (hsub : ∀ u, P u → Q u) :
    i.Meets Q := by
  unfold Instr.Meets at h ⊢
  split <;> rename_i hop <;> simp only [hop] at h
  · obtain ⟨v, hv⟩ := h
    exact ⟨v, hsub _ hv⟩
  all_goals first | exact hsub _ h | trivial

theorem Instr.size_pos (i : Instr) : 0 < i.size := by
  unfold Instr.size
  omega

/-! ### Where instructions start -/

/-- Does an instruction start at `p`, in a piece of code that starts at `start`? -/
def Stands : Nat → List Instr → Nat → Instr → Prop
  | _, [], _, _ => False
  | start, j :: is, p, i => (p = start ∧ i = j) ∨ Stands (start + j.size) is p i

/-- Is a place the end of a piece of code, or does an instruction of it start there? -/
def Boundary (start : Nat) (is : List Instr) (p : Nat) : Prop :=
  p = start + codeSize is ∨ ∃ i, Stands start is p i

section

variable {start p : Nat} {is js : List Instr} {i j : Instr}

theorem stands_append : Stands start (is ++ js) p i ↔
    Stands start is p i ∨ Stands (start + codeSize is) js p i := by
  induction is generalizing start with
  | nil => simp [Stands]
  | cons j is ih => simp [Stands, ih, or_assoc, Nat.add_assoc]

theorem stands_singleton : Stands start [j] p i ↔ p = start ∧ i = j := by
  simp [Stands]

theorem Stands.le (h : Stands start is p i) : start ≤ p := by
  induction is generalizing start with
  | nil => exact h.elim
  | cons j is ih =>
    rcases h with ⟨rfl, -⟩ | h
    · exact Nat.le_refl _
    · have := ih h
      omega

theorem Stands.next_le (h : Stands start is p i) : p + i.size ≤ start + codeSize is := by
  induction is generalizing start with
  | nil => exact h.elim
  | cons j is ih =>
    rw [codeSize_cons]
    rcases h with ⟨rfl, rfl⟩ | h
    · omega
    · have := ih h
      omega

theorem Stands.lt (h : Stands start is p i) : p < start + codeSize is := by
  have := h.next_le
  have := i.size_pos
  omega

/-- What stands in a piece of code is what the machine reads there. -/
theorem Stands.fetch {code : Code} (hcode : code.Holds start is) (h : Stands start is p i) :
    code.fetch p = .ok ⟨i.opcode, i.operand, p + i.size⟩ := by
  induction is generalizing start with
  | nil => exact h.elim
  | cons j is ih =>
    rcases h with ⟨rfl, rfl⟩ | h
    · exact hcode.1
    · exact ih hcode.2 h

theorem boundary_start : Boundary start is start := by
  cases is with
  | nil => exact .inl rfl
  | cons i is => exact .inr ⟨i, .inl ⟨rfl, rfl⟩⟩

/-- The place behind an instruction is a boundary too. -/
theorem Stands.next (h : Stands start is p i) : Boundary start is (p + i.size) := by
  induction is generalizing start with
  | nil => exact h.elim
  | cons j is ih =>
    have hmore : Boundary (start + j.size) is (p + i.size) := by
      rcases h with ⟨rfl, rfl⟩ | h
      · exact boundary_start
      · exact ih h
    rcases hmore with hend | ⟨k, hk⟩
    · exact .inl (by rw [hend, codeSize_cons, Nat.add_assoc])
    · exact .inr ⟨k, .inr hk⟩

theorem Boundary.append_left (js : List Instr) (h : Boundary start is p) :
    Boundary start (is ++ js) p := by
  rcases h with rfl | ⟨i, hi⟩
  · have hmiddle : Boundary (start + codeSize is) js (start + codeSize is) := boundary_start
    rcases hmiddle with hend | ⟨j, hj⟩
    · exact .inl (by rw [codeSize_append]; omega)
    · exact .inr ⟨j, stands_append.mpr (.inr hj)⟩
  · exact .inr ⟨i, stands_append.mpr (.inl hi)⟩

theorem Boundary.append_right (is : List Instr) (h : Boundary (start + codeSize is) js p) :
    Boundary start (is ++ js) p := by
  rcases h with rfl | ⟨j, hj⟩
  · exact .inl (by rw [codeSize_append, Nat.add_assoc])
  · exact .inr ⟨j, stands_append.mpr (.inr hj)⟩

theorem Boundary.le (h : Boundary start is p) : p ≤ start + codeSize is := by
  rcases h with rfl | ⟨i, hi⟩
  · exact Nat.le_refl _
  · exact Nat.le_of_lt hi.lt

/-- At a boundary before the end an instruction starts. -/
theorem Boundary.stands (h : Boundary start is p) (hlt : p < start + codeSize is) :
    ∃ i, Stands start is p i := by
  rcases h with rfl | h
  · exact absurd hlt (Nat.lt_irrefl _)
  · exact h

end

/-! ### Heights -/

/-- Is `height` the number of operands at the places of a piece of code, and do its jumps lead forward to places
in `targets`? The targets are kept apart from the piece itself, so that pieces can be judged before it is known
what they are part of. -/
structure Balanced (targets : Nat → Prop) (start : Nat) (is : List Instr) (height : Nat → Nat) :
    Prop where
  pops : ∀ p i, Stands start is p i → i.pops ≤ height p
  goesOn : ∀ p i, Stands start is p i → i.opcode.goesOn = true →
    height (p + i.size) = i.after (height p)
  jumps : ∀ p i, Stands start is p i → i.opcode.jumps = true →
    p < i.operand ∧ targets i.operand ∧ height i.operand = i.after (height p)

namespace Balanced

variable {targets targets' : Nat → Prop} {start : Nat} {is js : List Instr}
variable {height height' : Nat → Nat}

theorem nil : Balanced targets start [] height where
  pops _ _ h := h.elim
  goesOn _ _ h := h.elim
  jumps _ _ h := h.elim

/-- One fragment after the other. The jumps of the first one lead into it or to its end, which is where the
second one starts. -/
theorem append (h₁ : Balanced targets start is height)
    (h₂ : Balanced targets (start + codeSize is) js height) :
    Balanced targets start (is ++ js) height where
  pops p i h := by
    rcases stands_append.mp h with h | h
    · exact h₁.pops p i h
    · exact h₂.pops p i h
  goesOn p i h := by
    rcases stands_append.mp h with h | h
    · exact h₁.goesOn p i h
    · exact h₂.goesOn p i h
  jumps p i h := by
    rcases stands_append.mp h with h | h
    · exact h₁.jumps p i h
    · exact h₂.jumps p i h

theorem single {i : Instr} (hpops : i.pops ≤ height start)
    (hgoes : i.opcode.goesOn = true → height (start + i.size) = i.after (height start))
    (hjumps : i.opcode.jumps = true →
      start < i.operand ∧ targets i.operand ∧ height i.operand = i.after (height start)) :
    Balanced targets start [i] height where
  pops p j h := by
    obtain ⟨rfl, rfl⟩ := stands_singleton.mp h
    exact hpops
  goesOn p j h := by
    obtain ⟨rfl, rfl⟩ := stands_singleton.mp h
    exact hgoes
  jumps p j h := by
    obtain ⟨rfl, rfl⟩ := stands_singleton.mp h
    exact hjumps

/-- More targets may be allowed. -/
theorem widen (htargets : ∀ p, targets p → targets' p) (h : Balanced targets start is height) :
    Balanced targets' start is height where
  pops := h.pops
  goesOn := h.goesOn
  jumps p i hi hjumps := by
    obtain ⟨hlt, htarget, hafter⟩ := h.jumps p i hi hjumps
    exact ⟨hlt, htargets _ htarget, hafter⟩

/-- Only the heights inside of a piece matter. -/
theorem congr (hheight : ∀ p, start ≤ p → p ≤ start + codeSize is → height' p = height p)
    (h : Balanced (Boundary start is) start is height) :
    Balanced (Boundary start is) start is height' where
  pops p i hi := by
    rw [hheight p hi.le (Nat.le_of_lt hi.lt)]
    exact h.pops p i hi
  goesOn p i hi hgoes := by
    rw [hheight p hi.le (Nat.le_of_lt hi.lt),
      hheight _ (Nat.le_trans hi.le (Nat.le_add_right _ _)) hi.next_le]
    exact h.goesOn p i hi hgoes
  jumps p i hi hjumps := by
    obtain ⟨hlt, hbound, hafter⟩ := h.jumps p i hi hjumps
    rw [hheight p hi.le (Nat.le_of_lt hi.lt),
      hheight _ (Nat.le_trans hi.le (Nat.le_of_lt hlt)) hbound.le]
    exact ⟨hlt, hbound, hafter⟩

/-- Two branches behind a test, as `Term.layout` lays them out. -/
theorem branches {test yes no whole : List Instr} {branch skip finish h : Nat}
    (hwhole : whole = test ++ (⟨.jumpNotTruthy, skip + 3⟩ :: (yes ++ (⟨.jump, finish⟩ :: no))))
    (hbranch : start + codeSize test = branch) (hskip : branch + 3 + codeSize yes = skip)
    (hfinish : skip + 3 + codeSize no = finish)
    (atBranch : height branch = h + 1) (atYes : height (branch + 3) = h)
    (atSkip : height skip = h + 1) (atNo : height (skip + 3) = h)
    (atFinish : height finish = h + 1)
    (htest : Balanced (Boundary start test) start test height)
    (hyes : Balanced (Boundary (branch + 3) yes) (branch + 3) yes height)
    (hno : Balanced (Boundary (skip + 3) no) (skip + 3) no height) :
    Balanced (Boundary start whole) start whole height := by
  -- The places of the pieces are places of the whole.
  have inTail : ∀ p, Boundary branch (⟨.jumpNotTruthy, skip + 3⟩ :: (yes ++ (⟨.jump, finish⟩ :: no))) p →
      Boundary start whole p := by
    intro p hp
    rw [← hbranch] at hp
    rw [hwhole]
    exact .append_right test hp
  have inYes : ∀ p, Boundary (branch + 3) (yes ++ (⟨.jump, finish⟩ :: no)) p →
      Boundary start whole p :=
    fun p hp => inTail p (.append_right [_] hp)
  have inNo : ∀ p, Boundary skip (⟨.jump, finish⟩ :: no) p → Boundary start whole p := by
    intro p hp
    rw [← hskip] at hp
    exact inYes p (.append_right yes hp)
  have hends : Boundary skip (⟨.jump, finish⟩ :: no) finish :=
    .append_right [_] (.inl hfinish.symm)
  -- The two jumps are pieces of their own: the first leads behind the second, the second to the end.
  have hjumpNot : Balanced (Boundary start whole) branch [⟨.jumpNotTruthy, skip + 3⟩] height := by
    refine .single ?_ (fun _ => ?_) (fun _ => ⟨?_, inNo _ (.append_right [_] boundary_start), ?_⟩)
    · rw [atBranch]
      exact Nat.le_add_left _ _
    · rw [atBranch]
      exact atYes
    · show branch < skip + 3
      omega
    · rw [atBranch]
      exact atNo
  have hjump : Balanced (Boundary start whole) skip [⟨.jump, finish⟩] height := by
    refine .single (Nat.zero_le _) (fun hgoes => ?_) (fun _ => ⟨?_, inNo _ hends, ?_⟩)
    · cases hgoes
    · show skip < finish
      omega
    · rw [atSkip]
      exact atFinish
  -- With all targets places of the whole, the five pieces are put one after the other.
  have hnoWithin := hno.widen fun p hp => inNo p (.append_right [_] hp)
  have hyesWithin := hyes.widen fun p hp => inYes p (hp.append_left _)
  have htestWithin : Balanced (Boundary start whole) start test height := by
    refine htest.widen fun p hp => ?_
    rw [hwhole]
    exact hp.append_left _
  have hsecond : Balanced (Boundary start whole) (branch + 3) (yes ++ ([⟨.jump, finish⟩] ++ no)) height :=
    hyesWithin.append (hskip ▸ hjump.append hnoWithin)
  have hfirst := htestWithin.append (hbranch ▸ hjumpNot.append hsecond)
  have hsame : test ++ ([⟨.jumpNotTruthy, skip + 3⟩] ++ (yes ++ ([⟨.jump, finish⟩] ++ no))) = whole :=
    hwhole.symm
  rwa [hsame] at hfirst

end Balanced

/-- A piece of code that control enters with `h` operands and leaves at its end with `h'`, in which every place
has one height and every reference satisfies `P`. Only the heights at both ends show, so fragments can be put
together without agreeing on a height function first. -/
def Fragment (P : Use → Prop) (start h : Nat) (is : List Instr) (h' : Nat) : Prop :=
  ∃ height : Nat → Nat, height start = h ∧ height (start + codeSize is) = h' ∧
    Balanced (Boundary start is) start is height ∧ ∀ i ∈ is, i.Meets P

namespace Fragment

variable {P : Use → Prop} {start h h₁ h₂ : Nat} {is js : List Instr}

theorem nil (P : Use → Prop) (start h : Nat) : Fragment P start h [] h :=
  ⟨fun _ => h, rfl, rfl, .nil, by simp⟩

/-- One fragment after the other. -/
theorem append (hfirst : Fragment P start h is h₁)
    (hsecond : Fragment P (start + codeSize is) h₁ js h₂) : Fragment P start h (is ++ js) h₂ := by
  obtain ⟨first, hstart, hmiddle, hbalanced, hmeets⟩ := hfirst
  obtain ⟨second, hmiddle', hend, hbalanced', hmeets'⟩ := hsecond
  let height := fun p => if p ≤ start + codeSize is then first p else second p
  have hleft : ∀ p, start ≤ p → p ≤ start + codeSize is → height p = first p :=
    fun p _ hp => if_pos hp
  have hright : ∀ p, start + codeSize is ≤ p → p ≤ start + codeSize is + codeSize js →
      height p = second p := by
    intro p hp _
    rcases Nat.eq_or_lt_of_le hp with rfl | hlt
    · rw [hleft _ (Nat.le_add_right _ _) (Nat.le_refl _), hmiddle, hmiddle']
    · exact if_neg (Nat.not_le.mpr hlt)
  refine ⟨height, ?_, ?_, ?_, ?_⟩
  · rw [hleft _ (Nat.le_refl _) (Nat.le_add_right _ _), hstart]
  · rw [codeSize_append, ← Nat.add_assoc, hright _ (Nat.le_add_right _ _) (Nat.le_refl _), hend]
  · exact .append ((hbalanced.congr hleft).widen fun p hp => hp.append_left js)
      ((hbalanced'.congr hright).widen fun p hp => hp.append_right is)
  · intro i hi
    rcases List.mem_append.mp hi with hi | hi
    · exact hmeets i hi
    · exact hmeets' i hi

/-- An instruction that does not jump. Where control does not go on, any height may follow. -/
theorem single {i : Instr} (hpops : i.pops ≤ h) (hjumps : i.opcode.jumps = false)
    (hgoes : i.opcode.goesOn = true → h₁ = i.after h) (hmeets : i.Meets P) :
    Fragment P start h [i] h₁ := by
  have hsize := i.size_pos
  have hne : ¬ start + i.size ≤ start := by omega
  refine ⟨fun p => if p ≤ start then h else h₁, if_pos (Nat.le_refl _), if_neg hne, ?_, ?_⟩
  · refine .single ?_ (fun hgo => ?_) (fun hjump => ?_)
    · rw [if_pos (Nat.le_refl _)]
      exact hpops
    · rw [if_pos (Nat.le_refl _), if_neg hne]
      exact hgoes hgo
    · rw [hjumps] at hjump
      cases hjump
  · intro j hj
    rw [List.mem_singleton.mp hj]
    exact hmeets

/-- An instruction at the end of a fragment. -/
theorem snoc {i : Instr} (hfirst : Fragment P start h is h₁) (hpops : i.pops ≤ h₁)
    (hjumps : i.opcode.jumps = false) (hgoes : i.opcode.goesOn = true → h₂ = i.after h₁)
    (hmeets : i.Meets P) : Fragment P start h (is ++ [i]) h₂ :=
  hfirst.append (single hpops hjumps hgoes hmeets)

/-- Two branches behind a test, as `Term.layout` lays them out. -/
theorem branches {test yes no : List Instr} (htest : Fragment P start h test (h + 1))
    (hyes : Fragment P (start + codeSize test + 3) h yes (h + 1))
    (hno : Fragment P (start + codeSize test + 3 + codeSize yes + 3) h no (h + 1)) :
    Fragment P start h (test ++ (⟨.jumpNotTruthy, start + codeSize test + 3 + codeSize yes + 3⟩ ::
      (yes ++ (⟨.jump, start + codeSize test + 3 + codeSize yes + 3 + codeSize no⟩ :: no))))
      (h + 1) := by
  obtain ⟨ht, htstart, htend, htbalanced, htmeets⟩ := htest
  obtain ⟨hy, hystart, hyend, hybalanced, hymeets⟩ := hyes
  obtain ⟨hn, hnstart, hnend, hnbalanced, hnmeets⟩ := hno
  generalize hbranch : start + codeSize test = branch at *
  generalize hskip : branch + 3 + codeSize yes = skip at *
  generalize hfinish : skip + 3 + codeSize no = finish at *
  -- Each piece comes with heights of its own. They agree where the pieces meet, so taking them in turn gives
  -- one height function for the whole.
  let height := fun p => if p ≤ branch then ht p else if p ≤ skip then hy p else hn p
  have inTest : ∀ p, start ≤ p → p ≤ start + codeSize test → height p = ht p := by
    intro p _ hp
    exact if_pos (hbranch ▸ hp)
  have inYes : ∀ p, branch + 3 ≤ p → p ≤ branch + 3 + codeSize yes → height p = hy p := by
    intro p hle hp
    have hnot : ¬ p ≤ branch := by omega
    simp only [height, if_neg hnot, if_pos (hskip ▸ hp)]
  have inNo : ∀ p, skip + 3 ≤ p → p ≤ skip + 3 + codeSize no → height p = hn p := by
    intro p hle _
    have hnot : ¬ p ≤ branch := by omega
    have hnot' : ¬ p ≤ skip := by omega
    simp only [height, if_neg hnot, if_neg hnot']
  have atStart : height start = h := by
    rw [inTest _ (by omega) (by omega), htstart]
  have atBranch : height branch = h + 1 := by
    rw [inTest _ (by omega) (by omega), htend]
  have atYes : height (branch + 3) = h := by
    rw [inYes _ (by omega) (by omega), hystart]
  have atSkip : height skip = h + 1 := by
    rw [inYes _ (by omega) (by omega), hyend]
  have atNo : height (skip + 3) = h := by
    rw [inNo _ (by omega) (by omega), hnstart]
  have atFinish : height finish = h + 1 := by
    rw [inNo _ (by omega) (by omega), hnend]
  have hsize : start + codeSize (test ++ (⟨.jumpNotTruthy, skip + 3⟩ ::
      (yes ++ (⟨.jump, finish⟩ :: no)))) = finish := by
    simp only [codeSize_append, codeSize_cons, Instr.size, Opcode.operandWidth, OperandWidth.size]
    omega
  refine ⟨height, atStart, ?_, ?_, ?_⟩
  · rw [hsize, atFinish]
  · exact .branches rfl hbranch hskip hfinish atBranch atYes atSkip atNo atFinish
      (htbalanced.congr inTest) (hybalanced.congr inYes) (hnbalanced.congr inNo)
  · intro i hi
    simp only [List.mem_append, List.mem_cons] at hi
    rcases hi with hi | rfl | hi | rfl | hi
    · exact htmeets i hi
    · trivial
    · exact hymeets i hi
    · trivial
    · exact hnmeets i hi

end Fragment

/-! ### The layout of terms and commands -/

section

variable {P : Use → Prop}

open Fragment

mutual

/-- The code of a term adds its value to the operands. Control enters at its start and leaves at its end only,
with one operand more than before, whichever way the jumps go. -/
theorem Term.fragment : ∀ (t : Term) (start h : Nat), (∀ u ∈ t.uses, P u) →
    Fragment P start h (t.layout start) (h + 1)
  | .constant index v, start, h, huses =>
    single (Nat.zero_le h) rfl (fun _ => rfl) ⟨v, huses _ (List.mem_singleton_self _)⟩
  | .bool true, start, h, huses => single (Nat.zero_le h) rfl (fun _ => rfl) trivial
  | .bool false, start, h, huses => single (Nat.zero_le h) rfl (fun _ => rfl) trivial
  | .null, start, h, huses => single (Nat.zero_le h) rfl (fun _ => rfl) trivial
  | .global index, start, h, huses =>
    single (Nat.zero_le h) rfl (fun _ => rfl) (huses _ (List.mem_singleton_self _))
  | .own index, start, h, huses =>
    single (Nat.zero_le h) rfl (fun _ => rfl) (huses _ (List.mem_singleton_self _))
  | .builtin index, start, h, huses =>
    single (Nat.zero_le h) rfl (fun _ => rfl) (huses _ (List.mem_singleton_self _))
  | .array elements, start, h, huses => by
    refine (fragment_of_terms elements start h huses).snoc ?_ rfl (fun _ => ?_) trivial
    · exact Nat.le_add_left _ _
    · show h + 1 = h + elements.length - elements.length + 1
      omega
  | .unary op operand, start, h, huses => by
    refine (operand.fragment start h huses).snoc ?_ ?_ (fun _ => ?_) ?_ <;> cases op
    all_goals first | exact Nat.le_add_left 1 h | rfl | trivial
  -- Either way two operands are there when the operator comes, whose order does not matter here.
  | .binary op left right, start, h, huses => by
    have hleft : ∀ u ∈ left.uses, P u := fun u hu => huses u (List.mem_append_left _ hu)
    have hright : ∀ u ∈ right.uses, P u := fun u hu => huses u (List.mem_append_right _ hu)
    unfold Term.layout
    by_cases hless : op = .less
    · rw [if_pos hless]
      exact (right.fragment start h hright).append
        ((left.fragment _ (h + 1) hleft).snoc (Nat.le_add_left 2 h) rfl (fun _ => rfl) trivial)
    · rw [if_neg hless]
      refine (left.fragment start h hleft).append
        ((right.fragment _ (h + 1) hright).snoc ?_ ?_ (fun _ => ?_) ?_) <;> cases op
      all_goals first | exact Nat.le_add_left 2 h | rfl | trivial
  -- Without an alternative the second branch is the single instruction that pushes null.
  | .cond condition consequence none, start, h, huses => by
    have huses₁ : ∀ u ∈ condition.uses, P u := fun u hu => huses u (List.mem_append_left _ hu)
    have huses₂ : ∀ u ∈ usesOfCommands consequence, P u :=
      fun u hu => huses u (List.mem_append_right _ hu)
    exact branches (condition.fragment start h huses₁) (fragment_of_block consequence _ h huses₂)
      (single (Nat.zero_le h) rfl (fun _ => rfl) trivial)
  | .cond condition consequence (some body), start, h, huses => by
    have huses₁ : ∀ u ∈ condition.uses, P u := fun u hu => huses u (List.mem_append_left _ hu)
    have huses₂ : ∀ u ∈ usesOfCommands consequence, P u :=
      fun u hu => huses u (List.mem_append_right _ (List.mem_append_left _ hu))
    have huses₃ : ∀ u ∈ usesOfCommands body, P u :=
      fun u hu => huses u (List.mem_append_right _ (List.mem_append_right _ hu))
    exact branches (condition.fragment start h huses₁) (fragment_of_block consequence _ h huses₂)
      (fragment_of_block body _ h huses₃)
  | .call callee args, start, h, huses => by
    have huses₁ : ∀ u ∈ callee.uses, P u := fun u hu => huses u (List.mem_append_left _ hu)
    have huses₂ : ∀ u ∈ usesOfTerms args, P u := fun u hu => huses u (List.mem_append_right _ hu)
    refine (callee.fragment start h huses₁).append
      ((fragment_of_terms args _ (h + 1) huses₂).snoc ?_ rfl (fun _ => ?_) trivial)
    · show args.length + 1 ≤ h + 1 + args.length
      omega
    · show h + 1 = h + 1 + args.length - (args.length + 1) + 1
      omega
  | .index collection position, start, h, huses => by
    have huses₁ : ∀ u ∈ collection.uses, P u := fun u hu => huses u (List.mem_append_left _ hu)
    have huses₂ : ∀ u ∈ position.uses, P u := fun u hu => huses u (List.mem_append_right _ hu)
    exact (collection.fragment start h huses₁).append
      ((position.fragment _ (h + 1) huses₂).snoc (Nat.le_add_left 2 h) rfl (fun _ => rfl) trivial)

/-- The code of some terms adds as many values. -/
theorem fragment_of_terms : ∀ (ts : List Term) (start h : Nat), (∀ u ∈ usesOfTerms ts, P u) →
    Fragment P start h (layoutTerms ts start) (h + ts.length)
  | [], start, h, huses => Fragment.nil P start h
  | t :: rest, start, h, huses => by
    have huses₁ : ∀ u ∈ t.uses, P u := fun u hu => huses u (List.mem_append_left _ hu)
    have huses₂ : ∀ u ∈ usesOfTerms rest, P u := fun u hu => huses u (List.mem_append_right _ hu)
    have hrest := fragment_of_terms rest (start + codeSize (t.layout start)) (h + 1) huses₂
    rw [List.length_cons, Nat.add_comm rest.length, ← Nat.add_assoc]
    exact (t.fragment start h huses₁).append hrest

/-- The code of a command adds nothing. -/
theorem Command.fragment : ∀ (c : Command) (start h : Nat), (∀ u ∈ c.uses, P u) →
    Fragment P start h (c.layout start) h
  | .setGlobal index value, start, h, huses => by
    obtain ⟨huse, huses⟩ := List.forall_mem_cons.mp huses
    exact (value.fragment start h huses).snoc (Nat.le_add_left 1 h) rfl (fun _ => rfl) huse
  | .setOwn index value, start, h, huses => by
    obtain ⟨huse, huses⟩ := List.forall_mem_cons.mp huses
    exact (value.fragment start h huses).snoc (Nat.le_add_left 1 h) rfl (fun _ => rfl) huse
  | .ret value, start, h, huses =>
    (value.fragment start h huses).snoc (Nat.le_add_left 1 h) rfl (fun _ => rfl) trivial
  | .throw value, start, h, huses =>
    (value.fragment start h huses).snoc (Nat.le_add_left 1 h) rfl (fun _ => rfl) trivial
  | .expr value, start, h, huses =>
    (value.fragment start h huses).snoc (Nat.le_add_left 1 h) rfl (fun _ => rfl) trivial
  | .empty, start, h, huses => Fragment.nil P start h

/-- The code of a block adds its value. -/
theorem fragment_of_block : ∀ (cs : List Command) (start h : Nat),
    (∀ u ∈ usesOfCommands cs, P u) → Fragment P start h (layoutBlock cs start) (h + 1)
  | [], start, h, huses => single (Nat.zero_le h) rfl (fun _ => rfl) trivial
  | c :: rest, start, h, huses => by
    have huses₁ : ∀ u ∈ c.uses, P u := fun u hu => huses u (List.mem_append_left _ hu)
    have huses₂ : ∀ u ∈ usesOfCommands rest, P u :=
      fun u hu => huses u (List.mem_append_right _ hu)
    by_cases hlast : c.closing = some .pop ∧ closingOf rest = none
    · cases c with
      | expr value =>
        rw [layoutBlock_of_expr hlast.2]
        exact value.fragment start h huses₁
      | _ => cases hlast.1
    · rw [layoutBlock_cons fun hc hrest => hlast ⟨hc, hrest⟩]
      exact (c.fragment start h huses₁).append (fragment_of_block rest _ h huses₂)

end

/-- The code of some commands adds nothing. -/
theorem fragment_of_commands : ∀ (cs : List Command) (start h : Nat),
    (∀ u ∈ usesOfCommands cs, P u) → Fragment P start h (layoutCommands cs start) h
  | [], start, h, huses => Fragment.nil P start h
  | c :: rest, start, h, huses => by
    have huses₁ : ∀ u ∈ c.uses, P u := fun u hu => huses u (List.mem_append_left _ hu)
    have huses₂ : ∀ u ∈ usesOfCommands rest, P u :=
      fun u hu => huses u (List.mem_append_right _ hu)
    exact (c.fragment start h huses₁).append (fragment_of_commands rest _ h huses₂)

/-! ### Code that leaves at its end -/

/-- A fragment that control enters without operands, and one instruction more, which leaves. The body of a
function and the top level of a snippet are of this form, so no code runs past its end. -/
def Leaving (P : Use → Prop) (start : Nat) (is : List Instr) : Prop :=
  ∃ body last h, is = body ++ [last] ∧ (last.opcode = .ret ∨ last.opcode = .returnValue) ∧
    last.pops ≤ h ∧ Fragment P start 0 body h

theorem Leaving.of_ret (P : Use → Prop) (start : Nat) : Leaving P start [⟨.ret, 0⟩] :=
  ⟨[], _, 0, rfl, .inl rfl, Nat.le_refl _, Fragment.nil P start 0⟩

theorem Leaving.of_value {value : Term} (start : Nat) (huses : ∀ u ∈ value.uses, P u) :
    Leaving P start (value.layout start ++ [⟨.returnValue, 0⟩]) :=
  ⟨_, _, 1, rfl, .inr rfl, Nat.le_refl _, value.fragment start 0 huses⟩

theorem Leaving.of_append {start : Nat} {is js : List Instr} (hfirst : Fragment P start 0 is 0)
    (hrest : Leaving P (start + codeSize is) js) : Leaving P start (is ++ js) := by
  obtain ⟨body, last, h, rfl, hleaves, hpops, hbody⟩ := hrest
  exact ⟨is ++ body, last, h, (List.append_assoc _ _ _).symm, hleaves, hpops, hfirst.append hbody⟩

/-- The code of a function's body leaves at its end. -/
theorem leaving_of_body : ∀ (cs : List Command) (start : Nat), (∀ u ∈ usesOfCommands cs, P u) →
    Leaving P start (layoutBody cs start)
  | [], start, huses => .of_ret P start
  | c :: rest, start, huses => by
    have huses₁ : ∀ u ∈ c.uses, P u := fun u hu => huses u (List.mem_append_left _ hu)
    have huses₂ : ∀ u ∈ usesOfCommands rest, P u :=
      fun u hu => huses u (List.mem_append_right _ hu)
    by_cases hlast : c.returns ∧ closingOf rest = none
    · obtain ⟨value, rfl | rfl, hlayout⟩ := layoutBody_of_returns hlast.1 hlast.2 start
      all_goals
        rw [hlayout]
        exact .of_value start huses₁
    · rw [layoutBody_cons fun hc hrest => hlast ⟨hc, hrest⟩]
      exact .of_append (c.fragment start 0 huses₁) (leaving_of_body rest _ huses₂)

/-- The code of a snippet leaves at its end. -/
theorem leaving_of_program : ∀ (cs : List Command) (start : Nat), (∀ u ∈ usesOfCommands cs, P u) →
    Leaving P start (layoutProgram cs start)
  | [], start, huses => .of_ret P start
  | c :: rest, start, huses => by
    have huses₁ : ∀ u ∈ c.uses, P u := fun u hu => huses u (List.mem_append_left _ hu)
    have huses₂ : ∀ u ∈ usesOfCommands rest, P u :=
      fun u hu => huses u (List.mem_append_right _ hu)
    by_cases hlast : ∃ value, c = .expr value ∧ rest = []
    · obtain ⟨value, rfl, rfl⟩ := hlast
      exact .of_value start huses₁
    · rw [layoutProgram_cons hlast]
      exact .of_append (c.fragment start 0 huses₁) (leaving_of_program rest _ huses₂)

end

end Notebook
