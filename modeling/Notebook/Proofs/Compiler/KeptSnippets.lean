import Mathlib.Data.List.Induction
import Notebook.Proofs.Compiler.WellFormedCode

/-!
Snippets that are kept, and the one that can be withdrawn.

What an incremental compiler does can be said without its compiler and without checkpoints. A `Ledger` is
the list of the texts that are kept, and tells whether the last of them can still be withdrawn. What a text
compiles to is found by compiling the list, from its start, with a new compiler.

* `IncrementalCompiler.Keeps`: how a compiler and a ledger agree; `Keeps.answer`: each request is
  answered alike, and keeps them in agreement.
* `Ledger.numbers_answerAll`: numbers are handed out in order, whatever is compiled meanwhile.
* `IncrementalCompiler.answerAll_eq_ledger`: so the compiler is at any time the one that has compiled the
  texts that are kept, and nothing else.
-/

namespace Notebook

/-! ### Requests -/

/-- What can be asked of an incremental compiler. Any order is allowed, also of requests that a session would
not make, such as to withdraw twice. -/
inductive CompilerRequest where
  | nextId
  | compile (snippet : SnippetId) (source : String)
  | commit
  | rollback
  deriving DecidableEq, Repr

inductive CompilerAnswer where
  | number (n : SnippetId)
  | compiled (result : Except (List Diagnostic) CompiledUnit × RunConfig)
  | done

/-- The number that was handed out, if this was asked for. -/
def CompilerAnswer.number? : CompilerAnswer → Option SnippetId
  | .number n => some n
  | _ => none

namespace IncrementalCompiler

def answer : CompilerRequest → IncrementalCompiler → CompilerAnswer × IncrementalCompiler
  | .nextId, c => (.number c.nextId.1, c.nextId.2)
  | .compile n source, c => (.compiled (c.compile n source).1, (c.compile n source).2)
  | .commit, c => (.done, c.commit)
  | .rollback, c => (.done, c.rollback)

/-- The answers to requests that come one after the other, and the compiler afterwards. -/
def answerAll : List CompilerRequest → IncrementalCompiler → List CompilerAnswer × IncrementalCompiler
  | [], c => ([], c)
  | r :: rest, c =>
    let (first, c) := c.answer r
    let (others, c) := c.answerAll rest
    (first :: others, c)

end IncrementalCompiler

/-! ### The ledger -/

/-- A new compiler that has compiled some texts in order. Those that fail to compile count for nothing. -/
def Compiler.replay (texts : List (SnippetId × String)) : Compiler :=
  texts.foldl (fun c text => (c.compileSource text.1 text.2).2) {}

/-- The texts that are kept, whether the last one can be withdrawn, and how many numbers were handed out.
Neither a compiler nor a checkpoint is part of it. -/
structure Ledger where
  kept : List (SnippetId × String) := []
  revocable : Bool := false
  handedOut : Nat := 0
  deriving DecidableEq, Repr

namespace Ledger

/-- A text that compiles after those that are kept is kept, too, and can be withdrawn. One that does not compile
makes the text before it permanent. -/
def compile (maxCallDepth : Nat) (n : SnippetId) (source : String) (l : Ledger) :
    (Except (List Diagnostic) CompiledUnit × RunConfig) × Ledger :=
  match ((Compiler.replay l.kept).compileSource n source).1 with
  | .ok u =>
    ((.ok u, ⟨n, maxCallDepth⟩), { l with kept := l.kept ++ [(n, source)], revocable := true })
  | .error cause =>
    ((.error [⟨cause.message, some n⟩], ⟨n, maxCallDepth⟩), { l with revocable := false })

/-- Withdraws the last text if this is possible. -/
def withdraw (l : Ledger) : Ledger :=
  if l.revocable then { l with kept := l.kept.dropLast, revocable := false } else l

def answer (maxCallDepth : Nat) : CompilerRequest → Ledger → CompilerAnswer × Ledger
  | .nextId, l => (.number (.ofNat l.handedOut), { l with handedOut := l.handedOut + 1 })
  | .compile n source, l =>
    (.compiled (l.compile maxCallDepth n source).1, (l.compile maxCallDepth n source).2)
  | .commit, l => (.done, { l with revocable := false })
  | .rollback, l => (.done, l.withdraw)

def answerAll (maxCallDepth : Nat) : List CompilerRequest → Ledger → List CompilerAnswer × Ledger
  | [], l => ([], l)
  | r :: rest, l =>
    let (first, l) := l.answer maxCallDepth r
    let (others, l) := l.answerAll maxCallDepth rest
    (first :: others, l)

/-- Each text that is kept compiles after those before it. -/
def Compiles (l : Ledger) : Prop :=
  ∀ before text after, l.kept = before ++ text :: after →
    ∃ u, ((Compiler.replay before).compileSource text.1 text.2).1 = .ok u

end Ledger

/-! ### Replaying -/

namespace Compiler

/-- A text that does not compile leaves a compiler between snippets as it is. -/
theorem Ready.compileSource_cases {c : Compiler} (h : c.Ready) (n : SnippetId) (source : String) :
    (∃ cause, c.compileSource n source = (.error cause, c)) ∨
      ∃ u c', c.compileSource n source = (.ok u, c') ∧ c'.Ready := by
  unfold Compiler.compileSource
  cases Program.ofSource source with
  | error cause => exact .inl ⟨_, rfl⟩
  | ok p =>
    have hready := h.compile n p
    rcases hc : c.compile n p with ⟨u | u, c'⟩
    · have hsame : c' = c := by
        unfold Compiler.compile at hc
        split at hc <;> cases hc
        exact h.idle.symm
      exact .inl ⟨.compile u, by simp only [hc, hsame]⟩
    · rw [hc] at hready
      exact .inr ⟨u, c', by simp only [hc], hready⟩

/-- Going back to the checkpoint of a compiler between snippets gives this compiler. -/
theorem Ready.restore_eq {c saved : Compiler} (h : c.Ready) (hsaved : saved.Ready) :
    c.restore saved.checkpoint = saved := by
  rw [h.idle, hsaved.idle]
  rfl

theorem replay_append (texts : List (SnippetId × String)) (n : SnippetId) (source : String) :
    replay (texts ++ [(n, source)]) = ((replay texts).compileSource n source).2 :=
  List.foldl_append

theorem replay_ready (texts : List (SnippetId × String)) : (replay texts).Ready := by
  induction texts using List.reverseRecOn with
  | nil => exact Reachable.new.ready
  | append_singleton texts text ih =>
    rw [replay_append]
    rcases ih.compileSource_cases text.1 text.2 with ⟨cause, hc⟩ | ⟨u, c', hc, hready⟩
    · rw [hc]
      exact ih
    · rw [hc]
      exact hready

end Compiler

/-! ### In agreement -/

namespace Ledger

theorem compiles_nil : Compiles {} := by
  intro before text after h
  cases before <;> cases h

theorem Compiles.dropLast {l : Ledger} (h : l.Compiles) :
    Compiles { l with kept := l.kept.dropLast, revocable := false } := by
  intro before text after hkept
  rcases List.eq_nil_or_concat l.kept with hnil | ⟨kept, last, hconcat⟩
  · rw [hnil] at hkept
    cases before <;> cases hkept
  · have hdropped : l.kept.dropLast = kept := by
      rw [hconcat, List.concat_eq_append, List.dropLast_concat]
    refine h before text (after ++ [last]) ?_
    rw [hconcat, ← hdropped, show l.kept.dropLast = before ++ text :: after from hkept]
    simp

theorem Compiles.append {l : Ledger} {n : SnippetId} {source : String} {u : CompiledUnit}
    (h : l.Compiles) (hu : ((Compiler.replay l.kept).compileSource n source).1 = .ok u) (revocable : Bool) :
    Compiles { l with kept := l.kept ++ [(n, source)], revocable } := by
  intro before text after hkept
  rcases List.eq_nil_or_concat after with rfl | ⟨after, last, rfl⟩
  · obtain ⟨rfl, rfl⟩ : l.kept = before ∧ (n, source) = text := by simpa using hkept
    exact ⟨u, hu⟩
  · rw [List.concat_eq_append, ← List.cons_append, ← List.append_assoc] at hkept
    exact h before text after (List.append_inj_left' hkept rfl)

end Ledger

namespace IncrementalCompiler

/-- A compiler has compiled the texts of a ledger. What is pending is the checkpoint before the last text, as
long as this can be withdrawn. That every text compiles after those before it is what makes the checkpoint the
compiler of the shorter list. -/
structure Keeps (maxCallDepth : Nat) (c : IncrementalCompiler) (l : Ledger) : Prop where
  compiler : c.compiler = .replay l.kept
  pending : c.pending =
    if l.revocable then some (Compiler.replay l.kept.dropLast).checkpoint else none
  next : c.nextSnippet = .ofNat l.handedOut
  depth : c.maxCallDepth = maxCallDepth
  compiles : l.Compiles

variable {maxCallDepth : Nat} {c : IncrementalCompiler} {l : Ledger}

theorem Keeps.new (maxCallDepth : Nat) : Keeps maxCallDepth { maxCallDepth } {} where
  compiler := rfl
  pending := rfl
  next := rfl
  depth := rfl
  compiles := Ledger.compiles_nil

theorem Keeps.compile (h : c.Keeps maxCallDepth l) (n : SnippetId) (source : String) :
    (c.compile n source).1 = (l.compile maxCallDepth n source).1 ∧
      (c.compile n source).2.Keeps maxCallDepth (l.compile maxCallDepth n source).2 := by
  obtain ⟨compiler, pending, next, depth⟩ := c
  obtain ⟨rfl, -, hnext, rfl, hcompiles⟩ := h
  unfold IncrementalCompiler.compile Ledger.compile
  rcases (Compiler.replay_ready l.kept).compileSource_cases n source with ⟨cause, hc⟩ | ⟨u, c', hc, -⟩
  · simp only [hc, true_and]
    exact ⟨rfl, rfl, hnext, rfl, hcompiles⟩
  · simp only [hc, true_and]
    refine ⟨?_, ?_, hnext, rfl, hcompiles.append (by rw [hc]) true⟩
    · rw [Compiler.replay_append, hc]
    · rw [List.dropLast_concat]
      rfl

theorem Keeps.rollback (h : c.Keeps maxCallDepth l) : c.rollback.Keeps maxCallDepth l.withdraw := by
  obtain ⟨compiler, pending, next, depth⟩ := c
  obtain ⟨rfl, hpending, hnext, rfl, hcompiles⟩ := h
  unfold IncrementalCompiler.rollback Ledger.withdraw
  cases hrevocable : l.revocable with
  | true =>
    rw [hrevocable] at hpending
    cases hpending
    have hback := (Compiler.replay_ready l.kept).restore_eq (Compiler.replay_ready l.kept.dropLast)
    exact ⟨hback, rfl, hnext, rfl, hcompiles.dropLast⟩
  | false =>
    rw [hrevocable] at hpending
    cases hpending
    exact ⟨rfl, by rw [if_neg Bool.false_ne_true, hrevocable]; rfl, hnext, rfl, hcompiles⟩

/-- A request is answered as the ledger says, and keeps compiler and ledger in agreement. -/
theorem Keeps.answer (h : c.Keeps maxCallDepth l) (r : CompilerRequest) :
    (c.answer r).1 = (l.answer maxCallDepth r).1 ∧
      (c.answer r).2.Keeps maxCallDepth (l.answer maxCallDepth r).2 := by
  cases r with
  | nextId =>
    refine ⟨congrArg CompilerAnswer.number h.next, h.compiler, h.pending, ?_, h.depth, h.compiles⟩
    show c.nextSnippet + 1 = UInt32.ofNat (l.handedOut + 1)
    rw [h.next, UInt32.ofNat_add]
    rfl
  | compile n source =>
    obtain ⟨hsame, h⟩ := h.compile n source
    exact ⟨congrArg CompilerAnswer.compiled hsame, h⟩
  | commit => exact ⟨rfl, h.compiler, rfl, h.next, h.depth, h.compiles⟩
  | rollback => exact ⟨rfl, h.rollback⟩

theorem Keeps.answerAll (h : c.Keeps maxCallDepth l) (requests : List CompilerRequest) :
    (c.answerAll requests).1 = (l.answerAll maxCallDepth requests).1 ∧
      (c.answerAll requests).2.Keeps maxCallDepth (l.answerAll maxCallDepth requests).2 := by
  induction requests generalizing c l with
  | nil => exact ⟨rfl, h⟩
  | cons r rest ih =>
    obtain ⟨hfirst, h⟩ := h.answer r
    obtain ⟨hothers, h⟩ := ih h
    exact ⟨congr (congrArg List.cons hfirst) hothers, h⟩

end IncrementalCompiler

/-! ### Numbers -/

/-- No other request hands out a number. -/
theorem Ledger.answer_of_ne {r : CompilerRequest} (hr : r ≠ .nextId) (maxCallDepth : Nat) (l : Ledger) :
    (l.answer maxCallDepth r).1.number? = none ∧ (l.answer maxCallDepth r).2.handedOut = l.handedOut := by
  cases r with
  | nextId => exact absurd rfl hr
  | compile n source =>
    refine ⟨rfl, ?_⟩
    show (l.compile maxCallDepth n source).2.handedOut = l.handedOut
    unfold Ledger.compile
    split <;> rfl
  | commit => exact ⟨rfl, rfl⟩
  | rollback =>
    refine ⟨rfl, ?_⟩
    show l.withdraw.handedOut = l.handedOut
    unfold withdraw
    split <;> rfl

/-- Numbers are handed out in order, whatever is asked for meanwhile. -/
theorem Ledger.numbers_answerAll (maxCallDepth : Nat) (requests : List CompilerRequest) (l : Ledger) :
    (l.answerAll maxCallDepth requests).1.filterMap CompilerAnswer.number? =
      (List.range' l.handedOut (requests.count .nextId)).map UInt32.ofNat := by
  induction requests generalizing l with
  | nil => rfl
  | cons r rest ih =>
    have hrest := ih (l.answer maxCallDepth r).2
    by_cases hr : r = .nextId
    · subst hr
      rw [List.count_cons_self, List.range'_succ, List.map_cons]
      exact congrArg (UInt32.ofNat l.handedOut :: ·) hrest
    · obtain ⟨hnumber, hhanded⟩ := answer_of_ne hr maxCallDepth l
      rw [hhanded] at hrest
      rw [List.count_cons_of_ne hr, ← hrest]
      exact List.filterMap_cons_none hnumber

/-- Whatever is asked of a new compiler, it answers as the ledger does, and has the names and the count of
constants of a compiler that has compiled the texts that are kept, all of which compile. The numbers that it
hands out are 0, 1, 2 and so on, as long as there are so many. -/
theorem IncrementalCompiler.answerAll_eq_ledger (requests : List CompilerRequest) (maxCallDepth : Nat) :
    let served := IncrementalCompiler.answerAll requests { maxCallDepth }
    let ledger := Ledger.answerAll maxCallDepth requests {}
    served.1 = ledger.1 ∧ served.2.compiler = Compiler.replay ledger.2.kept ∧ ledger.2.Compiles ∧
      (requests.count .nextId < UInt32.size →
        (served.1.filterMap CompilerAnswer.number?).map UInt32.toNat =
          List.range (requests.count .nextId)) := by
  intro served ledger
  obtain ⟨hanswers, hkeeps⟩ := (Keeps.new maxCallDepth).answerAll requests
  refine ⟨hanswers, hkeeps.compiler, hkeeps.compiles, fun hcalls => ?_⟩
  have hnumbers := Ledger.numbers_answerAll maxCallDepth requests {}
  rw [hanswers, hnumbers, List.map_map, List.range_eq_range']
  refine (List.map_congr_left fun k hk => ?_).trans (List.map_id _)
  have hlt : k < requests.count .nextId := by simpa using List.mem_range'.mp hk
  exact UInt32.toNat_ofNat_of_lt (Nat.lt_trans hlt hcalls)

/-- Two texts are kept: one was confirmed, one withdrawn, one did not compile, and one is pending. -/
theorem IncrementalCompiler.withdrawn_and_refused :
    let requests : List CompilerRequest :=
      [.nextId, .compile 0 "let a = 1;", .commit, .nextId, .compile 1 "let b = 2;", .nextId, .rollback,
        .rollback, .compile 2 "b", .rollback, .compile 3 "let c = a;"]
    let served := IncrementalCompiler.answerAll requests { maxCallDepth := 7 }
    requests.count .nextId < UInt32.size ∧
      served.2.compiler = Compiler.replay [(0, "let a = 1;"), (3, "let c = a;")] ∧
      (served.1.filterMap CompilerAnswer.number?).map UInt32.toNat = [0, 1, 2] := by
  intro requests served
  have hcalls : requests.count .nextId < UInt32.size := by decide +kernel
  obtain ⟨-, hcompiler, -, hnumbers⟩ := IncrementalCompiler.answerAll_eq_ledger requests 7
  have hkept : (Ledger.answerAll 7 requests {}).2.kept = [(0, "let a = 1;"), (3, "let c = a;")] := by
    decide +kernel
  exact ⟨hcalls, hkept ▸ hcompiler, hnumbers hcalls⟩

end Notebook
