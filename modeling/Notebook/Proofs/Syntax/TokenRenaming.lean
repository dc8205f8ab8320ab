import Notebook.Proofs.Syntax.ProgramKinds
import Notebook.Proofs.Syntax.ProgramRoundtrip

/-!
Renaming identifiers.

A program that has its identifiers renamed, token by token, reads as the renamed program (`Program.rename`), alone
and inside of a block. It has no function literals and only names that are fine (`Program.isPlain`).

* `Parser.carries_expr`: the parser makes of renamed tokens the renamed expression.
* `Parser.Exhausts.block`: the tokens of a program, renamed and between braces, read as a block.
-/

namespace Notebook

/-! ### Tokens -/

def Token.rename (σ : String → String) : Token → Token
  | .ident name => .ident (σ name)
  | t => t

/-- Is a token no `fn`, and is its name fine if it has one? Function literals are left out because their
parameters would have to be fine, too. -/
def Token.isPlain (fine : String → Bool) : Token → Bool
  | .ident name => fine name
  | .keyword .function => false
  | _ => true

namespace Parser

/-! ### Suffixes -/

section

variable {ts rest a : List Token}

/-- What is left is some of what was there. -/
theorem Consumes.length_le (h : Consumes ts rest a) : rest.length ≤ ts.length := by
  obtain ⟨used, rfl, -⟩ := h
  rw [List.length_append]
  exact Nat.le_add_left _ _

theorem Consumes.all (h : Consumes ts rest a) {p : Token → Bool} (hall : ts.all p = true) :
    rest.all p = true := by
  obtain ⟨used, rfl, -⟩ := h
  rw [List.all_append, Bool.and_eq_true] at hall
  exact hall.2

end

/-- Do some tokens end the expression, the statement and the statements before them? Such tokens may be put
behind those of a program without changing how that is read. -/
def Closes (tail : List Token) : Prop :=
  tail = [] ∨ ∃ rest, tail = .symbol .rightBrace :: rest

/-- Does a parser of expressions make of renamed tokens with `tail` behind them the renamed expression that
another one makes of the tokens, as far as there are fewer than `n`? What comes true of the parser for shorter
texts is used for longer ones. -/
structure Carries (σ : String → String) (fine : String → Bool) (tail : List Token) (n : Nat)
    (nested nested' : Nested) : Prop where
  faithful : Faithful nested
  carried : ∀ p ts e rest, ts.length < n → ts.all (Token.isPlain fine) = true →
    nested p ts = .ok (e, rest) → e.isPlain fine true = true ∧
      nested' p (ts.map (Token.rename σ) ++ tail) =
        .ok (e.rename σ, rest.map (Token.rename σ) ++ tail)

section

variable {σ : String → String} {fine : String → Bool} {tail ts rest : List Token} {n : Nat}
variable {nested nested' : Nested} {bound bound' : Nat} {e : Expr}

/-! ### Punctuation -/

theorem carried_expectNext {s : Symbol} (h : expectNext s ts = .ok rest) :
    expectNext s (ts.map (Token.rename σ) ++ tail) = .ok (rest.map (Token.rename σ) ++ tail) := by
  unfold expectNext at h
  split at h
  · cases h
  · split at h
    · rename_i ht
      cases h
      rw [ht]
      exact if_pos rfl
    · cases h

theorem carried_skipSemicolon (htail : Closes tail) (ts : List Token) :
    skipSemicolon (ts.map (Token.rename σ) ++ tail) =
      (skipSemicolon ts).map (Token.rename σ) ++ tail := by
  cases ts with
  | nil => rcases htail with rfl | ⟨rest, rfl⟩ <;> rfl
  | cons t ts => cases t with
    | symbol s => cases s <;> rfl
    | _ => rfl

/-! ### Lists -/

/-- A list ends where it is closed. -/
theorem moreItems_close {close : Symbol} (hclose : close ≠ .comma) (nested : Nested) (bound : Nat)
    (read : List Expr) (rest : List Token) :
    moreItems nested close bound read (.symbol close :: rest) = .ok (read.reverse, rest) := by
  unfold moreItems
  split
  · rename_i hts
    cases hts
    exact absurd rfl hclose
  · rw [expectNext, if_pos rfl]
    rfl

theorem carried_moreItems (hn : Carries σ fine tail n nested nested') {close : Symbol}
    (hclose : close ≠ .comma) {read es : List Expr} (hlength : ts.length ≤ n)
    (hbound : ts.length ≤ bound') (hplain : ts.all (Token.isPlain fine) = true)
    (h : moreItems nested close bound read ts = .ok (es, rest)) :
    ∃ more, es = read.reverse ++ more ∧ exprsPlain fine true more = true ∧
      ∀ read', moreItems nested' close bound' read' (ts.map (Token.rename σ) ++ tail) =
        .ok (read'.reverse ++ renameExprs σ more, rest.map (Token.rename σ) ++ tail) := by
  -- By the recursion of the list: after a comma there is one more item, and otherwise the list has to be
  -- closed.
  fun_induction moreItems nested close bound read ts generalizing bound' with
  | case1 bound read ts ih =>
    obtain ⟨⟨e, mid⟩, hfirst, h⟩ := bind_eq_ok_iff.mp h
    rw [List.all_cons, Bool.and_eq_true] at hplain
    rw [List.length_cons] at hlength hbound
    obtain ⟨he, hfirst'⟩ := hn.carried _ _ _ _ hlength hplain.2 hfirst
    have hconsumes := hn.faithful _ _ _ _ hfirst
    have hmid := hconsumes.length_le
    obtain ⟨bound', rfl⟩ : ∃ b, bound' = b + 1 := ⟨bound' - 1, by omega⟩
    obtain ⟨more, rfl, hmore, hrest⟩ := ih e mid (by omega)
      (show mid.length ≤ bound' by omega) (hconsumes.all hplain.2) h
    refine ⟨e :: more, by simp, ?_, fun read' => ?_⟩
    · rw [exprsPlain, he, hmore, Bool.and_self]
    · refine bind_eq_ok_iff.mpr ⟨_, hfirst', (hrest (e.rename σ :: read')).trans ?_⟩
      simp [renameExprs]
  | case2 bound read ts hcomma =>
    obtain ⟨left, hleft, h⟩ := bind_eq_ok_iff.mp h
    cases h
    obtain rfl := eq_of_expectNext hleft
    refine ⟨[], (List.append_nil _).symm, rfl, fun read' => ?_⟩
    rw [renameExprs, List.append_nil]
    exact moreItems_close hclose nested' bound' read' _

theorem Token.symbol_of_rename {t : Token} {s : Symbol} (h : t.rename σ = .symbol s) :
    t = .symbol s := by
  cases t with
  | symbol other => exact h
  | _ => cases h

theorem carried_items (hn : Carries σ fine tail n nested nested') {close : Symbol}
    (hclose : close ≠ .comma) {es : List Expr} (hlength : ts.length < n)
    (hbound : ts.length ≤ bound') (hplain : ts.all (Token.isPlain fine) = true)
    (h : items nested close bound ts = .ok (es, rest)) :
    exprsPlain fine true es = true ∧ items nested' close bound' (ts.map (Token.rename σ) ++ tail) =
      .ok (renameExprs σ es, rest.map (Token.rename σ) ++ tail) := by
  unfold items at h
  split at h
  · rename_i hhead
    cases h
    obtain ⟨ts, rfl⟩ := List.head?_eq_some_iff.mp hhead
    exact ⟨rfl, if_pos rfl⟩
  · rename_i hhead
    obtain ⟨⟨e, mid⟩, hfirst, h⟩ := bind_eq_ok_iff.mp h
    obtain ⟨he, hfirst'⟩ := hn.carried _ _ _ _ hlength hplain hfirst
    have hconsumes := hn.faithful _ _ _ _ hfirst
    have hmid := hconsumes.length_lt e.words_ne_nil
    obtain ⟨more, rfl, hmore, hrest⟩ := carried_moreItems hn hclose (by omega)
      (show mid.length ≤ bound' by omega) (hconsumes.all hplain) h
    have hhead' : ¬ (ts.map (Token.rename σ) ++ tail).head? = some (.symbol close) := by
      cases ts with
      | nil => exact absurd hmid (Nat.not_lt_zero _)
      | cons t ts =>
        intro hsame
        exact hhead (congrArg some (Token.symbol_of_rename (Option.some.inj hsame)))
    refine ⟨?_, ?_⟩
    · rw [List.reverse_singleton, List.singleton_append, exprsPlain, he, hmore, Bool.and_self]
    · rw [items, if_neg hhead']
      exact bind_eq_ok_iff.mpr ⟨_, hfirst', hrest [e.rename σ]⟩

/-! ### Statements -/

/-- An expression, and a semicolon that may be left out. -/
theorem carried_value (hn : Carries σ fine tail n nested nested') (htail : Closes tail)
    (hlength : ts.length < n) (hplain : ts.all (Token.isPlain fine) = true) {mid : List Token}
    (h : nested .lowest ts = .ok (e, mid)) : e.isPlain fine true = true ∧
      ∃ mid', nested' .lowest (ts.map (Token.rename σ) ++ tail) = .ok (e.rename σ, mid') ∧
        skipSemicolon mid' = (skipSemicolon mid).map (Token.rename σ) ++ tail := by
  obtain ⟨he, h'⟩ := hn.carried _ _ _ _ hlength hplain h
  exact ⟨he, _, h', carried_skipSemicolon htail mid⟩

theorem carried_binding (hn : Carries σ fine tail n nested nested') (htail : Closes tail)
    {s : Stmt} (hlength : ts.length < n) (hplain : ts.all (Token.isPlain fine) = true)
    (h : binding nested ts = .ok (s, rest)) : s.isPlain fine true = true ∧
      binding nested' (ts.map (Token.rename σ) ++ tail) =
        .ok (s.rename σ, rest.map (Token.rename σ) ++ tail) := by
  unfold binding at h
  split at h
  · cases h
  · rename_i name ts
    obtain ⟨mid, hassign, h⟩ := bind_eq_ok_iff.mp h
    obtain ⟨⟨e, left⟩, hvalue, h⟩ := bind_eq_ok_iff.mp h
    cases h
    rw [List.all_cons, Bool.and_eq_true] at hplain
    have hconsumes := consumes_of_expectNext hassign
    have hmid := hconsumes.length_le
    rw [List.length_cons] at hlength
    obtain ⟨he, left', hvalue', hleft'⟩ := carried_value hn htail (show mid.length < n by omega)
      (hconsumes.all hplain.2) hvalue
    refine ⟨Bool.and_eq_true_iff.mpr ⟨hplain.1, he⟩, ?_⟩
    rw [← hleft']
    exact bind_eq_ok_iff.mpr ⟨_, carried_expectNext hassign,
      bind_eq_ok_iff.mpr ⟨_, hvalue', rfl⟩⟩
  · cases h

/-- A statement is carried. Renaming changes no token that tells one kind of statement from another, and what
comes behind ends the statement as the end of the tokens did. -/
theorem carried_statement (hn : Carries σ fine tail n nested nested') (htail : Closes tail)
    {s : Stmt} (hlength : ts.length < n) (hplain : ts.all (Token.isPlain fine) = true)
    (h : statement nested ts = .ok (s, rest)) : s.isPlain fine true = true ∧
      statement nested' (ts.map (Token.rename σ) ++ tail) =
        .ok (s.rename σ, rest.map (Token.rename σ) ++ tail) := by
  unfold statement at h
  split at h
  · rw [List.all_cons, Bool.and_eq_true] at hplain
    exact carried_binding hn htail (Nat.lt_of_succ_lt hlength) hplain.2 h
  · obtain ⟨⟨e, mid⟩, hvalue, h⟩ := bind_eq_ok_iff.mp h
    cases h
    rw [List.all_cons, Bool.and_eq_true] at hplain
    obtain ⟨he, mid', hvalue', hmid'⟩ :=
      carried_value hn htail (Nat.lt_of_succ_lt hlength) hplain.2 hvalue
    rw [← hmid']
    exact ⟨he, bind_eq_ok_iff.mpr ⟨_, hvalue', rfl⟩⟩
  · obtain ⟨⟨e, mid⟩, hvalue, h⟩ := bind_eq_ok_iff.mp h
    cases h
    rw [List.all_cons, Bool.and_eq_true] at hplain
    obtain ⟨he, mid', hvalue', hmid'⟩ :=
      carried_value hn htail (Nat.lt_of_succ_lt hlength) hplain.2 hvalue
    rw [← hmid']
    exact ⟨he, bind_eq_ok_iff.mpr ⟨_, hvalue', rfl⟩⟩
  · cases h
    exact ⟨rfl, rfl⟩
  · rename_i hlet hreturn hthrow hsemicolon
    obtain ⟨⟨e, mid⟩, hvalue, h⟩ := bind_eq_ok_iff.mp h
    cases h
    have hmid := (hn.faithful _ _ _ _ hvalue).length_lt e.words_ne_nil
    obtain ⟨he, mid', hvalue', hmid'⟩ := carried_value hn htail hlength hplain hvalue
    refine ⟨he, ?_⟩
    rw [← hmid']
    have hother : statement nested' (ts.map (Token.rename σ) ++ tail) =
        (nested' .lowest (ts.map (Token.rename σ) ++ tail) >>= fun read =>
          .ok (.expr read.1, skipSemicolon read.2)) := by
      -- The first token is none of those that begin other statements, under any name.
      cases ts with
      | nil => exact absurd hmid (Nat.not_lt_zero _)
      | cons t ts => cases t with
        | keyword k => cases k with
          | letBinding => exact absurd rfl (hlet ts)
          | returnValue => exact absurd rfl (hreturn ts)
          | throwValue => exact absurd rfl (hthrow ts)
          | _ => rfl
        | symbol s => cases s with
          | semicolon => exact absurd rfl (hsemicolon ts)
          | _ => rfl
        | _ => rfl
    rw [hother]
    exact bind_eq_ok_iff.mpr ⟨_, hvalue', rfl⟩

/-- The statements of a block are carried, with the brace that closes it. -/
theorem carried_block (hn : Carries σ fine tail n nested nested') (htail : Closes tail)
    {read ss : List Stmt} (hlength : ts.length < n) (hbound : ts.length ≤ bound')
    (hplain : ts.all (Token.isPlain fine) = true)
    (h : block nested bound read ts = .ok (ss, rest)) :
    ∃ more, ss = read.reverse ++ more ∧ Program.isPlain fine true more = true ∧
      ∀ read', block nested' bound' read' (ts.map (Token.rename σ) ++ tail) =
        .ok (read'.reverse ++ Program.rename σ more, rest.map (Token.rename σ) ++ tail) := by
  fun_induction block nested bound read ts generalizing bound' with
  | case1 => cases h
  | case2 bound read ts =>
    cases h
    refine ⟨[], (List.append_nil _).symm, rfl, fun read' => ?_⟩
    rw [Program.rename, List.append_nil]
    unfold block
    rfl
  | case3 => cases h
  | case4 bound read ts hne hbrace ih =>
    obtain ⟨⟨s, mid⟩, hfirst, h⟩ := bind_eq_ok_iff.mp h
    obtain ⟨hs, hfirst'⟩ := carried_statement hn htail hlength hplain hfirst
    have hconsumes := consumes_of_statement hn.faithful hfirst
    have hmid := length_lt_of_statement hn.faithful hfirst
    obtain ⟨bound', rfl⟩ : ∃ b, bound' = b + 1 := ⟨bound' - 1, by omega⟩
    obtain ⟨more, rfl, hmore, hrest⟩ := ih s mid (by omega)
      (show mid.length ≤ bound' by omega) (hconsumes.all hplain) h
    refine ⟨s :: more, by simp, ?_, fun read' => ?_⟩
    · rw [Program.isPlain, hs, hmore, Bool.and_self]
    · have hgoes := hrest (s.rename σ :: read')
      rw [List.reverse_cons, List.append_assoc, List.singleton_append, ← Program.rename] at hgoes
      rw [block, hfirst']
      · exact hgoes
      · intro hnil
        exact hne (List.map_eq_nil_iff.mp (List.append_eq_nil_iff.mp hnil).1)
      · intro rest' hsame
        cases ts with
        | nil => exact hne rfl
        | cons t ts =>
          injection hsame with ht
          rw [Token.symbol_of_rename ht] at hbrace
          exact hbrace ts rfl

/-! ### Expressions -/

theorem carried_conditional (hn : Carries σ fine tail n nested nested') (htail : Closes tail)
    (hlength : ts.length < n) (hbound : ts.length ≤ bound')
    (hplain : ts.all (Token.isPlain fine) = true)
    (h : conditional nested bound ts = .ok (e, rest)) : e.isPlain fine true = true ∧
      conditional nested' bound' (ts.map (Token.rename σ) ++ tail) =
        .ok (e.rename σ, rest.map (Token.rename σ) ++ tail) := by
  obtain ⟨ts₁, hopen, h⟩ := bind_eq_ok_iff.mp h
  obtain ⟨⟨condition, ts₂⟩, hcondition, h⟩ := bind_eq_ok_iff.mp h
  obtain ⟨ts₃, hclose, h⟩ := bind_eq_ok_iff.mp h
  obtain ⟨ts₄, hbrace, h⟩ := bind_eq_ok_iff.mp h
  obtain ⟨⟨consequence, ts₅⟩, hconsequence, h⟩ := bind_eq_ok_iff.mp h
  have hused₁ := consumes_of_expectNext hopen
  have hused₂ := hused₁.trans (hn.faithful _ _ _ _ hcondition)
  have hused₄ := (hused₂.trans (consumes_of_expectNext hclose)).trans (consumes_of_expectNext hbrace)
  have hlength₁ := hused₁.length_le
  have hlength₄ := hused₄.length_le
  obtain ⟨hplain₁, hcondition'⟩ := hn.carried _ _ _ _ (show ts₁.length < n by omega)
    (hused₁.all hplain) hcondition
  obtain ⟨_, rfl, hplain₄, hconsequence'⟩ := carried_block hn htail (show ts₄.length < n by omega)
    (show ts₄.length ≤ bound' by omega) (hused₄.all hplain) hconsequence
  obtain ⟨_, -, hblock⟩ := consumes_of_block hn.faithful hconsequence
  have hused₅ := hused₄.trans hblock
  have hbegins : ∀ {parsed : Parsed Expr}, _ → conditional nested' bound'
      (ts.map (Token.rename σ) ++ tail) = .ok parsed := fun helse =>
    bind_eq_ok_iff.mpr ⟨_, carried_expectNext hopen, bind_eq_ok_iff.mpr ⟨_, hcondition',
      bind_eq_ok_iff.mpr ⟨_, carried_expectNext hclose, bind_eq_ok_iff.mpr ⟨_,
        carried_expectNext hbrace, bind_eq_ok_iff.mpr ⟨_, hconsequence' [], helse⟩⟩⟩⟩⟩
  simp only at h
  split at h
  · obtain ⟨ts₆, hbrace', h⟩ := bind_eq_ok_iff.mp h
    obtain ⟨⟨alternative, ts₇⟩, halternative, h⟩ := bind_eq_ok_iff.mp h
    cases h
    have hused₆ := hused₅.trans ((Consumes.token rfl _).trans (consumes_of_expectNext hbrace'))
    have hlength₆ := hused₆.length_le
    obtain ⟨_, rfl, hplain₆, halternative'⟩ := carried_block hn htail
      (show ts₆.length < n by omega) (show ts₆.length ≤ bound' by omega) (hused₆.all hplain)
      halternative
    refine ⟨?_, hbegins (bind_eq_ok_iff.mpr ⟨_, carried_expectNext hbrace',
      bind_eq_ok_iff.mpr ⟨_, halternative' [], rfl⟩⟩)⟩
    exact Bool.and_eq_true_iff.mpr ⟨hplain₁, Bool.and_eq_true_iff.mpr ⟨hplain₄, hplain₆⟩⟩
  · rename_i hnoElse
    cases h
    refine ⟨Bool.and_eq_true_iff.mpr ⟨hplain₁, hplain₄⟩, hbegins ?_⟩
    simp only
    split
    · rename_i hsame
      -- There was no other branch, and `tail` is none.
      cases rest with
      | nil => rcases htail with rfl | ⟨_, rfl⟩ <;> cases hsame
      | cons t rest => cases t with
        | keyword k =>
          cases hsame
          exact absurd rfl (hnoElse rest)
        | _ => cases hsame
    · rfl

/-- An operand is carried, whichever token it begins with. Function literals do not occur, as their keyword is
not plain. -/
theorem carried_operand (hn : Carries σ fine tail n nested nested') (htail : Closes tail)
    (hlength : ts.length ≤ n) (hbound : ts.length ≤ bound')
    (hplain : ts.all (Token.isPlain fine) = true)
    (h : operand nested bound ts = .ok (e, rest)) : e.isPlain fine true = true ∧
      operand nested' bound' (ts.map (Token.rename σ) ++ tail) =
        .ok (e.rename σ, rest.map (Token.rename σ) ++ tail) := by
  cases ts with
  | nil => cases h
  | cons t ts =>
    rw [List.all_cons, Bool.and_eq_true] at hplain
    rw [List.length_cons] at hlength hbound
    cases t with
    | ident name =>
      cases h
      exact ⟨hplain.1, rfl⟩
    | int digits =>
      obtain ⟨value, hvalue, h⟩ := bind_eq_ok_iff.mp h
      cases h
      exact ⟨rfl, bind_eq_ok_iff.mpr ⟨_, hvalue, rfl⟩⟩
    | str text =>
      cases h
      exact ⟨rfl, rfl⟩
    | illegal text => cases h
    | keyword k => cases k with
      | trueLiteral | falseLiteral | nullLiteral =>
        cases h
        exact ⟨rfl, rfl⟩
      | ifBranch => exact carried_conditional hn htail hlength (Nat.le_of_succ_le hbound) hplain.2 h
      | function => cases hplain.1
      | _ => cases h
    | symbol s => cases s with
      | bang | minus =>
        obtain ⟨⟨e', mid⟩, hoperand, h⟩ := bind_eq_ok_iff.mp h
        cases h
        obtain ⟨he, hoperand'⟩ := hn.carried _ _ _ _ hlength hplain.2 hoperand
        exact ⟨he, bind_eq_ok_iff.mpr ⟨_, hoperand', rfl⟩⟩
      | leftParen =>
        obtain ⟨⟨e', mid⟩, hinner, h⟩ := bind_eq_ok_iff.mp h
        obtain ⟨left, hclose, h⟩ := bind_eq_ok_iff.mp h
        cases h
        obtain ⟨he, hinner'⟩ := hn.carried _ _ _ _ hlength hplain.2 hinner
        exact ⟨he, bind_eq_ok_iff.mpr ⟨_, hinner', bind_eq_ok_iff.mpr
          ⟨_, carried_expectNext hclose, rfl⟩⟩⟩
      | leftBracket =>
        obtain ⟨⟨es, mid⟩, hitems, h⟩ := bind_eq_ok_iff.mp h
        cases h
        obtain ⟨hes, hitems'⟩ := carried_items hn (by decide) hlength (Nat.le_of_succ_le hbound)
          hplain.2 hitems
        exact ⟨hes, bind_eq_ok_iff.mpr ⟨_, hitems', rfl⟩⟩
      | _ => cases h

/-- What a suffix goes on to is used up. -/
theorem consumes_of_extend_left (hn : Faithful nested) {left : Expr} {suffix : Suffix}
    (h : extend nested bound left suffix ts = .ok (e, rest)) : ∃ used, Consumes ts rest used := by
  cases suffix with
  | binary op =>
    obtain ⟨⟨right, mid⟩, hright, h⟩ := bind_eq_ok_iff.mp h
    cases h
    exact ⟨_, hn _ _ _ _ hright⟩
  | call =>
    obtain ⟨⟨args, mid⟩, hargs, h⟩ := bind_eq_ok_iff.mp h
    cases h
    exact ⟨_, consumes_of_items hn hargs⟩
  | index =>
    obtain ⟨⟨position, mid⟩, hposition, h⟩ := bind_eq_ok_iff.mp h
    obtain ⟨left', hclose, h⟩ := bind_eq_ok_iff.mp h
    cases h
    exact ⟨_, (hn _ _ _ _ hposition).trans (consumes_of_expectNext hclose)⟩

theorem carried_extend (hn : Carries σ fine tail n nested nested') {left : Expr} {suffix : Suffix}
    (hlength : ts.length < n) (hbound : ts.length ≤ bound')
    (hplain : ts.all (Token.isPlain fine) = true) (hleft : left.isPlain fine true = true)
    (h : extend nested bound left suffix ts = .ok (e, rest)) : e.isPlain fine true = true ∧
      extend nested' bound' (left.rename σ) suffix (ts.map (Token.rename σ) ++ tail) =
        .ok (e.rename σ, rest.map (Token.rename σ) ++ tail) := by
  cases suffix with
  | binary op =>
    obtain ⟨⟨right, mid⟩, hright, h⟩ := bind_eq_ok_iff.mp h
    cases h
    obtain ⟨he, hright'⟩ := hn.carried _ _ _ _ hlength hplain hright
    exact ⟨Bool.and_eq_true_iff.mpr ⟨hleft, he⟩, bind_eq_ok_iff.mpr ⟨_, hright', rfl⟩⟩
  | call =>
    obtain ⟨⟨args, mid⟩, hargs, h⟩ := bind_eq_ok_iff.mp h
    cases h
    obtain ⟨hes, hargs'⟩ := carried_items hn (by decide) hlength hbound hplain hargs
    exact ⟨Bool.and_eq_true_iff.mpr ⟨hleft, hes⟩, bind_eq_ok_iff.mpr ⟨_, hargs', rfl⟩⟩
  | index =>
    obtain ⟨⟨position, mid⟩, hposition, h⟩ := bind_eq_ok_iff.mp h
    obtain ⟨left', hclose, h⟩ := bind_eq_ok_iff.mp h
    cases h
    obtain ⟨he, hposition'⟩ := hn.carried _ _ _ _ hlength hplain hposition
    exact ⟨Bool.and_eq_true_iff.mpr ⟨hleft, he⟩, bind_eq_ok_iff.mpr ⟨_, hposition',
      bind_eq_ok_iff.mpr ⟨_, carried_expectNext hclose, rfl⟩⟩⟩

/-- No other name announces a suffix. -/
theorem Token.suffix?_rename (t : Token) : (t.rename σ).suffix? = t.suffix? := by
  cases t <;> rfl

theorem carried_suffixes (hn : Carries σ fine tail n nested nested') (htail : Closes tail)
    {p : Precedence} {turns turns' : Nat} {left : Expr} (hlength : ts.length ≤ n)
    (hbound : ts.length ≤ bound') (hturns : ts.length ≤ turns) (hturns' : ts.length ≤ turns')
    (hplain : ts.all (Token.isPlain fine) = true) (hleft : left.isPlain fine true = true)
    (h : suffixes nested p bound turns left ts = .ok (e, rest)) : e.isPlain fine true = true ∧
      suffixes nested' p bound' turns' (left.rename σ) (ts.map (Token.rename σ) ++ tail) =
        .ok (e.rename σ, rest.map (Token.rename σ) ++ tail) := by
  fun_induction suffixes nested p bound turns left ts generalizing turns' with
  | case1 =>
    cases h
    refine ⟨hleft, ?_⟩
    rcases htail with rfl | ⟨rest, rfl⟩
    · exact suffixes_of_ends (show Ends p.rank [] from trivial) _ _ _
    · exact suffixes_of_ends (ends_symbol rfl _ rest) _ _ _
  | case2 left ts hne => exact absurd (List.eq_nil_of_length_eq_zero (Nat.le_zero.mp hturns)) hne
  | case3 turns left t ts hnone =>
    cases h
    refine ⟨hleft, suffixes_of_le (fun suffix hsuffix => ?_) _ _ _⟩
    rw [Token.suffix?_rename, hnone] at hsuffix
    cases hsuffix
  | case4 turns left t ts suffix hsuffix hrank ih =>
    obtain ⟨⟨longer, mid⟩, hextend, h⟩ := bind_eq_ok_iff.mp h
    rw [List.all_cons, Bool.and_eq_true] at hplain
    rw [List.length_cons] at hlength hbound hturns hturns'
    obtain ⟨used, hconsumes⟩ := consumes_of_extend_left hn.faithful hextend
    have hmid := hconsumes.length_le
    obtain ⟨turns', rfl⟩ : ∃ t, turns' = t + 1 := ⟨turns' - 1, by omega⟩
    obtain ⟨hlonger, hextend'⟩ := carried_extend hn hlength (Nat.le_of_succ_le hbound) hplain.2
      hleft hextend
    obtain ⟨he, h'⟩ := ih longer mid (by omega) (by omega) (by omega)
      (show mid.length ≤ turns' by omega) (hconsumes.all hplain.2) hlonger h
    refine ⟨he, ?_⟩
    rw [List.map_cons, List.cons_append]
    unfold suffixes
    simp only [Token.suffix?_rename, hsuffix, if_pos hrank]
    exact bind_eq_ok_iff.mpr ⟨_, hextend', h'⟩
  | case5 turns left t ts suffix hsuffix hrank =>
    cases h
    refine ⟨hleft, suffixes_of_le (fun other hother => ?_) _ _ _⟩
    rw [Token.suffix?_rename, hsuffix] at hother
    cases hother
    exact Nat.not_lt.mp hrank

/-- Under other names and with what closes them behind them, tokens are read as the same expression. -/
theorem carries_expr (σ : String → String) (fine : String → Bool) (htail : Closes tail) :
    ∀ {depth depth' n : Nat}, n ≤ depth → n ≤ depth' →
      Carries σ fine tail n (expr depth) (expr depth') := by
  intro depth
  induction depth with
  | zero =>
    intro depth' n hn hn'
    exact ⟨faithful_expr 0, fun p ts e rest hlength _ _ => absurd hlength (by omega)⟩
  | succ depth ih =>
    intro depth' n hn hn'
    refine ⟨faithful_expr _, fun p ts e rest hlength hplain h => ?_⟩
    obtain ⟨depth', rfl⟩ : ∃ d, depth' = d + 1 := ⟨depth' - 1, by omega⟩
    have hcarries : Carries σ fine tail ts.length (expr depth) (expr depth') :=
      ih (by omega) (by omega)
    obtain ⟨⟨left, mid⟩, hleft, h⟩ := bind_eq_ok_iff.mp h
    have hconsumes := consumes_of_operand hcarries.faithful hleft
    have hmid := hconsumes.length_le
    obtain ⟨hplain', hleft'⟩ := carried_operand hcarries htail (Nat.le_refl _)
      (show ts.length ≤ depth' by omega) hplain hleft
    obtain ⟨he, h'⟩ := carried_suffixes hcarries htail hmid (show mid.length ≤ depth' by omega)
      (by omega) (show mid.length ≤ depth' by omega) (hconsumes.all hplain) hplain' h
    exact ⟨he, bind_eq_ok_iff.mpr ⟨_, hleft', h'⟩⟩

/-! ### Function literals -/

variable {p : Program} {depth' : Nat}

/-- A program reads as a block where it is closed. Alone it ended with its tokens, and here the brace ends each
of the parts that the end did. -/
theorem Exhausts.block (h : Exhausts nested ts p)
    (hn : Carries σ fine (.symbol .rightBrace :: rest) n nested (expr depth'))
    (hlength : ts.length < n) (hbound : ts.length ≤ bound')
    (hplain : ts.all (Token.isPlain fine) = true) (read : List Stmt) :
    Program.isPlain fine true p = true ∧ Parser.block (expr depth') bound' read
      (ts.map (Token.rename σ) ++ .symbol .rightBrace :: rest) =
        .ok (read.reverse ++ Program.rename σ p, rest) := by
  induction h generalizing bound' read with
  | done =>
    refine ⟨rfl, ?_⟩
    rw [Program.rename, List.append_nil]
    unfold Parser.block
    rfl
  | @next ts mid s p hfirst _ ih =>
    obtain ⟨hs, hfirst'⟩ := carried_statement hn (.inr ⟨rest, rfl⟩) hlength hplain hfirst
    have hmid := length_lt_of_statement hn.faithful hfirst
    obtain ⟨bound', rfl⟩ : ∃ b, bound' = b + 1 := ⟨bound' - 1, by omega⟩
    obtain ⟨hmore, hrest⟩ := ih (by omega) (show mid.length ≤ bound' by omega)
      ((consumes_of_statement hn.faithful hfirst).all hplain) (s.rename σ :: read)
    obtain ⟨hnil, hbrace⟩ := begins_of_statement hfirst'
    refine ⟨Bool.and_eq_true_iff.mpr ⟨hs, hmore⟩, ?_⟩
    rw [Parser.block, hfirst']
    · refine hrest.trans ?_
      rw [List.reverse_cons, List.append_assoc, List.singleton_append, Program.rename]
    · exact hnil
    · exact hbrace

/-- A program is no block where it is not closed. -/
theorem Exhausts.unclosed (h : Exhausts nested ts p)
    (hn : Carries σ fine [] n nested (expr depth')) (hlength : ts.length < n)
    (hplain : ts.all (Token.isPlain fine) = true) (read : List Stmt) :
    Parser.block (expr depth') bound' read (ts.map (Token.rename σ)) = .error .unclosedBlock := by
  induction h generalizing bound' read with
  | done =>
    unfold Parser.block
    rfl
  | @next ts mid s p hfirst _ ih =>
    obtain ⟨-, hfirst'⟩ := carried_statement hn (.inl rfl) hlength hplain hfirst
    rw [List.append_nil, List.append_nil] at hfirst'
    have hmid := length_lt_of_statement hn.faithful hfirst
    obtain ⟨hnil, hbrace⟩ := begins_of_statement hfirst'
    cases bound' with
    | zero =>
      rw [Parser.block]
      · exact hnil
      · exact hbrace
    | succ bound' =>
      rw [Parser.block, hfirst']
      · exact ih (by omega) ((consumes_of_statement hn.faithful hfirst).all hplain) _
      · exact hnil
      · exact hbrace

/-- The tokens of a function literal of one parameter, up to its body. -/
def opening (parameter : String) : List Token :=
  [.keyword .function, .symbol .leftParen, .ident parameter, .symbol .rightParen, .symbol .leftBrace]

theorem operand_opening (nested : Nested) (bound : Nat) (parameter : String) (ts : List Token) :
    operand nested bound (opening parameter ++ ts) = (do
      let (body, rest) ← Parser.block nested bound [] ts
      .ok (.function [parameter] body, rest)) := rfl

/-- A function literal is read of which a program is the body, in front of what does not extend it. -/
theorem expr_opening {depth : Nat} {body : List Stmt} (parameter : String)
    (hbody : Parser.block (expr depth) depth [] ts = .ok (body, rest)) (hrest : Ends 0 rest) :
    expr (depth + 1) .lowest (opening parameter ++ ts) =
      .ok (.function [parameter] body, rest) := by
  have hends : Ends Precedence.lowest.rank rest := hrest
  refine bind_eq_ok_iff.mpr ⟨(.function [parameter] body, rest), ?_, suffixes_of_ends hends _ _ _⟩
  rw [operand_opening, hbody]
  rfl

theorem expr_opening_error {depth : Nat} {cause : ParseError} (parameter : String)
    (hbody : Parser.block (expr depth) depth [] ts = .error cause) :
    expr (depth + 1) .lowest (opening parameter ++ ts) = .error cause := by
  rw [expr_succ]
  unfold level
  rw [operand_opening, hbody]
  rfl

end

end Parser

section

open Notebook.Parser

variable {ts : List Token} {p : Program} {fine : String → Bool}

/-- Renamed tokens read as the renamed body of a function literal. -/
theorem Program.block_of_ofTokens (h : Program.ofTokens ts = .ok p)
    (hplain : ts.all (Token.isPlain fine) = true) (σ : String → String) (rest : List Token)
    {depth : Nat} (hdepth : ts.length < depth) :
    Program.isPlain fine true p = true ∧ block (expr depth) depth []
      (ts.map (Token.rename σ) ++ .symbol .rightBrace :: rest) = .ok (Program.rename σ p, rest) := by
  have hn := faithful_expr (ts.length + 1)
  obtain ⟨_, rfl, hexhausts⟩ := exhausts_of_statements hn (Nat.le_refl _) h
  exact hexhausts.block (carries_expr σ fine (.inr ⟨rest, rfl⟩) (Nat.le_refl _) hdepth)
    (Nat.lt_succ_self _) (Nat.le_of_lt hdepth) hplain []

theorem Program.unclosed_of_ofTokens (h : Program.ofTokens ts = .ok p)
    (hplain : ts.all (Token.isPlain fine) = true) (σ : String → String) {depth : Nat}
    (hdepth : ts.length < depth) :
    block (expr depth) depth [] (ts.map (Token.rename σ)) = .error .unclosedBlock := by
  have hn := faithful_expr (ts.length + 1)
  obtain ⟨_, rfl, hexhausts⟩ := exhausts_of_statements hn (Nat.le_refl _) h
  exact hexhausts.unclosed (carries_expr σ fine (.inl rfl) (Nat.le_refl _) hdepth)
    (Nat.lt_succ_self _) hplain []

/-- A function literal whose body is a renamed program is a program, and so is its `let`. -/
theorem Program.ofTokens_function (h : Program.ofTokens ts = .ok p)
    (hplain : ts.all (Token.isPlain fine) = true) (σ : String → String) (parameter : String) :
    Program.ofTokens
      (opening parameter ++ (ts.map (Token.rename σ) ++ [Token.symbol .rightBrace])) =
        .ok [.expr (.function [parameter] (Program.rename σ p))] := by
  have hlength : (opening parameter ++ (ts.map (Token.rename σ) ++
      [Token.symbol .rightBrace])).length = ts.length + 6 := by simp [opening]
  obtain ⟨-, hbody⟩ := Program.block_of_ofTokens h hplain σ [] (show ts.length < ts.length + 6 by omega)
  have hvalue := expr_opening parameter hbody trivial
  unfold Program.ofTokens
  rw [hlength]
  exact bind_eq_ok_iff.mpr ⟨_, bind_eq_ok_iff.mpr ⟨_, hvalue, rfl⟩, rfl⟩

theorem Program.ofTokens_let (h : Program.ofTokens ts = .ok p)
    (hplain : ts.all (Token.isPlain fine) = true) (σ : String → String) (name parameter : String) :
    Program.ofTokens (.keyword .letBinding :: .ident name :: .symbol .assign ::
      (opening parameter ++ (ts.map (Token.rename σ) ++
        [Token.symbol .rightBrace, Token.symbol .semicolon]))) =
        .ok [.letIn name (.function [parameter] (Program.rename σ p))] := by
  have hlength : (Token.keyword .letBinding :: .ident name :: .symbol .assign ::
      (opening parameter ++ (ts.map (Token.rename σ) ++
        [Token.symbol .rightBrace, Token.symbol .semicolon]))).length = ts.length + 10 := by
    simp [opening]
  obtain ⟨-, hbody⟩ := Program.block_of_ofTokens h hplain σ [.symbol .semicolon]
    (show ts.length < ts.length + 10 by omega)
  have hvalue := expr_opening parameter hbody (ends_symbol rfl 0 [])
  unfold Program.ofTokens
  rw [hlength]
  exact bind_eq_ok_iff.mpr ⟨_, bind_eq_ok_iff.mpr ⟨_, expectNext_symbol _ _,
    bind_eq_ok_iff.mpr ⟨_, hvalue, rfl⟩⟩, rfl⟩

/-- A `let` whose function literal is not closed is no program. -/
theorem Program.ofTokens_let_unclosed (h : Program.ofTokens ts = .ok p)
    (hplain : ts.all (Token.isPlain fine) = true) (σ : String → String) (name parameter : String) :
    Program.ofTokens (.keyword .letBinding :: .ident name :: .symbol .assign ::
      (opening parameter ++ ts.map (Token.rename σ))) = .error .unclosedBlock := by
  have hlength : (Token.keyword .letBinding :: .ident name :: .symbol .assign ::
      (opening parameter ++ ts.map (Token.rename σ))).length = ts.length + 8 := by
    simp [opening]
  have hbody := Program.unclosed_of_ofTokens h hplain σ (show ts.length < ts.length + 8 by omega)
  have hvalue := expr_opening_error parameter hbody
  have hbinding : binding (expr (ts.length + 8 + 1)) (.ident name :: .symbol .assign ::
      (opening parameter ++ ts.map (Token.rename σ))) = .error .unclosedBlock := by
    show (expr (ts.length + 8 + 1) .lowest (opening parameter ++ ts.map (Token.rename σ)) >>=
      fun read => Except.ok (Stmt.letIn name read.1, skipSemicolon read.2)) = _
    rw [hvalue]
    rfl
  unfold Program.ofTokens
  rw [hlength]
  show (binding (expr (ts.length + 8 + 1)) (.ident name :: .symbol .assign ::
      (opening parameter ++ ts.map (Token.rename σ))) >>=
    fun read => statements (expr (ts.length + 8 + 1)) (ts.length + 7) [read.1] read.2) = _
  rw [hbinding]
  rfl

end

end Notebook
