import Notebook.Proofs.Fallible
import Notebook.Proofs.Syntax.ProgramText

/-!
What the parser makes of tokens.

Every part of the parser consumes some tokens and leaves the others. Those that it consumes say what it
makes of them: apart from how they group each other, they are the tokens that the result is written with
(`Parser.Consumes`, `Parser.faithful_expr`). So a program says what the text says that it was read from
(`Program.ofSource_consumes`).

* `Parser.Rewords`: parentheses, commas and semicolons may differ, and leading zeros of numbers. What was
  made of tokens that can be spelled can be spelled, too.
* `Parser.Consumes.trans`: parts that come one after the other consume what they consume together. Each
  part of the parser has one lemma, which puts together those of the parts that it calls.
* `Parser.Faithful`: what is assumed of nested expressions, until `Parser.faithful_expr` shows it by
  induction on how deep they are.
* `Parser.Exhausts`: a program that was read, as one statement after the other. Other modules cite this
  instead of the loop.
-/

namespace Notebook

def Token.isLegal : Token → Bool
  | .illegal _ => false
  | _ => true

/-- The punctuation that announces a suffix. -/
def Suffix.symbol : Suffix → Symbol
  | .binary op => op.symbol
  | .call => .leftParen
  | .index => .leftBracket

theorem Token.eq_of_suffix? {t : Token} {suffix : Suffix} (h : t.suffix? = some suffix) :
    t = .symbol suffix.symbol := by
  unfold Token.suffix? at h
  split at h <;> cases h <;> rfl

namespace Parser

/-- Do some tokens say what others say? If they can be spelled, the others can be, too. Only the others need be
grouped as a program is that is written anew. -/
structure Rewords (used printed : List Token) : Prop where
  words : Token.words used = Token.words printed
  spellable : used.all Token.isSpellable = true → printed.all Token.isSpellable = true

/-- From `ts` on up to `rest`, are there legal tokens only, which say what `printed` says? This composes as the
parser does: what one part leaves, the next one starts from. -/
def Consumes (ts rest printed : List Token) : Prop :=
  ∃ used, ts = used ++ rest ∧ used.all Token.isLegal = true ∧ Rewords used printed

section

variable {ts mid rest a b : List Token} {t : Token}

theorem Rewords.of_eq (hwords : Token.words a = Token.words b)
    (hspellable : a.all Token.isSpellable = b.all Token.isSpellable) : Rewords a b :=
  ⟨hwords, fun h => hspellable ▸ h⟩

theorem Consumes.nothing (ts : List Token) : Consumes ts ts [] :=
  ⟨[], rfl, rfl, rfl, fun _ => rfl⟩

theorem Consumes.token (h : t.isLegal = true) (rest : List Token) : Consumes (t :: rest) rest [t] :=
  ⟨[t], rfl, by simp [h], rfl, id⟩

theorem Consumes.trans (h₁ : Consumes ts mid a) (h₂ : Consumes mid rest b) :
    Consumes ts rest (a ++ b) := by
  obtain ⟨used₁, rfl, hlegal₁, hwords₁, hspellable₁⟩ := h₁
  obtain ⟨used₂, rfl, hlegal₂, hwords₂, hspellable₂⟩ := h₂
  refine ⟨used₁ ++ used₂, (List.append_assoc _ _ _).symm, ?_, ?_, ?_⟩
  · rw [List.all_append, hlegal₁, hlegal₂, Bool.and_self]
  · rw [Token.words_append, Token.words_append, hwords₁, hwords₂]
  · rw [List.all_append, List.all_append, Bool.and_eq_true, Bool.and_eq_true]
    rintro ⟨hall₁, hall₂⟩
    exact ⟨hspellable₁ hall₁, hspellable₂ hall₂⟩

theorem Consumes.reworded (h : Consumes ts rest a) (hsame : Rewords a b) : Consumes ts rest b := by
  obtain ⟨used, rfl, hlegal, hwords, hspellable⟩ := h
  exact ⟨used, rfl, hlegal, hwords.trans hsame.words, fun hall => hsame.spellable (hspellable hall)⟩

/-- The same with a token in front. -/
theorem Consumes.cons (h : Consumes ts rest a) (ht : t.isLegal = true) :
    Consumes (t :: ts) rest (t :: a) :=
  (Consumes.token ht ts).trans h

/-- What says something is there. -/
theorem Consumes.length_lt (h : Consumes ts rest a) (ha : Token.words a ≠ []) :
    rest.length < ts.length := by
  obtain ⟨used, rfl, -, hwords, -⟩ := h
  cases used with
  | nil => exact absurd hwords.symm ha
  | cons t used =>
    rw [List.length_append]
    exact Nat.lt_add_of_pos_left (Nat.succ_pos _)

end

/-- Does a parser of expressions consume tokens that say what it makes of them? -/
def Faithful (nested : Nested) : Prop :=
  ∀ p ts e rest, nested p ts = .ok (e, rest) → Consumes ts rest e.tokens

/-! ### Punctuation -/

theorem eq_of_expectNext {s : Symbol} {ts rest : List Token} (h : expectNext s ts = .ok rest) :
    ts = .symbol s :: rest := by
  unfold expectNext at h
  split at h
  · cases h
  · split at h
    · rename_i ht
      cases h
      rw [ht]
    · cases h

theorem consumes_of_expectNext {s : Symbol} {ts rest : List Token}
    (h : expectNext s ts = .ok rest) : Consumes ts rest [.symbol s] := by
  obtain rfl := eq_of_expectNext h
  exact .token rfl _

/-- It says the same whether the semicolon is there or not. -/
theorem consumes_skipSemicolon (ts : List Token) :
    Consumes ts (skipSemicolon ts) [.symbol .semicolon] := by
  unfold skipSemicolon
  split
  · exact .token rfl _
  · exact (Consumes.nothing _).reworded (.of_eq rfl rfl)

/-! ### Lists -/

section

variable {nested : Nested} {bound : Nat} {ts rest : List Token}

theorem consumes_of_moreItems (hn : Faithful nested) {close : Symbol} {read es : List Expr}
    (h : moreItems nested close bound read ts = .ok (es, rest)) :
    ∃ more, es = read.reverse ++ more ∧
      Consumes ts rest ((tokensOfExprs more).flatten ++ [.symbol close]) := by
  fun_induction moreItems nested close bound read ts with
  | case1 bound read ts ih =>
    obtain ⟨⟨e, mid⟩, hfirst, h⟩ := bind_eq_ok_iff.mp h
    obtain ⟨more, rfl, hmore⟩ := ih e mid h
    have hfirst := hn _ _ _ _ hfirst
    refine ⟨e :: more, by simp, ((hfirst.trans hmore).cons rfl).reworded (.of_eq ?_ ?_)⟩
    · simp [tokensOfExprs, Token.word?, Symbol.groups]
    · simp [tokensOfExprs]
  | case2 =>
    obtain ⟨left, hclose, h⟩ := bind_eq_ok_iff.mp h
    cases h
    exact ⟨[], (List.append_nil _).symm, consumes_of_expectNext hclose⟩

theorem consumes_of_items (hn : Faithful nested) {close : Symbol} {es : List Expr}
    (h : items nested close bound ts = .ok (es, rest)) :
    Consumes ts rest (commaSeparated (tokensOfExprs es) ++ [.symbol close]) := by
  unfold items at h
  split at h
  · rename_i hhead
    cases h
    obtain ⟨rest, rfl⟩ := List.head?_eq_some_iff.mp hhead
    exact .token rfl _
  · obtain ⟨⟨e, rest'⟩, he, h⟩ := bind_eq_ok_iff.mp h
    obtain ⟨more, rfl, hmore⟩ := consumes_of_moreItems hn h
    refine ((hn _ _ _ _ he).trans hmore).reworded (.of_eq ?_ ?_)
    · simp [tokensOfExprs]
    · simp [tokensOfExprs]

theorem consumes_of_params {read names : List String} (h : params read ts = .ok (names, rest)) :
    ∃ more, names = read.reverse ++ more ∧
      Consumes ts rest (more.map .ident ++ [.symbol .rightParen]) := by
  fun_induction params read ts with
  | case1 => cases h
  | case2 read rest' =>
    cases h
    exact ⟨[], (List.append_nil _).symm, .token rfl _⟩
  | case3 read name rest' ih =>
    obtain ⟨more, rfl, hmore⟩ := ih h
    refine ⟨name :: more, by simp, ((hmore.cons (t := .symbol .comma) rfl).cons rfl).reworded
      (.of_eq ?_ ?_)⟩
    · simp [Token.word?, Symbol.groups]
    · simp
  | case4 read name rest' =>
    cases h
    exact ⟨[name], List.reverse_cons, (Consumes.token rfl _).cons rfl⟩
  | case5 => cases h
  | case6 => cases h

end

/-! ### Statements -/

section

variable {nested : Nested} {bound : Nat} {ts rest : List Token}

/-- An expression, and a semicolon that may be left out. -/
theorem consumes_value (hn : Faithful nested) {e : Expr} {mid : List Token}
    (h : nested .lowest ts = .ok (e, mid)) :
    Consumes ts (skipSemicolon mid) (e.tokens ++ [.symbol .semicolon]) :=
  (hn _ _ _ _ h).trans (consumes_skipSemicolon mid)

theorem consumes_of_binding (hn : Faithful nested) {s : Stmt}
    (h : binding nested ts = .ok (s, rest)) :
    Consumes (.keyword .letBinding :: ts) rest s.tokens := by
  unfold binding at h
  split at h
  · cases h
  · obtain ⟨mid, hassign, h⟩ := bind_eq_ok_iff.mp h
    obtain ⟨⟨e, left⟩, hvalue, h⟩ := bind_eq_ok_iff.mp h
    cases h
    exact (((consumes_of_expectNext hassign).trans (consumes_value hn hvalue)).cons rfl).cons rfl
  · cases h

theorem consumes_of_statement (hn : Faithful nested) {s : Stmt}
    (h : statement nested ts = .ok (s, rest)) : Consumes ts rest s.tokens := by
  unfold statement at h
  split at h
  · exact consumes_of_binding hn h
  · obtain ⟨⟨e, mid⟩, hvalue, h⟩ := bind_eq_ok_iff.mp h
    cases h
    exact (consumes_value hn hvalue).cons rfl
  · obtain ⟨⟨e, mid⟩, hvalue, h⟩ := bind_eq_ok_iff.mp h
    cases h
    exact (consumes_value hn hvalue).cons rfl
  · cases h
    exact .token rfl _
  · obtain ⟨⟨e, mid⟩, hvalue, h⟩ := bind_eq_ok_iff.mp h
    cases h
    exact consumes_value hn hvalue

/-- Only a semicolon is an empty statement. -/
theorem eq_of_statement_empty (h : statement nested ts = .ok (.empty, rest)) :
    ts = .symbol .semicolon :: rest := by
  unfold statement at h
  split at h
  · unfold binding at h
    split at h
    · cases h
    · obtain ⟨mid, -, h⟩ := bind_eq_ok_iff.mp h
      obtain ⟨⟨e, left⟩, -, h⟩ := bind_eq_ok_iff.mp h
      cases h
    · cases h
  · obtain ⟨⟨e, mid⟩, -, h⟩ := bind_eq_ok_iff.mp h
    cases h
  · obtain ⟨⟨e, mid⟩, -, h⟩ := bind_eq_ok_iff.mp h
    cases h
  · cases h
    rfl
  · obtain ⟨⟨e, mid⟩, -, h⟩ := bind_eq_ok_iff.mp h
    cases h

/-- A statement is at least one token long. -/
theorem length_lt_of_statement (hn : Faithful nested) {s : Stmt}
    (h : statement nested ts = .ok (s, rest)) : rest.length < ts.length := by
  have hconsumes := consumes_of_statement hn h
  cases s with
  | letIn name value | ret value | throw value =>
    exact hconsumes.length_lt (by simp [Stmt.tokens, Token.word?])
  | expr value => exact hconsumes.length_lt (by simp [Stmt.tokens, value.words_ne_nil])
  | empty =>
    rw [eq_of_statement_empty h]
    exact Nat.lt_succ_self _

theorem consumes_of_block (hn : Faithful nested) {read ss : List Stmt}
    (h : block nested bound read ts = .ok (ss, rest)) :
    ∃ more, ss = read.reverse ++ more ∧
      Consumes ts rest (Program.tokens more ++ [.symbol .rightBrace]) := by
  fun_induction block nested bound read ts with
  | case1 => cases h
  | case2 bound read rest' =>
    cases h
    exact ⟨[], (List.append_nil _).symm, .token rfl _⟩
  | case3 => cases h
  | case4 bound read ts _ _ ih =>
    obtain ⟨⟨s, mid⟩, hfirst, h⟩ := bind_eq_ok_iff.mp h
    obtain ⟨more, rfl, hmore⟩ := ih s mid h
    refine ⟨s :: more, by simp, ?_⟩
    rw [Program.tokens, List.append_assoc]
    exact (consumes_of_statement hn hfirst).trans hmore

/-- Is a list of tokens one statement after the other, with no token left in the end? The statements are those
of the program, in order. -/
inductive Exhausts (nested : Nested) : List Token → Program → Prop where
  | done : Exhausts nested [] []
  | next {ts rest : List Token} {s : Stmt} {p : Program} :
      statement nested ts = .ok (s, rest) → Exhausts nested rest p → Exhausts nested ts (s :: p)

theorem exhausts_of_statements (hn : Faithful nested) {read p : List Stmt}
    (hbound : ts.length ≤ bound) (h : statements nested bound read ts = .ok p) :
    ∃ more, p = read.reverse ++ more ∧ Exhausts nested ts more := by
  fun_induction statements nested bound read ts with
  | case1 bound read =>
    cases h
    exact ⟨[], (List.append_nil _).symm, .done⟩
  | case2 read ts hts => exact absurd (List.eq_nil_of_length_eq_zero (Nat.le_zero.mp hbound)) hts
  | case3 bound read ts hts ih =>
    obtain ⟨⟨s, mid⟩, hfirst, h⟩ := bind_eq_ok_iff.mp h
    have hlt := length_lt_of_statement hn hfirst
    obtain ⟨more, rfl, hmore⟩ := ih s mid (by omega) h
    exact ⟨s :: more, by simp, .next hfirst hmore⟩

theorem Exhausts.consumes (hn : Faithful nested) {p : Program} (h : Exhausts nested ts p) :
    Consumes ts [] (Program.tokens p) := by
  induction h with
  | done => exact .nothing []
  | next hfirst _ ih =>
    rw [Program.tokens]
    exact (consumes_of_statement hn hfirst).trans ih

end

/-! ### Expressions -/

section

variable {nested : Nested} {bound : Nat} {ts rest : List Token} {e : Expr}

/-- Statements between braces. -/
theorem consumes_braces (hn : Faithful nested) {mid : List Token} {ss : List Stmt}
    (hopen : expectNext .leftBrace ts = .ok mid) (h : block nested bound [] mid = .ok (ss, rest)) :
    Consumes ts rest (bracketed .leftBrace .rightBrace (Program.tokens ss)) := by
  obtain ⟨more, rfl, hblock⟩ := consumes_of_block hn h
  exact (consumes_of_expectNext hopen).trans hblock

theorem consumes_of_conditional (hn : Faithful nested)
    (h : conditional nested bound ts = .ok (e, rest)) :
    Consumes (.keyword .ifBranch :: ts) rest e.tokens := by
  obtain ⟨ts₁, hopen, h⟩ := bind_eq_ok_iff.mp h
  obtain ⟨⟨condition, ts₂⟩, hcondition, h⟩ := bind_eq_ok_iff.mp h
  obtain ⟨ts₃, hclose, h⟩ := bind_eq_ok_iff.mp h
  obtain ⟨ts₄, hbrace, h⟩ := bind_eq_ok_iff.mp h
  obtain ⟨⟨consequence, ts₅⟩, hconsequence, h⟩ := bind_eq_ok_iff.mp h
  have htest : Consumes ts ts₃ (bracketed .leftParen .rightParen condition.tokens) :=
    (consumes_of_expectNext hopen).trans
      ((hn _ _ _ _ hcondition).trans (consumes_of_expectNext hclose))
  have hyes := consumes_braces hn hbrace hconsequence
  simp only at h
  split at h
  · obtain ⟨ts₆, hbrace', h⟩ := bind_eq_ok_iff.mp h
    obtain ⟨⟨alternative, ts₇⟩, halternative, h⟩ := bind_eq_ok_iff.mp h
    cases h
    have hno := consumes_braces hn hbrace' halternative
    exact (htest.trans (hyes.trans (hno.cons rfl))).cons rfl
  · cases h
    exact (htest.trans hyes).cons rfl

theorem consumes_of_function (hn : Faithful nested)
    (h : function nested bound ts = .ok (e, rest)) :
    Consumes (.keyword .function :: ts) rest e.tokens := by
  obtain ⟨ts₁, hopen, h⟩ := bind_eq_ok_iff.mp h
  obtain ⟨⟨names, ts₂⟩, hnames, h⟩ := bind_eq_ok_iff.mp h
  obtain ⟨ts₃, hbrace, h⟩ := bind_eq_ok_iff.mp h
  obtain ⟨⟨body, ts₄⟩, hbody, h⟩ := bind_eq_ok_iff.mp h
  cases h
  obtain ⟨more, rfl, hnames⟩ := consumes_of_params hnames
  have hparams := (consumes_of_expectNext hopen).trans hnames
  have hbraces := consumes_braces hn hbrace hbody
  refine ((hparams.trans hbraces).cons rfl).reworded (.of_eq ?_ ?_)
  · simp [Expr.tokens]
  · simp [Expr.tokens]

/-- A number says its value. -/
theorem consumes_of_integer {digits : String} {value : Int64} (h : integer digits = .ok value)
    (rest : List Token) : Consumes (.int digits :: rest) rest (Expr.int value).tokens := by
  have hvalue := toInt_of_integer h
  have hnumber : Token.isNumber value.toInt.repr = true := by
    rw [Token.isNumber_repr, hvalue]
    exact decide_eq_true (Int.natCast_nonneg _)
  have hdecimal : decimal value.toInt.repr.toList = decimal digits.toList := by
    rw [hvalue]
    exact decimal_repr _
  refine (Consumes.token rfl rest).reworded ⟨?_, fun _ => ?_⟩
  · simp [Expr.tokens, Token.word?, hdecimal]
  · simp [Expr.tokens, Token.isSpellable, hnumber]

/-- An operand consumes tokens that say what it is. Parentheses around an expression are consumed and say
nothing. -/
theorem consumes_of_operand (hn : Faithful nested) (h : operand nested bound ts = .ok (e, rest)) :
    Consumes ts rest e.tokens := by
  have hunary : ∀ (op : UnaryOp) {ts' : List Token} {e' : Expr},
      nested .unary ts' = .ok (e', rest) →
        Consumes (.symbol op.symbol :: ts') rest (Expr.unary op e').tokens := by
    intro op ts' e' h
    refine ((hn _ _ _ _ h).cons rfl).reworded (.of_eq ?_ ?_)
    · simp [Expr.tokens]
    · simp [Expr.tokens]
  unfold operand at h
  -- One case for each token that an operand may begin with; in the others reading fails.
  split at h
  · cases h
  · cases h
    exact .token rfl _
  · obtain ⟨value, hvalue, h⟩ := bind_eq_ok_iff.mp h
    cases h
    exact consumes_of_integer hvalue _
  · cases h
    exact .token rfl _
  · cases h
    exact .token rfl _
  · cases h
    exact .token rfl _
  · cases h
    exact .token rfl _
  · obtain ⟨⟨e', mid⟩, hoperand, h⟩ := bind_eq_ok_iff.mp h
    cases h
    exact hunary .not hoperand
  · obtain ⟨⟨e', mid⟩, hoperand, h⟩ := bind_eq_ok_iff.mp h
    cases h
    exact hunary .negate hoperand
  · obtain ⟨⟨e', mid⟩, hinner, h⟩ := bind_eq_ok_iff.mp h
    obtain ⟨left, hclose, h⟩ := bind_eq_ok_iff.mp h
    cases h
    refine (((hn _ _ _ _ hinner).trans (consumes_of_expectNext hclose)).cons rfl).reworded
      (.of_eq ?_ ?_)
    · simp [Token.word?, Symbol.groups]
    · simp
  · obtain ⟨⟨es, mid⟩, hitems, h⟩ := bind_eq_ok_iff.mp h
    cases h
    exact (consumes_of_items hn hitems).cons rfl
  · exact consumes_of_conditional hn h
  · exact consumes_of_function hn h
  · cases h
  · cases h

/-- A suffix makes of what came before it and of what it consumes what they say together. -/
theorem consumes_of_extend (hn : Faithful nested) {t : Token} {suffix : Suffix} {left : Expr}
    {start : List Token} (hsuffix : t.suffix? = some suffix)
    (hleft : Consumes start (t :: ts) left.tokens)
    (h : extend nested bound left suffix ts = .ok (e, rest)) : Consumes start rest e.tokens := by
  obtain rfl := Token.eq_of_suffix? hsuffix
  cases suffix with
  | binary op =>
    obtain ⟨⟨right, mid⟩, hright, h⟩ := bind_eq_ok_iff.mp h
    cases h
    refine (hleft.trans ((hn _ _ _ _ hright).cons rfl)).reworded (.of_eq ?_ ?_)
    · simp [Expr.tokens, Suffix.symbol]
    · simp [Expr.tokens]
  | call =>
    obtain ⟨⟨args, mid⟩, hargs, h⟩ := bind_eq_ok_iff.mp h
    cases h
    refine (hleft.trans ((consumes_of_items hn hargs).cons rfl)).reworded (.of_eq ?_ ?_)
    · simp [Expr.tokens, bracketed, Suffix.symbol]
    · simp [Expr.tokens]
  | index =>
    obtain ⟨⟨position, mid⟩, hposition, h⟩ := bind_eq_ok_iff.mp h
    obtain ⟨left', hclose, h⟩ := bind_eq_ok_iff.mp h
    cases h
    have hposition := (hn _ _ _ _ hposition).trans (consumes_of_expectNext hclose)
    refine (hleft.trans (hposition.cons rfl)).reworded (.of_eq ?_ ?_)
    · simp [Expr.tokens, bracketed, Suffix.symbol]
    · simp [Expr.tokens]

theorem consumes_of_suffixes (hn : Faithful nested) {p : Precedence} {turns : Nat} {left : Expr}
    {start : List Token} (hleft : Consumes start ts left.tokens)
    (h : suffixes nested p bound turns left ts = .ok (e, rest)) : Consumes start rest e.tokens := by
  fun_induction suffixes nested p bound turns left ts with
  | case1 | case2 | case3 | case5 =>
    cases h
    exact hleft
  | case4 turns left t ts suffix hsuffix hrank ih =>
    obtain ⟨⟨longer, mid⟩, hextend, h⟩ := bind_eq_ok_iff.mp h
    exact ih longer mid (consumes_of_extend hn hsuffix hleft hextend) h

end

/-- However deep they nest, expressions are made of what their tokens say. -/
theorem faithful_expr (depth : Nat) : Faithful (expr depth) := by
  induction depth with
  | zero =>
    intro p ts e rest h
    cases h
  | succ depth ih =>
    intro p ts e rest h
    obtain ⟨⟨left, mid⟩, hleft, h⟩ := bind_eq_ok_iff.mp h
    exact consumes_of_suffixes ih (consumes_of_operand ih hleft) h

end Parser

/-! ### Whole programs -/

section

variable {source : String} {p : Program}

/-- A program has consumed all the tokens that it was read from. -/
theorem Program.consumes_of_ofSource (h : Program.ofSource source = .ok p) :
    Parser.Exhausts (Parser.expr ((Token.ofSource source).length + 1)) (Token.ofSource source) p ∧
      Parser.Consumes (Token.ofSource source) [] (Program.tokens p) := by
  have hn := Parser.faithful_expr ((Token.ofSource source).length + 1)
  obtain ⟨more, rfl, hexhausts⟩ := Parser.exhausts_of_statements hn (Nat.le_refl _) h
  exact ⟨hexhausts, hexhausts.consumes hn⟩

/-- Whatever is read as a program can be written again. -/
theorem Program.isPrintable_of_ofSource (h : Program.ofSource source = .ok p) :
    Program.isPrintable p = true := by
  obtain ⟨-, used, hused, hlegal, -, hspellable⟩ := Program.consumes_of_ofSource h
  rw [List.append_nil] at hused
  subst hused
  rw [Program.isPrintable_eq]
  refine hspellable (List.all_eq_true.mpr fun t ht => ?_)
  rcases Token.spellable_of_mem_ofSource ht with hspelled | ⟨text, rfl⟩
  · exact hspelled
  · exact absurd (List.all_eq_true.mp hlegal _ ht) Bool.false_ne_true

/-- A text that is read as a program holds no illegal token, all of its tokens are used up, statement by
statement, and the program as it is written says the same as the text. -/
theorem Program.ofSource_consumes (h : Program.ofSource source = .ok p) :
    (∀ t ∈ Token.ofSource source, ∀ text, t ≠ .illegal text) ∧
      Parser.Exhausts (Parser.expr ((Token.ofSource source).length + 1)) (Token.ofSource source) p ∧
      Token.words (Token.ofSource source) = Token.words (Token.ofSource (Program.text p)) := by
  obtain ⟨hexhausts, used, hused, hlegal, hwords, -⟩ := Program.consumes_of_ofSource h
  rw [List.append_nil] at hused
  refine ⟨?_, hexhausts, ?_⟩
  · rintro t ht text rfl
    rw [hused] at ht
    exact absurd (List.all_eq_true.mp hlegal _ ht) Bool.false_ne_true
  · rw [Program.ofSource_text_tokens (Program.isPrintable_of_ofSource h), hused, hwords]

/-- Parentheses, semicolons and a leading zero that change nothing. -/
theorem grouped_ofSource_consumes :
    let source := "let a = ((007)); fn(b,) \x7b a - (b) \x7d (2)"
    ∃ p, Program.ofSource source = .ok p ∧
      Program.text p = "let a = 7 ; fn ( b ) \x7b a - b ; \x7d ( 2 ) ; " ∧
      (∀ t ∈ Token.ofSource source, ∀ text, t ≠ .illegal text) ∧
      Parser.Exhausts (Parser.expr ((Token.ofSource source).length + 1)) (Token.ofSource source) p ∧
      Token.words (Token.ofSource source) = Token.words (Token.ofSource (Program.text p)) := by
  intro source
  have htext : (Program.ofSource source).toOption.map Program.text =
      some "let a = 7 ; fn ( b ) \x7b a - b ; \x7d ( 2 ) ; " := by decide +kernel
  cases hparse : Program.ofSource source with
  | error cause =>
    rw [hparse] at htext
    cases htext
  | ok p =>
    rw [hparse] at htext
    exact ⟨p, rfl, Option.some.inj htext, Program.ofSource_consumes hparse⟩

end

end Notebook
