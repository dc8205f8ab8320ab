import Notebook.Program.Parser
import Notebook.Proofs.Syntax.TokenSpelling

/-!
Writing programs.

`Program.text` is a program as a text. Parentheses stand only around expressions that bind looser than
what is around them asks for, and every statement ends with a semicolon. `Program.isPrintable` are the
programs for which this makes sense: their names can be read as names, and their numbers have no sign.

`Token.words` is what is left of some tokens if it does not matter how they are grouped.
-/

namespace Notebook

/-! ### The tokens of a program -/

/-- How tightly an expression holds together. Conditionals, literals and all else that ends by itself hold
together as tightly as anything can. -/
def Expr.rank : Expr → Nat
  | .unary _ _ => Precedence.unary.rank
  | .binary op _ _ => op.precedence.rank
  | _ => Precedence.index.rank

/-- Some tokens between two others. -/
def bracketed (opening closing : Symbol) (ts : List Token) : List Token :=
  .symbol opening :: (ts ++ [.symbol closing])

/-- The tokens of an expression of this rank, where one of at least the rank `need` can stand without
parentheses. Others get a pair around them. -/
def enclosed (need rank : Nat) (ts : List Token) : List Token :=
  if need ≤ rank then ts else bracketed .leftParen .rightParen ts

def commaSeparated : List (List Token) → List Token
  | [] => []
  | ts :: more => ts ++ more.flatMap (.symbol .comma :: ·)

mutual

/-- The tokens that an expression is written with. -/
def Expr.tokens : Expr → List Token
  | .ident name => [.ident name]
  | .int value => [.int value.toInt.repr]
  | .str text => [.str text]
  | .bool true => [.keyword .trueLiteral]
  | .bool false => [.keyword .falseLiteral]
  | .null => [.keyword .nullLiteral]
  | .array elements =>
    bracketed .leftBracket .rightBracket (commaSeparated (tokensOfExprs elements))
  | .unary op operand =>
    .symbol op.symbol :: enclosed Precedence.unary.rank operand.rank operand.tokens
  | .binary op left right =>
    enclosed op.precedence.rank left.rank left.tokens ++
      .symbol op.symbol :: enclosed (op.precedence.rank + 1) right.rank right.tokens
  | .cond condition consequence none =>
    .keyword .ifBranch :: (bracketed .leftParen .rightParen condition.tokens ++
      bracketed .leftBrace .rightBrace (Program.tokens consequence))
  | .cond condition consequence (some alternative) =>
    .keyword .ifBranch :: (bracketed .leftParen .rightParen condition.tokens ++
      (bracketed .leftBrace .rightBrace (Program.tokens consequence) ++
        .keyword .elseBranch :: bracketed .leftBrace .rightBrace (Program.tokens alternative)))
  | .function params body =>
    .keyword .function ::
      (bracketed .leftParen .rightParen (commaSeparated (params.map fun name => [.ident name])) ++
        bracketed .leftBrace .rightBrace (Program.tokens body))
  | .call callee args =>
    enclosed Precedence.call.rank callee.rank callee.tokens ++
      bracketed .leftParen .rightParen (commaSeparated (tokensOfExprs args))
  | .index collection position =>
    enclosed Precedence.index.rank collection.rank collection.tokens ++
      bracketed .leftBracket .rightBracket position.tokens

def tokensOfExprs : List Expr → List (List Token)
  | [] => []
  | e :: rest => e.tokens :: tokensOfExprs rest

/-- The tokens that a statement is written with. -/
def Stmt.tokens : Stmt → List Token
  | .letIn name value =>
    .keyword .letBinding :: .ident name :: .symbol .assign :: (value.tokens ++ [.symbol .semicolon])
  | .ret value => .keyword .returnValue :: (value.tokens ++ [.symbol .semicolon])
  | .throw value => .keyword .throwValue :: (value.tokens ++ [.symbol .semicolon])
  | .expr value => value.tokens ++ [.symbol .semicolon]
  | .empty => [.symbol .semicolon]

/-- The tokens that some statements are written with. -/
def Program.tokens : List Stmt → List Token
  | [] => []
  | s :: rest => s.tokens ++ Program.tokens rest

end

/-- A program as a text. It is a single line, with blanks between all tokens. -/
def Program.text (p : Program) : String := Token.text (Program.tokens p)

/-! ### Programs that can be written -/

mutual

/-- Are the names in an expression ones that can be read, and its numbers not negative? -/
def Expr.isPrintable : Expr → Bool
  | .ident name => Token.isName name
  | .int value => 0 ≤ value.toInt
  | .str _ | .bool _ | .null => true
  | .array elements => exprsPrintable elements
  | .unary _ operand => operand.isPrintable
  | .binary _ left right => left.isPrintable && right.isPrintable
  | .cond condition consequence none => condition.isPrintable && Program.isPrintable consequence
  | .cond condition consequence (some alternative) =>
    condition.isPrintable && (Program.isPrintable consequence && Program.isPrintable alternative)
  | .function params body => params.all Token.isName && Program.isPrintable body
  | .call callee args => callee.isPrintable && exprsPrintable args
  | .index collection position => collection.isPrintable && position.isPrintable

def exprsPrintable : List Expr → Bool
  | [] => true
  | e :: rest => e.isPrintable && exprsPrintable rest

def Stmt.isPrintable : Stmt → Bool
  | .letIn name value => Token.isName name && value.isPrintable
  | .ret value | .throw value | .expr value => value.isPrintable
  | .empty => true

/-- The same of some statements. -/
def Program.isPrintable : List Stmt → Bool
  | [] => true
  | s :: rest => s.isPrintable && Program.isPrintable rest

end

/-! ### Numbers -/

theorem Token.isNumber_natRepr (n : Nat) : Token.isNumber n.repr = true := by
  obtain ⟨c, rest, hdigits⟩ :=
    List.exists_cons_of_ne_nil (show Nat.toDigits 10 n ≠ [] from Nat.toDigits_ne_nil)
  refine Token.isNumber_iff.mpr ⟨c, rest, ?_, ?_⟩
  · rw [← hdigits, ← Nat.toList_repr, String.ofList_toList]
  · rw [← hdigits]
    exact fun d hd => Nat.isDigit_of_mem_toDigits (by decide) (by decide) hd

/-- A number is written with digits only if it is not negative. -/
theorem Token.isNumber_repr (n : Int) : Token.isNumber n.repr = decide (0 ≤ n) := by
  rw [Int.repr_eq_if]
  by_cases hn : 0 ≤ n
  · rw [if_pos hn, isNumber_natRepr, decide_eq_true hn]
  · rw [if_neg hn, decide_eq_false hn, ← Bool.not_eq_true]
    intro h
    obtain ⟨c, rest, hdigits, hall⟩ := isNumber_iff.mp h
    have hsigned : '-' :: (-n).toNat.repr.toList = c :: rest := by
      have hchars := congrArg String.toList hdigits
      rwa [String.toList_append, String.toList_ofList, String.toList_ofList] at hchars
    cases hsigned
    exact absurd (List.forall_mem_cons.mp hall).1 (by decide)

/-- Decimal digits denote the number that they are written for. -/
theorem Parser.decimal_repr (n : Nat) : Parser.decimal n.repr.toList = n := by
  rw [Nat.toList_repr]
  conv => rhs; rw [← @Nat.ofDigitChars_ten_toDigits n]
  unfold Parser.decimal Nat.ofDigitChars
  simp only [Nat.mul_comm]

/-- Two numbers that are written alike are the same. -/
theorem eq_of_repr_eq {m n : Nat} (h : m.repr = n.repr) : m = n := by
  rw [← Parser.decimal_repr m, h, Parser.decimal_repr]

/-- What the digits of an integer literal denote is its value. -/
theorem Parser.toInt_of_integer {digits : String} {value : Int64}
    (h : Parser.integer digits = .ok value) : value.toInt = Parser.decimal digits.toList := by
  unfold Parser.integer at h
  simp only at h
  split at h
  · rename_i hle
    cases h
    have hmax : Int64.maxValue.toNatClampNeg = 2 ^ 63 - 1 := rfl
    exact Int64.toInt_ofNat_of_lt (by omega)
  · cases h

/-- A number that is written with digits is read again. -/
theorem Parser.integer_repr {value : Int64} (h : 0 ≤ value.toInt) :
    Parser.integer value.toInt.repr = .ok value := by
  obtain ⟨n, hn⟩ := Int.eq_ofNat_of_zero_le h
  have hlt := value.toInt_lt
  have hmax : Int64.maxValue.toNatClampNeg = 2 ^ 63 - 1 := rfl
  have hvalue : Int64.ofNat n = value := by
    rw [← Int64.toInt_inj, Int64.toInt_ofNat_of_lt (by omega), hn]
  have hdecimal : Parser.decimal value.toInt.repr.toList = n := by
    rw [hn]
    exact Parser.decimal_repr n
  unfold Parser.integer
  simp only [hdecimal]
  rw [if_pos (by omega), hvalue]

/-! ### Spelling programs -/

@[simp] theorem Token.isSpellable_symbol (s : Symbol) : Token.isSpellable (.symbol s) = true := rfl

@[simp] theorem Token.isSpellable_keyword (k : Keyword) : Token.isSpellable (.keyword k) = true := rfl

@[simp] theorem all_bracketed (opening closing : Symbol) (ts : List Token) :
    (bracketed opening closing ts).all Token.isSpellable = ts.all Token.isSpellable := by
  simp [bracketed]

@[simp] theorem all_enclosed (need rank : Nat) (ts : List Token) :
    (enclosed need rank ts).all Token.isSpellable = ts.all Token.isSpellable := by
  unfold enclosed
  split
  · rfl
  · exact all_bracketed _ _ ts

@[simp] theorem all_commaSeparated (tss : List (List Token)) :
    (commaSeparated tss).all Token.isSpellable = tss.flatten.all Token.isSpellable := by
  cases tss with
  | nil => rfl
  | cons ts more => simp [commaSeparated, List.all_flatMap, List.all_flatten]

@[simp] theorem flatten_map_ident (names : List String) :
    (names.map fun name => [Token.ident name]).flatten = names.map .ident := by
  induction names with
  | nil => rfl
  | cons name names ih => simp [ih]

mutual

theorem Expr.isPrintable_eq : ∀ e : Expr, e.isPrintable = e.tokens.all Token.isSpellable
  | .ident _ | .str _ | .null | .bool true | .bool false => by
    simp [Expr.isPrintable, Expr.tokens, Token.isSpellable]
  | .int value => by simp [Expr.isPrintable, Expr.tokens, Token.isSpellable, Token.isNumber_repr]
  | .array elements => by simp [Expr.isPrintable, Expr.tokens, exprsPrintable_eq elements]
  | .unary _ operand => by simp [Expr.isPrintable, Expr.tokens, operand.isPrintable_eq]
  | .binary _ left right => by
    simp [Expr.isPrintable, Expr.tokens, left.isPrintable_eq, right.isPrintable_eq]
  | .cond condition consequence none => by
    simp [Expr.isPrintable, Expr.tokens, condition.isPrintable_eq,
      Program.isPrintable_eq consequence]
  | .cond condition consequence (some alternative) => by
    simp [Expr.isPrintable, Expr.tokens, condition.isPrintable_eq,
      Program.isPrintable_eq consequence, Program.isPrintable_eq alternative]
  | .function params body => by
    simp [Expr.isPrintable, Expr.tokens, Program.isPrintable_eq body, List.all_map,
      Function.comp_def, Token.isSpellable]
  | .call callee args => by
    simp [Expr.isPrintable, Expr.tokens, callee.isPrintable_eq, exprsPrintable_eq args]
  | .index collection position => by
    simp [Expr.isPrintable, Expr.tokens, collection.isPrintable_eq, position.isPrintable_eq]

theorem exprsPrintable_eq : ∀ es : List Expr,
    exprsPrintable es = (tokensOfExprs es).flatten.all Token.isSpellable
  | [] => rfl
  | e :: rest => by simp [exprsPrintable, tokensOfExprs, e.isPrintable_eq, exprsPrintable_eq rest]

theorem Stmt.isPrintable_eq : ∀ s : Stmt, s.isPrintable = s.tokens.all Token.isSpellable
  | .letIn name value => by
    simp [Stmt.isPrintable, Stmt.tokens, Token.isSpellable, value.isPrintable_eq]
  | .ret value | .throw value | .expr value => by
    simp [Stmt.isPrintable, Stmt.tokens, value.isPrintable_eq]
  | .empty => rfl

/-- A program can be written if every token of it can. -/
theorem Program.isPrintable_eq : ∀ p : List Stmt,
    Program.isPrintable p = (Program.tokens p).all Token.isSpellable
  | [] => rfl
  | s :: rest => by
    simp [Program.isPrintable, Program.tokens, s.isPrintable_eq, Program.isPrintable_eq rest]

end

/-- The tokens of a program that can be written are what is read from its text. -/
theorem Program.ofSource_text_tokens {p : Program} (h : Program.isPrintable p = true) :
    Token.ofSource (Program.text p) = Program.tokens p := by
  rw [Program.isPrintable_eq, List.all_eq_true] at h
  exact Token.ofSource_text h

/-! ### Words -/

/-- Does a piece of punctuation only group other tokens? -/
def Symbol.groups : Symbol → Bool
  | .leftParen | .rightParen | .comma | .semicolon => true
  | _ => false

/-- What a token says apart from grouping others, and numbers by their value. Leading zeros of a number say
nothing. -/
def Token.word? : Token → Option Token
  | .symbol s => if s.groups then none else some (.symbol s)
  | .int digits => some (.int (Parser.decimal digits.toList).repr)
  | t => some t

/-- Some tokens without those that only group others. -/
def Token.words (ts : List Token) : List Token := ts.filterMap Token.word?

namespace Token

@[simp] theorem words_nil : words [] = [] := rfl

@[simp] theorem words_cons (t : Token) (ts : List Token) :
    words (t :: ts) = t.word?.toList ++ words ts := by
  cases h : t.word? <;> simp [words, h]

@[simp] theorem words_append (ts us : List Token) : words (ts ++ us) = words ts ++ words us :=
  List.filterMap_append

@[simp] theorem words_bracketed (opening closing : Symbol) (ts : List Token) :
    words (bracketed opening closing ts) =
      (word? (.symbol opening)).toList ++ words ts ++ (word? (.symbol closing)).toList := by
  simp [bracketed]

@[simp] theorem words_enclosed (need rank : Nat) (ts : List Token) :
    words (enclosed need rank ts) = words ts := by
  unfold enclosed
  split
  · rfl
  · simp [word?, Symbol.groups]

@[simp] theorem words_commaSeparated (tss : List (List Token)) :
    words (commaSeparated tss) = words tss.flatten := by
  cases tss with
  | nil => rfl
  | cons ts more =>
    have hmore : words (more.flatMap (.symbol .comma :: ·)) = words more.flatten := by
      induction more with
      | nil => rfl
      | cons us more ih => simp [word?, Symbol.groups, ih]
    simp [commaSeparated, hmore]

end Token

/-- Whatever the expression, it says something. -/
theorem Expr.words_ne_nil : ∀ e : Expr, Token.words e.tokens ≠ []
  | .ident _ | .int _ | .str _ | .bool true | .bool false | .null | .array _ | .function _ _
  | .cond _ _ none | .cond _ _ (some _) => by simp [Expr.tokens, Token.word?, Symbol.groups]
  | .unary op _ => by cases op <;> simp [Expr.tokens, Token.word?, Symbol.groups, UnaryOp.symbol]
  | .binary op _ _ => by cases op <;> simp [Expr.tokens, Token.word?, Symbol.groups, BinaryOp.symbol]
  | .call callee _ => by simp [Expr.tokens, callee.words_ne_nil]
  | .index collection _ => by simp [Expr.tokens, collection.words_ne_nil]

end Notebook
