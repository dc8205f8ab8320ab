import Notebook.Proofs.Syntax.TokenConsumption

/-!
Programs that are written and read again.

`Parser.Begins p ts e rest` says what reading does with the tokens of an expression: whatever is read
with suffixes that bind tighter than `p`, once it has got through `ts` it holds `e`, and goes on with the
suffixes in `rest`. Since an operator's left operand begins the way the whole expression does, this is what
an induction on expressions can carry (`Expr.rereads`).

* `Program.text_roundtrip`: a program that can be written is read from its text, and every program that is
  read can be written.
-/

namespace Notebook

/-! ### Where expressions end -/

/-- Does an expression of this rank end before some tokens? They go on neither with a suffix that binds tighter
nor with another branch. The branch matters to conditionals without one, whatever their rank. -/
def Ends (rank : Nat) : List Token → Prop
  | [] => True
  | t :: _ => t ≠ .keyword .elseBranch ∧
      ∀ suffix, t.suffix? = some suffix → suffix.precedence.rank ≤ rank

theorem Ends.mono {rank rank' : Nat} {rest : List Token} (h : Ends rank rest) (hle : rank ≤ rank') :
    Ends rank' rest := by
  cases rest with
  | nil => trivial
  | cons t rest =>
    obtain ⟨helse, hsuffix⟩ := h
    exact ⟨helse, fun suffix hs => Nat.le_trans (hsuffix suffix hs) hle⟩

/-- Punctuation that announces no suffix ends every expression. -/
theorem ends_symbol {s : Symbol} (h : (Token.symbol s).suffix? = none) (rank : Nat)
    (rest : List Token) : Ends rank (.symbol s :: rest) := by
  refine ⟨nofun, fun suffix hsuffix => ?_⟩
  rw [h] at hsuffix
  cases hsuffix

theorem Suffix.suffix?_symbol (suffix : Suffix) :
    (Token.symbol suffix.symbol).suffix? = some suffix := by
  cases suffix with
  | binary op => exact op.suffix?_symbol
  | call => rfl
  | index => rfl

theorem ends_suffix {suffix : Suffix} {rank : Nat} (h : suffix.precedence.rank ≤ rank)
    (rest : List Token) : Ends rank (.symbol suffix.symbol :: rest) := by
  refine ⟨nofun, fun other hother => ?_⟩
  rw [suffix.suffix?_symbol] at hother
  cases hother
  exact h

/-- May an expression be read without parentheses where suffixes that bind tighter than `p` are? An
operator that binds no tighter would be left over. -/
structure Admits (p : Precedence) (e : Expr) : Prop where
  le : p.rank ≤ Precedence.unary.rank
  lt : e.rank < Precedence.unary.rank → p.rank < e.rank

theorem BinaryOp.rank_pos (op : BinaryOp) : 0 < op.precedence.rank := by
  cases op <;> decide

theorem BinaryOp.rank_lt (op : BinaryOp) : op.precedence.rank < Precedence.unary.rank := by
  cases op <;> decide

theorem Expr.rank_pos (e : Expr) : 0 < e.rank := by
  cases e with
  | binary op => exact op.rank_pos
  | _ => exact Nat.succ_pos _

theorem admits_lowest (e : Expr) : Admits .lowest e :=
  ⟨Nat.zero_le _, fun _ => e.rank_pos⟩

theorem Admits.rank_le {p : Precedence} {e : Expr} (h : Admits p e) : p.rank ≤ e.rank := by
  by_cases hlt : e.rank < Precedence.unary.rank
  · exact Nat.le_of_lt (h.lt hlt)
  · exact Nat.le_trans h.le (Nat.le_of_not_lt hlt)

namespace Parser

/-! ### Reading what was written -/

section

variable {p : Precedence} {ts rest : List Token} {e : Expr}

/-- Does reading with suffixes that bind tighter than `p` get from `ts` to `e`, before it goes on with `rest`?
There are turns enough left for all that may follow. -/
def Begins (p : Precedence) (ts : List Token) (e : Expr) (rest : List Token) : Prop :=
  ∀ depth, (ts ++ rest).length ≤ depth → ∃ turns, rest.length ≤ turns ∧
    level (expr depth) depth p (ts ++ rest) = suffixes (expr depth) p depth turns e rest

theorem bracketed_append (opening closing : Symbol) (ts rest : List Token) :
    bracketed opening closing ts ++ rest = .symbol opening :: (ts ++ .symbol closing :: rest) := by
  simp [bracketed]

theorem expectNext_symbol (s : Symbol) (rest : List Token) :
    expectNext s (.symbol s :: rest) = .ok rest := by
  rw [expectNext, if_pos rfl]

/-- No suffix is taken that does not bind tighter. -/
theorem suffixes_of_le {t : Token}
    (h : ∀ suffix, t.suffix? = some suffix → suffix.precedence.rank ≤ p.rank) (nested : Nested)
    (bound turns : Nat) : suffixes nested p bound turns e (t :: rest) = .ok (e, t :: rest) := by
  cases turns with
  | zero => rfl
  | succ turns =>
    unfold suffixes
    split
    · rfl
    · rename_i suffix hsuffix
      rw [if_neg (Nat.not_lt.mpr (h suffix hsuffix))]

theorem suffixes_of_ends (h : Ends p.rank rest) (nested : Nested) (bound turns : Nat) :
    suffixes nested p bound turns e rest = .ok (e, rest) := by
  cases rest with
  | nil => cases turns <;> rfl
  | cons t rest => exact suffixes_of_le h.2 nested bound turns

/-- What is begun and ends is read. -/
theorem Begins.expr (h : Begins p ts e rest) (hends : Ends p.rank rest) {depth : Nat}
    (hlength : (ts ++ rest).length < depth) : expr depth p (ts ++ rest) = .ok (e, rest) := by
  obtain ⟨depth, rfl⟩ : ∃ d, depth = d + 1 := ⟨depth - 1, by omega⟩
  obtain ⟨turns, -, hlevel⟩ := h depth (Nat.le_of_lt_succ hlength)
  rw [expr_succ, hlevel, suffixes_of_ends hends]

theorem begins_of_operand (h : ∀ depth, (ts ++ rest).length ≤ depth →
    operand (expr depth) depth (ts ++ rest) = .ok (e, rest)) : Begins p ts e rest := by
  intro depth hlength
  rw [List.length_append] at hlength
  refine ⟨depth, by omega, ?_⟩
  unfold level
  rw [h depth (by rw [List.length_append]; exact hlength)]
  rfl

/-- A suffix that binds tighter goes on with what has begun. -/
theorem Begins.extend {left : Expr} {suffix : Suffix} {more : List Token}
    (h : Begins p ts left (.symbol suffix.symbol :: (more ++ rest)))
    (hrank : p.rank < suffix.precedence.rank)
    (hextend : ∀ depth, (more ++ rest).length < depth →
      extend (Parser.expr depth) depth left suffix (more ++ rest) = .ok (e, rest)) :
    Begins p (ts ++ .symbol suffix.symbol :: more) e rest := by
  intro depth hlength
  rw [List.append_assoc, List.cons_append] at hlength ⊢
  obtain ⟨turns, hturns, hlevel⟩ := h depth hlength
  simp only [List.length_append, List.length_cons] at hlength hturns
  obtain ⟨turns, rfl⟩ : ∃ t, turns = t + 1 := ⟨turns - 1, by omega⟩
  refine ⟨turns, by omega, ?_⟩
  rw [hlevel]
  conv => lhs; unfold suffixes
  simp only [suffix.suffix?_symbol, if_pos hrank]
  rw [hextend depth (by rw [List.length_append]; omega)]
  rfl

end

end Parser

open Notebook.Parser

/-- Do the tokens of an expression begin it wherever it may stand? This is what is shown by induction on
expressions, for every place where an expression needs no parentheses. -/
def Expr.Rereads (e : Expr) : Prop :=
  ∀ (p : Precedence) (rest : List Token), Admits p e → Ends e.rank rest → Begins p e.tokens e rest

def Stmt.Rereads (s : Stmt) : Prop :=
  ∀ (depth : Nat) (rest : List Token), (s.tokens ++ rest).length < depth →
    statement (Parser.expr depth) (s.tokens ++ rest) = .ok (s, rest)

/-! ### Nested expressions -/

section

variable {e : Expr} {p : Precedence} {rest : List Token}

theorem Expr.Rereads.expr (h : e.Rereads) (hadmits : Admits p e) (hends : Ends p.rank rest)
    {depth : Nat} (hlength : (e.tokens ++ rest).length < depth) :
    Parser.expr depth p (e.tokens ++ rest) = .ok (e, rest) :=
  (h p rest hadmits (hends.mono hadmits.rank_le)).expr hends hlength

/-- An expression stands on its own before whatever ends every expression. -/
theorem Expr.Rereads.lowest (h : e.Rereads) (hends : Ends 0 rest) {depth : Nat}
    (hlength : (e.tokens ++ rest).length < depth) :
    Parser.expr depth .lowest (e.tokens ++ rest) = .ok (e, rest) :=
  h.expr (admits_lowest e) hends hlength

/-- An expression begins in parentheses as well, wherever that is, and where it may do without them
also if it does. -/
theorem Expr.Rereads.enclosed (h : e.Rereads) {need : Nat} (hadmits : need ≤ e.rank → Admits p e)
    (hends : need ≤ e.rank → Ends e.rank rest) :
    Begins p (enclosed need e.rank e.tokens) e rest := by
  unfold Notebook.enclosed
  split
  · rename_i hneed
    exact h p rest (hadmits hneed) (hends hneed)
  · refine begins_of_operand fun depth hlength => ?_
    rw [bracketed_append] at hlength ⊢
    have hinner := h.lowest (ends_symbol (s := .rightParen) rfl 0 rest) (Nat.lt_of_succ_le hlength)
    exact bind_eq_ok_iff.mpr ⟨_, hinner, bind_eq_ok_iff.mpr ⟨_, expectNext_symbol _ _, rfl⟩⟩

theorem rereads_unary {op : UnaryOp} (h : e.Rereads) : (Expr.unary op e).Rereads := by
  intro p rest _ hends
  refine begins_of_operand fun depth hlength => ?_
  have hbegins : Begins .unary (Notebook.enclosed Precedence.unary.rank e.rank e.tokens) e rest :=
    h.enclosed (fun hneed => ⟨Nat.le_refl _, fun hlt => absurd hneed (Nat.not_le_of_lt hlt)⟩)
      fun hneed => hends.mono hneed
  have hoperand := hbegins.expr hends (Nat.lt_of_succ_le hlength)
  cases op <;> exact bind_eq_ok_iff.mpr ⟨_, hoperand, rfl⟩

theorem rereads_binary {op : BinaryOp} {left right : Expr} (hleft : left.Rereads)
    (hright : right.Rereads) : (Expr.binary op left right).Rereads := by
  intro p rest hadmits hends
  have hlt : p.rank < op.precedence.rank := hadmits.lt op.rank_lt
  have hends : Ends op.precedence.rank rest := hends
  have hright : Begins op.precedence
      (Notebook.enclosed (op.precedence.rank + 1) right.rank right.tokens) right rest :=
    hright.enclosed (fun hneed => ⟨Nat.le_of_lt op.rank_lt, fun _ => hneed⟩)
      fun hneed => hends.mono (Nat.le_of_succ_le hneed)
  have hleft : ∀ more, Begins p (Notebook.enclosed op.precedence.rank left.rank left.tokens) left
      (.symbol (Suffix.binary op).symbol :: more) := fun more =>
    hleft.enclosed (fun hneed => ⟨hadmits.le, fun _ => Nat.lt_of_lt_of_le hlt hneed⟩)
      fun hneed => ends_suffix hneed more
  rw [Expr.tokens]
  refine (hleft _).extend hlt fun depth hlength => ?_
  exact bind_eq_ok_iff.mpr ⟨_, hright.expr hends hlength, rfl⟩

/-- What a call or an index goes on from. -/
theorem Expr.Rereads.extended (h : e.Rereads) {p₀ : Precedence} (hp : p₀.rank ≤ Precedence.unary.rank)
    {suffix : Suffix} (hsuffix : Precedence.unary.rank < suffix.precedence.rank) (more : List Token) :
    Begins p₀ (Notebook.enclosed suffix.precedence.rank e.rank e.tokens) e
      (.symbol suffix.symbol :: more) := by
  refine h.enclosed (fun hneed => ⟨hp, fun _ => ?_⟩) fun hneed => ends_suffix hneed more
  exact Nat.lt_of_le_of_lt hp (Nat.lt_of_lt_of_le hsuffix hneed)

theorem rereads_index {collection position : Expr} (hcollection : collection.Rereads)
    (hposition : position.Rereads) : (Expr.index collection position).Rereads := by
  intro p rest hadmits _
  have htight : Precedence.unary.rank < Suffix.index.precedence.rank := by decide
  rw [Expr.tokens]
  refine (hcollection.extended hadmits.le htight _).extend (Nat.lt_of_le_of_lt hadmits.le htight)
    fun depth hlength => ?_
  rw [List.append_assoc, List.singleton_append] at hlength ⊢
  have hinner := hposition.lowest (ends_symbol (s := .rightBracket) rfl 0 rest) hlength
  exact bind_eq_ok_iff.mpr ⟨_, hinner, bind_eq_ok_iff.mpr ⟨_, expectNext_symbol _ _, rfl⟩⟩

end

/-! ### Lists -/

section

variable {es : List Expr} {depth bound : Nat}

/-- An item of a list ends before the rest of the list. -/
theorem ends_items (es : List Expr) {close : Symbol} (hclose : (Token.symbol close).suffix? = none)
    (rest : List Token) :
    Ends 0 ((tokensOfExprs es).flatMap (.symbol .comma :: ·) ++ .symbol close :: rest) := by
  cases es with
  | nil => exact ends_symbol hclose 0 rest
  | cons => exact ends_symbol rfl 0 _

/-- A list of expressions, up to what closes it, once one of them has been read. -/
theorem moreItems_tokens (hes : ∀ e ∈ es, e.Rereads) {close : Symbol}
    (hclose : (Token.symbol close).suffix? = none) (hcomma : close ≠ .comma) (rest : List Token)
    (hlength : ((tokensOfExprs es).flatMap (.symbol .comma :: ·) ++
      .symbol close :: rest).length ≤ depth)
    (hbound : ((tokensOfExprs es).flatMap (.symbol .comma :: ·) ++
      .symbol close :: rest).length ≤ bound) (read : List Expr) :
    moreItems (Parser.expr depth) close bound read
      ((tokensOfExprs es).flatMap (.symbol .comma :: ·) ++ .symbol close :: rest) =
      .ok (read.reverse ++ es, rest) := by
  -- By induction on the items that are left, with those that have been read, latest first.
  induction es generalizing bound read with
  | nil =>
    rw [tokensOfExprs, List.flatMap_nil, List.nil_append, List.append_nil]
    unfold moreItems
    split
    · rename_i hts
      cases hts
      exact absurd rfl hcomma
    · rw [expectNext_symbol]
      rfl
  | cons e es ih =>
    obtain ⟨he, hes⟩ := List.forall_mem_cons.mp hes
    rw [tokensOfExprs, List.flatMap_cons, List.append_assoc, List.cons_append] at hlength hbound ⊢
    have hfirst := he.lowest (ends_items es hclose rest) (Nat.lt_of_succ_le hlength)
    simp only [List.length_cons, List.length_append] at hlength hbound ih
    obtain ⟨bound, rfl⟩ : ∃ b, bound = b + 1 := ⟨bound - 1, by omega⟩
    have hmore := @ih bound hes (by omega) (by omega) (e :: read)
    rw [moreItems, hfirst]
    exact hmore.trans (by rw [List.reverse_cons, List.append_assoc, List.singleton_append])

/-- Does a token begin expressions? -/
def Token.beginsExpr : Token → Bool
  | .ident _ | .int _ | .str _ => true
  | .symbol s => s == .bang || s == .minus || s == .leftParen || s == .leftBracket
  | .keyword k => k == .trueLiteral || k == .falseLiteral || k == .nullLiteral || k == .ifBranch ||
      k == .function
  | .illegal _ => false

/-- Nothing else is read as an expression. -/
theorem beginsExpr_of_expr {p : Precedence} {ts : List Token} {parsed : Parsed Expr}
    (h : Parser.expr depth p ts = .ok parsed) : ∃ t rest, ts = t :: rest ∧ t.beginsExpr = true := by
  cases depth with
  | zero => cases h
  | succ depth =>
    obtain ⟨read, hoperand, -⟩ := bind_eq_ok_iff.mp h
    unfold operand at hoperand
    split at hoperand <;> first | exact ⟨_, _, rfl, rfl⟩ | cases hoperand

/-- A list of expressions, up to what closes it. -/
theorem items_tokens (hes : ∀ e ∈ es, e.Rereads) (close : Symbol)
    (hclose : (Token.symbol close).suffix? = none) (hcomma : close ≠ .comma)
    (hbegins : (Token.symbol close).beginsExpr = false) (rest : List Token)
    (hlength : (commaSeparated (tokensOfExprs es) ++ .symbol close :: rest).length < depth) :
    items (Parser.expr depth) close depth
      (commaSeparated (tokensOfExprs es) ++ .symbol close :: rest) = .ok (es, rest) := by
  cases es with
  | nil =>
    unfold items
    exact if_pos rfl
  | cons e es =>
    obtain ⟨he, hes⟩ := List.forall_mem_cons.mp hes
    rw [tokensOfExprs, commaSeparated, List.append_assoc] at hlength ⊢
    have hfirst := he.lowest (ends_items es hclose rest) hlength
    have hhead : ¬ (e.tokens ++ ((tokensOfExprs es).flatMap (.symbol .comma :: ·) ++
        .symbol close :: rest)).head? = some (.symbol close) := by
      obtain ⟨t, ts, hts, ht⟩ := beginsExpr_of_expr hfirst
      rw [hts, List.head?_cons]
      rintro ⟨⟩
      rw [hbegins] at ht
      cases ht
    rw [List.length_append] at hlength
    unfold items
    rw [if_neg hhead, hfirst]
    exact moreItems_tokens hes hclose hcomma rest (by omega) (by omega) [e]

theorem rereads_array (hes : ∀ e ∈ es, e.Rereads) : (Expr.array es).Rereads := by
  intro p rest _ _
  refine begins_of_operand fun depth hlength => ?_
  rw [Expr.tokens, bracketed_append] at hlength ⊢
  have hitems := items_tokens hes .rightBracket rfl (by decide) rfl rest (Nat.lt_of_succ_le hlength)
  exact bind_eq_ok_iff.mpr ⟨_, hitems, rfl⟩

theorem rereads_call {callee : Expr} (hcallee : callee.Rereads) (hes : ∀ e ∈ es, e.Rereads) :
    (Expr.call callee es).Rereads := by
  intro p rest hadmits _
  have htight : Precedence.unary.rank < Suffix.call.precedence.rank := by decide
  rw [Expr.tokens]
  refine (hcallee.extended hadmits.le htight _).extend (Nat.lt_of_le_of_lt hadmits.le htight)
    fun depth hlength => ?_
  rw [List.append_assoc, List.singleton_append] at hlength ⊢
  exact bind_eq_ok_iff.mpr ⟨_, items_tokens hes .rightParen rfl (by decide) rfl rest hlength, rfl⟩

theorem params_tokens (names read : List String) (rest : List Token) :
    params read (commaSeparated (names.map fun name => [.ident name]) ++
      .symbol .rightParen :: rest) = .ok (read.reverse ++ names, rest) := by
  induction names generalizing read with
  | nil => simp [commaSeparated, params]
  | cons name names ih =>
    cases names with
    | nil => simp [commaSeparated, params]
    | cons next names =>
      have hmore := ih (name :: read)
      simp only [List.map_cons, commaSeparated, List.flatMap_cons, List.cons_append,
        List.nil_append, List.append_assoc, List.reverse_cons] at hmore ⊢
      rw [params, hmore]

end

/-! ### Statements -/

section

variable {depth : Nat} {rest : List Token} {e : Expr}

theorem Expr.Rereads.terminated (h : e.Rereads)
    (hlength : (e.tokens ++ .symbol .semicolon :: rest).length < depth) :
    Parser.expr depth .lowest (e.tokens ++ .symbol .semicolon :: rest) =
      .ok (e, .symbol .semicolon :: rest) :=
  h.lowest (ends_symbol rfl 0 rest) hlength

theorem rereads_letIn (name : String) (h : e.Rereads) : (Stmt.letIn name e).Rereads := by
  intro depth rest hlength
  simp only [Stmt.tokens, List.cons_append, List.append_assoc, List.nil_append,
    List.length_cons] at hlength ⊢
  have hvalue := h.terminated (Nat.lt_of_succ_lt (Nat.lt_of_succ_lt (Nat.lt_of_succ_lt hlength)))
  exact bind_eq_ok_iff.mpr ⟨_, expectNext_symbol _ _, bind_eq_ok_iff.mpr ⟨_, hvalue, rfl⟩⟩

theorem rereads_ret (h : e.Rereads) : (Stmt.ret e).Rereads := by
  intro depth rest hlength
  simp only [Stmt.tokens, List.cons_append, List.append_assoc, List.nil_append,
    List.length_cons] at hlength ⊢
  exact bind_eq_ok_iff.mpr ⟨_, h.terminated (Nat.lt_of_succ_lt hlength), rfl⟩

theorem rereads_throw (h : e.Rereads) : (Stmt.throw e).Rereads := by
  intro depth rest hlength
  simp only [Stmt.tokens, List.cons_append, List.append_assoc, List.nil_append,
    List.length_cons] at hlength ⊢
  exact bind_eq_ok_iff.mpr ⟨_, h.terminated (Nat.lt_of_succ_lt hlength), rfl⟩

theorem rereads_expr (h : e.Rereads) : (Stmt.expr e).Rereads := by
  intro depth rest hlength
  rw [Stmt.tokens, List.append_assoc, List.singleton_append] at hlength ⊢
  have hvalue := h.terminated hlength
  obtain ⟨t, ts, hts, ht⟩ := beginsExpr_of_expr hvalue
  rw [hts] at hvalue ⊢
  -- No other kind of statement begins with a token that begins an expression.
  unfold statement
  split
  · cases ‹t :: ts = _›
    cases ht
  · cases ‹t :: ts = _›
    cases ht
  · cases ‹t :: ts = _›
    cases ht
  · cases ‹t :: ts = _›
    cases ht
  · exact bind_eq_ok_iff.mpr ⟨_, hvalue, rfl⟩

theorem rereads_empty : Stmt.empty.Rereads := fun _ _ _ => rfl

/-- What a statement is read from neither ends the text nor closes a block. -/
theorem begins_of_statement {ts : List Token} {parsed : Parsed Stmt}
    (h : statement (Parser.expr depth) ts = .ok parsed) :
    ts ≠ [] ∧ ∀ rest, ts ≠ .symbol .rightBrace :: rest := by
  constructor
  · rintro rfl
    obtain ⟨value, hvalue, -⟩ := bind_eq_ok_iff.mp h
    obtain ⟨t, ts, hts, -⟩ := beginsExpr_of_expr hvalue
    cases hts
  · rintro rest rfl
    obtain ⟨value, hvalue, -⟩ := bind_eq_ok_iff.mp h
    obtain ⟨t, ts, hts, ht⟩ := beginsExpr_of_expr hvalue
    cases hts
    cases ht

theorem moreStatements_tokens {ss : List Stmt} (hss : ∀ s ∈ ss, s.Rereads) {rest : List Token}
    {bound : Nat} (hlength : (Program.tokens ss ++ .symbol .rightBrace :: rest).length < depth)
    (hbound : (Program.tokens ss ++ .symbol .rightBrace :: rest).length ≤ bound)
    (read : List Stmt) :
    block (Parser.expr depth) bound read (Program.tokens ss ++ .symbol .rightBrace :: rest) =
      .ok (read.reverse ++ ss, rest) := by
  induction ss generalizing bound read with
  | nil =>
    rw [Program.tokens, List.nil_append, List.append_nil]
    unfold block
    rfl
  | cons s ss ih =>
    obtain ⟨hs, hss⟩ := List.forall_mem_cons.mp hss
    rw [Program.tokens, List.append_assoc] at hlength hbound ⊢
    have hfirst := hs depth _ hlength
    have hlt := length_lt_of_statement (faithful_expr depth) hfirst
    obtain ⟨bound, rfl⟩ : ∃ b, bound = b + 1 := ⟨bound - 1, by omega⟩
    obtain ⟨hnil, hbrace⟩ := begins_of_statement hfirst
    rw [block, hfirst]
    · refine (ih hss (by omega) (by omega) (s :: read)).trans ?_
      rw [List.reverse_cons, List.append_assoc, List.singleton_append]
    · exact hnil
    · exact hbrace

/-- The statements of a block, up to its closing brace. -/
theorem block_tokens {ss : List Stmt} (hss : ∀ s ∈ ss, s.Rereads) {rest : List Token}
    (hlength : (Program.tokens ss).length + (rest.length + 1) < depth) :
    block (Parser.expr depth) depth [] (Program.tokens ss ++ .symbol .rightBrace :: rest) =
      .ok (ss, rest) := by
  have hlt : (Program.tokens ss ++ .symbol .rightBrace :: rest).length < depth := by
    rwa [List.length_append, List.length_cons]
  exact moreStatements_tokens hss hlt (Nat.le_of_lt hlt) []

theorem statements_tokens {ss : List Stmt} (hss : ∀ s ∈ ss, s.Rereads) {bound : Nat}
    (hlength : (Program.tokens ss).length < depth) (hbound : (Program.tokens ss).length ≤ bound)
    (read : List Stmt) :
    statements (Parser.expr depth) bound read (Program.tokens ss) = .ok (read.reverse ++ ss) := by
  induction ss generalizing bound read with
  | nil =>
    rw [Program.tokens, List.append_nil]
    unfold statements
    rfl
  | cons s ss ih =>
    obtain ⟨hs, hss⟩ := List.forall_mem_cons.mp hss
    rw [Program.tokens] at hlength hbound ⊢
    have hfirst := hs depth _ hlength
    have hlt := length_lt_of_statement (faithful_expr depth) hfirst
    obtain ⟨bound, rfl⟩ : ∃ b, bound = b + 1 := ⟨bound - 1, by omega⟩
    obtain ⟨hnil, -⟩ := begins_of_statement hfirst
    rw [statements, hfirst]
    · refine (ih hss (by omega) (by omega) (s :: read)).trans ?_
      rw [List.reverse_cons, List.append_assoc, List.singleton_append]
    · exact hnil

end

/-! ### Expressions with blocks -/

section

variable {yes no body : List Stmt} {condition : Expr}

theorem rereads_function (names : List String) (hbody : ∀ s ∈ body, s.Rereads) :
    (Expr.function names body).Rereads := by
  intro p rest _ _
  refine begins_of_operand fun depth hlength => ?_
  simp only [Expr.tokens, bracketed_append, List.cons_append, List.append_assoc,
    List.length_cons, List.length_append] at hlength ⊢
  refine bind_eq_ok_iff.mpr ⟨_, expectNext_symbol _ _, ?_⟩
  refine bind_eq_ok_iff.mpr ⟨_, params_tokens names [] _, ?_⟩
  refine bind_eq_ok_iff.mpr ⟨_, expectNext_symbol _ _, ?_⟩
  exact bind_eq_ok_iff.mpr ⟨_, block_tokens hbody (by omega), rfl⟩

/-- A conditional is read up to the end of its first branch. -/
theorem conditional_tokens (hcondition : condition.Rereads) (hyes : ∀ s ∈ yes, s.Rereads)
    {depth : Nat} (rest : List Token) :
    (bracketed .leftParen .rightParen condition.tokens ++
      (bracketed .leftBrace .rightBrace (Program.tokens yes) ++ rest)).length < depth →
    conditional (Parser.expr depth) depth (bracketed .leftParen .rightParen condition.tokens ++
        (bracketed .leftBrace .rightBrace (Program.tokens yes) ++ rest)) =
      match rest with
      | .keyword .elseBranch :: rest => do
        let rest ← expectNext .leftBrace rest
        let (alternative, rest) ← block (Parser.expr depth) depth [] rest
        .ok (.cond condition yes (some alternative), rest)
      | rest => .ok (.cond condition yes none, rest) := by
  intro hlength
  simp only [bracketed_append, List.length_cons, List.length_append] at hlength ⊢
  have hblock : block (Parser.expr depth) depth []
      (Program.tokens yes ++ .symbol .rightBrace :: rest) = .ok (yes, rest) :=
    block_tokens hyes (by omega)
  have htest : Parser.expr depth .lowest (condition.tokens ++ .symbol .rightParen ::
      .symbol .leftBrace :: (Program.tokens yes ++ .symbol .rightBrace :: rest)) =
        .ok (condition, .symbol .rightParen ::
          .symbol .leftBrace :: (Program.tokens yes ++ .symbol .rightBrace :: rest)) :=
    hcondition.lowest (ends_symbol rfl 0 _)
      (by simp only [List.length_append, List.length_cons]; omega)
  refine (bind_of_eq_ok (expectNext_symbol _ _)).trans ?_
  refine (bind_of_eq_ok htest).trans ?_
  refine (bind_of_eq_ok (expectNext_symbol _ _)).trans ?_
  refine (bind_of_eq_ok (expectNext_symbol _ _)).trans ?_
  exact bind_of_eq_ok hblock

theorem rereads_cond_none (hcondition : condition.Rereads) (hyes : ∀ s ∈ yes, s.Rereads) :
    (Expr.cond condition yes none).Rereads := by
  intro p rest _ hends
  refine begins_of_operand fun depth hlength => ?_
  simp only [Expr.tokens, List.cons_append, List.append_assoc] at hlength ⊢
  refine (conditional_tokens hcondition hyes rest (Nat.lt_of_succ_le hlength)).trans ?_
  split
  · exact absurd rfl hends.1
  · rfl

theorem rereads_cond_some (hcondition : condition.Rereads) (hyes : ∀ s ∈ yes, s.Rereads)
    (hno : ∀ s ∈ no, s.Rereads) : (Expr.cond condition yes (some no)).Rereads := by
  intro p rest _ _
  refine begins_of_operand fun depth hlength => ?_
  simp only [Expr.tokens, List.cons_append, List.append_assoc] at hlength ⊢
  refine (conditional_tokens hcondition hyes _ (Nat.lt_of_succ_le hlength)).trans ?_
  simp only [bracketed_append, List.length_cons, List.length_append] at hlength ⊢
  refine bind_eq_ok_iff.mpr ⟨_, expectNext_symbol _ _, ?_⟩
  exact bind_eq_ok_iff.mpr ⟨_, block_tokens hno (by omega), rfl⟩

end

/-! ### Whole programs -/

mutual

/-- An expression that can be written begins the way its tokens say. One case for each form of expressions;
operators are where precedence comes in. -/
theorem Expr.rereads : ∀ e : Expr, e.isPrintable = true → e.Rereads
  | .ident _, _ | .str _, _ | .bool true, _ | .bool false, _ | .null, _ => fun _ _ _ _ =>
    begins_of_operand fun _ _ => rfl
  | .int value, h => by
    intro p rest _ _
    have hvalue : 0 ≤ value.toInt := of_decide_eq_true h
    exact begins_of_operand fun _ _ => bind_eq_ok_iff.mpr ⟨value, integer_repr hvalue, rfl⟩
  | .array elements, h => rereads_array (exprs_reread elements h)
  | .unary _ operand, h => rereads_unary (operand.rereads h)
  | .binary _ left right, h => by
    obtain ⟨hleft, hright⟩ := Bool.and_eq_true_iff.mp h
    exact rereads_binary (left.rereads hleft) (right.rereads hright)
  | .cond condition consequence none, h => by
    obtain ⟨hcondition, hyes⟩ := Bool.and_eq_true_iff.mp h
    exact rereads_cond_none (condition.rereads hcondition) (stmts_reread consequence hyes)
  | .cond condition consequence (some alternative), h => by
    obtain ⟨hcondition, hbranches⟩ := Bool.and_eq_true_iff.mp h
    obtain ⟨hyes, hno⟩ := Bool.and_eq_true_iff.mp hbranches
    exact rereads_cond_some (condition.rereads hcondition) (stmts_reread consequence hyes)
      (stmts_reread alternative hno)
  | .function params body, h => by
    obtain ⟨-, hbody⟩ := Bool.and_eq_true_iff.mp h
    exact rereads_function params (stmts_reread body hbody)
  | .call callee args, h => by
    obtain ⟨hcallee, hargs⟩ := Bool.and_eq_true_iff.mp h
    exact rereads_call (callee.rereads hcallee) (exprs_reread args hargs)
  | .index collection position, h => by
    obtain ⟨hcollection, hposition⟩ := Bool.and_eq_true_iff.mp h
    exact rereads_index (collection.rereads hcollection) (position.rereads hposition)

theorem exprs_reread : ∀ es : List Expr, exprsPrintable es = true → ∀ e ∈ es, e.Rereads
  | [], _ => fun _ he => absurd he List.not_mem_nil
  | e :: rest, h => by
    obtain ⟨he, hrest⟩ := Bool.and_eq_true_iff.mp h
    exact List.forall_mem_cons.mpr ⟨e.rereads he, exprs_reread rest hrest⟩

theorem Stmt.rereads : ∀ s : Stmt, s.isPrintable = true → s.Rereads
  | .letIn name value, h => by
    obtain ⟨-, hvalue⟩ := Bool.and_eq_true_iff.mp h
    exact rereads_letIn name (value.rereads hvalue)
  | .ret value, h => rereads_ret (value.rereads h)
  | .throw value, h => rereads_throw (value.rereads h)
  | .expr value, h => rereads_expr (value.rereads h)
  | .empty, _ => rereads_empty

theorem stmts_reread : ∀ ss : List Stmt, Program.isPrintable ss = true → ∀ s ∈ ss, s.Rereads
  | [], _ => fun _ hs => absurd hs List.not_mem_nil
  | s :: rest, h => by
    obtain ⟨hs, hrest⟩ := Bool.and_eq_true_iff.mp h
    exact List.forall_mem_cons.mpr ⟨s.rereads hs, stmts_reread rest hrest⟩

end

/-- A program is read from its tokens. -/
theorem Program.ofTokens_tokens {p : Program} (h : Program.isPrintable p = true) :
    Program.ofTokens (Program.tokens p) = .ok p :=
  statements_tokens (stmts_reread p h) (Nat.lt_succ_self _) (Nat.le_refl _) []

/-- A program that can be written is read again from its text as it was, and whatever is read as a
program can be written. -/
theorem Program.text_roundtrip :
    (∀ p, Program.isPrintable p = true → Program.ofSource (Program.text p) = .ok p) ∧
      ∀ source p, Program.ofSource source = .ok p → Program.isPrintable p = true := by
  constructor
  · intro p h
    unfold Program.ofSource
    rw [Program.ofSource_text_tokens h]
    exact Program.ofTokens_tokens h
  · intro source p h
    exact Program.isPrintable_of_ofSource h

/-- Operators of all ranks, some of them in parentheses. -/
theorem operators_text_roundtrip :
    let p : Program := [.letIn "f" (.function ["a"] [.ret (.index (.array [.ident "a"])
        (.unary .negate (.binary .sub (.int 1) (.int 2))))]),
      .expr (.binary .equal (.cond (.call (.ident "f") [.str "\"", .null]) [.empty] none)
        (.binary .mul (.binary .sub (.binary .sub (.int 3) (.int 2)) (.binary .sub (.int 1) (.int 0)))
          (.unary .not (.bool true))))]
    let source := "let f = fn ( a ) \x7b return [ a ] [ - ( 1 - 2 ) ] ; \x7d ; " ++
      "if ( f ( \"\\\"\" , null ) ) \x7b ; \x7d == ( 3 - 2 - ( 1 - 0 ) ) * ! true ; "
    Program.text p = source ∧ Program.isPrintable p = true ∧ Program.ofSource source = .ok p := by
  intro p source
  have htext : Program.text p = source := by decide +kernel
  have hprintable : Program.isPrintable p = true := by decide +kernel
  have hread := Program.text_roundtrip.1 p hprintable
  rw [htext] at hread
  exact ⟨htext, Program.text_roundtrip.2 source p hread, hread⟩

end Notebook
