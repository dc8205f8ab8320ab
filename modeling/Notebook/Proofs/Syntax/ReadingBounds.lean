import Notebook.Proofs.Syntax.WindowReading

/-!
How much work reading is.

`Expr.nodes` counts the expressions that a program is made of. Each of them says something, so there are no more
of them than tokens.

* `Parser.Frugal`: the expressions that were made and the tokens that are left over are together no more than the
  tokens that there were. Stated like this, the bounds for the parts of an expression add up.
* `Window.Part.ends`: every part of the parser that moves a window ends, since it comes to what the parser makes of
  the same tokens, and their number bounds how often that recurses.
* `Window.reading_bounded`: every part of the parser comes to an end, uses up a token with every turn of a loop,
  leaves the window on the last token of what it read, and makes no more of it than there was to read.
* `Window.deepest_minuses`: the bound on nested expressions is met.
-/

namespace Notebook

/-! ### Counting expressions -/

mutual

/-- How many expressions an expression is made of, with itself. -/
def Expr.nodes : Expr → Nat
  | .ident _ | .int _ | .str _ | .bool _ | .null => 1
  | .array elements => exprsNodes elements + 1
  | .unary _ operand => operand.nodes + 1
  | .binary _ left right => left.nodes + right.nodes + 1
  | .cond condition consequence none => condition.nodes + Program.nodes consequence + 1
  | .cond condition consequence (some alternative) =>
    condition.nodes + Program.nodes consequence + Program.nodes alternative + 1
  | .function _ body => Program.nodes body + 1
  | .call callee args => callee.nodes + exprsNodes args + 1
  | .index collection position => collection.nodes + position.nodes + 1

def exprsNodes : List Expr → Nat
  | [] => 0
  | e :: rest => e.nodes + exprsNodes rest

def Stmt.nodes : Stmt → Nat
  | .letIn _ value | .ret value | .throw value | .expr value => value.nodes
  | .empty => 0

/-- The same of some statements. -/
def Program.nodes : List Stmt → Nat
  | [] => 0
  | s :: rest => s.nodes + Program.nodes rest

end

namespace Parser

/-! ### What is made of tokens -/

/-- Is no expression made of more expressions than there were tokens? Those that are left over count, too, so
that the parts of an expression add up. -/
def Frugal (nested : Nested) : Prop :=
  ∀ p ts e rest, nested p ts = .ok (e, rest) → e.nodes + rest.length ≤ ts.length

section

variable {nested : Nested} {bound : Nat} {ts rest : List Token} {e : Expr}

theorem length_of_expectNext {s : Symbol} (h : expectNext s ts = .ok rest) :
    ts.length = rest.length + 1 := by
  rw [eq_of_expectNext h, List.length_cons]

theorem length_skipSemicolon_le (ts : List Token) : (skipSemicolon ts).length ≤ ts.length := by
  obtain ⟨used, hused, -⟩ := consumes_skipSemicolon ts
  have := congrArg List.length hused
  rw [List.length_append] at this
  omega

theorem length_le_of_params {names : List String} (h : params [] ts = .ok (names, rest)) :
    rest.length ≤ ts.length := by
  obtain ⟨-, -, used, rfl, -⟩ := consumes_of_params h
  rw [List.length_append]
  exact Nat.le_add_left _ _

theorem nodes_of_moreItems (hn : Frugal nested) {close : Symbol} {read es : List Expr}
    (h : moreItems nested close bound read ts = .ok (es, rest)) :
    ∃ more, es = read.reverse ++ more ∧ exprsNodes more + rest.length < ts.length := by
  fun_induction moreItems nested close bound read ts with
  | case1 bound read ts ih =>
    obtain ⟨⟨e, mid⟩, hfirst, h⟩ := bind_eq_ok_iff.mp h
    obtain ⟨more, rfl, hmore⟩ := ih e mid h
    have hfirst := hn _ _ _ _ hfirst
    refine ⟨e :: more, by simp, ?_⟩
    simp only [exprsNodes, List.length_cons]
    omega
  | case2 =>
    obtain ⟨left, hclose, h⟩ := bind_eq_ok_iff.mp h
    cases h
    have hclose := length_of_expectNext hclose
    exact ⟨[], (List.append_nil _).symm, by simp only [exprsNodes]; omega⟩

theorem nodes_of_items (hn : Frugal nested) {close : Symbol} {es : List Expr}
    (h : items nested close bound ts = .ok (es, rest)) :
    exprsNodes es + rest.length < ts.length := by
  unfold items at h
  split at h
  · rename_i hhead
    cases h
    obtain ⟨rest, rfl⟩ := List.head?_eq_some_iff.mp hhead
    simp [exprsNodes]
  · obtain ⟨⟨e, mid⟩, hfirst, h⟩ := bind_eq_ok_iff.mp h
    obtain ⟨more, rfl, hmore⟩ := nodes_of_moreItems hn h
    have hfirst := hn _ _ _ _ hfirst
    simp only [List.reverse_singleton, List.singleton_append, exprsNodes]
    omega

theorem nodes_of_binding (hn : Frugal nested) {s : Stmt} (h : binding nested ts = .ok (s, rest)) :
    s.nodes + rest.length ≤ ts.length := by
  unfold binding at h
  split at h
  · cases h
  · obtain ⟨mid, hassign, h⟩ := bind_eq_ok_iff.mp h
    obtain ⟨⟨value, left⟩, hvalue, h⟩ := bind_eq_ok_iff.mp h
    cases h
    have hassign := length_of_expectNext hassign
    have hvalue := hn _ _ _ _ hvalue
    have hskip := length_skipSemicolon_le left
    simp only [Stmt.nodes, List.length_cons]
    omega
  · cases h

/-- An expression as a statement, or as a part of one. -/
theorem nodes_of_value (hn : Frugal nested) (make : Expr → Stmt) (hmake : ∀ e, (make e).nodes = e.nodes)
    {s : Stmt}
    (h : (nested .lowest ts >>= fun (e, rest) => .ok (make e, skipSemicolon rest)) = .ok (s, rest)) :
    s.nodes + rest.length ≤ ts.length := by
  obtain ⟨⟨value, left⟩, hvalue, h⟩ := bind_eq_ok_iff.mp h
  cases h
  have hvalue := hn _ _ _ _ hvalue
  have hskip := length_skipSemicolon_le left
  rw [hmake]
  omega

theorem nodes_of_statement (hn : Frugal nested) {s : Stmt} (h : statement nested ts = .ok (s, rest)) :
    s.nodes + rest.length ≤ ts.length := by
  unfold statement at h
  split at h
  · exact Nat.le_succ_of_le (nodes_of_binding hn h)
  · exact Nat.le_succ_of_le (nodes_of_value hn Stmt.ret (fun _ => rfl) h)
  · exact Nat.le_succ_of_le (nodes_of_value hn Stmt.throw (fun _ => rfl) h)
  · cases h
    simp [Stmt.nodes]
  · exact nodes_of_value hn Stmt.expr (fun _ => rfl) h

theorem nodes_of_block (hn : Frugal nested) {read ss : List Stmt}
    (h : block nested bound read ts = .ok (ss, rest)) :
    ∃ more, ss = read.reverse ++ more ∧ Program.nodes more + rest.length < ts.length := by
  fun_induction block nested bound read ts with
  | case1 => cases h
  | case2 bound read rest' =>
    cases h
    exact ⟨[], (List.append_nil _).symm, by simp [Program.nodes]⟩
  | case3 => cases h
  | case4 bound read ts _ _ ih =>
    obtain ⟨⟨s, mid⟩, hfirst, h⟩ := bind_eq_ok_iff.mp h
    obtain ⟨more, rfl, hmore⟩ := ih s mid h
    have hfirst := nodes_of_statement hn hfirst
    refine ⟨s :: more, by simp, ?_⟩
    rw [Program.nodes]
    omega

/-- Statements between braces. -/
theorem nodes_of_braces (hn : Frugal nested) {mid : List Token} {ss : List Stmt}
    (hopen : expectNext .leftBrace ts = .ok mid) (h : block nested bound [] mid = .ok (ss, rest)) :
    Program.nodes ss + rest.length < ts.length := by
  obtain ⟨more, rfl, hmore⟩ := nodes_of_block hn h
  have hopen := length_of_expectNext hopen
  omega

theorem nodes_of_conditional (hn : Frugal nested) (h : conditional nested bound ts = .ok (e, rest)) :
    e.nodes + rest.length ≤ ts.length := by
  obtain ⟨ts₁, hopen, h⟩ := bind_eq_ok_iff.mp h
  obtain ⟨⟨condition, ts₂⟩, hcondition, h⟩ := bind_eq_ok_iff.mp h
  obtain ⟨ts₃, hclose, h⟩ := bind_eq_ok_iff.mp h
  obtain ⟨ts₄, hbrace, h⟩ := bind_eq_ok_iff.mp h
  obtain ⟨⟨consequence, ts₅⟩, hconsequence, h⟩ := bind_eq_ok_iff.mp h
  have hopen := length_of_expectNext hopen
  have hcondition := hn _ _ _ _ hcondition
  have hclose := length_of_expectNext hclose
  have hyes := nodes_of_braces hn hbrace hconsequence
  simp only at h
  split at h
  · obtain ⟨ts₆, hbrace', h⟩ := bind_eq_ok_iff.mp h
    obtain ⟨⟨alternative, ts₇⟩, halternative, h⟩ := bind_eq_ok_iff.mp h
    cases h
    have hno := nodes_of_braces hn hbrace' halternative
    rw [List.length_cons] at hyes
    simp only [Expr.nodes]
    omega
  · cases h
    rw [Expr.nodes]
    omega

theorem nodes_of_function (hn : Frugal nested) (h : function nested bound ts = .ok (e, rest)) :
    e.nodes + rest.length ≤ ts.length := by
  obtain ⟨ts₁, hopen, h⟩ := bind_eq_ok_iff.mp h
  obtain ⟨⟨names, ts₂⟩, hnames, h⟩ := bind_eq_ok_iff.mp h
  obtain ⟨ts₃, hbrace, h⟩ := bind_eq_ok_iff.mp h
  obtain ⟨⟨body, ts₄⟩, hbody, h⟩ := bind_eq_ok_iff.mp h
  cases h
  have hopen := length_of_expectNext hopen
  have hnames := length_le_of_params hnames
  have hbody := nodes_of_braces hn hbrace hbody
  rw [Expr.nodes]
  omega

theorem nodes_of_operand (hn : Frugal nested) (h : operand nested bound ts = .ok (e, rest)) :
    e.nodes + rest.length ≤ ts.length := by
  have hleaf {t : Token} {rest : List Token} {e : Expr} (he : e.nodes = 1) :
      e.nodes + rest.length ≤ (t :: rest).length := by
    rw [he, List.length_cons]
    omega
  unfold operand at h
  split at h
  · cases h
  · cases h
    exact hleaf rfl
  · obtain ⟨value, -, h⟩ := bind_eq_ok_iff.mp h
    cases h
    exact hleaf rfl
  · cases h
    exact hleaf rfl
  · cases h
    exact hleaf rfl
  · cases h
    exact hleaf rfl
  · cases h
    exact hleaf rfl
  · obtain ⟨⟨inner, mid⟩, hinner, h⟩ := bind_eq_ok_iff.mp h
    cases h
    have hinner := hn _ _ _ _ hinner
    simp only [Expr.nodes, List.length_cons]
    omega
  · obtain ⟨⟨inner, mid⟩, hinner, h⟩ := bind_eq_ok_iff.mp h
    cases h
    have hinner := hn _ _ _ _ hinner
    simp only [Expr.nodes, List.length_cons]
    omega
  · obtain ⟨⟨inner, mid⟩, hinner, h⟩ := bind_eq_ok_iff.mp h
    obtain ⟨left, hclose, h⟩ := bind_eq_ok_iff.mp h
    cases h
    have hinner := hn _ _ _ _ hinner
    have hclose := length_of_expectNext hclose
    rw [List.length_cons]
    omega
  · obtain ⟨⟨es, mid⟩, hitems, h⟩ := bind_eq_ok_iff.mp h
    cases h
    have hitems := nodes_of_items hn hitems
    simp only [Expr.nodes, List.length_cons]
    omega
  · exact Nat.le_succ_of_le (nodes_of_conditional hn h)
  · exact Nat.le_succ_of_le (nodes_of_function hn h)
  · cases h
  · cases h

theorem nodes_of_extend (hn : Frugal nested) {suffix : Suffix} {left : Expr}
    (h : extend nested bound left suffix ts = .ok (e, rest)) :
    e.nodes + rest.length ≤ left.nodes + (ts.length + 1) := by
  cases suffix with
  | binary op =>
    obtain ⟨⟨right, mid⟩, hright, h⟩ := bind_eq_ok_iff.mp h
    cases h
    have hright := hn _ _ _ _ hright
    rw [Expr.nodes]
    omega
  | call =>
    obtain ⟨⟨args, mid⟩, hargs, h⟩ := bind_eq_ok_iff.mp h
    cases h
    have hargs := nodes_of_items hn hargs
    rw [Expr.nodes]
    omega
  | index =>
    obtain ⟨⟨position, mid⟩, hposition, h⟩ := bind_eq_ok_iff.mp h
    obtain ⟨left', hclose, h⟩ := bind_eq_ok_iff.mp h
    cases h
    have hposition := hn _ _ _ _ hposition
    have hclose := length_of_expectNext hclose
    rw [Expr.nodes]
    omega

theorem nodes_of_suffixes (hn : Frugal nested) {p : Precedence} {turns : Nat} {left : Expr}
    (h : suffixes nested p bound turns left ts = .ok (e, rest)) :
    e.nodes + rest.length ≤ left.nodes + ts.length := by
  fun_induction suffixes nested p bound turns left ts with
  | case1 | case2 | case3 | case5 =>
    cases h
    exact Nat.le_refl _
  | case4 turns left t ts suffix _ _ ih =>
    obtain ⟨⟨longer, mid⟩, hextend, h⟩ := bind_eq_ok_iff.mp h
    have hextend := nodes_of_extend hn hextend
    have hmore := ih longer mid h
    rw [List.length_cons]
    omega

theorem frugal_expr (depth : Nat) : Frugal (expr depth) := by
  induction depth with
  | zero =>
    intro p ts e rest h
    cases h
  | succ depth ih =>
    intro p ts e rest h
    obtain ⟨⟨left, mid⟩, hleft, h⟩ := bind_eq_ok_iff.mp h
    have hleft := nodes_of_operand ih hleft
    have hmore := nodes_of_suffixes ih h
    omega

theorem Exhausts.nodes_le (hn : Frugal nested) {p : Program} (h : Exhausts nested ts p) :
    Program.nodes p ≤ ts.length := by
  induction h with
  | done => exact Nat.le_refl _
  | next hfirst _ ih =>
    have hfirst := nodes_of_statement hn hfirst
    rw [Program.nodes]
    omega

end

end Parser

/-- A program is made of no more expressions than it has tokens. -/
theorem Program.nodes_le_of_ofTokens {ts : List Token} {p : Program} (h : Program.ofTokens ts = .ok p) :
    Program.nodes p ≤ ts.length := by
  obtain ⟨more, rfl, hexhausts⟩ := Parser.exhausts_of_statements (Parser.faithful_expr _) (Nat.le_refl _) h
  exact hexhausts.nodes_le (Parser.frugal_expr _)

namespace Window

/-! ### How much work reading is -/

/-- In how many expressions a part is. -/
def Part.depth {α : Type} : Part α → Nat
  | .program _ | .params _ => 0
  | .statement depth | .binding depth | .keywordOperand depth | .value depth | .expression depth _
  | .operand depth | .suffixes depth _ _ | .extend depth _ _ | .unary depth _ | .grouped depth
  | .conditional depth | .function depth | .items depth _ | .moreItems depth _ _ | .block depth
  | .moreStatements depth _ => depth

section

variable {α β : Type} {limit : Nat} {ts : List Token}

theorem Tracks.ends {R : β → α → List Token → Prop} {p : Option (Except ParseError α × Window)}
    {x : Except ParseError β} (h : Tracks limit R p x) :
    ∃ result w, p = some (result, w) ∧ Fair limit w.record := by
  cases h with
  | ok hr hR => exact ⟨_, _, rfl, hr⟩
  | error cause hr => exact ⟨_, _, rfl, hr⟩

/-- A part that succeeds has read what the parser reads. -/
theorem Tracks.exists_read {p : Option (Except ParseError α × Window)}
    {x : Except ParseError (Parser.Parsed α)} (h : Tracks limit (Reads ts) p x) {a : α} {w : Window}
    (hp : p = some (.ok a, w)) :
    ∃ last rest, x = .ok (a, rest) ∧ w.ahead = last :: rest ∧ w.ahead <:+ ts := by
  subst hp
  cases h with
  | ok hr hR =>
    obtain ⟨rfl, ⟨last, hlast⟩, hsuffix⟩ := hR
    exact ⟨last, _, rfl, hlast, hsuffix⟩

/-- Has the window come to the last of the tokens that say what `printed` says, with `rest` after it? A parser
that moves a window has to stop there, since its caller looks at the next token. -/
def LeftOnLast (ts rest printed : List Token) (w : Window) : Prop :=
  ∃ used last, ts = used ++ last :: rest ∧ w.ahead = last :: rest ∧ Parser.Rewords (used ++ [last]) printed

theorem leftOnLast {last : Token} {rest printed : List Token} {w : Window}
    (hahead : w.ahead = last :: rest) (hsuffix : w.ahead <:+ ts)
    (hconsumes : Parser.Consumes ts rest printed) : LeftOnLast ts rest printed w := by
  obtain ⟨used, rfl⟩ := hsuffix
  obtain ⟨said, hsaid, -, hwords⟩ := hconsumes
  rw [hahead, List.append_cons] at hsaid
  rw [← List.append_cancel_right hsaid] at hwords
  exact ⟨used, last, by rw [hahead], hahead, hwords⟩

/-- Before anything is read, there is room for everything. -/
theorem ready_start (depth : Nat) (ts : List Token) :
    Ready (ts.length + 1) (depth + ts.length + 1) depth ts :=
  ⟨Nat.lt_succ_self _, Nat.lt_succ_self _⟩

theorem fair_start (limit : Nat) : Fair limit {} :=
  ⟨Nat.zero_le _, fun _ h => absurd h List.not_mem_nil⟩

theorem program_reads (ts : List Token) :
    Tracks (ts.length + 1) (fun p q ahead => p = q ∧ ahead = []) ((Part.program []).read ⟨ts, {}⟩)
      (Program.ofTokens ts) := by
  have hready : Ready (ts.length + 1) (ts.length + 1) 0 ts := ⟨Nat.lt_succ_self _, by omega⟩
  exact program_tracks (nests_expr _ _) hready (Nat.le_refl _) (fair_start _)

/-- Every part comes to an end, started on whatever tokens, with a fair record. The depth of expressions is
bounded by the depth that it starts in and by the tokens. -/
theorem Part.ends (part : Part α) (ts : List Token) :
    ∃ result w, part.read ⟨ts, {}⟩ = some (result, w) ∧ Fair (part.depth + ts.length + 1) w.record := by
  have hn := nests_expr (ts.length + 1) (part.depth + ts.length + 1)
  have hready := ready_start part.depth ts
  have hafter : Ready (ts.length + 1) (part.depth + ts.length + 1) part.depth ts.tail :=
    hready.of_length (List.tail_suffix ts).length_le
  have hr := fair_start (part.depth + ts.length + 1)
  -- Each part has its lemma about what it comes to. Loops that have begun start from a token that was read
  -- before, so they need one.
  cases part with
  | program read => exact (program_tracks hn hready (Nat.le_refl _) hr).ends
  | statement => exact (statement_tracks hn hready hr).ends
  | binding => exact (binding_tracks hn hafter hr).ends
  | keywordOperand depth =>
    have h : Tracks _ _ (((Part.keywordOperand depth).read >>= fun e => pure (id e)) ⟨ts, {}⟩) _ :=
      keywordOperand_tracks hn hafter hr id
    simp only [id, bind_pure] at h
    exact h.ends
  | value => exact (value_tracks hn hready hr).ends
  | expression depth p => exact (hn hready hr).ends
  | operand => exact (operand_tracks hn hafter hr).ends
  | suffixes depth p left =>
    cases ts with
    | nil => exact ⟨.ok left, ⟨[], {}⟩, by rw [Part.read_eq, Part.step]; rfl, hr⟩
    | cons last ts => exact (suffixes_tracks hn p _ left hafter (Nat.le_refl _) hr).ends
  | extend depth left suffix => exact (extend_tracks hn left suffix hafter hr).ends
  | unary depth op => exact (unary_tracks hn op hafter hr).ends
  | grouped => exact (grouped_tracks hn hafter hr).ends
  | conditional => exact (conditional_tracks hn hafter hr).ends
  | function => exact (function_tracks hn hafter hr).ends
  | params read =>
    cases ts with
    | nil => exact ⟨.error .unexpectedEnd, ⟨[], {}⟩, by rw [Part.read_eq, Part.step]; rfl, hr⟩
    | cons last ts => exact (params_tracks read hr).ends
  | items depth close => exact (items_tracks hn close hafter hr).ends
  | moreItems depth close read =>
    cases ts with
    | nil => exact ⟨.error (.expectedNext close none), ⟨[], {}⟩, by rw [Part.read_eq, Part.step]; rfl, hr⟩
    | cons last ts => exact (moreItems_tracks hn hafter (Nat.le_refl _) hr).ends
  | block => exact (block_tracks hn hafter hr).ends
  | moreStatements depth read => exact (moreStatements_tracks hn hready (Nat.le_refl _) hr).ends

/-- Whatever the tokens, every part of the parser comes to an end, with no more expressions in progress at a time
than it is in, as many as there are tokens, and one more, and a token used up in every turn of a loop. A statement
or an expression leaves the window on the last token that it is made of, and a program is made of no more
expressions than there are tokens. -/
theorem reading_bounded (ts : List Token) :
    (∀ {α : Type} (part : Part α), ∃ result w, part.read ⟨ts, {}⟩ = some (result, w) ∧
      w.record.deepest ≤ part.depth + ts.length + 1 ∧ ∀ turn ∈ w.record.turns, turn.after < turn.before) ∧
    (∀ depth s w, (Part.statement depth).read ⟨ts, {}⟩ = some (.ok s, w) → w.ahead.length ≤ ts.length ∧
      ∃ rest, Parser.statement (Parser.expr (ts.length + 1)) ts = .ok (s, rest) ∧
        LeftOnLast ts rest s.tokens w) ∧
    (∀ depth p e w, (Part.expression depth p).read ⟨ts, {}⟩ = some (.ok e, w) → w.ahead.length ≤ ts.length ∧
      ∃ rest, Parser.expr (ts.length + 1) p ts = .ok (e, rest) ∧ LeftOnLast ts rest e.tokens w) ∧
    ∃ w, (Part.program []).read ⟨ts, {}⟩ = some (Program.ofTokens ts, w) ∧
      ∀ p, Program.ofTokens ts = .ok p → Program.nodes p ≤ ts.length := by
  have hfaithful := Parser.faithful_expr (ts.length + 1)
  refine ⟨?ends, ?statement, ?expression, ?program⟩
  case ends =>
    intro α part
    obtain ⟨result, w, hread, hfair⟩ := part.ends ts
    exact ⟨result, w, hread, hfair.deepest, hfair.turns⟩
  case statement =>
    intro depth s w hread
    have hn := nests_expr (ts.length + 1) (depth + ts.length + 1)
    obtain ⟨last, rest, hparse, hahead, hsuffix⟩ :=
      (statement_tracks hn (ready_start depth ts) (fair_start _)).exists_read hread
    exact ⟨hsuffix.length_le, rest, hparse,
      leftOnLast hahead hsuffix (Parser.consumes_of_statement hfaithful hparse)⟩
  case expression =>
    intro depth p e w hread
    have hn := nests_expr (ts.length + 1) (depth + ts.length + 1)
    obtain ⟨last, rest, hparse, hahead, hsuffix⟩ :=
      (hn (ready_start depth ts) (fair_start _)).exists_read hread
    exact ⟨hsuffix.length_le, rest, hparse, leftOnLast hahead hsuffix (hfaithful _ _ _ _ hparse)⟩
  case program =>
    have hread := program_reads ts
    refine (?_ : ∃ w, (Part.program []).read ⟨ts, {}⟩ = some (Program.ofTokens ts, w)).imp
      fun w hw => ⟨hw, fun p hp => Program.nodes_le_of_ofTokens hp⟩
    generalize (Part.program []).read ⟨ts, {}⟩ = result at hread ⊢
    generalize Program.ofTokens ts = parsed at hread ⊢
    cases hread with
    | ok hr hp =>
      obtain ⟨rfl, rfl⟩ := hp
      exact ⟨_, rfl⟩
    | error cause hr => exact ⟨_, rfl⟩

/-- Signs that stand before nothing nest as deep as expressions can. -/
theorem deepest_minuses (n depth : Nat) (p : Precedence) (r : WorkRecord) :
    (Part.expression depth p).read ⟨List.replicate n (.symbol .minus), r⟩ =
      some (.error .unexpectedEnd, ⟨[], { r with deepest := max r.deepest (depth + n + 1) }⟩) := by
  induction n generalizing depth p r with
  | zero =>
    rw [Part.read_eq, Part.step, nests_bind, bind_eq, Part.read_eq, Part.step]
    rfl
  | succ n ih =>
    rw [Part.read_eq, Part.step, nests_bind, bind_eq]
    have hoperand : (Part.operand (depth + 1)).read ⟨List.replicate (n + 1) (.symbol .minus),
        { r with deepest := max r.deepest (depth + 1) }⟩ =
          ((Part.expression (depth + 1) .unary).read >>= fun e => pure (Expr.unary .negate e))
            ⟨List.replicate n (.symbol .minus), { r with deepest := max r.deepest (depth + 1) }⟩ := by
      rw [Part.read_eq, Part.step, List.replicate_succ, current_bind_cons]
      show (Part.unary (depth + 1) .negate).read _ = _
      rw [Part.read_eq, Part.step]
      rfl
    have hdeepest : max (max r.deepest (depth + 1)) (depth + 1 + n + 1) =
        max r.deepest (depth + (n + 1) + 1) := by omega
    rw [hoperand, bind_eq, ih, ← hdeepest]
    rfl

end

end Window

end Notebook
