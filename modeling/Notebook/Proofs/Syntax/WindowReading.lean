import Notebook.Proofs.Syntax.TokenWindow

/-!
Reading through a window as the parser reads.

A part of the parser that moves a window comes to what the parser makes of the same tokens: to the same result,
with the window on the last token that the parser has used, or to the same error.

* `Window.Tracks`: how the result of a part relates to that of the parser. `Tracks.bind` and `Tracks.andThen` put
  together what is read one after the other, so each part has a lemma that follows its steps.
* `Window.Nests`: reading expressions, for tokens that are fewer than some number. The other parts are shown
  under this assumption, and the number grows by one when they are put together (`Window.nests_expr`).
* `Window.Ready`: what a part needs for it: tokens that are few enough, and room for expressions to nest. It is
  handed on to whatever is read next, since tokens only get fewer.
* `Window.Fair`: on the way every turn of a loop uses up a token, and expressions do not nest deeper than there
  is room for.
-/

namespace Notebook.Window

/-! ### What the parts come to -/

/-- Has every turn of a loop used up a token, and has no expression nested deeper than `limit`? -/
structure Fair (limit : Nat) (r : WorkRecord) : Prop where
  deepest : r.deepest ≤ limit
  turns : ∀ turn ∈ r.turns, turn.after < turn.before

/-- A part comes to an end, with a fair record, and to what the parser comes to: to something related, or to the
same error. Where the window is after an error does not matter. -/
inductive Tracks {α β : Type} (limit : Nat) (R : β → α → List Token → Prop) :
    Option (Except ParseError α × Window) → Except ParseError β → Prop where
  | ok {x : β} {a : α} {ts : List Token} {r : WorkRecord} :
      Fair limit r → R x a ts → Tracks limit R (some (.ok a, ⟨ts, r⟩)) (.ok x)
  | error {ts : List Token} {r : WorkRecord} (cause : ParseError) :
      Fair limit r → Tracks limit R (some (.error cause, ⟨ts, r⟩)) (.error cause)

/-- Has the window come from the tokens `start` to the one right before `rest`? -/
def Stops (start rest ahead : List Token) : Prop :=
  (∃ last, ahead = last :: rest) ∧ ahead <:+ start

/-- What was read is what the parser makes of the tokens from `start` on, and the window is on the last token
that the parser has used. -/
def Reads {α : Type} (start : List Token) (x : Parser.Parsed α) (a : α) (ahead : List Token) : Prop :=
  x.1 = a ∧ Stops start x.2 ahead

section

variable {α β γ δ : Type} {limit : Nat} {start mid ts : List Token} {r : WorkRecord}

theorem Tracks.bind {R : β → α → List Token → Prop} {T : δ → γ → List Token → Prop} {m : Reading α}
    {next : α → Reading γ} {w : Window} {x : Except ParseError β} {f : β → Except ParseError δ}
    (h : Tracks limit R (m w) x)
    (hnext : ∀ y a ts r, Fair limit r → R y a ts → Tracks limit T (next a ⟨ts, r⟩) (f y)) :
    Tracks limit T ((m >>= next) w) (x >>= f) := by
  rw [bind_eq]
  generalize m w = p at h ⊢
  cases h with
  | ok hr hR => exact hnext _ _ _ _ hr hR
  | error cause hr => exact .error cause hr

/-- Reading one thing and then what comes after it. -/
theorem Tracks.andThen {m : Reading α} {next : α → Reading γ} {x : Except ParseError (Parser.Parsed α)}
    {f : Parser.Parsed α → Except ParseError (Parser.Parsed γ)}
    (h : Tracks limit (Reads mid) (m ⟨ts, r⟩) x) (hmid : mid <:+ start)
    (hnext : ∀ a last rest r, Fair limit r → last :: rest <:+ start →
      Tracks limit (Reads start) (next a ⟨last :: rest, r⟩) (f (a, rest))) :
    Tracks limit (Reads start) ((m >>= next) ⟨ts, r⟩) (x >>= f) := by
  refine h.bind ?_
  rintro ⟨a, rest⟩ - ts r hr ⟨rfl, ⟨last, rfl⟩, hsuffix⟩
  exact hnext a last rest r hr (hsuffix.trans hmid)

theorem Tracks.mono {R T : β → α → List Token → Prop} {p : Option (Except ParseError α × Window)}
    {x : Except ParseError β} (h : Tracks limit R p x) (himp : ∀ x a ahead, R x a ahead → T x a ahead) :
    Tracks limit T p x := by
  cases h with
  | ok hr hR => exact .ok hr (himp _ _ _ hR)
  | error cause hr => exact .error cause hr

theorem Tracks.of_suffix {p : Option (Except ParseError α × Window)}
    {x : Except ParseError (Parser.Parsed α)} (h : Tracks limit (Reads ts) p x) (hts : ts <:+ start) :
    Tracks limit (Reads start) p x :=
  h.mono fun _ _ _ ⟨hread, hlast, hsuffix⟩ => ⟨hread, hlast, hsuffix.trans hts⟩

theorem Tracks.read {a : α} (hr : Fair limit r) (hstart : last :: rest <:+ start) :
    Tracks limit (Reads start) (some (.ok a, ⟨last :: rest, r⟩)) (.ok (a, rest)) :=
  .ok hr ⟨rfl, ⟨last, rfl⟩, hstart⟩

end

/-- Are there fewer than `n` tokens, and room for as many nested expressions? -/
structure Ready (n limit depth : Nat) (ts : List Token) : Prop where
  fits : ts.length < n
  room : depth + ts.length < limit

/-- Does reading expressions come to what `nested` comes to, as far as there are fewer than `n` tokens? This is
shown by induction on `n`, and all other parts rest on it. -/
def Nests (nested : Parser.Nested) (n limit : Nat) : Prop :=
  ∀ ⦃depth p ts r⦄, Ready n limit depth ts → Fair limit r →
    Tracks limit (Reads ts) ((Part.expression depth p).read ⟨ts, r⟩) (nested p ts)

theorem Ready.of_length {n limit depth : Nat} {ts rest : List Token} (h : Ready n limit depth ts)
    (hle : rest.length ≤ ts.length) : Ready n limit depth rest :=
  ⟨Nat.lt_of_le_of_lt hle h.fits, Nat.lt_of_le_of_lt (Nat.add_le_add_left hle depth) h.room⟩

/-- What comes after a token of a window is no more than what came after its first one. -/
theorem Ready.after {n limit depth : Nat} {last : Token} {ts rest : List Token}
    (h : Ready n limit depth ts.tail) (hsuffix : last :: rest <:+ ts) : Ready n limit depth rest := by
  have hle := hsuffix.length_le
  rw [List.length_cons] at hle
  refine h.of_length ?_
  rw [List.length_tail]
  omega

theorem Fair.turned {limit before : Nat} {r : WorkRecord} (h : Fair limit r) (loop : Loop) {after : Nat}
    (hlt : after < before) : Fair limit { r with turns := ⟨loop, before, after⟩ :: r.turns } :=
  ⟨h.deepest, List.forall_mem_cons.mpr ⟨hlt, h.turns⟩⟩

theorem Fair.nests {limit depth : Nat} {r : WorkRecord} (h : Fair limit r) (hdepth : depth ≤ limit) :
    Fair limit { r with deepest := max r.deepest depth } :=
  ⟨Nat.max_le.mpr ⟨h.deepest, hdepth⟩, h.turns⟩

/-! ### Punctuation -/

section

variable {α β : Type} {limit : Nat} {start ts rest : List Token} {r : WorkRecord} {t last : Token}

/-- A token that has to be there, and what comes after it. -/
theorem Tracks.expect {s : Symbol} {next : Unit → Reading α}
    {f : List Token → Except ParseError (Parser.Parsed α)} (hr : Fair limit r) (hstart : ts <:+ start)
    (hnext : ∀ rest, .symbol s :: rest <:+ start →
      Tracks limit (Reads start) (next () ⟨.symbol s :: rest, r⟩) (f rest)) :
    Tracks limit (Reads start) ((expectNext s >>= next) ⟨ts, r⟩)
      (Parser.expectNext s ts.tail >>= f) := by
  -- The parser takes the token off the list, and the window moves onto it.
  by_cases hhead : ts.tail.head? = some (.symbol s)
  · obtain ⟨rest, htail⟩ := List.head?_eq_some_iff.mp hhead
    have hstep : expectNext s ⟨ts, r⟩ = some (.ok (), ⟨.symbol s :: rest, r⟩) := by
      rw [expectNext, next?_bind, hhead]
      simp only [if_true]
      rw [← htail]
      rfl
    have hmodel : Parser.expectNext s ts.tail = .ok rest := by
      rw [htail, Parser.expectNext, if_pos rfl]
    rw [bind_of_ok hstep, hmodel]
    exact hnext rest (htail ▸ (List.tail_suffix ts).trans hstart)
  · have hmodel : Parser.expectNext s ts.tail = .error (.expectedNext s ts.tail.head?) := by
      cases htail : ts.tail with
      | nil => rfl
      | cons t rest =>
        rw [htail] at hhead
        rw [Parser.expectNext, if_neg (fun ht => hhead (congrArg some ht))]
        rfl
    rw [bind_eq, expectNext_of_ne hhead, hmodel]
    exact .error _ hr

/-- Whether there is a semicolon or not, the window is before what the parser goes on with. -/
theorem skipSemicolon_tracks (a : α) (hr : Fair limit r) (hstart : last :: ts <:+ start) :
    Tracks limit (Reads start) ((skipSemicolon >>= fun _ => pure a) ⟨last :: ts, r⟩)
      (.ok (a, Parser.skipSemicolon ts)) := by
  unfold Parser.skipSemicolon
  split
  · exact .read hr ((List.suffix_cons _ _).trans hstart)
  · rename_i hts
    have hstay : skipSemicolon ⟨last :: ts, r⟩ = some (.ok (), ⟨last :: ts, r⟩) := by
      show (if decide (ts.head? = some (.symbol .semicolon)) = true then advance else pure ()) _ = _
      rw [decide_eq_false (head?_ne_of_forall hts)]
      rfl
    rw [bind_of_ok hstay]
    exact .read hr hstart

end

/-! ### Statements -/

section

variable {α : Type} {nested : Parser.Nested} {n limit depth bound : Nat} {start ts rest : List Token}
  {r : WorkRecord} {t last : Token}

/-- No expression starts where no token is left. -/
theorem Nests.nil (hn : Nests nested n limit) (hready : Ready n limit depth []) (hr : Fair limit r)
    (p : Precedence) : nested p [] = .error .unexpectedEnd := by
  have h := hn (p := p) hready hr
  rw [Part.read_eq, Part.step, nests_bind, bind_eq, Part.read_eq, Part.step] at h
  generalize nested p [] = x at h
  cases h
  rfl

/-- An expression, and a semicolon that may be left out. -/
theorem terminated_tracks (hn : Nests nested n limit) (hready : Ready n limit depth ts)
    (hr : Fair limit r) (hts : ts <:+ start) (make : Expr → α) :
    Tracks limit (Reads start)
      (((Part.expression depth .lowest).read >>= fun e => skipSemicolon >>= fun _ => pure (make e)) ⟨ts, r⟩)
      (nested .lowest ts >>= fun (e, rest) => .ok (make e, Parser.skipSemicolon rest)) := by
  refine (hn hready hr).andThen hts ?_
  rintro value last rest r hr hsuffix
  exact skipSemicolon_tracks _ hr hsuffix

theorem binding_tracks (hn : Nests nested n limit) (hready : Ready n limit depth ts.tail)
    (hr : Fair limit r) :
    Tracks limit (Reads ts) ((Part.binding depth).read ⟨ts, r⟩) (Parser.binding nested ts.tail) := by
  rw [Part.read_eq, Part.step, advance_bind]
  cases htail : ts.tail with
  | nil => exact .error _ hr
  | cons t rest =>
    cases t with
    | ident name =>
      refine .expect hr (htail ▸ List.tail_suffix ts) ?_
      rintro rest hsuffix
      rw [advance_bind]
      exact terminated_tracks hn (hready.after hsuffix) hr ((List.suffix_cons _ _).trans hsuffix) _
    | _ => exact .error _ hr

theorem value_tracks (hn : Nests nested n limit) (hready : Ready n limit depth ts) (hr : Fair limit r) :
    Tracks limit (Reads ts) ((Part.value depth).read ⟨ts, r⟩)
      (nested .lowest ts >>= fun (e, rest) => .ok (.expr e, Parser.skipSemicolon rest)) := by
  rw [Part.read_eq, Part.step]
  exact terminated_tracks hn hready hr (List.suffix_refl _) _

/-- A keyword, and what it takes. -/
theorem keywordOperand_tracks (hn : Nests nested n limit) (hready : Ready n limit depth ts.tail)
    (hr : Fair limit r) (make : Expr → α) :
    Tracks limit (Reads ts) (((Part.keywordOperand depth).read >>= fun e => pure (make e)) ⟨ts, r⟩)
      (nested .lowest ts.tail >>= fun (e, rest) => .ok (make e, Parser.skipSemicolon rest)) := by
  rw [Part.read_eq, Part.step]
  simp only [bind_assoc, pure_bind]
  exact terminated_tracks hn hready hr (List.tail_suffix ts) make

/-- A statement, told by its first token as the parser tells it. -/
theorem statement_tracks (hn : Nests nested n limit) (hready : Ready n limit depth ts)
    (hr : Fair limit r) :
    Tracks limit (Reads ts) ((Part.statement depth).read ⟨ts, r⟩) (Parser.statement nested ts) := by
  rw [Part.read_eq, Part.step]
  cases ts with
  | nil =>
    have hmodel : Parser.statement nested [] = .error .unexpectedEnd := by
      show nested .lowest [] >>= _ = _
      rw [hn.nil hready hr]
      rfl
    rw [hmodel]
    exact .error _ hr
  | cons t ts =>
    have hready' : Ready n limit depth ts := hready.of_length (Nat.le_succ _)
    rw [current_bind_cons]
    cases t with
    | ident | int | str | illegal => exact value_tracks hn hready hr
    | symbol s =>
      cases s with
      | semicolon => exact .read hr (List.suffix_refl _)
      | _ => exact value_tracks hn hready hr
    | keyword k =>
      cases k with
      | letBinding => exact binding_tracks hn hready' hr
      | returnValue => exact keywordOperand_tracks hn hready' hr Stmt.ret
      | throwValue => exact keywordOperand_tracks hn hready' hr Stmt.throw
      | _ => exact value_tracks hn hready hr

theorem moreStatements_tracks (hn : Nests nested n limit) {read : List Stmt} (hready : Ready n limit depth ts)
    (hbound : ts.length ≤ bound) (hr : Fair limit r) :
    Tracks limit (Reads ts) ((Part.moreStatements depth read).read ⟨ts, r⟩)
      (Parser.block nested bound read ts) := by
  fun_induction Parser.block nested bound read ts generalizing r with
  | case1 bound read =>
    rw [Part.read_eq, Part.step]
    exact .error _ hr
  | case2 bound read rest =>
    rw [Part.read_eq, Part.step]
    exact .read hr (List.suffix_refl _)
  | case3 read ts hts => exact absurd (List.eq_nil_of_length_eq_zero (Nat.le_zero.mp hbound)) hts
  | case4 bound read ts hts hbrace ih =>
    obtain ⟨t, ts, rfl⟩ := List.exists_cons_of_ne_nil hts
    have ht : t ≠ .symbol .rightBrace := by
      rintro rfl
      exact hbrace ts rfl
    rw [Part.read_eq, Part.step, remaining_bind, current?_bind]
    simp only [List.head?_cons, if_neg ht]
    refine (statement_tracks hn hready hr).andThen (List.suffix_refl _) ?_
    rintro s last rest r hr hsuffix
    rw [advance_bind, turned_bind]
    have hlt : rest.length < (t :: ts).length := hsuffix.length_le
    have hready := hready.of_length (Nat.le_of_lt hlt)
    exact (ih s rest hready (by omega) (hr.turned .block hlt)).of_suffix ((List.suffix_cons _ _).trans hsuffix)

theorem block_tracks (hn : Nests nested n limit) (hready : Ready n limit depth ts.tail) (hr : Fair limit r) :
    Tracks limit (Reads ts) ((Part.block depth).read ⟨ts, r⟩) (Parser.block nested n [] ts.tail) := by
  rw [Part.read_eq, Part.step, advance_bind]
  exact (moreStatements_tracks hn hready (Nat.le_of_lt hready.fits) hr).of_suffix (List.tail_suffix ts)

/-! ### Lists -/

theorem separator_of_ne (hcomma : ts.head? ≠ some (.symbol .comma))
    (hparen : ts.head? ≠ some (.symbol .rightParen)) :
    separator ⟨last :: ts, r⟩ = some (.error (.expectedNext .comma ts.head?), ⟨last :: ts, r⟩) := by
  show (if decide (ts.head? = some (.symbol .rightParen)) = true then pure () else expectNext .comma) _ = _
  rw [decide_eq_false hparen]
  exact expectNext_of_ne hcomma

theorem params_tracks (read : List String) (hr : Fair limit r) :
    Tracks limit (fun x names ahead => x.1 = names ∧ Stops (last :: ts) (.symbol .rightParen :: x.2) ahead)
      ((Part.params read).read ⟨last :: ts, r⟩) (Parser.params read ts) := by
  -- By the recursion of the parser, one turn of which is one turn of the loop.
  fun_induction Parser.params read ts generalizing last r with
  | case1 read =>
    rw [Part.read_eq, Part.step]
    exact .error _ hr
  | case2 read rest =>
    rw [Part.read_eq, Part.step]
    exact .ok hr ⟨rfl, ⟨last, rfl⟩, List.suffix_refl _⟩
  | case3 read name rest ih =>
    rw [Part.read_eq, Part.step]
    have hlt : (Token.symbol .comma :: rest).length < (last :: .ident name :: .symbol .comma :: rest).length :=
      Nat.lt_succ_of_lt (Nat.lt_succ_self _)
    refine (ih (hr.turned .params hlt)).mono ?_
    rintro _ _ _ ⟨hnames, hlast, hsuffix⟩
    exact ⟨hnames, hlast, hsuffix.trans ((List.suffix_cons _ _).trans (List.suffix_cons _ _))⟩
  | case4 read name rest =>
    rw [Part.read_eq, Part.step]
    have hlt : (Token.ident name :: .symbol .rightParen :: rest).length <
        (last :: .ident name :: .symbol .rightParen :: rest).length := Nat.lt_succ_self _
    show Tracks limit _ ((Part.params (name :: read)).read ⟨.ident name :: .symbol .rightParen :: rest, _⟩) _
    rw [Part.read_eq, Part.step]
    exact .ok (hr.turned .params hlt) ⟨rfl, ⟨_, rfl⟩, List.suffix_cons _ _⟩
  | case5 read name rest hcomma hparen =>
    have hstep : (Part.params read).read ⟨last :: .ident name :: rest, r⟩ =
        (separator >>= fun _ => turned .params (last :: .ident name :: rest).length >>= fun _ =>
          (Part.params (name :: read)).read) ⟨.ident name :: rest, r⟩ := by
      rw [Part.read_eq, Part.step]
      rfl
    rw [hstep, bind_eq, separator_of_ne (head?_ne_of_forall hcomma) (head?_ne_of_forall hparen)]
    exact .error _ hr
  | case6 read t rest hparen _ _ hident =>
    rw [Part.read_eq, Part.step, remaining_bind, nextIs_bind, decide_eq_false]
    · cases t with
      | ident name => exact absurd rfl (hident name)
      | _ => exact .error _ hr
    · exact fun hhead => hparen (Option.some.inj hhead)

theorem moreItems_tracks (hn : Nests nested n limit) {close : Symbol} {read : List Expr}
    (hready : Ready n limit depth ts) (hbound : ts.length ≤ bound) (hr : Fair limit r) :
    Tracks limit (Reads (last :: ts)) ((Part.moreItems depth close read).read ⟨last :: ts, r⟩)
      (Parser.moreItems nested close bound read ts) := by
  fun_induction Parser.moreItems nested close bound read ts generalizing last r with
  | case1 bound read ts ih =>
    have hstart : ts <:+ last :: .symbol .comma :: ts := (List.suffix_cons _ _).trans (List.suffix_cons _ _)
    rw [List.length_cons] at hbound
    rw [Part.read_eq, Part.step]
    refine (hn (hready.of_length (Nat.le_succ _)) hr).bind ?_
    rintro ⟨e, rest⟩ - - r hr ⟨rfl, ⟨last', rfl⟩, hsuffix⟩
    have hlt : rest.length < ts.length := hsuffix.length_le
    rw [turned_bind]
    refine (ih e rest ?_ (by omega) (hr.turned .items ?_)).of_suffix (hsuffix.trans hstart)
    · exact hready.of_length (Nat.le_succ_of_le (Nat.le_of_lt hlt))
    · simp only [List.length_cons]
      omega
  | case2 bound read ts hcomma =>
    have hnext : ts.head? ≠ some (.symbol .comma) := by
      refine head?_ne_of_forall ?_
      rintro rest rfl
      obtain ⟨bound, rfl⟩ := Nat.exists_eq_succ_of_ne_zero
        (Nat.ne_of_gt (Nat.lt_of_lt_of_le (Nat.succ_pos _) hbound))
      exact hcomma bound rest rfl rfl
    rw [Part.read_eq, Part.step, remaining_bind, nextIs_bind, List.tail_cons, decide_eq_false hnext]
    refine .expect hr (List.suffix_refl _) ?_
    rintro rest hsuffix
    exact .read hr hsuffix

theorem items_tracks (hn : Nests nested n limit) (close : Symbol) (hready : Ready n limit depth ts.tail)
    (hr : Fair limit r) :
    Tracks limit (Reads ts) ((Part.items depth close).read ⟨ts, r⟩) (Parser.items nested close n ts.tail) := by
  rw [Part.read_eq, Part.step, nextIs_bind, Parser.items]
  by_cases hhead : ts.tail.head? = some (.symbol close)
  · obtain ⟨rest, htail⟩ := List.head?_eq_some_iff.mp hhead
    rw [decide_eq_true hhead, if_pos rfl, if_pos hhead, advance_bind, htail]
    exact .read hr (htail ▸ List.tail_suffix ts)
  · rw [decide_eq_false hhead, if_neg Bool.false_ne_true, if_neg hhead, advance_bind]
    refine (hn hready hr).andThen (List.tail_suffix ts) ?_
    rintro e last rest r hr hsuffix
    have hready := hready.after hsuffix
    exact (moreItems_tracks hn hready (Nat.le_of_lt hready.fits) hr).of_suffix hsuffix

/-! ### Expressions -/

theorem unary_tracks (hn : Nests nested n limit) (op : UnaryOp) (hready : Ready n limit depth ts.tail)
    (hr : Fair limit r) :
    Tracks limit (Reads ts) ((Part.unary depth op).read ⟨ts, r⟩)
      (nested .unary ts.tail >>= fun (e, rest) => .ok (.unary op e, rest)) := by
  rw [Part.read_eq, Part.step, advance_bind]
  refine (hn hready hr).andThen (List.tail_suffix ts) ?_
  rintro e last rest r hr hsuffix
  exact .read hr hsuffix

/-- An expression, and a token that has to close it. -/
theorem closed_tracks (hn : Nests nested n limit) (close : Symbol) (hready : Ready n limit depth ts.tail)
    (hr : Fair limit r) (make : Expr → Expr) :
    Tracks limit (Reads ts)
      ((advance >>= fun _ => (Part.expression depth .lowest).read >>= fun e => expectNext close >>= fun _ =>
        pure (make e)) ⟨ts, r⟩)
      (nested .lowest ts.tail >>= fun (e, rest) => Parser.expectNext close rest >>= fun rest =>
        .ok (make e, rest)) := by
  rw [advance_bind]
  refine (hn hready hr).andThen (List.tail_suffix ts) ?_
  rintro e last rest r hr hsuffix
  refine .expect hr hsuffix ?_
  rintro rest hsuffix
  exact .read hr hsuffix

theorem grouped_tracks (hn : Nests nested n limit) (hready : Ready n limit depth ts.tail)
    (hr : Fair limit r) :
    Tracks limit (Reads ts) ((Part.grouped depth).read ⟨ts, r⟩)
      (nested .lowest ts.tail >>= fun (e, rest) => Parser.expectNext .rightParen rest >>= fun rest =>
        .ok (e, rest)) := by
  rw [Part.read_eq, Part.step]
  exact closed_tracks hn .rightParen hready hr id

theorem conditional_tracks (hn : Nests nested n limit) (hready : Ready n limit depth ts.tail)
    (hr : Fair limit r) :
    Tracks limit (Reads ts) ((Part.conditional depth).read ⟨ts, r⟩) (Parser.conditional nested n ts.tail) := by
  rw [Part.read_eq, Part.step, Parser.conditional]
  refine .expect hr (List.suffix_refl _) ?_
  rintro ts₁ hsuffix
  rw [advance_bind]
  refine (hn (hready.after hsuffix) hr).andThen ((List.suffix_cons _ _).trans hsuffix) ?_
  rintro condition last ts₂ r hr hsuffix
  refine .expect hr hsuffix ?_
  rintro ts₃ hsuffix
  refine .expect hr hsuffix ?_
  rintro ts₄ hsuffix
  refine (block_tracks hn (hready.after hsuffix) hr).andThen hsuffix ?_
  rintro consequence last ts₅ r hr hsuffix
  rw [nextIs_bind, List.tail_cons]
  by_cases hhead : ts₅.head? = some (.keyword .elseBranch)
  · obtain ⟨ts₆, rfl⟩ := List.head?_eq_some_iff.mp hhead
    rw [decide_eq_true hhead, if_pos rfl, advance_bind]
    refine .expect hr ((List.suffix_cons _ _).trans hsuffix) ?_
    rintro ts₇ hsuffix
    refine (block_tracks hn (hready.after hsuffix) hr).andThen hsuffix ?_
    rintro alternative last rest r hr hsuffix
    exact .read hr hsuffix
  · rw [decide_eq_false hhead, if_neg Bool.false_ne_true]
    simp only
    split
    · exact absurd rfl hhead
    · exact .read hr hsuffix

theorem function_tracks (hn : Nests nested n limit) (hready : Ready n limit depth ts.tail)
    (hr : Fair limit r) :
    Tracks limit (Reads ts) ((Part.function depth).read ⟨ts, r⟩) (Parser.function nested n ts.tail) := by
  rw [Part.read_eq, Part.step, Parser.function]
  refine .expect hr (List.suffix_refl _) ?_
  rintro ts₁ hsuffix
  refine (params_tracks [] hr).bind ?_
  rintro ⟨names, ts₂⟩ - - r hr ⟨rfl, ⟨last, rfl⟩, hparams⟩
  have hsuffix := (List.suffix_cons _ _).trans (hparams.trans hsuffix)
  refine .expect hr hsuffix ?_
  rintro ts₃ hsuffix
  refine (block_tracks hn (hready.after hsuffix) hr).andThen hsuffix ?_
  rintro body last rest r hr hsuffix
  exact .read hr hsuffix

theorem operand_tracks (hn : Nests nested n limit) (hready : Ready n limit depth ts.tail)
    (hr : Fair limit r) :
    Tracks limit (Reads ts) ((Part.operand depth).read ⟨ts, r⟩) (Parser.operand nested n ts) := by
  rw [Part.read_eq, Part.step]
  cases ts with
  | nil => exact .error _ hr
  | cons t ts =>
  rw [current_bind_cons]
  cases t with
  | ident name => exact .read hr (List.suffix_refl _)
  | int digits =>
    rw [Parser.operand]
    dsimp only
    generalize Parser.integer digits = value
    cases value with
    | ok value => exact .read hr (List.suffix_refl _)
    | error cause => exact .error cause hr
  | str text => exact .read hr (List.suffix_refl _)
  | illegal text => exact .error _ hr
  | symbol s =>
    cases s with
    | bang => exact unary_tracks hn .not hready hr
    | minus => exact unary_tracks hn .negate hready hr
    | leftParen => exact grouped_tracks hn hready hr
    | leftBracket =>
      refine (items_tracks hn .rightBracket hready hr).andThen (List.suffix_refl _) ?_
      rintro es last rest r hr hsuffix
      exact .read hr hsuffix
    | _ => exact .error _ hr
  | keyword k =>
    cases k with
    | trueLiteral | falseLiteral | nullLiteral => exact .read hr (List.suffix_refl _)
    | ifBranch => exact conditional_tracks hn hready hr
    | function => exact function_tracks hn hready hr
    | _ => exact .error _ hr

theorem extend_tracks (hn : Nests nested n limit) (left : Expr) (suffix : Suffix)
    (hready : Ready n limit depth ts.tail) (hr : Fair limit r) :
    Tracks limit (Reads ts) ((Part.extend depth left suffix).read ⟨ts, r⟩)
      (Parser.extend nested n left suffix ts.tail) := by
  cases suffix with
  | binary op =>
    rw [Part.read_eq, Part.step, advance_bind]
    refine (hn hready hr).andThen (List.tail_suffix ts) ?_
    rintro right last rest r hr hsuffix
    exact .read hr hsuffix
  | call =>
    rw [Part.read_eq, Part.step]
    refine (items_tracks hn .rightParen hready hr).andThen (List.suffix_refl _) ?_
    rintro args last rest r hr hsuffix
    exact .read hr hsuffix
  | index =>
    rw [Part.read_eq, Part.step]
    exact closed_tracks hn .rightBracket hready hr (.index left)

theorem suffixes_tracks (hn : Nests nested n limit) (p : Precedence) (turns : Nat) (left : Expr)
    (hready : Ready n limit depth ts) (hturns : ts.length ≤ turns) (hr : Fair limit r) :
    Tracks limit (Reads (last :: ts)) ((Part.suffixes depth p left).read ⟨last :: ts, r⟩)
      (Parser.suffixes nested p n turns left ts) := by
  fun_induction Parser.suffixes nested p n turns left ts generalizing last r with
  | case1 turns left =>
    rw [Part.read_eq, Part.step]
    exact .read hr (List.suffix_refl _)
  | case2 left ts hts => exact absurd (List.eq_nil_of_length_eq_zero (Nat.le_zero.mp hturns)) hts
  | case3 turns left t ts hnone =>
    rw [Part.read_eq, Part.step, remaining_bind, next?_bind]
    simp only [List.tail_cons, List.head?_cons, Option.bind_some, hnone]
    exact .read hr (List.suffix_refl _)
  | case4 turns left t ts suffix hsome hrank ih =>
    rw [Part.read_eq, Part.step, remaining_bind, next?_bind]
    simp only [List.tail_cons, List.head?_cons, Option.bind_some, hsome, if_pos hrank]
    rw [List.length_cons] at hturns
    rw [advance_bind]
    refine (extend_tracks hn left suffix (hready.of_length (Nat.le_succ _)) hr).bind ?_
    rintro ⟨longer, rest⟩ - - r hr ⟨rfl, ⟨last', rfl⟩, hsuffix⟩
    have hle : rest.length ≤ ts.length := Nat.le_of_succ_le_succ hsuffix.length_le
    rw [turned_bind]
    refine (ih longer rest ?_ (by omega) (hr.turned .suffixes ?_)).of_suffix
      (hsuffix.trans (List.suffix_cons _ _))
    · exact hready.of_length (Nat.le_succ_of_le hle)
    · simp only [List.length_cons]
      omega
  | case5 turns left t ts suffix hsome hrank =>
    rw [Part.read_eq, Part.step, remaining_bind, next?_bind]
    simp only [List.tail_cons, List.head?_cons, Option.bind_some, hsome, if_neg hrank]
    exact .read hr (List.suffix_refl _)

/-- Expressions nest as deep as there are tokens, and not deeper. Induction on the number of tokens, since
within an expression there is one token less. -/
theorem nests_expr (n limit : Nat) : Nests (Parser.expr n) n limit := by
  induction n with
  | zero =>
    intro depth p ts r hready
    exact absurd hready.fits (Nat.not_lt_zero _)
  | succ n ih =>
    intro depth p ts r hready hr
    have hfits := hready.fits
    have hroom := hready.room
    rw [Part.read_eq, Part.step, nests_bind]
    have hdepth : depth + 1 ≤ limit := by omega
    have hr := hr.nests hdepth
    cases ts with
    | nil =>
      rw [Part.read_eq, Part.step]
      exact .error _ hr
    | cons t ts =>
      rw [List.length_cons] at hfits hroom
      have hready : Ready n limit (depth + 1) ts := ⟨by omega, by omega⟩
      refine (operand_tracks ih hready hr).andThen (List.suffix_refl _) ?_
      rintro left last rest r hr hsuffix
      have hready := hready.after hsuffix
      exact (suffixes_tracks ih p n left hready (Nat.le_of_lt hready.fits) hr).of_suffix hsuffix

/-! ### Programs -/

theorem program_tracks (hn : Nests nested n limit) {read : List Stmt} (hready : Ready n limit 0 ts)
    (hbound : ts.length ≤ bound) (hr : Fair limit r) :
    Tracks limit (fun p q ahead => p = q ∧ ahead = []) ((Part.program read).read ⟨ts, r⟩)
      (Parser.statements nested bound read ts) := by
  fun_induction Parser.statements nested bound read ts generalizing r with
  | case1 bound read =>
    rw [Part.read_eq, Part.step]
    exact .ok hr ⟨rfl, rfl⟩
  | case2 read ts hts => exact absurd (List.eq_nil_of_length_eq_zero (Nat.le_zero.mp hbound)) hts
  | case3 bound read ts hts ih =>
    obtain ⟨t, ts, rfl⟩ := List.exists_cons_of_ne_nil hts
    rw [Part.read_eq, Part.step, remaining_bind, current?_bind, List.head?_cons]
    refine (statement_tracks hn hready hr).bind ?_
    rintro ⟨s, rest⟩ - - r hr ⟨rfl, ⟨last, rfl⟩, hsuffix⟩
    rw [advance_bind, turned_bind]
    have hlt : rest.length < (t :: ts).length := hsuffix.length_le
    exact ih s rest (hready.of_length (Nat.le_of_lt hlt)) (by omega) (hr.turned .program hlt)

end

end Notebook.Window
