import Notebook.Proofs.Renderer.BodyTemplates

/-!
Names in place of placeholders.

A body is filled in as a text, and read afterwards. It would be hygienic to read it first and to put the
name where the placeholders are among its tokens (`Template.substitute`). That comes to the same in some
bodies, and not in all of them.

* `Template.Hygienic`: no placeholder is written in a string or next to a word, and the body does not end
  with a comment.
* `Template.ofSource_functionSource_iff`: the bodies that are hygienic are the ones for which the function
  literal has the tokens of the body, with the parameter in place of the placeholders.
* `Template.filled_string`: a placeholder in a string is one of the others.
-/

namespace Notebook

open Token (Scanned)

/-! ### Filling in -/

namespace Template

/-- A text is walked through placeholder by placeholder, and character by character between them. -/
@[elab_as_elim]
theorem fill_induction {motive : List Char → Prop} (nil : motive [])
    (place : ∀ after, motive after → motive (placeholder ++ after))
    (cons : ∀ c cs, (∀ after, c :: cs ≠ placeholder ++ after) → motive cs → motive (c :: cs))
    (cs : List Char) : motive cs := by
  induction hn : cs.length using Nat.strongRecOn generalizing cs with
  | ind n ih =>
    by_cases hplace : ∃ after, cs = placeholder ++ after
    · obtain ⟨after, rfl⟩ := hplace
      refine place after (ih _ ?_ after rfl)
      simp only [placeholder, List.length_append, List.length_cons] at hn
      omega
    · cases cs with
      | nil => exact nil
      | cons c cs => exact cons c cs (not_exists.mp hplace) (ih _ (hn ▸ Nat.lt_succ_self _) cs rfl)

/-- A placeholder begins with no other character than its own. -/
theorem ne_placeholder {c : Char} (h : c ≠ '$') (cs after : List Char) :
    c :: cs ≠ placeholder ++ after := by
  intro hsame
  exact h (List.cons.inj hsame).1

/-- A part without the first character of a placeholder stays as it is. -/
theorem fill_append_of_notMem (name : List Char) {cs : List Char} (h : '$' ∉ cs) (x : List Char) :
    fill name (cs ++ x) = cs ++ fill name x := by
  refine fill_append name fun before mid after hcs hmid => ?_
  cases mid with
  | nil => exact absurd rfl hmid
  | cons c mid =>
    refine ne_placeholder (fun hc => h ?_) _ after
    rw [hcs, ← hc]
    exact List.mem_append_right _ List.mem_cons_self

/-- What is on both sides of a character that is none of a placeholder is filled in apart, since no placeholder
reaches over it. -/
theorem fill_append_cons (name : List Char) {c : Char} (hc : c ∉ placeholder) (cs x : List Char) :
    fill name (cs ++ c :: x) = fill name cs ++ c :: fill name x := by
  have hdollar : c ≠ '$' := fun h => hc (h ▸ by decide)
  induction cs using fill_induction with
  | nil => exact fill_cons (ne_placeholder hdollar x)
  | place after ih =>
    rw [List.append_assoc, fill_placeholder, fill_placeholder, ih, List.append_assoc]
  | cons d cs h ih =>
    rw [List.cons_append, fill_cons h, fill_cons, ih, List.cons_append]
    intro after hsame
    -- The placeholder would end before `c`, or `c` would be one of its characters.
    match cs, hsame with
    | [], hsame =>
      injection hsame with _ hsame
      injection hsame with hi
      exact hc (hi ▸ by decide)
    | [_], hsame =>
      injection hsame with _ hsame
      injection hsame with _ hsame
      injection hsame with ht
      exact hc (ht ▸ by decide)
    | e :: f :: cs, hsame =>
      injection hsame with hd hsame
      injection hsame with he hsame
      injection hsame with hf _
      exact h cs (by rw [hd, he, hf]; rfl)

variable {name : String}

/-- A name is some characters of a word. -/
theorem exists_chars (hname : Token.isName name = true) : ∃ c word, name.toList = c :: word ∧
    name = String.ofList (c :: word) ∧ Token.startsWord c = true ∧
      (∀ d ∈ word, Token.continuesWord d = true) ∧ Token.ofWord name = .ident name := by
  obtain ⟨c, word, rfl, hc, hword, hnone⟩ := Token.isName_iff.mp hname
  exact ⟨c, word, String.toList_ofList, rfl, hc, hword, by rw [Token.ofWord, hnone]⟩

/-- Filling in changes a text with placeholders. -/
theorem fill_eq_iff (hname : Token.isName name = true) {cs : List Char} :
    fill name.toList cs = cs ↔ ¬ placeholder <:+: cs := by
  obtain ⟨c, word, hchars, -, hc, -⟩ := exists_chars hname
  induction cs using fill_induction with
  | nil => exact ⟨fun _ => by decide, fun _ => rfl⟩
  | place after =>
    rw [fill_placeholder]
    constructor
    · intro hsame
      rw [hchars] at hsame
      obtain ⟨rfl, -⟩ := List.cons.inj hsame
      cases hc
    · exact fun h => absurd (List.prefix_append _ _).isInfix h
  | cons d cs h ih =>
    rw [fill_cons h, List.cons.injEq, ih, List.infix_cons_iff]
    constructor
    · rintro ⟨-, hcs⟩ (⟨after, hplace⟩ | hplace)
      · exact h after hplace.symm
      · exact hcs hplace
    · exact fun hplace => ⟨rfl, fun hcs => hplace (.inr hcs)⟩

end Template

/-! ### Strings -/

namespace Token

section

variable {c : Char} {text body : List Char}

/-- A character that no escape stands for is written as it is. -/
theorem Quotes.exists_body (h : Quotes (c :: text) body) (hc : ∀ e, unescape? e ≠ some c) :
    ∃ more, body = c :: more ∧ Quotes text more := by
  cases h with
  | plain hquote hslash hmore => exact ⟨_, rfl, hmore⟩
  | escaped hmeant hmore => exact absurd hmeant (hc _)

/-- What is written without a backslash means itself. -/
theorem Quotes.exists_text (h : Quotes text (c :: body)) (hc : c ≠ '\\') :
    ∃ more, text = c :: more ∧ Quotes more body := by
  cases h with
  | plain hquote hslash hmore => exact ⟨_, rfl, hmore⟩
  | escaped hmeant hmore => exact absurd rfl hc

theorem Quotes.append_plain {word : List Char} (hword : ∀ d ∈ word, continuesWord d = true)
    (h : Quotes text body) : Quotes (word ++ text) (word ++ body) := by
  induction word with
  | nil => exact h
  | cons d word ih =>
    obtain ⟨hd, hword⟩ := List.forall_mem_cons.mp hword
    refine .plain ?_ ?_ (ih hword)
    · rintro rfl
      cases hd
    · rintro rfl
      cases hd

theorem unescape?_ne (e : Char) {c : Char} (hc : c ∈ Template.placeholder) : unescape? e ≠ some c := by
  unfold unescape?
  split <;> rintro h <;> cases h <;> revert hc <;> decide

/-- Filling in a string as it is written is filling in its text. No character of a name or of a placeholder
needs an escape. -/
theorem Quotes.fill {name : String} (hname : isName name = true) (h : Quotes text body) :
    Quotes (Template.fill name.toList text) (Template.fill name.toList body) := by
  obtain ⟨c, word, hchars, -, hc, hword, -⟩ := Template.exists_chars hname
  have hname : ∀ d ∈ name.toList, continuesWord d = true :=
    hchars ▸ List.forall_mem_cons.mpr ⟨continuesWord_of_startsWord hc, hword⟩
  induction text using Template.fill_induction generalizing body with
  | nil =>
    cases h
    exact .nil
  -- No character of a placeholder has an escape, so it is written as it is, and so is the name.
  | place after ih =>
    obtain ⟨_, rfl, h₁⟩ := h.exists_body fun e => unescape?_ne e (by decide)
    obtain ⟨_, rfl, h₂⟩ := h₁.exists_body fun e => unescape?_ne e (by decide)
    obtain ⟨body, rfl, h₃⟩ := h₂.exists_body fun e => unescape?_ne e (by decide)
    have hbody := Template.fill_placeholder name.toList body
    rw [Template.fill_placeholder, show '$' :: 'i' :: 't' :: body = Template.placeholder ++ body from rfl,
      hbody]
    exact (ih h₃).append_plain hname
  | cons d text hplace ih =>
    rw [Template.fill_cons hplace]
    cases h with
    | @plain _ _ body hquote hslash h =>
      rw [Template.fill_cons]
      · exact .plain hquote hslash (ih h)
      · intro after hsame
        injection hsame with hd hsame
        obtain rfl : body = 'i' :: 't' :: after := hsame
        obtain ⟨_, rfl, h₁⟩ := h.exists_text (by decide)
        obtain ⟨more, rfl, -⟩ := h₁.exists_text (by decide)
        exact hplace more (by rw [hd]; rfl)
    | @escaped e _ _ body hmeant h =>
      have he : e ≠ '$' := by
        rintro rfl
        cases hmeant
      rw [Template.fill_cons (Template.ne_placeholder (by decide) _),
        Template.fill_cons (Template.ne_placeholder he _)]
      exact .escaped hmeant (ih h)

end

end Token

/-! ### Comments -/

namespace Template

/-- Does a text run out in a comment before a token begins? With `inComment` it starts in one. -/
def runsOut : Bool → List Char → Bool
  | inComment, [] => inComment
  | true, c :: rest => runsOut (c != '\n') rest
  | false, c :: rest =>
    if c = '/' ∧ rest.head? = some '/' then runsOut true rest else Text.isBlank c && runsOut false rest

theorem runsOut_cons {c : Char} {cs : List Char} (hslash : ∀ rest, c = '/' → cs = '/' :: rest → False) :
    runsOut false (c :: cs) = (Text.isBlank c && runsOut false cs) := by
  rw [runsOut, if_neg]
  rintro ⟨hc, hcs⟩
  obtain ⟨rest, hrest⟩ := List.head?_eq_some_iff.mp hcs
  exact hslash rest hc hrest

theorem runsOut_of_skipTrivia {inComment : Bool} {cs rest : List Char} {c : Char}
    (h : Token.skipTrivia inComment cs = c :: rest) : runsOut inComment cs = false := by
  fun_induction Token.skipTrivia inComment cs with
  | case1 => cases h
  | case2 d cs ih => exact ih h
  | case3 cs ih => exact ih h
  | case4 d cs hslash hblank ih => rw [runsOut_cons hslash, ih h, Bool.and_false]
  | case5 d cs hslash hblank =>
    rw [runsOut_cons hslash, Bool.eq_false_iff.mpr hblank, Bool.false_and]

/-- Trivia are skipped where they would be skipped if nothing had been filled in. -/
theorem skipTrivia_fill {name : String} (hname : Token.isName name = true) (inComment : Bool)
    (cs x : List Char) : Token.skipTrivia inComment (fill name.toList cs ++ x) =
      Token.skipTrivia (runsOut inComment cs)
        (fill name.toList (Token.skipTrivia inComment cs) ++ x) := by
  have hline : '\n' ∉ name.toList := by
    obtain ⟨c, word, hchars, -, hc, hword, -⟩ := exists_chars hname
    rw [hchars]
    intro hmem
    have hword := (List.forall_mem_cons (p := fun d => Token.continuesWord d = true)).mpr
      ⟨Token.continuesWord_of_startsWord hc, hword⟩ _ hmem
    cases hword
  fun_induction Token.skipTrivia inComment cs with
  | case1 inComment => cases inComment <;> rfl
  | case2 d cs ih =>
    refine Eq.trans ?_ ih
    by_cases hplace : ∃ after, d :: cs = placeholder ++ after
    · obtain ⟨after, hsame⟩ := hplace
      rw [hsame, fill_placeholder, List.append_assoc, Token.skipTrivia_comment hline]
      injection hsame with hd hcs
      have hplain : '$' ∉ ['i', 't'] := by decide
      have hword : '\n' ∉ ['i', 't'] := by decide
      have hfill : fill name.toList cs = ['i', 't'] ++ fill name.toList after :=
        hcs ▸ fill_append_of_notMem name.toList hplain after
      rw [hfill, hd, List.append_assoc]
      exact (Token.skipTrivia_comment hword _).symm
    · rw [fill_cons (not_exists.mp hplace)]
      rfl
  | case3 cs ih =>
    rw [fill_cons (ne_placeholder (by decide) _), fill_cons (ne_placeholder (by decide) _)]
    exact ih
  | case4 d cs hslash hblank ih =>
    have hd : d ≠ '$' := by
      rintro rfl
      cases hblank
    rw [fill_cons (ne_placeholder hd cs), List.cons_append, Token.skipTrivia_blank hblank, ih,
      runsOut_cons hslash, hblank, Bool.true_and]
  | case5 d cs hslash hblank =>
    rw [runsOut_cons hslash, Bool.eq_false_iff.mpr hblank, Bool.false_and]

/-! ### Hygiene -/

/-- Some tokens with a name in place of the placeholders. A placeholder is two tokens, of which the first
one is illegal. -/
def substitute (name : String) : List Token → List Token
  | [] => []
  | [t] => [t]
  | t :: next :: rest =>
    if t = .illegal "$" ∧ next = .ident "it" then .ident name :: substitute name rest
    else t :: substitute name (next :: rest)

/-- Does a token keep clear of placeholders, with such a text after it? No placeholder is written in a
string, none comes right after a word, and no placeholder is gone on with. -/
def Apart : Token → List Char → Prop
  | .str text, _ => ¬ placeholder <:+: text.toList
  | .ident _, rest | .keyword _, rest => ¬ placeholder <+: rest
  | .illegal _, rest => ∀ c ∈ (rest.drop 2).head?, Token.continuesWord c = false
  | .int _, _ | .symbol _, _ => True

/-- Do the tokens of a text keep clear of its placeholders? Nor does the text end with a comment. -/
structure Hygienic (cs : List Char) : Prop where
  apart : ∀ reading ∈ Token.readings cs, Apart reading.token reading.rest
  closed : ∀ rest ∈ cs :: (Token.readings cs).map Token.Reading.rest, runsOut false rest = false

/-- Is every token of a text legal, but for those that placeholders begin with? -/
def Placed (cs : List Char) : Prop :=
  ∀ reading ∈ Token.readings cs, reading.token.isLegal = false →
    reading.token = .illegal "$" ∧ ['i', 't'] <+: reading.rest

section

variable {cs rest : List Char} {t : Token}

theorem substitute_cons (name : String) {t : Token} {ts : List Token}
    (h : t = .illegal "$" → ts.head? ≠ some (.ident "it")) :
    substitute name (t :: ts) = t :: substitute name ts := by
  cases ts with
  | nil => rfl
  | cons next rest =>
    rw [substitute, if_neg]
    rintro ⟨ht, rfl⟩
    exact h ht rfl

theorem hygienic_of_none (h : Token.next? cs = none) : Hygienic cs ↔ runsOut false cs = false := by
  constructor
  · exact fun hcs => hcs.closed cs List.mem_cons_self
  · intro hcs
    constructor <;> rw [Token.readings, Token.readingsBy_of_none h]
    · exact fun reading hreading => absurd hreading List.not_mem_nil
    · exact List.forall_mem_singleton.mpr hcs

theorem hygienic_of_next? (h : Token.next? cs = some (t, rest)) :
    Hygienic cs ↔ Apart t rest ∧ Hygienic rest := by
  have hreadings : Token.readings cs = ⟨Token.skipTrivia false cs, t, rest⟩ :: Token.readings rest :=
    Token.readingsBy_of_some h
  constructor
  · rintro ⟨hapart, hclosed⟩
    rw [hreadings] at hapart hclosed
    obtain ⟨hfirst, hlater⟩ := List.forall_mem_cons.mp hapart
    exact ⟨hfirst, hlater, (List.forall_mem_cons.mp hclosed).2⟩
  · rintro ⟨hfirst, hlater, hclosed⟩
    constructor <;> rw [hreadings]
    · exact List.forall_mem_cons.mpr ⟨hfirst, hlater⟩
    · refine List.forall_mem_cons.mpr ⟨?_, hclosed⟩
      unfold Token.next? at h
      split at h
      · cases h
      · exact runsOut_of_skipTrivia ‹_›

theorem placed_of_next? (h : Token.next? cs = some (t, rest)) (hcs : Placed cs) :
    (t.isLegal = false → t = .illegal "$" ∧ ['i', 't'] <+: rest) ∧ Placed rest := by
  unfold Placed at hcs
  rw [Token.readings, Token.readingsBy_of_some h] at hcs
  exact List.forall_mem_cons.mp hcs

/-- The word of a placeholder is read if nothing goes on with it. -/
theorem next?_it {after : List Char} (hends : ∀ c ∈ after.head?, Token.continuesWord c = false) :
    Token.next? (['i', 't'] ++ after) = some (.ident "it", after) := by
  have hword : ∀ d ∈ ['t'], Token.continuesWord d = true := List.forall_mem_singleton.mpr rfl
  exact Token.next?_word rfl hword hends

/-- Then the name is put in place of the placeholder. -/
theorem substitute_of_ends (name : String) {after : List Char}
    (hends : ∀ c ∈ after.head?, Token.continuesWord c = false) :
    substitute name (.illegal "$" :: Token.ofChars (['i', 't'] ++ after)) =
      .ident name :: substitute name (Token.ofChars after) := by
  rw [Token.ofChars_of_next? (next?_it hends), substitute, if_pos ⟨rfl, rfl⟩]

/-- If something goes on with the word, another one is read, and the sign before it stays. -/
theorem substitute_of_goesOn (name : String) {c : Char} (hc : Token.continuesWord c = true)
    (tail : List Char) : ∃ ts, substitute name (.illegal "$" :: Token.ofChars (['i', 't'] ++ c :: tail)) =
      .illegal "$" :: ts := by
  have hword : ∀ d ∈ ['t'], Token.continuesWord d = true := List.forall_mem_singleton.mpr rfl
  have hstarts : Token.startsWord 'i' = true := rfl
  obtain ⟨longer, rest, hnext, hne⟩ := Token.next?_word_longer (x := tail) hstarts hword hc
  have hread : Token.ofChars (['i', 't'] ++ c :: tail) = Token.ofWord longer :: Token.ofChars rest :=
    Token.ofChars_of_next? hnext
  refine ⟨_, substitute_cons name fun _ h => ?_⟩
  rw [hread] at h
  exact hne (Token.ofWord_inj (Option.some.inj h))

theorem dollar_notMem_word {c : Char} {word : List Char} (hc : Token.startsWord c = true)
    (hword : ∀ d ∈ word, Token.continuesWord d = true) : '$' ∉ c :: word := by
  rintro (_ | ⟨_, hmem⟩)
  · cases hc
  · cases hword _ hmem

/-- A string and what follows it are filled in apart. -/
theorem fill_string (name body rest : List Char) : fill name ('"' :: (body ++ '"' :: rest)) =
    '"' :: (fill name body ++ '"' :: fill name rest) := by
  rw [fill_cons (ne_placeholder (by decide) _), fill_append_cons name (by decide)]

theorem apart_ofWord (word : String) : Apart (Token.ofWord word) rest ↔ ¬ placeholder <+: rest := by
  unfold Token.ofWord
  split <;> rfl

end

/-! ### Reading what was filled in -/

section

variable {name : String} (hname : Token.isName name = true) {cs rest : List Char} {t : Token}

include hname

/-- What comes first when names are filled in: what came first before, a blank, or a name. -/
theorem head_fill (cs more : List Char) : ∀ d ∈ (fill name.toList cs ++ ' ' :: more).head?,
    cs.head? = some d ∨ d = ' ' ∨ placeholder <+: cs ∧ Token.startsWord d = true := by
  intro d hd
  obtain ⟨c, word, hchars, -, hc, -⟩ := exists_chars hname
  by_cases hplace : ∃ after, cs = placeholder ++ after
  · obtain ⟨after, rfl⟩ := hplace
    rw [fill_placeholder, hchars] at hd
    cases hd
    exact .inr (.inr ⟨List.prefix_append _ _, hc⟩)
  · rw [List.head?_append, head?_fill (not_exists.mp hplace)] at hd
    cases cs with
    | nil =>
      cases hd
      exact .inr (.inl rfl)
    | cons e cs => exact .inl hd

theorem apart_string {text : List Char} :
    Apart (.str (String.ofList text)) rest ↔ fill name.toList text = text := by
  rw [fill_eq_iff hname, Apart, String.toList_ofList]

/-- A token that keeps clear of placeholders is read where they are filled in. -/
theorem next?_fill (h : Scanned cs t rest) (hlegal : t.isLegal = true) (hapart : Apart t rest)
    (more : List Char) : Token.next? (fill name.toList cs ++ ' ' :: more) =
      some (t, fill name.toList rest ++ ' ' :: more) := by
  have hhead := head_fill hname rest more
  -- Placeholders can only stand behind these tokens, or in a string, which keeps clear of them.
  cases h with
  | @symbol s rest ends =>
    have hplain : '$' ∉ s.spelling.toList := by cases s <;> decide
    rw [fill_append_of_notMem _ hplain, List.append_assoc]
    refine Token.next?_symbol_of_ends s fun d hd => ?_
    rcases hhead d hd with hsame | rfl | ⟨-, hword⟩
    · exact ends d hsame
    · cases s <;> rfl
    · unfold Symbol.goesOn
      split <;> first | rfl | cases hword
  | @number c digits rest first next ends =>
    have hall := (List.forall_mem_cons (p := fun d => Char.isDigit d = true)).mpr ⟨first, next⟩
    have hplain : '$' ∉ c :: digits := fun hmem => by cases hall _ hmem
    rw [fill_append_of_notMem _ hplain, List.append_assoc]
    refine Token.next?_number first next fun d hd => ?_
    rcases hhead d hd with hsame | rfl | ⟨-, hword⟩
    · exact ends d hsame
    · rfl
    · exact Token.not_isDigit_of_startsWord hword
  | @word c word rest first next ends =>
    rw [fill_append_of_notMem _ (dollar_notMem_word first next), List.append_assoc]
    refine Token.next?_word first next fun d hd => ?_
    rcases hhead d hd with hsame | rfl | ⟨hplace, -⟩
    · exact ends d hsame
    · rfl
    · exact absurd hplace ((apart_ofWord _).mp hapart)
  | @string text body rest quotes =>
    have hnext := Token.next?_string (quotes.fill hname) (fill name.toList rest ++ ' ' :: more)
    rw [(apart_string hname).mp hapart] at hnext
    rw [fill_string, List.cons_append, List.append_assoc]
    exact hnext
  | broken => cases hlegal
  | other => cases hlegal

/-- A token that does not keep clear of placeholders is not read where they are filled in: its text is another
one, or what follows becomes part of it. -/
theorem next?_fill_ne (h : Scanned cs t rest) (hlegal : t.isLegal = true) (hapart : ¬ Apart t rest)
    (more : List Char) : ∃ other later, Token.next? (fill name.toList cs ++ ' ' :: more) =
      some (other, later) ∧ other ≠ t := by
  cases h with
  | symbol => exact absurd trivial hapart
  | number => exact absurd trivial hapart
  | @word c word rest first next ends =>
    rw [apart_ofWord, not_not] at hapart
    obtain ⟨after, rfl⟩ := hapart
    obtain ⟨d, tail, hchars, -, hd, -⟩ := exists_chars hname
    obtain ⟨longer, later, hnext, hlonger⟩ :=
      Token.next?_word_longer first next (x := tail ++ fill name.toList after ++ ' ' :: more)
        (Token.continuesWord_of_startsWord hd)
    refine ⟨_, later, ?_, fun hsame => hlonger (Token.ofWord_inj hsame)⟩
    rw [fill_append_of_notMem _ (dollar_notMem_word first next), fill_placeholder]
    simpa [hchars] using hnext
  | @string text body rest quotes =>
    have hnext := Token.next?_string (quotes.fill hname) (fill name.toList rest ++ ' ' :: more)
    rw [fill_string, List.cons_append, List.append_assoc]
    refine ⟨_, _, hnext, fun hsame => hapart ((apart_string hname).mpr ?_)⟩
    exact String.ofList_injective (Token.str.inj hsame)
  | broken => cases hlegal
  | other => cases hlegal

/-- A placeholder is read as the name, unless it is gone on with. -/
theorem next?_fill_placeholder {after : List Char} (hapart : ¬ placeholder <+: after)
    (hends : ∀ c ∈ after.head?, Token.continuesWord c = false) (more : List Char) :
    Token.next? (fill name.toList (placeholder ++ after) ++ ' ' :: more) =
      some (.ident name, fill name.toList after ++ ' ' :: more) := by
  rw [fill_placeholder, List.append_assoc]
  refine Token.next?_name hname fun d hd => ?_
  rcases head_fill hname after more d hd with hsame | rfl | ⟨hplace, -⟩
  · exact hends d hsame
  · rfl
  · exact absurd hplace hapart

/-- If it is gone on with, by a word or by another placeholder, then it is read as another word. -/
theorem next?_fill_placeholder_ne {after : List Char}
    (h : placeholder <+: after ∨ ∃ c ∈ after.head?, Token.continuesWord c = true) (more : List Char) :
    ∃ longer rest, Token.next? (fill name.toList (placeholder ++ after) ++ ' ' :: more) =
      some (Token.ofWord longer, rest) ∧ Token.ofWord longer ≠ .ident name := by
  obtain ⟨c, word, hchars, hsame, hc, hword, hname'⟩ := exists_chars hname
  obtain ⟨d, tail, hfill, hd⟩ : ∃ d tail, fill name.toList after = d :: tail ∧
      Token.continuesWord d = true := by
    rcases h with ⟨after, rfl⟩ | ⟨d, hd, hcontinues⟩
    · exact ⟨c, word ++ fill name.toList after, by rw [fill_placeholder, hchars]; rfl,
        Token.continuesWord_of_startsWord hc⟩
    · obtain ⟨tail, rfl⟩ := List.head?_eq_some_iff.mp hd
      refine ⟨d, fill name.toList tail, fill_cons (ne_placeholder ?_ tail), hcontinues⟩
      rintro rfl
      cases hcontinues
  obtain ⟨longer, rest, hnext, hlonger⟩ := Token.next?_word_longer hc hword hd (x := tail ++ ' ' :: more)
  refine ⟨longer, rest, ?_, fun hword => hlonger (hsame ▸ Token.ofWord_inj (hword.trans hname'.symm))⟩
  rw [fill_placeholder, hfill, hchars]
  simpa using hnext

/-- Only what is left when trivia are skipped is read, where names are filled in. -/
theorem ofChars_fill_skip {start : List Char} (h : Token.skipTrivia false cs = start)
    (hstart : start ≠ []) (x : List Char) :
    Token.ofChars (fill name.toList cs ++ x) = Token.ofChars (fill name.toList start ++ x) := by
  obtain ⟨c, tail, rfl⟩ := List.exists_cons_of_ne_nil hstart
  refine Token.ofChars_congr ?_
  rw [skipTrivia_fill hname, runsOut_of_skipTrivia h, h]

end

/-- Is it the same to fill in a name and read what there is then, up to the brace that closes a function
literal, as to read first and put the name in place of the placeholders? The first is what a renderer's snippet
does, the second is what its author has in mind. -/
def Commutes (name : String) (cs : List Char) : Prop :=
  Token.ofChars (fill name.toList cs ++ [' ', '\x7d']) =
    substitute name (Token.ofChars cs) ++ [.symbol .rightBrace]

section

variable {name : String} (hname : Token.isName name = true) {cs rest : List Char} {t : Token}

include hname

/-- A text that is trivia only must not run out in a comment. -/
theorem commutes_iff_of_none (h : Token.next? cs = none) : Commutes name cs ↔ Hygienic cs := by
  have hskip := Token.next?_eq_none_iff.mp h
  have hnone : Token.ofChars cs = [] := by rw [Token.ofChars_eq, h]
  have hnil : Token.ofChars [] = [] := by
    rw [Token.ofChars_eq]
    rfl
  have hfill := skipTrivia_fill hname false cs [' ', '\x7d']
  rw [hskip] at hfill
  rw [hygienic_of_none h, Commutes, hnone]
  cases hout : runsOut false cs with
  | false =>
    rw [hout] at hfill
    have hclose : Token.ofChars (fill name.toList cs ++ [' ', '\x7d']) = [.symbol .rightBrace] := by
      rw [Token.ofChars_congr hfill]
      show Token.ofChars [' ', '\x7d'] = _
      rw [Token.ofChars_blank rfl, Token.ofChars_symbol rfl rfl (by decide), hnil]
    rw [hclose]
    exact ⟨fun _ => rfl, fun _ => rfl⟩
  | true =>
    rw [hout] at hfill
    have hopen : Token.ofChars (fill name.toList cs ++ [' ', '\x7d']) = [] :=
      (Token.ofChars_congr hfill).trans hnil
    simp [hopen, substitute]

/-- Where a text begins with a legal token, the token has to keep clear of placeholders. -/
theorem commutes_iff_of_legal (hnext : Token.next? cs = some (t, rest)) (hlegal : t.isLegal = true) :
    Commutes name cs ↔ Apart t rest ∧ Commutes name rest := by
  have hscanned := Token.scanned_of_next? hnext
  have hstart : Token.skipTrivia false cs ≠ [] := by
    rw [Ne, ← Token.next?_eq_none_iff, hnext]
    exact Option.some_ne_none _
  have hillegal : t ≠ .illegal "$" := by
    rintro rfl
    cases hlegal
  unfold Commutes
  rw [ofChars_fill_skip hname rfl hstart, Token.ofChars_of_next? hnext,
    substitute_cons name fun h => absurd h hillegal, List.cons_append]
  by_cases hapart : Apart t rest
  · rw [Token.ofChars_of_next? (next?_fill hname hscanned hlegal hapart ['\x7d']), List.cons.injEq]
    exact ⟨fun ⟨_, h⟩ => ⟨hapart, h⟩, fun ⟨_, h⟩ => ⟨rfl, h⟩⟩
  · obtain ⟨other, later, hother, hne⟩ := next?_fill_ne hname hscanned hlegal hapart ['\x7d']
    rw [Token.ofChars_of_next? hother]
    exact ⟨fun h => absurd (List.cons.inj h).1 hne, fun ⟨h, _⟩ => absurd h hapart⟩

/-- Where a text begins with a placeholder, nothing must go on with it. -/
theorem commutes_iff_of_placeholder {after : List Char}
    (hskip : Token.skipTrivia false cs = placeholder ++ after) : Commutes name cs ↔
      (∀ c ∈ after.head?, Token.continuesWord c = false) ∧ ¬ placeholder <+: after ∧
        Commutes name after := by
  have hread : Token.ofChars cs = .illegal "$" :: Token.ofChars (['i', 't'] ++ after) := by
    refine Token.ofChars_of_next? ?_
    unfold Token.next?
    rw [hskip]
    rfl
  have hfill := ofChars_fill_skip hname hskip (List.cons_ne_nil _ _) [' ', '\x7d']
  unfold Commutes
  rw [hfill, hread]
  -- What reading first makes of the placeholder is known. What filling in makes of it depends on the next
  -- character.
  by_cases hends : ∀ c ∈ after.head?, Token.continuesWord c = false
  · rw [substitute_of_ends name hends, List.cons_append]
    by_cases hplace : placeholder <+: after
    · obtain ⟨longer, rest, hlonger, hne⟩ := next?_fill_placeholder_ne hname (.inl hplace) ['\x7d']
      rw [Token.ofChars_of_next? hlonger]
      exact ⟨fun h => absurd (List.cons.inj h).1 hne, fun ⟨_, h, _⟩ => absurd hplace h⟩
    · rw [Token.ofChars_of_next? (next?_fill_placeholder hname hplace hends ['\x7d']), List.cons.injEq]
      exact ⟨fun ⟨_, h⟩ => ⟨hends, hplace, h⟩, fun ⟨_, _, h⟩ => ⟨rfl, h⟩⟩
  · -- The word is none of a placeholder: the sign before it stays, but a word is read in its place.
    obtain ⟨c, hc, hcontinues⟩ : ∃ c ∈ after.head?, Token.continuesWord c = true := by
      simpa using hends
    obtain ⟨longer, rest, hlonger, -⟩ :=
      next?_fill_placeholder_ne hname (.inr ⟨c, hc, hcontinues⟩) ['\x7d']
    obtain ⟨tail, rfl⟩ := List.head?_eq_some_iff.mp hc
    obtain ⟨ts, hstays⟩ := substitute_of_goesOn name hcontinues tail
    rw [Token.ofChars_of_next? hlonger, hstays, List.cons_append]
    exact ⟨fun h => absurd (List.cons.inj h).1 (Token.ofWord_ne_illegal _ _),
      fun ⟨h, _⟩ => absurd h hends⟩

/-- In a text with placeholders and no other illegal tokens, filling in a name commutes with reading just
if the text is hygienic. -/
theorem commutes_iff (hcs : Placed cs) : Commutes name cs ↔ Hygienic cs := by
  induction hn : cs.length using Nat.strongRecOn generalizing cs with
  | ind n ih =>
    cases hnext : Token.next? cs with
    | none => exact commutes_iff_of_none hname hnext
    | some read =>
      obtain ⟨t, rest⟩ := read
      obtain ⟨hfirst, hrest⟩ := placed_of_next? hnext hcs
      have hlength := Token.length_lt_of_next? hnext
      rw [hygienic_of_next? hnext]
      by_cases hlegal : t.isLegal = true
      · rw [commutes_iff_of_legal hname hnext hlegal, ih _ (hn ▸ hlength) hrest rfl]
      · obtain ⟨rfl, after, rfl⟩ := hfirst (Bool.eq_false_iff.mpr hlegal)
        rw [commutes_iff_of_placeholder hname (Token.scanned_of_next? hnext).eq_of_dollar]
        by_cases hends : ∀ c ∈ after.head?, Token.continuesWord c = false
        · have hit := next?_it hends
          have hafter := Nat.lt_trans (Token.length_lt_of_next? hit) hlength
          rw [hygienic_of_next? hit, ih _ (hn ▸ hafter) (placed_of_next? hit hrest).2 rfl]
          rfl
        · exact ⟨fun ⟨h, _⟩ => absurd h hends, fun ⟨h, _⟩ => absurd h hends⟩

end

instance (t : Token) (rest : List Char) : Decidable (Apart t rest) :=
  match t with
  | .str text => inferInstanceAs (Decidable (¬ placeholder <:+: text.toList))
  | .ident _ | .keyword _ => inferInstanceAs (Decidable (¬ placeholder <+: rest))
  | .illegal _ => decidable_of_iff _ (noneContinues_iff (rest.drop 2).head?)
  | .int _ | .symbol _ => inferInstanceAs (Decidable True)

instance (cs : List Char) : Decidable (Hygienic cs) :=
  decidable_of_iff ((∀ reading ∈ Token.readings cs, Apart reading.token reading.rest) ∧
      ∀ rest ∈ cs :: (Token.readings cs).map Token.Reading.rest, runsOut false rest = false)
    ⟨fun h => ⟨h.1, h.2⟩, fun h => ⟨h.apart, h.closed⟩⟩

instance (cs : List Char) : Decidable (Placed cs) :=
  inferInstanceAs (Decidable (∀ reading ∈ Token.readings cs, reading.token.isLegal = false →
    reading.token = .illegal "$" ∧ ['i', 't'] <+: reading.rest))

/-! ### Function literals -/

/-- A body whose illegal tokens are those that its placeholders begin with. The function literal that is
made of it, with any name for the parameter, has the tokens of the body between its braces, with the
parameter in place of the placeholders, just if the body is hygienic: no placeholder is written in a string,
right after a word, or with a character of a word right after it, and the body does not end with a comment
that nothing closes. -/
theorem ofSource_functionSource_iff {body parameter : String} (hbody : Placed body.toList)
    (hparameter : Token.isName parameter = true) :
    Token.ofSource (functionSource body parameter) = Parser.opening parameter ++
        (substitute parameter (Token.ofSource body) ++ [.symbol .rightBrace]) ↔
      Hygienic body.toList := by
  have hsource := ofChars_functionSource body hparameter []
  rw [List.append_nil] at hsource
  rw [Token.ofSource, hsource, List.append_right_inj]
  exact commutes_iff hparameter hbody

/-- The placeholder of a call stands for the value, and so it does at the end of a line with a comment. -/
theorem ofSource_functionSource_of_call :
    let body := "\"<\" + str($it) // $it\n + \">\""
    Token.ofSource (functionSource body "___value") = Parser.opening "___value" ++
      [.str "<", .symbol .plus, .ident "str", .symbol .leftParen, .ident "___value",
        .symbol .rightParen, .symbol .plus, .str ">", .symbol .rightBrace] := by
  intro body
  have hbody : Placed body.toList ∧ Hygienic body.toList := by decide +kernel
  refine ((ofSource_functionSource_iff hbody.1 (by decide +kernel)).mpr hbody.2).trans ?_
  decide +kernel

/-- A placeholder in a string is read as the name of the parameter, and not as it is written. -/
theorem filled_string :
    let body := "\"$it\""
    Placed body.toList ∧ Token.isName methodParameter = true ∧
      Token.ofSource (functionSource body methodParameter) ≠ Parser.opening methodParameter ++
        (substitute methodParameter (Token.ofSource body) ++ [.symbol .rightBrace]) ∧
      Token.ofSource (functionSource body methodParameter) =
        Parser.opening methodParameter ++ [.str methodParameter, .symbol .rightBrace] ∧
      substitute methodParameter (Token.ofSource body) = [.str "$it"] := by
  decide +kernel

/-- Nor are bodies hygienic that end with a comment, or in which a placeholder is written next to a word. -/
example : ¬ Hygienic "1 // one".toList ∧ ¬ Hygienic "a$it".toList ∧ ¬ Hygienic "$it$it".toList ∧
    ¬ Hygienic "$items".toList := by
  decide +kernel

end Template

end Notebook
