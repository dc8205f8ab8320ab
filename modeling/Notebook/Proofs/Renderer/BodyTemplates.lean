import Notebook.Proofs.Renderer.RendererSnippets
import Notebook.Proofs.Syntax.TokenReading
import Notebook.Proofs.Syntax.TokenRenaming

/-!
Bodies with placeholders, as texts.

The body of a code renderer is a text in which a name is put for each placeholder before it is read. If the
placeholders stand for themselves, the text can be read before that, a placeholder being one more identifier.

* `Template.tokens`: the tokens of a body, with placeholders for identifiers.
* `Template.Clear`: the placeholders stand outside of strings and comments, and next to no character of a
  word.
* `Token.Scanned.exists_used`: a token is read in the same way in front of whatever ends it alike.
* `Template.ClearAfter.reads`: with a name in it, a clear body is read as its tokens, renamed.
* `Program.of_precompiledSource`: if the snippet that makes a function of a clear body is a program, it is the
  `let` of the function literal that has the renamed body, under any name of the parameter.
-/

namespace Notebook

/-! ### Reading piece by piece -/

namespace Token

/-- A text that is trivia only may be left out, or it ends with a comment that takes up the line. -/
theorem skipTrivia_append {inComment : Bool} {cs : List Char} (h : skipTrivia inComment cs = []) :
    (∀ x, skipTrivia inComment (cs ++ x) = skipTrivia false x) ∨
      ∀ x, '\n' ∉ x → skipTrivia inComment (cs ++ x) = [] := by
  fun_induction skipTrivia inComment cs with
  | case1 inComment =>
    cases inComment with
    | false => exact .inl fun x => rfl
    | true =>
      refine .inr fun x hx => ?_
      have hline := skipTrivia_comment hx []
      rwa [List.append_nil] at hline
  | case2 d cs ih => exact ih h
  | case3 cs ih => exact ih h
  | case4 d cs _ hblank ih =>
    rcases ih h with hleft | hnone
    · exact .inl fun x => (skipTrivia_blank hblank _).trans (hleft x)
    · exact .inr fun x hx => (skipTrivia_blank hblank _).trans (hnone x hx)
  | case5 => cases h

/-- Where `last` ends a token before `rest`, does it end the token before `x` as well? It does if the next
character is the same, or one that goes on with no token at all: no `=` or `/`, and no character of a word after
one. -/
def EndsAlike (last : Char) (rest x : List Char) : Prop :=
  ∀ c ∈ x.head?, rest.head? = some c ∨
    c ≠ '=' ∧ c ≠ '/' ∧ (continuesWord last = true → continuesWord c = false)

/-- A legal token is read in front of whatever ends it alike. An illegal one may depend on all that follows,
such as a string that is never closed. -/
theorem Scanned.exists_used {cs rest : List Char} {t : Token} (h : Scanned cs t rest)
    (hlegal : t.isLegal = true) : ∃ used, ∃ hused : used ≠ [], cs = used ++ rest ∧
      ∀ x, EndsAlike (used.getLast hused) rest x → next? (used ++ x) = some (t, x) := by
  -- The characters that were used up are those of the token; each kind of token has its own condition on what
  -- follows.
  cases h with
  | @symbol s rest ends =>
    refine ⟨s.spelling.toList, by cases s <;> decide, rfl, fun x hx => ?_⟩
    refine next?_symbol_of_ends s fun d hd => ?_
    rcases hx d hd with hsame | ⟨hequal, hslash, -⟩
    · exact ends d hsame
    · unfold Symbol.goesOn
      split <;> first | rfl | contradiction
  | @number c digits rest first more ends =>
    have hlast := (List.forall_mem_cons (p := fun d => d.isDigit = true)).mpr ⟨first, more⟩ _
      (List.getLast_mem (List.cons_ne_nil c digits))
    refine ⟨c :: digits, List.cons_ne_nil _ _, rfl, fun x hx => ?_⟩
    refine next?_number first more fun d hd => ?_
    rcases hx d hd with hsame | ⟨-, -, hends⟩
    · exact ends d hsame
    · refine Bool.eq_false_iff.mpr fun hdigit => ?_
      have hword := hends (continuesWord_of_isDigit hlast)
      exact Bool.eq_false_iff.mp hword (continuesWord_of_isDigit hdigit)
  | @word c word rest first more ends =>
    have hlast := (List.forall_mem_cons (p := fun d => continuesWord d = true)).mpr
      ⟨continuesWord_of_startsWord first, more⟩ _ (List.getLast_mem (List.cons_ne_nil c word))
    refine ⟨c :: word, List.cons_ne_nil _ _, rfl, fun x hx => ?_⟩
    refine next?_word first more fun d hd => ?_
    rcases hx d hd with hsame | ⟨-, -, hends⟩
    · exact ends d hsame
    · exact hends hlast
  | @string text body rest quotes =>
    refine ⟨'"' :: (body ++ ['"']), List.cons_ne_nil _ _, by simp, fun x _ => ?_⟩
    rw [List.cons_append, List.append_assoc]
    exact next?_string quotes x
  | broken => cases hlegal
  | other => cases hlegal

/-- Punctuation that nothing goes on with is read wherever it stands. -/
theorem ofChars_symbol {c : Char} {s : Symbol} (hs : symbolOf? c = some s)
    (hblank : Text.isBlank c = false) (hc : c ≠ '=' ∧ c ≠ '!' ∧ c ≠ '/') (rest : List Char) :
    ofChars (c :: rest) = .symbol s :: ofChars rest := by
  rw [ofChars_eq, next?_cons hblank fun h => absurd h hc.2.2,
    scan_symbol hs fun _ _ => ⟨hc.1, hc.2.1⟩]

theorem ofChars_of_next? {cs rest : List Char} {t : Token} (h : next? cs = some (t, rest)) :
    ofChars cs = t :: ofChars rest := by
  rw [ofChars_eq, h]

end Token

/-! ### Bodies with placeholders -/

namespace Template

/-- What stands for the value in a body. -/
def placeholder : List Char := ['$', 'i', 't']

/-- The name that a placeholder is read as, which is none of those that a text can spell. -/
def placeholderName : String := "$it"

/-- The first token of a body and what follows it, a placeholder being an identifier. -/
def next? (cs : List Char) : Option (Token × List Char) :=
  match Token.skipTrivia false cs with
  | [] => none
  | '$' :: 'i' :: 't' :: rest => some (.ident placeholderName, rest)
  | c :: rest => some (Token.scan c rest)

theorem length_lt_skipTrivia {cs rest : List Char} {t : Token} (h : next? cs = some (t, rest)) :
    rest.length < (Token.skipTrivia false cs).length := by
  unfold next? at h
  split at h
  · cases h
  · rename_i tail hcs
    cases h
    rw [hcs]
    simp only [List.length_cons]
    omega
  · rename_i c tail _ hcs
    have hscanned := Token.length_scan_le c tail
    rw [Option.some.inj h] at hscanned
    rw [hcs]
    exact Nat.lt_succ_of_le hscanned

theorem length_lt_of_next? {cs rest : List Char} {t : Token} (h : next? cs = some (t, rest)) :
    rest.length < cs.length :=
  Nat.lt_of_lt_of_le (length_lt_skipTrivia h) (Token.length_skipTrivia_le false cs)

/-- The tokens of a body where they stand in it. -/
def readings (cs : List Char) : List Token.Reading := Token.readingsBy next? length_lt_of_next? cs

/-- The tokens of a body, with placeholders for identifiers. -/
def tokens (body : String) : List Token := (readings body.toList).map (·.token)

/-- Do placeholders stand for themselves in a text that comes after the character `prev`? Each of them begins a
token, and next to none of them is there a character of a word. What comes before the text matters, since the
text may be the rest of a body. -/
def ClearAfter (prev : Option Char) (cs : List Char) : Prop :=
  ∀ before after, cs = before ++ (placeholder ++ after) →
    placeholder ++ after ∈ (readings cs).map (·.start) ∧
      (∀ c ∈ before.getLast?.or prev, Token.continuesWord c = false) ∧
        ∀ c ∈ after.head?, Token.continuesWord c = false

/-- Do the placeholders of a body stand outside of strings and comments, and next to no character of a
word? -/
def Clear (body : String) : Prop := ClearAfter none body.toList

/-! ### Filling in -/

def fill (name : List Char) (cs : List Char) : List Char := replacePlaceholder name [] cs

theorem replacePlaceholder_append (name read before cs : List Char) :
    replacePlaceholder name (read ++ before) cs =
      before.reverse ++ replacePlaceholder name read cs := by
  fun_induction replacePlaceholder name read cs with
  | case1 read => simp [replacePlaceholder]
  | case2 read rest ih => rw [replacePlaceholder, ← List.append_assoc, ih]
  | case3 read c rest hplace ih =>
    rw [replacePlaceholder, ← List.cons_append, ih]
    exact hplace

theorem fill_placeholder (name rest : List Char) :
    fill name (placeholder ++ rest) = name ++ fill name rest := by
  have h := replacePlaceholder_append name [] name.reverse rest
  rw [List.reverse_reverse] at h
  rw [← fill, List.nil_append] at h
  rw [← h, fill]
  exact congrArg (replacePlaceholder name · rest) (List.append_nil _)

theorem fill_cons {name : List Char} {c : Char} {cs : List Char}
    (h : ∀ after, c :: cs ≠ placeholder ++ after) : fill name (c :: cs) = c :: fill name cs := by
  have hread : fill name (c :: cs) = replacePlaceholder name [c] cs := by
    unfold fill
    rw [replacePlaceholder]
    rintro rest rfl rfl
    exact h rest rfl
  rw [hread]
  exact replacePlaceholder_append name [] [c] cs

/-- Does no placeholder begin in a text that `x` comes after? It might begin in the text and end in `x`, so more
is asked than that the text has none. -/
def Free (cs x : List Char) : Prop :=
  ∀ before mid after, cs = before ++ mid → mid ≠ [] → mid ++ x ≠ placeholder ++ after

theorem fill_append (name : List Char) {cs x : List Char} (h : Free cs x) :
    fill name (cs ++ x) = cs ++ fill name x := by
  induction cs with
  | nil => rfl
  | cons c cs ih =>
    have hrest : Free cs x := fun before mid after hcs => h (c :: before) mid after (congrArg _ hcs)
    rw [List.cons_append, fill_cons, ih hrest, List.cons_append]
    exact fun after => h [] (c :: cs) after rfl (List.cons_ne_nil _ _)

/-! ### Where placeholders stand -/

/-- Placeholders of a text that is only trivia stand nowhere. -/
theorem ClearAfter.free_of_none {prev : Option Char} {cs : List Char} (h : ClearAfter prev cs)
    (hnext : next? cs = none) : Free cs [] := by
  intro before mid after hcs hmid hplace
  rw [List.append_nil] at hplace
  obtain ⟨hmem, -⟩ := h before after (hplace ▸ hcs)
  rw [readings, Token.readingsBy_of_none hnext] at hmem
  cases hmem

section

variable {prev : Option Char} {cs pre x rest before after : List Char} {t : Token}

/-- A placeholder is the first token, or one of the later ones. -/
theorem ClearAfter.first_or_later (h : ClearAfter prev cs) (hnext : next? cs = some (t, rest))
    (hcs : cs = before ++ (placeholder ++ after)) :
    placeholder ++ after = Token.skipTrivia false cs ∨
      placeholder ++ after ∈ (readings rest).map (·.start) := by
  obtain ⟨hmem, -⟩ := h before after hcs
  rw [readings, Token.readingsBy_of_some hnext] at hmem
  exact List.mem_cons.mp hmem

/-- Before the rest there is no placeholder but the first token. -/
theorem ClearAfter.free (h : ClearAfter prev cs) (hnext : next? cs = some (t, rest))
    (hcs : cs = pre ++ x) (hlength : rest.length ≤ x.length)
    (hfirst : ∀ mid after, mid ≠ [] → mid ++ x = Token.skipTrivia false cs →
      mid ++ x ≠ placeholder ++ after) : Free pre x := by
  rintro before mid after rfl hmid hplace
  rw [List.append_assoc, hplace] at hcs
  rcases h.first_or_later hnext hcs with hstart | hlater
  · exact hfirst mid after hmid (hplace.trans hstart) hplace
  · obtain ⟨reading, hreading, hsame⟩ := List.mem_map.mp hlater
    have hle := Token.length_le_of_mem_readingsBy hreading
    rw [hsame, ← hplace, List.length_append] at hle
    have := List.length_pos_iff.mpr hmid
    omega

/-- Nor do the placeholders of the rest stand next to characters of a word. -/
theorem ClearAfter.later (h : ClearAfter prev cs) (hnext : next? cs = some (t, rest))
    (hcs : cs = pre ++ rest) : ClearAfter (pre.getLast?.or prev) rest := by
  rintro before after rfl
  rw [← List.append_assoc] at hcs
  obtain ⟨-, hbefore, hafter⟩ := h _ _ hcs
  refine ⟨?_, ?_, hafter⟩
  · rcases h.first_or_later hnext hcs with hstart | hlater
    · have hlt := length_lt_skipTrivia hnext
      rw [← hstart, List.length_append] at hlt
      omega
    · exact hlater
  · rwa [List.getLast?_append, Option.or_assoc] at hbefore

end

/-! ### Reading what was filled in -/

/-- The name for the placeholders, and every other name as it is. -/
def naming (name other : String) : String := if other = placeholderName then name else other

/-- What a text can spell is no placeholder. -/
theorem rename_naming_of_scan {c : Char} {cs rest : List Char} {t : Token}
    (h : Token.scan c cs = (t, rest)) (name : String) : t.rename (naming name) = t := by
  cases t with
  | ident other =>
    rcases Token.spellable_of_scan c cs with hspellable | ⟨text, hillegal⟩
    · rw [h] at hspellable
      have hne : other ≠ placeholderName := by
        rintro rfl
        exact absurd (show Token.isName placeholderName = true from hspellable) (by decide +kernel)
      exact congrArg Token.ident (if_neg hne)
    · rw [h] at hillegal
      cases hillegal
  | _ => rfl

theorem head?_fill {cs : List Char} (h : ∀ after, cs ≠ placeholder ++ after) (name : List Char) :
    (fill name cs).head? = cs.head? := by
  cases cs with
  | nil => rfl
  | cons c cs => rw [fill_cons h, List.head?_cons, List.head?_cons]

section

variable {prev : Option Char} {cs rest more : List Char} {name : String}

/-- What follows a token ends it alike when names are filled in. -/
theorem ClearAfter.endsAlike {last : Char} (h : ClearAfter (some last) rest)
    (hname : Token.isName name = true) :
    Token.EndsAlike last rest (fill name.toList rest ++ ' ' :: more) := by
  intro d hd
  by_cases hplace : ∃ after, rest = placeholder ++ after
  · obtain ⟨after, rfl⟩ := hplace
    obtain ⟨-, hlast, -⟩ := h [] after rfl
    obtain ⟨c, word, rfl, hc, -, -⟩ := Token.isName_iff.mp hname
    rw [fill_placeholder, String.toList_ofList] at hd
    cases hd
    refine .inr ⟨?_, ?_, fun hword => ?_⟩
    · rintro rfl
      cases hc
    · rintro rfl
      cases hc
    · rw [hlast last rfl] at hword
      cases hword
  · rw [List.head?_append, head?_fill (not_exists.mp hplace)] at hd
    cases rest with
    | nil =>
      cases hd
      exact .inr ⟨by decide, by decide, fun _ => rfl⟩
    | cons e rest =>
      cases hd
      exact .inl rfl

/-- The first token of a body is the first one when a name is filled in, and after it the rest is read. -/
theorem ClearAfter.first {t : Token} (h : ClearAfter prev cs) (hnext : next? cs = some (t, rest))
    (ht : t.isLegal = true) : (∃ prev, ClearAfter prev rest) ∧ ∀ name more, Token.isName name = true →
      Token.ofChars (fill name.toList cs ++ ' ' :: more) =
        t.rename (naming name) :: Token.ofChars (fill name.toList rest ++ ' ' :: more) := by
  have hread := hnext
  -- The first token is a placeholder, or one that the text has anyhow.
  unfold next? at hread
  split at hread
  · cases hread
  · rename_i after hskip
    cases hread
    obtain ⟨trivia, hcs, htrivia⟩ := Token.exists_trivia hskip
    change cs = trivia ++ (placeholder ++ rest) at hcs
    have hrest : ClearAfter ((trivia ++ placeholder).getLast?.or prev) rest :=
      h.later hnext (by rw [hcs, List.append_assoc])
    refine ⟨⟨_, hrest⟩, fun name more hname => ?_⟩
    have hfree : Free trivia (placeholder ++ rest) := by
      refine h.free hnext hcs (List.suffix_append _ _).length_le fun mid _ hmid hsame => ?_
      rw [hskip] at hsame
      exact absurd (List.append_left_eq_self.mp hsame) hmid
    -- The next character is none of a word, nor does another placeholder come next.
    obtain ⟨-, -, hafter⟩ := h trivia rest hcs
    have hother : ∀ after, rest ≠ placeholder ++ after := by
      rintro after rfl
      obtain ⟨-, hlast, -⟩ := hrest [] after rfl
      have hword := hlast 't' (by simp [placeholder])
      exact absurd hword (by decide)
    have hhead : ∀ d ∈ (fill name.toList rest ++ ' ' :: more).head?,
        Token.continuesWord d = false := by
      intro d hd
      rw [List.head?_append, head?_fill hother] at hd
      cases rest with
      | nil =>
        cases hd
        rfl
      | cons e rest =>
        cases hd
        exact hafter _ rfl
    rw [hcs, fill_append _ hfree, fill_placeholder, List.append_assoc, List.append_assoc,
      Token.ofChars_congr (htrivia.skipTrivia _), Token.ofChars_of_next? (Token.next?_name hname hhead)]
    exact congrArg (· :: _) (congrArg Token.ident (if_pos rfl).symm)
  · rename_i c tail hplace hskip
    have hscan := Option.some.inj hread
    obtain ⟨trivia, hcs, htrivia⟩ := Token.exists_trivia hskip
    have hstart : Token.skipTrivia false (c :: tail) = c :: tail := by
      rw [← htrivia.skipTrivia, ← hcs, hskip]
    have hscanned := Token.scanned_of_scan (Token.not_trivia hstart).2 hscan
    -- Its characters are the same with the name filled in, and what comes after them ends the token as before.
    obtain ⟨used, hne, hsplit, hused⟩ := hscanned.exists_used ht
    have hcs' : cs = (trivia ++ used) ++ rest := by
      rw [hcs, hsplit, List.append_assoc]
    have hrest := h.later hnext hcs'
    rw [List.getLast?_append, List.getLast?_eq_some_getLast hne, Option.some_or,
      Option.some_or] at hrest
    refine ⟨⟨_, hrest⟩, fun name more hname => ?_⟩
    have hfree : Free (trivia ++ used) rest := by
      refine h.free hnext hcs' (Nat.le_refl _) fun mid after _ hsame hplaced => ?_
      rw [hsame, hskip] at hplaced
      injection hplaced with hc htail
      exact hplace after hc htail
    rw [hcs', fill_append _ hfree, List.append_assoc, List.append_assoc,
      Token.ofChars_congr (htrivia.skipTrivia _), Token.ofChars_of_next? (hused _ (hrest.endsAlike hname)),
      rename_naming_of_scan hscan]

/-- Do the tokens of a body with a name in it begin with those that it has itself, with `ends` coming after
them? What comes after the body is in the same line, as the closing brace is. -/
def Reads (cs : List Char) (ends : List Char → List Token) : Prop :=
  ∀ name more, Token.isName name = true → '\n' ∉ more →
    Token.ofChars (fill name.toList cs ++ ' ' :: more) =
      (readings cs).map (fun reading => reading.token.rename (naming name)) ++ ends more

/-- A body without tokens is trivia only, with a name in it or without. -/
theorem ClearAfter.reads_of_none (h : ClearAfter prev cs) (hnext : next? cs = none) :
    Reads cs Token.ofChars ∨ Reads cs (fun _ => []) := by
  have hskip : Token.skipTrivia false cs = [] := by
    unfold next? at hnext
    split at hnext
    · assumption
    · cases hnext
    · cases hnext
  have hfill : ∀ name, fill name cs = cs := fun name => by
    have hfill := fill_append name (h.free_of_none hnext)
    rwa [List.append_nil, show fill name [] = [] from rfl, List.append_nil] at hfill
  have hreadings : readings cs = [] := Token.readingsBy_of_none hnext
  rcases Token.skipTrivia_append hskip with hleft | hnone
  · left
    intro name more _ _
    rw [hfill, hreadings, Token.ofChars_congr (hleft _), Token.ofChars_blank (by decide)]
    rfl
  · right
    intro name more _ hmore
    have hline : '\n' ∉ ' ' :: more := List.not_mem_cons_of_ne_of_not_mem (by decide) hmore
    have hskipped : Token.skipTrivia false (cs ++ ' ' :: more) = Token.skipTrivia false [] :=
      hnone _ hline
    rw [hfill, hreadings, Token.ofChars_congr hskipped, Token.ofChars_eq]
    rfl

/-- A body with a name in it is read token by token. Then comes what comes after it, unless the body ends
with a comment. -/
theorem ClearAfter.reads (h : ClearAfter prev cs)
    (hlegal : ∀ reading ∈ readings cs, reading.token.isLegal = true) :
    Reads cs Token.ofChars ∨ Reads cs (fun _ => []) := by
  induction hn : cs.length using Nat.strongRecOn generalizing cs prev with
  | ind n ih =>
    cases hnext : next? cs with
    | none => exact h.reads_of_none hnext
    | some read =>
      obtain ⟨t, rest⟩ := read
      have hreadings : readings cs = ⟨Token.skipTrivia false cs, t, rest⟩ :: readings rest :=
        Token.readingsBy_of_some hnext
      rw [hreadings] at hlegal
      obtain ⟨ht, hlegal⟩ := List.forall_mem_cons.mp hlegal
      obtain ⟨⟨prev', hrest⟩, hfirst⟩ := h.first hnext ht
      have hcons : ∀ ends, Reads rest ends → Reads cs ends := by
        intro ends hends name more hname hmore
        rw [hfirst name more hname, hends name more hname hmore, hreadings]
        rfl
      exact (ih _ (hn ▸ length_lt_of_next? hnext) hrest hlegal rfl).imp (hcons _) (hcons _)

end

/-! ### Deciding where placeholders stand -/

theorem noneContinues_iff (next : Option Char) : next.all (!Token.continuesWord ·) = true ↔
    ∀ c ∈ next, Token.continuesWord c = false := by
  cases next <;> simp

/-- It is enough to look at every place once, and so it can be decided whether placeholders stand for
themselves. -/
theorem clearAfter_iff (prev : Option Char) (cs : List Char) : ClearAfter prev cs ↔
    ∀ k < cs.length, placeholder <+: cs.drop k → cs.drop k ∈ (readings cs).map (·.start) ∧
      ((cs.take k).getLast?.or prev).all (!Token.continuesWord ·) = true ∧
        (cs.drop (k + 3)).head?.all (!Token.continuesWord ·) = true := by
  simp only [noneContinues_iff]
  constructor
  · rintro h k - ⟨after, hafter⟩
    have hcs : cs = cs.take k ++ (placeholder ++ after) := by rw [hafter, List.take_append_drop]
    have hdrop : cs.drop (k + 3) = after := by
      rw [← List.drop_drop, ← hafter]
      rfl
    rw [hdrop, ← hafter]
    exact h _ _ hcs
  · rintro h before after rfl
    have hlength : before.length < (before ++ (placeholder ++ after)).length := by
      simp [placeholder]
    have hplace := h before.length hlength
    have hafter : (before ++ (placeholder ++ after)).drop (before.length + 3) = after := by
      rw [← List.drop_drop, List.drop_left]
      rfl
    rw [List.drop_left, List.take_left, hafter] at hplace
    exact hplace (List.prefix_append _ _)

instance (body : String) : Decidable (Clear body) :=
  decidable_of_iff _ (clearAfter_iff none body.toList).symm

/-- Two placeholders that touch do not stand for themselves, nor does one in a string or in a comment. -/
example : Clear "$it + $it[0] // nothing" ∧ ¬ Clear "$it$it" ∧ ¬ Clear "\"$it\"" ∧ ¬ Clear "1 // $it" := by
  decide +kernel

end Template

/-! ### The sources -/

open Notebook.Parser (opening)

section

variable {body parameter method : String} {program p : Program} {fine : String → Bool}

/-- A function literal begins with its parameter, and goes on with the body. -/
theorem ofChars_functionSource (body : String) (hparameter : Token.isName parameter = true)
    (more : List Char) : Token.ofChars ((functionSource body parameter).toList ++ more) =
      opening parameter ++
        Token.ofChars (Template.fill parameter.toList body.toList ++ ' ' :: '\x7d' :: more) := by
  have hsource : (functionSource body parameter).toList ++ more =
      Token.spelling (.keyword .function) ++ '(' :: (Token.spelling (.ident parameter) ++
        ')' :: ' ' :: '\x7b' :: ' ' ::
          (Template.fill parameter.toList body.toList ++ ' ' :: '\x7d' :: more)) := by
    simp [functionSource, Token.spelling, Keyword.spelling, Template.fill]
  have hblank : Text.isBlank ' ' = true := by decide
  have hends : ∀ {c : Char} (rest : List Char),
      Token.continuesWord c = false ∧ c ≠ '=' ∧ c ≠ '/' → Token.Separated (c :: rest) :=
    fun rest h => h
  rw [hsource, Token.ofChars_spelling rfl (hends _ (by decide)),
    Token.ofChars_symbol rfl rfl (by decide),
    Token.ofChars_spelling (t := .ident parameter) hparameter (hends _ (by decide)),
    Token.ofChars_symbol rfl rfl (by decide), Token.ofChars_blank hblank,
    Token.ofChars_symbol rfl rfl (by decide), Token.ofChars_blank hblank]
  rfl

theorem ofSource_precompiledSource (body : String) (hmethod : Token.isName method = true)
    (hparameter : Token.isName parameter = true) :
    Token.ofSource (precompiledSource body method parameter) =
      .keyword .letBinding :: .ident method :: .symbol .assign :: (opening parameter ++
        Token.ofChars (Template.fill parameter.toList body.toList ++ [' ', '\x7d', ';'])) := by
  have hsource : (precompiledSource body method parameter).toList =
      Token.spelling (.keyword .letBinding) ++ ' ' :: (Token.spelling (.ident method) ++
        ' ' :: (Token.spelling (.symbol .assign) ++
          ' ' :: ((functionSource body parameter).toList ++ [';']))) := by
    simp [precompiledSource, Token.spelling, Keyword.spelling, Symbol.spelling]
  have hblank : Text.isBlank ' ' = true := by decide
  have hends := fun rest => Token.separated_of_isBlank hblank rest
  rw [Token.ofSource, hsource, Token.ofChars_spelling rfl (hends _), Token.ofChars_blank hblank,
    Token.ofChars_spelling (t := .ident method) hmethod (hends _), Token.ofChars_blank hblank,
    Token.ofChars_spelling rfl (hends _), Token.ofChars_blank hblank,
    ofChars_functionSource body hparameter]

/-- Tokens that make a program are legal. -/
theorem Program.legal_of_ofTokens {ts : List Token} (h : Program.ofTokens ts = .ok program) :
    ∀ t ∈ ts, t.isLegal = true := by
  have hn := Parser.faithful_expr (ts.length + 1)
  obtain ⟨_, rfl, hexhausts⟩ := Parser.exhausts_of_statements hn (Nat.le_refl _) h
  obtain ⟨used, hused, hlegal, -⟩ := hexhausts.consumes hn
  rw [List.append_nil] at hused
  exact hused ▸ List.all_eq_true.mp hlegal

/-- If a body that reads as a program on its own can be made a function, the function is the program with
the parameter for the placeholders, and under any other parameter it is so, too. -/
theorem Program.of_precompiledSource (hclear : Template.Clear body)
    (hbody : Program.ofTokens (Template.tokens body) = .ok program)
    (hplain : (Template.tokens body).all (Token.isPlain fine) = true)
    (hmethod : Token.isName method = true) (hparameter : Token.isName parameter = true)
    (h : Program.ofSource (precompiledSource body method parameter) = .ok p) :
    p = [.letIn method (.function [parameter] (Program.rename (Template.naming parameter) program))] ∧
      ∀ other, Token.isName other = true → Program.ofSource (functionSource body other) =
        .ok [.expr (.function [other] (Program.rename (Template.naming other) program))] := by
  have hlegal : ∀ reading ∈ Template.readings body.toList, reading.token.isLegal = true :=
    fun reading hreading => Program.legal_of_ofTokens hbody _ (List.mem_map_of_mem hreading)
  have htokens : ∀ name, (Template.readings body.toList).map
      (fun reading => reading.token.rename (Template.naming name)) =
        (Template.tokens body).map (Token.rename (Template.naming name)) := fun name => by
    rw [Template.tokens, List.map_map]
    rfl
  unfold Program.ofSource at h ⊢
  rw [ofSource_precompiledSource body hmethod hparameter] at h
  -- The brace after the body closes the function, or it is part of a comment, and then the text is no program.
  rcases hclear.reads hlegal with hreads | hreads
  · have hclose : ∀ more, Token.ofChars ('\x7d' :: more) = .symbol .rightBrace :: Token.ofChars more :=
      Token.ofChars_symbol rfl rfl (by decide)
    have hnil : Token.ofChars [] = [] := by rw [Token.ofChars_eq]; rfl
    have hsemicolon : Token.ofChars [';'] = [.symbol .semicolon] := by
      rw [Token.ofChars_symbol rfl rfl (by decide), hnil]
    rw [hreads parameter _ hparameter (by decide), htokens, hclose, hsemicolon,
      Program.ofTokens_let hbody hplain] at h
    cases h
    refine ⟨rfl, fun other hother => ?_⟩
    have hsource := ofChars_functionSource body hother []
    rw [hreads other _ hother (by decide), htokens, hclose, hnil, List.append_nil] at hsource
    rw [Token.ofSource, hsource]
    exact Program.ofTokens_function hbody hplain _ other
  · rw [hreads parameter _ hparameter (by decide), htokens, List.append_nil,
      Program.ofTokens_let_unclosed hbody hplain] at h
    cases h

end

end Notebook
