import Notebook.Proofs.Syntax.TokenSpelling

/-!
What is read when a token is read.

* `Token.Trivia`: what may stand between tokens, and is skipped.
* `Token.Breaks`: how a string literal goes wrong, and what is left of the text then.
* `Token.Scanned`: a text that begins with a token, by the kinds of tokens that there are.
* `Token.scanned_of_next?`: whatever is read is read in one of these ways.
* `Token.next?_symbol_of_ends`, `Token.next?_number`, `Token.next?_string`: the same characters are read as
  the same token in front of other texts.
* `Token.next?_word_longer`: a word is not, if the text goes on with it.
* `Token.readings`: the tokens of a text where they stand in it; `Token.readingsBy` does the same for any
  other idea of a first token.
-/

namespace Notebook

/-! ### What stands between tokens -/

namespace Token

/-- A comment goes on up to the end of the line. -/
theorem skipTrivia_comment {line : List Char} (h : '\n' ∉ line) (x : List Char) :
    skipTrivia true (line ++ x) = skipTrivia true x := by
  induction line with
  | nil => rfl
  | cons c line ih =>
    obtain ⟨hc, hline⟩ := List.ne_and_not_mem_of_not_mem_cons h
    have hmore : (c != '\n') = true := bne_iff_ne.mpr hc.symm
    have hskip : skipTrivia true (c :: line ++ x) = skipTrivia (c != '\n') (line ++ x) := rfl
    rw [hskip, hmore, ih hline]

/-- Blanks and comments, each comment with the end of its line. -/
inductive Trivia : List Char → Prop where
  | nil : Trivia []
  | blank {c : Char} {cs : List Char} (hblank : Text.isBlank c = true) :
      Trivia cs → Trivia (c :: cs)
  | comment {line cs : List Char} (hline : '\n' ∉ line) :
      Trivia cs → Trivia ('/' :: '/' :: (line ++ '\n' :: cs))

/-- Trivia are skipped, whatever follows them. -/
theorem Trivia.skipTrivia {gap : List Char} (h : Trivia gap) (x : List Char) :
    skipTrivia false (gap ++ x) = Token.skipTrivia false x := by
  induction h with
  | nil => rfl
  | blank hblank _ ih => exact (skipTrivia_blank hblank _).trans ih
  | @comment line cs hline _ ih =>
    have hopen : Token.skipTrivia false ('/' :: '/' :: (line ++ '\n' :: cs) ++ x) =
        Token.skipTrivia true (line ++ '\n' :: (cs ++ x)) := by
      rw [List.cons_append, List.cons_append, List.append_assoc]
      rfl
    rw [hopen, skipTrivia_comment hline]
    exact ih

/-- What is skipped are trivia, unless the text ends inside of a comment. By induction on the length, since a
comment takes more than one character at a time. -/
theorem trivia_or_comment (cs : List Char) : ∃ gap, Trivia gap ∧
    (cs = gap ++ skipTrivia false cs ∨
      skipTrivia false cs = [] ∧ ∃ line, '\n' ∉ line ∧ cs = gap ++ '/' :: '/' :: line) := by
  induction hn : cs.length using Nat.strongRecOn generalizing cs with
  | ind n ih =>
    subst hn
    -- A comment with the end of its line, or a blank, is the first of the trivia; the rest of the text is
    -- shorter.
    by_cases hcomment : ∃ tail, cs = '/' :: '/' :: tail
    · obtain ⟨tail, rfl⟩ := hcomment
      by_cases hend : '\n' ∈ tail
      · obtain ⟨line, more, rfl, hline⟩ := List.eq_append_cons_of_mem hend
        obtain ⟨gap, hgap, hmore⟩ := ih more.length (by simp; omega) more rfl
        have hskip : skipTrivia false ('/' :: '/' :: (line ++ '\n' :: more)) =
            skipTrivia false more := skipTrivia_comment hline _
        refine ⟨_, .comment hline hgap, ?_⟩
        rw [hskip]
        rcases hmore with hmore | ⟨hnone, last, hlast, rfl⟩
        · left
          conv => lhs; rw [hmore]
          simp
        · exact .inr ⟨hnone, last, hlast, by simp⟩
      · have hskip := skipTrivia_comment hend []
        rw [List.append_nil] at hskip
        exact ⟨[], .nil, .inr ⟨hskip, tail, hend, rfl⟩⟩
    · cases cs with
      | nil => exact ⟨[], .nil, .inl rfl⟩
      | cons c tail =>
        cases hblank : Text.isBlank c with
        | true =>
          obtain ⟨gap, hgap, hmore⟩ := ih tail.length (by simp) tail rfl
          refine ⟨c :: gap, .blank hblank hgap, ?_⟩
          rw [skipTrivia_blank hblank]
          rcases hmore with hmore | ⟨hnone, last, hlast, rfl⟩
          · exact .inl (congrArg (c :: ·) hmore)
          · exact .inr ⟨hnone, last, hlast, rfl⟩
        | false =>
          have hslash : c = '/' → ∀ more, tail ≠ '/' :: more := by
            rintro rfl more rfl
            exact hcomment ⟨more, rfl⟩
          exact ⟨[], .nil, .inl (skipTrivia_eq_self hblank hslash).symm⟩

/-- In front of a token stand trivia. -/
theorem exists_trivia {cs rest : List Char} {c : Char} (h : skipTrivia false cs = c :: rest) :
    ∃ gap, cs = gap ++ c :: rest ∧ Trivia gap := by
  obtain ⟨gap, hgap, hcs | ⟨hnone, -⟩⟩ := trivia_or_comment cs
  · rw [h] at hcs
    exact ⟨gap, hcs, hgap⟩
  · rw [h] at hnone
    cases hnone

end Token

/-! ### How a token is read -/

/-- Is a symbol read together with a character that comes right after it? -/
def Symbol.goesOn : Symbol → Char → Bool
  | .assign, '=' | .bang, '=' | .slash, '/' => true
  | _, _ => false

theorem Symbol.goesOn_eq_false {s : Symbol} {c : Char} (hequal : c ≠ '=') (hslash : c ≠ '/') :
    s.goesOn c = false := by
  unfold goesOn
  split
  case h_1 | h_2 => exact absurd rfl hequal
  case h_3 => exact absurd rfl hslash
  case h_4 => rfl

namespace Token

/-- Different words are different tokens. -/
theorem ofWord_inj {word other : String} (h : ofWord word = ofWord other) : word = other := by
  unfold ofWord at h
  cases hword : Keyword.ofSpelling? word <;> cases hother : Keyword.ofSpelling? other <;>
    rw [hword, hother] at h <;> cases h
  · rfl
  · exact (Keyword.spelling_of_ofSpelling? hword).symm.trans (Keyword.spelling_of_ofSpelling? hother)

theorem ofWord_ne_illegal (word text : String) : ofWord word ≠ .illegal text := by
  unfold ofWord
  split <;> exact nofun

/-- How a string breaks off after the characters `text`: what it ends with, what is said of it, and what
is left of the text. An unknown escape is left at the character that it names. -/
inductive Breaks (text : List Char) : List Char → List Char → List Char → Prop where
  | ends : Breaks text [] ('"' :: text) []
  | endsInEscape : Breaks text ['\\'] ('"' :: (text ++ ['\\'])) []
  | escape {c : Char} {rest : List Char} (hnone : unescape? c = none) :
      Breaks text ['\\'] ['\\', c] (c :: rest)

/-- A text that begins with a token, the token, and what follows it, by kinds of tokens. Each kind has its own
condition on what may follow. -/
inductive Scanned : List Char → Token → List Char → Prop where
  | symbol {s : Symbol} {rest : List Char} (ends : ∀ d ∈ rest.head?, s.goesOn d = false) :
      Scanned (s.spelling.toList ++ rest) (.symbol s) rest
  | number {c : Char} {digits rest : List Char} (first : c.isDigit = true)
      (more : ∀ d ∈ digits, d.isDigit = true) (ends : ∀ d ∈ rest.head?, d.isDigit = false) :
      Scanned (c :: digits ++ rest) (.int (String.ofList (c :: digits))) rest
  | word {c : Char} {word rest : List Char} (first : startsWord c = true)
      (more : ∀ d ∈ word, continuesWord d = true)
      (ends : ∀ d ∈ rest.head?, continuesWord d = false) :
      Scanned (c :: word ++ rest) (ofWord (String.ofList (c :: word))) rest
  | string {text body rest : List Char} (quotes : Quotes text body) :
      Scanned ('"' :: (body ++ '"' :: rest)) (.str (String.ofList text)) rest
  | broken {cs text rest : List Char} {c : Char} (first : c = '"' ∨ c = '\\') :
      Scanned cs (.illegal (String.ofList (c :: text))) rest
  | other {c : Char} {rest : List Char} : Scanned (c :: rest) (.illegal (String.ofList [c])) rest

/-- A string literal is read up to its closing quote, or it breaks off; what has been read of it before comes
first in either case. -/
theorem scanned_string {read cs rest : List Char} {t : Token} (h : scanString read cs = (t, rest)) :
    ∃ text body, Quotes text body ∧
      (t = .str (String.ofList (read.reverse ++ text)) ∧ cs = body ++ '"' :: rest ∨
        ∃ stop message, Breaks (read.reverse ++ text) stop message rest ∧
          t = .illegal (String.ofList message) ∧ cs = body ++ (stop ++ rest)) := by
  -- The cases are those of the scanner: two in which the text ends, the closing quote, a known escape, an
  -- unknown one, and a plain character.
  fun_induction scanString read cs with
  | case1 read =>
    cases h
    refine ⟨[], [], .nil, .inr ⟨_, _, .ends, ?_, rfl⟩⟩
    rw [List.append_nil]
  | case2 read cs =>
    cases h
    refine ⟨[], [], .nil, .inl ⟨?_, rfl⟩⟩
    rw [List.append_nil]
  | case3 read =>
    cases h
    refine ⟨[], [], .nil, .inr ⟨_, _, .endsInEscape, ?_, rfl⟩⟩
    rw [List.append_nil]
  | case4 read c cs meant hmeant ih =>
    obtain ⟨text, body, hquotes, hends⟩ := ih h
    refine ⟨meant :: text, '\\' :: c :: body, .escaped hmeant hquotes, ?_⟩
    rcases hends with ⟨rfl, rfl⟩ | ⟨stop, message, hbreaks, rfl, rfl⟩
    · exact .inl ⟨by simp, rfl⟩
    · exact .inr ⟨stop, message, by simpa using hbreaks, rfl, rfl⟩
  | case5 read c cs hnone =>
    cases h
    exact ⟨[], [], .nil, .inr ⟨_, _, .escape hnone, rfl, rfl⟩⟩
  | case6 read c cs hquote hslash hescape ih =>
    obtain ⟨text, body, hquotes, hends⟩ := ih h
    have hplain : c ≠ '\\' := by
      rintro rfl
      cases cs with
      | nil => exact hslash rfl rfl
      | cons d cs => exact hescape _ _ rfl rfl
    refine ⟨c :: text, c :: body, .plain hquote hplain hquotes, ?_⟩
    rcases hends with ⟨rfl, rfl⟩ | ⟨stop, message, hbreaks, rfl, rfl⟩
    · exact .inl ⟨by simp, rfl⟩
    · exact .inr ⟨stop, message, by simpa using hbreaks, rfl, rfl⟩

theorem spelling_of_symbolOf? {c : Char} {s : Symbol} (h : symbolOf? c = some s) :
    s.spelling.toList = [c] := by
  unfold symbolOf? at h
  split at h <;> cases h <;> rfl

theorem goesOn_of_symbolOf? {c d : Char} {s : Symbol} (h : symbolOf? c = some s)
    (hgoes : s.goesOn d = true) : (c = '=' ∨ c = '!') ∧ d = '=' ∨ c = '/' ∧ d = '/' := by
  unfold Symbol.goesOn at hgoes
  split at hgoes
  · exact .inl ⟨.inl (List.singleton_inj.mp (spelling_of_symbolOf? h)).symm, rfl⟩
  · exact .inl ⟨.inr (List.singleton_inj.mp (spelling_of_symbolOf? h)).symm, rfl⟩
  · exact .inr ⟨(List.singleton_inj.mp (spelling_of_symbolOf? h)).symm, rfl⟩
  · cases hgoes

/-- A text that begins with no trivia begins with neither a blank nor a comment. -/
theorem not_trivia {c : Char} {cs : List Char} (h : skipTrivia false (c :: cs) = c :: cs) :
    Text.isBlank c = false ∧ (c = '/' → ∀ tail, cs ≠ '/' :: tail) := by
  constructor
  · rw [← Bool.not_eq_true]
    intro hblank
    have hlength := length_skipTrivia_le false cs
    rw [← skipTrivia_blank hblank, h, List.length_cons] at hlength
    exact absurd hlength (Nat.not_succ_le_self _)
  · rintro rfl tail rfl
    have hlength := length_skipTrivia_le true tail
    have hcomment : skipTrivia true tail = '/' :: '/' :: tail := h
    rw [hcomment] at hlength
    simp only [List.length_cons] at hlength
    omega

/-- Where no comment begins, a token is read by its kind. The branches of the scanner are tried in order, so
each kind comes with what the earlier ones excluded. -/
theorem scanned_of_scan {c : Char} {tail rest : List Char} {t : Token}
    (hslash : c = '/' → ∀ more, tail ≠ '/' :: more) (h : scan c tail = (t, rest)) :
    Scanned (c :: tail) t rest := by
  unfold scan at h
  split at h
  · cases h
    exact .symbol (s := .equal) fun d _ => rfl
  · cases h
    exact .symbol (s := .notEqual) fun d _ => rfl
  · obtain ⟨text, body, hquotes, ⟨rfl, rfl⟩ | ⟨stop, message, hbreaks, rfl, -⟩⟩ := scanned_string h
    · exact .string hquotes
    · cases hbreaks with
      | ends => exact .broken (.inl rfl)
      | endsInEscape => exact .broken (.inl rfl)
      | escape => exact .broken (.inr rfl)
  · rename_i hquote hequal hnotEqual
    split at h
    · -- Punctuation of one character was not read as one of two, so what follows does not go on with it.
      rename_i s hs
      cases h
      have hends : ∀ d ∈ tail.head?, s.goesOn d = false := by
        intro d hd
        obtain ⟨more, rfl⟩ := List.head?_eq_some_iff.mp hd
        rw [← Bool.not_eq_true]
        intro hgoes
        rcases goesOn_of_symbolOf? hs hgoes with ⟨rfl | rfl, rfl⟩ | ⟨rfl, rfl⟩
        · exact hequal _ rfl rfl
        · exact hnotEqual _ rfl rfl
        · exact hslash rfl _ rfl
      have hscanned := Scanned.symbol hends
      rwa [spelling_of_symbolOf? hs] at hscanned
    · split at h
      · rename_i hdigit
        cases h
        have hscanned := Scanned.number hdigit (mem_takeWhile Char.isDigit tail)
          (head_dropWhile Char.isDigit tail)
        rwa [List.cons_append, List.takeWhile_append_dropWhile] at hscanned
      · split at h
        · rename_i hdigit hstarts
          cases h
          have hscanned := Scanned.word hstarts (mem_takeWhile continuesWord tail)
            (head_dropWhile continuesWord tail)
          rwa [List.cons_append, List.takeWhile_append_dropWhile] at hscanned
        · cases h
          exact .other

theorem next?_eq_none_iff {cs : List Char} : next? cs = none ↔ skipTrivia false cs = [] := by
  unfold next?
  split <;> simp_all

/-- What is left of a text when trivia are skipped begins with the token that is read. -/
theorem scanned_of_next? {cs rest : List Char} {t : Token} (h : next? cs = some (t, rest)) :
    Scanned (skipTrivia false cs) t rest := by
  unfold next? at h
  split at h
  · cases h
  · rename_i c tail hskip
    obtain ⟨gap, rfl, hgap⟩ := exists_trivia hskip
    obtain ⟨-, hslash⟩ := not_trivia ((hgap.skipTrivia (c :: tail)).symm.trans hskip)
    rw [hskip]
    exact scanned_of_scan hslash (Option.some.inj h)

/-- The sign that placeholders begin with is illegal where it stands. -/
theorem Scanned.eq_of_dollar {cs rest : List Char} (h : Scanned cs (.illegal "$") rest) :
    cs = '$' :: rest := by
  generalize ht : Token.illegal "$" = t at h
  have hchars : ∀ text : List Char, Token.illegal "$" = .illegal (String.ofList text) →
      text = ['$'] := by
    intro text h
    rw [← String.toList_ofList (l := text), ← Token.illegal.inj h]
    rfl
  cases h with
  | symbol | number | string => cases ht
  | word => exact absurd ht.symm (ofWord_ne_illegal _ _)
  | broken first =>
    obtain ⟨rfl, -⟩ := List.cons.inj (hchars _ ht)
    rcases first with h | h <;> cases h
  | other =>
    obtain ⟨rfl, -⟩ := List.cons.inj (hchars _ ht)
    rfl

/-! ### Reading on -/

/-- A symbol is read in front of all that it is not read together with. -/
theorem next?_symbol_of_ends (s : Symbol) {x : List Char} (ends : ∀ d ∈ x.head?, s.goesOn d = false) :
    next? (s.spelling.toList ++ x) = some (.symbol s, x) := by
  have hsingle : ∀ c, symbolOf? c = some s → Text.isBlank c = false →
      next? (c :: x) = some (.symbol s, x) := by
    intro c hs hblank
    have hspelling := spelling_of_symbolOf? hs
    rw [next?_cons hblank, scan_symbol hs]
    · rintro tail rfl
      constructor
      · rintro rfl
        cases hs
        cases ends '=' rfl
      · rintro rfl
        cases hs
        cases ends '=' rfl
    · rintro rfl tail rfl
      cases hs
      cases ends '/' rfl
  cases s with
  | equal | notEqual => rfl
  | _ => exact hsingle _ rfl rfl

/-- A number is read in front of all that does not begin with a digit. -/
theorem next?_number {c : Char} {digits x : List Char} (hc : c.isDigit = true)
    (hdigits : ∀ d ∈ digits, d.isDigit = true) (ends : ∀ d ∈ x.head?, d.isDigit = false) :
    next? (c :: digits ++ x) = some (.int (String.ofList (c :: digits)), x) := by
  have hblank := not_isBlank_of_continuesWord (continuesWord_of_isDigit hc)
  have hslash : c ≠ '/' := by
    rintro rfl
    cases hc
  rw [List.cons_append, next?_cons hblank fun h => absurd h hslash, scan_number hc hdigits ends]

/-- A string is read in front of everything. -/
theorem next?_string {text body : List Char} (h : Quotes text body) (x : List Char) :
    next? ('"' :: (body ++ '"' :: x)) = some (.str (String.ofList text), x) := by
  rw [next?_cons (by decide) fun h => absurd h (by decide), scan, h.scanString]
  rfl

/-- A word that is gone on with is another one. -/
theorem next?_word_longer {c d : Char} {word x : List Char} (hc : startsWord c = true)
    (hword : ∀ e ∈ word, continuesWord e = true) (hd : continuesWord d = true) :
    ∃ longer rest, next? (c :: word ++ d :: x) = some (ofWord longer, rest) ∧
      longer ≠ String.ofList (c :: word) := by
  have hrun : ∀ e ∈ word ++ d :: x.takeWhile continuesWord, continuesWord e = true := by
    exact List.forall_mem_append.mpr
      ⟨hword, List.forall_mem_cons.mpr ⟨hd, mem_takeWhile continuesWord x⟩⟩
  have hnext := next?_word hc hrun (head_dropWhile continuesWord x)
  have hcut : c :: (word ++ d :: x.takeWhile continuesWord) ++ x.dropWhile continuesWord =
      c :: word ++ d :: x := by simp
  rw [hcut] at hnext
  refine ⟨_, _, hnext, fun hsame => ?_⟩
  have hlength := congrArg List.length (String.ofList_injective hsame)
  simp at hlength

/-! ### Reading all tokens -/

/-- A token where it stands in a text: with the text that it begins, and the text that follows it. Where it
begins says more than the token does, as the same token may be there twice. -/
structure Reading where
  start : List Char
  token : Token
  rest : List Char

section

variable {first? : List Char → Option (Token × List Char)} {cs rest : List Char} {t : Token}

/-- What a text reads as if `first?` tells its first token and what is left, which has to be less than
there was. Trivia before a token do not belong to it. -/
def readingsBy (first? : List Char → Option (Token × List Char))
    (shrinks : ∀ {cs t rest}, first? cs = some (t, rest) → rest.length < cs.length)
    (cs : List Char) : List Reading :=
  match _h : first? cs with
  | none => []
  | some (t, rest) => ⟨skipTrivia false cs, t, rest⟩ :: readingsBy first? shrinks rest
termination_by cs.length
decreasing_by exact shrinks _h

variable {shrinks : ∀ {cs t rest}, first? cs = some (t, rest) → rest.length < cs.length}

theorem readingsBy_of_none (h : first? cs = none) : readingsBy first? shrinks cs = [] := by
  rw [readingsBy]
  split <;> simp_all

theorem readingsBy_of_some (h : first? cs = some (t, rest)) : readingsBy first? shrinks cs =
    ⟨skipTrivia false cs, t, rest⟩ :: readingsBy first? shrinks rest := by
  rw [readingsBy]
  split <;> simp_all

/-- Texts that begin with later tokens are shorter. -/
theorem length_le_of_mem_readingsBy {reading : Reading} (h : reading ∈ readingsBy first? shrinks cs) :
    reading.start.length ≤ cs.length := by
  -- The rest of a text is shorter than it, so the induction is on the length.
  induction hn : cs.length using Nat.strongRecOn generalizing cs with
  | ind n ih =>
    cases hfirst : first? cs with
    | none =>
      rw [readingsBy_of_none hfirst] at h
      cases h
    | some read =>
      obtain ⟨t, rest⟩ := read
      rw [readingsBy_of_some hfirst] at h
      rcases List.mem_cons.mp h with rfl | h
      · exact hn ▸ length_skipTrivia_le false cs
      · have hlt := shrinks hfirst
        have hle := ih _ (hn ▸ hlt) h rfl
        omega

end

/-- The tokens of a text where they stand. -/
def readings (cs : List Char) : List Reading := readingsBy next? length_lt_of_next? cs

end Token

end Notebook
