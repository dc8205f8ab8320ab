import Notebook.Token.Lexer

/-!
How tokens are spelled.

Every token but an illegal one has a spelling, provided that its text is what such a token can carry
(`Token.isSpellable`). Reading a text in which some tokens are spelled one after the other, with
blanks between them, gives these tokens (`Token.ofSource_text`), and no others are ever read, but for
illegal ones (`Token.spellable_of_mem_ofSource`).
-/

namespace Notebook.Token

/-! ### Spellings -/

/-- Is a word one that names things? It begins like a word, and is none of the keywords. -/
def isName (word : String) : Bool :=
  match word.toList with
  | [] => false
  | c :: rest => startsWord c && rest.all continuesWord && (Keyword.ofSpelling? word).isNone

def isNumber (digits : String) : Bool :=
  match digits.toList with
  | [] => false
  | c :: rest => c.isDigit && rest.all Char.isDigit

/-- Does a token carry a text that such a token can have? -/
def isSpellable : Token → Bool
  | .ident name => isName name
  | .int digits => isNumber digits
  | .illegal _ => false
  | .str _ | .symbol _ | .keyword _ => true

/-- A character of a string as it is written between the quotes. -/
def escape : Char → List Char
  | '\n' => ['\\', 'n']
  | '\t' => ['\\', 't']
  | '"' => ['\\', '"']
  | '\\' => ['\\', '\\']
  | c => [c]

/-- Some characters, and what may be written for them between the quotes of a string: every character
that needs no escape as it is, and every one that there is an escape for by that. -/
inductive Quotes : List Char → List Char → Prop where
  | nil : Quotes [] []
  | plain {c : Char} {text body : List Char} (hquote : c ≠ '"') (hslash : c ≠ '\\') :
      Quotes text body → Quotes (c :: text) (c :: body)
  | escaped {c meant : Char} {text body : List Char} (hmeant : unescape? c = some meant) :
      Quotes text body → Quotes (meant :: text) ('\\' :: c :: body)

def spelling : Token → List Char
  | .ident name => name.toList
  | .int digits => digits.toList
  | .str text => '"' :: (text.toList.flatMap escape ++ ['"'])
  | .illegal text => text.toList
  | .symbol s => s.spelling.toList
  | .keyword k => k.spelling.toList

/-- Some tokens as a text, each with a blank after it. -/
def text (ts : List Token) : String :=
  String.ofList (ts.flatMap fun t => t.spelling ++ [' '])

/-! ### Characters -/

theorem isAlpha_iff (c : Char) : c.isAlpha = true ↔
    (65 ≤ c.toNat ∧ c.toNat ≤ 90) ∨ (97 ≤ c.toNat ∧ c.toNat ≤ 122) := by
  have hletters : c.isAlpha =
      (decide (65 ≤ c.val ∧ c.val ≤ 90) || (decide (97 ≤ c.val) && decide (c.val ≤ 122))) := rfl
  simp [hletters, UInt32.le_iff_toNat_le]

theorem startsWord_iff (c : Char) : startsWord c = true ↔
    (65 ≤ c.toNat ∧ c.toNat ≤ 90) ∨ (97 ≤ c.toNat ∧ c.toNat ≤ 122) ∨ c.toNat = 95 := by
  have hline : c = '_' ↔ c.toNat = 95 := by rw [← Char.toNat_inj]; rfl
  simp [startsWord, isAlpha_iff, hline, or_assoc]

theorem continuesWord_iff (c : Char) : continuesWord c = true ↔
    (48 ≤ c.toNat ∧ c.toNat ≤ 57) ∨ (65 ≤ c.toNat ∧ c.toNat ≤ 90) ∨
      (97 ≤ c.toNat ∧ c.toNat ≤ 122) ∨ c.toNat = 95 := by
  have hline : c = '_' ↔ c.toNat = 95 := by rw [← Char.toNat_inj]; rfl
  simp [continuesWord, Char.isAlphanum, isAlpha_iff, Char.isDigit, UInt32.le_iff_toNat_le, hline]
  omega

theorem isDigit_iff (c : Char) : c.isDigit = true ↔ 48 ≤ c.toNat ∧ c.toNat ≤ 57 := by
  simp [Char.isDigit, UInt32.le_iff_toNat_le]

theorem not_isBlank_of_continuesWord {c : Char} (h : continuesWord c = true) :
    Text.isBlank c = false := by
  rw [continuesWord_iff] at h
  rw [← Bool.not_eq_true]
  simp only [Text.isBlank, Bool.or_eq_true, Bool.and_eq_true, decide_eq_true_eq, beq_iff_eq]
  omega

theorem continuesWord_of_startsWord {c : Char} (h : startsWord c = true) :
    continuesWord c = true := by
  rw [startsWord_iff] at h
  rw [continuesWord_iff]
  omega

theorem continuesWord_of_isDigit {c : Char} (h : c.isDigit = true) : continuesWord c = true := by
  rw [isDigit_iff] at h
  rw [continuesWord_iff]
  omega

theorem not_isDigit_of_startsWord {c : Char} (h : startsWord c = true) : c.isDigit = false := by
  rw [startsWord_iff] at h
  rw [← Bool.not_eq_true, isDigit_iff]
  omega

/-- A character of a word is no punctuation. -/
theorem symbolOf?_of_continuesWord {c : Char} (h : continuesWord c = true) :
    symbolOf? c = none := by
  unfold symbolOf?
  split <;> first | rfl | exact absurd h (by decide)

/-- Does a text begin with something that ends the token before it, whatever token that is? The end of the text
does, too. -/
def Separated : List Char → Prop
  | [] => True
  | c :: _ => continuesWord c = false ∧ c ≠ '=' ∧ c ≠ '/'

theorem separated_of_isBlank {c : Char} (h : Text.isBlank c = true) (rest : List Char) :
    Separated (c :: rest) := by
  refine ⟨?_, ?_, ?_⟩
  · rw [← Bool.not_eq_true]
    intro hword
    rw [not_isBlank_of_continuesWord hword] at h
    cases h
  · rintro rfl
    exact absurd h (by decide)
  · rintro rfl
    exact absurd h (by decide)

/-- Such a text goes on with no word. -/
theorem Separated.head {rest : List Char} (h : Separated rest) :
    ∀ c ∈ rest.head?, continuesWord c = false := by
  intro c hc
  obtain ⟨tail, rfl⟩ := List.head?_eq_some_iff.mp hc
  exact h.1

/-- A run of characters ends where what follows does not go on with it. -/
theorem takeWhile_run {p : Char → Bool} {word rest : List Char} (hword : ∀ c ∈ word, p c = true)
    (hrest : ∀ c ∈ rest.head?, p c = false) :
    (word ++ rest).takeWhile p = word ∧ (word ++ rest).dropWhile p = rest := by
  rw [List.takeWhile_append_of_pos hword, List.dropWhile_append_of_pos hword]
  cases rest with
  | nil => exact ⟨List.append_nil word, rfl⟩
  | cons c rest =>
    have hc : ¬ p c = true := Bool.eq_false_iff.mp (hrest c rfl)
    rw [List.takeWhile_cons_of_neg hc, List.dropWhile_cons_of_neg hc]
    exact ⟨List.append_nil word, rfl⟩

theorem mem_takeWhile (p : Char → Bool) (cs : List Char) : ∀ d ∈ cs.takeWhile p, p d = true :=
  List.all_eq_true.mp List.all_takeWhile

/-- A run of characters is not gone on with. -/
theorem head_dropWhile (p : Char → Bool) (cs : List Char) :
    ∀ d ∈ (cs.dropWhile p).head?, p d = false := by
  intro d hd
  have hhead := List.head?_dropWhile_not p cs
  rwa [hd] at hhead

/-! ### Reading one token -/

/-- A symbol of one character is read where it does not go on. -/
theorem scan_symbol {c : Char} {s : Symbol} {rest : List Char} (hs : symbolOf? c = some s)
    (hrest : ∀ tail, rest = '=' :: tail → c ≠ '=' ∧ c ≠ '!') : scan c rest = (.symbol s, rest) := by
  unfold scan
  split
  · exact absurd rfl (hrest _ rfl).1
  · exact absurd rfl (hrest _ rfl).2
  · cases hs
  · rw [hs]

/-- What begins with neither a symbol nor a quote is a number, a word, or illegal. -/
theorem scan_of_noSymbol {c : Char} {rest : List Char} (hquote : c ≠ '"')
    (hnone : symbolOf? c = none) : scan c rest =
      if c.isDigit then
        (.int (String.ofList (c :: rest.takeWhile Char.isDigit)), rest.dropWhile Char.isDigit)
      else if startsWord c then
        (ofWord (String.ofList (c :: rest.takeWhile continuesWord)), rest.dropWhile continuesWord)
      else (.illegal (String.ofList [c]), rest) := by
  unfold scan
  split
  · cases hnone
  · cases hnone
  · exact absurd rfl hquote
  · rw [hnone]

/-- What begins like a word is one. -/
theorem scan_word {c : Char} {word rest : List Char} (hc : startsWord c = true)
    (hword : ∀ c ∈ word, continuesWord c = true) (hrest : ∀ c ∈ rest.head?, continuesWord c = false) :
    scan c (word ++ rest) = (ofWord (String.ofList (c :: word)), rest) := by
  obtain ⟨htake, hdrop⟩ := takeWhile_run hword hrest
  have hquote : c ≠ '"' := by
    rintro rfl
    cases hc
  rw [scan_of_noSymbol hquote (symbolOf?_of_continuesWord (continuesWord_of_startsWord hc)),
    if_neg (Bool.eq_false_iff.mp (not_isDigit_of_startsWord hc)), if_pos hc, htake, hdrop]

/-- What begins with a digit is a number. -/
theorem scan_number {c : Char} {digits rest : List Char} (hc : c.isDigit = true)
    (hdigits : ∀ c ∈ digits, c.isDigit = true) (hrest : ∀ c ∈ rest.head?, c.isDigit = false) :
    scan c (digits ++ rest) = (.int (String.ofList (c :: digits)), rest) := by
  obtain ⟨htake, hdrop⟩ := takeWhile_run hdigits hrest
  have hquote : c ≠ '"' := by
    rintro rfl
    cases hc
  rw [scan_of_noSymbol hquote (symbolOf?_of_continuesWord (continuesWord_of_isDigit hc)), if_pos hc,
    htake, hdrop]

/-- What is quoted is read, and then what follows it. -/
theorem Quotes.scanString_append {text body : List Char} (h : Quotes text body)
    (read rest : List Char) :
    scanString read (body ++ rest) = Token.scanString (text.reverse ++ read) rest := by
  induction h generalizing read with
  | nil => rfl
  | plain _ hslash _ ih => simp [Token.scanString, hslash, ih]
  | escaped hmeant _ ih => simp [Token.scanString, hmeant, ih]

/-- A string is read up to its closing quote. -/
theorem Quotes.scanString {text body : List Char} (h : Quotes text body) (read rest : List Char) :
    scanString read (body ++ '"' :: rest) = (.str (String.ofList (read.reverse ++ text)), rest) := by
  rw [h.scanString_append]
  simp [Token.scanString]

theorem quotes_escape (text : List Char) : Quotes text (text.flatMap escape) := by
  induction text with
  | nil => exact .nil
  | cons c text ih =>
    rw [List.flatMap_cons]
    unfold escape
    split
    · exact .escaped rfl ih
    · exact .escaped rfl ih
    · exact .escaped rfl ih
    · exact .escaped rfl ih
    · rename_i hquote hslash
      exact .plain hquote hslash ih

/-- A text that begins with no blank and no comment begins with no trivia. -/
theorem skipTrivia_eq_self {c : Char} {rest : List Char} (hblank : Text.isBlank c = false)
    (hslash : c = '/' → ∀ tail, rest ≠ '/' :: tail) :
    skipTrivia false (c :: rest) = c :: rest := by
  unfold skipTrivia
  split
  · cases ‹c :: rest = []›
  · cases ‹false = true›
  · cases ‹c :: rest = _›
    exact absurd rfl (hslash rfl _)
  · cases ‹c :: rest = _›
    rw [hblank]
    rfl

/-- A text that begins with no blank and no comment begins with a token. -/
theorem next?_cons {c : Char} {rest : List Char} (hblank : Text.isBlank c = false)
    (hslash : c = '/' → ∀ tail, rest ≠ '/' :: tail) : next? (c :: rest) = some (scan c rest) := by
  unfold next?
  rw [skipTrivia_eq_self hblank hslash]

theorem next?_symbol (s : Symbol) {rest : List Char} (hrest : Separated rest) :
    next? (s.spelling.toList ++ rest) = some (.symbol s, rest) := by
  have hequal : ∀ tail, rest ≠ '=' :: tail := by
    rintro tail rfl
    exact hrest.2.1 rfl
  have hslash : ∀ tail, rest ≠ '/' :: tail := by
    rintro tail rfl
    exact hrest.2.2 rfl
  have hsingle : ∀ c, symbolOf? c = some s → Text.isBlank c = false →
      next? (c :: rest) = some (.symbol s, rest) := by
    intro c hs hblank
    rw [next?_cons hblank fun _ => hslash, scan_symbol hs fun tail h => absurd h (hequal tail)]
  cases s with
  | equal | notEqual => rfl
  | _ => exact hsingle _ rfl rfl

/-- Whatever begins like a word begins with one. -/
theorem next?_word {c : Char} {word rest : List Char} (hc : startsWord c = true)
    (hword : ∀ c ∈ word, continuesWord c = true) (hrest : ∀ c ∈ rest.head?, continuesWord c = false) :
    next? (c :: word ++ rest) = some (ofWord (String.ofList (c :: word)), rest) := by
  have hblank := not_isBlank_of_continuesWord (continuesWord_of_startsWord hc)
  have hslash : c ≠ '/' := by
    rintro rfl
    cases hc
  rw [List.cons_append, next?_cons hblank fun h => absurd h hslash, scan_word hc hword hrest]

theorem isName_iff {word : String} : isName word = true ↔ ∃ c rest, word = String.ofList (c :: rest) ∧
    startsWord c = true ∧ (∀ c ∈ rest, continuesWord c = true) ∧ Keyword.ofSpelling? word = none := by
  constructor
  · intro h
    unfold isName at h
    split at h
    · cases h
    · rename_i c rest hchars
      simp only [Bool.and_eq_true, List.all_eq_true, Option.isNone_iff_eq_none] at h
      refine ⟨c, rest, ?_, h.1.1, h.1.2, h.2⟩
      rw [← hchars, String.ofList_toList]
  · rintro ⟨c, rest, rfl, hc, hrest, hnone⟩
    simp only [isName, String.toList_ofList, Bool.and_eq_true, List.all_eq_true,
      Option.isNone_iff_eq_none]
    exact ⟨⟨hc, hrest⟩, hnone⟩

/-- A name is read up to where its word ends. -/
theorem next?_name {name : String} (h : isName name = true) {rest : List Char}
    (hrest : ∀ c ∈ rest.head?, continuesWord c = false) :
    next? (name.toList ++ rest) = some (.ident name, rest) := by
  obtain ⟨c, word, rfl, hc, hword, hnone⟩ := isName_iff.mp h
  rw [String.toList_ofList, next?_word hc hword hrest, ofWord, hnone]

theorem isNumber_iff {digits : String} : isNumber digits = true ↔
    ∃ c rest, digits = String.ofList (c :: rest) ∧ ∀ d ∈ c :: rest, d.isDigit = true := by
  constructor
  · intro h
    unfold isNumber at h
    split at h
    · cases h
    · rename_i c rest hchars
      simp only [Bool.and_eq_true, List.all_eq_true] at h
      refine ⟨c, rest, ?_, List.forall_mem_cons.mpr h⟩
      rw [← hchars, String.ofList_toList]
  · rintro ⟨c, rest, rfl, hdigits⟩
    simp only [isNumber, String.toList_ofList, Bool.and_eq_true, List.all_eq_true]
    exact List.forall_mem_cons.mp hdigits

theorem exists_word (k : Keyword) : ∃ c word, k.spelling = String.ofList (c :: word) ∧
    startsWord c = true ∧ ∀ c ∈ word, continuesWord c = true := by
  cases k <;> exact ⟨_, _, rfl, rfl, List.all_eq_true.mp rfl⟩

/-- What spells a token is read as the token, if something follows that ends it. A blank does for all tokens,
and so does the end of the text. -/
theorem next?_spelling {t : Token} (ht : t.isSpellable = true) {rest : List Char}
    (hrest : Separated rest) : next? (t.spelling ++ rest) = some (t, rest) := by
  -- Every kind of token is read by its own branch of the scanner; what is to be seen is that no earlier branch
  -- takes it.
  cases t with
  | ident name => exact next?_name ht hrest.head
  | int digits =>
    obtain ⟨c, more, rfl, hdigits⟩ := isNumber_iff.mp ht
    obtain ⟨hc, hmore⟩ := List.forall_mem_cons.mp hdigits
    have hblank := not_isBlank_of_continuesWord (continuesWord_of_isDigit hc)
    have hslash : c ≠ '/' := by
      rintro rfl
      cases hc
    have hends : ∀ d ∈ rest.head?, d.isDigit = false := fun d hd =>
      Bool.eq_false_iff.mpr fun hdigit =>
        Bool.eq_false_iff.mp (hrest.head d hd) (continuesWord_of_isDigit hdigit)
    rw [spelling, String.toList_ofList, List.cons_append,
      next?_cons hblank fun h => absurd h hslash, scan_number hc hmore hends]
  | str text =>
    have hscan := (quotes_escape text.toList).scanString [] rest
    rw [List.reverse_nil, List.nil_append, String.ofList_toList] at hscan
    rw [spelling, List.cons_append, next?_cons (by decide) fun h => absurd h (by decide),
      List.append_assoc, List.singleton_append, scan, hscan]
  | illegal text => cases ht
  | symbol s => exact next?_symbol s hrest
  | keyword k =>
    obtain ⟨c, word, hspelling, hc, hword⟩ := exists_word k
    rw [spelling, hspelling, String.toList_ofList, next?_word hc hword hrest.head, ← hspelling, ofWord,
      Keyword.ofSpelling?_spelling]

/-! ### Reading all tokens -/

theorem skipTrivia_blank {c : Char} (h : Text.isBlank c = true) (cs : List Char) :
    skipTrivia false (c :: cs) = skipTrivia false cs := by
  conv => lhs; unfold skipTrivia
  split
  · cases ‹c :: cs = []›
  · cases ‹false = true›
  · cases ‹c :: cs = _›
    exact absurd h (by decide)
  · cases ‹c :: cs = _›
    rw [if_pos h]

/-- Only what is left when trivia are skipped is read. -/
theorem ofChars_congr {cs cs' : List Char} (h : skipTrivia false cs = skipTrivia false cs') :
    ofChars cs = ofChars cs' := by
  have hnext : next? cs = next? cs' := by
    unfold next?
    rw [h]
  rw [ofChars_eq, ofChars_eq cs', hnext]

/-- A blank between tokens says nothing. -/
theorem ofChars_blank {c : Char} (h : Text.isBlank c = true) (cs : List Char) :
    ofChars (c :: cs) = ofChars cs :=
  ofChars_congr (skipTrivia_blank h cs)

/-- Tokens that are spelled out with blanks between them are read again. -/
theorem ofSource_text {ts : List Token} (h : ∀ t ∈ ts, t.isSpellable = true) :
    ofSource (text ts) = ts := by
  unfold ofSource text
  rw [String.toList_ofList]
  induction ts with
  | nil =>
    rw [List.flatMap_nil, ofChars_eq]
    rfl
  | cons t ts ih =>
    obtain ⟨ht, hts⟩ := List.forall_mem_cons.mp h
    rw [List.flatMap_cons, List.append_assoc, List.singleton_append, ofChars_eq,
      next?_spelling ht (separated_of_isBlank (by decide) _)]
    simp only [ofChars_blank (show Text.isBlank ' ' = true by decide), ih hts]

/-! ### What is read -/

/-- A string is either read in full or illegal. -/
theorem scanString_cases (read cs : List Char) :
    (∃ text, (scanString read cs).1 = .str text) ∨ ∃ text, (scanString read cs).1 = .illegal text := by
  fun_induction scanString read cs with
  | case1 | case3 | case5 => exact .inr ⟨_, rfl⟩
  | case2 => exact .inl ⟨_, rfl⟩
  | case4 _ _ _ _ _ ih | case6 _ _ _ _ _ _ ih => exact ih

theorem spellable_of_scan (c : Char) (cs : List Char) :
    (scan c cs).1.isSpellable = true ∨ ∃ text, (scan c cs).1 = .illegal text := by
  unfold scan
  split
  · exact .inl rfl
  · exact .inl rfl
  · rcases scanString_cases [] cs with ⟨text, hscan⟩ | ⟨text, hscan⟩
    · rw [hscan]
      exact .inl rfl
    · exact .inr ⟨text, hscan⟩
  · split
    · exact .inl rfl
    · split
      · rename_i hdigit
        refine .inl (isNumber_iff.mpr ⟨c, _, rfl, List.forall_mem_cons.mpr ⟨hdigit, ?_⟩⟩)
        exact mem_takeWhile Char.isDigit cs
      · split
        · rename_i hstarts
          left
          unfold ofWord
          split
          · rfl
          · rename_i hnone
            exact isName_iff.mpr ⟨c, _, rfl, hstarts, mem_takeWhile continuesWord cs, hnone⟩
        · exact .inr ⟨_, rfl⟩

/-- Every token that is read from a text can be spelled, unless it is illegal. -/
theorem spellable_of_mem_ofSource {source : String} {t : Token} (h : t ∈ ofSource source) :
    t.isSpellable = true ∨ ∃ text, t = .illegal text := by
  unfold ofSource at h
  generalize source.toList = cs at h
  induction hn : cs.length using Nat.strongRecOn generalizing cs with
  | ind n ih =>
    rw [ofChars_eq] at h
    cases hnext : next? cs with
    | none =>
      rw [hnext] at h
      cases h
    | some read =>
      obtain ⟨first, rest⟩ := read
      rw [hnext] at h
      rcases List.mem_cons.mp h with rfl | h
      · unfold next? at hnext
        split at hnext
        · cases hnext
        · rename_i c tail _
          have hscan := spellable_of_scan c tail
          rw [Option.some.inj hnext] at hscan
          exact hscan
      · exact ih _ (hn ▸ length_lt_of_next? hnext) rest h rfl

end Notebook.Token
