import Notebook.Proofs.Syntax.TokenReading

/-!
A text as tokens with trivia between them.

* `Token.Spells`: a token that is not illegal, and the characters that spell it.
* `Token.Taken`: the characters that a token is read from in front of a text. What spells a token is
  taken as far as it goes, and an illegal token is taken up to where it went wrong.
* `Token.Taken.next?`, `Token.exists_taken`: in front of a text a token is read from just these.
* `Token.Tiled`: a text that is cut into tokens and what stands between them.
* `Token.Reader`: a reader that is called for one token after the other.
* `Token.Reader.after_tiles`: whatever the text is, the reader goes over its tiles one by one, and then
  stays at the end.
* `Token.Reader.after_written`: tokens that are spelled with separators between them are read again.
-/

namespace Notebook.Token

/-! ### The characters of a token -/

/-- Is a token read together with a character that comes right after it? If so, a longer or another token is
read there. -/
def goesOn : Token → Char → Bool
  | .ident _, c | .keyword _, c => continuesWord c
  | .int _, c => c.isDigit
  | .symbol s, c => s.goesOn c
  | .str _, _ | .illegal _, _ => false

/-- A token that is not illegal, and characters that spell it. -/
inductive Spells : Token → List Char → Prop where
  | name {name : String} (h : isName name = true) : Spells (.ident name) name.toList
  | number {digits : String} (h : isNumber digits = true) : Spells (.int digits) digits.toList
  | string {text : String} {body : List Char} (h : Quotes text.toList body) :
      Spells (.str text) ('"' :: (body ++ ['"']))
  | symbol (s : Symbol) : Spells (.symbol s) s.spelling.toList
  | keyword (k : Keyword) : Spells (.keyword k) k.spelling.toList

/-- Is this a character that nothing begins with? It is read as an illegal token by itself. -/
def isStray (c : Char) : Bool :=
  !Text.isBlank c && c != '"' && (symbolOf? c).isNone && !c.isDigit && !startsWord c

/-- A token, the characters that it is read from, and the text in front of which it is read from them. The
characters are as many as can be read together. -/
inductive Taken : Token → List Char → List Char → Prop where
  | spelled {t : Token} {span rest : List Char} (spells : Spells t span)
      (ends : ∀ c ∈ rest.head?, t.goesOn c = false) : Taken t span rest
  | broken {text body stop message rest : List Char} (quotes : Quotes text body)
      (breaks : Breaks text stop message rest) :
      Taken (.illegal (String.ofList message)) ('"' :: (body ++ stop)) rest
  | stray {c : Char} {rest : List Char} (h : isStray c = true) :
      Taken (.illegal (String.ofList [c])) [c] rest

section

variable {t : Token} {cs gap span rest : List Char}

theorem Spells.next? (h : Spells t span) (ends : ∀ c ∈ rest.head?, t.goesOn c = false) :
    next? (span ++ rest) = some (t, rest) := by
  cases h with
  | name h => exact next?_name h ends
  | number h =>
    obtain ⟨c, digits, rfl, hdigits⟩ := isNumber_iff.mp h
    obtain ⟨hc, hmore⟩ := List.forall_mem_cons.mp hdigits
    rw [String.toList_ofList]
    exact next?_number hc hmore ends
  | @string text body h =>
    have hread := next?_string h rest
    rwa [String.ofList_toList, ← List.singleton_append (l := rest), ← List.append_assoc] at hread
  | symbol s => exact next?_symbol_of_ends s ends
  | keyword k =>
    obtain ⟨c, word, hspelling, hc, hword⟩ := exists_word k
    have hread := next?_word hc hword ends
    rwa [← hspelling, ofWord, Keyword.ofSpelling?_spelling, ← String.toList_ofList (l := c :: word),
      ← hspelling] at hread

/-- A token is read from the characters that it is taken from, and what is left is what came after them. -/
theorem Taken.next? (h : Taken t span rest) : next? (span ++ rest) = some (t, rest) := by
  cases h with
  | spelled spells ends => exact spells.next? ends
  | broken quotes breaks =>
    rw [List.cons_append, next?_cons (by decide) fun h => absurd h (by decide), scan,
      List.append_assoc, quotes.scanString_append]
    cases breaks with
    | ends | endsInEscape => simp [scanString]
    | escape hnone => simp [scanString, hnone]
  | @stray c rest h =>
    simp only [isStray, Bool.and_eq_true, Bool.not_eq_true', bne_iff_ne, Option.isNone_iff_eq_none] at h
    obtain ⟨⟨⟨⟨hblank, hquote⟩, hsymbol⟩, hdigit⟩, hstarts⟩ := h
    have hslash : c ≠ '/' := by
      rintro rfl
      cases hsymbol
    rw [List.singleton_append, next?_cons hblank fun h => absurd h hslash,
      scan_of_noSymbol hquote hsymbol, hdigit, hstarts]
    rfl

/-- What is not illegal is spelled where it is read, as far as that goes: the characters are a spelling of the
token, and the next one is not read together with it. -/
theorem Scanned.spelled (h : Scanned cs t rest) (hlegal : ∀ text, t ≠ .illegal text) :
    ∃ span, cs = span ++ rest ∧ Taken t span rest := by
  cases h with
  | symbol ends => exact ⟨_, rfl, .spelled (.symbol _) ends⟩
  | @number c digits rest first more ends =>
    have hspells : Spells (.int (String.ofList (c :: digits))) (c :: digits) := by
      have hnumber := isNumber_iff.mpr ⟨c, digits, rfl, List.forall_mem_cons.mpr ⟨first, more⟩⟩
      have hspells := Spells.number hnumber
      rwa [String.toList_ofList] at hspells
    exact ⟨c :: digits, rfl, .spelled hspells ends⟩
  | @word c word rest first more ends =>
    refine ⟨c :: word, rfl, ?_⟩
    -- A word is a keyword or a name.
    unfold ofWord
    split
    · rename_i k hk
      have hspells := Spells.keyword k
      rw [Keyword.spelling_of_ofSpelling? hk, String.toList_ofList] at hspells
      exact .spelled hspells ends
    · rename_i hnone
      have hspells := Spells.name (isName_iff.mpr ⟨c, word, rfl, first, more, hnone⟩)
      rw [String.toList_ofList] at hspells
      exact .spelled hspells ends
  | @string text body rest quotes =>
    have hspells : Spells (.str (String.ofList text)) ('"' :: (body ++ ['"'])) := by
      refine .string ?_
      rwa [String.toList_ofList]
    exact ⟨_, by simp, .spelled hspells fun c _ => rfl⟩
  | broken | other => exact absurd rfl (hlegal _)

/-- What is illegal is a string that breaks off or a character that nothing begins with. -/
theorem taken_of_scan_illegal {c : Char} {tail : List Char} {text : String}
    (hblank : Text.isBlank c = false) (h : scan c tail = (.illegal text, rest)) :
    ∃ span, c :: tail = span ++ rest ∧ Taken (.illegal text) span rest := by
  unfold scan at h
  split at h
  · cases h
  · cases h
  · obtain ⟨text, body, hquotes, ⟨ht, -⟩ | ⟨stop, message, hbreaks, ht, rfl⟩⟩ := scanned_string h
    · cases ht
    · cases ht
      exact ⟨'"' :: (body ++ stop), by simp, .broken hquotes hbreaks⟩
  · rename_i hquote _ _
    split at h
    · cases h
    · rename_i hsymbol
      split at h
      · cases h
      · rename_i hdigit
        split at h
        · exact absurd (congrArg Prod.fst h) (ofWord_ne_illegal _ _)
        · rename_i hstarts
          cases h
          refine ⟨[c], rfl, .stray ?_⟩
          have hc : c ≠ '"' := fun hc => hquote hc
          simp [isStray, hblank, hc, hsymbol, hdigit, hstarts]

/-- A token is read from characters in front of which stand trivia. -/
theorem exists_taken (h : next? cs = some (t, rest)) :
    ∃ gap span, Trivia gap ∧ Taken t span rest ∧ cs = gap ++ (span ++ rest) := by
  have hscanned := scanned_of_next? h
  unfold Token.next? at h
  split at h
  · cases h
  · rename_i c tail hskip
    obtain ⟨gap, rfl, hgap⟩ := exists_trivia hskip
    have hself := (hgap.skipTrivia (c :: tail)).symm.trans hskip
    have htaken : ∃ span, c :: tail = span ++ rest ∧ Taken t span rest := by
      cases t with
      | illegal text => exact taken_of_scan_illegal (not_trivia hself).1 (Option.some.inj h)
      | _ =>
        rw [hskip] at hscanned
        exact hscanned.spelled fun text => nofun
    obtain ⟨span, hspan, htaken⟩ := htaken
    exact ⟨gap, span, hgap, htaken, congrArg (gap ++ ·) hspan⟩

theorem Taken.ne_nil (h : Taken t span rest) : span ≠ [] := by
  rintro rfl
  have hlt := length_lt_of_next? h.next?
  exact absurd hlt (Nat.lt_irrefl _)

end

/-! ### Tiles -/

/-- Trivia up to the end of a text, which may be the end of a comment. -/
inductive Trailing : List Char → Prop where
  | trivia {gap : List Char} : Trivia gap → Trailing gap
  | comment {gap line : List Char} (hline : '\n' ∉ line) :
      Trivia gap → Trailing (gap ++ '/' :: '/' :: line)

/-- Some characters that a token is read from, and what stands between them and the token before. -/
structure Tile where
  gap : List Char
  span : List Char
  token : Token

def Tile.chars (tile : Tile) : List Char := tile.gap ++ tile.span

/-- A text that is cut into tiles, one after the other, with only trivia after them. -/
inductive Tiled : List Char → List Tile → Prop where
  | last {cs : List Char} : Trailing cs → Tiled cs []
  | next {tile : Tile} {rest : List Char} {tiles : List Tile} (gap : Trivia tile.gap)
      (taken : Taken tile.token tile.span rest) :
      Tiled rest tiles → Tiled (tile.chars ++ rest) (tile :: tiles)

section

variable {cs rest : List Char} {tile : Tile} {tiles : List Tile}

theorem next?_eq_none_iff_trailing : next? cs = none ↔ Trailing cs := by
  rw [next?_eq_none_iff]
  constructor
  · intro hskip
    obtain ⟨gap, hgap, hcs | ⟨-, line, hline, rfl⟩⟩ := trivia_or_comment cs
    · rw [hskip, List.append_nil] at hcs
      exact .trivia (hcs ▸ hgap)
    · exact .comment hline hgap
  · intro h
    cases h with
    | trivia hgap =>
      have hskip := hgap.skipTrivia []
      rwa [List.append_nil] at hskip
    | comment hline hgap =>
      have hskip := skipTrivia_comment hline []
      rw [List.append_nil] at hskip
      exact (hgap.skipTrivia _).trans hskip

theorem tiled_nil_iff : Tiled cs [] ↔ Trailing cs := by
  constructor
  · intro h
    cases h
    assumption
  · exact .last

theorem tiled_cons_iff : Tiled cs (tile :: tiles) ↔ ∃ rest, cs = tile.chars ++ rest ∧
    Trivia tile.gap ∧ Taken tile.token tile.span rest ∧ Tiled rest tiles := by
  constructor
  · intro h
    cases h with
    | next hgap htaken htiles => exact ⟨_, rfl, hgap, htaken, htiles⟩
  · rintro ⟨rest, rfl, hgap, htaken, htiles⟩
    exact .next hgap htaken htiles

theorem next?_tile (hgap : Trivia tile.gap) (htaken : Taken tile.token tile.span rest) :
    next? (tile.chars ++ rest) = some (tile.token, rest) := by
  have hread := htaken.next?
  unfold next? at hread ⊢
  rwa [Tile.chars, List.append_assoc, hgap.skipTrivia]

/-- Every text can be cut into tiles. -/
theorem exists_tiled (cs : List Char) : ∃ tiles, Tiled cs tiles := by
  induction hn : cs.length using Nat.strongRecOn generalizing cs with
  | ind n ih =>
    cases hnext : next? cs with
    | none => exact ⟨[], .last (next?_eq_none_iff_trailing.mp hnext)⟩
    | some read =>
      obtain ⟨t, rest⟩ := read
      obtain ⟨tiles, htiles⟩ := ih _ (hn ▸ length_lt_of_next? hnext) rest rfl
      obtain ⟨gap, span, hgap, htaken, rfl⟩ := exists_taken hnext
      refine ⟨⟨gap, span, t⟩ :: tiles, tiled_cons_iff.mpr ⟨rest, ?_, hgap, htaken, htiles⟩⟩
      rw [Tile.chars, List.append_assoc]

/-- The tokens of a text are those of its tiles. -/
theorem Tiled.ofChars (h : Tiled cs tiles) : ofChars cs = tiles.map Tile.token := by
  induction h with
  | last h =>
    rw [ofChars_eq, next?_eq_none_iff_trailing.mpr h]
    rfl
  | next hgap htaken _ ih =>
    rw [ofChars_eq, next?_tile hgap htaken]
    exact congrArg (_ :: ·) ih

theorem Tiled.length_le (h : Tiled cs tiles) : tiles.length ≤ cs.length := by
  induction h with
  | last => exact Nat.zero_le _
  | next _ htaken _ ih =>
    have hpos := List.length_pos_iff.mpr htaken.ne_nil
    simp only [Tile.chars, List.length_append, List.length_cons]
    omega

end

/-! ### A reader -/

/-- A text and how many of its characters have been read. A lexer that is asked for one token at a time has such
a state. -/
structure Reader where
  source : List Char
  position : Nat := 0

namespace Reader

def ofSource (source : String) : Reader := ⟨source.toList, 0⟩

def rest (r : Reader) : List Char := r.source.drop r.position

def skip (r : Reader) (n : Nat) : Reader := { r with position := r.position + n }

/-- Asks for the next token. The reader moves on by the characters that it takes to read it, or to find
that there is none. -/
def call (r : Reader) : Option Token × Reader :=
  match next? r.rest with
  | none => (none, r.skip r.rest.length)
  | some (t, rest) => (some t, r.skip (r.rest.length - rest.length))

/-- A reader after some calls. -/
def after (r : Reader) : Nat → Reader
  | 0 => r
  | k + 1 => (r.after k).call.2

/-- Has a reader come to a place from which on there are these tiles? -/
structure Faces (r : Reader) (tiles : List Tile) : Prop where
  position_le : r.position ≤ r.source.length
  tiled : Tiled r.rest tiles

section

variable {r : Reader} {tile : Tile} {tiles : List Tile}

/-- At the end a call gives no token. -/
theorem Faces.call_nil (h : r.Faces []) :
    r.call = (none, ⟨r.source, r.source.length⟩) ∧ r.call.2.Faces [] := by
  obtain ⟨hposition, htiled⟩ := h
  have hnone : next? r.rest = none := next?_eq_none_iff_trailing.mpr (tiled_nil_iff.mp htiled)
  have hcall : r.call = (none, ⟨r.source, r.source.length⟩) := by
    have hlength : r.position + r.rest.length = r.source.length := by
      rw [rest, List.length_drop]
      omega
    unfold call
    rw [hnone]
    simp only [skip, hlength]
  refine ⟨hcall, ?_⟩
  rw [hcall]
  refine ⟨Nat.le_refl _, .last (.trivia ?_)⟩
  rw [rest, List.drop_length]
  exact .nil

/-- A call gives the token of the next tile, and moves on by the characters of this tile. -/
theorem Faces.call_cons (h : r.Faces (tile :: tiles)) :
    r.call = (some tile.token, r.skip tile.chars.length) ∧ r.call.2.Faces tiles := by
  obtain ⟨hposition, htiled⟩ := h
  obtain ⟨after, hrest, hgap, htaken, htiles⟩ := tiled_cons_iff.mp htiled
  have hcall : r.call = (some tile.token, r.skip tile.chars.length) := by
    unfold call
    rw [hrest, next?_tile hgap htaken]
    simp
  refine ⟨hcall, ?_⟩
  rw [hcall]
  have hlength := congrArg List.length hrest
  rw [rest, List.length_drop, List.length_append] at hlength
  refine ⟨?_, ?_⟩
  · simp only [skip]
    omega
  · rw [rest, skip, ← List.drop_drop]
    rw [rest] at hrest
    rwa [hrest, List.drop_left]

/-- A reader comes to one tile after the other. By induction on the calls; after the last tile it stays at the
end of the text. -/
theorem Faces.after (h : r.Faces tiles) (k : Nat) :
    (r.after k).source = r.source ∧ (r.after k).Faces (tiles.drop k) ∧ (k ≤ tiles.length →
      (r.after k).position = r.position + ((tiles.take k).flatMap Tile.chars).length) := by
  induction k with
  | zero => exact ⟨rfl, h, fun _ => rfl⟩
  | succ k ih =>
    obtain ⟨hsource, hfaces, hposition⟩ := ih
    rw [← List.tail_drop]
    -- The reader is at the end, or in front of a tile.
    cases htiles : tiles.drop k with
    | nil =>
      rw [htiles] at hfaces
      obtain ⟨hcall, hthere⟩ := hfaces.call_nil
      refine ⟨?_, hthere, fun hk => absurd hk (Nat.not_le_of_lt ?_)⟩
      · rw [Reader.after, hcall]
        exact hsource
      · exact Nat.lt_succ_of_le (List.drop_eq_nil_iff.mp htiles)
    | cons tile more =>
      rw [htiles] at hfaces
      obtain ⟨hcall, hthere⟩ := hfaces.call_cons
      refine ⟨?_, hthere, fun hk => ?_⟩
      · rw [Reader.after, hcall]
        exact hsource
      · have htake : tiles.take (k + 1) = tiles.take k ++ [tile] := by
          rw [List.take_add, htiles]
          rfl
        rw [Reader.after, hcall, htake]
        simp [skip, hposition (Nat.le_of_succ_le hk), Nat.add_assoc]

theorem drop_of_getElem? {k : Nat} (h : tiles[k]? = some tile) :
    tiles.drop k = tile :: tiles.drop (k + 1) := by
  obtain ⟨hk, rfl⟩ := List.getElem?_eq_some_iff.mp h
  exact List.drop_eq_getElem_cons hk

theorem Faces.call_after (h : r.Faces tiles) (k : Nat) :
    (r.after k).call.1 = (tiles.map Tile.token)[k]? := by
  obtain ⟨-, hfaces, -⟩ := h.after k
  rw [List.getElem?_map]
  cases htile : tiles[k]? with
  | none =>
    rw [List.drop_eq_nil_of_le (List.getElem?_eq_none_iff.mp htile)] at hfaces
    rw [hfaces.call_nil.1]
    rfl
  | some tile =>
    rw [drop_of_getElem? htile] at hfaces
    rw [hfaces.call_cons.1]
    rfl

theorem faces_ofSource {source : String} (h : Tiled source.toList tiles) :
    (ofSource source).Faces tiles :=
  ⟨Nat.zero_le _, h⟩

end

/-- Every source text is cut into tiles, at most one for each of its characters. A reader that is called
again and again goes over them one by one: with each call it moves on by the characters of the tile, those
in front of the token and those of the token, and gives the token. Then it is at the end of the text, and
stays there without giving a token. -/
theorem after_tiles (source : String) : ∃ tiles : List Tile,
    Tiled source.toList tiles ∧ Token.ofSource source = tiles.map Tile.token ∧
      tiles.length ≤ source.toList.length ∧
      ∀ k, let r := (ofSource source).after k
        r.position ≤ source.toList.length ∧
        (∀ tile, tiles[k]? = some tile →
          r.position = ((tiles.take k).flatMap Tile.chars).length ∧
          r.call.1 = some tile.token ∧ r.position < r.call.2.position ∧
          r.call.2.position = r.position + tile.gap.length + tile.span.length) ∧
        (tiles.length ≤ k → r.call.1 = none ∧ r.call.2.position = source.toList.length) := by
  obtain ⟨tiles, htiles⟩ := exists_tiled source.toList
  refine ⟨tiles, htiles, htiles.ofChars, htiles.length_le, fun k => ?_⟩
  obtain ⟨hsource, hfaces, hposition⟩ := (faces_ofSource htiles).after k
  refine ⟨?_, fun tile htile => ?_, fun hk => ?_⟩
  · have hle := hfaces.position_le
    rwa [hsource] at hle
  · obtain ⟨hk, -⟩ := List.getElem?_eq_some_iff.mp htile
    rw [drop_of_getElem? htile] at hfaces
    obtain ⟨_, -, -, htaken, -⟩ := tiled_cons_iff.mp hfaces.tiled
    have hpos := List.length_pos_iff.mpr htaken.ne_nil
    have hmoved : ((ofSource source).after k).call.2.position =
        ((ofSource source).after k).position + tile.gap.length + tile.span.length := by
      rw [hfaces.call_cons.1]
      simp [skip, Tile.chars, Nat.add_assoc]
    refine ⟨?_, ?_, ?_, hmoved⟩
    · rw [hposition (Nat.le_of_lt hk)]
      exact Nat.zero_add _
    · rw [hfaces.call_cons.1]
    · omega
  · rw [List.drop_eq_nil_of_le hk] at hfaces
    rw [hfaces.call_nil.1, hsource]
    exact ⟨rfl, rfl⟩

/-- A string that is never closed, after a comment. -/
theorem unclosed_after_tiles :
    let source := "a //\n\"b"
    ∃ tiles tile, Tiled source.toList tiles ∧ tiles.length = 2 ∧ tiles[1]? = some tile ∧
      tile.token = .illegal "\"b" ∧
      ((ofSource source).after 1).call.1 = some tile.token ∧
      ((ofSource source).after 1).position < ((ofSource source).after 1).call.2.position ∧
      ((ofSource source).after 2).call.1 = none := by
  intro source
  obtain ⟨tiles, htiled, htokens, -, hcalls⟩ := after_tiles source
  have hread : Token.ofSource source = [.ident "a", .illegal "\"b"] := by decide +kernel
  rw [hread] at htokens
  obtain ⟨first, more, rfl, -, hmore⟩ := List.map_eq_cons_iff.mp htokens.symm
  obtain ⟨second, last, rfl, hsecond, hlast⟩ := List.map_eq_cons_iff.mp hmore
  obtain rfl := List.map_eq_nil_iff.mp hlast
  obtain ⟨-, hcall, hmoves, -⟩ := (hcalls 1).2.1 second rfl
  exact ⟨_, second, htiled, rfl, rfl, hsecond, hcall, hmoves, ((hcalls 2).2.2 (Nat.le_refl _)).1⟩

end Reader

/-! ### Tokens that are written -/

/-- A blank, and then blanks and comments. -/
def Separator (sep : List Char) : Prop :=
  ∃ c more, sep = c :: more ∧ Text.isBlank c = true ∧ Trivia more

/-- Some tokens, and a text in which they are spelled, with separators between them and around them. -/
inductive Written : List Token → List Char → Prop where
  | nil {sep : List Char} (separator : Separator sep) : Written [] sep
  | cons {t : Token} {ts : List Token} {sep span cs : List Char} (separator : Separator sep)
      (spells : Spells t span) : Written ts cs → Written (t :: ts) (sep ++ (span ++ cs))

section

variable {t : Token} {ts : List Token} {cs sep : List Char}

theorem Separator.trivia (h : Separator sep) : Trivia sep := by
  obtain ⟨c, more, rfl, hblank, hmore⟩ := h
  exact .blank hblank hmore

theorem Written.head (h : Written ts cs) : ∃ c more, cs = c :: more ∧ Text.isBlank c = true := by
  cases h with
  | nil separator =>
    obtain ⟨c, more, rfl, hblank, -⟩ := separator
    exact ⟨c, more, rfl, hblank⟩
  | cons separator =>
    obtain ⟨c, more, rfl, hblank, -⟩ := separator
    exact ⟨c, _, rfl, hblank⟩

/-- No token is read together with a blank. -/
theorem goesOn_of_isBlank {c : Char} (h : Text.isBlank c = true) : t.goesOn c = false := by
  obtain ⟨hword, hequal, hslash⟩ := separated_of_isBlank h []
  cases t with
  | ident | keyword => exact hword
  | int => exact Bool.eq_false_iff.mpr fun h => Bool.eq_false_iff.mp hword (continuesWord_of_isDigit h)
  | str | illegal => rfl
  | symbol s => exact Symbol.goesOn_eq_false hequal hslash

/-- Where tokens are written, they are the tiles. -/
theorem Written.tiled (h : Written ts cs) : ∃ tiles, Tiled cs tiles ∧ tiles.map Tile.token = ts := by
  induction h with
  | nil separator => exact ⟨[], .last (.trivia separator.trivia), rfl⟩
  | @cons t ts sep span cs separator spells hwritten ih =>
    obtain ⟨tiles, htiles, rfl⟩ := ih
    have hends : ∀ c ∈ cs.head?, t.goesOn c = false := by
      obtain ⟨c, more, rfl, hblank⟩ := hwritten.head
      intro d hd
      cases hd
      exact goesOn_of_isBlank hblank
    refine ⟨⟨sep, span, t⟩ :: tiles, tiled_cons_iff.mpr ⟨cs, ?_, separator.trivia, .spelled spells hends,
      htiles⟩, rfl⟩
    rw [Tile.chars, List.append_assoc]

end

/-- Tokens are read from a text in which they are spelled with separators between them and around them:
the first call of a reader gives the first token, and so on, and when all of them have been given, no
further call gives a token. -/
theorem Reader.after_written {ts : List Token} {source : String} (h : Written ts source.toList) :
    Token.ofSource source = ts ∧ ∀ k, ((ofSource source).after k).call.1 = ts[k]? := by
  obtain ⟨tiles, htiles, rfl⟩ := h.tiled
  exact ⟨htiles.ofChars, (faces_ofSource htiles).call_after⟩

/-- A slash in front of a comment, and a string that holds what would begin one. -/
theorem slashes_after_written :
    let source := " / //=\"\n=\t\"// \\\"\n\" let "
    let ts : List Token := [.symbol .slash, .symbol .assign, .str "// \"\n", .keyword .letBinding]
    Written ts source.toList ∧ Token.ofSource source = ts ∧
      ∀ k, ((Reader.ofSource source).after k).call.1 = ts[k]? := by
  intro source ts
  have hblank : Separator [' '] := ⟨' ', [], rfl, by decide, .nil⟩
  have htab : Separator ['\t'] := ⟨'\t', [], rfl, by decide, .nil⟩
  have hcomment : Separator [' ', '/', '/', '=', '"', '\n'] :=
    ⟨' ', _, rfl, by decide, .comment (show '\n' ∉ ['=', '"'] by decide) .nil⟩
  have hquotes : Quotes "// \"\n".toList ['/', '/', ' ', '\\', '"', '\n'] :=
    .plain (by decide) (by decide) (.plain (by decide) (by decide) (.plain (by decide) (by decide)
      (.escaped rfl (.plain (by decide) (by decide) .nil))))
  have hwritten : Written ts source.toList := by
    have hsource : source = String.ofList ([' '] ++ (['/'] ++ ([' ', '/', '/', '=', '"', '\n'] ++
      (['='] ++ (['\t'] ++ (('"' :: (['/', '/', ' ', '\\', '"', '\n'] ++ ['"'])) ++ ([' '] ++
        (['l', 'e', 't'] ++ [' '])))))))) := rfl
    rw [hsource, String.toList_ofList]
    exact .cons hblank (.symbol .slash) (.cons hcomment (.symbol .assign) (.cons htab (.string hquotes)
      (.cons hblank (.keyword .letBinding) (.nil hblank))))
  exact ⟨hwritten, Reader.after_written hwritten⟩

end Notebook.Token
