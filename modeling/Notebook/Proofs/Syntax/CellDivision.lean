import Notebook.Cells

/-!
Files of cells.

* `Text.Ruled`: a text, and the lines in it.
* `Cells.Separates`: the lines that divide cells.
* `Cells.Divided`: lines, and the blocks that they are divided into.
* `Cells.Joined`: cells that are put together, with separators between them and with blank text anywhere.
* `Cells.ofSource_divides`: what was put together is divided again, and of any file nothing is left out but
  separators and blank cells.
-/

namespace Notebook

namespace Text

/-! ### Lines -/

/-- A text and its lines. A line ends with a feed, or with a carriage return and a feed; the last one may lack
its end. A text has these lines only, and it always has some division into lines. -/
inductive Ruled : List Char → List (List Char) → Prop where
  | nil : Ruled [] []
  | last {line : List Char} (hline : '\n' ∉ line) (hsome : line ≠ []) : Ruled line [line]
  | feed {line text : List Char} {lines : List (List Char)} (hline : '\n' ∉ line)
      (hends : line.getLast? ≠ some '\r') (more : Ruled text lines) :
      Ruled (line ++ '\n' :: text) (line :: lines)
  | carriage {line text : List Char} {lines : List (List Char)} (hline : '\n' ∉ line)
      (more : Ruled text lines) : Ruled (line ++ '\r' :: '\n' :: text) (line :: lines)

/-- Text that consists of whole lines, in front of whatever text. Its last line has its end, so nothing that
follows can become part of it. -/
def Whole (text : List Char) (lines : List (List Char)) : Prop :=
  ∀ ⦃rest : List Char⦄ ⦃more : List (List Char)⦄, Ruled rest more →
    Ruled (text ++ rest) (lines ++ more)

section

variable {text line : List Char} {lines : List (List Char)}

theorem Ruled.lines_eq (h : Ruled text lines) : Text.lines '\n' '\r' text = lines := by
  induction h with
  | nil => rfl
  | last hline hsome => exact lines_of_not_mem '\r' hline hsome
  | feed hline hends _ ih => rw [lines_append_feed '\r' _ hline, endLine_reverse hends, ih]
  | @carriage line text lines hline _ ih =>
    have hfeed : '\n' ∉ line ++ ['\r'] := by simp [hline]
    have hsplit : line ++ '\r' :: '\n' :: text = (line ++ ['\r']) ++ '\n' :: text := by simp
    rw [hsplit, lines_append_feed '\r' _ hfeed, endLine_reverse_append, ih]

/-- A line up to its feed, with the carriage return that it may have. -/
theorem Ruled.exists_feed (hline : '\n' ∉ line) (h : Ruled text lines) : ∃ content,
    Ruled (line ++ '\n' :: text) (content :: lines) ∧ (line = content ∨ line = content ++ ['\r']) := by
  by_cases hends : line.getLast? = some '\r'
  · obtain ⟨content, rfl⟩ := List.getLast?_eq_some_iff.mp hends
    have hcontent : '\n' ∉ content := fun hmem => hline (List.mem_append_left _ hmem)
    refine ⟨content, ?_, .inr rfl⟩
    rw [List.append_assoc]
    exact .carriage hcontent h
  · exact ⟨line, .feed hline hends h, .inl rfl⟩

/-- Every text has lines. -/
theorem exists_ruled (text : List Char) : ∃ lines, Ruled text lines := by
  induction hn : text.length using Nat.strongRecOn generalizing text with
  | ind n ih =>
    by_cases hfeed : '\n' ∈ text
    · obtain ⟨line, rest, rfl, hline⟩ := List.eq_append_cons_of_mem hfeed
      have hlt : rest.length < n := by
        rw [← hn, List.length_append, List.length_cons]
        omega
      obtain ⟨lines, hlines⟩ := ih _ hlt rest rfl
      obtain ⟨content, hruled, -⟩ := hlines.exists_feed hline
      exact ⟨_, hruled⟩
    · cases text with
      | nil => exact ⟨[], .nil⟩
      | cons c text => exact ⟨_, .last hfeed nofun⟩

theorem whole_nil : Whole [] [] := fun _ _ h => h

theorem Whole.feed (hline : '\n' ∉ line) (hends : line.getLast? ≠ some '\r') (h : Whole text lines) :
    Whole (line ++ '\n' :: text) (line :: lines) := fun _ _ hrest => by
  rw [List.append_assoc]
  exact .feed hline hends (h hrest)

theorem Whole.carriage (hline : '\n' ∉ line) (h : Whole text lines) :
    Whole (line ++ '\r' :: '\n' :: text) (line :: lines) := fun _ _ hrest => by
  rw [List.append_assoc]
  exact .carriage hline (h hrest)

theorem Whole.ruled (h : Whole text lines) : Ruled text lines := by
  have hruled := h .nil
  rwa [List.append_nil, List.append_nil] at hruled

/-! ### Blank characters -/

theorem allBlank_append (cs ds : List Char) : allBlank (cs ++ ds) = (allBlank cs && allBlank ds) :=
  List.all_append

theorem allBlank_of_subset {cs ds : List Char} (h : allBlank ds = true) (hsub : cs ⊆ ds) :
    allBlank cs = true :=
  List.all_eq_true.mpr fun c hc => List.all_eq_true.mp h c (hsub hc)

/-- The lines of a blank text are blank. -/
theorem Ruled.allBlank (h : Ruled text lines) (hblank : Text.allBlank text = true) :
    ∀ line ∈ lines, Text.allBlank line = true := by
  induction h with
  | nil => exact nofun
  | last => exact List.forall_mem_singleton.mpr hblank
  | feed _ _ _ ih | carriage _ _ ih =>
    exact List.forall_mem_cons.mpr
      ⟨allBlank_of_subset hblank (by simp), ih (allBlank_of_subset hblank fun c hc => by simp [hc])⟩

theorem takeWhile_append_trimStart (cs : List Char) : cs.takeWhile isBlank ++ trimStart cs = cs :=
  List.takeWhile_append_dropWhile

/-- What is trimmed off is blank. -/
theorem exists_trim (cs : List Char) : ∃ before after, allBlank before = true ∧
    allBlank after = true ∧ cs = before ++ (trim cs ++ after) := by
  refine ⟨cs.takeWhile isBlank, ((trimStart cs).reverse.takeWhile isBlank).reverse,
    List.all_takeWhile, ?_, ?_⟩
  · rw [allBlank, List.all_reverse]
    exact List.all_takeWhile
  · rw [trim, ← List.reverse_append, takeWhile_append_trimStart, List.reverse_reverse,
      takeWhile_append_trimStart]

theorem trimStart_append {before core : List Char} (hbefore : allBlank before = true)
    (hcore : ∀ c ∈ core.head?, isBlank c = false) : trimStart (before ++ core) = core := by
  rw [trimStart, List.dropWhile_append_of_pos (List.all_eq_true.mp hbefore)]
  cases core with
  | nil => rfl
  | cons c core => exact List.dropWhile_cons_of_neg (by simp [hcore c rfl])

/-- What stands between blanks and has none at its own ends is what is left. -/
theorem trim_append {before core after : List Char} (hbefore : allBlank before = true)
    (hafter : allBlank after = true) (hhead : ∀ c ∈ (core ++ after).head?, isBlank c = false)
    (hlast : ∀ c ∈ core.getLast?, isBlank c = false) : trim (before ++ (core ++ after)) = core := by
  have hback : trimStart (core ++ after).reverse = core.reverse := by
    rw [List.reverse_append]
    refine trimStart_append ?_ fun c hc => hlast c ?_
    · rw [allBlank, List.all_reverse]
      exact hafter
    · rwa [List.head?_reverse] at hc
  rw [trim, trimStart_append hbefore hhead, hback, List.reverse_reverse]

end

end Text

namespace Cells

/-! ### Separators -/

/-- A line that divides cells: two percent signs, with blanks around them. -/
def Separates (line : List Char) : Prop :=
  ∃ before after, Text.allBlank before = true ∧ Text.allBlank after = true ∧
    line = before ++ (['%', '%'] ++ after)

variable {line text : List Char} {lines : List (List Char)}

theorem isSeparator_iff : isSeparator line = true ↔ Separates line := by
  rw [isSeparator, beq_iff_eq]
  constructor
  · intro h
    obtain ⟨before, after, hbefore, hafter, hline⟩ := Text.exists_trim line
    exact ⟨before, after, hbefore, hafter, h ▸ hline⟩
  · rintro ⟨before, after, hbefore, hafter, rfl⟩
    refine Text.trim_append hbefore hafter (fun c hc => ?_) fun c hc => ?_ <;> cases hc <;> decide

theorem isSeparator_eq_false_iff : isSeparator line = false ↔ ¬ Separates line := by
  rw [← isSeparator_iff, Bool.not_eq_true]

/-- A blank line does not divide anything. -/
theorem not_separates_of_allBlank (h : Text.allBlank line = true) : ¬ Separates line := by
  rintro ⟨before, after, -, -, rfl⟩
  have hsign := List.all_eq_true.mp h '%' (by simp)
  exact absurd hsign (by decide)

theorem Separates.ne_nil (h : Separates line) : line ≠ [] := by
  obtain ⟨before, after, -, -, rfl⟩ := h
  simp

theorem Separates.blank_append {blank : List Char} (hblank : Text.allBlank blank = true)
    (h : Separates line) : Separates (blank ++ line) := by
  obtain ⟨before, after, hbefore, hafter, rfl⟩ := h
  refine ⟨blank ++ before, after, ?_, hafter, (List.append_assoc _ _ _).symm⟩
  rw [Text.allBlank_append, hblank, hbefore, Bool.and_self]

/-- A separator is one without the carriage return at its end, too. -/
theorem Separates.of_append_carriage (h : Separates (line ++ ['\r'])) : Separates line := by
  have htrim := isSeparator_iff.mpr h
  obtain ⟨before, after, hbefore, hafter, hline⟩ := h
  rcases List.eq_nil_or_concat after with rfl | ⟨after, c, rfl⟩
  · have hlast := congrArg List.getLast? hline
    simp at hlast
  · have hsplit : line ++ ['\r'] = (before ++ (['%', '%'] ++ after)) ++ [c] := by simp [hline]
    obtain ⟨rfl, -⟩ := List.append_inj' hsplit rfl
    rw [List.concat_eq_append, Text.allBlank_append, Bool.and_eq_true] at hafter
    exact ⟨before, after, hbefore, hafter.1, rfl⟩

/-! ### Blocks -/

/-- Lines and the blocks that they are divided into. A separator belongs to no block, and two of them next to
each other have an empty block between them. -/
inductive Divided : List (List Char) → List (List (List Char)) → Prop where
  | last {block : List (List Char)} (hblock : ∀ line ∈ block, ¬ Separates line) : Divided block [block]
  | next {block lines : List (List Char)} {separator : List Char} {blocks : List (List (List Char))}
      (hblock : ∀ line ∈ block, ¬ Separates line) (hseparator : Separates separator)
      (more : Divided lines blocks) : Divided (block ++ separator :: lines) (block :: blocks)

theorem exists_divided (lines : List (List Char)) : ∃ blocks, Divided lines blocks := by
  induction lines with
  | nil => exact ⟨[[]], .last nofun⟩
  | cons line lines ih =>
    obtain ⟨blocks, hblocks⟩ := ih
    by_cases hline : Separates line
    · exact ⟨[] :: blocks, .next (List.forall_mem_nil _) hline hblocks⟩
    · cases hblocks with
      | last hblock => exact ⟨_, .last (List.forall_mem_cons.mpr ⟨hline, hblock⟩)⟩
      | next hblock hseparator more =>
        exact ⟨_, .next (List.forall_mem_cons.mpr ⟨hline, hblock⟩) hseparator more⟩

theorem splitOnto_block {block : List (List Char)} (hblock : ∀ line ∈ block, ¬ Separates line)
    (read rest : List (List Char)) :
    splitOnto [] read (block ++ rest) = splitOnto [] (block.reverse ++ read) rest := by
  induction block generalizing read with
  | nil => rfl
  | cons line block ih =>
    obtain ⟨hline, hmore⟩ := List.forall_mem_cons.mp hblock
    rw [List.cons_append, splitOnto, isSeparator_eq_false_iff.mpr hline, if_neg Bool.false_ne_true, ih hmore]
    simp

theorem Divided.splitOnto_eq {blocks : List (List (List Char))} (h : Divided lines blocks) :
    splitOnto [] [] lines = blocks.map join := by
  induction h with
  | @last block hblock =>
    have honly := splitOnto_block hblock [] []
    rw [List.append_nil, List.append_nil] at honly
    rw [honly, splitOnto, List.reverse_reverse]
    rfl
  | next hblock hseparator _ ih =>
    rw [splitOnto_block hblock, splitOnto, isSeparator_iff.mpr hseparator, if_pos rfl,
      Cells.splitOnto_eq, ih]
    simp

/-- The blocks are all the lines but the separators, in order. -/
theorem Divided.flatten_eq {blocks : List (List (List Char))} (h : Divided lines blocks) :
    blocks.flatten = lines.filter (!isSeparator ·) := by
  have hkept : ∀ {block : List (List Char)}, (∀ line ∈ block, ¬ Separates line) →
      block.filter (!isSeparator ·) = block := fun hblock =>
    List.filter_eq_self.mpr fun line hline => by rw [isSeparator_eq_false_iff.mpr (hblock line hline)]; rfl
  induction h with
  | last hblock => rw [List.flatten_singleton, hkept hblock]
  | next hblock hseparator _ ih =>
    rw [List.flatten_cons, ih, List.filter_append, hkept hblock, List.filter_cons,
      isSeparator_iff.mpr hseparator]
    rfl

/-- The texts of some blocks, without those that are blank. -/
def cellsOf (blocks : List (List (List Char))) : List (List Char) :=
  (blocks.map join).filter (!Text.allBlank ·)

/-- The cells of a file are its blocks that are not blank. -/
theorem ofSource_eq {source : String} {blocks : List (List (List Char))}
    (hlines : Text.Ruled source.toList lines) (hblocks : Divided lines blocks) :
    ofSource source = (cellsOf blocks).map String.ofList := by
  rw [ofSource, split, hlines.lines_eq, hblocks.splitOnto_eq, cellsOf]

theorem join_flatten (blocks : List (List (List Char))) :
    join blocks.flatten = (blocks.map join).flatten := by
  induction blocks with
  | nil => rfl
  | cons block blocks ih =>
    rw [List.flatten_cons, join, List.flatMap_append, ← join, ← join, ih]
    rfl

/-- One after the other they are the lines of the blocks that are not blank. -/
theorem flatten_cellsOf (blocks : List (List (List Char))) :
    (cellsOf blocks).flatten = join (blocks.filter fun block => !Text.allBlank (join block)).flatten := by
  rw [join_flatten, cellsOf, List.filter_map]
  rfl

/-! ### Joining -/

/-- A cell: whole lines that are no separators, and some character in them that is not blank. Blanks at its
beginning and end are part of it. -/
def IsCell (cell : List Char) : Prop :=
  (∃ lines, cell = join lines ∧
    ∀ line ∈ lines, '\n' ∉ line ∧ line.getLast? ≠ some '\r' ∧ ¬ Separates line) ∧
  ∃ c ∈ cell, Text.isBlank c = false

/-- What may stand between two separators: a cell, or blank text, which is no cell. -/
inductive Block : List (List Char) → List Char → Prop where
  | cell {cell : List Char} (h : IsCell cell) : Block [cell] cell
  | blank {blank : List Char} (h : Text.allBlank blank = true) : Block [] blank

/-- Cells, and a text in which they are put together with separators. Only the last separator may lack a
feed. -/
inductive Joined : List (List Char) → List Char → Prop where
  | block {cells : List (List Char)} {text : List Char} (h : Block cells text) : Joined cells text
  | last {cells : List (List Char)} {text separator : List Char} (h : Block cells text)
      (hseparator : Separates separator) (hfeed : '\n' ∉ separator) : Joined cells (text ++ separator)
  | next {cells more : List (List Char)} {text separator rest : List Char} (h : Block cells text)
      (hseparator : Separates separator) (hfeed : '\n' ∉ separator) (hrest : Joined more rest) :
      Joined (cells ++ more) (text ++ (separator ++ '\n' :: rest))

theorem cellsOf_cons (block : List (List Char)) (blocks : List (List (List Char))) :
    cellsOf (block :: blocks) = cellsOf [block] ++ cellsOf blocks := by
  rw [cellsOf, List.map_cons, ← List.singleton_append, List.filter_append]
  rfl

theorem cellsOf_blank (h : ∀ line ∈ lines, Text.allBlank line = true) : cellsOf [lines] = [] := by
  have hblank : Text.allBlank (join lines) = true := by
    refine List.all_eq_true.mpr fun c hc => ?_
    obtain ⟨line, hline, hc⟩ := List.mem_flatMap.mp hc
    rcases List.mem_append.mp hc with hc | hc
    · exact List.all_eq_true.mp (h line hline) c hc
    · obtain rfl := List.mem_singleton.mp hc
      decide
  simp [cellsOf, hblank]

theorem cellsOf_cell (h : ∃ c ∈ join lines, Text.isBlank c = false) :
    cellsOf [lines] = [join lines] := by
  obtain ⟨c, hc, hsome⟩ := h
  have hblank : Text.allBlank (join lines) = false := by
    refine Bool.eq_false_iff.mpr fun hall => ?_
    rw [List.all_eq_true.mp hall c hc] at hsome
    cases hsome
  simp [cellsOf, hblank]

theorem whole_join (h : ∀ line ∈ lines, '\n' ∉ line ∧ line.getLast? ≠ some '\r') :
    Text.Whole (join lines) lines := by
  induction lines with
  | nil => exact Text.whole_nil
  | cons line lines ih =>
    obtain ⟨⟨hline, hends⟩, hmore⟩ := List.forall_mem_cons.mp h
    rw [join, List.flatMap_cons, List.append_assoc]
    exact (ih hmore).feed hline hends

/-- In front of a separator a blank text is whole lines, and blanks that belong to the separator. -/
theorem exists_whole_of_blank {separator : List Char} (hlines : Text.Ruled text lines)
    (hblank : Text.allBlank text = true) (hseparator : Separates separator) (hfeed : '\n' ∉ separator) :
    ∃ whole lines line, text ++ separator = whole ++ line ∧ Text.Whole whole lines ∧
      (∀ line ∈ lines, Text.allBlank line = true) ∧ Separates line ∧ '\n' ∉ line := by
  induction hlines with
  | nil => exact ⟨[], [], separator, rfl, Text.whole_nil, nofun, hseparator, hfeed⟩
  | last hline =>
    exact ⟨[], [], _, rfl, Text.whole_nil, nofun, hseparator.blank_append hblank,
      by simp [hline, hfeed]⟩
  | @feed line text lines hline hends _ ih =>
    obtain ⟨whole, lines, last, heq, hwhole, hlines, hlast⟩ :=
      ih (Text.allBlank_of_subset hblank fun c hc => by simp [hc])
    exact ⟨_, _, last, by simp [heq], hwhole.feed hline hends,
      List.forall_mem_cons.mpr ⟨Text.allBlank_of_subset hblank (by simp), hlines⟩, hlast⟩
  | @carriage line text lines hline _ ih =>
    obtain ⟨whole, lines, last, heq, hwhole, hlines, hlast⟩ :=
      ih (Text.allBlank_of_subset hblank fun c hc => by simp [hc])
    exact ⟨_, _, last, by simp [heq], hwhole.carriage hline,
      List.forall_mem_cons.mpr ⟨Text.allBlank_of_subset hblank (by simp), hlines⟩, hlast⟩

theorem IsCell.exists_lines {cell : List Char} (h : IsCell cell) : ∃ lines, Text.Whole cell lines ∧
    (∀ line ∈ lines, ¬ Separates line) ∧ cellsOf [lines] = [cell] := by
  obtain ⟨⟨lines, rfl, hlines⟩, hsome⟩ := h
  exact ⟨lines, whole_join fun line hline => ⟨(hlines line hline).1, (hlines line hline).2.1⟩,
    fun line hline => (hlines line hline).2.2, cellsOf_cell hsome⟩

/-- A block at the end of a file. -/
theorem Block.exists_lines {cells : List (List Char)} (h : Block cells text) : ∃ lines,
    Text.Ruled text lines ∧ (∀ line ∈ lines, ¬ Separates line) ∧ cellsOf [lines] = cells := by
  cases h with
  | cell h =>
    obtain ⟨lines, hwhole, hlines, hcell⟩ := h.exists_lines
    exact ⟨lines, hwhole.ruled, hlines, hcell⟩
  | blank h =>
    obtain ⟨lines, hlines⟩ := Text.exists_ruled text
    have hblank := hlines.allBlank h
    exact ⟨lines, hlines, fun line hline => not_separates_of_allBlank (hblank line hline),
      cellsOf_blank hblank⟩

/-- A block in front of a separator, which may begin with blanks of the block. -/
theorem Block.exists_whole {cells : List (List Char)} {separator : List Char} (h : Block cells text)
    (hseparator : Separates separator) (hfeed : '\n' ∉ separator) :
    ∃ whole lines line, text ++ separator = whole ++ line ∧ Text.Whole whole lines ∧
      (∀ line ∈ lines, ¬ Separates line) ∧ cellsOf [lines] = cells ∧ Separates line ∧ '\n' ∉ line := by
  cases h with
  | cell h =>
    obtain ⟨lines, hwhole, hlines, hcell⟩ := h.exists_lines
    exact ⟨_, lines, separator, rfl, hwhole, hlines, hcell, hseparator, hfeed⟩
  | blank h =>
    obtain ⟨lines, hlines⟩ := Text.exists_ruled text
    obtain ⟨whole, lines, line, heq, hwhole, hblank, hline⟩ :=
      exists_whole_of_blank hlines h hseparator hfeed
    exact ⟨whole, lines, line, heq, hwhole,
      fun line hline => not_separates_of_allBlank (hblank line hline), cellsOf_blank hblank, hline⟩

/-- A text in which cells are put together is divided into blocks that are these cells, or blank. -/
theorem Joined.exists_divided {cells : List (List Char)} (h : Joined cells text) : ∃ lines blocks,
    Text.Ruled text lines ∧ Divided lines blocks ∧ cellsOf blocks = cells := by
  -- A separator may take over blanks of the block before it, and a carriage return before its feed is no part
  -- of the line.
  induction h with
  | block h =>
    obtain ⟨lines, hlines, hblock, rfl⟩ := h.exists_lines
    exact ⟨lines, [lines], hlines, .last hblock, rfl⟩
  | last h hseparator hfeed =>
    obtain ⟨whole, lines, line, heq, hwhole, hblock, rfl, hline, hends⟩ :=
      h.exists_whole hseparator hfeed
    refine ⟨lines ++ [line], [lines, []], ?_, .next hblock hline (.last nofun), ?_⟩
    · rw [heq]
      exact hwhole (.last hends hline.ne_nil)
    · rw [cellsOf_cons, cellsOf_blank (List.forall_mem_nil _), List.append_nil]
  | next h hseparator hfeed _ ih =>
    obtain ⟨whole, lines, line, heq, hwhole, hblock, rfl, hline, hends⟩ :=
      h.exists_whole hseparator hfeed
    obtain ⟨more, blocks, hmore, hblocks, rfl⟩ := ih
    obtain ⟨content, hcontent, hcarriage⟩ := hmore.exists_feed hends
    have hseparates : Separates content := by
      rcases hcarriage with rfl | rfl
      · exact hline
      · exact hline.of_append_carriage
    refine ⟨lines ++ content :: more, lines :: blocks, ?_, .next hblock hseparates hblocks,
      cellsOf_cons lines blocks⟩
    rw [← List.append_assoc, heq, List.append_assoc]
    exact hwhole hcontent

/-- Cells that are put together in a file with separators, and with blank text in the place of cells, are
divided again. Of any file the cells are the blocks between the separators that are not blank, so nothing
is left out but the separators and those that are. -/
theorem ofSource_divides :
    (∀ (cells : List String) (source : String), Joined (cells.map String.toList) source.toList →
      ofSource source = cells) ∧
    ∀ source : String, ∃ lines blocks, Text.Ruled source.toList lines ∧ Divided lines blocks ∧
      blocks.flatten = lines.filter (!isSeparator ·) ∧
      ofSource source = (cellsOf blocks).map String.ofList ∧
      (String.join (ofSource source)).toList =
        join (blocks.filter fun block => !Text.allBlank (join block)).flatten := by
  refine ⟨fun cells source h => ?_, fun source => ?_⟩
  · obtain ⟨lines, blocks, hlines, hblocks, hcells⟩ := h.exists_divided
    rw [ofSource_eq hlines hblocks, hcells, List.map_map]
    simp [Function.comp_def]
  · obtain ⟨lines, hlines⟩ := Text.exists_ruled source.toList
    obtain ⟨blocks, hblocks⟩ := Cells.exists_divided lines
    have hcells := ofSource_eq hlines hblocks
    refine ⟨lines, blocks, hlines, hblocks, hblocks.flatten_eq, hcells, ?_⟩
    rw [hcells, ← flatten_cellsOf, String.toList_join, List.flatMap_map]
    simp

/-- A file with an indented separator, a doubled one, one without an end, and a blank start. -/
theorem ofSource_divides_doubled :
    let source := "\n \t\n  %%\r\n1;\n\n%%\n%%\nlet a = 2;\n%%"
    let cells := ["1;\n\n", "let a = 2;\n"]
    Joined (cells.map String.toList) source.toList ∧ ofSource source = cells := by
  intro source cells
  have hbare : Separates ['%', '%'] := ⟨[], [], rfl, rfl, rfl⟩
  have hindented : Separates [' ', ' ', '%', '%', '\r'] :=
    ⟨[' ', ' '], ['\r'], by decide, by decide, rfl⟩
  have hfirst : IsCell "1;\n\n".toList := by
    refine ⟨⟨["1;".toList, []], by decide +kernel, ?_⟩, '1', by decide, by decide⟩
    exact List.forall_mem_cons.mpr ⟨⟨by decide, by decide, isSeparator_eq_false_iff.mp (by decide)⟩,
      List.forall_mem_singleton.mpr
        ⟨by decide, by decide, isSeparator_eq_false_iff.mp (by decide)⟩⟩
  have hsecond : IsCell "let a = 2;\n".toList := by
    refine ⟨⟨["let a = 2;".toList], by decide +kernel, ?_⟩, 'l', by decide, by decide⟩
    exact List.forall_mem_singleton.mpr ⟨by decide, by decide, isSeparator_eq_false_iff.mp (by decide)⟩
  have hblank : Block [] "\n \t\n".toList := .blank (by decide +kernel)
  have hjoined : Joined (cells.map String.toList) source.toList := by
    have hsource : source.toList = "\n \t\n".toList ++ ([' ', ' ', '%', '%', '\r'] ++ '\n' ::
        ("1;\n\n".toList ++ (['%', '%'] ++ '\n' :: ([] ++ (['%', '%'] ++ '\n' ::
          ("let a = 2;\n".toList ++ ['%', '%'])))))) := by decide +kernel
    rw [hsource]
    exact .next hblank hindented (by decide) (.next (.cell hfirst) hbare (by decide)
      (.next (.blank rfl) hbare (by decide) (.last (.cell hsecond) hbare (by decide))))
  exact ⟨hjoined, ofSource_divides.1 cells source hjoined⟩

end Cells

end Notebook
