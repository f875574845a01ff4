import Reflow.Proofs.Comment.Block
import Reflow.Proofs.Doc.Origin
import Reflow.Proofs.Doc.Span

/-!
Where the characters of a rewrapped text come from: every one of them stands in the text, is a
space, or belongs to a gutter, a bullet, a number sign or the tab before code. So rewrapping makes
no line endings of its own.
-/

namespace Reflow

/-- Every character of the text is of class `q`. The class is left open: with that of all characters
but one, it says that the one is not there. -/
def Made (q : Char → Prop) (t : Text) : Prop := ∀ c ∈ t, q c

/-- The characters that bullets, headings and code are written with. Rewrapping may put these where
they were not, and no others. -/
def isAdded (c : Char) : Bool := [' ', '\t', '-', '.', '#'].contains c

namespace Made

variable {q : Char → Prop}

theorem append {t u : Text} (ht : Made q t) (hu : Made q u) : Made q (t ++ u) := fun c hc =>
  (List.mem_append.mp hc).elim (ht c) (hu c)

theorem of_isInfix {t u : Text} (ht : Made q t) (h : u <:+: t) : Made q u := fun c hc =>
  ht c (h.subset hc)

theorem of_append_left {t u : Text} (h : Made q (t ++ u)) : Made q t :=
  h.of_isInfix (List.prefix_append t u).isInfix

theorem of_append_right {t u : Text} (h : Made q (t ++ u)) : Made q u :=
  h.of_isInfix (List.suffix_append t u).isInfix

theorem trim {t : Text} (h : Made q t) : Made q (Text.trim t) :=
  fun c hc => h c (mem_of_mem_trim hc)

/-- A text of the class stays in it without its final spaces, being a front part of itself. -/
theorem dropEndSpaces {t : Text} (h : Made q t) : Made q (Text.dropEndSpaces t) := by
  obtain ⟨n, hn⟩ := Text.exists_eq_dropEndSpaces_append t
  rw [hn] at h
  exact h.of_append_left

end Made

/-- Every character of the text, line feeds aside, is of class `q`. Texts that are put together of
lines are spoken of in this way. -/
def MadeLines (q : Char → Prop) (t : Text) : Prop := ∀ c ∈ t, c ≠ '\n' → q c

/-- Lines of the class make a text of it, as only line feeds are put between them. -/
theorem madeLines_unlines {q : Char → Prop} {ls : List Text} (h : ∀ l ∈ ls, Made q l) :
    MadeLines q (Text.unlines ls) := by
  intro c hc hFeed
  rcases mem_intercalate hc with hEq | ⟨l, hl, hc⟩
  · exact absurd hEq hFeed
  · exact h l hl c hc

section

variable {q : Char → Prop} (hAdded : ∀ c, isAdded c = true → q c)
include hAdded

theorem made_wrapParagraph (L : Layout) {first next t p : Text} (hFirst : Made q first)
    (hNext : Made q next) (ht : MadeLines q t) (hp : p ∈ paragraphs t) :
    ∀ l ∈ wrapParagraph L first next p, Made q l := by
  have hLine : ∀ line ∈ Packing.divide L first next (Token.ofText p),
      Made q (Packing.lineText L line) := by
    intro line hLine c hc
    rcases Packing.mem_of_mem_divide hLine hc with rfl | hc
    · exact hAdded ' ' rfl
    · rcases mem_of_mem_paragraphs hp hc with rfl | ⟨hText, hFeed⟩
      · exact hAdded ' ' rfl
      · exact ht c hText hFeed
  intro l hl
  rw [wrapParagraph] at hl
  generalize Packing.divide L first next (Token.ofText p) = lines at hLine hl
  cases lines with
  | nil => cases hl
  | cons line lines =>
      rw [Packing.write] at hl
      rcases List.mem_cons.mp hl with rfl | hl
      · exact hFirst.append (hLine line List.mem_cons_self)
      · obtain ⟨m, hm, rfl⟩ := List.mem_map.mp hl
        exact hNext.append (hLine m (List.mem_cons_of_mem line hm))

/-- Wrapped lines hold characters of the margins and of the text, and spaces. No condition on the
page is needed. -/
theorem made_wrap (L : Layout) {first next t : Text} (hFirst : Made q first) (hNext : Made q next)
    (ht : MadeLines q t) : ∀ l ∈ wrap L first next t, Made q l := by
  intro l hl
  rw [wrap] at hl
  split at hl
  · rw [List.mem_singleton.mp hl]
    exact hFirst
  next p ps hParagraphs =>
    rcases List.mem_append.mp hl with hl | hl
    · exact made_wrapParagraph hAdded L hFirst hNext ht (by simp [hParagraphs]) l hl
    · obtain ⟨r, hr, hl⟩ := List.mem_flatMap.mp hl
      rcases List.mem_cons.mp hl with rfl | hl
      · exact hNext.dropEndSpaces
      · exact made_wrapParagraph hAdded L hNext hNext ht (by simp [hParagraphs, hr]) l hl

end

namespace Doc

variable {q : Char → Prop}

/-- What an entry of a list holds: the number of an item, its text, or the text of a line below
it. -/
def Entry.Made (q : Char → Prop) (e : Entry) : Prop :=
  match e with
  | .item number t => Reflow.Made q (number.getD []) ∧ Reflow.Made q t
  | .text t => Reflow.Made q t
  | .blank => True

/-- The marker and the text of an item are read from its line, so they hold nothing else. -/
theorem made_of_ofLine? {line rest : Text} {marker : ListMarker} (hLine : Made q line)
    (h : ListMarker.ofLine? line = some (marker, rest)) :
    Made q (marker.number?.getD []) ∧ Made q rest := by
  unfold ListMarker.ofLine? at h
  split at h
  · cases h
  next c t =>
    split at h
    · split at h
      · cases h
        exact ⟨List.forall_mem_nil _, hLine.of_isInfix (List.suffix_cons c rest).isInfix⟩
      · cases h
    · dsimp only at h
      split at h
      · cases h
      next d after hDrop =>
        split at h
        · cases h
          refine ⟨hLine.of_isInfix (List.takeWhile_prefix _).isInfix, ?_⟩
          have hAfter := hLine.of_isInfix (List.dropWhile_suffix isAsciiDigit).isInfix
          rw [hDrop] at hAfter
          exact hAfter.of_isInfix (List.suffix_cons d rest).isInfix
        · cases h

theorem made_ofLine (numbered : Bool) (indent : Nat) {line : Text} (hLine : Made q line) :
    (Entry.ofLine numbered indent line).Made q := by
  have hWhole :
      Entry.Made q (if (Text.trim line).isEmpty then .blank else .text (Text.trim line)) := by
    split
    · trivial
    · exact hLine.trim
  unfold Entry.ofLine
  split
  · exact hWhole
  next marker rest hItem =>
    split
    · obtain ⟨hNumber, hRest⟩ := made_of_ofLine? hLine.trim (Option.filter_eq_some_iff.mp hItem).1
      exact ⟨hNumber, hRest.trim⟩
    · exact hWhole

/-- What an item holds: its number, and its paragraphs as they are flattened for wrapping. -/
def Item.Made (q : Char → Prop) (item : Item) : Prop :=
  Reflow.Made q (item.number.getD []) ∧ ∀ p ∈ item.paragraphs, MadeLines q (Inline.flatten p)

/-- Items that are gathered from entries hold what these hold, with spaces and line feeds in
between. -/
theorem made_ofEntries {entries : List Entry} (h : ∀ e ∈ entries, e.Made q) :
    ∀ item ∈ Item.ofEntries entries, item.Made q := by
  intro item hItem
  obtain ⟨first, run, hFirst, -⟩ := exists_entries_of_mem_ofEntries hItem
  refine ⟨(h _ hFirst).1, fun p hp => ?_⟩
  obtain ⟨texts, -, hFlatten, hTexts⟩ := exists_texts_of_mem_ofEntries hItem hp
  rw [hFlatten]
  apply madeLines_unlines
  intro t ht
  obtain ⟨e, he, hText⟩ := hTexts t ht
  have hMade := h e he
  cases e with
  | item number t => exact Option.some.inj hText ▸ hMade.2
  | text t => exact Option.some.inj hText ▸ hMade
  | blank => cases hText

section

variable (hAdded : ∀ c, isAdded c = true → q c) (L : Layout) {bare : Text} (hBare : Made q bare)
include hAdded hBare

theorem made_textMargin : Made q (textMargin bare) :=
  hBare.append fun c hc => by rw [List.mem_singleton.mp hc]; exact hAdded ' ' rfl

/-- The lines of an item hold what the item holds, behind margins of blanks and a bullet. -/
theorem made_itemLines {item : Item} (hItem : item.Made q) :
    ∀ l ∈ itemLines L bare item, Made q l := by
  have hMargin := made_textMargin hAdded hBare
  have hText : ∀ t : Text, t.all isAdded = true → Made q t := fun t ht c hc =>
    hAdded c (List.all_eq_true.mp ht c hc)
  have hBullet : Made q (bulletText item) := by
    unfold bulletText
    split
    next n hn =>
      have hNumber := hItem.1
      rw [hn] at hNumber
      exact hNumber.append (hText _ rfl)
    · exact hText _ rfl
  have hFirst := (hMargin.append (hText [' ', ' '] rfl)).append hBullet
  have hNext : Made q (textMargin bare ++ List.replicate (2 + (bulletText item).length) ' ') :=
    hMargin.append fun c hc => by rw [List.eq_of_mem_replicate hc]; exact hAdded ' ' rfl
  intro l hl
  simp only [itemLines] at hl
  split at hl
  · cases hl
  next p ps hParagraphs =>
    have hParts := fun r (hr : r ∈ p :: ps) => hItem.2 r (hParagraphs ▸ hr)
    rcases List.mem_append.mp hl with hl | hl
    · exact made_wrap hAdded L hFirst hNext (hParts p List.mem_cons_self) l hl
    · obtain ⟨r, hr, hl⟩ := List.mem_flatMap.mp hl
      rcases List.mem_cons.mp hl with rfl | hl
      · exact hBare
      · exact made_wrap hAdded L hNext hNext (hParts r (List.mem_cons_of_mem p hr)) l hl

theorem made_listLines {list : ItemList} (hItems : ∀ item ∈ list.items, item.Made q) :
    ∀ l ∈ listLines L bare list, Made q l := by
  intro l hl
  unfold listLines at hl
  split at hl
  · cases hl
  next item items hCons =>
    rw [hCons] at hItems
    rcases List.mem_append.mp hl with hl | hl
    · exact made_itemLines hAdded L hBare (hItems item List.mem_cons_self) l hl
    · obtain ⟨other, hOther, hl⟩ := List.mem_flatMap.mp hl
      rcases List.mem_append.mp hl with hl | hl
      · split at hl
        · rw [List.mem_singleton.mp hl]
          exact hBare
        · cases hl
      · exact made_itemLines hAdded L hBare (hItems other (List.mem_cons_of_mem item hOther)) l hl

/-- The lines of a block are made of the lines of its span, of the margin and of what its kind adds:
a number sign before a heading, a tab before code. -/
theorem made_blockLines (detached : Bool) {s : Span} (hs : ∀ l ∈ s.lines, Made q l) :
    ∀ l ∈ blockLines L bare (Block.ofSpan detached s), Made q l := by
  have hMargin := made_textMargin hAdded hBare
  intro l hl
  unfold Block.ofSpan at hl
  split at hl
  · rw [blockLines, Inline.flatten_parse] at hl
    exact made_wrap hAdded L hMargin hMargin (madeLines_unlines hs) l hl
  · rw [blockLines, Inline.flatten_parse] at hl
    rw [List.mem_singleton.mp hl]
    refine (hMargin.append ?_).append (Made.trim ?_)
    · intro c hc
      simp only [List.mem_cons, List.not_mem_nil, or_false] at hc
      rcases hc with rfl | rfl <;> exact hAdded _ rfl
    · cases hHead : s.lines.head? with
      | none => exact nofun
      | some first =>
          exact (hs first (List.mem_of_mem_head? hHead)).of_isInfix
            (List.drop_suffix 1 first).isInfix
  · rw [blockLines] at hl
    obtain ⟨m, hm, rfl⟩ := List.mem_map.mp hl
    obtain ⟨k, hk, rfl⟩ := List.mem_map.mp hm
    split
    · exact hBare
    · refine hBare.append fun c hc => ?_
      rcases List.mem_cons.mp hc with rfl | hc
      · exact hAdded '\t' rfl
      · exact hs k hk c (List.mem_of_mem_drop hc)
  · rw [blockLines] at hl
    refine made_listLines hAdded L hBare (made_ofEntries fun e he => ?_) l hl
    obtain ⟨m, hm, rfl⟩ := List.mem_map.mp he
    exact made_ofLine _ _ (hs m hm)

omit hAdded in
theorem made_blocksLines {bs : List Block} (hbs : ∀ b ∈ bs, ∀ l ∈ blockLines L bare b, Made q l) :
    ∀ l ∈ blocksLines L bare bs, Made q l := by
  fun_induction blocksLines L bare bs with
  | case1 => nofun
  | case2 b => exact hbs b List.mem_cons_self
  | case3 b c bs ih =>
      intro l hl
      rw [List.mem_append, List.mem_append] at hl
      rcases hl with (hl | hl) | hl
      · exact hbs b List.mem_cons_self l hl
      · split at hl
        · rw [List.mem_singleton.mp hl]
          exact hBare
        · cases hl
      · exact ih (fun d hd => hbs d (List.mem_cons_of_mem b hd)) l hl

/-- A rewrapped structured comment is made of its own characters and those that are added, behind
margins of the same class. -/
theorem made_render {lines : List Text} (hLines : ∀ l ∈ lines, Made q l) :
    ∀ l ∈ render L bare lines, Made q l := by
  have hSpans : ∀ s ∈ spans ((interior lines).map eraseBlank), ∀ l ∈ s.lines, Made q l := by
    intro s hs l hl
    obtain ⟨m, hm, rfl⟩ := List.mem_map.mp (mem_of_mem_spansFrom hs hl)
    have hMade := hLines m (List.mem_of_mem_take (List.mem_of_mem_drop hm))
    unfold eraseBlank
    split
    · exact nofun
    · exact hMade
  have hBlocks : ∀ b ∈ parse (interior lines), ∀ l ∈ blockLines L bare b, Made q l := by
    intro b hb
    obtain ⟨s, hs, detached, rfl⟩ := exists_span_of_mem_blocksFrom hb
    exact made_blockLines hAdded L hBare detached (hSpans s hs)
  intro l hl
  rw [render, List.mem_append, List.mem_append] at hl
  rcases hl with (hl | hl) | hl
  · exact List.eq_of_mem_replicate hl ▸ hBare
  · exact made_blocksLines L hBare hBlocks l hl
  · exact List.eq_of_mem_replicate hl ▸ hBare

end

end Doc

variable {q : Char → Prop} (hAdded : ∀ c, isAdded c = true → q c) (L : Layout)

/-- The content of a comment line is part of the line, also where the line is too short for the
indentation and the token. -/
theorem LineComment.content_isInfix (indent base line : Text) :
    content indent base line <:+: line := by
  have hPrefix : ∀ start t : Text, ((Text.dropPrefix? start t).getD t) <:+ t := by
    intro start t
    cases hDrop : Text.dropPrefix? start t with
    | none => exact List.suffix_rfl
    | some rest =>
        rw [Text.dropPrefix?_eq_some hDrop]
        exact List.suffix_append _ _
  refine List.IsSuffix.isInfix (((hPrefix _ _).trans (hPrefix _ _)).trans ?_)
  cases hBytes : Text.splitBytes? (Text.byteLength indent) line with
  | none => exact List.suffix_rfl
  | some pair =>
      rw [Text.splitBytes?_eq_some hBytes]
      exact List.suffix_append _ _

theorem BlockComment.made_splitFirst (opening : Text) {first : Text} (hFirst : Made q first) :
    Made q (splitFirst opening first).1 ∧ Made q (splitFirst opening first).2 := by
  obtain ⟨front, back, hBody, hEq⟩ := exists_splitFirst_eq opening first
  have hMade : Made q (front ++ back) := hBody ▸ hFirst.of_isInfix (List.dropWhile_suffix _).isInfix
  rw [hEq]
  exact ⟨hMade.of_append_left.append
      (hMade.of_append_right.of_isInfix (List.takeWhile_prefix _).isInfix),
    (hMade.of_append_right.of_isInfix (List.dropWhile_suffix _).isInfix).trim⟩

include hAdded

/-- A rewrapped run is made of the characters of its lines, of its margin and of those that are
added, whichever way its pieces are read. -/
theorem LineComment.made_render (lang : Language) {indent marker : Text} (hIndent : Made q indent)
    (hMarker : Made q marker) {lines : List Text} (hLines : ∀ l ∈ lines, Made q l) :
    ∀ l ∈ render L lang indent marker lines, Made q l := by
  intro l hl
  rcases mem_render_cases L lang indent marker hl with hl | ⟨ls, hSub, -, hl⟩
  · exact hLines l hl
  have hContents : ∀ c ∈ ls.map (content indent (Text.dropEndSpaces marker)), Made q c := by
    intro c hc
    obtain ⟨m, hm, rfl⟩ := List.mem_map.mp hc
    exact (hLines m (hSub m hm)).of_isInfix (content_isInfix _ _ m)
  have hBare : Made q (indent ++ Text.dropEndSpaces marker) := hIndent.append hMarker.dropEndSpaces
  unfold pieceLines at hl
  split at hl
  · cases hl
  unfold renderPiece at hl
  split at hl
  · exact Doc.made_render hAdded L hBare hContents l hl
  · simp only [renderPlain, List.mem_append] at hl
    rcases hl with (hl | hl) | hl
    · exact List.eq_of_mem_replicate hl ▸ hBare
    · split at hl
      · cases hl
      · refine made_wrap hAdded L (hIndent.append hMarker) (hIndent.append hMarker) ?_ l hl
        exact madeLines_unlines fun c hc =>
          hContents c (List.mem_of_mem_take (List.mem_of_mem_drop hc))
    · exact List.eq_of_mem_replicate hl ▸ hBare

theorem BlockComment.made_renderLines {indent closing gutter : Text} (hIndent : Made q indent)
    (hGutter : Made q gutter) (opening : Text) {first : Text} {middle : List Text} {last : Text}
    (hLines : ∀ l ∈ first :: (middle ++ [last]), Made q l) :
    ∀ l ∈ renderLines L indent opening closing gutter first middle last, Made q l := by
  intro l hl
  have hLast := hLines last (by simp)
  have hFirst := hLines first List.mem_cons_self
  unfold renderLines at hl
  split at hl
  · exact hLines l (by simpa using hl)
  next before after hCut =>
    split at hl
    · exact hLines l (by simpa using hl)
    have hEnd : Made q (before ++ closing ++ after) :=
      Text.cut?_eq_some hCut ▸ hLast.of_isInfix (List.dropWhile_suffix _).isInfix
    obtain ⟨hToken, hText⟩ := made_splitFirst opening hFirst
    simp only [List.mem_append, List.mem_cons, List.not_mem_nil, or_false] at hl
    rcases hl with (rfl | hl) | rfl
    · exact hIndent.append hToken
    · split at hl
      · cases hl
      · refine made_wrap hAdded L (hIndent.append hGutter) (hIndent.append hGutter) ?_ l hl
        refine madeLines_unlines fun t ht => ?_
        rw [List.mem_append, List.mem_append] at ht
        rcases ht with (ht | ht) | ht
        · exact eq_of_mem_unlessEmpty ht ▸ hText
        · obtain ⟨m, hm, rfl⟩ := List.mem_map.mp ht
          exact (hLines m (by simp [hm])).of_isInfix (interiorText_isInfix m)
        · rw [eq_of_mem_unlessEmpty ht]
          exact hEnd.of_append_left.of_append_left.of_isInfix (lastText_isInfix before)
    · refine hIndent.append fun c hc => ?_
      rcases List.mem_cons.mp hc with rfl | hc
      · exact hAdded ' ' rfl
      · exact hEnd.of_append_left.of_append_right c hc

/-- A rewrapped block comment is made of its own characters, those of the gutter and those that are
added, or it is kept. -/
theorem BlockComment.made_render {indent closing gutter : Text} (hIndent : Made q indent)
    (hGutter : Made q gutter) (opening : Text) {lines : List Text}
    (hLines : ∀ l ∈ lines, Made q l) :
    ∀ l ∈ render L indent opening closing gutter lines, Made q l := by
  match lines with
  | [] => nofun
  | [line] => exact hLines
  | first :: second :: rest =>
      refine made_renderLines hAdded L hIndent hGutter opening ?_
      rwa [List.dropLast_append_getLast]

/-- A marker behind the indentation of a line is made of the characters of the line and of spaces.
So a margin brings in nothing new. -/
theorem made_marker {indent marker t : Text}
    (h : Made q (indent ++ (Text.dropEndSpaces marker ++ t))) :
    Made q marker := by
  obtain ⟨n, hMarker⟩ := Text.exists_eq_dropEndSpaces_append marker
  rw [hMarker]
  refine h.of_append_right.of_append_left.append fun c hc => ?_
  rw [List.eq_of_mem_replicate hc]
  exact hAdded ' ' rfl

/-- A rewrapped source text is made of its own characters, those of the gutter and those that are
added. Only the gutter is the language's own, and the markers are read from the text. -/
theorem Source.made_renderLines {lang : Language} (hMarkers : lang.HasSolidMarkers)
    (hGutter : Made q lang.blockGutter) {lines : List Text} (hLines : ∀ l ∈ lines, Made q l) :
    ∀ l ∈ renderLines L lang lines, Made q l := by
  induction lines using Segment.lines_induction lang with
  | nil => simp
  | block line rest o closing more hBlock hMore ih =>
      obtain ⟨hLine, -⟩ := Segment.block?_eq_some hBlock
      have hFirst := hLines line List.mem_cons_self
      rw [hLine] at hFirst
      intro l hl
      rw [renderLines_block hBlock hMore, List.mem_append] at hl
      rcases hl with hl | hl
      · refine BlockComment.made_render hAdded L hFirst.of_append_left hGutter _
          (fun m hm => ?_) l hl
        exact hLines m ((List.cons_subset_cons line (List.take_subset more rest)) hm)
      · exact ih (fun m hm => hLines m (List.mem_cons_of_mem line (List.mem_of_mem_drop hm))) l hl
  | unclosed line rest o closing hBlock hMore =>
      rwa [renderLines_unclosed hBlock hMore]
  | run line rest indent marker hBlock hMatch ih =>
      have hSplit := Segment.runAfter_append_restAfter lang indent marker rest
      obtain ⟨t, ht⟩ := Segment.exists_eq_of_mem_run hMarkers rest hMatch List.mem_cons_self
      have hFirst := hLines line List.mem_cons_self
      rw [ht] at hFirst
      have hMarker := made_marker hAdded hFirst
      intro l hl
      rw [renderLines_run hBlock hMatch, List.mem_append] at hl
      rcases hl with hl | hl
      · refine LineComment.made_render hAdded L lang hFirst.of_append_left hMarker
          (fun m hm => ?_) l hl
        refine hLines m ?_
        rw [← hSplit]
        exact List.mem_append_left _ hm
      · refine ih (fun m hm => hLines m (List.mem_cons_of_mem line ?_)) l hl
        rw [← hSplit]
        exact List.mem_append_right _ hm
  | code line rest hBlock hMatch ih =>
      intro l hl
      rw [renderLines_code hBlock hMatch] at hl
      rcases List.mem_cons.mp hl with rfl | hl
      · exact hLines _ List.mem_cons_self
      · exact ih (fun m hm => hLines m (List.mem_cons_of_mem line hm)) l hl

end Reflow
