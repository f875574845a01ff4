import Mathlib.Data.List.Infix
import Reflow.Language.Table
import Reflow.Proofs.Characters
import Reflow.Proofs.Doc.Conservation
import Reflow.Proofs.Doc.Margin
import Reflow.Proofs.PlainText

/-!
Reading a rewrapped source text. Every line of a run stays behind its indentation and token, so what
follows a run does not become part of it; and rewrapping a text is rendering its lines, since line
endings are neither made nor lost.
-/

namespace Reflow

/-- Wrapped lines stand behind their margins. The separator stands behind one that has lost its
final spaces, which is asked for apart. -/
theorem isPrefix_of_mem_wrap {L : Layout} {bare first next t l : Text} (hFirst : bare <+: first)
    (hNext : bare <+: next) (hDrop : bare <+: Text.dropEndSpaces next)
    (hl : l ∈ wrap L first next t) : bare <+: l := by
  rcases exists_written_of_mem_wrap hl with ⟨-, rfl⟩ | rfl | ⟨margin, body, hMargin, rfl, -⟩
  · exact hFirst
  · exact hDrop
  · rcases hMargin with rfl | rfl
    · exact hFirst.trans (List.prefix_append _ _)
    · exact hNext.trans (List.prefix_append _ _)

namespace Doc

/-- Every block that is read from a span is written on some line, so no block of a comment gets
lost. -/
theorem blockLines_ne_nil (L : Layout) (bare : Text) (detached : Bool) {s : Span} (hs : s.Sound) :
    blockLines L bare (Block.ofSpan detached s) ≠ [] := by
  obtain ⟨l, rest, hLines, -⟩ := hs.first
  cases hKind : s.kind with
  | paragraph =>
      simp only [Block.ofSpan, hKind, blockLines]
      exact wrap_ne_nil _ _ _ _
  | heading => simp [Block.ofSpan, hKind, blockLines]
  | code => simp [Block.ofSpan, hKind, blockLines, unindent, hLines]
  | list =>
      obtain ⟨first, others, hLines, hItem⟩ := hs.list hKind
      obtain ⟨⟨marker, after⟩, hSome⟩ := Option.isSome_iff_exists.mp hItem
      simp only [Block.ofSpan, hKind, blockLines, listLines, hLines]
      cases hItems : (ItemList.ofLines detached (first :: others)).items with
      | nil => simp [ItemList.ofLines, Entry.ofLine, hSome, Item.ofEntries] at hItems
      | cons item items =>
          have hMem : item ∈ (ItemList.ofLines detached (first :: others)).items := by simp [hItems]
          obtain ⟨p, ps, hParagraphs⟩ :=
            List.exists_cons_of_ne_nil (paragraphs_ne_nil_of_mem_ofEntries hMem)
          simp [itemLines, hParagraphs, wrap_ne_nil]

theorem blocksLines_ne_nil (L : Layout) (bare : Text) {b : Block} (hb : blockLines L bare b ≠ [])
    (bs : List Block) : blocksLines L bare (b :: bs) ≠ [] := by
  cases bs with
  | nil => exact hb
  | cons c bs => simp [blocksLines, hb]

/-- A structured comment with lines is not rewrapped to none, even if all of it is blank. -/
theorem render_ne_nil (L : Layout) (bare : Text) {lines : List Text} (h : lines ≠ []) :
    render L bare lines ≠ [] := by
  rcases edges_cases lines with hAll | ⟨a, m, b, ha, hb, hm, hNe, rfl⟩
  · rw [render, blankEdges_of_allBlank hAll]
    simp [h]
  · obtain ⟨l, rest, rfl⟩ := List.exists_cons_of_ne_nil hNe
    have hl : (eraseBlank l).isEmpty = false := by
      have hVisible := hm.1 l rfl
      rw [eraseBlank, if_neg (by simp [hVisible])]
      cases l with
      | nil => cases hVisible
      | cons c l => rfl
    have hSpans : ∃ s ss, spans ((l :: rest).map eraseBlank) = s :: ss := by
      rw [List.map_cons, spans, spansFrom]
      simp [hl]
    obtain ⟨s, ss, hSpans⟩ := hSpans
    have hMem : s ∈ spansFrom 0 0 ((l :: rest).map eraseBlank) := by
      rw [← spans, hSpans]
      exact List.mem_cons_self
    have hSound := sound_of_mem_spansFrom hMem
    have hBlocks := blocksLines_ne_nil L bare (blockLines_ne_nil L bare (0 < s.start) hSound)
      (blocksFrom s.stop ss)
    rw [render, interior_append ha hb hm hNe, parse, hSpans, blocksFrom]
    simp [hBlocks]

end Doc

namespace LineComment

open Segment

/-- Every line of a rewrapped run stands behind its indentation and token. Decorations do so because
the run did. -/
theorem isPrefix_of_mem_render (L : Layout) (lang : Language) {indent marker : Text}
    (hMarker : Text.dropEndSpaces (Text.dropEndSpaces marker) = Text.dropEndSpaces marker)
    (hNe : Text.dropEndSpaces marker ≠ []) {lines : List Text}
    (hLines : ∀ l ∈ lines, indent ++ Text.dropEndSpaces marker <+: l) {l : Text}
    (hl : l ∈ render L lang indent marker lines) : indent ++ Text.dropEndSpaces marker <+: l := by
  rcases mem_render_cases L lang indent marker hl with hl | ⟨ls, -, -, hl⟩
  · exact hLines l hl
  unfold pieceLines at hl
  split at hl
  · cases hl
  unfold renderPiece at hl
  split at hl
  · refine (Doc.behind_of_mem_render ?_ L hl).isPrefix
    rw [Text.dropEndSpaces_append (by rwa [hMarker]), hMarker]
  · simp only [renderPlain, List.mem_append] at hl
    have hMargin : indent ++ Text.dropEndSpaces marker <+: indent ++ marker := by
      obtain ⟨n, hn⟩ := Text.exists_eq_dropEndSpaces_append marker
      exact ⟨List.replicate n ' ', by rw [List.append_assoc, ← hn]⟩
    rcases hl with (hl | hl) | hl
    · exact List.eq_of_mem_replicate hl ▸ List.prefix_rfl
    · split at hl
      · cases hl
      · refine isPrefix_of_mem_wrap hMargin hMargin ?_ hl
        rw [Text.dropEndSpaces_append hNe]
    · exact List.eq_of_mem_replicate hl ▸ List.prefix_rfl

/-- The same for a run in a language with one token, as it is found in a text. -/
theorem isPrefix_of_mem_render_run (L : Layout) {lang : Language} {token indent marker : Text}
    (hToken : lang.OneToken token) (hMarker : Text.dropEndSpaces marker = token)
    {lines : List Text} (hRun : ∀ l ∈ lines, (marker? lang indent token l).isSome = true) {l : Text}
    (hl : l ∈ render L lang indent marker lines) : indent ++ token <+: l := by
  subst hMarker
  exact isPrefix_of_mem_render L lang hToken.word.dropEndSpaces hToken.word.ne_nil
    (fun m hm => isPrefix_of_marker? hToken (hRun m hm)) hl

theorem renderPiece_ne_nil (L : Layout) (lang : Language) (indent marker : Text)
    {contents : List Text} (h : contents ≠ []) :
    renderPiece L lang indent marker contents ≠ [] := by
  unfold renderPiece
  split
  · exact Doc.render_ne_nil L _ h
  · rcases Doc.edges_cases contents with hAll | ⟨a, m, b, ha, hb, hm, hNe, rfl⟩
    · rw [renderPlain, Doc.blankEdges_of_allBlank hAll]
      simp [h]
    · have hBody : (Doc.interior (a ++ m ++ b)).isEmpty = false := by
        rw [Doc.interior_append ha hb hm hNe]
        simpa using hNe
      simp only [renderPlain, hBody, ne_eq, List.append_eq_nil_iff]
      exact fun hNil => wrap_ne_nil _ _ _ _ hNil.1.2

/-- A run with lines is not rewrapped to none. -/
theorem render_ne_nil (L : Layout) (lang : Language) (indent marker : Text) {lines : List Text}
    (h : lines ≠ []) : render L lang indent marker lines ≠ [] := by
  induction lines using division_induction (decorated indent (Text.dropEndSpaces marker)) with
  | plain ls hPlain =>
      rw [render_plain L lang indent marker hPlain, pieceLines, if_neg (by simpa using h)]
      exact renderPiece_ne_nil L lang indent marker (by simpa using h)
  | cut ls d rest hPlain hd ih =>
      rw [render_cut L lang indent marker hPlain hd]
      simp

end LineComment

/-- The first line of a rewrapped block comment still opens it, behind the same indentation. -/
theorem BlockComment.exists_head_render (L : Layout) {indent : Text}
    (hIndent : ∀ c ∈ indent, isGap c = true) (closing gutter rest : Text) (lines : List Text) :
    ∃ r ls, render L indent ['/', '*'] closing gutter ((indent ++ (['/', '*'] ++ rest)) :: lines) =
      (indent ++ (['/', '*'] ++ r)) :: ls := by
  cases lines with
  | nil => exact ⟨rest, [], rfl⟩
  | cons second lines =>
      rw [render, renderLines]
      split
      · exact ⟨rest, _, List.cons_append ..⟩
      split
      · exact ⟨rest, _, List.cons_append ..⟩
      rw [splitFirst_opening hIndent]
      exact ⟨rest.takeWhile isStar, _, List.cons_append ..⟩

namespace Source

open Segment

section Head

variable {L : Layout} {lang : Language} {token : Text} (hToken : lang.OneToken token)
  (hBlocks : lang.StarBlocks)
include hToken hBlocks

/-- The first lines of a text and of the rewrapped text are comments of the same indentation, or
neither is a line comment at all. A run that stands in front is therefore not continued by what is
written behind it. -/
theorem marker?_head_renderLines {indent : Text} {lines : List Text}
    (hHead : ∀ l, lines.head? = some l → marker? lang indent token l = none) {l : Text}
    (hl : (renderLines L lang lines).head? = some l) : marker? lang indent token l = none := by
  cases lines with
  | nil => simp at hl
  | cons line rest =>
      have hLine := hHead line rfl
      cases hBlock : block? lang line with
      | some pair =>
          obtain ⟨o, closing⟩ := pair
          cases hMore : blockMore? o closing rest with
          | none =>
              rw [renderLines_unclosed hBlock hMore] at hl
              exact Option.some.inj hl ▸ hLine
          | some more =>
              obtain ⟨hStart, rfl, hIndent, hOpening, hClosing, rfl⟩ :=
                (block?_eq_some_iff hBlocks).mp hBlock
              obtain ⟨r, ls, hRender⟩ := BlockComment.exists_head_render L hIndent ['*', '/']
                lang.blockGutter o.rest (rest.take more)
              rw [renderLines_block hBlock hMore, hOpening, hRender] at hl
              -- The comment opens with the token as before, and no such line is a line comment.
              have hOpens : block? lang (o.indent ++ (['/', '*'] ++ r)) =
                  some ({ o with rest := r }, ['*', '/']) :=
                (block?_eq_some_iff hBlocks).mpr ⟨hStart, rfl, hIndent, hOpening, hClosing, rfl⟩
              apply marker?_eq_none_of_block? hToken
              rw [← Option.some.inj hl, hOpens]
              rfl
      | none =>
          cases hMatch : matchLine? lang line with
          | none =>
              rw [renderLines_code hBlock hMatch] at hl
              exact Option.some.inj hl ▸ hLine
          | some pair =>
              obtain ⟨own, marker⟩ := pair
              obtain ⟨hSome, -⟩ := marker?_isSome_of_matchLine? hToken hMatch
              obtain ⟨hOwn, -⟩ := eq_of_marker? hToken hSome
              rw [renderLines_run hBlock hMatch, runMarker_eq hToken hMatch, List.head?_append,
                Option.or_of_isSome (by simp [LineComment.render_ne_nil])] at hl
              obtain ⟨r, rfl⟩ := LineComment.isPrefix_of_mem_render_run L hToken
                (dropEndSpaces_markerOf hToken own _)
                (fun m => hToken.marker?_isSome_of_mem_run hMatch) (List.mem_of_mem_head? hl)
              rw [List.append_assoc]
              -- The run is a line comment of another indentation, else its first line were one
              -- here.
              apply marker?_eq_none_of_ne hToken hOwn
              rintro rfl
              rw [hSome] at hLine
              cases hLine

omit hToken in
theorem renderLines_ne_nil {lines : List Text} (h : lines ≠ []) :
    renderLines L lang lines ≠ [] := by
  obtain ⟨line, rest, rfl⟩ := List.exists_cons_of_ne_nil h
  cases hBlock : block? lang line with
  | some pair =>
      obtain ⟨o, closing⟩ := pair
      cases hMore : blockMore? o closing rest with
      | none => simp [renderLines_unclosed hBlock hMore]
      | some more =>
          obtain ⟨-, rfl, hIndent, hOpening, -, rfl⟩ := (block?_eq_some_iff hBlocks).mp hBlock
          obtain ⟨r, ls, hRender⟩ := BlockComment.exists_head_render L hIndent ['*', '/']
            lang.blockGutter o.rest (rest.take more)
          rw [renderLines_block hBlock hMore, hOpening, hRender]
          simp
  | none =>
      cases hMatch : matchLine? lang line with
      | none => simp [renderLines_code hBlock hMatch]
      | some pair => simp [renderLines_run hBlock hMatch, LineComment.render_ne_nil]

omit hToken in
theorem block?_nil : block? lang [] = none := by
  cases hBlock : block? lang [] with
  | none => rfl
  | some pair =>
      obtain ⟨-, hLine, -⟩ := (block?_eq_some_iff hBlocks).mp hBlock
      simp at hLine

omit hToken hBlocks in
theorem matchLine?_nil : matchLine? lang [] = none := rfl

omit hToken in
/-- An empty line at the end of a text is code, so a final line feed is kept where the lines are
rendered. -/
theorem renderLines_append_nil (lines : List Text) :
    renderLines L lang (lines ++ [[]]) = renderLines L lang lines ++ [[]] := by
  have hEmpty := block?_nil hBlocks
  induction lines using lines_induction lang with
  | nil => simp [renderLines_code hEmpty matchLine?_nil]
  | block line rest o closing more hBlock hMore ih =>
      rw [List.cons_append, renderLines_block_append hBlock hMore, ih,
        renderLines_block hBlock hMore, List.append_assoc]
  | unclosed line rest o closing hBlock hMore =>
      obtain ⟨-, -, -, -, -, rfl⟩ := (block?_eq_some_iff hBlocks).mp hBlock
      have hMore' : blockMore? o ['*', '/'] (rest ++ [[]]) = none := by
        rw [blockMore?] at hMore ⊢
        split at hMore
        · cases hMore
        next hFirst =>
          rw [if_neg hFirst]
          rw [Option.map_eq_none_iff, List.findIdx?_eq_none_iff] at hMore ⊢
          rw [List.forall_mem_append]
          exact ⟨hMore, by simp [Text.contains, Text.cut?, Text.dropPrefix?]⟩
      rw [List.cons_append, renderLines_unclosed hBlock hMore', renderLines_unclosed hBlock hMore,
        List.cons_append]
  | run line rest indent marker hBlock hMatch ih =>
      have hStop : ∀ l, [([] : Text)].head? = some l → matchLine? lang l = none := by
        intro l hl
        rw [← Option.some.inj hl, matchLine?_nil]
      rw [List.cons_append, renderLines_run_append hBlock hMatch hStop, ih,
        renderLines_run hBlock hMatch, List.append_assoc]
  | code line rest hBlock hMatch ih =>
      rw [List.cons_append, renderLines_code hBlock hMatch, renderLines_code hBlock hMatch, ih,
        List.cons_append]

omit hToken in
/-- Rewrapping a source text renders its lines. The final line feed, which is looked after
separately, makes no difference here. -/
theorem rewrap_eq_unlines (hSource : lang.isDocument = false) (t : Text) :
    rewrap L (some lang) t =
      Text.unlines (renderLines L lang (Text.lines (unifyEndings t))) := by
  rw [rewrap, rewrapWith]
  simp only [render, hSource, Bool.false_eq_true, if_false]
  split
  next hEnds =>
    -- A final line feed makes the last line empty, and an empty last line makes a final line feed.
    obtain ⟨hFeed, hOut⟩ : endsInLineFeed (unifyEndings t) = true ∧ _ := by simpa using hEnds
    rw [endsInLineFeed, beq_iff_eq] at hFeed
    obtain ⟨front, hFront⟩ := List.getLast?_eq_some_iff.mp hFeed
    have hLines : Text.lines (front ++ ['\n']) = Text.lines front ++ [[]] :=
      Text.lines_append_cons front []
    have hNe : renderLines L lang (Text.lines front) ≠ [] :=
      renderLines_ne_nil hBlocks (Text.lines_ne_nil front)
    rw [hFront, hLines, renderLines_append_nil hBlocks, Text.unlines_append hNe (by simp),
      endsInLineFeed] at hOut
    simp [Text.unlines] at hOut
  · rfl

/-- A rewrapped text is made of its own characters, of stars and of those that are added. The stars
come from the gutter of block comments. -/
theorem characters_renderLines {q : Char → Prop} (hAdded : ∀ c, isAdded c = true → q c)
    (hStar : q '*') {lines : List Text} (h : ∀ l ∈ lines, Made q l) :
    ∀ l ∈ renderLines L lang lines, Made q l := by
  have hSolid : lang.HasSolidMarkers := by
    intro m hm
    rw [hToken.markers, List.mem_singleton] at hm
    rw [hm]
    exact hToken.word.dropEndSpaces
  refine made_renderLines hAdded L hSolid ?_ h
  rw [hBlocks.gutter]
  simp [Made, hStar, hAdded ' ' rfl]

/-- Line endings are not made: no line of a rewrapped text holds a line feed or a return, if no line
of the text did. -/
theorem endings_renderLines {lines : List Text}
    (h : ∀ l ∈ lines, Made (fun c => c ≠ '\n' ∧ c ≠ '\r') l) :
    ∀ l ∈ renderLines L lang lines, Made (fun c => c ≠ '\n' ∧ c ≠ '\r') l := by
  refine characters_renderLines hToken hBlocks ?_ (by simp) h
  intro c hc
  have hAll : [' ', '\t', '-', '.', '#'].all (fun c => c != '\n' && c != '\r') = true := by decide
  simpa using List.all_eq_true.mp hAll c (List.contains_iff_mem.mp hc)

omit hToken hBlocks in
theorem endings_lines_unifyEndings (t : Text) :
    ∀ l ∈ Text.lines (unifyEndings t), Made (fun c => c ≠ '\n' ∧ c ≠ '\r') l := by
  intro l hl c hc
  refine ⟨fun hEq => Text.not_mem_of_mem_lines hl (hEq ▸ hc), fun hEq => ?_⟩
  refine return_notMem_unifyEndings t ?_
  rw [← hEq, ← Text.unlines_lines (unifyEndings t)]
  exact mem_intercalate_of_mem hl hc

/-- The lines of a rewrapped source text are its rendered lines, and it has no returns. So the
second pass reads exactly what the first one wrote. -/
theorem lines_rewrap (hSource : lang.isDocument = false) (t : Text) :
    Text.lines (rewrap L (some lang) t) = renderLines L lang (Text.lines (unifyEndings t)) ∧
      unifyEndings (rewrap L (some lang) t) = rewrap L (some lang) t := by
  have hOnce := endings_renderLines (L := L) hToken hBlocks (endings_lines_unifyEndings t)
  have hNe := renderLines_ne_nil (L := L) hBlocks (Text.lines_ne_nil (unifyEndings t))
  rw [rewrap_eq_unlines hBlocks hSource t]
  refine ⟨Text.lines_unlines (fun l hl hMem => (hOnce l hl _ hMem).1 rfl) hNe, ?_⟩
  apply unifyEndings_eq_self
  intro hMem
  rcases mem_intercalate hMem with hFeed | ⟨l, hl, hc⟩
  · cases hFeed
  · exact (hOnce l hl _ hc).2 rfl

/-- Rewrapping a source text twice is the same as once exactly when rendering its lines twice is.
All questions of idempotence for source texts start here. -/
theorem rewrap_rewrap_eq_iff (hSource : lang.isDocument = false) (t : Text) :
    rewrap L (some lang) (rewrap L (some lang) t) = rewrap L (some lang) t ↔
      renderLines L lang (renderLines L lang (Text.lines (unifyEndings t))) =
        renderLines L lang (Text.lines (unifyEndings t)) := by
  obtain ⟨hOnce, hEndings⟩ := lines_rewrap (L := L) hToken hBlocks hSource t
  have hTwice := (lines_rewrap (L := L) hToken hBlocks hSource (rewrap L (some lang) t)).1
  rw [hEndings, hOnce] at hTwice
  refine ⟨fun hText => ?_, fun hSame => ?_⟩
  · rw [← hTwice, hText, hOnce]
  · rw [rewrap_eq_unlines hBlocks hSource (rewrap L (some lang) t), hEndings, hOnce, hSame,
      rewrap_eq_unlines hBlocks hSource t]

end Head

end Source

end Reflow
