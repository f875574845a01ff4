import Reflow.Language.Table
import Reflow.Proofs.Comment.Block
import Reflow.Proofs.Doc.Conservation
import Reflow.Proofs.Endings

/-!
Rewrapping loses no text. Plain text and documents keep their words; the comments of a source text
keep every character that is neither blank nor markup, in order.
-/

namespace Reflow

open Text (substance substance_append substance_cons substance_eq_nil)

theorem substance_of_isGap {t : Text} (h : ∀ c ∈ t, isGap c = true) : substance t = [] :=
  substance_eq_nil fun c hc => Or.inl (isBlank_of_isGap (h c hc))

theorem substance_dropEndSpaces (t : Text) : substance (Text.dropEndSpaces t) = substance t := by
  obtain ⟨n, hn⟩ := Text.exists_eq_dropEndSpaces_append t
  have hSpaces : substance (List.replicate n ' ') = [] :=
    substance_of_isGap fun c hc => by rw [List.eq_of_mem_replicate hc]; rfl
  calc substance (Text.dropEndSpaces t)
      = substance (Text.dropEndSpaces t ++ List.replicate n ' ') := by
        rw [substance_append, hSpaces, List.append_nil]
    _ = substance t := by rw [← hn]

theorem flatMap_substance_replicate {bare : Text} (h : substance bare = []) (n : Nat) :
    (List.replicate n bare).flatMap substance = [] := by
  rw [List.flatMap_eq_nil_iff]
  intro l hl
  rw [List.eq_of_mem_replicate hl, h]

namespace LineComment

/-- A line behind indentation and token keeps its substance when these are taken off, if they have
none themselves. -/
theorem substance_content {indent base line t : Text} (hLine : line = indent ++ (base ++ t))
    (hIndent : substance indent = []) (hBase : substance base = []) :
    substance (content indent base line) = substance line := by
  rw [hLine, content_append, substance_append, substance_append, hIndent, hBase]
  cases hSpace : Text.dropPrefix? [' '] t with
  | none => rfl
  | some rest =>
      rw [Text.dropPrefix?_eq_some hSpace, substance_append]
      rfl

/-- Plain comment text keeps its substance, for it is wrapped between bare markers. Blank lines at
the edges have none. -/
theorem substance_renderPlain (L : Layout) {indent marker : Text} (hIndent : substance indent = [])
    (hMarker : substance marker = []) (contents : List Text) :
    (renderPlain L indent marker contents).flatMap substance = contents.flatMap substance := by
  have hMargin : substance (indent ++ marker) = [] := by
    rw [substance_append, hIndent, hMarker]
    rfl
  have hBare : substance (indent ++ Text.dropEndSpaces marker) = [] := by
    rw [substance_append, substance_dropEndSpaces, hIndent, hMarker]
    rfl
  have hBlank : ∀ l, Text.allBlank l = true → substance l = [] := fun l hl =>
    blankBlind_substance.blank (Text.allBlank_iff.mp hl)
  have hBody : (if (Doc.interior contents).isEmpty then []
      else wrap L (indent ++ marker) (indent ++ marker)
        (Text.unlines (Doc.interior contents))).flatMap substance =
      (Doc.interior contents).flatMap substance := by
    split
    next hEmpty => rw [List.isEmpty_iff.mp hEmpty]
    · rw [Doc.substance_wrap L hMargin, hMargin, blankBlind_substance.unlines, List.nil_append]
  simp only [renderPlain]
  rw [List.flatMap_append, List.flatMap_append, flatMap_substance_replicate hBare,
    flatMap_substance_replicate hBare, hBody, Doc.flatMap_interior hBlank, List.append_nil,
    List.nil_append]

/-- A piece keeps its substance in whichever of the two ways it is written. -/
theorem substance_renderPiece (L : Layout) (lang : Language) {indent marker : Text}
    (hIndent : substance indent = []) (hMarker : substance marker = []) (contents : List Text) :
    (renderPiece L lang indent marker contents).flatMap substance = contents.flatMap substance := by
  unfold renderPiece
  split
  · refine Doc.substance_render L ?_ contents
    rw [substance_append, substance_dropEndSpaces, hIndent, hMarker]
    rfl
  · exact substance_renderPlain L hIndent hMarker contents

/-- A run of line comments keeps its substance, decorations included. The lines that were gathered
before count as contents, without their marker. -/
theorem substance_renderFrom (L : Layout) (lang : Language) {indent marker : Text}
    (hIndent : substance indent = []) (hMarker : substance marker = []) (piece : List Text)
    {lines : List Text}
    (hLines : ∀ l ∈ lines, ∃ t, l = indent ++ (Text.dropEndSpaces marker ++ t)) :
    (renderFrom L lang indent marker piece lines).flatMap substance =
      piece.flatMap substance ++ lines.flatMap substance := by
  have hPiece : ∀ contents : List Text, (if contents.isEmpty then []
      else renderPiece L lang indent marker contents).flatMap substance =
      contents.flatMap substance := by
    intro contents
    split
    next hEmpty => rw [List.isEmpty_iff.mp hEmpty]
    · exact substance_renderPiece L lang hIndent hMarker contents
  induction lines generalizing piece with
  | nil => rw [renderFrom, hPiece, List.flatMap_nil, List.append_nil]
  | cons line lines ih =>
      have hTail := fun l hl => hLines l (List.mem_cons_of_mem line hl)
      rw [renderFrom]
      split
      · rw [List.flatMap_append, hPiece, List.flatMap_cons, ih [] hTail, List.flatMap_cons]
        rfl
      · obtain ⟨t, ht⟩ := hLines line List.mem_cons_self
        have hContent := substance_content ht hIndent (by rw [substance_dropEndSpaces, hMarker])
        rw [ih _ hTail, List.flatMap_append, List.flatMap_singleton, hContent, List.flatMap_cons,
          List.append_assoc]

end LineComment

namespace BlockComment

theorem substance_dropWhile_isStar (t : Text) : substance (t.dropWhile isStar) = substance t := by
  have hStars : substance (t.takeWhile isStar) = [] := by
    refine substance_eq_nil fun c hc => Or.inr ?_
    have hStar : c = '*' := by simpa [isStar] using List.mem_takeWhile_imp hc
    rw [hStar]
    rfl
  calc substance (t.dropWhile isStar)
      = substance (t.takeWhile isStar ++ t.dropWhile isStar) := by
        rw [substance_append, hStars, List.nil_append]
    _ = substance t := by rw [List.takeWhile_append_dropWhile]

theorem substance_splitIndent (t : Text) : substance (Text.splitIndent t).2 = substance t := by
  obtain ⟨hSplit, hIndent, -⟩ := Text.splitIndent_eq (t := t) rfl
  rw [hSplit, substance_append, substance_of_isGap hIndent, ← hSplit]
  rfl

/-- Taking off the gutter of a middle line loses no substance: it is a star and blanks. -/
theorem substance_interiorText (line : Text) : substance (interiorText line) = substance line := by
  rw [← substance_splitIndent line]
  simp only [interiorText]
  generalize (Text.splitIndent line).2 = t
  cases hSpaced : Text.dropPrefix? ['*', ' '] t with
  | some rest => rw [Text.dropPrefix?_eq_some hSpaced]; rfl
  | none =>
      cases hStar : Text.dropPrefix? ['*'] t with
      | some rest => rw [Text.dropPrefix?_eq_some hStar]; rfl
      | none => rfl

/-- The first line is divided into its token and its text. Stars may change sides, which does not
show. -/
theorem substance_splitFirst (opening line : Text) :
    substance (splitFirst opening line).1 ++ substance (splitFirst opening line).2 =
      substance line := by
  obtain ⟨front, back, hBody, hFirst⟩ := exists_splitFirst_eq opening line
  have hStars : substance (back.takeWhile isStar) ++ substance (back.dropWhile isStar) =
      substance back := by
    rw [← substance_append, List.takeWhile_append_dropWhile]
  rw [← substance_splitIndent line, hBody, hFirst, substance_append, blankBlind_substance.trim,
    List.append_assoc, hStars, substance_append]

theorem flatMap_substance_unlessEmpty (t : Text) :
    (unlessEmpty t).flatMap substance = substance t := by
  unfold unlessEmpty
  split
  next h => rw [List.isEmpty_iff.mp h]; rfl
  · simp

/-- A block comment keeps its substance, the tokens around it included. If it is not rewrapped, this
is plain. -/
theorem substance_renderLines (L : Layout) {indent gutter : Text} (hIndent : substance indent = [])
    (hGutter : substance gutter = []) (opening closing first : Text) (middle : List Text)
    (last : Text) :
    (renderLines L indent opening closing gutter first middle last).flatMap substance =
      (first :: middle ++ [last]).flatMap substance := by
  unfold renderLines
  split
  · rfl
  next before after hCut =>
    split
    · rfl
    next hAfter =>
      -- Margins carry nothing, so what counts is the text and the two tokens around it.
      have hMargin : substance (indent ++ gutter) = [] := by
        rw [substance_append, hIndent, hGutter]
        rfl
      have hClose : substance (indent ++ ' ' :: closing) = substance closing := by
        rw [substance_append, hIndent, substance_cons]
        rfl
      have hLast : substance last = substance (lastText before) ++ substance closing := by
        have hBlank : substance after = [] :=
          blankBlind_substance.blank (Text.allBlank_iff.mp (by simpa using hAfter))
        rw [← substance_splitIndent last, Text.cut?_eq_some hCut, substance_append,
          substance_append, hBlank, lastText, blankBlind_substance.trim,
          substance_dropWhile_isStar, blankBlind_substance.trim, List.append_nil]
      have hMiddle : (middle.map interiorText).flatMap substance = middle.flatMap substance := by
        rw [List.flatMap_map]
        exact List.flatMap_congr fun l _ => substance_interiorText l
      have hFirst := substance_splitFirst opening first
      have hWrap : ∀ t, (if Text.allBlank t then []
          else wrap L (indent ++ gutter) (indent ++ gutter) t).flatMap substance = substance t := by
        intro t
        split
        next hBlank => rw [blankBlind_substance.blank (Text.allBlank_iff.mp hBlank)]; rfl
        · rw [Doc.substance_wrap L hMargin, hMargin, List.nil_append]
      dsimp only
      rw [List.flatMap_append, List.flatMap_cons, hWrap, blankBlind_substance.unlines,
        List.flatMap_singleton, hClose, substance_append, hIndent, List.nil_append,
        List.flatMap_append, List.flatMap_append, flatMap_substance_unlessEmpty,
        flatMap_substance_unlessEmpty, hMiddle, List.cons_append, List.flatMap_cons, ← hFirst,
        List.flatMap_append, List.flatMap_singleton, hLast]
      simp only [List.append_assoc]

theorem substance_render (L : Layout) {indent gutter : Text} (hIndent : substance indent = [])
    (hGutter : substance gutter = []) (opening closing : Text) (lines : List Text) :
    (render L indent opening closing gutter lines).flatMap substance = lines.flatMap substance := by
  match lines with
  | [] => rfl
  | [line] => rfl
  | first :: second :: rest =>
      rw [render, substance_renderLines L hIndent hGutter, List.cons_append,
        List.dropLast_append_getLast]

end BlockComment

namespace Language

/-- Comments of a language are marked with markup characters only. The tokens of block comments need
not be, as they are kept. -/
structure MarkedUp (lang : Language) : Prop where
  marker : ∀ token ∈ lang.lineMarkers, ∀ c ∈ token, isMarkup c = true
  gutter : substance lang.blockGutter = []

theorem not_isBlank_of_isMarkup {c : Char} (h : isMarkup c = true) : isBlank c = false := by
  have hAll : "/#*!-+•.)".toList.all (!isBlank ·) = true := by decide
  simpa using List.all_eq_true.mp hAll c (List.contains_iff_mem.mp h)

/-- Markup is not blank, so no token ends in a space. -/
theorem MarkedUp.hasSolidMarkers {lang : Language} (hLang : lang.MarkedUp) :
    lang.HasSolidMarkers := by
  intro token hToken
  rw [Text.dropEndSpaces, Text.dropEndWhile, List.reverse_eq_iff, List.dropWhile_eq_self_iff]
  intro hLength hSpace
  have hMem : (token.reverse)[0] ∈ token := List.mem_reverse.mp (List.getElem_mem hLength)
  have hVisible := not_isBlank_of_isMarkup (hLang.marker token hToken _ hMem)
  rw [beq_iff_eq.mp hSpace] at hVisible
  cases hVisible

/-- Every known language is marked up so. For others the conservation law below asks for this. -/
theorem markedUp_of_mem_all {lang : Language} (h : lang ∈ all) : lang.MarkedUp := by
  have hAll : ∀ lang ∈ all, (∀ token ∈ lang.lineMarkers, token.all isMarkup = true) ∧
      substance lang.blockGutter = [] := by decide
  exact ⟨fun token hToken => List.all_eq_true.mp ((hAll lang h).1 token hToken), (hAll lang h).2⟩

end Language

namespace Source

/-- The comments of a source text keep their substance, and code is not touched. By segments, so no
substance moves from one to another. -/
theorem substance_renderLines (L : Layout) {lang : Language} (hLang : lang.MarkedUp)
    (lines : List Text) :
    (renderLines L lang lines).flatMap substance = lines.flatMap substance := by
  induction lines using Segment.lines_induction lang with
  | nil => rw [renderLines_nil]
  | block line rest o closing more hBlock hMore ih =>
      have hIndent := substance_of_isGap (Segment.block?_eq_some hBlock).2.1
      rw [renderLines_block hBlock hMore, List.flatMap_append, ih,
        BlockComment.substance_render L hIndent hLang.gutter, ← List.flatMap_append,
        List.cons_append, List.take_append_drop]
  | unclosed line rest o closing hBlock hMore =>
      rw [renderLines_unclosed hBlock hMore]
  | run line rest indent marker hBlock hMatch ih =>
      obtain ⟨hToken, hGaps, -⟩ := Segment.exists_eq_of_matchLine? hLang.hasSolidMarkers hMatch
      have hMarker : substance (Segment.runMarker lang indent marker rest) = [] := by
        rw [← substance_dropEndSpaces, Segment.dropEndSpaces_runMarker]
        exact substance_eq_nil fun c hc => Or.inr (hLang.marker _ hToken c hc)
      have hRun := LineComment.substance_renderFrom L lang (substance_of_isGap hGaps) hMarker []
        fun l => Segment.exists_eq_of_mem_run hLang.hasSolidMarkers rest hMatch
      rw [renderLines_run hBlock hMatch, List.flatMap_append, ih, LineComment.render, hRun,
        List.flatMap_nil, List.nil_append, ← List.flatMap_append, List.cons_append,
        Segment.runAfter_append_restAfter]
  | code line rest hBlock hMatch ih =>
      rw [renderLines_code hBlock hMatch, List.flatMap_cons, ih, List.flatMap_cons]

variable {α : Type} {view : Text → List α}

/-- What rendering keeps of a text with line feeds, rewrapping keeps of every text: neither the line
endings nor a final line feed can be seen. -/
theorem view_rewrapWith (hView : BlankBlind view) {locate : Text → List LineRange} {L : Layout}
    {lang : Option Language} (hRender : ∀ t, view (render locate L lang t) = view t) (t : Text) :
    view (rewrapWith locate L lang t) = view t := by
  have hEndings : view (unifyEndings t) = view t := view_unifyEndings hView [] t
  simp only [rewrapWith]
  split
  · rw [hView.append_blank_end _ (by simp [isBlank]), hRender, hEndings]
  · rw [hRender, hEndings]

/-- Rewrapping conserves text. Plain text and documents keep their words, whatever ranges of a
document are rewrapped; a text in a known source language keeps its characters that are neither
blank nor markup. -/
theorem rewrapWith_conserves_text (locate : Text → List LineRange) (L : Layout) (t : Text) :
    Text.words (rewrapWith locate L none t) = Text.words t ∧
      (∀ lang : Language, lang.isDocument = true →
        Text.words (rewrapWith locate L (some lang) t) = Text.words t) ∧
      ∀ lang ∈ Language.all, lang.isDocument = false →
        Text.substance (rewrapWith locate L (some lang) t) = Text.substance t := by
  refine ⟨?_, fun lang hDocument => ?_, fun lang hMem hSource => ?_⟩
  · refine view_rewrapWith blankBlind_words (fun u => ?_) t
    rw [render, blankBlind_words.unlines, blankBlind_words.wrap_nil]
  · refine view_rewrapWith blankBlind_words (fun u => ?_) t
    rw [render, if_pos hDocument, blankBlind_words.rewrap]
  · refine view_rewrapWith blankBlind_substance (fun u => ?_) t
    rw [render, if_neg (by simp [hSource]), blankBlind_substance.unlines,
      substance_renderLines L (Language.markedUp_of_mem_all hMem), blankBlind_substance.lines]

/-- A document with an unruly list of ranges, and a numbered list in a structured comment on a page
of nine columns. -/
theorem rewrapWith_conserves_ranges_and_list :
    (Language.markdown.isDocument = true ∧
      Text.words (rewrapWith (fun _ => [⟨1, 9⟩, ⟨0, 1⟩]) { column := 9, tab := 4 }
        (some Language.markdown) "# a\r\nb\tc".toList) = Text.words "# a\r\nb\tc".toList) ∧
    Language.go ∈ Language.all ∧ Language.go.isDocument = false ∧
      Text.substance (rewrapWith (fun _ => []) { column := 9, tab := 4 } (some Language.go)
        "// 7) one two\r\n/* x".toList) = "7onetwox".toList := by
  refine ⟨⟨by decide, (rewrapWith_conserves_text _ _ _).2.1 _ (by decide)⟩, by decide, by decide,
    ?_⟩
  rw [(rewrapWith_conserves_text _ _ _).2.2 Language.go (by decide) (by decide)]
  decide

end Source

end Reflow
