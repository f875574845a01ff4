import Reflow.Proofs.Conservation
import Reflow.Proofs.Document
import Reflow.Proofs.Reading

/-!
The end of a rewrapped text. Nothing but its last line decides whether a text ends in a line feed,
and a last line that is not empty is never rewrapped to an empty one, whatever kind of segment it
ends.
-/

namespace Reflow

/-- The last of the lines is there and is not empty. A line of blanks counts as text here, as it
ends no text in a line feed. -/
def EndsInText (ls : List Text) : Prop := ∃ l, ls.getLast? = some l ∧ l ≠ []

namespace EndsInText

variable {ls ms : List Text}

theorem append (h : EndsInText ms) (ls : List Text) : EndsInText (ls ++ ms) := by
  obtain ⟨l, hl, hNe⟩ := h
  exact ⟨l, by rw [List.getLast?_append, hl]; rfl, hNe⟩

theorem of_append (h : EndsInText (ls ++ ms)) (hms : ms ≠ []) : EndsInText ms := by
  obtain ⟨l, hl, hNe⟩ := h
  rw [List.getLast?_append, Option.or_of_isSome (by simpa using hms)] at hl
  exact ⟨l, hl, hNe⟩

theorem of_forall (hNe : ls ≠ []) (h : ∀ l ∈ ls, l ≠ []) : EndsInText ls :=
  ⟨ls.getLast hNe, List.getLast?_eq_some_getLast hNe, h _ (List.getLast_mem hNe)⟩

end EndsInText

theorem endsInText_singleton {l : Text} (hl : l ≠ []) : EndsInText [l] := ⟨l, rfl, hl⟩

/-- A wrapped text that has words ends in one. A blank text is wrapped to one empty line, and so is
left out. -/
theorem endsInText_wrap (L : Layout) {t : Text} (h : Text.allBlank t = false) :
    EndsInText (wrap L [] [] t) := by
  have hSome := paragraphs_ne_nil h
  have hGroups := groups_wrapped L [] hSome
  rw [wrap_nil_eq L hSome, wrapped]
  have hLast := List.getLast?_eq_some_getLast hGroups.intercalate_ne_nil
  exact ⟨_, hLast, hGroups.edge_ne_nil (Or.inr hLast)⟩

namespace Document

variable {L : Layout} {lines : List Text}

/-- A range with something to be seen is wrapped to lines of which the last is not empty. A range
that is blank would end the document in an empty line. -/
theorem endsInText_rewrapFrom {rs : List LineRange}
    (hVisible : ∀ r ∈ rs, ∃ l ∈ slice lines r.start r.stop, Text.allBlank l = false)
    (hLines : EndsInText lines) {next : Nat} (hNext : next < lines.length) :
    EndsInText (rewrapFrom L lines next rs) := by
  induction rs generalizing next with
  | nil =>
      rw [rewrapFrom]
      rw [← List.take_append_drop next lines] at hLines
      exact hLines.of_append (by simpa using hNext)
  | cons r rs ih =>
      have hRest : ∀ n, n < lines.length → EndsInText (rewrapFrom L lines n rs) :=
        fun n => ih fun q hq => hVisible q (List.mem_cons_of_mem r hq)
      by_cases hRange : next ≤ r.start ∧ r.start < min r.stop lines.length
      · rw [rewrapFrom_wrap hRange]
        by_cases hStop : min r.stop lines.length < lines.length
        · exact (hRest _ hStop).append _
        · -- The range reaches to the last line.
          obtain ⟨l, hl, hSeen⟩ := hVisible r List.mem_cons_self
          have hText := allBlank_unlines_eq_false hl hSeen
          rw [rewrapFrom_of_length_le (by omega), List.append_nil, slice_min_length]
          exact (endsInText_wrap L hText).append _
      · rw [rewrapFrom_skip hRange]
        exact hRest next hNext

end Document

/-- A block comment that is rewrapped ends in its closing token; one that is kept ends as it did. -/
theorem BlockComment.endsInText_render (L : Layout) (indent opening closing gutter : Text)
    {lines : List Text} (h : EndsInText lines) :
    EndsInText (render L indent opening closing gutter lines) := by
  match lines with
  | [] => exact h
  | [line] => exact h
  | first :: second :: rest =>
      have hKept : EndsInText (first :: (second :: rest).dropLast ++
          [(second :: rest).getLast (by simp)]) := by
        rwa [List.cons_append, List.dropLast_append_getLast]
      rw [render, renderLines]
      split
      · exact hKept
      split
      · exact hKept
      · exact (endsInText_singleton (by simp)).append _

/-- Every line of a run stands behind its token, so none of them is empty. Not even a bare marker
is. -/
theorem LineComment.endsInText_render (L : Layout) {lang : Language} (hLang : lang.MarkedUp)
    (hMarkers : [] ∉ lang.lineMarkers) {line indent marker : Text} (rest : List Text)
    (hMatch : Segment.matchLine? lang line = some (indent, marker)) :
    EndsInText (render L lang indent (Segment.runMarker lang indent marker rest)
      (line :: Segment.runAfter lang indent marker rest)) := by
  have hToken := (Segment.exists_eq_of_matchLine? hLang.hasSolidMarkers hMatch).1
  rw [← Segment.dropEndSpaces_runMarker lang indent marker rest] at hToken
  have hNe : Text.dropEndSpaces (Segment.runMarker lang indent marker rest) ≠ [] :=
    fun hNil => hMarkers (hNil ▸ hToken)
  apply EndsInText.of_forall
  · exact render_ne_nil L lang _ _ (by simp)
  · rintro l hl rfl
    have hPrefix := isPrefix_of_mem_render L lang (hLang.hasSolidMarkers _ hToken) hNe
      (fun m hm => ?_) hl
    · simp [hNe] at hPrefix
    · obtain ⟨t, rfl⟩ := Segment.exists_eq_of_mem_run hLang.hasSolidMarkers rest hMatch hm
      exact ⟨t, List.append_assoc _ _ _⟩

namespace Source

open Segment

/-- What stands behind a rewrapped segment decides how the text ends, if anything does. Otherwise
the segment itself does. -/
theorem endsInText_append_renderLines {L : Layout} {lang : Language}
    {front rendered back : List Text}
    (h : EndsInText (front ++ back)) (hFront : EndsInText front → EndsInText rendered)
    (hBack : EndsInText back → EndsInText (renderLines L lang back)) :
    EndsInText (rendered ++ renderLines L lang back) := by
  cases back with
  | nil =>
      rw [List.append_nil] at h
      rw [renderLines_nil, List.append_nil]
      exact hFront h
  | cons next after => exact (hBack (h.of_append (by simp))).append _

/-- A source text ends in an empty line only if it did before. The induction is along its segments,
where the last one decides. -/
theorem endsInText_renderLines (L : Layout) {lang : Language} (hLang : lang.MarkedUp)
    (hMarkers : [] ∉ lang.lineMarkers) {lines : List Text} (h : EndsInText lines) :
    EndsInText (renderLines L lang lines) := by
  induction lines using lines_induction lang with
  | nil => simp [EndsInText] at h
  | block line rest o closing more hBlock hMore ih =>
      rw [← List.take_append_drop more rest, ← List.cons_append] at h
      rw [renderLines_block hBlock hMore]
      exact endsInText_append_renderLines h (BlockComment.endsInText_render L _ _ _ _) ih
  | unclosed line rest o closing hBlock hMore => rwa [renderLines_unclosed hBlock hMore]
  | run line rest indent marker hBlock hMatch ih =>
      rw [← runAfter_append_restAfter lang indent marker rest, ← List.cons_append] at h
      rw [renderLines_run hBlock hMatch]
      exact endsInText_append_renderLines h
        (fun _ => LineComment.endsInText_render L hLang hMarkers rest hMatch) ih
  | code line rest hBlock hMatch ih =>
      rw [renderLines_code hBlock hMatch, ← List.singleton_append]
      exact endsInText_append_renderLines h id ih

/-- The last line of a text is empty if the text is, or if it ends in a line feed. Blanks do not
make it so. -/
theorem getLast?_lines_eq_nil_iff (t : Text) :
    (Text.lines t).getLast? = some [] ↔ t = [] ∨ endsInLineFeed t = true := by
  rw [endsInLineFeed, beq_iff_eq]
  constructor
  · intro hLast
    obtain ⟨front, hFront⟩ := List.getLast?_eq_some_iff.mp hLast
    rw [← Text.unlines_lines t, hFront]
    cases front with
    | nil => exact Or.inl rfl
    | cons l front =>
        exact Or.inr (by rw [Text.unlines_append (by simp) (by simp)]; simp [Text.unlines])
  · rintro (rfl | hFeed)
    · rfl
    · obtain ⟨front, rfl⟩ := List.getLast?_eq_some_iff.mp hFeed
      have hLines : Text.lines (front ++ ['\n']) = Text.lines front ++ [[]] :=
        Text.lines_append_cons front []
      rw [hLines, List.getLast?_concat]

theorem endsInText_lines {t : Text} (hNe : t ≠ []) (h : endsInLineFeed t = false) :
    EndsInText (Text.lines t) := by
  have hLast := List.getLast?_eq_some_getLast (Text.lines_ne_nil t)
  refine ⟨_, hLast, fun hNil => ?_⟩
  rw [hNil] at hLast
  rcases (getLast?_lines_eq_nil_iff t).mp hLast with hEmpty | hFeed
  · exact hNe hEmpty
  · rw [hFeed] at h
    cases h

/-- Lines that end in text make a text without a final line feed. -/
theorem endsInLineFeed_unlines {ls : List Text} (hFeed : ∀ l ∈ ls, '\n' ∉ l) (h : EndsInText ls) :
    endsInLineFeed (Text.unlines ls) = false := by
  obtain ⟨l, hLast, hNe⟩ := h
  have hLines : Text.lines (Text.unlines ls) = ls :=
    Text.lines_unlines hFeed (by rintro rfl; cases hLast)
  rw [← Bool.not_eq_true]
  intro hEnds
  have hNil := (getLast?_lines_eq_nil_iff (Text.unlines ls)).mpr (Or.inr hEnds)
  rw [hLines, hLast] at hNil
  exact hNe (Option.some.inj hNil)

/-- Only the kind of a final line ending is changed: a return at the end becomes a line feed. -/
theorem getLast?_unifyEndings (t : Text) :
    (unifyEndings t).getLast? = t.getLast?.map fun c => if c = '\r' then '\n' else c := by
  fun_induction unifyEndings t with
  | case1 => rfl
  | case2 t ih =>
      rw [List.getLast?_cons, ih]
      cases t <;> simp [List.getLast?_cons]
  | case3 t hNext ih =>
      rw [List.getLast?_cons, ih]
      cases t <;> simp [List.getLast?_cons]
  | case4 c t hPair hReturn ih =>
      have hKept : c ≠ '\r' := hReturn
      rw [List.getLast?_cons, ih]
      cases t <;> simp [List.getLast?_cons, hKept]

theorem endsInLineFeed_unifyEndings_iff (t : Text) :
    endsInLineFeed (unifyEndings t) = true ↔ t.getLast? = some '\n' ∨ t.getLast? = some '\r' := by
  rw [endsInLineFeed, getLast?_unifyEndings, beq_iff_eq]
  cases t.getLast? with
  | none => simp
  | some c =>
      by_cases hc : c = '\r'
      · simp [hc]
      · simp [hc]

section RewrapWith

variable {locate : Text → List LineRange} {L : Layout} {lang : Option Language} {t : Text}

/-- A text that is rendered without a final line feed has one after rewrapping exactly when it had
one before. One direction is by how the feed is added; the other is the hypothesis. -/
theorem endsInLineFeed_rewrapWith_of_render
    (h : endsInLineFeed (unifyEndings t) = false →
      endsInLineFeed (render locate L lang (unifyEndings t)) = false) :
    endsInLineFeed (rewrapWith locate L lang t) = endsInLineFeed (unifyEndings t) := by
  simp only [rewrapWith]
  cases hEnds : endsInLineFeed (unifyEndings t) with
  | false => simpa using h hEnds
  | true =>
      cases hOut : endsInLineFeed (render locate L lang (unifyEndings t)) with
      | false => simp [endsInLineFeed]
      | true => simp [hOut]

theorem return_notMem_rewrapWith (h : '\r' ∉ render locate L lang (unifyEndings t)) :
    '\r' ∉ rewrapWith locate L lang t := by
  simp only [rewrapWith]
  split
  · simpa using h
  · exact h

end RewrapWith

/-- Rendering the lines of a source text makes no line endings, in any of the known languages. -/
theorem endings_renderLines_of_mem_all (L : Layout) {lang : Language} (hMem : lang ∈ Language.all)
    (t : Text) :
    ∀ l ∈ renderLines L lang (Text.lines (unifyEndings t)),
      Made (fun c => c ≠ '\n' ∧ c ≠ '\r') l := by
  have hGutters : (Language.all.all fun lang =>
      lang.blockGutter.all fun c => c != '\n' && c != '\r') = true := by decide
  have hGutter : ∀ c ∈ lang.blockGutter, c ≠ '\n' ∧ c ≠ '\r' := by
    intro c hc
    simpa using List.all_eq_true.mp (List.all_eq_true.mp hGutters lang hMem) c hc
  have hAdded : [' ', '\t', '-', '.', '#'].all (fun c => c != '\n' && c != '\r') = true := by decide
  refine made_renderLines (fun c hc => ?_) L (Language.markedUp_of_mem_all hMem).hasSolidMarkers
    hGutter (endings_lines_unifyEndings t)
  simpa using List.all_eq_true.mp hAdded c (List.contains_iff_mem.mp hc)

/-- The text of a known source language without a final line feed is rendered without one. The empty
text is a case by itself. -/
theorem endsInLineFeed_unlines_renderLines (L : Layout) {lang : Language}
    (hMem : lang ∈ Language.all) {t : Text} (h : endsInLineFeed (unifyEndings t) = false) :
    endsInLineFeed (Text.unlines (renderLines L lang (Text.lines (unifyEndings t)))) = false := by
  by_cases hEmpty : unifyEndings t = []
  · have hNone : ∀ lang ∈ Language.all, block? lang [] = none := by decide
    have hLines : renderLines L lang [[]] = [[]] := by
      rw [renderLines_code (hNone lang hMem) matchLine?_nil, renderLines_nil]
    rw [hEmpty]
    exact congrArg (endsInLineFeed ∘ Text.unlines) hLines
  · have hMarkers : ∀ lang ∈ Language.all, [] ∉ lang.lineMarkers := by decide
    apply endsInLineFeed_unlines
    · exact fun l hl hc => (endings_renderLines_of_mem_all L hMem t l hl _ hc).1 rfl
    · exact endsInText_renderLines L (Language.markedUp_of_mem_all hMem) (hMarkers lang hMem)
        (endsInText_lines hEmpty h)

/-- A document without a final line feed is rendered without one, if something is to be seen in
every range. That condition is needed: a blank range at the end is written as an empty line. -/
theorem endsInLineFeed_rewrap_document (L : Layout) {t : Text} {rs : List LineRange}
    (hVisible : ∀ r ∈ rs, ∃ l ∈ Document.slice (Text.lines t) r.start r.stop,
      Text.allBlank l = false) (h : endsInLineFeed t = false) :
    endsInLineFeed (Document.rewrap L rs t) = false := by
  by_cases hEmpty : t = []
  · have hNone : rs = [] := by
      rw [List.eq_nil_iff_forall_not_mem]
      intro r hr
      obtain ⟨l, hl, hSeen⟩ := hVisible r hr
      have hMem : l ∈ Text.lines t := List.mem_of_mem_take (List.mem_of_mem_drop hl)
      rw [hEmpty] at hMem
      rw [List.mem_singleton.mp hMem] at hSeen
      cases hSeen
    rw [hNone, hEmpty]
    rfl
  · apply endsInLineFeed_unlines
    · exact Document.feedless_rewrapFrom (fun l => Text.not_mem_of_mem_lines) 0 rs
    · exact Document.endsInText_rewrapFrom hVisible (endsInText_lines hEmpty h)
        (List.length_pos_of_ne_nil (Text.lines_ne_nil t))

/-- A rewrapped text ends in a line feed exactly when the text ended in a line ending: as plain
text, in every known source language, and as a document, if something is to be seen in every range
that is rewrapped. Plain and source texts have no returns any more. -/
theorem endsInLineFeed_rewrapWith_iff (locate : Text → List LineRange) (L : Layout) (t : Text) :
    ((endsInLineFeed (rewrapWith locate L none t) = true ↔
        t.getLast? = some '\n' ∨ t.getLast? = some '\r') ∧
      '\r' ∉ rewrapWith locate L none t) ∧
    (∀ lang ∈ Language.all, lang.isDocument = false →
      (endsInLineFeed (rewrapWith locate L (some lang) t) = true ↔
        t.getLast? = some '\n' ∨ t.getLast? = some '\r') ∧
      '\r' ∉ rewrapWith locate L (some lang) t) ∧
    ∀ lang : Language, lang.isDocument = true →
      (∀ r ∈ locate (unifyEndings t),
        ∃ l ∈ Document.slice (Text.lines (unifyEndings t)) r.start r.stop,
        Text.allBlank l = false) →
      (endsInLineFeed (rewrapWith locate L (some lang) t) = true ↔
        t.getLast? = some '\n' ∨ t.getLast? = some '\r') := by
  simp only [← endsInLineFeed_unifyEndings_iff]
  refine ⟨⟨?_, ?_⟩, fun lang hMem hSource => ⟨?_, ?_⟩, fun lang hDocument hVisible => ?_⟩
  · rw [endsInLineFeed_rewrapWith_of_render]
    intro _
    exact endsInLineFeed_unlines_wrap L _
  · exact return_notMem_rewrap_none L t
  · rw [endsInLineFeed_rewrapWith_of_render]
    intro hEnds
    rw [render, if_neg (by simp [hSource])]
    exact endsInLineFeed_unlines_renderLines L hMem hEnds
  · apply return_notMem_rewrapWith
    rw [render, if_neg (by simp [hSource])]
    intro hReturn
    rcases mem_intercalate hReturn with hFeed | ⟨l, hl, hc⟩
    · cases hFeed
    · exact (endings_renderLines_of_mem_all L hMem t l hl _ hc).2 rfl
  · rw [endsInLineFeed_rewrapWith_of_render]
    intro hEnds
    rw [render, if_pos hDocument]
    exact endsInLineFeed_rewrap_document L hVisible hEnds

/-- A source text that ends in a bare marker below an empty line, and a document that ends in a
return and whose range reaches behind its end. -/
theorem endsInLineFeed_rewrapWith_edges :
    (Language.rust ∈ Language.all ∧ Language.rust.isDocument = false ∧
      endsInLineFeed (rewrapWith (fun _ => []) { column := 4, tab := 4 } (some Language.rust)
        "x\n\n/// a b\n///".toList) = false) ∧
    Language.markdown.isDocument = true ∧
      (∀ r ∈ [(⟨2, 9⟩ : LineRange)], ∃ l ∈ Document.slice
        (Text.lines (unifyEndings "# a\r\n\r\n b c\r".toList)) r.start r.stop,
        Text.allBlank l = false) ∧
      endsInLineFeed (rewrapWith (fun _ => [⟨2, 9⟩]) { column := 2, tab := 4 }
        (some Language.markdown) "# a\r\n\r\n b c\r".toList) = true := by
  have hVisible : ∀ r ∈ [(⟨2, 9⟩ : LineRange)], ∃ l ∈ Document.slice
      (Text.lines (unifyEndings "# a\r\n\r\n b c\r".toList)) r.start r.stop,
      Text.allBlank l = false := by decide +kernel
  refine ⟨⟨by decide, by decide, ?_⟩, by decide, hVisible, ?_⟩
  · rw [← Bool.not_eq_true,
      ((endsInLineFeed_rewrapWith_iff _ _ _).2.1 Language.rust (by decide) (by decide)).1]
    decide
  · rw [(endsInLineFeed_rewrapWith_iff _ _ _).2.2 Language.markdown (by decide) hVisible]
    decide

end Source

end Reflow
