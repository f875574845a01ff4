import Reflow.Proofs.Reading

/-!
Rewrapping a source text with plain comments twice. Wrapping can make new decorations and new
directives, which divide a run in the second pass; but no part of a rewrapped run is changed, and
the one form of a block comment is read back. So single-spaced comments are rewrapped once and for
all.
-/

namespace Reflow

namespace Language

theorem oneToken_slashes {lang : Language} (hMarkers : lang.lineMarkers = [['/', '/']])
    (hStart : lang.blockStart = [['/', '*']]) (hDirectives : ∀ d ∈ lang.directives, d ≠ []) :
    lang.OneToken ['/', '/'] where
  markers := hMarkers
  word := ⟨by simp, by simp [isBlank]⟩
  directives := hDirectives
  apart o ho rest := by
    rw [hStart, List.mem_singleton] at ho
    rw [ho]
    rfl

theorem oneToken_number {lang : Language} (hMarkers : lang.lineMarkers = [['#']])
    (hStart : lang.blockStart = []) (hDirectives : ∀ d ∈ lang.directives, d ≠ []) :
    lang.OneToken ['#'] where
  markers := hMarkers
  word := ⟨by simp, by simp [isBlank]⟩
  directives := hDirectives
  apart o ho := by
    rw [hStart] at ho
    cases ho

/-- The known source languages with one line marker, and which of them has structured comments. One
language has three line markers and is left out. -/
theorem conventions_of_mem_all {lang : Language} (hMem : lang ∈ all)
    (hSource : lang.isDocument = false) (hRust : lang ≠ rust) :
    (∃ token, lang.OneToken token) ∧ lang.StarBlocks ∧ (lang ≠ go → lang.docMarker = none) := by
  have hAll : ∀ lang ∈ all, lang.isDocument = false → lang ≠ rust →
      (lang.lineMarkers = [['/', '/']] ∧ lang.blockStart = [['/', '*']] ∧
          lang.blockEnd = [['*', '/']] ∨ lang.lineMarkers = [['#']] ∧ lang.blockStart = []) ∧
        (∀ d ∈ lang.directives, d ≠ []) ∧ lang.blockGutter = [' ', '*', ' '] ∧
        (lang ≠ go → lang.docMarker = none) := by decide
  obtain ⟨hTokens, hDirectives, hGutter, hDoc⟩ := hAll lang hMem hSource hRust
  rcases hTokens with ⟨hMarkers, hStart, hEnd⟩ | ⟨hMarkers, hStart⟩
  · exact ⟨⟨_, oneToken_slashes hMarkers hStart hDirectives⟩, ⟨Or.inr ⟨hStart, hEnd⟩, hGutter⟩,
      hDoc⟩
  · exact ⟨⟨_, oneToken_number hMarkers hStart hDirectives⟩, ⟨Or.inl hStart, hGutter⟩, hDoc⟩

end Language

namespace Segment

/-- The lines of the comments of a source text, with indentation and tokens. -/
def commentLines (lang : Language) (lines : List Text) : List Text :=
  (ofSource lang lines).flatMap fun s => if s.isComment then s.lines else []

theorem commentLines_code (s : Segment) (hs : s.kind = .code) :
    (if s.isComment then s.lines else []) = s.lines.flatMap fun _ => ([] : List Text) := by
  simp [isComment, hs]

end Segment

namespace Source

open Segment

/-- A rewrapped run of single-spaced plain comments is not changed, and neither are the lines behind
it. The second pass may read it as several runs, if wrapping made directives. -/
theorem renderLines_append_plain (L : Layout) {lang : Language} {token : Text}
    (hToken : lang.OneToken token) (hPlain : lang.docMarker = none) {indent : Text}
    (hIndent : ∀ c ∈ indent, isGap c = true) {lines after : List Text}
    (hRun : ∀ l ∈ lines, (marker? lang indent token l).isSome = true)
    (hSpaced : ∀ l ∈ lines, SingleSpaced l) (hFeed : ∀ l ∈ lines, '\n' ∉ l)
    (hAfter : ∀ l, after.head? = some l → marker? lang indent token l = none) :
    renderLines L lang
        (LineComment.render L lang indent (markerOf lang indent token lines) lines ++ after) =
      LineComment.render L lang indent (markerOf lang indent token lines) lines ++
        renderLines L lang after := by
  have hShape := fun l => LineComment.exists_eq_of_mem_render (L := L) (l := l) hToken hPlain hRun
    hSpaced hFeed rfl
  refine renderLines_append_run hToken hIndent (fun l hl => ?_) hAfter fun ys hys hComments => ?_
  · obtain ⟨r, hr, -⟩ := hShape l hl
    exact ⟨r, hr⟩
  · refine LineComment.render_eq_self_of_isInfix hToken hPlain hRun hSpaced hFeed rfl hys
      (markerOf_cases hToken indent ys) (fun r hr hSpace => ?_) fun hNone => ?_
    · -- A line with a space behind its token makes the run have one.
      obtain ⟨m, hm⟩ := Option.isSome_iff_exists.mp (hComments _ hr)
      obtain ⟨-, s, hEq, rfl⟩ := eq_of_marker? hToken hm
      have hSame : r = s := by simpa using hEq
      rw [markerOf_eq hToken, if_pos ⟨_, hr, by rw [hm, ← hSame, hSpace]⟩]
    · rw [markerOf_eq hToken, if_neg]
      rintro ⟨l, hl, hm⟩
      obtain ⟨r, rfl, hBare⟩ := hShape l (hys.subset hl)
      obtain ⟨-, s, hEq, hMarker⟩ := eq_of_marker? hToken hm
      have hSame : r = s := by simpa using hEq
      rw [← hSame, hBare hNone] at hMarker
      have hLength := congrArg List.length hMarker
      simp at hLength

/-- Rendering the lines of a source text with single-spaced plain comments twice is the same as
once. The induction is along the segments of the text, not of the rewrapped one, whose runs may be
divided otherwise. -/
theorem renderLines_renderLines_eq (L : Layout) {lang : Language} {token : Text}
    (hToken : lang.OneToken token) (hBlocks : lang.StarBlocks) (hPlain : lang.docMarker = none)
    {lines : List Text} (hFeed : ∀ l ∈ lines, '\n' ∉ l)
    (hSpaced : ∀ l ∈ commentLines lang lines, SingleSpaced l) :
    renderLines L lang (renderLines L lang lines) = renderLines L lang lines := by
  induction lines using lines_induction lang with
  | nil => rw [renderLines_nil, renderLines_nil]
  | block line rest o closing more hBlock hMore ih =>
      rw [commentLines, ofSource_block hBlock hMore, List.flatMap_cons,
        List.forall_mem_append] at hSpaced
      have hTaken : ∀ l ∈ line :: rest.take more, '\n' ∉ l := fun l hl =>
        hFeed l (List.cons_subset_cons line (List.take_subset more rest) hl)
      have hRest := ih (fun l hl => hFeed l (List.mem_cons_of_mem line (List.mem_of_mem_drop hl)))
        hSpaced.2
      have hTexts : ∀ t ∈ BlockComment.lineTexts o.opening closing (line :: rest.take more),
          SingleSpaced t := by
        intro t ht
        obtain ⟨l, hl, hInfix⟩ := BlockComment.exists_isInfix_of_mem_lineTexts ht
        exact (hSpaced.1 l hl).of_isInfix hInfix
      rw [renderLines_block hBlock hMore,
        renderLines_append_block L hBlocks hBlock hMore hTaken hTexts, hRest]
  | unclosed line rest o closing hBlock hMore =>
      rw [renderLines_unclosed hBlock hMore, renderLines_unclosed hBlock hMore]
  | run line rest indent marker hBlock hMatch ih =>
      have hSplit := runAfter_append_restAfter lang indent marker rest
      rw [commentLines, ofSource_run hBlock hMatch, List.flatMap_cons,
        List.forall_mem_append] at hSpaced
      have hTail :
          ∀ l ∈ line :: (runAfter lang indent marker rest ++ restAfter lang indent marker rest),
          '\n' ∉ l := by rwa [hSplit]
      have hRest := ih (fun l hl => hTail l (by simp [hl])) hSpaced.2
      have hIndent := (eq_of_marker? hToken (marker?_isSome_of_matchLine? hToken hMatch).1).1
      rw [renderLines_run hBlock hMatch, runMarker_eq hToken hMatch,
        renderLines_append_plain L hToken hPlain hIndent
          (fun l => hToken.marker?_isSome_of_mem_run hMatch) hSpaced.1
          (fun l hl => hTail l (List.mem_append_left _ hl))
          fun l => marker?_head_renderLines hToken hBlocks fun m =>
            hToken.marker?_head_restAfter hMatch,
        hRest]
  | code line rest hBlock hMatch ih =>
      rw [commentLines, flatMap_ofSource_code commentLines_code hBlock hMatch] at hSpaced
      rw [renderLines_code hBlock hMatch, renderLines_code hBlock hMatch,
        ih (fun l hl => hFeed l (List.mem_cons_of_mem line hl)) hSpaced]

/-- Rewrapping a source text in a known language with plain comments twice is the same as once, if
the words on each comment line are set apart by single spaces. The condition is on the lines of the
comments only; code may be spaced in any way. -/
theorem rewrap_rewrap_plain_comments (L : Layout) {lang : Language} (hMem : lang ∈ Language.all)
    (hSource : lang.isDocument = false) (hGo : lang ≠ Language.go) (hRust : lang ≠ Language.rust)
    (t : Text)
    (hSpaced : ∀ s ∈ Segment.ofSource lang (Text.lines (unifyEndings t)), s.isComment = true →
      ∀ l ∈ s.lines, SingleSpaced l) :
    rewrap L (some lang) (rewrap L (some lang) t) = rewrap L (some lang) t := by
  obtain ⟨⟨token, hToken⟩, hBlocks, hPlain⟩ := Language.conventions_of_mem_all hMem hSource hRust
  rw [rewrap_rewrap_eq_iff hToken hBlocks hSource]
  refine renderLines_renderLines_eq L hToken hBlocks (hPlain hGo)
    (fun l => Text.not_mem_of_mem_lines) fun l hl => ?_
  obtain ⟨s, hs, hMemLine⟩ := List.mem_flatMap.mp hl
  split at hMemLine
  next hComment => exact hSpaced s hs hComment l hMemLine
  · cases hMemLine

/-- Wrapping makes a directive of `-*-` on a page of five columns; the second pass reads it as code
and leaves the comments on both sides alone. -/
theorem rewrap_rewrap_new_directive :
    Language.lineOnly "python" [".py"] "#" ["!", " -*-"] ∈ Language.all ∧
      (∀ s ∈ Segment.ofSource (Language.lineOnly "python" [".py"] "#" ["!", " -*-"])
        (Text.lines (unifyEndings "# a -*- b\n#\n\tx = 1\n".toList)), s.isComment = true →
        ∀ l ∈ s.lines, SingleSpaced l) ∧
      rewrap { column := 5, tab := 4 } (some (Language.lineOnly "python" [".py"] "#" ["!", " -*-"]))
          (rewrap { column := 5, tab := 4 }
            (some (Language.lineOnly "python" [".py"] "#" ["!", " -*-"]))
            "# a -*- b\n#\n\tx = 1\n".toList) =
        rewrap { column := 5, tab := 4 }
          (some (Language.lineOnly "python" [".py"] "#" ["!", " -*-"]))
          "# a -*- b\n#\n\tx = 1\n".toList := by
  have hSpaced : ∀ s ∈ Segment.ofSource (Language.lineOnly "python" [".py"] "#" ["!", " -*-"])
      (Text.lines (unifyEndings "# a -*- b\n#\n\tx = 1\n".toList)), s.isComment = true →
      ∀ l ∈ s.lines, SingleSpaced l := by decide +kernel
  exact ⟨by decide, hSpaced,
    rewrap_rewrap_plain_comments _ (by decide) (by decide) (by decide) (by decide) _ hSpaced⟩

end Source

end Reflow
