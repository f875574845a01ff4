import Reflow.Proofs.Comment.Structured
import Reflow.Proofs.PlainComments

/-!
Rewrapping a source text with structured comments twice. Block comments and code are never changed
by the second pass. A run of line comments is changed exactly when one of its pieces is not legible,
so whether the second pass changes a text can be told from the output of the first.
-/

namespace Reflow

namespace Language

/-- The comments of Go are structured ones behind two slashes, and none of its directives starts
with a gap. -/
theorem structured_go : go.Structured ['/', '/'] where
  toOneToken := oneToken_slashes rfl rfl (by decide)
  doc := rfl
  solid d hd c hc := by
    have hHeads : ∀ d ∈ go.directives, d.head?.any isGap = false := by decide
    have hHead := hHeads d hd
    rwa [hc] at hHead

theorem starBlocks_go : go.StarBlocks := by
  have hSource : go.isDocument = false := rfl
  exact (conventions_of_mem_all (by decide) hSource (by decide)).2.1

end Language

namespace Segment

/-- The texts of a comment, without what marks them as one. Code has none. -/
def texts (s : Segment) : List Text :=
  match s.kind with
  | .code => []
  | .lineComment marker => s.lines.map (LineComment.content s.indent (Text.dropEndSpaces marker))
  | .blockComment opening closing => BlockComment.lineTexts opening closing s.lines

/-- A second pass reads the segment as it was written. For code and block comments this always
holds. -/
def Legible (s : Segment) : Prop :=
  match s.kind with
  | .lineComment _ => LegibleRun s.texts
  | _ => True

instance (s : Segment) : Decidable s.Legible := by
  unfold Legible
  cases s.kind <;> infer_instance

theorem forall_mem_ofSource_iff {lang : Language} {lines : List Text} :
    (∀ s ∈ ofSource lang lines, s.Legible) ↔ ∀ s ∈ comments lang lines, s.Legible := by
  refine ⟨fun h s hs => h s (mem_comments.mp hs).1, fun h s hs => ?_⟩
  cases hComment : s.isComment with
  | true => exact h s (mem_comments.mpr ⟨hs, hComment⟩)
  | false =>
      obtain hCode : s.kind = .code := by simpa [isComment] using hComment
      rw [Legible, hCode]
      trivial

end Segment

namespace Source

open Segment

section Structured

variable {L : Layout} {lang : Language} {token : Text} (hLang : lang.Structured token)
include hLang

/-- A rewrapped run, and the lines behind it, in the second pass: if all are legible, nothing is
changed, and if one is not, the lines that are written differ. -/
theorem recovers_append_run {indent marker : Text} (hMarker : Text.dropEndSpaces marker = token)
    (hIndent : ∀ c ∈ indent, isGap c = true) {lines after : List Text} (hNe : lines ≠ [])
    (hRun : ∀ l ∈ lines, (marker? lang indent token l).isSome = true)
    (hLines : ∀ l ∈ lines, SingleSpaced (LineComment.content indent token l) ∧
      '\n' ∉ LineComment.content indent token l)
    (hAfter : ∀ l, after.head? = some l → marker? lang indent token l = none)
    (hRest : Doc.Recovers (∀ s ∈ comments lang after, s.Legible) (renderLines L lang after) after) :
    Doc.Recovers
      (∀ s ∈ comments lang (LineComment.render L lang indent marker lines ++ after), s.Legible)
      (renderLines L lang (LineComment.render L lang indent marker lines ++ after))
      (LineComment.render L lang indent marker lines ++ after) := by
  have hOut : ∀ l ∈ LineComment.render L lang indent marker lines,
      (marker? lang indent token l).isSome = true := fun l =>
    LineComment.marker?_of_mem_render hLang hMarker hIndent hRun
  have hRecovers : ∀ other, Text.dropEndSpaces other = token → Doc.Recovers _ _ _ := fun _ =>
    LineComment.recovers_run (L := L) hLang hMarker hLines
  obtain ⟨line, more, hForm⟩ := List.exists_cons_of_ne_nil
    (LineComment.render_ne_nil L lang indent marker hNe)
  rw [hForm] at hOut hRecovers ⊢
  obtain ⟨own, hBlock, hMatch, hOwn, hTaken, hDropped⟩ :=
    exists_run_append hLang.toOneToken hOut hAfter
  have hBase : Text.dropEndSpaces (runMarker lang indent own (more ++ after)) = token :=
    (dropEndSpaces_runMarker lang indent own _).trans hOwn
  rw [List.cons_append, comments_run hBlock hMatch, renderLines_run hBlock hMatch, hTaken, hDropped,
    ← List.cons_append, List.forall_mem_cons]
  refine ((hRecovers _ hBase).append hRest).congr (and_congr_left fun _ => ?_)
  simp only [Legible, texts, hBase]

/-- The second pass over the lines of a source text with single-spaced structured comments. The
segments in the condition are those of the rewrapped text, which can be read off the output of the
first pass. -/
theorem recovers_renderLines (hBlocks : lang.StarBlocks) {lines : List Text}
    (hFeed : ∀ l ∈ lines, '\n' ∉ l)
    (hSpaced : ∀ s ∈ comments lang lines, ∀ t ∈ s.texts, SingleSpaced t) :
    Doc.Recovers (∀ s ∈ comments lang (renderLines L lang lines), s.Legible)
      (renderLines L lang (renderLines L lang lines)) (renderLines L lang lines) := by
  induction lines using lines_induction lang with
  | nil =>
      have hNone : comments lang [] = [] := by rw [comments, ofSource, List.flatMap_nil]
      rw [renderLines_nil, renderLines_nil, hNone]
      exact .of_eq (List.forall_mem_nil _) rfl
  | block line rest o closing more hBlock hMore ih =>
      rw [comments_block hBlock hMore, List.forall_mem_cons] at hSpaced
      have hTexts : ∀ t ∈ BlockComment.lineTexts o.opening closing (line :: rest.take more),
          SingleSpaced t := hSpaced.1
      have hTaken : ∀ l ∈ line :: rest.take more, '\n' ∉ l := fun l hl =>
        hFeed l (List.cons_subset_cons line (List.take_subset more rest) hl)
      have hRest := ih (fun l hl => hFeed l (List.mem_cons_of_mem line (List.mem_of_mem_drop hl)))
        hSpaced.2
      obtain ⟨first, taken, p, hForm, hAgain, -, -, hFound⟩ :=
        exists_block_render L hBlocks hBlock hMore hTaken
      rw [renderLines_block hBlock hMore,
        renderLines_append_block L hBlocks hBlock hMore hTaken hTexts]
      refine (hRest.append_left _).congr ?_
      rw [hForm, List.cons_append, comments_block hAgain (hFound _), List.drop_left,
        List.forall_mem_cons]
      exact (and_iff_right trivial).symm
  | unclosed line rest o closing hBlock hMore =>
      rw [renderLines_unclosed hBlock hMore, renderLines_unclosed hBlock hMore,
        comments_unclosed hBlock hMore]
      exact .of_eq (List.forall_mem_nil _) rfl
  | run line rest indent marker hBlock hMatch ih =>
      have hToken := hLang.toOneToken
      have hSplit := runAfter_append_restAfter lang indent marker rest
      obtain ⟨hMarker, hBase⟩ := marker?_isSome_of_matchLine? hToken hMatch
      have hOwn := (dropEndSpaces_runMarker lang indent marker rest).trans hBase
      rw [comments_run hBlock hMatch, List.forall_mem_cons] at hSpaced
      have hTail :
          ∀ l ∈ line :: (runAfter lang indent marker rest ++ restAfter lang indent marker rest),
          '\n' ∉ l := by rwa [hSplit]
      have hTexts := hSpaced.1
      simp only [texts, hOwn, List.forall_mem_map] at hTexts
      rw [renderLines_run hBlock hMatch]
      -- What is written behind the run does not go on with its token, so the second pass reads the
      -- same run.
      apply recovers_append_run hLang hOwn (eq_of_marker? hToken hMarker).1 (by simp)
      · exact fun l => hToken.marker?_isSome_of_mem_run hMatch
      · intro l hl
        refine ⟨hTexts l hl, fun hMem => hTail l (List.mem_append_left _ hl) ?_⟩
        exact (LineComment.content_isInfix indent token l).subset hMem
      · exact fun l => marker?_head_renderLines hToken hBlocks fun m =>
          hToken.marker?_head_restAfter hMatch
      · exact ih (fun l hl => hTail l (by simp [hl])) hSpaced.2
  | code line rest hBlock hMatch ih =>
      rw [comments_code hBlock hMatch] at hSpaced
      have hRest := ih (fun l hl => hFeed l (List.mem_cons_of_mem line hl)) hSpaced
      rw [renderLines_code hBlock hMatch, renderLines_code hBlock hMatch,
        comments_code hBlock hMatch]
      exact hRest.append_left [line]

end Structured

/-- Rewrapping a source text with structured comments twice is the same as once exactly when every
run of line comments in the rewrapped text is legible, if the words on each line of a comment are
set apart by single spaces. Legibility is decided by looking at the lines, without a second pass. -/
theorem rewrap_rewrap_go_eq_iff (L : Layout) (t : Text)
    (hSpaced : ∀ s ∈ Segment.ofSource Language.go (Text.lines (unifyEndings t)),
      ∀ x ∈ s.texts, SingleSpaced x) :
    rewrap L (some Language.go) (rewrap L (some Language.go) t) = rewrap L (some Language.go) t ↔
      ∀ s ∈ Segment.ofSource Language.go (Text.lines (rewrap L (some Language.go) t)),
        s.Legible := by
  have hLang := Language.structured_go
  have hBlocks := Language.starBlocks_go
  rw [rewrap_rewrap_eq_iff hLang.toOneToken hBlocks rfl, forall_mem_ofSource_iff,
    (lines_rewrap hLang.toOneToken hBlocks rfl t).1]
  exact (recovers_renderLines hLang hBlocks (fun l => Text.not_mem_of_mem_lines)
    fun s hs => hSpaced s (mem_comments.mp hs).1).eq_iff

/-- A paragraph with a list right below it, a heading, code and a block comment are legible on a
page of sixteen columns, so the second pass changes nothing. -/
theorem rewrap_rewrap_go_list :
    (∀ s ∈ Segment.ofSource Language.go (Text.lines (unifyEndings
    "// Intro text here\n//  - one two three\n//\n// # Head\n//\tx := 1\nx\n/* a\nb */\n".toList)),
      ∀ x ∈ s.texts, SingleSpaced x) ∧
      rewrap { column := 16, tab := 4 } (some Language.go)
          (rewrap { column := 16, tab := 4 } (some Language.go)
    "// Intro text here\n//  - one two three\n//\n// # Head\n//\tx := 1\nx\n/* a\nb */\n".toList) =
        rewrap { column := 16, tab := 4 } (some Language.go)
    "// Intro text here\n//  - one two three\n//\n// # Head\n//\tx := 1\nx\n/* a\nb */\n".toList := by
  have hSpaced : ∀ s ∈ Segment.ofSource Language.go (Text.lines (unifyEndings
    "// Intro text here\n//  - one two three\n//\n// # Head\n//\tx := 1\nx\n/* a\nb */\n".toList)),
      ∀ x ∈ s.texts, SingleSpaced x := by decide +kernel
  exact ⟨hSpaced, (rewrap_rewrap_go_eq_iff _ _ hSpaced).mpr (by decide +kernel)⟩

/-- A blank line is written between two lists. The second pass reads it as a blank line inside one
list, sets the numbered items apart and makes the bullet text of the last of them. -/
theorem rewrap_rewrap_go_ne :
    (∀ s ∈ Segment.ofSource Language.go
        (Text.lines (unifyEndings "//   1. a\n//   2. b\n//\n// - c\n".toList)),
      ∀ x ∈ s.texts, SingleSpaced x) ∧
      rewrap { column := 80, tab := 4 } (some Language.go)
          (rewrap { column := 80, tab := 4 } (some Language.go)
            "//   1. a\n//   2. b\n//\n// - c\n".toList) ≠
        rewrap { column := 80, tab := 4 } (some Language.go)
          "//   1. a\n//   2. b\n//\n// - c\n".toList := by
  decide +kernel

end Source

end Reflow
