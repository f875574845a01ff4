import Reflow.Proofs.Comment.Run
import Reflow.Proofs.Doc.Margin
import Reflow.Proofs.Doc.Recovery

/-!
Runs of structured line comments. Decorations divide such a run, some of them only once it has been
rewrapped; the second pass leaves it as it is exactly when each piece between two decorations is
legible.
-/

namespace Reflow

/-- The line comments of a language are structured. Text behind a space or tab is no directive. So a
line that printing makes, with a space or a tab behind its token, is always read back as a
comment. -/
structure Language.Structured (lang : Language) (token : Text) : Prop extends
    lang.OneToken token where
  doc : lang.docMarker = some token
  solid : ∀ d ∈ lang.directives, ∀ c, d.head? = some c → isGap c = false

/-- The pieces of a run, given by the contents of its lines, are legible. The pieces are those of
the run as it stands, so a decoration that was made by wrapping divides it as well. -/
def LegibleRun (contents : List Text) : Prop :=
  ∀ piece ∈ contents.splitOnP isDecoration, Doc.Legible piece

instance (contents : List Text) : Decidable (LegibleRun contents) :=
  inferInstanceAs (Decidable (∀ piece ∈ contents.splitOnP isDecoration, Doc.Legible piece))

theorem legibleRun_of_plain {contents : List Text} (h : ∀ l ∈ contents, isDecoration l = false) :
    LegibleRun contents ↔ Doc.Legible contents := by
  rw [LegibleRun, List.splitOnP_eq_singleton h, List.forall_mem_singleton]

/-- A decoration divides the question into two, one for each side of it. -/
theorem legibleRun_append_cons {d : Text} (hd : isDecoration d = true) (above below : List Text) :
    LegibleRun (above ++ d :: below) ↔ LegibleRun above ∧ LegibleRun below := by
  rw [LegibleRun, List.splitOnP_append_cons above below hd, List.forall_mem_append]
  exact Iff.rfl

namespace LineComment

open Segment

theorem content_commentLine (indent token l : Text) :
    content indent token (Doc.commentLine (indent ++ token) l) = l := by
  have hContent := content_append indent token
  cases l with
  | nil =>
      have hBare := hContent []
      rw [List.append_nil] at hBare
      exact hBare
  | cons c l =>
      rw [Doc.commentLine]
      split
      next hTab =>
        rw [List.append_assoc, hContent, hTab]
        rfl
      · rw [List.append_assoc, hContent]
        rfl

/-- What was printed behind the token is read back as the content of its line, be it a tab, one
space or nothing that stands there. -/
theorem map_content_commentLine (indent token : Text) (ls : List Text) :
    (ls.map (Doc.commentLine (indent ++ token))).map (content indent token) = ls := by
  rw [List.map_map]
  exact (List.map_congr_left fun l _ => content_commentLine indent token l).trans (List.map_id ls)

section Run

variable {L : Layout} {lang : Language} {token indent marker : Text} (hLang : lang.Structured token)
  (hMarker : Text.dropEndSpaces marker = token)
include hLang hMarker

/-- A piece of a structured run is written by the grammar of structured comments. For no lines at
all both sides are empty. -/
theorem pieceLines_eq_render (contents : List Text) :
    pieceLines L lang indent marker contents = Doc.render L (indent ++ token) contents := by
  have hDoc : lang.hasDocComments marker = true := by
    simp [Language.hasDocComments, hLang.doc, hMarker]
  cases contents with
  | nil => exact (Doc.render_of_allBlank L _ (List.forall_mem_nil _)).symm
  | cons l contents => rw [pieceLines, if_neg (by simp), renderPiece, if_pos hDoc, hMarker]

/-- A piece that was rewrapped may hold new decorations, such as a bullet and a dash. Each part
between two of them is laid out as the whole was. -/
theorem recovers_laid {ls : List Text} (h : Doc.Laid L (indent ++ token) ls) :
    Doc.Recovers (LegibleRun ls)
      (render L lang indent marker (ls.map (Doc.commentLine (indent ++ token))))
      (ls.map (Doc.commentLine (indent ++ token))) := by
  have hDecorated : ∀ l, decorated indent (Text.dropEndSpaces marker)
      (Doc.commentLine (indent ++ token) l) = isDecoration l := fun l => by
    rw [decorated, hMarker, content_commentLine]
  have hPiece : ∀ us, (∀ l ∈ us, isDecoration l = false) → Doc.Laid L (indent ++ token) us →
      Doc.Recovers (LegibleRun us)
        (render L lang indent marker (us.map (Doc.commentLine (indent ++ token))))
        (us.map (Doc.commentLine (indent ++ token))) := by
    intro us hPlain hLaid
    have hLines : ∀ l ∈ us.map (Doc.commentLine (indent ++ token)),
        decorated indent (Text.dropEndSpaces marker) l = false := by
      intro l hl
      obtain ⟨m, hm, rfl⟩ := List.mem_map.mp hl
      rw [hDecorated, hPlain m hm]
    rw [render_plain L lang indent marker hLines, hMarker, map_content_commentLine,
      pieceLines_eq_render hLang hMarker]
    exact (Doc.recovers_render hLaid).congr (legibleRun_of_plain hPlain).symm
  induction ls using division_induction isDecoration with
  | plain ls hPlain => exact hPiece ls hPlain h
  | cut us d vs hPlain hd ih =>
      obtain ⟨hAbove, hBelow⟩ := h.of_append_cons hd
      have hCut := (hDecorated d).trans hd
      rw [List.map_append, List.map_cons, render_append_cons L lang indent marker hCut]
      have hBoth := (hPiece us hPlain hAbove).append
        ((ih hBelow).append_left [Doc.commentLine (indent ++ token) d])
      exact hBoth.congr (legibleRun_append_cons hd us vs).symm

omit hMarker in
/-- A line with a gap right behind the token is no directive. A bare token is none either, as no
directive is empty. -/
theorem marker?_of_behind (hIndent : ∀ c ∈ indent, isGap c = true) {l : Text}
    (h : Doc.Behind (indent ++ token) l) : (marker? lang indent token l).isSome = true := by
  obtain ⟨r, rfl, hr⟩ := h
  have hNone : lang.directives.any (Text.startsWith r) = false := by
    rw [List.any_eq_false]
    intro d hd hStarts
    obtain ⟨c, start, rfl⟩ := List.exists_cons_of_ne_nil (hLang.directives d hd)
    obtain ⟨rest, rfl⟩ := Text.startsWith_iff.mp hStarts
    have hSolid := hLang.solid _ hd c rfl
    rw [hr c rfl] at hSolid
    cases hSolid
  rw [List.append_assoc, marker?_token hLang.toOneToken hIndent, hNone]
  rfl

/-- No line of a rewrapped run is a directive, so the second pass reads the run as a whole. In plain
comments this fails, as a word of the comment may complete a directive. -/
theorem marker?_of_mem_render (hIndent : ∀ c ∈ indent, isGap c = true) {lines : List Text}
    (hRun : ∀ l ∈ lines, (marker? lang indent token l).isSome = true) {l : Text}
    (hl : l ∈ render L lang indent marker lines) : (marker? lang indent token l).isSome = true := by
  rcases mem_render_cases L lang indent marker hl with hl | ⟨ls, -, -, hl⟩
  · exact hRun l hl
  · rw [pieceLines_eq_render hLang hMarker] at hl
    apply marker?_of_behind hLang hIndent
    apply Doc.behind_of_mem_render _ L hl
    have hToken := hLang.word.dropEndSpaces
    rw [Text.dropEndSpaces_append (by rw [hToken]; exact hLang.word.ne_nil), hToken]

variable {lines : List Text}
  (hLines : ∀ l ∈ lines, SingleSpaced (content indent token l) ∧ '\n' ∉ content indent token l)
include hLines

theorem exists_laid_pieceLines {ls : List Text} (hSub : ∀ l ∈ ls, l ∈ lines)
    (hPlain : ∀ l ∈ ls, decorated indent token l = false) :
    ∃ ms, Doc.Laid L (indent ++ token) ms ∧
      pieceLines L lang indent marker (ls.map (content indent token)) =
        ms.map (Doc.commentLine (indent ++ token)) := by
  rw [pieceLines_eq_render hLang hMarker]
  apply Doc.exists_laid_render
  intro c hc
  obtain ⟨l, hl, rfl⟩ := List.mem_map.mp hc
  exact ⟨(hLines l (hSub l hl)).1, (hLines l (hSub l hl)).2, hPlain l hl⟩

/-- **Rewrapping a run of structured comments again.** The rewrapped run is left as it is if its
pieces are legible, and parts from itself if not. The marker of the second pass may have a space or
not. -/
theorem recovers_run {other : Text} (hOther : Text.dropEndSpaces other = token) :
    Doc.Recovers (LegibleRun ((render L lang indent marker lines).map (content indent token)))
      (render L lang indent other (render L lang indent marker lines))
      (render L lang indent marker lines) := by
  induction lines using division_induction (decorated indent token) with
  | plain ls hPlain =>
      obtain ⟨ms, hLaid, hEq⟩ :=
        exists_laid_pieceLines (L := L) hLang hMarker hLines (fun _ => id) hPlain
      rw [render_plain L lang indent marker (by rwa [hMarker]), hMarker, hEq,
        map_content_commentLine]
      exact recovers_laid hLang hOther hLaid
  | cut ls d rest hPlain hd ih =>
      have hRest := ih fun l hl => hLines l (List.mem_append_right _ (List.mem_cons_of_mem d hl))
      obtain ⟨ms, hLaid, hEq⟩ := exists_laid_pieceLines (L := L) hLang hMarker hLines
        (fun l hl => List.mem_append_left _ hl) hPlain
      rw [render_cut L lang indent marker (by rwa [hMarker]) (by rwa [hMarker]), hMarker, hEq,
        render_append_cons L lang indent other (by rwa [hOther]), List.map_append, List.map_cons,
        map_content_commentLine]
      have hBoth := (recovers_laid hLang hOther hLaid).append (hRest.append_left [d])
      exact hBoth.congr (legibleRun_append_cons hd _ _).symm

end Run

end LineComment

end Reflow
