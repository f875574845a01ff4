import Reflow.Proofs.DocComments

/-!
The segments of a rewrapped source text. Whatever a comment says, what is written for it is read
back as one comment of the same kind, in the same place and with the same tokens: it neither joins
its neighbours nor falls apart, and the code between comments is not touched.
-/

namespace Reflow

namespace Segment

/-- Segments of one kind; line comments have the same token, with or without a space behind it. The
space may come by rewrapping, if one line of a run has it and another has not. -/
def SameKind : SegmentKind → SegmentKind → Prop
  | .code, .code => True
  | .lineComment marker, .lineComment other =>
    Text.dropEndSpaces marker = Text.dropEndSpaces other
  | .blockComment opening closing, .blockComment opening' closing' =>
    opening = opening' ∧ closing = closing'
  | _, _ => False

/-- Segments of the same kind, tokens and indentation; code has the same lines. The lines of a
comment may be different ones, and more or fewer. -/
structure Alike (s u : Segment) : Prop where
  kind : SameKind s.kind u.kind
  indent : s.indent = u.indent
  code : s.kind = .code → s.lines = u.lines

theorem sameKind_refl (kind : SegmentKind) : SameKind kind kind := by
  cases kind with
  | code => trivial
  | lineComment marker => exact rfl
  | blockComment opening closing => exact ⟨rfl, rfl⟩

theorem alike_refl (s : Segment) : Alike s s := ⟨sameKind_refl s.kind, rfl, fun _ => rfl⟩

/-- Code is alike to code only, so what is apart stays apart. -/
theorem sameKind_code_iff {kind other : SegmentKind} (h : SameKind kind other) :
    kind = .code ↔ other = .code := by
  cases kind <;> cases other <;> simp_all [SameKind]

/-- A line of code in front of alike segments keeps them alike, whether it joins code on both sides
or on neither. -/
theorem forall₂_alike_attach (line : Text) {ss us : List Segment}
    (h : List.Forall₂ Alike ss us) :
    List.Forall₂ Alike (attach ⟨.code, [], [line]⟩ ss) (attach ⟨.code, [], [line]⟩ us) := by
  cases h with
  | nil => exact .cons (alike_refl _) .nil
  | @cons s u ss us hFirst hRest =>
      have hCode := sameKind_code_iff hFirst.kind
      by_cases hs : s.kind = .code
      · have hLines := hFirst.code hs
        simp only [attach, hs, hCode.mp hs, hLines]
        exact .cons (alike_refl _) hRest
      · have hu : u.kind ≠ .code := fun hu => hs (hCode.mpr hu)
        simp only [attach, hs, hu]
        exact .cons (alike_refl _) (.cons hFirst hRest)

end Segment

namespace LineComment

open Segment

/-- Every line that is written for a run is read as a comment of it, in a language without
directives or with structured comments. Elsewhere a word of the comment may complete a directive,
and then its line is code. -/
theorem marker?_isSome_of_mem_render (L : Layout) {lang : Language} {token indent marker : Text}
    (hToken : lang.OneToken token) (hKind : lang.directives = [] ∨ lang.Structured token)
    (hMarker : Text.dropEndSpaces marker = token) (hIndent : ∀ c ∈ indent, isGap c = true)
    {lines : List Text} (hRun : ∀ l ∈ lines, (marker? lang indent token l).isSome = true) {l : Text}
    (hl : l ∈ render L lang indent marker lines) : (marker? lang indent token l).isSome = true := by
  rcases hKind with hNone | hLang
  · obtain ⟨r, rfl⟩ := isPrefix_of_mem_render_run L hToken hMarker hRun hl
    rw [List.append_assoc, marker?_token hToken hIndent, hNone]
    rfl
  · exact marker?_of_mem_render hLang hMarker hIndent hRun hl

end LineComment

namespace Source

open Segment

/-- The segments of the rendered lines are those of the lines, one by one. The induction is along
the segments of the lines, and each rendered segment is read off the front of what is written. -/
theorem forall₂_alike_renderLines (L : Layout) {lang : Language} {token : Text}
    (hToken : lang.OneToken token) (hBlocks : lang.StarBlocks)
    (hKind : lang.directives = [] ∨ lang.Structured token) {lines : List Text}
    (hFeed : ∀ l ∈ lines, '\n' ∉ l) :
    List.Forall₂ Alike (ofSource lang lines) (ofSource lang (renderLines L lang lines)) := by
  induction lines using lines_induction lang with
  | nil =>
      rw [renderLines_nil, ofSource]
      exact .nil
  | block line rest o closing more hBlock hMore ih =>
      have hTaken : ∀ l ∈ line :: rest.take more, '\n' ∉ l := fun l hl =>
        hFeed l (List.cons_subset_cons line (List.take_subset more rest) hl)
      have hRest := ih fun l hl => hFeed l (List.mem_cons_of_mem line (List.mem_of_mem_drop hl))
      obtain ⟨first, taken, p, hForm, hAgain, hIndent, hOpening, hFound⟩ :=
        exists_block_render L hBlocks hBlock hMore hTaken
      rw [ofSource_block hBlock hMore, renderLines_block hBlock hMore, hForm, List.cons_append,
        ofSource_block hAgain (hFound _), List.drop_left]
      exact .cons ⟨⟨hOpening.symm, rfl⟩, hIndent.symm, fun hCode => by cases hCode⟩ hRest
  | unclosed line rest o closing hBlock hMore =>
      rw [renderLines_unclosed hBlock hMore, ofSource_unclosed hBlock hMore]
      exact .cons (alike_refl _) .nil
  | run line rest indent marker hBlock hMatch ih =>
      obtain ⟨hMarker, hBase⟩ := marker?_isSome_of_matchLine? hToken hMatch
      have hOwn := (dropEndSpaces_runMarker lang indent marker rest).trans hBase
      have hTail : ∀ l ∈ restAfter lang indent marker rest, '\n' ∉ l := fun l hl =>
        hFeed l (List.mem_cons_of_mem line ((List.dropWhile_suffix _).subset hl))
      have hOut : ∀ l ∈ LineComment.render L lang indent (runMarker lang indent marker rest)
          (line :: runAfter lang indent marker rest),
          (marker? lang indent token l).isSome = true := by
        intro l
        apply LineComment.marker?_isSome_of_mem_render L hToken hKind hOwn
          (eq_of_marker? hToken hMarker).1
        exact fun m => hToken.marker?_isSome_of_mem_run hMatch
      have hAfter : ∀ l, (renderLines L lang (restAfter lang indent marker rest)).head? = some l →
          marker? lang indent token l = none := fun l =>
        marker?_head_renderLines hToken hBlocks fun m => hToken.marker?_head_restAfter hMatch
      rw [ofSource_run hBlock hMatch, renderLines_run hBlock hMatch]
      obtain ⟨first, taken, hForm⟩ := List.exists_cons_of_ne_nil
        (LineComment.render_ne_nil L lang indent (runMarker lang indent marker rest)
          (List.cons_ne_nil line (runAfter lang indent marker rest)))
      rw [hForm] at hOut ⊢
      obtain ⟨again, hNone, hAgain, hToken', hRun, hRest⟩ := exists_run_append hToken hOut hAfter
      rw [List.cons_append, ofSource_run hNone hAgain, hRun, hRest]
      refine .cons ⟨?_, rfl, fun hCode => by cases hCode⟩ (ih hTail)
      exact hOwn.trans ((dropEndSpaces_runMarker lang indent again _).trans hToken').symm
  | code line rest hBlock hMatch ih =>
      rw [ofSource_code hBlock hMatch, renderLines_code hBlock hMatch, ofSource_code hBlock hMatch]
      exact forall₂_alike_attach line (ih fun l hl => hFeed l (List.mem_cons_of_mem line hl))

/-- Rewrapping a source text keeps its structure, for each of eight known languages, on every page
and whatever the text: segment by segment the output has the same kind, indentation and tokens, and
the same lines of code. Languages with plain comments and directives are not among the eight, since
wrapping can make a directive there. -/
theorem forall₂_alike_classify_render (locate : Text → List LineRange) (L : Layout)
    {lang : Language} (hMem : lang ∈ Language.all)
    (hName : lang.name ∈ ["go", "c", "cpp", "java", "javascript", "typescript", "toml", "yaml"].map
      String.toList) (t : Text) :
    List.Forall₂ Alike (classify (some lang) (Text.lines t))
      (classify (some lang) (Text.lines (render locate L (some lang) t))) := by
  have hAll : ∀ lang ∈ Language.all,
      lang.name ∈ ["go", "c", "cpp", "java", "javascript", "typescript", "toml", "yaml"].map
        String.toList →
      lang.isDocument = false ∧ lang ≠ Language.rust ∧
        (lang.directives = [] ∨ lang = Language.go) := by decide
  obtain ⟨hSource, hRust, hPlain⟩ := hAll lang hMem hName
  obtain ⟨⟨token, hToken⟩, hBlocks, -⟩ := Language.conventions_of_mem_all hMem hSource hRust
  have hKind : lang.directives = [] ∨ lang.Structured token := by
    apply hPlain.imp_right
    rintro rfl
    have hSame := hToken.markers.symm.trans Language.structured_go.markers
    rw [List.singleton_inj.mp hSame]
    exact Language.structured_go
  have hFeed : ∀ l ∈ Text.lines t, '\n' ∉ l := fun l => Text.not_mem_of_mem_lines
  have hOut : ∀ l ∈ renderLines L lang (Text.lines t), Made (· ≠ '\n') l := by
    have hAdded : ∀ c, isAdded c = true → c ≠ '\n' := by
      rintro c hc rfl
      cases hc
    refine characters_renderLines hToken hBlocks hAdded (by decide) ?_
    exact fun l hl c hc hEq => hFeed l hl (hEq ▸ hc)
  have hLines : Text.lines (Text.unlines (renderLines L lang (Text.lines t))) =
      renderLines L lang (Text.lines t) := by
    apply Text.lines_unlines
    · exact fun l hl hMem => hOut l hl _ hMem rfl
    · exact renderLines_ne_nil hBlocks (Text.lines_ne_nil t)
  simp only [render, hSource, Bool.false_eq_true, if_false, hLines]
  exact forall₂_alike_renderLines L hToken hBlocks hKind hFeed

/-- On a page of four columns every word of these comments gets a line of its own. -/
theorem forall₂_alike_classify_narrow :
    Language.go ∈ Language.all ∧ List.Forall₂ Alike
      (classify (some Language.go)
      (Text.lines "x\n//a b c\n\t// d e\n/* f g\nh*/\n/* i */ y\n".toList))
      (classify (some Language.go) (Text.lines (render Markdown.paragraphRanges
        { column := 4, tab := 4 } (some Language.go)
        "x\n//a b c\n\t// d e\n/* f g\nh*/\n/* i */ y\n".toList))) :=
  ⟨by decide, forall₂_alike_classify_render _ _ (by decide) (by decide) _⟩

end Source

end Reflow
