import Reflow.Proofs.Comment.Run
import Reflow.Proofs.Doc.Edges

/-!
Runs of plain comment text. A piece is written as its contents behind the margin, and once it is
written no part of it is changed by writing that part again; so no part of a rewrapped run is
changed that is read as a run of its own.
-/

namespace Reflow

/-- A text that can be seen has a paragraph. The converse holds too, and is not needed. -/
theorem paragraphs_ne_nil {t : Text} (h : Text.allBlank t = false) : paragraphs t ≠ [] := by
  intro hNone
  have hVisible : Blind isBlank (List.filter (!isBlank ·)) := blind_filter (by simp)
  have hNil : t.filter (!isBlank ·) = [] := by
    have hLines := hVisible.paragraphs_lines (fun _ => isBlank_of_isGap) t
    rw [List.flatMap_congr fun l _ => BlankBlind.trim hVisible l, BlankBlind.lines hVisible,
      hNone] at hLines
    exact hLines.symm
  have hBlank : Text.allBlank t = true := by
    rw [Text.allBlank_iff]
    simpa using hNil
  rw [h] at hBlank
  cases hBlank

/-- Blank edges around lines that no pass changes. The edges are kept apart, as their lines would
not survive wrapping. -/
def Steady (L : Layout) (margin : Text) (ls : List Text) : Prop :=
  ∃ a ms b, ls = List.replicate a [] ++ ms ++ List.replicate b [] ∧ Settled L margin ms

/-- Any stretch of steady lines is steady, also one that takes in part of an edge. -/
theorem Steady.of_isInfix {L : Layout} {margin : Text} {ls ms : List Text} (h : Steady L margin ls)
    (hInfix : ms <:+: ls) : Steady L margin ms := by
  obtain ⟨a, settled, b, rfl, hSettled⟩ := h
  obtain ⟨front, back, hSplit⟩ := hInfix
  have hPart : ms = ((List.replicate a [] ++ settled ++ List.replicate b []).drop front.length).take
      ms.length := by
    rw [← hSplit, List.append_assoc, List.drop_left, List.take_left]
  rw [hPart]
  simp only [List.drop_append, List.take_append, List.drop_replicate, List.take_replicate]
  exact ⟨_, _, _, rfl,
    hSettled.of_isInfix ((List.take_prefix _ _).isInfix.trans (List.drop_suffix _ _).isInfix)⟩

/-- A line among steady ones is empty or written, trimmed and without a line feed. Behind the margin
it is read back in either case. -/
theorem Steady.line {L : Layout} {margin : Text} {ls : List Text} (h : Steady L margin ls)
    {l : Text}
    (hl : l ∈ ls) : l = [] ∨ Packing.Written L (L.room margin) l ∧ Text.trim l = l ∧ '\n' ∉ l := by
  obtain ⟨a, ms, b, rfl, hSettled⟩ := h
  rcases List.mem_append.mp hl with hl | hl
  · rcases List.mem_append.mp hl with hl | hl
    · exact Or.inl (List.eq_of_mem_replicate hl)
    · exact hSettled.line l hl
  · exact Or.inl (List.eq_of_mem_replicate hl)

theorem Steady.isGap_head {L : Layout} {margin : Text} {ls : List Text} (h : Steady L margin ls)
    {l : Text} (hl : l ∈ ls) : ∀ c, l.head? = some c → isGap c = false := by
  intro c hc
  rcases h.line hl with rfl | ⟨hWritten, -⟩
  · cases hc
  · exact hWritten.bounded.head hc

theorem Steady.eq_nil_of_allBlank {L : Layout} {margin : Text} {ls : List Text}
    (h : Steady L margin ls) {l : Text} (hl : l ∈ ls) (hBlank : Text.allBlank l = true) :
    l = [] := by
  rcases h.line hl with hNil | ⟨-, hTrim, -⟩
  · exact hNil
  · rw [← hTrim, Text.trim_eq_nil_iff.mpr hBlank]

theorem eq_replicate_of_allBlank {L : Layout} {margin : Text} {ls a : List Text}
    (h : Steady L margin ls) (hSub : ∀ l ∈ a, l ∈ ls) (ha : ∀ l ∈ a, Text.allBlank l = true) :
    a = List.replicate a.length [] :=
  List.eq_replicate_iff.mpr ⟨rfl, fun l hl => h.eq_nil_of_allBlank (hSub l hl) (ha l hl)⟩

/-- Lines with text at both ends that are steady are settled, as there is no room for blank
edges. -/
theorem Steady.settled {L : Layout} {margin : Text} {ls : List Text} (h : Steady L margin ls)
    (hTrimmed : Doc.Trimmed ls) : Settled L margin ls := by
  obtain ⟨a, ms, b, rfl, hSettled⟩ := h
  have hNil : Text.allBlank [] = true := rfl
  have ha : a = 0 := by
    cases a with
    | zero => rfl
    | succ a =>
        have hHead := hTrimmed.1 [] (by rw [List.replicate_succ]; rfl)
        rw [hNil] at hHead
        cases hHead
  have hb : b = 0 := by
    cases b with
    | zero => rfl
    | succ b =>
        have hLast := hTrimmed.2 [] (by rw [List.replicate_succ']; simp)
        rw [hNil] at hLast
        cases hLast
  simpa [ha, hb] using hSettled

namespace LineComment

/-- The contents of a piece after it is rewrapped: as many empty lines at either end as there were
blank ones, and the text between them wrapped. -/
def plainContents (L : Layout) (margin : Text) (contents : List Text) : List Text :=
  List.replicate (Doc.blankEdges contents).1 [] ++
    (if (Doc.interior contents).isEmpty then []
      else wrapped L margin (Text.unlines (Doc.interior contents))) ++
    List.replicate (Doc.blankEdges contents).2 []

/-- A piece is written as its contents behind the margin. The marker must not be blank, or an empty
line would lose its indentation as well. -/
theorem renderPlain_eq_map (L : Layout) (indent : Text) {marker : Text}
    (hMarker : Text.dropEndSpaces marker ≠ []) (contents : List Text) :
    renderPlain L indent marker contents =
      (plainContents L (indent ++ marker) contents).map (mark (indent ++ marker)) := by
  have hBare : mark (indent ++ marker) [] = indent ++ Text.dropEndSpaces marker :=
    Text.dropEndSpaces_append hMarker
  simp only [renderPlain, plainContents, List.map_append, List.map_replicate, hBare]
  split
  · rfl
  next hBody =>
    have hVisible : Text.allBlank (Text.unlines (Doc.interior contents)) = false := by
      rcases Doc.edges_cases contents with hAll | ⟨a, m, b, ha, hb, hm, hNe, rfl⟩
      · simp [Doc.interior_of_allBlank hAll] at hBody
      · rw [Doc.interior_append ha hb hm hNe]
        obtain ⟨l, rest, rfl⟩ := List.exists_cons_of_ne_nil hNe
        exact allBlank_unlines_eq_false List.mem_cons_self (hm.1 l rfl)
    rw [wrap_eq_map L _ (paragraphs_ne_nil hVisible)]

/-- A rewrapped piece of single-spaced lines is steady. This is the only place where the spacing of
plain comments is needed. -/
theorem steady_plainContents (L : Layout) (margin : Text) {contents : List Text}
    (hSpaced : ∀ l ∈ contents, SingleSpaced l) (hFeed : ∀ l ∈ contents, '\n' ∉ l) :
    Steady L margin (plainContents L margin contents) := by
  refine ⟨_, _, _, rfl, ?_⟩
  split
  · exact ⟨nofun, .nil, .nil⟩
  next hBody =>
    have hSub : ∀ l ∈ Doc.interior contents, l ∈ contents := fun l hl =>
      List.mem_of_mem_take (List.mem_of_mem_drop hl)
    refine settled_wrapped L margin fun l hl => ?_
    rw [Text.lines_unlines (fun l hl => hFeed l (hSub l hl)) (by simpa using hBody)] at hl
    exact hSpaced l (hSub l hl)

/-- A steady piece is not changed, neither its edges nor the lines between them. -/
theorem plainContents_eq_self {L : Layout} {margin : Text} {ls : List Text}
    (h : Steady L margin ls) :
    plainContents L margin ls = ls := by
  rcases Doc.edges_cases ls with hAll | ⟨a, m, b, ha, hb, hm, hNe, rfl⟩
  · have hEq := eq_replicate_of_allBlank h (fun _ => id) hAll
    rw [plainContents, Doc.blankEdges_of_allBlank hAll, Doc.interior_of_allBlank hAll]
    simpa using hEq.symm
  · have hSettled : Settled L margin m := (h.of_isInfix ⟨a, b, rfl⟩).settled hm
    have hBlank : Text.allBlank [] = true := rfl
    have hWrapped := hSettled.wrapped_eq hNe
      (fun hHead => by simpa [hBlank] using hm.1 [] hHead)
      (fun hLast => by simpa [hBlank] using hm.2 [] hLast)
    rw [plainContents, Doc.blankEdges_append ha hb hm hNe, Doc.interior_append ha hb hm hNe,
      if_neg (by simpa using hNe), hWrapped,
      ← eq_replicate_of_allBlank h (fun l hl => by simp [hl]) ha,
      ← eq_replicate_of_allBlank h (fun l hl => by simp [hl]) hb]

section Marks

variable {lang : Language} {token : Text} (hLang : lang.OneToken token) (indent : Text)
include hLang

theorem mark_nil_token {marker : Text} (hMarker : Text.dropEndSpaces marker = token) :
    mark (indent ++ marker) [] = indent ++ (token ++ []) := by
  rw [List.append_nil, ← hMarker]
  refine Text.dropEndSpaces_append ?_
  rw [hMarker]
  exact hLang.word.ne_nil

/-- A marked line is a comment line, and what was marked is its content. Whether it has a space
behind the token shows the marker of the run, except on an empty line. -/
theorem exists_mark_eq {marker : Text} (hMarker : marker = token ∨ marker = token ++ [' '])
    {l : Text} (hl : ∀ c, l.head? = some c → isGap c = false) :
    ∃ r, mark (indent ++ marker) l = indent ++ (token ++ r) ∧
      content indent token (mark (indent ++ marker) l) = l ∧
      (l ≠ [] → Segment.spacedMarker token r = marker) ∧
      (marker = token → Segment.spacedMarker token r = token) := by
  have hToken := Text.dropEndSpaces_eq_of_spaced hLang.word.dropEndSpaces hMarker
  cases l with
  | nil =>
      refine ⟨[], mark_nil_token hLang indent hToken, ?_, fun h => absurd rfl h, fun _ => rfl⟩
      rw [mark_nil_token hLang indent hToken, content_append]
      rfl
  | cons c l =>
      have hc : c ≠ ' ' := by
        rintro rfl
        cases hl ' ' rfl
      have hNone : Text.dropPrefix? [' '] (c :: l) = none := if_neg fun h => hc h.symm
      rcases hMarker with rfl | rfl
      · have hMark : mark (indent ++ marker) (c :: l) = indent ++ (marker ++ (c :: l)) :=
          List.append_assoc _ _ _
        have hSpaced : Segment.spacedMarker marker (c :: l) = marker := by
          rw [Segment.spacedMarker, Text.startsWith, hNone]
          rfl
        refine ⟨c :: l, hMark, ?_, fun _ => hSpaced, fun _ => hSpaced⟩
        rw [hMark, content_append, hNone]
        rfl
      · have hMark : mark (indent ++ (token ++ [' '])) (c :: l) =
            indent ++ (token ++ (' ' :: c :: l)) := by
          simp [mark]
        refine ⟨' ' :: c :: l, hMark, ?_, fun _ => rfl, fun h => ?_⟩
        · rw [hMark, content_append]
          rfl
        · have hLength := congrArg List.length h
          simp at hLength

/-- The contents of marked lines are what was marked, so writing a run and reading it back loses
nothing. -/
theorem map_content_map_mark {marker : Text} (hMarker : marker = token ∨ marker = token ++ [' '])
    {ls : List Text} (hls : ∀ l ∈ ls, ∀ c, l.head? = some c → isGap c = false) :
    (ls.map (mark (indent ++ marker))).map (content indent token) = ls := by
  rw [List.map_map]
  refine (List.map_congr_left fun l hl => ?_).trans (List.map_id ls)
  obtain ⟨-, -, hContent, -⟩ := exists_mark_eq hLang indent hMarker (hls l hl)
  exact hContent

/-- Empty lines of a run are bare tokens, whether or not the run has a space behind its token. -/
theorem map_mark_plainContents_of_blank (L : Layout) {marker own : Text}
    (hMarker : Text.dropEndSpaces marker = token) (hOwn : Text.dropEndSpaces own = token)
    {ls : List Text} (hBlank : ∀ l ∈ ls, l = []) :
    (plainContents L (indent ++ own) ls).map (mark (indent ++ own)) =
      ls.map (mark (indent ++ marker)) := by
  have hReplicate : ls = List.replicate ls.length [] := List.eq_replicate_iff.mpr ⟨rfl, hBlank⟩
  have hAll : ∀ l ∈ ls, Text.allBlank l = true := fun l hl => by rw [hBlank l hl]; rfl
  have hBare := mark_nil_token hLang indent hMarker
  have hOwnBare := mark_nil_token hLang indent hOwn
  rw [plainContents, Doc.blankEdges_of_allBlank hAll, Doc.interior_of_allBlank hAll, hReplicate]
  simp [hBare, hOwnBare]

end Marks

/-- A part of marked lines is a part of the lines, marked. The part of a rewrapped run that is read
as a run is traced to contents this way. -/
theorem exists_of_isInfix_map {α β : Type} {f : α → β} {xs : List α} {ys : List β}
    (h : ys <:+: xs.map f) : ∃ zs, zs <:+: xs ∧ ys = zs.map f := by
  obtain ⟨front, back, hSplit⟩ := h
  obtain ⟨as, bs, rfl, hFront, -⟩ := List.map_eq_append_iff.mp hSplit.symm
  obtain ⟨cs, zs, rfl, -, hys⟩ := List.map_eq_append_iff.mp hFront
  exact ⟨zs, ⟨cs, bs, rfl⟩, hys.symm⟩

section Stability

open Segment

variable {L : Layout} {lang : Language} {token : Text} (hLang : lang.OneToken token)
  (hPlain : lang.docMarker = none) {indent : Text} {lines : List Text}
  (hRun : ∀ l ∈ lines, (marker? lang indent token l).isSome)
  (hSpaced : ∀ l ∈ lines, SingleSpaced l) (hFeed : ∀ l ∈ lines, '\n' ∉ l)
include hLang hPlain hRun hSpaced hFeed

/-- A piece of a rewrapped run is steady contents behind the margin. They do not depend on the
token, but on the margin. -/
theorem exists_steady_pieceLines {ls : List Text} (hls : ∀ l ∈ ls, l ∈ lines) {marker : Text}
    (hMarker : Text.dropEndSpaces marker = token) :
    ∃ ms, Steady L (indent ++ marker) ms ∧
      pieceLines L lang indent marker (ls.map (content indent token)) =
        ms.map (mark (indent ++ marker)) := by
  have hContent : ∀ m ∈ ls.map (content indent token), ∃ l ∈ lines, m <:+: l := by
    intro m hm
    obtain ⟨l, hl, rfl⟩ := List.mem_map.mp hm
    obtain ⟨marker, hm⟩ := Option.isSome_iff_exists.mp (hRun l (hls l hl))
    obtain ⟨-, r, rfl, -⟩ := eq_of_marker? hLang hm
    refine ⟨_, hls _ hl, ?_⟩
    rw [content_append, ← List.append_assoc]
    refine List.IsSuffix.isInfix (List.IsSuffix.trans ?_ (List.suffix_append _ _))
    cases hSpace : Text.dropPrefix? [' '] r with
    | none => exact List.suffix_rfl
    | some rest =>
        rw [Text.dropPrefix?_eq_some hSpace]
        exact List.suffix_append _ _
  unfold pieceLines
  split
  · exact ⟨[], ⟨0, [], 0, rfl, ⟨nofun, .nil, .nil⟩⟩, rfl⟩
  · refine ⟨plainContents L (indent ++ marker) (ls.map (content indent token)),
      steady_plainContents L _ (fun m hm => ?_) (fun m hm => ?_), ?_⟩
    · obtain ⟨l, hl, hInfix⟩ := hContent m hm
      exact (hSpaced l hl).of_isInfix hInfix
    · obtain ⟨l, hl, hInfix⟩ := hContent m hm
      exact fun hMem => hFeed l hl (hInfix.subset hMem)
    · have hDoc : lang.hasDocComments marker = false := by
        simp [Language.hasDocComments, hPlain]
      rw [renderPiece, if_neg (by simp [hDoc])]
      refine renderPlain_eq_map L indent ?_ _
      rw [hMarker]
      exact hLang.word.ne_nil

/-- A line of a rewrapped run stands behind the indentation and token, and with a space behind the
token only if the run is marked so. The same holds of its decorations, which are lines of the run as
it was. -/
theorem exists_eq_of_mem_render {marker : Text}
    (hMarker : marker = markerOf lang indent token lines) {l : Text}
    (hl : l ∈ render L lang indent marker lines) :
    ∃ r, l = indent ++ (token ++ r) ∧ (marker = token → spacedMarker token r = token) := by
  have hBase : Text.dropEndSpaces marker = token :=
    hMarker ▸ dropEndSpaces_markerOf hLang indent lines
  rcases mem_render_cases L lang indent marker hl with hl | ⟨ls, hSub, -, hl⟩
  · obtain ⟨m, hm⟩ := Option.isSome_iff_exists.mp (hRun l hl)
    obtain ⟨-, r, rfl, rfl⟩ := eq_of_marker? hLang hm
    refine ⟨r, rfl, fun hToken => ?_⟩
    rcases spacedMarker_cases token r with h | h
    · exact h
    · rw [hMarker, markerOf_eq hLang, if_pos ⟨_, hl, hm.trans (by rw [h])⟩] at hToken
      have hLength := congrArg List.length hToken
      simp at hLength
  · rw [hBase] at hl
    obtain ⟨ms, hSteady, hPiece⟩ :=
      exists_steady_pieceLines (L := L) hLang hPlain hRun hSpaced hFeed hSub hBase
    rw [hPiece] at hl
    obtain ⟨c, hc, rfl⟩ := List.mem_map.mp hl
    obtain ⟨r, hr, -, -, hSpace⟩ := exists_mark_eq hLang indent
      (hMarker ▸ markerOf_cases hLang indent lines) (hSteady.isGap_head hc)
    exact ⟨r, hr, hSpace⟩

/-- Part of a rewrapped run, between two decorations, is not changed by rewrapping it, with or
without a space behind its token as its own lines have it. If the marker has the space, a part of
empty lines only is read without it, which is why two markers occur. -/
theorem pieceLines_eq_self_of_isInfix {marker : Text}
    (hMarker : marker = markerOf lang indent token lines) {zs : List Text}
    (hInfix : zs <:+: render L lang indent marker lines)
    (hPlainLines : ∀ l ∈ zs, decorated indent token l = false) {own : Text}
    (hOwn : own = token ∨ own = token ++ [' '])
    (hSpace : ∀ r, indent ++ (token ++ r) ∈ zs → spacedMarker token r = token ++ [' '] →
      own = token ++ [' '])
    (hNone : marker = token → own = token) :
    pieceLines L lang indent own (zs.map (content indent token)) = zs := by
  have hBase : Text.dropEndSpaces marker = token :=
    hMarker ▸ dropEndSpaces_markerOf hLang indent lines
  have hOwnBase := Text.dropEndSpaces_eq_of_spaced hLang.word.dropEndSpaces hOwn
  have hCases := hMarker ▸ markerOf_cases hLang indent lines
  obtain ⟨ls, hSub, hPart⟩ := exists_piece_of_isInfix L lang indent marker hInfix (by rwa [hBase])
  rw [hBase] at hPart
  obtain ⟨ms, hSteady, hEq⟩ :=
    exists_steady_pieceLines (L := L) hLang hPlain hRun hSpaced hFeed hSub hBase
  rw [hEq] at hPart
  obtain ⟨cs, hcs, rfl⟩ := exists_of_isInfix_map hPart
  have hSteady := hSteady.of_isInfix hcs
  have hHead := fun c (hc : c ∈ cs) => hSteady.isGap_head hc
  have hDoc : lang.hasDocComments own = false := by simp [Language.hasDocComments, hPlain]
  rw [map_content_map_mark hLang indent hCases hHead, pieceLines]
  split
  next hEmpty => rw [List.isEmpty_iff.mp hEmpty]; rfl
  rw [renderPiece, if_neg (by simp [hDoc]), renderPlain_eq_map L indent
    (by rw [hOwnBase]; exact hLang.word.ne_nil)]
  by_cases hSame : own = marker
  · rw [hSame, plainContents_eq_self hSteady]
  · -- The run has a space behind its token and this part has none, so it is all bare markers.
    refine map_mark_plainContents_of_blank hLang indent L hBase hOwnBase fun c hc => ?_
    by_contra hNe
    obtain ⟨r, hr, -, hFull, -⟩ := exists_mark_eq hLang indent hCases (hHead c hc)
    have hMem : indent ++ (token ++ r) ∈ cs.map (mark (indent ++ marker)) :=
      hr ▸ List.mem_map_of_mem hc
    rcases hCases with hToken | hToken
    · exact hSame ((hNone hToken).trans hToken.symm)
    · exact hSame ((hSpace r hMem ((hFull hNe).trans hToken)).trans hToken.symm)

/-- Part of a rewrapped run is not changed by rewrapping it as a run of its own, whatever directives
have cut it out of the run. -/
theorem render_eq_self_of_isInfix {marker : Text}
    (hMarker : marker = markerOf lang indent token lines) {ys : List Text}
    (hInfix : ys <:+: render L lang indent marker lines) {own : Text}
    (hOwn : own = token ∨ own = token ++ [' '])
    (hSpace : ∀ r, indent ++ (token ++ r) ∈ ys → spacedMarker token r = token ++ [' '] →
      own = token ++ [' '])
    (hNone : marker = token → own = token) : render L lang indent own ys = ys := by
  have hOwnBase := Text.dropEndSpaces_eq_of_spaced hLang.word.dropEndSpaces hOwn
  have hPiece := fun zs (hzs : zs <:+: ys) hPlainLines =>
    pieceLines_eq_self_of_isInfix hLang hPlain hRun hSpaced hFeed hMarker (hzs.trans hInfix)
      hPlainLines hOwn (fun r hr => hSpace r (hzs.subset hr)) hNone
  clear hInfix hSpace
  induction ys using division_induction (decorated indent token) with
  | plain ls hPlainLines =>
      rw [render_plain L lang indent own (by rwa [hOwnBase]), hOwnBase]
      exact hPiece ls List.infix_rfl hPlainLines
  | cut ls d rest hPlainLines hd ih =>
      have hRest := ih fun zs hzs => hPiece zs (hzs.trans ⟨ls ++ [d], [], by simp⟩)
      rw [render_cut L lang indent own (by rwa [hOwnBase]) (by rwa [hOwnBase]), hOwnBase, hRest,
        hPiece ls ⟨[], d :: rest, rfl⟩ hPlainLines]

end Stability

end LineComment

end Reflow
