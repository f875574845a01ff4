import Reflow.Language.Table
import Reflow.Proofs.Comment.Plain

/-!
When a rewrapped run of plain line comments is still one. A line is read as a comment with the run's
token unless the text right behind the token is a directive or completes a longer marker. Wrapping
puts words of the comment right behind the marker, so it can make such lines; and it makes them from
nothing else than a word that starts like that.
-/

namespace Reflow

namespace Language

/-- A longer line marker is tried before the marker that it starts with, and no directive is empty.
No token is a front part of one that comes after it, so the first that fits is the longest. -/
structure LongerFirst (lang : Language) : Prop where
  words : ∀ token ∈ lang.lineMarkers, IsWord token
  order : lang.lineMarkers.Pairwise fun a b => ¬a <+: b
  directives : ∀ d ∈ lang.directives, d ≠ []

/-- The texts that, right behind `token`, make a line something else than a comment with that token:
the directives, and the rest of each longer marker. Tokens that open block comments are not among
them, as they are not looked for here. -/
def breakers (lang : Language) (token : Text) : List Text :=
  lang.directives ++ (lang.lineMarkers.filterMap (Text.dropPrefix? token)).filter (!List.isEmpty ·)

/-- The texts that do so right behind `marker`, which may have a space behind its token. With that
space, a breaker counts only if it starts with a space itself. -/
def lures (lang : Language) (marker : Text) : List Text :=
  (lang.breakers (Text.dropEndSpaces marker)).filterMap
    (Text.dropPrefix? (marker.drop (Text.dropEndSpaces marker).length))

variable {lang : Language} {token : Text}

theorem mem_breakers {x : Text} :
    x ∈ lang.breakers token ↔
      x ∈ lang.directives ∨ token ++ x ∈ lang.lineMarkers ∧ x ≠ [] := by
  rw [breakers, List.mem_append, List.mem_filter, List.mem_filterMap]
  apply or_congr_right
  apply and_congr
  · constructor
    · rintro ⟨m, hm, hx⟩
      rwa [← Text.dropPrefix?_eq_some hx]
    · intro hx
      exact ⟨_, hx, Text.dropPrefix?_append token x⟩
  · simp

theorem LongerFirst.ne_nil_of_mem_breakers (hLang : lang.LongerFirst) {x : Text}
    (hx : x ∈ lang.breakers token) : x ≠ [] := by
  rcases mem_breakers.mp hx with hDirective | ⟨-, hNe⟩
  · exact hLang.directives x hDirective
  · exact hNe

/-- The marker that is found at the front of a text that starts with `token` is `token` or a longer
one. It is `token` itself exactly if the text goes on with none of the longer ones. -/
theorem LongerFirst.find?_cases (hLang : lang.LongerFirst) (ht : token ∈ lang.lineMarkers)
    (r : Text) :
    ∃ e, lang.lineMarkers.find? (Text.startsWith (token ++ r)) = some (token ++ e) ∧
      token ++ e ∈ lang.lineMarkers ∧ e <+: r ∧
      (e = [] → ∀ x, token ++ x ∈ lang.lineMarkers → x ≠ [] → ¬x <+: r) := by
  have hStarts : Text.startsWith (token ++ r) token = true :=
    Text.startsWith_iff.mpr (List.prefix_append token r)
  have hSome : (lang.lineMarkers.find? (Text.startsWith (token ++ r))).isSome = true :=
    List.find?_isSome.mpr ⟨token, ht, hStarts⟩
  obtain ⟨m, hm⟩ := Option.isSome_iff_exists.mp hSome
  obtain ⟨hMatch, before, after, hSplit, hBefore⟩ := List.find?_eq_some_iff_append.mp hm
  have hOrder := hLang.order
  rw [hSplit, List.pairwise_append, List.pairwise_cons] at hOrder
  have hLate : ∀ n ∈ lang.lineMarkers, n <+: token ++ r → n = m ∨ n ∈ after := by
    intro n hn hPrefix
    rw [hSplit, List.mem_append, List.mem_cons] at hn
    rcases hn with hn | hn
    · have hNot := hBefore n hn
      rw [Text.startsWith_iff.mpr hPrefix] at hNot
      cases hNot
    · exact hn
  have hPrefix : m <+: token ++ r := Text.startsWith_iff.mp hMatch
  have hExtends : token <+: m := by
    rcases hLate token ht (List.prefix_append token r) with rfl | hAfter
    · exact List.prefix_rfl
    · rcases List.prefix_or_prefix_of_prefix hPrefix
        (List.prefix_append token r) with hShort | hLong
      · exact absurd hShort (hOrder.2.1.1 token hAfter)
      · exact hLong
  obtain ⟨e, rfl⟩ := hExtends
  refine ⟨e, hm, List.mem_of_find?_eq_some hm, (List.prefix_append_right_inj token).mp hPrefix, ?_⟩
  rintro rfl x hx hNe hxr
  rw [List.append_nil] at hLate hOrder
  rcases hLate _ hx ((List.prefix_append_right_inj token).mpr hxr) with hSame | hAfter
  · exact hNe (List.append_right_eq_self.mp hSame)
  · exact hOrder.2.1.1 _ hAfter (List.prefix_append token x)

end Language

namespace Segment

variable {lang : Language} {token indent : Text}

/-- A line behind the indentation and the token is a comment with that token exactly when no breaker
stands right behind the token. Nothing else behind the token matters, so the question is one about
the first word. -/
theorem marker?_isSome_iff_breakers (hLang : lang.LongerFirst) (ht : token ∈ lang.lineMarkers)
    (hIndent : ∀ c ∈ indent, isGap c = true) (r : Text) :
    (marker? lang indent token (indent ++ (token ++ r))).isSome = true ↔
      ∀ x ∈ lang.breakers token, ¬x <+: r := by
  obtain ⟨e, hFind, hMarker, ⟨r', rfl⟩, hOnly⟩ := hLang.find?_cases ht r
  have hIff : (marker? lang indent token (indent ++ (token ++ (e ++ r')))).isSome = true ↔
      e = [] ∧ ∀ d ∈ lang.directives, ¬d <+: r' := by
    rw [← List.append_assoc] at hFind
    have hNone : lang.directives.any (Text.startsWith r') = false ↔
        ∀ d ∈ lang.directives, ¬d <+: r' := by
      simp only [List.any_eq_false, Text.startsWith_iff]
    rw [← List.append_assoc token, marker?_of_find? hIndent (hLang.words _ hMarker) hFind, ← hNone]
    cases lang.directives.any (Text.startsWith r') <;> simp
  rw [hIff]
  constructor
  · -- The token itself is found, so only a directive can stand in the way.
    rintro ⟨rfl, hNone⟩ x hx
    rcases Language.mem_breakers.mp hx with hDirective | ⟨hLonger, hNe⟩
    · exact hNone x hDirective
    · exact hOnly rfl x hLonger hNe
  · intro hNone
    have hNil : e = [] := by
      by_contra hNe
      exact hNone e (Language.mem_breakers.mpr (Or.inr ⟨hMarker, hNe⟩)) (List.prefix_append e r')
    subst hNil
    exact ⟨rfl, fun d hd => hNone d (Language.mem_breakers.mpr (Or.inl hd))⟩

/-- A run of line comments: where its lines stand, and how they are marked. Nothing is said about
what the lines hold. -/
structure IsRun (lang : Language) (indent marker : Text) (lines : List Text) : Prop where
  token_mem : Text.dropEndSpaces marker ∈ lang.lineMarkers
  spaced : marker = Text.dropEndSpaces marker ∨ marker = Text.dropEndSpaces marker ++ [' ']
  indent_open : ∀ c ∈ indent, isGap c = true
  line : ∀ l ∈ lines, (marker? lang indent (Text.dropEndSpaces marker) l).isSome = true

/-- The run that the scan takes behind a comment line is one, with the marker of its longest
line. -/
theorem IsRun.of_matchLine? (hLang : lang.LongerFirst) {line marker : Text}
    (hMatch : matchLine? lang line = some (indent, marker)) (rest : List Text) :
    IsRun lang indent (runMarker lang indent marker rest)
      (line :: runAfter lang indent marker rest) := by
  have hBase := dropEndSpaces_runMarker lang indent marker rest
  have hSolid : lang.HasSolidMarkers := fun t ht => (hLang.words t ht).dropEndSpaces
  obtain ⟨hToken, hIndent, -⟩ := exists_eq_of_matchLine? hSolid hMatch
  have hSpaced : ∀ l m, matchLine? lang l = some (indent, m) →
      m = Text.dropEndSpaces m ∨ m = Text.dropEndSpaces m ++ [' '] := by
    intro l m hl
    obtain ⟨t, ht, r, -, -, -, -, rfl⟩ := matchLine?_eq_some hl
    rw [Text.dropEndSpaces_eq_of_spaced (hSolid t ht) (spacedMarker_cases t r)]
    exact spacedMarker_cases t r
  constructor
  · rwa [hBase]
  · refine foldl_longer_of_forall
      (P := fun m => m = Text.dropEndSpaces m ∨ m = Text.dropEndSpaces m ++ [' '])
      (hSpaced line marker hMatch) fun m hm => ?_
    obtain ⟨l, -, hl⟩ := List.mem_filterMap.mp hm
    exact hSpaced l m (marker?_eq_some hl).1
  · exact hIndent
  · rw [hBase]
    exact fun l => marker?_isSome_of_mem_run hMatch

/-- Every segment of line comments in a source text is a run, with the marker that the segment
has. -/
theorem IsRun.of_mem_comments (hLang : lang.LongerFirst) {lines : List Text} {s : Segment}
    (hs : s ∈ comments lang lines) {marker : Text} (hKind : s.kind = .lineComment marker) :
    IsRun lang s.indent marker s.lines := by
  induction lines using lines_induction lang with
  | nil =>
      rw [comments, ofSource] at hs
      cases hs
  | block line rest o closing more hBlock hMore ih =>
      rw [comments_block hBlock hMore] at hs
      rcases List.mem_cons.mp hs with rfl | hs
      · cases hKind
      · exact ih hs
  | unclosed line rest o closing hBlock hMore =>
      rw [comments_unclosed hBlock hMore] at hs
      cases hs
  | run line rest indent first hBlock hMatch ih =>
      rw [comments_run hBlock hMatch] at hs
      rcases List.mem_cons.mp hs with rfl | hs
      · obtain rfl : runMarker lang indent first rest = marker := by simpa using hKind
        exact .of_matchLine? hLang hMatch rest
      · exact ih hs
  | code line rest hBlock hMatch ih =>
      rw [comments_code hBlock hMatch] at hs
      exact ih hs

/-- Text behind the marker of a run is read as a comment of it exactly when it does not start with a
lure. The body is arbitrary here; in a rewrapped run it starts with a word. -/
theorem IsRun.marker?_isSome_iff_lures {marker : Text} {lines : List Text}
    (hRun : IsRun lang indent marker lines) (hLang : lang.LongerFirst) (body : Text) :
    (marker? lang indent (Text.dropEndSpaces marker) (indent ++ (marker ++ body))).isSome = true ↔
      ∀ x ∈ lang.lures marker, ¬x <+: body := by
  have hNe : ∀ x ∈ lang.breakers (Text.dropEndSpaces marker), x ≠ [] := fun x =>
    hLang.ne_nil_of_mem_breakers
  have hBreakers := marker?_isSome_iff_breakers hLang hRun.token_mem hRun.indent_open
  have hSpaced := hRun.spaced
  rw [Language.lures]
  generalize Text.dropEndSpaces marker = token at *
  obtain ⟨gap, rfl, hGap⟩ : ∃ gap, marker = token ++ gap ∧ (gap = [] ∨ gap = [' ']) := by
    rcases hSpaced with rfl | rfl
    · exact ⟨[], by simp⟩
    · exact ⟨[' '], by simp⟩
  rw [List.append_assoc, hBreakers, List.drop_left]
  constructor
  · intro hNone y hy hPrefix
    obtain ⟨x, hx, hDrop⟩ := List.mem_filterMap.mp hy
    apply hNone x hx
    rw [Text.dropPrefix?_eq_some hDrop]
    exact (List.prefix_append_right_inj gap).mpr hPrefix
  · intro hNone x hx hPrefix
    rcases hGap with rfl | rfl
    · exact hNone x (List.mem_filterMap.mpr ⟨x, hx, rfl⟩) hPrefix
    · obtain ⟨c, y, rfl⟩ := List.exists_cons_of_ne_nil (hNe x hx)
      obtain ⟨rfl, hRest⟩ := List.cons_prefix_cons.mp hPrefix
      exact hNone y (List.mem_filterMap.mpr ⟨_, hx, Text.dropPrefix?_append [' '] y⟩) hRest

end Segment

/-- The first word of a text is one of its words. -/
theorem IsWord.mem_words_append {w rest : Text} (hw : IsWord w)
    (hRest : ∀ c, rest.head? = some c → isBlank c = true) : w ∈ Text.words (w ++ rest) := by
  have hOwn : w ∈ Text.words w := by
    rw [hw.words]
    exact List.mem_cons_self
  cases rest with
  | nil => rwa [List.append_nil]
  | cons c rest =>
      rw [blankBlind_words.append_blank w c rest (hRest c rfl)]
      exact List.mem_append_left _ hOwn

/-- A word at the front of a text starts the first word of the text, which may go on behind it. -/
theorem IsWord.exists_mem_words_append {w : Text} (hw : IsWord w) (rest : Text) :
    ∃ first ∈ Text.words (w ++ rest), w <+: first ∧ first <+: w ++ rest := by
  have hSplit := List.takeWhile_append_dropWhile (p := (!isBlank ·)) (l := rest)
  have hFirst : IsWord (w ++ rest.takeWhile (!isBlank ·)) := by
    refine ⟨by simp [hw.ne_nil], fun c hc => ?_⟩
    rcases List.mem_append.mp hc with hc | hc
    · exact hw.visible c hc
    · simpa using List.mem_takeWhile_imp hc
  have hBehind : ∀ c, (rest.dropWhile (!isBlank ·)).head? = some c → isBlank c = true := by
    intro c hc
    simpa using eq_false_of_head?_dropWhile hc
  have hMem := hFirst.mem_words_append hBehind
  rw [List.append_assoc, hSplit] at hMem
  refine ⟨_, hMem, List.prefix_append _ _, ?_⟩
  exact (List.prefix_append_right_inj w).mpr (List.takeWhile_prefix _)

namespace LineComment

open Segment

/-- A line of a rewrapped piece is the bare token, or words of the piece behind the marker. Those
words come from anywhere in the piece, as wrapping may put any of them first. -/
theorem mem_renderPlain_cases (L : Layout) (indent : Text) {marker : Text}
    (hMarker : Text.dropEndSpaces marker ≠ []) {contents : List Text} {l : Text}
    (hl : l ∈ renderPlain L indent marker contents) :
    l = indent ++ Text.dropEndSpaces marker ∨ ∃ body, l = indent ++ (marker ++ body) ∧
      (∀ c, body.head? = some c → isGap c = false) ∧
      ∀ w ∈ Text.words body, w ∈ contents.flatMap Text.words := by
  rw [renderPlain_eq_map L indent hMarker] at hl
  obtain ⟨body, hBody, rfl⟩ := List.mem_map.mp hl
  by_cases hNil : body = []
  · left
    rw [hNil]
    exact Text.dropEndSpaces_append hMarker
  right
  refine ⟨body, ?_, ?_⟩
  · rw [mark, if_neg (by simpa using hNil), List.append_assoc]
  have hWrapped : body ∈ wrapped L (indent ++ marker) (Text.unlines (Doc.interior contents)) := by
    rw [plainContents, List.mem_append, List.mem_append] at hBody
    rcases hBody with (hEdge | hBody) | hEdge
    · exact absurd (List.eq_of_mem_replicate hEdge) hNil
    · split at hBody
      · cases hBody
      · exact hBody
    · exact absurd (List.eq_of_mem_replicate hEdge) hNil
  constructor
  · intro c hc
    rcases mem_intercalate hWrapped with rfl | ⟨g, hg, hLine⟩
    · exact absurd rfl hNil
    · obtain ⟨p, -, rfl⟩ := List.mem_map.mp hg
      exact (Packing.written_of_mem_packed hLine).bounded.head hc
  · intro w hw
    have hMem := List.mem_flatMap.mpr ⟨body, hWrapped, hw⟩
    rw [blankBlind_words.wrapped, blankBlind_words.unlines] at hMem
    obtain ⟨m, hm, hWord⟩ := List.mem_flatMap.mp hMem
    exact List.mem_flatMap.mpr ⟨m, List.mem_of_mem_take (List.mem_of_mem_drop hm), hWord⟩

end LineComment

namespace Segment

/-- Right behind the marker, the line starts with a word of the comment that starts with a lure. -/
def Lured (lang : Language) (s : Segment) (marker l : Text) : Prop :=
  ∃ lure ∈ lang.lures marker, ∃ line ∈ s.lines,
    ∃ word ∈ Text.words (LineComment.content s.indent (Text.dropEndSpaces marker) line),
      lure <+: word ∧ s.indent ++ (marker ++ word) <+: l

/-- A line of a rewrapped plain run is read as a comment of the run unless it is lured, where every
lure is a word or starts with a gap. A lure that starts with a gap catches nothing, since a line has
no gap behind its marker. -/
theorem IsRun.marker?_isSome_iff {lang : Language} (hLang : lang.LongerFirst)
    (hPlain : lang.docMarker = none) (L : Layout) {s : Segment} {marker : Text}
    (hRun : IsRun lang s.indent marker s.lines)
    (hLures : ∀ x ∈ lang.lures marker, IsWord x ∨ ∃ c, x.head? = some c ∧ isGap c = true) {l : Text}
    (hl : l ∈ LineComment.render L lang s.indent marker s.lines) :
    (marker? lang s.indent (Text.dropEndSpaces marker) l).isSome = true ↔
      ¬Lured lang s marker l := by
  have hToken := (hLang.words _ hRun.token_mem).ne_nil
  constructor
  · rintro hSome ⟨lure, hLure, -, -, word, -, ⟨more, rfl⟩, rest, rfl⟩
    have hNone := (hRun.marker?_isSome_iff_lures hLang (lure ++ more ++ rest)).mp
      (by simpa [List.append_assoc] using hSome)
    apply hNone lure hLure
    rw [List.append_assoc]
    exact List.prefix_append lure (more ++ rest)
  · intro hFree
    rcases LineComment.mem_render_cases L lang s.indent marker hl with hl | ⟨ls, hSub, -, hl⟩
    · exact hRun.line l hl
    have hDoc : lang.hasDocComments marker = false := by simp [Language.hasDocComments, hPlain]
    unfold LineComment.pieceLines at hl
    split at hl
    · cases hl
    rw [LineComment.renderPiece, if_neg (by simp [hDoc])] at hl
    rcases LineComment.mem_renderPlain_cases L s.indent hToken hl with
      rfl | ⟨body, rfl, hHead, hWords⟩
    · -- Nothing stands behind a bare token.
      have hBare := marker?_isSome_iff_breakers hLang hRun.token_mem hRun.indent_open []
      rw [List.append_nil] at hBare
      rw [hBare]
      intro x hx hPrefix
      exact hLang.ne_nil_of_mem_breakers hx (List.prefix_nil.mp hPrefix)
    · rw [hRun.marker?_isSome_iff_lures hLang]
      rintro lure hLure ⟨more, rfl⟩
      apply hFree
      rcases hLures lure hLure with hWord | ⟨c, hc, hGap⟩
      · -- The lure has no blank, so it lies in the first word of the line.
        obtain ⟨first, hMem, hStart, hFront⟩ := hWord.exists_mem_words_append more
        obtain ⟨content, hContent, hIn⟩ := List.mem_flatMap.mp (hWords _ hMem)
        obtain ⟨line, hLine, rfl⟩ := List.mem_map.mp hContent
        refine ⟨lure, hLure, line, hSub line hLine, first, hIn, hStart, ?_⟩
        exact (List.prefix_append_right_inj _).mpr ((List.prefix_append_right_inj _).mpr hFront)
      · have hNot := hHead c (by rw [List.head?_append, hc]; rfl)
        rw [hGap] at hNot
        cases hNot

/-- The known languages whose line comments are plain, among them those with directives and the one
with three line markers. This is decided by going through the table, and it would have to be looked
at again for a new language. -/
theorem longerFirst_of_mem_all {lang : Language} (hMem : lang ∈ Language.all)
    (hPlain : lang.docMarker = none) :
    lang.LongerFirst ∧ ∀ token ∈ lang.lineMarkers, ∀ marker ∈ [token, token ++ [' ']],
      ∀ x ∈ lang.lures marker, IsWord x ∨ ∃ c, x.head? = some c ∧ isGap c = true := by
  have hAll : ∀ lang ∈ Language.all, lang.docMarker = none →
      (∀ token ∈ lang.lineMarkers, token ≠ [] ∧ token.any isBlank = false) ∧
        lang.lineMarkers.Pairwise (fun a b => ¬a <+: b) ∧ (∀ d ∈ lang.directives, d ≠ []) ∧
        ∀ token ∈ lang.lineMarkers, ∀ marker ∈ [token, token ++ [' ']], ∀ x ∈ lang.lures marker,
          (x ≠ [] ∧ x.any isBlank = false) ∨ x.head?.any isGap = true := by decide
  have hWord : ∀ {w : Text}, w ≠ [] ∧ w.any isBlank = false → IsWord w := by
    rintro w ⟨hNe, hSolid⟩
    exact ⟨hNe, fun c hc => by simpa using List.any_eq_false.mp hSolid c hc⟩
  obtain ⟨hWords, hOrder, hDirectives, hLures⟩ := hAll lang hMem hPlain
  refine ⟨⟨fun token ht => hWord (hWords token ht), hOrder, hDirectives⟩, ?_⟩
  intro token ht marker hm x hx
  apply (hLures token ht marker hm x hx).imp hWord
  exact fun h => (Option.any_eq_true _ _).mp h

/-- In a known language with plain line comments, a line that rewrapping writes for a run of
comments is read as a comment with the indentation and the token of the run, unless it starts with a
word of the comment that starts with a lure: then, and only then, it becomes a directive or a
comment of another kind. -/
theorem marker?_isSome_iff_not_lured (L : Layout) {lang : Language} (hMem : lang ∈ Language.all)
    (hPlain : lang.docMarker = none) (lines : List Text) {s : Segment}
    (hs : s ∈ ofSource lang lines) {marker : Text} (hKind : s.kind = .lineComment marker) {l : Text}
    (hl : l ∈ LineComment.render L lang s.indent marker s.lines) :
    (marker? lang s.indent (Text.dropEndSpaces marker) l).isSome = true ↔
      ¬Lured lang s marker l := by
  obtain ⟨hLang, hLures⟩ := longerFirst_of_mem_all hMem hPlain
  have hComment : s.isComment = true := by simp [isComment, hKind]
  have hRun := IsRun.of_mem_comments hLang (mem_comments.mpr ⟨hs, hComment⟩) hKind
  apply hRun.marker?_isSome_iff hLang hPlain L _ hl
  apply hLures _ hRun.token_mem
  simpa using hRun.spaced

example : Language.rust.lures "//".toList = ["/".toList, "!".toList] := by decide

example : Language.rust.lures "// ".toList = [] := by decide

/-- The word `-*-` lures a line: it is the first word of the second line. The space that the
directive starts with is that of the marker. -/
theorem lured_encoding :
    "# -*- cc".toList ∈ LineComment.render { column := 8, tab := 4 }
        (Language.lineOnly "python" [".py"] "#" ["!", " -*-"]) [] "# ".toList
        ["# aa bb -*- cc".toList] ∧
      Lured (Language.lineOnly "python" [".py"] "#" ["!", " -*-"])
        ⟨.lineComment "# ".toList, [], ["# aa bb -*- cc".toList]⟩ "# ".toList
        "# -*- cc".toList := by
  have hLine : "# -*- cc".toList ∈ LineComment.render { column := 8, tab := 4 }
      (Language.lineOnly "python" [".py"] "#" ["!", " -*-"]) [] "# ".toList
      ["# aa bb -*- cc".toList] := by decide +kernel
  refine ⟨hLine, ?_⟩
  by_contra hFree
  have hSome := (marker?_isSome_iff_not_lured { column := 8, tab := 4 } (by decide) rfl
    ["# aa bb -*- cc".toList] (by decide +kernel) rfl hLine).mpr hFree
  exact absurd hSome (by decide +kernel)

/-- Wrapping makes an encoding line of a comment that had its `-*-` in the middle of a line. -/
theorem marker?_of_mem_render_eq_none :
    ¬∀ s ∈ ofSource (Language.lineOnly "python" [".py"] "#" ["!", " -*-"])
        ["# aa bb -*- cc".toList],
      ∀ l ∈ LineComment.render { column := 8, tab := 4 }
          (Language.lineOnly "python" [".py"] "#" ["!", " -*-"]) s.indent "# ".toList s.lines,
        (marker? (Language.lineOnly "python" [".py"] "#" ["!", " -*-"]) s.indent "#".toList
          l).isSome = true := by
  decide +kernel

end Segment

end Reflow
