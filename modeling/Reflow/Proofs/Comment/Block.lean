import Reflow.Proofs.Comment.Plain

/-!
Block comments. A rewrapped comment has one form: the opening token, text behind a gutter, and the
closing token. That form is read back as the same text, so it is not changed again.
-/

namespace Reflow

namespace Text

theorem contains_iff {t mark : Text} : contains t mark = true ↔ mark <:+: t := by
  constructor
  · intro h
    obtain ⟨⟨before, after⟩, hCut⟩ := Option.isSome_iff_exists.mp h
    exact ⟨before, after, (cut?_eq_some hCut).symm⟩
  · intro h
    rw [contains]
    induction t with
    | nil =>
        rw [List.infix_nil.mp h]
        rfl
    | cons c t ih =>
        rw [cut?]
        split
        · rfl
        next hNone =>
          rcases List.infix_cons_iff.mp h with hPrefix | hInfix
          · have hStarts := startsWith_iff.mpr hPrefix
            rw [startsWith, hNone] at hStarts
            cases hStarts
          · rw [Option.isSome_map]
            exact ih hInfix

/-- A text is cut at the first occurrence of the mark, so there is none in front of the cut. Behind
it there may be more. -/
theorem not_isInfix_of_cut? {mark t before after : Text} (hMark : mark ≠ [])
    (h : cut? mark t = some (before, after)) : ¬mark <:+: before := by
  induction t generalizing before with
  | nil =>
      simp only [cut?, Option.map_eq_some_iff, Prod.mk.injEq] at h
      obtain ⟨-, -, rfl, -⟩ := h
      rwa [List.infix_nil]
  | cons c t ih =>
      have hWhole := cut?_eq_some h
      rw [cut?] at h
      split at h
      · obtain ⟨rfl, -⟩ := Prod.mk.inj (Option.some.inj h)
        rwa [List.infix_nil]
      next hNone =>
        simp only [Option.map_eq_some_iff, Prod.mk.injEq] at h
        obtain ⟨⟨b, a⟩, hCut, rfl, rfl⟩ := h
        intro hInfix
        rcases List.infix_cons_iff.mp hInfix with hPrefix | hInner
        · have hStarts : startsWith (c :: t) mark = true := by
            rw [startsWith_iff, hWhole, List.append_assoc]
            exact hPrefix.trans (List.prefix_append _ _)
          rw [startsWith, hNone] at hStarts
          cases hStarts
        · exact ih hCut hInner

end Text

section Words

open Packing

variable {x : Text} (hx : ∀ c ∈ x, isGap c = false)
include hx

/-- What starts with no gap is found behind gaps or not at all. -/
theorem isInfix_of_isInfix_gaps {gaps y : Text} (hGaps : ∀ c ∈ gaps, isGap c = true)
    (h : x <:+: gaps ++ y) : x <:+: y := by
  induction gaps with
  | nil => exact h
  | cons c gaps ih =>
      have hc : c ∉ x := fun hMem => by
        have hGap := hGaps c List.mem_cons_self
        rw [hx c hMem] at hGap
        cases hGap
      have hSplit : x <:+: [] ++ c :: (gaps ++ y) := h
      rcases isInfix_or_of_notMem hSplit hc with hNil | hRest
      · rw [List.infix_nil.mp hNil]
        exact List.nil_infix
      · exact ih (fun d hd => hGaps d (List.mem_cons_of_mem c hd)) hRest

theorem exists_word_of_isInfix_append (L : Layout) {ts : List Token} (hts : ∀ u ∈ ts, u.Proper)
    (front : Text) (h : x <:+: front ++ (ts.flatMap fun u => spacer L u ++ u.word)) :
    x <:+: front ∨ ∃ u ∈ ts, x <:+: u.word := by
  induction ts generalizing front with
  | nil => exact Or.inl (by simpa using h)
  | cons u ts ih =>
      have hGap : ∀ c ∈ spacer L u, isGap c = true := fun c =>
        isGap_of_mem_spacer L (hts u List.mem_cons_self)
      obtain ⟨c, gap, hSpacer⟩ := List.exists_cons_of_ne_nil (spacer_ne_nil L u)
      have hc : c ∉ x := fun hMem => by
        have hOpen := hGap c (by simp [hSpacer])
        rw [hx c hMem] at hOpen
        cases hOpen
      rw [List.flatMap_cons, hSpacer, List.cons_append, List.cons_append, List.append_assoc] at h
      rcases isInfix_or_of_notMem h hc with hFront | hRest
      · exact Or.inl hFront
      · have hWord := isInfix_of_isInfix_gaps hx (fun d hd => hGap d (by simp [hSpacer, hd])) hRest
        rcases ih (fun v hv => hts v (List.mem_cons_of_mem u hv)) u.word hWord with
          hFirst | ⟨v, hv, hLater⟩
        · exact Or.inr ⟨u, List.mem_cons_self, hFirst⟩
        · exact Or.inr ⟨v, List.mem_cons_of_mem u hv, hLater⟩

/-- What is found in a line and holds no gap is found in one of its words. Packing therefore puts no
such text together that was not there. -/
theorem exists_word_of_isInfix_lineText (L : Layout) {line : List Token}
    (hLine : ∀ u ∈ line, u.Proper)
    (hNe : x ≠ []) (h : x <:+: lineText L line) : ∃ u ∈ line, x <:+: u.word := by
  cases line with
  | nil => exact absurd (List.infix_nil.mp h) hNe
  | cons t ts =>
      rw [lineText] at h
      have hTail : ∀ u ∈ ts, u.Proper := fun u hu => hLine u (List.mem_cons_of_mem t hu)
      rcases exists_word_of_isInfix_append hx L hTail t.word h with hFirst | ⟨u, hu, hRest⟩
      · exact ⟨t, List.mem_cons_self, hFirst⟩
      · exact ⟨u, List.mem_cons_of_mem t hu, hRest⟩

omit hx in
/-- A word stands in the text that it is read from, as it is. -/
theorem isInfix_of_mem_ofText {t : Text} {u : Token} (hu : u ∈ Token.ofText t) : u.word <:+: t := by
  induction t using Token.ofText_induction with
  | gaps t hGaps => simp [Token.ofText_eq_nil hGaps] at hu
  | word first rest hFirst hRest ih =>
      rw [Token.ofText_append hFirst hRest] at hu
      rcases List.mem_cons.mp hu with rfl | hu
      · exact ⟨u.gap, rest, by rw [Token.text]⟩
      · exact (ih hu).trans (List.suffix_append _ _).isInfix

omit hx in
/-- What is found in joined texts and does not hold the separator is found in one of them, since it
cannot reach across. -/
theorem exists_of_isInfix_intercalate {c : Char} (hc : c ∉ x) (hNe : x ≠ []) {ks : List Text}
    (h : x <:+: List.intercalate [c] ks) : ∃ k ∈ ks, x <:+: k := by
  induction ks with
  | nil => exact absurd (List.infix_nil.mp h) hNe
  | cons k ks ih =>
      cases ks with
      | nil => exact ⟨k, List.mem_cons_self, by simpa using h⟩
      | cons j ks =>
          rw [List.intercalate_cons_cons, List.append_assoc, List.singleton_append] at h
          rcases isInfix_or_of_notMem h hc with hFirst | hRest
          · exact ⟨k, List.mem_cons_self, hFirst⟩
          · obtain ⟨i, hi, hInfix⟩ := ih hRest
            exact ⟨i, List.mem_cons_of_mem k hi, hInfix⟩

/-- What is found in a wrapped line and holds no gap is found in a line of the text. Used with the
closing token, which so does not come about by wrapping. -/
theorem exists_line_of_isInfix_wrapped {L : Layout} {margin t l : Text} (hNe : x ≠ [])
    (hl : l ∈ wrapped L margin t) (h : x <:+: l) : ∃ line ∈ Text.lines t, x <:+: line := by
  rcases mem_intercalate hl with rfl | ⟨g, hg, hl⟩
  · exact absurd (List.infix_nil.mp h) hNe
  obtain ⟨p, hp, rfl⟩ := List.mem_map.mp hg
  obtain ⟨line, hLine, rfl⟩ := List.mem_map.mp hl
  obtain ⟨u, hu, hWord⟩ :=
    exists_word_of_isInfix_lineText hx L (fun u => proper_of_mem_divide hLine) hNe h
  have hToken := List.mem_flatten_of_mem hLine hu
  rw [flatten_divide] at hToken
  have hParagraph : x <:+: p := hWord.trans (isInfix_of_mem_ofText hToken)
  obtain ⟨m, ms, rfl, hLines⟩ := exists_of_mem_paragraphs hp
  have hSpace : ' ' ∉ x := fun hMem => by cases hx ' ' hMem
  obtain ⟨k, hk, hInfix⟩ := exists_of_isInfix_intercalate hSpace hNe hParagraph
  obtain ⟨-, source, hSource, rfl⟩ := hLines k hk
  obtain ⟨front, back, -, -, hSplit⟩ := Text.exists_eq_append_trim source
  exact ⟨source, hSource, hInfix.trans ⟨front, back, hSplit.symm⟩⟩

end Words

/-- The block comments of a language, if it has any, stand between a slash and a star. The gutter
puts a star below the star of the opening token. -/
structure Language.StarBlocks (lang : Language) : Prop where
  tokens : lang.blockStart = [] ∨ lang.blockStart = [['/', '*']] ∧ lang.blockEnd = [['*', '/']]
  gutter : lang.blockGutter = [' ', '*', ' ']

theorem isWord_slashStar : IsWord ['/', '*'] := ⟨by simp, by simp [isBlank]⟩

namespace Segment

/-- A comment ends on its first line, or with the first line behind it that holds the token. Lines
behind that one take no part in the question. -/
theorem blockMore?_eq_some_iff {o : Opening} {closing : Text} {rest : List Text} {more : Nat} :
    blockMore? o closing rest = some more ↔
      (closing <:+: o.rest ∧ more = 0) ∨
        (¬closing <:+: o.rest ∧ ∃ middle last after, rest = middle ++ last :: after ∧
          (∀ l ∈ middle, ¬closing <:+: l) ∧ closing <:+: last ∧ more = middle.length + 1) := by
  unfold blockMore?
  split
  next hFirst =>
    rw [Text.contains_iff] at hFirst
    simp [hFirst, eq_comm]
  next hFirst =>
    rw [Text.contains_iff] at hFirst
    simp only [hFirst, false_and, false_or, not_false_eq_true, true_and, Option.map_eq_some_iff]
    constructor
    · rintro ⟨i, hi, rfl⟩
      obtain ⟨hLt, hLast, hMiddle⟩ := List.findIdx?_eq_some_iff_getElem.mp hi
      refine ⟨rest.take i, rest[i], rest.drop (i + 1), ?_, fun l hl => ?_, ?_, ?_⟩
      · rw [← List.drop_eq_getElem_cons hLt, List.take_append_drop]
      · obtain ⟨j, hj, rfl⟩ := List.mem_iff_getElem.mp hl
        rw [List.length_take] at hj
        have hNot := hMiddle j (by omega)
        rw [List.getElem_take, ← Text.contains_iff]
        exact hNot
      · exact Text.contains_iff.mp hLast
      · rw [List.length_take]
        omega
    · rintro ⟨middle, last, after, rfl, hMiddle, hLast, rfl⟩
      refine ⟨middle.length, ?_, rfl⟩
      have hNone : middle.findIdx? (Text.contains · closing) = none := by
        rw [List.findIdx?_eq_none_iff]
        intro l hl
        rw [Bool.eq_false_iff, ne_eq, Text.contains_iff]
        exact hMiddle l hl
      rw [List.findIdx?_append, hNone, List.findIdx?_cons, Text.contains_iff.mpr hLast]
      simp

/-- A comment that ends among the lines below it ends there whatever stands behind them, so comments
are found from the front. -/
theorem blockMore?_append {o : Opening} {closing : Text} {rest : List Text} {more : Nat}
    (h : blockMore? o closing rest = some more) (after : List Text) :
    blockMore? o closing (rest ++ after) = some more ∧ more ≤ rest.length := by
  rcases blockMore?_eq_some_iff.mp h with ⟨hFirst, rfl⟩ |
    ⟨hFirst, middle, last, behind, rfl, hMiddle, hLast, rfl⟩
  · exact ⟨blockMore?_eq_some_iff.mpr (Or.inl ⟨hFirst, rfl⟩), Nat.zero_le _⟩
  · constructor
    · rw [List.append_assoc, List.cons_append]
      exact blockMore?_eq_some_iff.mpr
        (Or.inr ⟨hFirst, middle, last, behind ++ after, rfl, hMiddle, hLast, rfl⟩)
    · rw [List.length_append, List.length_cons]
      omega

/-- A line opens a comment exactly when it has the opening token behind gaps. With one kind of block
comment nothing else is to be told about it. -/
theorem block?_eq_some_iff {lang : Language} (hLang : lang.StarBlocks) {line closing : Text}
    {o : Opening} :
    block? lang line = some (o, closing) ↔
      lang.blockStart = [['/', '*']] ∧ line = o.indent ++ (['/', '*'] ++ o.rest) ∧
        (∀ c ∈ o.indent, isGap c = true) ∧ o.opening = ['/', '*'] ∧ o.closing = some ['*', '/'] ∧
        closing = ['*', '/'] := by
  constructor
  · intro h
    obtain ⟨hLine, hIndent, hOpening, hClosing⟩ := block?_eq_some h
    rcases hLang.tokens with hNone | ⟨hStart, hEnd⟩
    · rw [hNone] at hOpening
      cases hOpening
    · rw [hStart, List.mem_singleton] at hOpening
      rw [hEnd, List.mem_singleton] at hClosing
      have hSome : o.closing = some closing := by
        obtain ⟨p, hp, hMap⟩ := Option.bind_eq_some_iff.mp h
        obtain ⟨c, hc, hPair⟩ := Option.map_eq_some_iff.mp hMap
        obtain ⟨rfl, rfl⟩ := Prod.mk.inj hPair
        exact hc
      rw [hOpening] at hLine
      exact ⟨hStart, hLine, hIndent, hOpening, hClosing ▸ hSome, hClosing⟩
  · rintro ⟨hStart, rfl, hIndent, hOpening, hClosing, rfl⟩
    have hEnd : lang.blockEnd = [['*', '/']] := by
      rcases hLang.tokens with hNone | ⟨-, hEnd⟩
      · rw [hNone] at hStart
        cases hStart
      · exact hEnd
    have hSplit := isWord_slashStar.splitIndent hIndent o.rest
    have hStarts : Text.startsWith (['/', '*'] ++ o.rest) ['/', '*'] = true :=
      Text.startsWith_iff.mpr (List.prefix_append _ _)
    obtain ⟨indent, opening, close, rest⟩ := o
    dsimp only at hOpening hClosing hSplit hStarts ⊢
    subst hOpening hClosing
    simp only [block?, opening?, hSplit, hStart, List.findIdx?_cons, hStarts, Language.blockEndFor,
      hEnd]
    rfl

end Segment

namespace BlockComment

theorem render_eq_renderLines (L : Layout) (indent opening closing gutter first last : Text)
    (middle : List Text) :
    render L indent opening closing gutter (first :: (middle ++ [last])) =
      renderLines L indent opening closing gutter first middle last := by
  cases middle with
  | nil => rfl
  | cons second middle =>
      have hDrop : (second :: (middle ++ [last])).dropLast = second :: middle := by
        rw [← List.cons_append, List.dropLast_concat]
      simp [render, hDrop]

/-- The first line behind its indentation is divided in two, and stars go to the token. A second
star, as in documentation comments, thus stays on the first line. -/
theorem exists_splitFirst_eq (opening line : Text) :
    ∃ front back, (Text.splitIndent line).2 = front ++ back ∧
      splitFirst opening line =
        (front ++ back.takeWhile isStar, Text.trim (back.dropWhile isStar)) := by
  simp only [splitFirst]
  generalize (Text.splitIndent line).2 = t
  cases hBytes : Text.splitBytes? (Text.byteLength opening) t with
  | none => exact ⟨t, [], (List.append_nil t).symm, rfl⟩
  | some pair => exact ⟨pair.1, pair.2, Text.splitBytes?_eq_some hBytes, rfl⟩

theorem splitFirst_opening {indent : Text} (hIndent : ∀ c ∈ indent, isGap c = true) (rest : Text) :
    splitFirst ['/', '*'] (indent ++ (['/', '*'] ++ rest)) =
      (['/', '*'] ++ rest.takeWhile isStar, Text.trim (rest.dropWhile isStar)) := by
  simp only [splitFirst, isWord_slashStar.splitIndent hIndent, Text.splitBytes?_append,
    Option.getD_some]

/-- The one form of a rewrapped comment: an opening line with `stars`, text and a closing line. A
comment on a single line has another form, and is kept as it is. -/
def canonical (indent stars : Text) (contents : List Text) : List Text :=
  (indent ++ (['/', '*'] ++ stars)) ::
    (contents.map (mark (indent ++ [' ', '*', ' '])) ++ [indent ++ [' ', '*', '/']])

section Canonical

variable {L : Layout} {indent : Text} (hIndent : ∀ c ∈ indent, isGap c = true)
include hIndent

theorem splitIndent_indent_append {body : Text}
    (hBody : ∀ c, body.head? = some c → isGap c = false) :
    (Text.splitIndent (indent ++ ' ' :: body)).2 = body := by
  have hFront : ∀ c ∈ indent ++ [' '], isGap c = true := by
    intro c hc
    rcases List.mem_append.mp hc with hc | hc
    · exact hIndent c hc
    · rw [List.mem_singleton.mp hc]
      rfl
  have hSplit := Text.splitIndent_append hFront hBody
  rw [List.append_assoc, List.singleton_append] at hSplit
  rw [hSplit]

/-- The text behind a gutter is read back, also where a line is empty and the gutter without its
final space. -/
theorem interiorText_mark (l : Text) : interiorText (mark (indent ++ [' ', '*', ' ']) l) = l := by
  have hStar : ∀ c rest, ('*' :: rest : Text).head? = some c → isGap c = false := by
    intro c rest hc
    obtain rfl : '*' = c := Option.some.inj hc
    rfl
  cases l with
  | nil =>
      have hMark : mark (indent ++ [' ', '*', ' ']) [] = indent ++ ' ' :: ['*'] :=
        Text.dropEndSpaces_append (by decide)
      rw [hMark, interiorText]
      simp only [splitIndent_indent_append hIndent fun c => hStar c _]
      rfl
  | cons c l =>
      have hMark :
          mark (indent ++ [' ', '*', ' ']) (c :: l) = indent ++ ' ' :: ('*' :: ' ' :: c :: l) := by
        simp [mark]
      rw [hMark, interiorText]
      simp only [splitIndent_indent_append hIndent fun d => hStar d _]
      rfl

theorem splitFirst_canonical {stars : Text} (hStars : ∀ c ∈ stars, isStar c = true) :
    splitFirst ['/', '*'] (indent ++ (['/', '*'] ++ stars)) = (['/', '*'] ++ stars, []) := by
  rw [splitFirst_opening hIndent, List.takeWhile_eq_self_iff.mpr hStars,
    List.dropWhile_eq_nil_iff.mpr hStars]
  rfl

/-- The one form is not changed by rewrapping, if its text is settled and has no empty line at an
end. There may be no text at all. -/
theorem render_canonical {stars : Text} (hStars : ∀ c ∈ stars, isStar c = true)
    {contents : List Text} (hSettled : Settled L (indent ++ [' ', '*', ' ']) contents)
    (hHead : contents.head? ≠ some []) (hLast : contents.getLast? ≠ some []) :
    render L indent ['/', '*'] ['*', '/'] [' ', '*', ' '] (canonical indent stars contents) =
      canonical indent stars contents := by
  have hCut :
      Text.cut? ['*', '/'] (Text.splitIndent (indent ++ [' ', '*', '/'])).2 = some ([], []) := by
    rw [splitIndent_indent_append hIndent (by simp [isGap])]
    rfl
  have hInterior :
      (contents.map (mark (indent ++ [' ', '*', ' ']))).map interiorText = contents := by
    rw [List.map_map]
    exact (List.map_congr_left fun l _ => interiorText_mark hIndent l).trans (List.map_id contents)
  rw [canonical, render_eq_renderLines, renderLines, hCut]
  have hBlank : (!Text.allBlank []) = false := rfl
  simp only [splitFirst_canonical hIndent hStars, hInterior, hBlank, Bool.false_eq_true, if_false]
  have hText : unlessEmpty [] ++ contents ++ unlessEmpty (lastText []) = contents := by
    rw [show lastText [] = [] from rfl, show unlessEmpty [] = [] from rfl, List.append_nil,
      List.nil_append]
  rw [hText]
  cases contents with
  | nil => rfl
  | cons l ls =>
      have hVisible : Text.allBlank (Text.unlines (l :: ls)) = false := by
        apply allBlank_unlines_eq_false List.mem_cons_self
        rw [Bool.eq_false_iff]
        intro hBlank
        rw [hSettled.eq_nil_of_allBlank List.mem_cons_self hBlank] at hHead
        exact hHead rfl
      rw [if_neg (by simp [hVisible]), wrap_eq_map L _ (paragraphs_ne_nil hVisible),
        hSettled.wrapped_eq (by simp) hHead hLast]
      rfl

/-- The one form holds its closing token on its last line only, so it is read back as one comment
with as many lines. -/
theorem blockMore?_canonical {contents : List Text} {o : Segment.Opening}
    (hRest : ∀ c ∈ o.rest, isStar c = true) (hClosed : ∀ l ∈ contents, ¬['*', '/'] <:+: l)
    (after : List Text) :
    Segment.blockMore? o ['*', '/']
        (contents.map (mark (indent ++ [' ', '*', ' '])) ++ [indent ++ [' ', '*', '/']] ++ after) =
      some (contents.length + 1) := by
  have hSlash : ∀ t : Text, '/' ∉ t → ¬['*', '/'] <:+: t := fun t ht hInfix =>
    ht (hInfix.subset (by simp))
  have hFirst : '/' ∉ o.rest := fun hMem => by cases hRest _ hMem
  rw [Segment.blockMore?_eq_some_iff]
  refine Or.inr ⟨hSlash _ hFirst, contents.map (mark (indent ++ [' ', '*', ' '])),
    indent ++ [' ', '*', '/'], after, by simp, fun l hl => ?_, ⟨indent ++ [' '], [], by simp⟩,
    by simp⟩
  obtain ⟨c, hc, rfl⟩ := List.mem_map.mp hl
  have hFront : '/' ∉ indent ++ [' ', '*'] := by
    intro hMem
    rcases List.mem_append.mp hMem with hMem | hMem
    · cases hIndent _ hMem
    · simp at hMem
  cases c with
  | nil =>
      have hMark : mark (indent ++ [' ', '*', ' ']) [] = indent ++ [' ', '*'] :=
        Text.dropEndSpaces_append (by decide)
      rw [hMark]
      exact hSlash _ hFront
  | cons d c =>
      have hMark :
          mark (indent ++ [' ', '*', ' ']) (d :: c) = (indent ++ [' ', '*']) ++ ' ' :: d :: c := by
        simp [mark]
      rw [hMark]
      intro hInfix
      rcases isInfix_or_of_notMem hInfix (by decide) with hFirst | hRest
      · exact hSlash _ hFront hFirst
      · exact hClosed _ hc hRest

end Canonical

/-- The texts of a comment that is rewrapped: of its first line, its middle lines and its last line.
A comment that is kept has none. The texts of the first and the last line may be empty, and are then
left out of what is wrapped. -/
def texts (opening closing first : Text) (middle : List Text) (last : Text) : List Text :=
  match Text.cut? closing (Text.splitIndent last).2 with
  | none => []
  | some (before, _) =>
    (splitFirst opening first).2 :: middle.map interiorText ++ [lastText before]

/-- What is read from a middle line is part of it, so it closes no comment that the line does not
close. -/
theorem interiorText_isInfix (line : Text) : interiorText line <:+: line := by
  have hBody : (Text.splitIndent line).2 <:+: line := (List.dropWhile_suffix _).isInfix
  refine List.IsInfix.trans ?_ hBody
  simp only [interiorText]
  generalize (Text.splitIndent line).2 = t
  cases hSpaced : Text.dropPrefix? ['*', ' '] t with
  | some rest =>
      rw [Text.dropPrefix?_eq_some hSpaced]
      exact (List.suffix_append _ _).isInfix
  | none =>
      cases hStar : Text.dropPrefix? ['*'] t with
      | some rest =>
          rw [Text.dropPrefix?_eq_some hStar]
          exact (List.suffix_append _ _).isInfix
      | none => exact List.infix_rfl

theorem lastText_isInfix (before : Text) : lastText before <:+: before :=
  (Text.trim_isInfix_self _).trans
    ((List.dropWhile_suffix _).isInfix.trans (Text.trim_isInfix_self before))

theorem eq_of_mem_unlessEmpty {t x : Text} (h : x ∈ unlessEmpty t) : x = t := by
  unfold unlessEmpty at h
  split at h
  · cases h
  · exact List.mem_singleton.mp h

/-- What is wrapped are texts of the comment. The empty ones at the edges are not wrapped, but they
are among the texts. -/
theorem mem_texts_of_mem_append {opening closing first last before after t : Text}
    {middle : List Text} (hCut : Text.cut? closing (Text.splitIndent last).2 = some (before, after))
    (ht : t ∈ unlessEmpty (splitFirst opening first).2 ++ middle.map interiorText ++
      unlessEmpty (lastText before)) : t ∈ texts opening closing first middle last := by
  simp only [texts, hCut]
  rw [List.mem_append, List.mem_append] at ht
  rcases ht with (ht | ht) | ht
  · rw [eq_of_mem_unlessEmpty ht]
    simp
  · exact List.mem_append_left _ (List.mem_cons_of_mem _ ht)
  · rw [eq_of_mem_unlessEmpty ht]
    simp

section Form

variable (L : Layout) {indent rest last : Text} {middle : List Text}
  (hIndent : ∀ c ∈ indent, isGap c = true) (hRest : ¬['*', '/'] <:+: rest)
  (hMiddle : ∀ l ∈ middle, ¬['*', '/'] <:+: l)
  (hFeed : ∀ l ∈ (indent ++ (['/', '*'] ++ rest)) :: (middle ++ [last]), '\n' ∉ l)
include hIndent hRest hMiddle hFeed

/-- Every text is part of a line, and of one that does not close the comment or of the part in front
of the token that does. -/
theorem not_isInfix_of_mem_texts {t : Text}
    (ht : t ∈ texts ['/', '*'] ['*', '/'] (indent ++ (['/', '*'] ++ rest)) middle last) :
    ¬['*', '/'] <:+: t ∧ '\n' ∉ t := by
  unfold texts at ht
  split at ht
  · cases ht
  next before after hCut =>
    have hBody : before <:+: last := by
      refine List.IsInfix.trans ⟨[], ['*', '/'] ++ after, ?_⟩ (List.dropWhile_suffix isGap).isInfix
      rw [List.nil_append, ← List.append_assoc]
      exact (Text.cut?_eq_some hCut).symm
    rw [splitFirst_opening hIndent, List.cons_append, List.mem_cons, List.mem_append,
      List.mem_singleton] at ht
    rcases ht with rfl | hInner | rfl
    · have hInfix : Text.trim (rest.dropWhile isStar) <:+: rest :=
        (Text.trim_isInfix_self _).trans (List.dropWhile_suffix _).isInfix
      exact ⟨fun h => hRest (h.trans hInfix), fun h => hFeed _ List.mem_cons_self
        (List.mem_append_right _ (List.mem_append_right _ (hInfix.subset h)))⟩
    · obtain ⟨l, hl, rfl⟩ := List.mem_map.mp hInner
      exact ⟨fun h => hMiddle l hl (h.trans (interiorText_isInfix l)),
        fun h => hFeed l (by simp [hl]) ((interiorText_isInfix l).subset h)⟩
    · exact ⟨fun h => Text.not_isInfix_of_cut? (by simp) hCut (h.trans (lastText_isInfix before)),
        fun h => hFeed last (by simp) (hBody.subset ((lastText_isInfix before).subset h))⟩

/-- A comment of several lines is kept or written in the one form: its texts that are not empty at
the edges, wrapped, and none of them closes it. Which of the two it is depends on what stands behind
the closing token, and on whether there is text. -/
theorem renderLines_form :
    renderLines L indent ['/', '*'] ['*', '/'] [' ', '*', ' ']
    (indent ++ (['/', '*'] ++ rest)) middle
        last = (indent ++ (['/', '*'] ++ rest)) :: (middle ++ [last]) ∨
      ∃ stars ts contents, (∀ c ∈ stars, isStar c = true) ∧
        (∀ t ∈ ts, t ∈ texts ['/', '*'] ['*', '/'] (indent ++ (['/', '*'] ++ rest)) middle last) ∧
        (∀ t ∈ ts, '\n' ∉ t) ∧
        (contents = [] ∨ ts ≠ [] ∧ paragraphs (Text.unlines ts) ≠ [] ∧
          contents = wrapped L (indent ++ [' ', '*', ' ']) (Text.unlines ts)) ∧
        (∀ l ∈ contents, ¬['*', '/'] <:+: l) ∧
        renderLines L indent ['/', '*'] ['*', '/'] [' ', '*', ' '] (indent ++ (['/', '*'] ++ rest))
          middle last = canonical indent stars contents := by
  unfold renderLines
  split
  · exact Or.inl (List.cons_append ..)
  next before after hCut =>
    split
    · exact Or.inl (List.cons_append ..)
    simp only [splitFirst_opening hIndent]
    generalize hTexts :
      unlessEmpty (Text.trim (rest.dropWhile isStar)) ++ middle.map interiorText ++
      unlessEmpty (lastText before) = ts
    have hMem : ∀ t ∈ ts,
        t ∈ texts ['/', '*'] ['*', '/'] (indent ++ (['/', '*'] ++ rest)) middle last := by
      intro t ht
      apply mem_texts_of_mem_append hCut
      rw [splitFirst_opening hIndent]
      exact hTexts ▸ ht
    have hOpen := fun t ht => not_isInfix_of_mem_texts hIndent hRest hMiddle hFeed (hMem t ht)
    right
    split
    · exact ⟨rest.takeWhile isStar, ts, [], fun c hc => List.mem_takeWhile_imp hc, hMem,
        fun t ht => (hOpen t ht).2, Or.inl rfl, nofun, rfl⟩
    next hVisible =>
      have hParagraphs := paragraphs_ne_nil (by simpa using hVisible)
      have hNe : ts ≠ [] := by
        rintro rfl
        exact hVisible rfl
      refine ⟨rest.takeWhile isStar, ts, wrapped L (indent ++ [' ', '*', ' ']) (Text.unlines ts),
        fun c hc => List.mem_takeWhile_imp hc, hMem, fun t ht => (hOpen t ht).2,
        Or.inr ⟨hNe, hParagraphs, rfl⟩, fun l hl hInfix => ?_, ?_⟩
      · obtain ⟨t, ht, hFound⟩ :=
          exists_line_of_isInfix_wrapped (by simp [isGap]) (by simp) hl hInfix
        rw [Text.lines_unlines (fun t ht => (hOpen t ht).2) hNe] at ht
        exact (hOpen t ht).1 hFound
      · rw [wrap_eq_map L _ hParagraphs, canonical, List.cons_append]

/-- A rewrapped comment of single-spaced text is not changed again. The spacing is asked of the
texts alone; indentation and gutters may be anything. -/
theorem render_renderLines
    (hSpaced : ∀ t ∈ texts ['/', '*'] ['*', '/'] (indent ++ (['/', '*'] ++ rest)) middle last,
      SingleSpaced t) :
    render L indent ['/', '*'] ['*', '/'] [' ', '*', ' ']
        (renderLines L indent ['/', '*'] ['*', '/'] [' ', '*', ' ']
          (indent ++ (['/', '*'] ++ rest)) middle last) =
      renderLines L indent ['/', '*'] ['*', '/'] [' ', '*', ' ']
        (indent ++ (['/', '*'] ++ rest)) middle last := by
  rcases renderLines_form L hIndent hRest hMiddle hFeed with
    hSame | ⟨stars, ts, contents, hStars, hTexts, hLines, hContents, -, hForm⟩
  · have hKept := render_eq_renderLines L indent ['/', '*'] ['*', '/'] [' ', '*', ' ']
      (indent ++ (['/', '*'] ++ rest)) last middle
    rw [hSame] at hKept ⊢
    exact hKept
  · rw [hForm]
    rcases hContents with rfl | ⟨hNe, hParagraphs, rfl⟩
    · exact render_canonical hIndent hStars ⟨nofun, .nil, .nil⟩ (by simp) (by simp)
    · have hGroups := groups_wrapped L (indent ++ [' ', '*', ' ']) hParagraphs
      apply render_canonical hIndent hStars
      · apply settled_wrapped
        intro l hl
        rw [Text.lines_unlines hLines hNe] at hl
        exact hSpaced l (hTexts l hl)
      · exact fun h => hGroups.edge_ne_nil (Or.inl h) rfl
      · exact fun h => hGroups.edge_ne_nil (Or.inr h) rfl

end Form

/-- The texts of the lines of a comment. A comment on one line has none, as it is not rewrapped. -/
def lineTexts (opening closing : Text) : List Text → List Text
  | first :: second :: rest =>
    texts opening closing first ((second :: rest).dropLast)
      ((second :: rest).getLast (List.cons_ne_nil second rest))
  | _ => []

theorem lineTexts_eq (opening closing first last : Text) (middle : List Text) :
    lineTexts opening closing (first :: (middle ++ [last])) =
      texts opening closing first middle last := by
  cases middle with
  | nil => rfl
  | cons second middle =>
      have hDrop : (second :: (middle ++ [last])).dropLast = second :: middle := by
        rw [← List.cons_append, List.dropLast_concat]
      simp [lineTexts, hDrop]

/-- The texts of a comment are parts of its lines, so a condition on all lines is one on the
texts. -/
theorem exists_isInfix_of_mem_lineTexts {opening closing : Text} {lines : List Text} {t : Text}
    (ht : t ∈ lineTexts opening closing lines) : ∃ l ∈ lines, t <:+: l := by
  match lines with
  | first :: second :: rest =>
      have hMem : ∀ l ∈ (second :: rest).dropLast ++ [(second :: rest).getLast (by simp)],
          l ∈ second :: rest := by
        rw [List.dropLast_append_getLast]
        exact fun _ => id
      simp only [lineTexts, texts] at ht
      split at ht
      · cases ht
      next before after hCut =>
        rw [List.cons_append, List.mem_cons, List.mem_append, List.mem_singleton] at ht
        rcases ht with rfl | ht | rfl
        · obtain ⟨front, back, hBody, hFirst⟩ := exists_splitFirst_eq opening first
          refine ⟨first, List.mem_cons_self, ?_⟩
          rw [hFirst]
          refine (Text.trim_isInfix_self _).trans ((List.dropWhile_suffix _).isInfix.trans ?_)
          exact (hBody ▸ List.suffix_append front back).isInfix.trans
            (List.dropWhile_suffix _).isInfix
        · obtain ⟨l, hl, rfl⟩ := List.mem_map.mp ht
          exact ⟨l, List.mem_cons_of_mem first (hMem l (List.mem_append_left _ hl)),
            interiorText_isInfix l⟩
        · refine ⟨_,
            List.mem_cons_of_mem first (hMem _ (List.mem_append_right _ List.mem_cons_self)),
            (lastText_isInfix before).trans ?_⟩
          refine List.IsInfix.trans ⟨[], closing ++ after, ?_⟩ (List.dropWhile_suffix isGap).isInfix
          rw [List.nil_append, ← List.append_assoc]
          exact (Text.cut?_eq_some hCut).symm

end BlockComment

namespace Source

open Segment

section Append

variable {L : Layout} {lang : Language} {line : Text} {rest : List Text}

/-- What stands behind the lines of a block comment takes no part in its rewrapping, since the line
that closes it is found before that. -/
theorem renderLines_block_append {o : Opening} {closing : Text} {more : Nat}
    (hBlock : block? lang line = some (o, closing))
    (hMore : blockMore? o closing rest = some more) (after : List Text) :
    renderLines L lang (line :: (rest ++ after)) =
      BlockComment.render L o.indent o.opening closing lang.blockGutter (line :: rest.take more) ++
        renderLines L lang (rest.drop more ++ after) := by
  obtain ⟨hFound, hLength⟩ := blockMore?_append hMore after
  rw [renderLines_block hBlock hFound, List.take_append_of_le_length hLength,
    List.drop_append_of_le_length hLength]

/-- Nor does a line that is no line comment in that of a run. A line comment might continue the run
and change its marker. -/
theorem renderLines_run_append {indent marker : Text} (hBlock : block? lang line = none)
    (hMatch : matchLine? lang line = some (indent, marker)) {after : List Text}
    (hStop : ∀ l, after.head? = some l → matchLine? lang l = none) :
    renderLines L lang (line :: (rest ++ after)) =
      LineComment.render L lang indent (runMarker lang indent marker rest)
          (line :: runAfter lang indent marker rest) ++
        renderLines L lang (restAfter lang indent marker rest ++ after) := by
  have hOther : ∀ l, after.head? = some l →
      marker? lang indent (Text.dropEndSpaces marker) l = none := by
    intro l hl
    rw [marker?, hStop l hl]
  rw [renderLines_run hBlock hMatch, restAfter_append rest hOther, runMarker,
    runAfter_append rest hOther, ← runMarker]

end Append

section Reading

variable (L : Layout) {lang : Language} (hLang : lang.StarBlocks) {line closing : Text}
  {rest : List Text} {o : Opening} {more : Nat} (hBlock : block? lang line = some (o, closing))
  (hMore : blockMore? o closing rest = some more) (hFeed : ∀ l ∈ line :: rest.take more, '\n' ∉ l)
include hLang hBlock hMore hFeed

/-- A rewrapped block comment opens behind the same indentation and with the same token, and ends
where it is written, whatever stands behind it. -/
theorem exists_block_render :
    ∃ first taken p, BlockComment.render L o.indent o.opening closing lang.blockGutter
        (line :: rest.take more) = first :: taken ∧ block? lang first = some (p, closing) ∧
      p.indent = o.indent ∧ p.opening = o.opening ∧
      ∀ after, blockMore? p closing (taken ++ after) = some taken.length := by
  obtain ⟨hStart, hLine, hIndent, hOpening, hClosing, rfl⟩ := (block?_eq_some_iff hLang).mp hBlock
  rw [hOpening, hLang.gutter]
  rcases blockMore?_eq_some_iff.mp hMore with ⟨hFirst, rfl⟩ |
    ⟨hFirst, middle, last, behind, rfl, hMiddle, hLast, rfl⟩
  · rw [List.take_zero]
    exact ⟨line, [], o, rfl, hBlock, rfl, hOpening,
      fun after => blockMore?_eq_some_iff.mpr (Or.inl ⟨hFirst, rfl⟩)⟩
  · have hTake : (middle ++ last :: behind).take (middle.length + 1) = middle ++ [last] := by
      rw [List.take_append, List.take_of_length_le (by omega)]
      simp
    rw [hTake] at hFeed ⊢
    subst hLine
    rw [BlockComment.render_eq_renderLines]
    rcases BlockComment.renderLines_form L hIndent hFirst hMiddle hFeed with
      hSame | ⟨stars, ts, contents, hStars, -, -, -, hClosed, hForm⟩
    · -- A comment that is kept ends with the first line that closes it.
      refine ⟨_, _, o, hSame, hBlock, rfl, hOpening, fun after => ?_⟩
      exact blockMore?_eq_some_iff.mpr
        (Or.inr ⟨hFirst, middle, last, after, by simp, hMiddle, hLast, by simp⟩)
    · have hAgain : block? lang (o.indent ++ (['/', '*'] ++ stars)) =
          some ({ o with rest := stars }, ['*', '/']) :=
        (block?_eq_some_iff hLang).mpr ⟨hStart, rfl, hIndent, hOpening, hClosing, rfl⟩
      refine ⟨_, _, { o with rest := stars }, hForm, hAgain, rfl, hOpening, fun after => ?_⟩
      rw [BlockComment.blockMore?_canonical (o := { o with rest := stars }) hIndent hStars hClosed]
      simp

variable
  (hSpaced : ∀ t ∈ BlockComment.lineTexts o.opening closing (line :: rest.take more),
    SingleSpaced t)
include hSpaced

/-- The second pass on a block comment, as it is found in a text, repeats the first. -/
theorem render_render_block :
    BlockComment.render L o.indent o.opening closing lang.blockGutter
        (BlockComment.render L o.indent o.opening closing lang.blockGutter
          (line :: rest.take more)) =
      BlockComment.render L o.indent o.opening closing lang.blockGutter
        (line :: rest.take more) := by
  obtain ⟨-, hLine, hIndent, hOpening, -, rfl⟩ := (block?_eq_some_iff hLang).mp hBlock
  rw [hOpening] at hSpaced ⊢
  rw [hLang.gutter]
  rcases blockMore?_eq_some_iff.mp hMore with ⟨-, rfl⟩ |
    ⟨hFirst, middle, last, behind, rfl, hMiddle, -, rfl⟩
  · rfl
  · have hTake : (middle ++ last :: behind).take (middle.length + 1) = middle ++ [last] := by
      rw [List.take_append, List.take_of_length_le (by omega)]
      simp
    rw [hTake] at hSpaced hFeed ⊢
    rw [BlockComment.lineTexts_eq] at hSpaced
    subst hLine
    rw [BlockComment.render_eq_renderLines]
    exact BlockComment.render_renderLines L hIndent hFirst hMiddle hFeed hSpaced

/-- A rewrapped block comment is read back as a comment and not changed, and neither are the lines
behind it. The lines behind it are read as they would be by themselves. -/
theorem renderLines_append_block (after : List Text) :
    renderLines L lang (BlockComment.render L o.indent o.opening closing lang.blockGutter
        (line :: rest.take more) ++ after) =
      BlockComment.render L o.indent o.opening closing lang.blockGutter (line :: rest.take more) ++
        renderLines L lang after := by
  have hSame := render_render_block L hLang hBlock hMore hFeed hSpaced
  obtain ⟨first, taken, p, hForm, hAgain, hIndent, hOpening, hFound⟩ :=
    exists_block_render L hLang hBlock hMore hFeed
  rw [hForm] at hSame ⊢
  rw [List.cons_append, renderLines_block hAgain (hFound after), List.take_left, List.drop_left,
    hIndent, hOpening, hSame]

end Reading

end Source

end Reflow
