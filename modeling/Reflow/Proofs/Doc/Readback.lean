import Reflow.Proofs.Doc.Section

/-!
Reading a printed page again. Each section of it, prose, code or a run of items, is found again as
one span. If all spans are legible the page is written as it stands; the first span that is not
legible makes the new page part from the old one.
-/

namespace Reflow.Doc

/-- Reading lines again from index `start` on, behind a span that ends before `stop`, writes them as
they stand exactly when their spans are legible. Where the span before ends tells whether a blank
line stands above the first block. -/
def Rereads (L : Layout) (bare : Text) (start stop : Nat) (ls : List Text) : Prop :=
  Recovers (SpansLegible (spansFrom start 0 ls))
    (blocksLines L bare (blocksFrom stop (spansFrom start 0 ls))) (ls.map (commentLine bare))

variable {L : Layout} {bare : Text}

theorem exists_blocksLines_eq (L : Layout) (bare : Text) (b : Block) (bs : List Block) :
    ∃ rest, blocksLines L bare (b :: bs) = blockLines L bare b ++ rest := by
  cases bs with
  | nil => exact ⟨[], (List.append_nil _).symm⟩
  | cons c bs => exact ⟨_, by rw [blocksLines, List.append_assoc]⟩

/-- A first span that is not legible makes the lines part. The spans behind it need not be looked
at. -/
theorem rereads_of_first {start stop : Nat} {ls : List Text} {s : Span} {ss : List Span}
    (hSpans : spansFrom start 0 ls = s :: ss) (hFirst : ¬s.Legible)
    (hParts : ∀ detached xs ys,
      blockLines L bare (Block.ofSpan detached s) ++ xs ≠ ls.map (commentLine bare) ++ ys) :
    Rereads L bare start stop ls := by
  rw [Rereads, hSpans, blocksFrom]
  obtain ⟨rest, hLines⟩ := exists_blocksLines_eq L bare (Block.ofSpan (stop < s.start) s)
    (blocksFrom s.stop ss)
  refine Recovers.of_parts (fun hLegible => hFirst (hLegible.1 s List.mem_cons_self))
    fun xs ys => ?_
  rw [hLines, List.append_assoc]
  exact hParts _ _ _

/-- A line that is not blank starts a span, whose kind its extent tells. -/
theorem exists_spansFrom_eq_cons (start : Nat) {l : Text} (hl : l ≠ []) (rest : List Text) :
    ∃ ls ss, spansFrom start 0 (l :: rest) =
      { kind := (extent 0 l rest).kind, start, lines := l :: ls } :: ss := by
  rw [spansFrom, if_neg (by simpa using hl)]
  exact ⟨_, _, rfl⟩

theorem needsSeparator_detached (b : Block) (s : Span) :
    needsSeparator b (Block.ofSpan true s) = true := by
  unfold Block.ofSpan
  cases b with
  | paragraph p => cases s.kind <;> rfl
  | _ => rfl

/-- A section above a blank line and a section that is read again. A blank line is always written
back, so the two do not touch. -/
theorem rereads_append_blank {start stop : Nat} {ls below : List Text} {s : Span} {l : Text}
    {rest : List Text} (hBelow : below = l :: rest) (hl : l ≠ [])
    (hSpans : spansFrom start 0 (ls ++ [] :: below) = s :: spansFrom s.stop 0 ([] :: below))
    (hBlock : ∀ detached, Recovers s.Legible (blockLines L bare (Block.ofSpan detached s))
      (ls.map (commentLine bare)))
    (hRest : Rereads L bare (s.stop + 1) s.stop below) :
    Rereads L bare start stop (ls ++ [] :: below) := by
  obtain ⟨t, ts, hFirst, hStart⟩ : ∃ t ts, spansFrom (s.stop + 1) 0 below = t :: ts ∧
      t.start = s.stop + 1 := by
    obtain ⟨ls, ts, hFirst⟩ := exists_spansFrom_eq_cons (s.stop + 1) hl rest
    rw [← hBelow] at hFirst
    exact ⟨_, ts, hFirst, rfl⟩
  have hDetached : decide (s.stop < t.start) = true := by
    rw [hStart]
    simp
  rw [Rereads, hFirst, blocksFrom, hDetached] at hRest
  rw [Rereads, hSpans, spansFrom_nil_cons, hFirst, blocksFrom, blocksFrom, hDetached, blocksLines,
    needsSeparator_detached, if_pos rfl, List.map_append, List.append_assoc, List.map_cons,
    commentLine_nil]
  have hClears : ∀ u, (t :: ts).head? = some u → s.Clears u := by
    intro u hu _ _
    rw [← Option.some.inj hu, hStart]
    exact Nat.lt_succ_self _
  refine ((hBlock _).append (hRest.append_left [bare])).congr ⟨fun h => ?_, fun h => ?_⟩
  · exact spansLegible_cons.mpr ⟨h.1, hClears, h.2⟩
  · obtain ⟨hOwn, -, hOthers⟩ := spansLegible_cons.mp h
    exact ⟨hOwn, hOthers⟩

/-- The last section, below which there is nothing. -/
theorem rereads_last {start stop : Nat} {ls : List Text} {s : Span}
    (hSpans : spansFrom start 0 ls = [s])
    (hBlock : ∀ detached, Recovers s.Legible (blockLines L bare (Block.ofSpan detached s))
      (ls.map (commentLine bare))) : Rereads L bare start stop ls := by
  rw [Rereads, hSpans, blocksFrom, blocksFrom, blocksLines]
  refine (hBlock _).congr ?_
  rw [spansLegible_cons]
  exact ⟨fun h => ⟨h, by simp, spansLegible_nil⟩, fun h => h.1⟩

/-- A section above the rest of a page, from which a blank line sets it apart. All sections but a
paragraph above a list are joined to a page in this way. -/
theorem rereads_section {start stop : Nat} {ls : List Text} {s : Span} {page : List (Bool × Stanza)}
    (hSpans : spansFrom start 0 (ls ++ pageLines page) = s :: spansFrom s.stop 0 (pageLines page))
    (hBlock : ∀ detached, Recovers s.Legible (blockLines L bare (Block.ofSpan detached s))
      (ls.map (commentLine bare)))
    (hSound : ∀ p ∈ page, p.2.Sound L bare)
    (hApart : ∀ p, page.head? = some p → p.1 = true)
    (hRest : ∀ t rest, page = (true, t) :: rest → ∀ start stop,
      Rereads L bare start stop (t.lines ++ pageLines rest)) :
    Rereads L bare start stop (ls ++ pageLines page) := by
  cases page with
  | nil =>
      have hNil : pageLines [] = [] := rfl
      rw [hNil, List.append_nil, spansFrom] at hSpans
      rw [hNil, List.append_nil]
      exact rereads_last hSpans hBlock
  | cons p rest =>
      obtain ⟨apart, t⟩ := p
      obtain rfl : apart = true := hApart _ rfl
      obtain ⟨⟨x, xs, hLines, hx⟩, -⟩ := Stanza.edges (hSound _ List.mem_cons_self)
      have hPage : pageLines ((true, t) :: rest) = [] :: (t.lines ++ pageLines rest) := rfl
      rw [hPage] at hSpans ⊢
      exact rereads_append_blank (by rw [hLines, List.cons_append]) hx hSpans hBlock
        (hRest t rest rfl _ _)

/-- The first line of a list that is read stands behind two spaces and a bullet, wherever it stood
before. -/
theorem exists_head_listLines (L : Layout) (bare : Text) (detached : Bool) {l : Text}
    (hItem : isItem l = true) (rest : List Text) :
    ∃ c x xs, listLines L bare (ItemList.ofLines detached (l :: rest)) =
      (textMargin bare ++ (' ' :: ' ' :: c :: x)) :: xs ∧ isBlank c = false := by
  obtain ⟨⟨marker, after⟩, hSome⟩ := Option.isSome_iff_exists.mp hItem
  obtain ⟨-, hNumber, -⟩ := marker_cases (Option.filter_eq_some_iff.mp hSome).1
  have hEntry : Entry.ofLine marker.isNumber (indentWidth l) l =
      .item marker.number? (Text.trim after) := by
    simp [Entry.ofLine, hSome]
  obtain ⟨p, ps, hParagraphs⟩ := List.exists_cons_of_ne_nil (itemParagraphs_ne_nil (Text.trim after)
    ((rest.map (Entry.ofLine marker.isNumber (indentWidth l))).takeWhile (!Entry.isItem ·)))
  obtain ⟨c, m, hBullet, hc, -⟩ := exists_bullet_eq_cons hNumber
  obtain ⟨x, xs, hWrap⟩ :=
    exists_head_wrap L (textMargin bare ++ [' ', ' '] ++ bullet marker.number?)
    (textMargin bare ++ hang marker.number?) (Inline.flatten p)
  have hLine : textMargin bare ++ [' ', ' '] ++ bullet marker.number? ++ x =
      textMargin bare ++ (' ' :: ' ' :: c :: (m ++ x)) := by
    rw [hBullet]
    simp
  have hItems : (ItemList.ofLines detached (l :: rest)).items =
      { number := marker.number?, paragraphs := p :: ps } ::
        Item.ofEntries (rest.map (Entry.ofLine marker.isNumber (indentWidth l))) := by
    simp [ItemList.ofLines, hSome, hEntry, Item.ofEntries, hParagraphs]
  have hFirst : bulletText { number := marker.number?, paragraphs := p :: ps } =
      bullet marker.number? := rfl
  have hHang : List.replicate (2 + (bullet marker.number?).length) ' ' = hang marker.number? := rfl
  rw [listLines, hItems]
  simp only [itemLines, hFirst, hHang, hWrap, hLine, List.cons_append]
  exact ⟨c, m ++ x, _, rfl, hc⟩

/-- A list whose first line does not stand behind two spaces and a bullet is written another way,
and its first line tells. -/
theorem parts_of_listLines (detached : Bool) {l : Text} (hItem : isItem l = true) (rest : List Text)
    {ms : List Text} (hLine : ∀ c x, isBlank c = false → l ≠ ' ' :: ' ' :: c :: x)
    (hMargin : commentLine bare l = textMargin bare ++ l) (xs ys : List Text) :
    listLines L bare (ItemList.ofLines detached (l :: rest)) ++ xs ≠
      (l :: ms).map (commentLine bare) ++ ys := by
  obtain ⟨c, x, after, hHead, hc⟩ := exists_head_listLines L bare detached hItem rest
  rw [hHead, List.map_cons, hMargin]
  refine parts_of_head_ne (fun hEq => hLine c x hc ?_) _ _ _ _
  exact (List.append_cancel_left hEq).symm

theorem kind_extent_of_isItem {l : Text} (hItem : isItem l = true) (rest : List Text) :
    (extent 0 l rest).kind = .list := by
  rw [extent]
  split
  · simp [indentedExtent, hItem]
  · rfl

theorem kind_extent_of_isIndented {l : Text} (hIndented : isIndented l = true)
    (hItem : isItem l = false) (rest : List Text) : (extent 0 l rest).kind = .code := by
  rw [extent, if_pos (by simp [hIndented])]
  simp [indentedExtent, hItem]

/-- A first line that is an item, but not behind two spaces, is not found again. Such a line is the
beginning of a paragraph that wrapping has broken before a dash or a number. -/
theorem rereads_of_isItem {start stop : Nat} {l : Text} {rest : List Text} (hItem : isItem l = true)
    (hWidth : indentWidth l ≠ 2) (hMargin : commentLine bare l = textMargin bare ++ l) :
    Rereads L bare start stop (l :: rest) := by
  have hNe : l ≠ [] := by
    rintro rfl
    cases hItem
  obtain ⟨ls, ss, hSpans⟩ := exists_spansFrom_eq_cons start hNe rest
  rw [kind_extent_of_isItem hItem] at hSpans
  apply rereads_of_first hSpans
  · exact fun hLegible => hWidth (hLegible.2 rfl).1
  · intro detached
    refine parts_of_listLines detached hItem ls (fun c x hc hLine => hWidth ?_) hMargin
    rw [hLine]
    exact indentWidth_replicate_append 2 fun d hd => Option.some.inj hd ▸ hc

/-- The rest of an item, cut off from its bullet, is not found again: it is read as code or as a
list of its own. In both cases its first line gets another indentation. -/
theorem rereads_of_hung {start stop : Nat} {l : Text} {rest : List Text} (h : Hung l) :
    Rereads L bare start stop (l :: rest) := by
  obtain ⟨t, hLine⟩ := h.exists_eq_cons
  have hNe : l ≠ [] := by simp [hLine]
  have hMargin : commentLine bare l = textMargin bare ++ l :=
    commentLine_of_head hNe (by simp [hLine])
  cases hItem : isItem l with
  | true => exact rereads_of_isItem hItem h.indentWidth_ne hMargin
  | false =>
      obtain ⟨ls, ss, hSpans⟩ := exists_spansFrom_eq_cons start hNe rest
      have hIndented : isIndented l = true := by
        rw [hLine]
        rfl
      rw [kind_extent_of_isIndented hIndented hItem] at hSpans
      apply rereads_of_first hSpans
      · intro hLegible
        have hTab : l.head? = some '\t' := hLegible.1 rfl
        simp [hLine] at hTab
      · intro detached xs ys
        have hKept : l.drop (sharedIndent (l :: ls)).length ≠ [] := by
          intro hNil
          have hTrim := trim_drop_sharedIndent (List.mem_cons_self (a := l) (l := ls))
          rw [hNil] at hTrim
          have hBlank := allBlank_eq_of_trim hTrim
          rw [h.allBlank_eq_false] at hBlank
          cases hBlank
        show blockLines L bare (.code (unindent (l :: ls))) ++ xs ≠ _
        rw [blockLines, unindent, List.map_cons, List.map_cons, if_neg (by simpa using hKept),
          List.map_cons, hMargin, hLine, textMargin, List.append_assoc]
        refine parts_of_head_ne (fun hEq => ?_) _ _ _ _
        exact absurd (List.cons.inj (List.append_cancel_left hEq)).1 (by decide)

section Blocks

variable {start : Nat} {detached : Bool}

theorem legible_of_kind {s : Span} (hCode : s.kind ≠ .code) (hList : s.kind ≠ .list) : s.Legible :=
  ⟨fun h => absurd h hCode, fun h => absurd h hList⟩

/-- A paragraph is written as it stands, since it is filled already. -/
theorem recovers_paragraph {ls : List Text} (h : Filled L (textMargin bare) ls) :
    Recovers (Span.Legible ⟨.paragraph, start, ls⟩)
      (blockLines L bare (Block.ofSpan detached ⟨.paragraph, start, ls⟩))
      (ls.map (commentLine bare)) := by
  apply Recovers.of_eq (legible_of_kind (by simp) (by simp))
  obtain ⟨l, rest, rfl⟩ := List.exists_cons_of_ne_nil h.ne_nil
  have hMargin : (l :: rest).map (commentLine bare) = (l :: rest).map (textMargin bare ++ ·) :=
    List.map_congr_left fun m hm => commentLine_of_filled h bare hm
  show wrap L (textMargin bare) (textMargin bare) (Inline.flatten (Inline.parse _)) = _
  rw [Inline.flatten_parse, h.wrap_unlines rfl, hMargin]
  rfl

/-- A heading is written as it stands, also if it is wider than the page. -/
theorem recovers_heading {t : Text} (hTrim : Text.trim t = t) :
    Recovers (Span.Legible ⟨.heading, start, ['#' :: ' ' :: t]⟩)
      (blockLines L bare (Block.ofSpan detached ⟨.heading, start, ['#' :: ' ' :: t]⟩))
      (['#' :: ' ' :: t].map (commentLine bare)) := by
  apply Recovers.of_eq (legible_of_kind (by simp) (by simp))
  have hText : Text.trim (' ' :: t) = t := (Text.trim_cons rfl t).trans hTrim
  show [textMargin bare ++ ['#', ' '] ++ Inline.flatten (Inline.parse (Text.trim (' ' :: t)))] = _
  rw [Inline.flatten_parse, hText, List.map_singleton, commentLine_of_head (by simp) (by simp),
    List.append_assoc]
  rfl

/-- A single-spaced line that is a heading has one space behind its number sign, and so is printed
as it is. -/
theorem exists_of_isHeading {l : Text} (hHeading : isHeading l = true) (hSpaced : SingleSpaced l)
    (hTrim : Text.trim l = l) : ∃ t, l = '#' :: ' ' :: t ∧ t ≠ [] ∧ Text.trim t = t := by
  have hStarts : startsHeading l = true := (Bool.and_eq_true_iff.mp hHeading).1
  unfold startsHeading at hStarts
  split at hStarts
  next c t =>
    obtain ⟨hBlank, hChain⟩ := hSpaced
    rw [hTrim] at hBlank hChain
    obtain rfl : c = ' ' := hBlank c (by simp) (isBlank_of_isGap hStarts)
    have hLast := (Text.trim_eq_self_iff.mp hTrim).2
    have hNe : t ≠ [] := by
      rintro rfl
      cases hLast ' ' rfl
    obtain ⟨d, u, rfl⟩ := List.exists_cons_of_ne_nil hNe
    refine ⟨d :: u, rfl, hNe, Text.trim_eq_self_iff.mpr ⟨fun e he => ?_, fun e he => ?_⟩⟩
    · obtain rfl : d = e := Option.some.inj he
      cases hd : isBlank d with
      | false => rfl
      | true =>
          have hSpace : d = ' ' := hBlank d (by simp) hd
          have hNext := (List.isChain_cons_cons.mp (List.isChain_cons_cons.mp hChain).2).1 rfl
          exact absurd hSpace hNext
    · exact hLast e (by rwa [List.getLast?_cons_cons, List.getLast?_cons_cons])
  · cases hStarts

theorem indents_code (ls : List Text) :
    ((Stanza.code ls).lines.filter (!List.isEmpty ·)).map (fun m => m.takeWhile isGap) =
      ((ls.filter (!List.isEmpty ·)).map fun m => m.takeWhile isGap).map (['\t'] ++ ·) := by
  rw [Stanza.lines]
  induction ls with
  | nil => rfl
  | cons m ms ih =>
      cases m with
      | nil => exact ih
      | cons c m => exact congrArg (('\t' :: (c :: m).takeWhile isGap) :: ·) ih

/-- Code that was printed behind tabs loses these and nothing else when it is read. -/
theorem unindent_code {ls : List Text} (h : IsListing ls) :
    unindent (Stanza.code ls).lines = ls := by
  obtain ⟨l, rest, rfl, hNe, -⟩ := h.first
  have hShared : sharedIndent (Stanza.code (l :: rest)).lines = ['\t'] := by
    have hNone := h.indent
    have hKept : ((l :: rest).filter (!List.isEmpty ·)) = l :: rest.filter (!List.isEmpty ·) :=
      List.filter_cons_of_pos (by simpa using hNe)
    rw [sharedIndent, hKept, List.map_cons] at hNone
    rw [sharedIndent, indents_code, hKept, List.map_cons, List.map_cons]
    show List.foldl commonStart (['\t'] ++ _) _ = _
    rw [foldl_commonStart_append]
    exact congrArg (['\t'] ++ ·) hNone
  rw [unindent, hShared, Stanza.lines, List.map_map]
  refine (List.map_congr_left fun m _ => ?_).trans (List.map_id _)
  cases m <;> rfl

/-- Code is written as it stands: its own indentation is kept behind the tab. -/
theorem recovers_code {ls : List Text} (h : IsCode ls) :
    Recovers (Span.Legible ⟨.code, start, (Stanza.code ls).lines⟩)
      (blockLines L bare (Block.ofSpan detached ⟨.code, start, (Stanza.code ls).lines⟩))
      ((Stanza.code ls).lines.map (commentLine bare)) := by
  refine Recovers.of_eq ⟨fun _ => ?_, nofun⟩ ?_
  · obtain ⟨l, rest, rfl, hNe, -⟩ := h.first
    simp [Stanza.lines, hNe]
  · show blockLines L bare (.code (unindent (Stanza.code ls).lines)) = _
    rw [unindent_code h.toIsListing, blockLines_code]

end Blocks

end Reflow.Doc
