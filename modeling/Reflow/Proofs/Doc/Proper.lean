import Reflow.Proofs.Doc.Conservation
import Reflow.Proofs.Doc.Stanza

/-!
What the parser promises of the blocks it reads from single-spaced lines: a paragraph is text, the
items of a list are all numbered or all not, and the lines of code have no indentation in common.
-/

namespace Reflow.Doc

/-- A line of text with single spaces between its words. At its edges there may be blanks, as they
are trimmed before it is wrapped. -/
structure IsTextLine (l : Text) : Prop where
  spaced : SingleSpaced l
  visible : Text.allBlank l = false
  feed : '\n' ∉ l

/-- One paragraph of single-spaced text, on lines of its own. Without a blank line among them, it is
wrapped as one. -/
def IsProse (t : Text) : Prop := ∃ ls, ls ≠ [] ∧ t = Text.unlines ls ∧ ∀ l ∈ ls, IsTextLine l

/-- What the parser promises of an item: its number is one, it is of the kind of its list, and each
of its paragraphs is prose. There is one at least. -/
structure Item.Proper (numbered : Bool) (item : Item) : Prop where
  number : ProperNumber item.number
  kind : item.number.isSome = numbered
  ne_nil : item.paragraphs ≠ []
  prose : ∀ p ∈ item.paragraphs, IsProse (Inline.flatten p)

/-- What the parser promises of a block that was read from single-spaced lines. -/
def Block.Proper : Block → Prop
  | .paragraph p => IsProse (Inline.flatten p)
  | .heading p => Inline.flatten p ≠ [] ∧ Text.trim (Inline.flatten p) = Inline.flatten p
  | .code ls => IsCode ls
  | .list l => l.items ≠ [] ∧ ∃ numbered, ∀ item ∈ l.items, item.Proper numbered

/-- A line of a span: blank, or text that is no decoration. Decorations have been taken out of a
comment before it is parsed. -/
def IsSpanLine (l : Text) : Prop := l = [] ∨ IsTextLine l ∧ isDecoration l = false

theorem isSpanLine_eraseBlank {l : Text} (hSpaced : SingleSpaced l) (hFeed : '\n' ∉ l)
    (hPlain : isDecoration l = false) : IsSpanLine (eraseBlank l) := by
  unfold eraseBlank
  split
  · exact Or.inl rfl
  next hVisible => exact Or.inr ⟨⟨hSpaced, by simpa using hVisible, hFeed⟩, hPlain⟩

theorem IsSpanLine.isTextLine {l : Text} (h : IsSpanLine l) (hNe : l ≠ []) : IsTextLine l :=
  (h.resolve_left hNe).1

theorem IsTextLine.ne_nil {l : Text} (h : IsTextLine l) : l ≠ [] := by
  rintro rfl
  cases h.visible

/-- Part of a line of text is text, if it is not blank. What stands behind a bullet or a number sign
is such a part. -/
theorem IsTextLine.of_isInfix {l t : Text} (h : IsTextLine l) (hInfix : t <:+: l)
    (hVisible : Text.allBlank t = false) : IsTextLine t :=
  ⟨h.spaced.of_isInfix hInfix, hVisible, fun hMem => h.feed (hInfix.subset hMem)⟩

theorem allBlank_trim (t : Text) : Text.allBlank (Text.trim t) = Text.allBlank t := by
  rw [Bool.eq_iff_iff, ← Text.trim_eq_nil_iff, ← Text.trim_eq_nil_iff, Text.trim_trim]

theorem IsTextLine.trim {l : Text} (h : IsTextLine l) : IsTextLine (Text.trim l) :=
  h.of_isInfix (Text.trim_isInfix_self l) (by rw [allBlank_trim]; exact h.visible)

/-- A heading has text behind its number sign, since a number sign alone does not make one. -/
theorem trim_drop_heading_ne_nil {l : Text} (h : isHeading l = true) :
    Text.trim (l.drop 1) ≠ [] := by
  intro hNil
  simp only [isHeading, Bool.and_eq_true, bne_iff_ne, ne_eq] at h
  obtain ⟨hStarts, hMore⟩ := h
  unfold startsHeading at hStarts
  split at hStarts
  next c rest =>
    have hBlank : ∀ d ∈ c :: rest, isBlank d = true :=
      Text.allBlank_iff.mp (Text.trim_eq_nil_iff.mp hNil)
    have hTrim := Text.trim_append [] ['#'] (c :: rest) (List.forall_mem_nil _) hBlank
    exact hMore (hTrim.trans rfl)
  · cases hStarts

section Lists

/-- What the entries of a list hold: proper numbers, all of one kind, and text. -/
def Entry.Proper (numbered : Bool) : Entry → Prop
  | .item number t => ProperNumber number ∧ number.isSome = numbered ∧ IsTextLine t
  | .text t => IsTextLine t
  | .blank => True

/-- What a list marker looks like: a bullet, or digits with a dot or a parenthesis. Behind either
there is a gap, and what follows is left to the item. -/
theorem ofLine?_cases {line rest : Text} {marker : ListMarker}
    (h : ListMarker.ofLine? line = some (marker, rest)) :
    ListMarker.isRest rest = true ∧
      ((∃ c, marker = .bullet c ∧ ListMarker.isBulletChar c = true ∧ line = c :: rest) ∨
        ∃ n d, marker = .number n ∧ n ≠ [] ∧ (∀ c ∈ n, isAsciiDigit c = true) ∧
          (d = '.' ∨ d = ')') ∧ line = n ++ d :: rest) := by
  unfold ListMarker.ofLine? at h
  split at h
  · cases h
  next c t =>
    split at h
    next hBullet =>
      split at h
      next hRest =>
        cases h
        exact ⟨hRest, Or.inl ⟨c, rfl, hBullet, rfl⟩⟩
      · cases h
    · dsimp only at h
      split at h
      · cases h
      next d after hDrop =>
        split at h
        next hMark =>
          cases h
          simp only [Bool.and_eq_true, Bool.not_eq_true', List.isEmpty_eq_false_iff,
            Bool.or_eq_true, beq_iff_eq] at hMark
          obtain ⟨⟨hNe, hDot⟩, hRest⟩ := hMark
          refine ⟨hRest, Or.inr ⟨_, d, rfl, hNe, fun e he => List.mem_takeWhile_imp he, hDot, ?_⟩⟩
          rw [← hDrop, List.takeWhile_append_dropWhile]
        · cases h

/-- The text behind a marker is part of the line, and a number is made of digits. -/
theorem marker_cases {line rest : Text} {marker : ListMarker}
    (h : ListMarker.ofLine? line = some (marker, rest)) :
    rest <:+: line ∧ ProperNumber marker.number? ∧ marker.number?.isSome = marker.isNumber := by
  obtain ⟨-, ⟨c, rfl, -, rfl⟩ | ⟨n, d, rfl, hNe, hDigits, -, rfl⟩⟩ := ofLine?_cases h
  · exact ⟨(List.suffix_cons c rest).isInfix, nofun, rfl⟩
  · refine ⟨((List.suffix_cons d rest).trans (List.suffix_append n (d :: rest))).isInfix, ?_, rfl⟩
    intro m hm
    obtain rfl := Option.some.inj hm
    exact ⟨hNe, hDigits⟩

/-- An entry that is read from a line of a span is proper, in a list of either kind. -/
theorem proper_ofLine (numbered : Bool) (indent : Nat) {l : Text} (hl : IsSpanLine l) :
    (Entry.ofLine numbered indent l).Proper numbered := by
  have hWhole :
      Entry.Proper numbered (if (Text.trim l).isEmpty then .blank else .text (Text.trim l)) := by
    split
    · trivial
    next hNe =>
      refine (hl.isTextLine ?_).trim
      rintro rfl
      exact hNe rfl
  unfold Entry.ofLine
  split
  · exact hWhole
  next marker rest hItem =>
    split
    next hOwn =>
      obtain ⟨hMarker, hVisible⟩ := Option.filter_eq_some_iff.mp hItem
      obtain ⟨hRest, hNumber, hKind⟩ := marker_cases hMarker
      have hInfix : rest <:+: l := hRest.trans (Text.trim_isInfix_self l)
      have hBlank : Text.allBlank rest = false := by simpa using hVisible
      have hText : IsTextLine l := hl.isTextLine fun hNil => by
        rw [hNil, List.infix_nil] at hInfix
        rw [hInfix] at hBlank
        cases hBlank
      simp only [Bool.and_eq_true, beq_iff_eq] at hOwn
      exact ⟨hNumber, hKind.trans hOwn.1, (hText.of_isInfix hInfix hBlank).trim⟩
    · exact hWhole

/-- Items that are gathered from proper entries are proper. -/
theorem proper_of_mem_ofEntries {numbered : Bool} {entries : List Entry}
    (h : ∀ e ∈ entries, e.Proper numbered) {item : Item} (hItem : item ∈ Item.ofEntries entries) :
    item.Proper numbered := by
  obtain ⟨first, run, hFirst, -⟩ := exists_entries_of_mem_ofEntries hItem
  obtain ⟨hNumber, hKind, -⟩ := h _ hFirst
  refine ⟨hNumber, hKind, paragraphs_ne_nil_of_mem_ofEntries hItem, fun p hp => ?_⟩
  obtain ⟨texts, hNe, hFlatten, hTexts⟩ := exists_texts_of_mem_ofEntries hItem hp
  refine ⟨texts, hNe, hFlatten, fun t ht => ?_⟩
  obtain ⟨e, he, hText⟩ := hTexts t ht
  have hEntry := h e he
  cases e with
  | item number s => exact Option.some.inj hText ▸ hEntry.2.2
  | text s => exact Option.some.inj hText ▸ hEntry
  | blank => cases hText

end Lists

section Code

theorem commonStart_append (front a b : Text) :
    commonStart (front ++ a) (front ++ b) = front ++ commonStart a b := by
  induction front with
  | nil => rfl
  | cons c front ih =>
      rw [List.cons_append, List.cons_append, commonStart, if_pos rfl, ih, List.cons_append]

theorem foldl_commonStart_append (front : Text) (indents : List Text) (indent : Text) :
    (indents.map (front ++ ·)).foldl commonStart (front ++ indent) =
      front ++ indents.foldl commonStart indent := by
  induction indents generalizing indent with
  | nil => rfl
  | cons j indents ih =>
      rw [List.map_cons, List.foldl_cons, commonStart_append, ih, List.foldl_cons]

/-- A line of code is the indentation that the lines share and what is kept of it, so the
indentation can be put back. -/
theorem sharedIndent_append_drop {ls : List Text} {l : Text} (hl : l ∈ ls) (hNe : l ≠ []) :
    sharedIndent ls ++ l.drop (sharedIndent ls).length = l ∧
    ∀ c ∈ sharedIndent ls, isGap c = true := by
  have hIndent := sharedIndent_isPrefix hl hNe
  refine ⟨?_, fun c hc => List.mem_takeWhile_imp (hIndent.subset hc)⟩
  obtain ⟨rest, hRest⟩ := hIndent.trans (List.takeWhile_prefix isGap)
  generalize sharedIndent ls = shared at hRest
  rw [← hRest, List.drop_left]

theorem trim_drop_sharedIndent {ls : List Text} {l : Text} (hl : l ∈ ls) :
    Text.trim (l.drop (sharedIndent ls).length) = Text.trim l := by
  by_cases hNe : l = []
  · rw [hNe, List.drop_nil]
  · obtain ⟨hSplit, hGap⟩ := sharedIndent_append_drop hl hNe
    have hTrim := Text.trim_append_left (fun c hc => isBlank_of_isGap (hGap c hc))
      (l.drop (sharedIndent ls).length)
    rwa [hSplit, eq_comm] at hTrim

theorem isDecoration_eq_of_trim {a b : Text} (h : Text.trim a = Text.trim b) :
    isDecoration a = isDecoration b := by
  rw [isDecoration, isDecoration, h]

theorem allBlank_eq_of_trim {a b : Text} (h : Text.trim a = Text.trim b) :
    Text.allBlank a = Text.allBlank b := by
  rw [← allBlank_trim a, h, allBlank_trim]

/-- Only a line that was empty is empty without the shared indentation. A line of blanks could be so
too, which is why there are none. -/
theorem isEmpty_drop_sharedIndent {ls : List Text} (hls : ∀ l ∈ ls, Text.allBlank l = true → l = [])
    {l : Text} (hl : l ∈ ls) : (l.drop (sharedIndent ls).length).isEmpty = l.isEmpty := by
  cases hNil : (l.drop (sharedIndent ls).length).isEmpty with
  | false =>
      rw [eq_comm, List.isEmpty_eq_false_iff]
      rintro rfl
      rw [List.drop_nil] at hNil
      cases hNil
  | true =>
      have hBlank := allBlank_eq_of_trim (trim_drop_sharedIndent hl)
      rw [List.isEmpty_iff.mp hNil] at hBlank
      rw [hls l hl hBlank.symm]
      rfl

/-- The indentation of each line is the shared one and what is left of it, for all lines that are
not empty. -/
theorem map_takeWhile_unindent {ls : List Text} (hls : ∀ l ∈ ls, Text.allBlank l = true → l = []) :
    (ls.filter (!List.isEmpty ·)).map (fun l => l.takeWhile isGap) =
      (((unindent ls).filter (!List.isEmpty ·)).map fun l => l.takeWhile isGap).map
        (sharedIndent ls ++ ·) := by
  have hFilter : (unindent ls).filter (!List.isEmpty ·) =
      (ls.filter (!List.isEmpty ·)).map (·.drop (sharedIndent ls).length) := by
    rw [unindent, List.filter_map]
    congr 1
    exact List.filter_congr fun l hl => by simp [isEmpty_drop_sharedIndent hls hl]
  rw [hFilter, List.map_map, List.map_map]
  refine List.map_congr_left fun l hl => ?_
  obtain ⟨hl, hNe⟩ := List.mem_filter.mp hl
  obtain ⟨hSplit, hGap⟩ := sharedIndent_append_drop hl (by simpa using hNe)
  conv => lhs; rw [← hSplit]
  exact List.takeWhile_append_of_pos hGap

/-- Without the indentation that they share, lines share no more indentation, so taking it off a
second time does nothing. -/
theorem sharedIndent_unindent {ls : List Text} (hls : ∀ l ∈ ls, Text.allBlank l = true → l = []) :
    sharedIndent (unindent ls) = [] := by
  have hIndents := map_takeWhile_unindent hls
  cases hOwn : ((unindent ls).filter (!List.isEmpty ·)).map fun l => l.takeWhile isGap with
  | nil => rw [sharedIndent, hOwn]
  | cons indent indents =>
      have hShared : sharedIndent ls =
          (indents.map (sharedIndent ls ++ ·)).foldl commonStart (sharedIndent ls ++ indent) := by
        rw [hOwn, List.map_cons] at hIndents
        conv => lhs; rw [sharedIndent, hIndents]
      rw [foldl_commonStart_append] at hShared
      rw [sharedIndent, hOwn]
      exact List.self_eq_append_right.mp hShared

/-- The lines of a code span without the indentation that they share are a listing, ready to be
written behind tabs. -/
theorem isListing_unindent {s : Span} (hs : s.Sound) (hKind : s.kind = .code)
    (hBlank : ∀ l ∈ s.lines, Text.allBlank l = true → l = []) : IsListing (unindent s.lines) := by
  have hDrop : ∀ l ∈ s.lines, l.drop (sharedIndent s.lines).length = [] → l = [] := by
    intro l hl hNil
    apply hBlank l hl
    rw [← allBlank_eq_of_trim (trim_drop_sharedIndent hl), hNil]
    rfl
  refine ⟨?_, ?_, ?_, sharedIndent_unindent hBlank⟩
  · obtain ⟨l, rest, hCons, hItem⟩ := hs.code hKind
    obtain ⟨m, others, hFirst, hNe⟩ := hs.first
    have hl : l ∈ s.lines := by simp [hCons]
    obtain ⟨rfl, rfl⟩ := List.cons.inj (hFirst.symm.trans hCons)
    have hSplit : unindent s.lines = m.drop (sharedIndent s.lines).length ::
        others.map (·.drop (sharedIndent s.lines).length) := by
      conv => lhs; rw [unindent, hCons, List.map_cons, ← hCons]
    rw [hSplit]
    refine ⟨_, _, rfl, fun hNil => hNe (hDrop m hl hNil), ?_⟩
    rw [isItem_eq_of_trim (trim_drop_sharedIndent hl)]
    exact hItem
  · intro hLast
    rw [unindent, List.getLast?_map, Option.map_eq_some_iff] at hLast
    obtain ⟨l, hl, hNil⟩ := hLast
    exact hs.last (hDrop l (List.mem_of_getLast? hl) hNil ▸ hl)
  · intro m hm hVisible
    obtain ⟨l, hl, rfl⟩ := List.mem_map.mp hm
    rw [allBlank_eq_of_trim (trim_drop_sharedIndent hl)] at hVisible
    rw [hBlank l hl hVisible, List.drop_nil]

theorem isCode_unindent {s : Span} (hs : s.Sound) (hKind : s.kind = .code)
    (hLines : ∀ l ∈ s.lines, IsSpanLine l) : IsCode (unindent s.lines) := by
  constructor
  · apply isListing_unindent hs hKind
    intro l hl hBlank
    rcases hLines l hl with hNil | ⟨hText, -⟩
    · exact hNil
    · rw [hText.visible] at hBlank
      cases hBlank
  · intro m hm
    obtain ⟨l, hl, rfl⟩ := List.mem_map.mp hm
    rw [isDecoration_eq_of_trim (trim_drop_sharedIndent hl)]
    rcases hLines l hl with rfl | ⟨-, hPlain⟩
    · rfl
    · exact hPlain

end Code

/-- The block of a span of single-spaced lines is proper. The span has to be sound, which every span
of a comment is. -/
theorem proper_ofSpan (detached : Bool) {s : Span} (hs : s.Sound)
    (hLines : ∀ l ∈ s.lines, IsSpanLine l) : (Block.ofSpan detached s).Proper := by
  cases hKind : s.kind with
  | paragraph =>
      simp only [Block.ofSpan, hKind, Block.Proper, Inline.flatten_parse]
      obtain ⟨l, rest, hCons, -⟩ := hs.first
      refine ⟨s.lines, by simp [hCons], rfl, fun m hm => ?_⟩
      exact (hLines m hm).isTextLine (hs.paragraph hKind m hm)
  | heading =>
      obtain ⟨l, hCons, hHeading⟩ := hs.heading hKind
      simp only [Block.ofSpan, hKind, Block.Proper, Inline.flatten_parse, hCons, List.head?_cons,
        Option.getD_some, Text.trim_trim, and_true]
      exact trim_drop_heading_ne_nil hHeading
  | code =>
      simp only [Block.ofSpan, hKind, Block.Proper]
      exact isCode_unindent hs hKind hLines
  | list =>
      obtain ⟨l, rest, hCons, hItem⟩ := hs.list hKind
      obtain ⟨⟨marker, after⟩, hSome⟩ := Option.isSome_iff_exists.mp hItem
      simp only [Block.ofSpan, hKind, Block.Proper]
      have hEntries : ∀ e ∈ s.lines.map (Entry.ofLine ((item? (s.lines.head?.getD [])).any
          fun item => item.1.isNumber) (indentWidth (s.lines.head?.getD []))), e.Proper
            ((item? (s.lines.head?.getD [])).any fun item => item.1.isNumber) := by
        intro e he
        obtain ⟨m, hm, rfl⟩ := List.mem_map.mp he
        exact proper_ofLine _ _ (hLines m hm)
      refine ⟨?_, _, fun item => proper_of_mem_ofEntries hEntries⟩
      simp [ItemList.ofLines, hCons, Entry.ofLine, hSome, Item.ofEntries]

/-- The blocks of a comment with single-spaced lines are proper. Decorations and line feeds are
excluded, as none can be in the contents of a piece. -/
theorem proper_of_mem_parse {lines : List Text}
    (h : ∀ l ∈ lines, SingleSpaced l ∧ '\n' ∉ l ∧ isDecoration l = false) {b : Block}
    (hb : b ∈ parse lines) : b.Proper := by
  obtain ⟨s, hs, detached, rfl⟩ := exists_span_of_mem_blocksFrom hb
  apply proper_ofSpan detached (sound_of_mem_spansFrom hs)
  intro l hl
  by_cases hNil : l = []
  · exact Or.inl hNil
  · have hMem := mem_of_mem_spansFrom hs hl
    obtain ⟨source, hSource, rfl⟩ := List.mem_map.mp hMem
    obtain ⟨hSpaced, hFeed, hPlain⟩ := h source hSource
    exact isSpanLine_eraseBlank hSpaced hFeed hPlain

end Reflow.Doc
