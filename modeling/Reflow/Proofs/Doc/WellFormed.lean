import Reflow.Proofs.Doc.Lists

/-!
What the parser promises of its blocks, whatever the lines of the comment are. The printer relies on
it without a look: an item without a paragraph would lose its bullet, a list without items would be
dropped, and code with indentation in common would move to the right each time it is written.
-/

namespace Reflow.Doc

/-- A list with room for what it says: it has items, all numbered or all not, each of them with
something to be seen in every paragraph, and a blank line in it stands between two items or two
paragraphs. Each clause is one that printing relies on. -/
structure ItemList.WellFormed (l : ItemList) : Prop where
  items : l.items ≠ []
  kind :
    (∀ item ∈ l.items, item.number.isSome = true) ∨ ∀ item ∈ l.items, item.number.isSome = false
  paragraphs : ∀ item ∈ l.items, item.paragraphs ≠ []
  visible : ∀ item ∈ l.items, ∀ p ∈ item.paragraphs, Text.allBlank (Inline.flatten p) = false
  loose : l.forceBlankBetween = true →
    2 ≤ l.items.length ∨ ∃ item ∈ l.items, 2 ≤ item.paragraphs.length

/-- Code that starts and ends with a line that is not blank, and neither all of whose lines start
with a space nor all with a tab, blank ones aside. Indentation that all lines share would be taken
off when the code is read again. -/
structure WellFormedCode (ls : List Text) : Prop where
  first : ∃ l, ls.head? = some l ∧ Text.allBlank l = false
  last : ∃ l, ls.getLast? = some l ∧ Text.allBlank l = false
  indent : ∀ c, isGap c = true → ∃ l ∈ ls, Text.allBlank l = false ∧ l.head? ≠ some c

/-- The block has what the printer needs to write it. -/
def Block.WellFormed : Block → Prop
  | .paragraph p => Text.allBlank (Inline.flatten p) = false
  | .heading p => Text.allBlank (Inline.flatten p) = false
  | .code ls => WellFormedCode ls
  | .list l => l.WellFormed

section Code

/-- Where lines share no indentation, no gap stands before all of them. Some line shows it for a
space, and some for a tab. -/
theorem exists_head?_ne_of_sharedIndent {ls : List Text} (hShared : sharedIndent ls = []) {l : Text}
    (hl : l ∈ ls) (hNe : l ≠ []) {c : Char} (hc : isGap c = true) :
    ∃ m ∈ ls, m ≠ [] ∧ m.head? ≠ some c := by
  by_contra hNone
  have hStart : ∀ m ∈ ls.filter (!List.isEmpty ·),
      m.takeWhile isGap = [c] ++ (m.drop 1).takeWhile isGap := by
    intro m hm
    obtain ⟨hMem, hEmpty⟩ := List.mem_filter.mp hm
    cases m with
    | nil => cases hEmpty
    | cons d m =>
        have hd : d = c := by
          by_contra hOther
          exact hNone ⟨d :: m, hMem, by simp, by simpa using hOther⟩
        rw [hd, List.takeWhile_cons_of_pos hc]
        rfl
  have hIndents : (ls.filter (!List.isEmpty ·)).map (fun m => m.takeWhile isGap) =
      ((ls.filter (!List.isEmpty ·)).map fun m => (m.drop 1).takeWhile isGap).map ([c] ++ ·) := by
    rw [List.map_map]
    exact List.map_congr_left hStart
  have hMem : l ∈ ls.filter (!List.isEmpty ·) := List.mem_filter.mpr ⟨hl, by simpa using hNe⟩
  obtain ⟨first, rest, hSome⟩ := List.exists_cons_of_ne_nil (List.ne_nil_of_mem hMem)
  rw [sharedIndent, hIndents, hSome, List.map_cons, List.map_cons] at hShared
  change List.foldl commonStart _ _ = [] at hShared
  rw [foldl_commonStart_append] at hShared
  cases hShared

/-- A listing is well-formed code. It promises more, as its blank lines are empty. -/
theorem IsListing.wellFormed {ls : List Text} (h : IsListing ls) : WellFormedCode ls := by
  have hVisible : ∀ l ∈ ls, l ≠ [] → Text.allBlank l = false := by
    intro l hl hNe
    rw [← Bool.not_eq_true]
    exact fun hBlank => hNe (h.blank l hl hBlank)
  obtain ⟨first, rest, hCons, hNe, -⟩ := h.first
  have hFirst : first ∈ ls := by rw [hCons]; exact List.mem_cons_self
  constructor
  · exact ⟨first, by rw [hCons]; rfl, hVisible first hFirst hNe⟩
  · have hSome := List.getLast?_eq_some_getLast (List.ne_nil_of_mem hFirst)
    refine ⟨_, hSome, hVisible _ (List.getLast_mem _) ?_⟩
    intro hNil
    rw [hNil] at hSome
    exact h.last hSome
  · intro c hc
    obtain ⟨m, hm, hNe, hHead⟩ := exists_head?_ne_of_sharedIndent h.indent hFirst hNe hc
    exact ⟨m, hm, hVisible m hm hNe, hHead⟩

end Code

section Lists

/-- The text of an entry can be seen: a line that is blank behind its marker is no item, and a blank
line has no text. -/
theorem allBlank_of_text?_ofLine {numbered : Bool} {indent : Nat} {l t : Text}
    (h : (Entry.ofLine numbered indent l).text? = some t) : Text.allBlank t = false := by
  have hWhole :
      Entry.text? (if (Text.trim l).isEmpty then .blank else .text (Text.trim l)) = some t →
      Text.allBlank t = false := by
    intro hText
    split at hText
    · cases hText
    next hNe =>
      cases hText
      rw [← Bool.not_eq_true, ← Text.trim_eq_nil_iff, Text.trim_trim]
      simpa using hNe
  rw [Entry.ofLine] at h
  split at h
  · exact hWhole h
  next marker rest hItem =>
    split at h
    · cases h
      rw [allBlank_trim]
      simpa using (Option.filter_eq_some_iff.mp hItem).2
    · exact hWhole h

/-- The items of a list are of the list's kind, since a bullet of the other kind is read as text. -/
theorem isSome_of_ofLine_eq_item {numbered : Bool} {indent : Nat} {l t : Text}
    {number : Option Text}
    (h : Entry.ofLine numbered indent l = .item number t) : number.isSome = numbered := by
  have hWhole : (if (Text.trim l).isEmpty then Entry.blank else .text (Text.trim l)) ≠
      .item number t := by
    split <;> nofun
  rw [Entry.ofLine] at h
  split at h
  · exact absurd h hWhole
  next marker rest hItem =>
    split at h
    next hOwn =>
      cases h
      obtain ⟨-, -, hKind⟩ := marker_cases (Option.filter_eq_some_iff.mp hItem).1
      simp only [Bool.and_eq_true, beq_iff_eq] at hOwn
      exact hKind.trans hOwn.1
    · exact absurd h hWhole

/-- The paragraphs of items can be seen if the texts of the entries can, since a paragraph has a
text. -/
theorem allBlank_of_mem_ofEntries {entries : List Entry}
    (h : ∀ e ∈ entries, ∀ t, e.text? = some t → Text.allBlank t = false) {item : Item}
    (hItem : item ∈ Item.ofEntries entries) {p : List Inline.Span} (hp : p ∈ item.paragraphs) :
    Text.allBlank (Inline.flatten p) = false := by
  obtain ⟨texts, hNe, hFlatten, hTexts⟩ := exists_texts_of_mem_ofEntries hItem hp
  obtain ⟨t, more, rfl⟩ := List.exists_cons_of_ne_nil hNe
  obtain ⟨e, he, hText⟩ := hTexts t List.mem_cons_self
  rw [hFlatten]
  exact allBlank_unlines_eq_false List.mem_cons_self (h e he t hText)

/-- A run of entries in an item has text behind a blank entry that it does not end in. That text
makes another paragraph. -/
theorem exists_text_behind_blank {run : List Entry} (hRun : ∀ e ∈ run, e.isItem = false)
    (hLast : (.blank :: run).getLast? ≠ some Entry.blank) : ∃ t, Entry.text t ∈ run := by
  cases hEnd : run.getLast? with
  | none =>
      rw [List.getLast?_eq_none_iff.mp hEnd] at hLast
      exact absurd rfl hLast
  | some e =>
      have hMem := List.mem_of_getLast? hEnd
      have hNot := hRun e hMem
      cases e with
      | item number t => cases hNot
      | text t => exact ⟨t, hMem⟩
      | blank =>
          rw [List.getLast?_cons, hEnd] at hLast
          exact absurd rfl hLast

/-- Behind a blank entry stands either another item or another paragraph. So a list that asks for
blank lines has room for one. -/
theorem loose_ofEntries {number : Option Text} {t : Text} {entries : List Entry}
    (hBlank : .blank ∈ entries) (hLast : entries.getLast? ≠ some .blank) :
    2 ≤ (Item.ofEntries (.item number t :: entries)).length ∨
      ∃ item ∈ Item.ofEntries (.item number t :: entries), 2 ≤ item.paragraphs.length := by
  have hSplit :
      entries.takeWhile (!Entry.isItem ·) ++ entries.dropWhile (!Entry.isItem ·) = entries :=
    List.takeWhile_append_dropWhile
  have hRun : ∀ e ∈ entries.takeWhile (!Entry.isItem ·), e.isItem = false := by
    intro e he
    simpa using List.mem_takeWhile_imp he
  cases hRest : entries.dropWhile (!Entry.isItem ·) with
  | cons e rest =>
      left
      have hItem : e.isItem = true := by
        have hNot := eq_false_of_head?_dropWhile (by rw [hRest, List.head?_cons])
        simpa using hNot
      cases e with
      | item other u =>
          rw [← hSplit, hRest, ofEntries_item number t hRun, Item.ofEntries, List.length_cons,
            List.length_cons]
          omega
      | text u => cases hItem
      | blank => cases hItem
  | nil =>
      right
      rw [hRest, List.append_nil] at hSplit
      rw [hSplit] at hRun
      obtain ⟨front, back, rfl⟩ := List.append_of_mem hBlank
      have hTail : (.blank :: back).getLast? ≠ some Entry.blank := by
        rwa [List.getLast?_append_of_ne_nil front (List.cons_ne_nil _ back)] at hLast
      obtain ⟨u, hu⟩ := exists_text_behind_blank
        (fun e he => hRun e (List.mem_append_right front (List.mem_cons_of_mem _ he))) hTail
      have hFirst := List.length_pos_iff.mpr (itemParagraphs_ne_nil t front)
      have hSecond := List.length_pos_iff.mpr (itemParagraphs_ne_nil_of_mem hu rfl)
      refine ⟨_, List.mem_cons_self, ?_⟩
      change 2 ≤ (itemParagraphs (.text t :: List.takeWhile _ (front ++ .blank :: back))).length
      rw [hSplit, ← List.cons_append, itemParagraphs_append_blank, List.length_append]
      omega

/-- The last entry of a list is not blank if its last line is not, which spans see to. -/
theorem getLast?_map_ofLine_ne (numbered : Bool) (width : Nat) {lines : List Text}
    (hLast : lines.getLast? ≠ some []) (hBlank : ∀ m ∈ lines, Text.allBlank m = true → m = []) :
    (lines.map (Entry.ofLine numbered width)).getLast? ≠ some .blank := by
  rw [List.getLast?_map, ne_eq, Option.map_eq_some_iff]
  rintro ⟨m, hm, hEntry⟩
  have hAll := isBlank_ofLine numbered width m
  rw [hEntry] at hAll
  rw [hBlank m (List.mem_of_getLast? hm) hAll.symm] at hm
  exact hLast hm

theorem items_ofLines_eq (detached : Bool) {l after : Text} {marker : ListMarker} (rest : List Text)
    (hSome : item? l = some (marker, after)) :
    (ItemList.ofLines detached (l :: rest)).items =
      Item.ofEntries ((l :: rest).map (Entry.ofLine marker.isNumber (indentWidth l))) := by
  simp [ItemList.ofLines, hSome]

/-- The items of a list are numbered if the first of them is, and are not if it is not. -/
theorem isSome_of_mem_ofLines {detached : Bool} {l after : Text} {marker : ListMarker}
    {rest : List Text} (hSome : item? l = some (marker, after)) {item : Item}
    (hMem : item ∈ (ItemList.ofLines detached (l :: rest)).items) :
    item.number.isSome = marker.isNumber := by
  rw [items_ofLines_eq detached rest hSome] at hMem
  obtain ⟨t, run, hEntry, -⟩ := exists_entries_of_mem_ofEntries hMem
  obtain ⟨m, -, hLine⟩ := List.mem_map.mp hEntry
  exact isSome_of_ofLine_eq_item hLine

/-- A list that is read from the lines of its span is well-formed. Three facts about the span are
used: its first line is an item, its last is not blank, and its blank lines are empty. -/
theorem wellFormed_ofLines (detached : Bool) {l : Text} {rest : List Text} (hItem : isItem l = true)
    (hLast : (l :: rest).getLast? ≠ some [])
    (hBlank : ∀ m ∈ l :: rest, Text.allBlank m = true → m = []) :
    (ItemList.ofLines detached (l :: rest)).WellFormed := by
  obtain ⟨⟨marker, after⟩, hSome⟩ := Option.isSome_iff_exists.mp hItem
  have hItems := items_ofLines_eq detached rest hSome
  have hFirst : Entry.ofLine marker.isNumber (indentWidth l) l =
      .item marker.number? (Text.trim after) := by
    simp [Entry.ofLine, hSome]
  constructor
  · rw [hItems, List.map_cons, hFirst, Item.ofEntries]
    simp
  · cases hNumber : marker.isNumber with
    | true => exact Or.inl fun item hMem => (isSome_of_mem_ofLines hSome hMem).trans hNumber
    | false => exact Or.inr fun item hMem => (isSome_of_mem_ofLines hSome hMem).trans hNumber
  · intro item hMem
    rw [hItems] at hMem
    exact paragraphs_ne_nil_of_mem_ofEntries hMem
  · intro item hMem p hp
    rw [hItems] at hMem
    apply allBlank_of_mem_ofEntries _ hMem hp
    intro e he t hText
    obtain ⟨m, -, rfl⟩ := List.mem_map.mp he
    exact allBlank_of_text?_ofLine hText
  · intro hForced
    have hNil := (forceBlankBetween_ofLines_iff detached hBlank).mp hForced
    have hBelow : [] ∈ rest := by
      cases List.mem_cons.mp hNil with
      | inl hFirstNil =>
          rw [← hFirstNil] at hSome
          cases hSome
      | inr hRest => exact hRest
    rw [hItems, List.map_cons, hFirst]
    apply loose_ofEntries
    · exact List.mem_map_of_mem hBelow
    · refine getLast?_map_ofLine_ne _ _ (fun hRest => hLast ?_) fun m hm =>
        hBlank m (List.mem_cons_of_mem l hm)
      rw [List.getLast?_cons, hRest]
      rfl

end Lists

/-- The block of a span is well-formed if the blank lines of the span are empty. Soundness of the
span gives the rest. -/
theorem wellFormed_ofSpan (detached : Bool) {s : Span} (hs : s.Sound)
    (hBlank : ∀ l ∈ s.lines, Text.allBlank l = true → l = []) :
    (Block.ofSpan detached s).WellFormed := by
  cases hKind : s.kind with
  | paragraph =>
      obtain ⟨l, rest, hCons, hNe⟩ := hs.first
      have hl : l ∈ s.lines := by rw [hCons]; exact List.mem_cons_self
      rw [Block.ofSpan, hKind]
      change Text.allBlank (Inline.flatten (Inline.parse (Text.unlines s.lines))) = false
      rw [Inline.flatten_parse]
      apply allBlank_unlines_eq_false hl
      rw [← Bool.not_eq_true]
      exact fun hAll => hNe (hBlank l hl hAll)
  | heading =>
      obtain ⟨l, hCons, hHeading⟩ := hs.heading hKind
      rw [Block.ofSpan, hKind, hCons]
      change Text.allBlank (Inline.flatten (Inline.parse (Text.trim (l.drop 1)))) = false
      rw [Inline.flatten_parse, ← Bool.not_eq_true, ← Text.trim_eq_nil_iff, Text.trim_trim]
      exact trim_drop_heading_ne_nil hHeading
  | code =>
      rw [Block.ofSpan, hKind]
      exact (isListing_unindent hs hKind hBlank).wellFormed
  | list =>
      obtain ⟨l, rest, hCons, hItem⟩ := hs.list hKind
      have hLast := hs.last
      rw [hCons] at hLast hBlank
      rw [Block.ofSpan, hKind, hCons]
      exact wellFormed_ofLines detached hItem hLast hBlank

/-- A line of a span is empty if it is blank, as blanks were erased from the comment before it was
divided. -/
theorem eq_nil_of_allBlank_of_mem_spans {lines : List Text} {s : Span}
    (hs : s ∈ spans (lines.map eraseBlank)) {l : Text} (hl : l ∈ s.lines)
    (hBlank : Text.allBlank l = true) : l = [] := by
  obtain ⟨source, -, rfl⟩ := List.mem_map.mp (mem_of_mem_spansFrom hs hl)
  unfold eraseBlank at hBlank ⊢
  split at hBlank
  next hSource => rw [if_pos hSource]
  next hSource => exact absurd hBlank hSource

/-- There is a span unless all lines are empty: a line that is not starts one or belongs to one. -/
theorem spansFrom_eq_nil_iff (start forced : Nat) (ls : List Text) :
    spansFrom start forced ls = [] ↔ ∀ l ∈ ls, l = [] := by
  fun_induction spansFrom start forced ls with
  | case1 => simp
  | case2 start forced l rest hEmpty ih => simp [ih, List.isEmpty_iff.mp hEmpty]
  | case3 start forced l rest hEmpty e ih =>
      constructor
      · intro hNone
        cases hNone
      · intro hAll
        exact absurd (List.isEmpty_iff.mpr (hAll l List.mem_cons_self)) hEmpty

theorem parse_eq_nil_iff (lines : List Text) :
    parse lines = [] ↔ ∀ l ∈ lines, Text.allBlank l = true := by
  have hBlocks : ∀ ss : List Span, blocksFrom 0 ss = [] ↔ ss = [] := by
    intro ss
    cases ss with
    | nil => simp [blocksFrom]
    | cons s ss => simp [blocksFrom]
  rw [parse, hBlocks, spans, spansFrom_eq_nil_iff, List.forall_mem_map]
  apply forall₂_congr
  intro l _
  unfold eraseBlank
  split
  next hBlank => simp [hBlank]
  next hVisible =>
    constructor
    · rintro rfl
      rfl
    · exact fun hBlank => absurd hBlank hVisible

/-- Every block that is read from a comment is well-formed, whatever the lines of the comment are,
and there are no blocks only if all lines are blank. Single spacing is not asked for, nor that
decorations are out of the way. -/
theorem wellFormed_parse (lines : List Text) :
    (∀ b ∈ parse lines, b.WellFormed) ∧
      (parse lines = [] ↔ ∀ l ∈ lines, Text.allBlank l = true) := by
  refine ⟨fun b hb => ?_, parse_eq_nil_iff lines⟩
  obtain ⟨s, hs, detached, rfl⟩ := exists_span_of_mem_blocksFrom hb
  apply wellFormed_ofSpan detached (sound_of_mem_spansFrom hs)
  exact fun l hl => eq_nil_of_allBlank_of_mem_spans hs hl

end Reflow.Doc
