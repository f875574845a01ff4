import Reflow.Doc.Printer
import Reflow.Proofs.Doc.Edges
import Reflow.Proofs.Doc.Origin
import Reflow.Proofs.Doc.Span
import Reflow.Proofs.Measure

/-!
Rewrapping a structured comment keeps its substance: block by block, what is read from the lines of
a span is written again, and only blanks, bullets and number signs may change.
-/

namespace Reflow.Doc

open Text

/-- Text behind margins without substance keeps its own. The first margin may have some, such as the
number of an item. -/
theorem substance_wrap (L : Layout) {first next : Text} (hNext : substance next = []) (t : Text) :
    (wrap L first next t).flatMap substance = substance first ++ substance t :=
  blankBlind_substance.wrap L (substance first) (fun u => substance_append first u)
    (fun u => by rw [substance_append, hNext, List.nil_append]) t

theorem substance_textMargin {bare : Text} (h : substance bare = []) :
    substance (textMargin bare) = [] := by
  rw [textMargin, substance_append, h]
  rfl

/-- The substance that an entry of a list holds, its number included. -/
def Entry.substance : Entry → Text
  | .item number t => Text.substance (number.getD []) ++ Text.substance t
  | .text t => Text.substance t
  | .blank => []

/-- The substance of an item: that of its number and of its paragraphs. -/
def Item.substance (item : Item) : Text :=
  Text.substance (item.number.getD []) ++
    item.paragraphs.flatMap fun p => Text.substance (Inline.flatten p)

/-- A line with a list marker has the substance of its number and of its text. A bullet has none. -/
theorem substance_marker {line rest : Text} {marker : ListMarker}
    (h : ListMarker.ofLine? line = some (marker, rest)) :
    Text.substance line = Text.substance (marker.number?.getD []) ++ Text.substance rest := by
  unfold ListMarker.ofLine? at h
  split at h
  · cases h
  next c t =>
    split at h
    next hBullet =>
      split at h
      · cases h
        have hMarkup : Text.substance [c] = [] := by
          simp only [ListMarker.isBulletChar, Bool.or_eq_true, beq_iff_eq] at hBullet
          rcases hBullet with ((rfl | rfl) | rfl) | rfl <;> decide
        rw [substance_cons, hMarkup]
        rfl
      · cases h
    · dsimp only at h
      split at h
      · cases h
      next d after hDrop =>
        split at h
        next hMark =>
          cases h
          have hMarkup : Text.substance [d] = [] := by
            simp only [Bool.and_eq_true, Bool.or_eq_true, beq_iff_eq] at hMark
            rcases hMark.1.2 with rfl | rfl <;> decide
          have hSplit : c :: t = (c :: t).takeWhile isAsciiDigit ++ d :: rest := by
            rw [← hDrop, List.takeWhile_append_dropWhile]
          rw [hSplit, substance_append, substance_cons d, hMarkup, ← hSplit]
          rfl
        · cases h

/-- However a line of a list is read, as an item, as text or as blank, nothing of its substance is
left out. -/
theorem substance_ofLine (numbered : Bool) (indent : Nat) (line : Text) :
    (Entry.ofLine numbered indent line).substance = Text.substance line := by
  have hWhole : Entry.substance (if (trim line).isEmpty then .blank else .text (trim line)) =
      Text.substance line := by
    rw [← blankBlind_substance.trim line]
    split
    next h => rw [List.isEmpty_iff.mp h]; rfl
    · rfl
  unfold Entry.ofLine
  split
  · exact hWhole
  next marker rest hItem =>
    split
    · have hMarker := substance_marker (Option.filter_eq_some_iff.mp hItem).1
      rw [blankBlind_substance.trim] at hMarker
      rw [hMarker, Entry.substance, blankBlind_substance.trim]
    · exact hWhole

/-- The paragraphs below an item hold the text of the entries, and blank entries have none. -/
theorem substance_itemParagraphs {entries : List Entry} (h : ∀ e ∈ entries, e.isItem = false) :
    (itemParagraphs entries).flatMap (fun p => Text.substance (Inline.flatten p)) =
      entries.flatMap Entry.substance := by
  have hTexts :
      ∀ texts : List Text, Text.substance (Inline.flatten (Inline.parse (unlines texts))) =
      texts.flatMap Text.substance := fun texts => by
    rw [Inline.flatten_parse, blankBlind_substance.unlines]
  have hEntry :
      ∀ e ∈ entries, Entry.substance e = (Entry.text? e).toList.flatMap Text.substance := by
    intro e he
    cases e with
    | item number t => exact absurd (h _ he) (by simp [Entry.isItem])
    | text t => simp [Entry.substance, Entry.text?]
    | blank => rfl
  rw [itemParagraphs, List.flatMap_map, List.flatMap_congr fun texts _ => hTexts texts,
    flatMap_filter_isEmpty List.flatMap_nil, List.flatMap_map, List.flatMap_congr hEntry]
  have hPart (part : List (Option Text)) : (part.filterMap id).flatMap Text.substance =
      part.flatMap fun o => o.toList.flatMap Text.substance := by
    rw [List.filterMap_eq_flatMap_toList, List.flatMap_assoc]
    rfl
  rw [List.flatMap_congr fun part _ => hPart part, flatMap_splitOnP, List.flatMap_map]
  rintro (_ | t) ht
  · rfl
  · cases ht

/-- The items of a list hold all entries from the first item on. What stands above it belongs to no
item. -/
theorem substance_ofEntries (entries : List Entry) :
    (Item.ofEntries entries).flatMap Item.substance =
      (entries.dropWhile (!Entry.isItem ·)).flatMap Entry.substance := by
  induction entries with
  | nil => rfl
  | cons e entries ih =>
      cases e with
      | item number t =>
          have hRun :
              ∀ e ∈ Entry.text t :: entries.takeWhile (!Entry.isItem ·), e.isItem = false := by
            intro e he
            rcases List.mem_cons.mp he with rfl | he
            · rfl
            · simpa using List.mem_takeWhile_imp he
          rw [Item.ofEntries, List.flatMap_cons, ih, Item.substance, substance_itemParagraphs hRun,
            List.flatMap_cons, List.dropWhile_cons_of_neg (by simp [Entry.isItem]),
            List.flatMap_cons, Entry.substance, Entry.substance]
          simp only [List.append_assoc]
          rw [← List.flatMap_append, List.takeWhile_append_dropWhile]
      | text t => exact ih
      | blank => exact ih

/-- A list keeps the substance of its lines, since its first line is an item and so nothing stands
above its items. -/
theorem substance_ofLines {detached : Bool} {l : Text} {rest : List Text} (h : isItem l = true) :
    (ItemList.ofLines detached (l :: rest)).items.flatMap Item.substance =
      (l :: rest).flatMap Text.substance := by
  obtain ⟨⟨marker, after⟩, hItem⟩ := Option.isSome_iff_exists.mp h
  have hFirst :
      (Entry.ofLine ((item? l).any fun item => item.1.isNumber) (indentWidth l) l).isItem =
      true := by
    simp [Entry.ofLine, hItem, Entry.isItem]
  simp only [ItemList.ofLines, List.head?_cons, Option.getD_some, List.map_cons]
  rw [substance_ofEntries, List.dropWhile_cons_of_neg (by simp [hFirst]), List.flatMap_cons,
    substance_ofLine, List.flatMap_map, List.flatMap_cons]
  congr 1
  exact List.flatMap_congr fun m _ => substance_ofLine _ _ m

/-- A bullet is written with a dash, whatever it was, and a number with a dot; only the digits
count. -/
theorem substance_bulletText (item : Item) :
    Text.substance (bulletText item) = Text.substance (item.number.getD []) := by
  unfold bulletText
  split
  next n hn =>
    rw [substance_append, hn]
    exact List.append_nil _
  next hn =>
    rw [hn]
    rfl

theorem substance_itemLines (L : Layout) {bare : Text} (hBare : Text.substance bare = [])
    {item : Item} (hItem : item.paragraphs ≠ []) :
    (itemLines L bare item).flatMap Text.substance = item.substance := by
  have hMargin := substance_textMargin hBare
  have hFirst : Text.substance (textMargin bare ++ [' ', ' '] ++ bulletText item) =
      Text.substance (item.number.getD []) := by
    rw [substance_append, substance_append, hMargin, substance_bulletText]
    rfl
  have hNext : ∀ n, Text.substance (textMargin bare ++ List.replicate n ' ') = [] := by
    intro n
    rw [substance_append, hMargin, List.nil_append]
    exact substance_eq_nil fun c hc => Or.inl (by rw [List.eq_of_mem_replicate hc]; rfl)
  obtain ⟨p, ps, hParagraphs⟩ := List.exists_cons_of_ne_nil hItem
  simp only [itemLines, Item.substance, hParagraphs]
  rw [List.flatMap_append, substance_wrap L (hNext _), hFirst, List.flatMap_assoc,
    List.flatMap_cons, List.append_assoc]
  congr 2
  refine List.flatMap_congr fun q _ => ?_
  rw [List.flatMap_cons, substance_wrap L (hNext _), hBare, hNext]
  rfl

/-- A list is written with the substance of its items. Blank lines between them have none. -/
theorem substance_listLines (L : Layout) {bare : Text} (hBare : Text.substance bare = [])
    {l : ItemList} (hItems : ∀ item ∈ l.items, item.paragraphs ≠ []) :
    (listLines L bare l).flatMap Text.substance = l.items.flatMap Item.substance := by
  unfold listLines
  split
  next hNil => rw [hNil]; rfl
  next item items hCons =>
    rw [hCons] at hItems ⊢
    rw [List.flatMap_append, substance_itemLines L hBare (hItems item List.mem_cons_self),
      List.flatMap_assoc, List.flatMap_cons]
    congr 1
    refine List.flatMap_congr fun other hOther => ?_
    rw [List.flatMap_append, substance_itemLines L hBare
      (hItems other (List.mem_cons_of_mem item hOther))]
    split
    · simp [hBare]
    · rfl

theorem commonStart_isPrefix_left (s t : Text) : commonStart s t <+: s := by
  fun_induction commonStart s t with
  | case1 s b t ih => exact (List.prefix_cons_inj b).mpr ih
  | case2 => exact List.nil_prefix
  | case3 => exact List.nil_prefix

theorem commonStart_isPrefix_right (s t : Text) : commonStart s t <+: t := by
  fun_induction commonStart s t with
  | case1 s b t ih => exact (List.prefix_cons_inj b).mpr ih
  | case2 => exact List.nil_prefix
  | case3 => exact List.nil_prefix

theorem foldl_commonStart_isPrefix (indent : Text) (indents : List Text) :
    ∀ t ∈ indent :: indents, indents.foldl commonStart indent <+: t := by
  induction indents generalizing indent with
  | nil => simp
  | cons other indents ih =>
      have hStart := ih (commonStart indent other)
      intro t ht
      rcases List.mem_cons.mp ht with rfl | ht
      · exact (hStart _ List.mem_cons_self).trans (commonStart_isPrefix_left t other)
      rcases List.mem_cons.mp ht with rfl | ht
      · exact (hStart _ List.mem_cons_self).trans (commonStart_isPrefix_right indent t)
      · exact hStart t (List.mem_cons_of_mem _ ht)

/-- Every line of code that is not empty starts with the indentation that they share, so taking it
off loses blanks only. -/
theorem sharedIndent_isPrefix {ls : List Text} {l : Text} (hl : l ∈ ls) (hNe : l ≠ []) :
    sharedIndent ls <+: l.takeWhile isGap := by
  have hMem : l.takeWhile isGap ∈ (ls.filter (!List.isEmpty ·)).map fun l => l.takeWhile isGap :=
    List.mem_map_of_mem (List.mem_filter.mpr ⟨hl, by simpa using hNe⟩)
  unfold sharedIndent
  split
  · exact List.nil_prefix
  next indent indents hIndents =>
    rw [hIndents] at hMem
    exact foldl_commonStart_isPrefix indent indents _ hMem

/-- Code keeps its substance when it is moved to the margin. -/
theorem substance_unindent (ls : List Text) :
    (unindent ls).flatMap Text.substance = ls.flatMap Text.substance := by
  rw [unindent, List.flatMap_map]
  refine List.flatMap_congr fun l hl => ?_
  cases hEmpty : l with
  | nil => simp
  | cons c rest =>
      rw [← hEmpty]
      obtain ⟨indent, hIndent⟩ := sharedIndent_isPrefix hl (by simp [hEmpty])
      have hLine : l = sharedIndent ls ++ (indent ++ l.dropWhile isGap) := by
        rw [← List.append_assoc, hIndent, List.takeWhile_append_dropWhile]
      have hBlank : Text.substance (sharedIndent ls) = [] := by
        refine substance_eq_nil fun d hd => Or.inl (isBlank_of_isGap ?_)
        exact List.mem_takeWhile_imp (p := isGap) (l := l)
          (hIndent ▸ List.mem_append_left indent hd)
      generalize sharedIndent ls = shared at hLine hBlank
      rw [hLine, List.drop_left, substance_append (t := shared), hBlank, List.nil_append]

/-- A block keeps the substance of the lines that it was read from. The span has to be sound, or a
list could start with text that belongs to no item. -/
theorem substance_blockLines (L : Layout) {bare : Text} (hBare : Text.substance bare = [])
    (detached : Bool) {s : Span} (hs : s.Sound) :
    (blockLines L bare (Block.ofSpan detached s)).flatMap Text.substance =
      s.lines.flatMap Text.substance := by
  have hMargin := substance_textMargin hBare
  cases hKind : s.kind with
  | paragraph =>
      simp only [Block.ofSpan, hKind, blockLines]
      rw [substance_wrap L hMargin, Inline.flatten_parse, blankBlind_substance.unlines, hMargin]
      rfl
  | heading =>
      obtain ⟨l, hLines, hHeading⟩ := hs.heading hKind
      obtain ⟨c, rest, rfl⟩ : ∃ c rest, l = '#' :: c :: rest := by
        simp only [isHeading, startsHeading, Bool.and_eq_true] at hHeading
        split at hHeading
        next c rest => exact ⟨c, rest, rfl⟩
        · simp at hHeading
      simp only [Block.ofSpan, hKind, blockLines, hLines, Inline.flatten_parse, List.head?_cons,
        Option.getD_some, List.flatMap_cons, List.flatMap_nil, substance_append, hMargin]
      rw [blankBlind_substance.trim]
      rfl
  | code =>
      simp only [Block.ofSpan, hKind, blockLines]
      rw [← substance_unindent s.lines, List.flatMap_map]
      refine List.flatMap_congr fun l _ => ?_
      split
      next hEmpty => rw [List.isEmpty_iff.mp hEmpty, hBare]; rfl
      · rw [substance_append, hBare, substance_cons]
        rfl
  | list =>
      obtain ⟨l, rest, hLines, hItem⟩ := hs.list hKind
      simp only [Block.ofSpan, hKind, blockLines, hLines]
      rw [substance_listLines L hBare fun item => paragraphs_ne_nil_of_mem_ofEntries,
        substance_ofLines hItem]

/-- Blocks are written one below the other, with bare markers in between. -/
theorem substance_blocksLines (L : Layout) {bare : Text} (hBare : Text.substance bare = [])
    (bs : List Block) :
    (blocksLines L bare bs).flatMap Text.substance =
      bs.flatMap fun b => (blockLines L bare b).flatMap Text.substance := by
  fun_induction blocksLines L bare bs with
  | case1 => rfl
  | case2 b => simp
  | case3 b c bs ih =>
      rw [List.flatMap_append, List.flatMap_append, ih, List.flatMap_cons]
      split
      · simp [hBare]
      · simp

theorem substance_blocksFrom (L : Layout) {bare : Text} (hBare : Text.substance bare = [])
    (stop : Nat) {ss : List Span} (hss : ∀ s ∈ ss, s.Sound) :
    ((blocksFrom stop ss).flatMap fun b => (blockLines L bare b).flatMap Text.substance) =
      ss.flatMap (·.lines.flatMap Text.substance) := by
  induction ss generalizing stop with
  | nil => rfl
  | cons s ss ih =>
      rw [blocksFrom, List.flatMap_cons, List.flatMap_cons,
        substance_blockLines L hBare _ (hss s List.mem_cons_self),
        ih s.stop fun r hr => hss r (List.mem_cons_of_mem s hr)]

theorem substance_eraseBlank (line : Text) :
    Text.substance (eraseBlank line) = Text.substance line := by
  unfold eraseBlank
  split
  next h => rw [blankBlind_substance.blank (allBlank_iff.mp h)]; rfl
  · rfl

/-- Rewrapping a structured comment keeps its substance, whatever its lines are. Which blank lines
there are may change. -/
theorem substance_render (L : Layout) {bare : Text} (hBare : Text.substance bare = [])
    (lines : List Text) :
    (render L bare lines).flatMap Text.substance = lines.flatMap Text.substance := by
  have hEdge : ∀ n, (List.replicate n bare).flatMap Text.substance = [] := by
    intro n
    rw [List.flatMap_eq_nil_iff]
    intro l hl
    rw [List.eq_of_mem_replicate hl, hBare]
  have hBlank : ∀ l, allBlank l = true → Text.substance l = [] := fun l hl =>
    blankBlind_substance.blank (allBlank_iff.mp hl)
  rw [render, List.flatMap_append, List.flatMap_append, hEdge, hEdge, substance_blocksLines L hBare,
    parse, spans, substance_blocksFrom L hBare 0 fun s hs => sound_of_mem_spansFrom hs,
    flatMap_spansFrom rfl, List.flatMap_map, List.flatMap_congr fun l _ => substance_eraseBlank l,
    flatMap_interior hBlank, List.append_nil, List.nil_append]

end Reflow.Doc
