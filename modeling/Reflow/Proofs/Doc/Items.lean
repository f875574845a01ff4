import Reflow.Proofs.Doc.Legible
import Reflow.Proofs.Doc.Page

/-!
Reading the items of a printed list. A bullet behind two spaces is an item if it is of the list's
kind, and any other line is text of the item above it. A bullet of the other kind is therefore
joined to that item, which moves it behind the hanging indentation.
-/

namespace Reflow.Doc

/-- The marker that a printed bullet is read as: a dash, or the digits of the number. -/
def markerOf : Option Text → ListMarker
  | none => .bullet '-'
  | some n => .number n

theorem indentWidth_replicate_append (n : Nat) {t : Text}
    (ht : ∀ c, t.head? = some c → isBlank c = false) :
    indentWidth (List.replicate n ' ' ++ t) = n := by
  have hStop : ∀ c, t.head? = some c → isGap c = false := fun c hc =>
    not_isGap_of_not_isBlank (ht c hc)
  have hAll : (List.replicate n ' ').takeWhile isGap = List.replicate n ' ' :=
    List.takeWhile_eq_self_iff.mpr fun c hc => by rw [List.eq_of_mem_replicate hc]; rfl
  rw [indentWidth, takeWhile_append_of_head _ hStop, hAll]
  clear hAll
  induction n with
  | zero => rfl
  | succ n ih =>
      rw [List.replicate_succ, List.foldr_cons, ih]
      exact Nat.add_comm 1 n

theorem isBulletChar_eq_false_of_isAsciiDigit {c : Char} (hc : isAsciiDigit c = true) :
    ListMarker.isBulletChar c = false := by
  have hRange := isAsciiDigit_iff.mp hc
  simp only [ListMarker.isBulletChar, Bool.or_eq_false_iff, beq_eq_false_iff_ne]
  refine ⟨⟨⟨?_, ?_⟩, ?_⟩, ?_⟩ <;> (rintro rfl; revert hRange; decide)

/-- Digits and a dot in front of the rest of an item are the marker of a numbered one. What follows
must begin with a gap. -/
theorem ofLine?_number {n rest : Text} (hNe : n ≠ []) (hDigits : ∀ c ∈ n, isAsciiDigit c = true)
    (hRest : ListMarker.isRest rest = true) :
    ListMarker.ofLine? (n ++ '.' :: rest) = some (.number n, rest) := by
  have hTake : (n ++ '.' :: rest).takeWhile isAsciiDigit = n := by
    rw [takeWhile_append_of_head n (by simp [isAsciiDigit]), List.takeWhile_eq_self_iff]
    exact hDigits
  have hDrop : (n ++ '.' :: rest).dropWhile isAsciiDigit = '.' :: rest := by
    rw [List.dropWhile_append_of_pos hDigits]
    exact List.dropWhile_cons_of_neg (by decide)
  obtain ⟨c, m, rfl⟩ := List.exists_cons_of_ne_nil hNe
  have hPlain := isBulletChar_eq_false_of_isAsciiDigit (hDigits c List.mem_cons_self)
  rw [List.cons_append] at hTake hDrop ⊢
  rw [ListMarker.ofLine?]
  simp only [hPlain, Bool.false_eq_true, if_false, hTake, hDrop, hRest]
  rfl

section Lines

variable {L : Layout} {margin l : Text} {ls : List Text} (h : Filled L margin ls) (hl : l ∈ ls)
include h hl

/-- A line that hangs below an item is read as text, even if it looks like an item itself, since it
is indented further than the bullets. -/
theorem ofLine_hang (numbered : Bool) (number : Option Text) :
    Entry.ofLine numbered 2 (hang number ++ l) = .text l := by
  have hLength := two_le_length_bullet number
  have hWidth : indentWidth (hang number ++ l) = 2 + (bullet number).length :=
    indentWidth_replicate_append _ fun c => h.isBlank_head hl
  have hTrim : Text.trim (hang number ++ l) = l := by
    rw [Text.trim_append_left fun c hc => by rw [List.eq_of_mem_replicate hc]; rfl]
    exact (h.line hl).2.1
  have hNe : l.isEmpty = false := by simpa using h.line_ne_nil hl
  have hDeep : ¬indentWidth (hang number ++ l) ≤ 2 := by omega
  rw [Entry.ofLine]
  simp only [hTrim, hNe, hDeep, decide_false, Bool.and_false, Bool.false_eq_true, if_false]
  split <;> rfl

variable {number : Option Text} (hNumber : ProperNumber number)
include hNumber

omit h hl in
theorem indentWidth_bullet (l : Text) : indentWidth (' ' :: ' ' :: (bullet number ++ l)) = 2 := by
  obtain ⟨c, m, hBullet, hc, -⟩ := exists_bullet_eq_cons hNumber
  have hGap : isGap c = false := not_isGap_of_not_isBlank hc
  have hSpace : isGap ' ' = true := rfl
  simp [indentWidth, hBullet, hGap, hSpace]

/-- The first line of a printed item is read with its own marker. This needs text behind the bullet,
which filled lines have. -/
theorem item?_bullet :
    item? (' ' :: ' ' :: (bullet number ++ l)) = some (markerOf number, ' ' :: l) := by
  have hRest : ListMarker.isRest (' ' :: l) = true := by
    have hFeed := (h.line hl).2.2
    simp only [ListMarker.isRest, Bool.and_eq_true, List.all_eq_true, bne_iff_ne, ne_eq]
    exact ⟨rfl, fun c hc hEq => hFeed (hEq ▸ hc)⟩
  have hVisible : Text.allBlank (' ' :: l) = false := by
    have hBlank := h.allBlank_eq_false hl
    rw [Text.allBlank, List.all_cons, ← Text.allBlank, hBlank, Bool.and_false]
  have hMarker : ListMarker.ofLine? (bullet number ++ l) = some (markerOf number, ' ' :: l) := by
    cases number with
    | none =>
        show ListMarker.ofLine? ('-' :: ' ' :: l) = _
        simp only [ListMarker.ofLine?, hRest, if_true]
        rfl
    | some n =>
        obtain ⟨hNe, hDigits⟩ := hNumber n rfl
        have hLine : bullet (some n) ++ l = n ++ '.' :: ' ' :: l := by simp [bullet, bulletText]
        rw [hLine, ofLine?_number hNe hDigits hRest]
        rfl
  rw [item?, trim_bullet_append hNumber (h.line_ne_nil hl) (h.line hl).2.1, hMarker]
  exact if_pos (by simp [hVisible])

theorem isNumbered_bullet : isNumbered (' ' :: ' ' :: (bullet number ++ l)) = number.isSome := by
  rw [isNumbered, item?_bullet h hl hNumber]
  cases number <;> rfl

/-- A bullet of the list's kind starts an item, with the text that was written behind it. -/
theorem ofLine_bullet (numbered : Bool) (hKind : number.isSome = numbered) :
    Entry.ofLine numbered 2 (' ' :: ' ' :: (bullet number ++ l)) = .item number l := by
  have hTrim : Text.trim (' ' :: l) = l := (Text.trim_cons rfl l).trans (h.line hl).2.1
  have hOwn : ((markerOf number).isNumber == numbered) = true := by
    cases number <;> simp_all [markerOf, ListMarker.isNumber]
  have hName : (markerOf number).number? = number := by cases number <;> rfl
  rw [Entry.ofLine]
  simp only [item?_bullet h hl hNumber, indentWidth_bullet hNumber l, hOwn, Nat.le_refl,
    decide_true, Bool.and_true, if_true, hTrim, hName]

/-- A bullet of the other kind is text, its bullet included. This is where a second pass can change
a list. -/
theorem ofLine_bullet_other (numbered : Bool) (hKind : number.isSome ≠ numbered) :
    Entry.ofLine numbered 2 (' ' :: ' ' :: (bullet number ++ l)) = .text (bullet number ++ l) := by
  have hOwn : ((markerOf number).isNumber == numbered) = false := by
    cases number <;> simp_all [markerOf, ListMarker.isNumber]
  have hNe : (bullet number ++ l).isEmpty = false := by simpa using fun _ => h.line_ne_nil hl
  rw [Entry.ofLine]
  simp only [item?_bullet h hl hNumber, hOwn, Bool.false_and, Bool.false_eq_true, if_false,
    trim_bullet_append hNumber (h.line_ne_nil hl) (h.line hl).2.1, hNe]

end Lines

/-- How the lines of an item below its first are read. -/
def tailEntries (ls : List Text) (more : List (List Text)) : List Entry :=
  ls.map .text ++ more.flatMap fun p => .blank :: p.map .text

theorem isItem_of_mem_tailEntries {ls : List Text} {more : List (List Text)} {e : Entry}
    (he : e ∈ tailEntries ls more) : e.isItem = false := by
  rcases List.mem_append.mp he with he | he
  · obtain ⟨t, -, rfl⟩ := List.mem_map.mp he
    rfl
  · obtain ⟨p, -, he⟩ := List.mem_flatMap.mp he
    rcases List.mem_cons.mp he with rfl | he
    · rfl
    · obtain ⟨t, -, rfl⟩ := List.mem_map.mp he
      rfl

/-- Below its first line, a printed item is read as texts and blank lines, whatever stands in the
texts. -/
theorem map_ofLine_itemTail {L : Layout} {margin l : Text} {ls : List Text}
    {more : List (List Text)}
    (hFirst : Filled L margin (l :: ls)) (hMore : ∀ p ∈ more, Filled L margin p) (numbered : Bool)
    (number : Option Text) :
    (itemTail number ls more).map (Entry.ofLine numbered 2) = tailEntries ls more := by
  have hText : ∀ p : List Text, (∀ t ∈ p, Entry.ofLine numbered 2 (hang number ++ t) = .text t) →
      (p.map (hang number ++ ·)).map (Entry.ofLine numbered 2) = p.map .text := by
    intro p hp
    rw [List.map_map]
    exact List.map_congr_left hp
  rw [itemTail, List.map_append, tailEntries,
    hText ls fun t ht => ofLine_hang hFirst (List.mem_cons_of_mem l ht) numbered number,
    List.map_flatMap]
  congr 1
  refine List.flatMap_congr fun p hp => ?_
  rw [List.map_cons, hText p fun t ht => ofLine_hang (hMore p hp) ht numbered number]
  rfl

theorem itemParagraphs_texts {ls : List Text} (hNe : ls ≠ []) :
    itemParagraphs (ls.map .text) = [Inline.parse (Text.unlines ls)] := by
  have hTexts : (ls.map Entry.text).map Entry.text? = ls.map some := by
    rw [List.map_map]
    rfl
  have hSome : ∀ o ∈ ls.map some, Option.isNone o = false := by
    intro o ho
    obtain ⟨t, -, rfl⟩ := List.mem_map.mp ho
    rfl
  rw [itemParagraphs, hTexts, List.splitOnP_eq_singleton hSome]
  simp [hNe]

theorem itemParagraphs_append_flatMap {more : List (List Text)} (hMore : ∀ p ∈ more, p ≠ [])
    {ps : List Text} (hps : ps ≠ []) :
    itemParagraphs (ps.map .text ++ more.flatMap fun p => .blank :: p.map .text) =
      (ps :: more).map fun p => Inline.parse (Text.unlines p) := by
  induction more generalizing ps with
  | nil =>
      rw [List.flatMap_nil, List.append_nil, itemParagraphs_texts hps]
      rfl
  | cons p more ih =>
      obtain ⟨hp, hRest⟩ := List.forall_mem_cons.mp hMore
      rw [List.flatMap_cons, List.cons_append, itemParagraphs_append_blank,
        itemParagraphs_texts hps, ih hRest hp]
      rfl

/-- The paragraphs of a printed item are read back, with their lines as they were written. -/
theorem itemParagraphs_tailEntries (l : Text) (ls : List Text) {more : List (List Text)}
    (hMore : ∀ p ∈ more, p ≠ []) :
    itemParagraphs (.text l :: tailEntries ls more) =
      ((l :: ls) :: more).map fun p => Inline.parse (Text.unlines p) :=
  itemParagraphs_append_flatMap hMore (List.cons_ne_nil l ls)

/-- Entries before the first item belong to none. A list starts with an item, so nothing gets lost
this way. -/
theorem ofEntries_append {own : List Entry} (hOwn : ∀ e ∈ own, e.isItem = false)
    (rest : List Entry) : Item.ofEntries (own ++ rest) = Item.ofEntries rest := by
  induction own with
  | nil => rfl
  | cons e own ih =>
      obtain ⟨he, hRest⟩ := List.forall_mem_cons.mp hOwn
      cases e with
      | item => cases he
      | text => exact ih hRest
      | blank => exact ih hRest

/-- An item takes the entries up to the next item, and the others are read without it. -/
theorem ofEntries_item (number : Option Text) (t : Text) {own : List Entry}
    (hOwn : ∀ e ∈ own, e.isItem = false) (rest : List Entry) :
    Item.ofEntries (.item number t :: (own ++ rest)) =
      { number,
        paragraphs := itemParagraphs (.text t :: (own ++ rest.takeWhile (!Entry.isItem ·))) } ::
        Item.ofEntries rest := by
  rw [Item.ofEntries, ofEntries_append hOwn,
    List.takeWhile_append_of_pos fun e he => by simp [hOwn e he]]

/-- A printed item is written as it stands, and what is joined to it hangs below it. The joined
paragraphs come from a bullet of the other kind. -/
theorem itemLines_append {L : Layout} {bare l : Text} {number : Option Text} {ls : List Text}
    {more : List (List Text)} (h : (Stanza.item number l ls more).Sound L bare)
    (joined : List (List Inline.Span)) :
    itemLines L bare { number, paragraphs :=
        (((l :: ls) :: more).map fun p => Inline.parse (Text.unlines p)) ++ joined } =
      (Stanza.item number l ls more).lines.map (commentLine bare) ++ joined.flatMap fun q =>
        bare :: wrap L (textMargin bare ++ hang number) (textMargin bare ++ hang number)
          (Inline.flatten q) := by
  obtain ⟨hNumber, hFirst, hMore⟩ := h
  have hHang : List.replicate (2 + (bullet number).length) ' ' = hang number := rfl
  have hBullet : ∀ paragraphs, bulletText { number, paragraphs } = bullet number := fun _ => rfl
  have hLine : textMargin bare ++ [' ', ' '] ++ bullet number ++ l =
      commentLine bare (' ' :: ' ' :: (bullet number ++ l)) := by
    rw [commentLine_of_head (by simp) (by simp)]
    simp
  have hLower : ∀ p : List Text, p.map (textMargin bare ++ hang number ++ ·) =
      (p.map (hang number ++ ·)).map (commentLine bare) := by
    intro p
    rw [List.map_map]
    exact List.map_congr_left fun t _ => (commentLine_hang bare number t).symm
  have hParagraph : ∀ p ∈ more, wrap L (textMargin bare ++ hang number)
      (textMargin bare ++ hang number) (Text.unlines p) =
        (p.map (hang number ++ ·)).map (commentLine bare) := by
    intro p hp
    obtain ⟨t, ts, rfl⟩ := List.exists_cons_of_ne_nil (hMore p hp).ne_nil
    rw [(hMore _ hp).wrap_unlines rfl, ← hLower]
    rfl
  rw [itemLines]
  simp only [List.map_cons, List.cons_append, hBullet, hHang, Inline.flatten_parse,
    hFirst.wrap_unlines (room_bullet hNumber L bare), hLine, hLower, List.flatMap_append,
    List.flatMap_map, Stanza.lines, itemTail, List.map_append, List.map_flatMap, commentLine_nil]
  rw [List.flatMap_congr fun p hp => by rw [hParagraph p hp]]
  simp only [List.append_assoc]

namespace Stanza

/-- The stanza is an item with a number. -/
def isNumbered : Stanza → Bool
  | item number _ _ _ => number.isSome
  | _ => false

end Stanza

/-- The bullets are of the list's kind, and behind blank lines if the list is loose. Such a list is
written as it stands. -/
def Even (loose numbered : Bool) (items : List (Bool × Stanza)) : Prop :=
  ∀ p ∈ items, p.2.isNumbered = numbered ∧ (loose = true → p.1 = true)

theorem exists_head_wrap (L : Layout) (first next t : Text) :
    ∃ x xs, wrap L first next t = (first ++ x) :: xs := by
  rw [wrap]
  split
  · exact ⟨[], [], by rw [List.append_nil]⟩
  next p ps hParagraphs =>
    obtain ⟨u, us, hWords⟩ := List.exists_cons_of_ne_nil
      (ofText_ne_nil_of_mem_paragraphs (t := t) (p := p) (by simp [hParagraphs]))
    rw [wrapParagraph, hWords, Packing.divide, Packing.write]
    exact ⟨_, _, rfl⟩

/-- A line that hangs below an item is not the first line of one, which stands behind two spaces
only. -/
theorem commentLine_bullet_ne {number : Option Text} (hNumber : ProperNumber number)
    (bare l x : Text) (n : Nat) :
    commentLine bare (' ' :: ' ' :: (bullet number ++ l)) ≠
      textMargin bare ++ (List.replicate (n + 4) ' ' ++ x) := by
  obtain ⟨c, m, hBullet, hc, -⟩ := exists_bullet_eq_cons hNumber
  rw [commentLine_of_head (by simp) (by simp), hBullet]
  intro hEq
  have hText := List.append_cancel_left hEq
  rw [List.replicate_succ, List.replicate_succ, List.replicate_succ] at hText
  have hTail := (List.cons.inj (List.cons.inj hText).2).2
  rw [(List.cons.inj hTail).1] at hc
  cases hc

theorem commentLine_ne_bare (bare l : Text) (c : Char) : commentLine bare (c :: l) ≠ bare := by
  intro hEq
  have hLength := congrArg List.length hEq
  rw [commentLine] at hLength
  split at hLength <;> simp at hLength

section Reading

variable {L : Layout} {bare : Text}

theorem map_ofLine_item {number : Option Text} {l : Text} {ls : List Text} {more : List (List Text)}
    (h : (Stanza.item number l ls more).Sound L bare) {numbered : Bool}
    (hKind : number.isSome = numbered) (rest : List Text) :
    ((Stanza.item number l ls more).lines ++ rest).map (Entry.ofLine numbered 2) =
      .item number l :: (tailEntries ls more ++ rest.map (Entry.ofLine numbered 2)) := by
  obtain ⟨hNumber, hFirst, hMore⟩ := h
  rw [Stanza.lines, List.cons_append, List.map_cons, List.map_append,
    ofLine_bullet hFirst List.mem_cons_self hNumber numbered hKind,
    map_ofLine_itemTail hFirst hMore numbered number]

theorem map_ofLine_replicate (numbered : Bool) (n : Nat) :
    (List.replicate n []).map (Entry.ofLine numbered 2) = List.replicate n .blank := by
  rw [List.map_replicate]
  rfl

/-- The lines of items, with a blank line between each two if the list is loose. This is how a list
is written, with its flag as an argument. -/
def itemsLines (L : Layout) (bare : Text) (loose : Bool) : List Item → List Text
  | [] => []
  | item :: items => itemLines L bare item ++ items.flatMap fun other =>
      (if loose then [bare] else []) ++ itemLines L bare other

theorem itemsLines_cons_cons (loose : Bool) (item other : Item) (items : List Item) :
    itemsLines L bare loose (item :: other :: items) =
      itemLines L bare item ++ ((if loose then [bare] else []) ++
        itemsLines L bare loose (other :: items)) := by
  rw [itemsLines, itemsLines, List.flatMap_cons, List.append_assoc]

theorem listLines_eq (l : ItemList) :
    listLines L bare l = itemsLines L bare l.blankBetween l.items := rfl

section Entries

variable (number : Option Text) (l : Text) (ls : List Text) {more : List (List Text)}
  (hMore : ∀ p ∈ more, p ≠ [])
include hMore

/-- The last item of a list is read back, with nothing but its own lines below it. -/
theorem ofEntries_last :
    Item.ofEntries (.item number l :: tailEntries ls more) =
      [{ number,
         paragraphs := ((l :: ls) :: more).map fun p => Inline.parse (Text.unlines p) }] := by
  rw [← List.append_nil (tailEntries ls more),
    ofEntries_item number l (fun e => isItem_of_mem_tailEntries), List.takeWhile_nil,
    List.append_nil, itemParagraphs_tailEntries l ls hMore]
  rfl

/-- An item above another item is read back, with or without a blank line between them. A blank line
there opens no paragraph. -/
theorem ofEntries_above_item (apart : Bool) (m : Option Text) (t : Text) (rest : List Entry) :
    Item.ofEntries (.item number l :: (tailEntries ls more ++
        (List.replicate apart.toNat .blank ++ .item m t :: rest))) =
      { number, paragraphs := ((l :: ls) :: more).map fun p => Inline.parse (Text.unlines p) } ::
        Item.ofEntries (.item m t :: rest) := by
  rw [ofEntries_item number l fun e => isItem_of_mem_tailEntries,
    ← itemParagraphs_tailEntries l ls hMore]
  cases apart with
  | false =>
      have hTake : (List.replicate false.toNat Entry.blank ++ .item m t :: rest).takeWhile
          (!Entry.isItem ·) = [] := rfl
      rw [hTake, List.append_nil]
      rfl
  | true =>
      have hTake : (List.replicate true.toNat Entry.blank ++ .item m t :: rest).takeWhile
          (!Entry.isItem ·) = [.blank] := rfl
      have hBlank := itemParagraphs_append_blank (.text l :: tailEntries ls more) []
      have hNone : itemParagraphs [] = [] := rfl
      rw [hTake, ← List.cons_append, hBlank, hNone, List.append_nil]
      rfl

/-- Text behind a blank line is joined to the item above it, as a paragraph of that item. -/
theorem ofEntries_above_text (t : Text) (rest : List Entry) :
    ∃ joined others, Item.ofEntries (.item number l :: (tailEntries ls more ++
        (.blank :: .text t :: rest))) =
      { number, paragraphs :=
          (((l :: ls) :: more).map fun p => Inline.parse (Text.unlines p)) ++ joined } :: others ∧
      joined ≠ [] := by
  refine ⟨itemParagraphs (.text t :: rest.takeWhile (!Entry.isItem ·)), Item.ofEntries rest, ?_,
    itemParagraphs_ne_nil t _⟩
  have hBlank := itemParagraphs_append_blank (.text l :: tailEntries ls more)
    (.text t :: rest.takeWhile (!Entry.isItem ·))
  rw [ofEntries_item number l fun e => isItem_of_mem_tailEntries,
    ← itemParagraphs_tailEntries l ls hMore, ← hBlank]
  rfl

end Entries

/-- A bullet of the other kind is moved behind the hanging indentation of the item above it. The two
ways of writing the line part at its first character behind two spaces, so nothing that follows can
make up for it. -/
theorem parts_of_other_kind {number m : Option Text} {l k : Text} {ls ks : List Text}
    {more kmore : List (List Text)} (hAbove : (Stanza.item number l ls more).Sound L bare)
    (hSound : (Stanza.item m k ks kmore).Sound L bare) {numbered : Bool}
    (hKind : number.isSome = numbered) (hOther : m.isSome ≠ numbered) (loose : Bool)
    (rest : List Text) (xs ys : List Text) :
    itemsLines L bare loose (Item.ofEntries (((Stanza.item number l ls more).lines ++
        ([] :: ((Stanza.item m k ks kmore).lines ++ rest))).map (Entry.ofLine numbered 2))) ++ xs ≠
      ((Stanza.item number l ls more).lines ++
        ([] :: ((Stanza.item m k ks kmore).lines ++ rest))).map (commentLine bare) ++ ys := by
  have hText := ofLine_bullet_other hSound.2.1 List.mem_cons_self hSound.1 numbered hOther
  obtain ⟨joined, others, hRead, hNe⟩ := ofEntries_above_text number l ls
    (fun p hp => (hAbove.2.2 p hp).ne_nil) (bullet m ++ k)
    ((itemTail m ks kmore ++ rest).map (Entry.ofLine numbered 2))
  obtain ⟨q, qs, rfl⟩ := List.exists_cons_of_ne_nil hNe
  obtain ⟨x, after, hWrap⟩ := exists_head_wrap L (textMargin bare ++ hang number)
    (textMargin bare ++ hang number) (Inline.flatten q)
  have hHang : hang number = List.replicate ((bullet number).length - 2 + 4) ' ' := by
    have hLength := two_le_length_bullet number
    rw [hang]
    congr 1
    omega
  rw [map_ofLine_item hAbove hKind, List.map_cons, Stanza.lines.eq_def (.item m k ks kmore)]
  simp only [List.cons_append, List.map_cons, hText]
  rw [show Entry.ofLine numbered 2 [] = .blank from rfl, hRead, itemsLines, itemLines_append hAbove,
    List.flatMap_cons, hWrap, List.map_append]
  intro hEq
  simp only [List.append_assoc] at hEq
  have hHeads := (List.cons.inj (List.append_cancel_left hEq)).2
  refine commentLine_bullet_ne hSound.1 bare k x ((bullet number).length - 2) ?_
  rw [← hHang]
  exact (List.cons.inj hHeads).1.symm

/-- An item above an item of its own kind is written as it stands, but a loose list gets a blank
line between them. The rest of the list is read again by itself. -/
theorem recovers_item_append {loose numbered apart : Bool} {number m : Option Text} {l k : Text}
    {ls ks : List Text} {more kmore : List (List Text)} {items : List (Bool × Stanza)}
    (hAbove : (Stanza.item number l ls more).Sound L bare)
    (hSound : (Stanza.item m k ks kmore).Sound L bare) (hKind : number.isSome = numbered)
    (hSame : m.isSome = numbered) (hLoose : apart = true → loose = true)
    (hRead : Recovers (Even loose numbered items)
      (itemsLines L bare loose (Item.ofEntries
        (((Stanza.item m k ks kmore).lines ++ pageLines items).map (Entry.ofLine numbered 2))))
      (((Stanza.item m k ks kmore).lines ++ pageLines items).map (commentLine bare))) :
    Recovers (Even loose numbered ((apart, .item m k ks kmore) :: items))
      (itemsLines L bare loose (Item.ofEntries (((Stanza.item number l ls more).lines ++
        pageLines ((apart, .item m k ks kmore) :: items)).map (Entry.ofLine numbered 2))))
      (((Stanza.item number l ls more).lines ++
        pageLines ((apart, .item m k ks kmore) :: items)).map (commentLine bare)) := by
  have hLines := itemLines_append hAbove []
  obtain ⟨rest, hFirst⟩ : ∃ rest, ((Stanza.item m k ks kmore).lines ++ pageLines items).map
      (Entry.ofLine numbered 2) = .item m k :: rest := ⟨_, map_ofLine_item hSound hSame _⟩
  obtain ⟨other, others, hItems⟩ : ∃ other others, Item.ofEntries (.item m k :: rest) =
      other :: others := ⟨_, _, by rw [Item.ofEntries]⟩
  rw [hFirst, hItems] at hRead
  rw [List.append_nil, List.flatMap_nil, List.append_nil] at hLines
  rw [pageLines_cons, map_ofLine_item hAbove hKind, List.map_append, map_ofLine_replicate, hFirst,
    ofEntries_above_item number l ls (fun p hp => (hAbove.2.2 p hp).ne_nil), hItems,
    itemsLines_cons_cons, hLines, List.map_append, List.map_append, map_replicate_toNat]
  by_cases hTight : loose = true ∧ apart = false
  · obtain ⟨rfl, rfl⟩ := hTight
    refine Recovers.of_parts (fun hEven => ?_) fun xs ys hEq => ?_
    · cases (hEven _ List.mem_cons_self).2 rfl
    · simp only [List.append_assoc] at hEq
      have hHeads := List.append_cancel_left hEq
      exact commentLine_ne_bare bare _ _ (List.cons.inj hHeads).1.symm
  · have hSep : apart = loose := by
      cases apart <;> cases loose <;> simp_all
    rw [hSep]
    refine ((hRead.append_left _).append_left _).congr ?_
    rw [Even, Even, List.forall_mem_cons, and_iff_right]
    exact ⟨hSame, fun h => h⟩

/-- A list is written as it stands if its bullets are even, and else parts from it at the first
bullet that is not. The induction is along the items below the first, each of which is compared with
the kind of the list. -/
theorem recovers_items {loose numbered apart : Bool} {number : Option Text} {l : Text}
    {ls : List Text} {more : List (List Text)} {items : List (Bool × Stanza)}
    (hPrinted : Printed L bare ((apart, .item number l ls more) :: items))
    (hItems : ∀ p ∈ items, p.2.kind = .list) (hKind : number.isSome = numbered)
    (hLoose : ∀ p ∈ items, p.1 = true → loose = true) :
    Recovers (Even loose numbered items)
      (itemsLines L bare loose (Item.ofEntries
        (((Stanza.item number l ls more).lines ++ pageLines items).map (Entry.ofLine numbered 2))))
      (((Stanza.item number l ls more).lines ++ pageLines items).map (commentLine bare)) := by
  induction items generalizing apart number l ls more with
  | nil =>
      have hSound : (Stanza.item number l ls more).Sound L bare :=
        hPrinted.sound _ List.mem_cons_self
      have hLines := itemLines_append hSound []
      have hPages : pageLines [] = [] := rfl
      rw [List.append_nil, List.flatMap_nil, List.append_nil] at hLines
      rw [map_ofLine_item hSound hKind, hPages, List.map_nil, List.append_nil,
        ofEntries_last number l ls fun p hp => (hSound.2.2 p hp).ne_nil, itemsLines, hLines,
        List.flatMap_nil, List.append_nil, List.append_nil]
      exact Recovers.of_eq nofun rfl
  | cons p items ih =>
      obtain ⟨hSound, hRest⟩ := List.forall_mem_cons.mp hPrinted.sound
      obtain ⟨hNext, hChain⟩ := List.isChain_cons.mp hPrinted.follows
      have hFollows := hNext p rfl
      obtain ⟨f, s⟩ := p
      obtain ⟨hItem, hOthers⟩ := List.forall_mem_cons.mp hItems
      obtain ⟨hApart, hOther⟩ := List.forall_mem_cons.mp hLoose
      cases s with
      | item m k ks kmore =>
          have hOwn : (Stanza.item m k ks kmore).Sound L bare := hRest _ List.mem_cons_self
          by_cases hSame : m.isSome = numbered
          · exact recovers_item_append hSound hOwn hKind hSame hApart
              (ih ⟨hRest, hChain⟩ hOthers hSame hOther)
          -- A bullet of the other kind follows only behind a blank line.
          · have hBlank : f = true := hFollows.resolve_right fun h => hSame (h.symm.trans hKind)
            rw [hBlank, pageLines_cons]
            refine Recovers.of_parts (fun hEven => hSame (hEven _ List.mem_cons_self).1) ?_
            exact parts_of_other_kind hSound hOwn hKind hSame loose _
      | _ => cases hItem

end Reading

end Reflow.Doc
