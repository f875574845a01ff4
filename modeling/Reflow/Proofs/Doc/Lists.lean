import Reflow.Proofs.Doc.Items

/-!
A printed list is written as it stands exactly when its span is legible: its bullets are of one
kind, and blank lines stand above all of them or nowhere in the list.
-/

namespace Reflow.Doc

theorem isBlank_ofLine (numbered : Bool) (indent : Nat) (l : Text) :
    (Entry.ofLine numbered indent l).isBlank = Text.allBlank l := by
  have hWhole : Entry.isBlank (if (Text.trim l).isEmpty then .blank else .text (Text.trim l)) =
      Text.allBlank l := by
    cases hBlank : Text.allBlank l with
    | false =>
        have hNe : Text.trim l ≠ [] := fun hNil => by
          rw [Text.trim_eq_nil_iff.mp hNil] at hBlank
          cases hBlank
        rw [if_neg (by simpa using hNe)]
        rfl
    | true => rw [Text.trim_eq_nil_iff.mpr hBlank]; rfl
  rw [Entry.ofLine]
  split
  · exact hWhole
  next marker rest hItem =>
    split
    · have hMarker := (Option.filter_eq_some_iff.mp hItem).1
      cases hBlank : Text.allBlank l with
      | false => rfl
      | true =>
          rw [Text.trim_eq_nil_iff.mpr hBlank] at hMarker
          cases hMarker
    · exact hWhole

/-- Without blank lines every item is one paragraph, so such a list is not loose. -/
theorem length_paragraphs_of_mem_ofEntries {entries : List Entry}
    (h : ∀ e ∈ entries, e.isBlank = false) {item : Item} (hItem : item ∈ Item.ofEntries entries) :
    item.paragraphs.length = 1 := by
  induction entries with
  | nil => cases hItem
  | cons e entries ih =>
      have hRest := ih (List.forall_mem_cons.mp h).2
      cases e with
      | item number t =>
          rcases List.mem_cons.mp hItem with rfl | hItem
          · have hText :
                ∀ o ∈ (Entry.text t :: entries.takeWhile (!Entry.isItem ·)).map Entry.text?,
                o.isNone = false := by
              intro o ho
              obtain ⟨e, he, rfl⟩ := List.mem_map.mp ho
              rcases List.mem_cons.mp he with rfl | he
              · rfl
              · have hSolid := h e (List.mem_cons_of_mem _ ((List.takeWhile_prefix _).subset he))
                cases e with
                | blank => cases hSolid
                | item => rfl
                | text => rfl
            rw [itemParagraphs, List.splitOnP_eq_singleton hText]
            simp [Entry.text?]
          · exact hRest hItem
      | text t => exact hRest hItem
      | blank => exact hRest hItem

/-- A blank line in a list is noted, wherever it stands. A line of blanks does not count, which is
why there is none. -/
theorem forceBlankBetween_ofLines_iff (detached : Bool) {ls : List Text}
    (hls : ∀ l ∈ ls, Text.allBlank l = true → l = []) :
    (ItemList.ofLines detached ls).forceBlankBetween = true ↔ [] ∈ ls := by
  simp only [ItemList.ofLines, List.any_map, List.any_eq_true, Function.comp_apply, isBlank_ofLine]
  constructor
  · rintro ⟨l, hl, h⟩
    exact hls l hl h ▸ hl
  · exact fun h => ⟨[], h, rfl⟩

/-- A list is loose exactly when there is a blank line in it: an item of several paragraphs has one
as well. -/
theorem blankBetween_ofLines_iff (detached : Bool) {ls : List Text}
    (hls : ∀ l ∈ ls, Text.allBlank l = true → l = []) :
    (ItemList.ofLines detached ls).blankBetween = true ↔ [] ∈ ls := by
  rw [ItemList.blankBetween, Bool.or_eq_true, forceBlankBetween_ofLines_iff detached hls,
    or_iff_left_iff_imp]
  intro hAny
  obtain ⟨item, hItem, hLength⟩ := List.any_eq_true.mp hAny
  by_contra hNone
  refine (bne_iff_ne.mp hLength) (length_paragraphs_of_mem_ofEntries (fun e he => ?_) hItem)
  obtain ⟨l, hl, rfl⟩ := List.mem_map.mp he
  rw [isBlank_ofLine, Bool.eq_false_iff]
  exact fun h => hNone (hls l hl h ▸ hl)

theorem Hung.indentWidth_ne {l : Text} (h : Hung l) : indentWidth l ≠ 2 := by
  obtain ⟨n, t, rfl, -, hTrim⟩ := h
  rw [indentWidth_replicate_append _ (Text.trim_eq_self_iff.mp hTrim).1]
  omega

theorem Hung.allBlank_eq_false {l : Text} (h : Hung l) : Text.allBlank l = false := by
  obtain ⟨n, t, rfl, hVisible, -⟩ := h
  rw [Text.allBlank, List.all_append, ← Text.allBlank, ← Text.allBlank, hVisible, Bool.and_false]

section Items

variable {L : Layout} {bare : Text}

/-- A line of an item is its first line, blank, or hung. Only the first stands behind two spaces. -/
theorem line_item_cases {number : Option Text} {l : Text} {ls : List Text} {more : List (List Text)}
    (h : (Stanza.item number l ls more).Sound L bare) {m : Text}
    (hm : m ∈ (Stanza.item number l ls more).lines) :
    m = ' ' :: ' ' :: (bullet number ++ l) ∨ m = [] ∨ Hung m := by
  rcases List.mem_cons.mp hm with rfl | hm
  · exact Or.inl rfl
  · exact Or.inr (hung_of_mem_itemTail h.2.1 h.2.2 hm)

/-- A line of a printed list is blank, hung, or the first line of an item. So lines behind two
spaces are bullets. -/
theorem line_list_cases {items : List (Bool × Stanza)} (hSound : ∀ p ∈ items, p.2.Sound L bare)
    (hItems : ∀ p ∈ items, p.2.kind = .list) {m : Text} (hm : m ∈ pageLines items) :
    m = [] ∨ Hung m ∨ ∃ f number l ls more, (f, Stanza.item number l ls more) ∈ items ∧
      m = ' ' :: ' ' :: (bullet number ++ l) := by
  obtain ⟨⟨f, s⟩, hp, hm⟩ := List.mem_flatMap.mp hm
  rcases List.mem_append.mp hm with hm | hm
  · refine Or.inl ?_
    split at hm
    · exact List.mem_singleton.mp hm
    · cases hm
  · have hs := hSound _ hp
    have hKind := hItems _ hp
    cases s with
    | item number l ls more =>
        rcases line_item_cases hs hm with rfl | hNil | hHung
        · exact Or.inr (Or.inr ⟨f, number, l, ls, more, hp, rfl⟩)
        · exact Or.inl hNil
        · exact Or.inr (Or.inl hHung)
    | _ => cases hKind

theorem allBlank_bullet {number : Option Text} (hNumber : ProperNumber number) (l : Text) :
    Text.allBlank (' ' :: ' ' :: (bullet number ++ l)) = false := by
  obtain ⟨c, m, hBullet, hc, -⟩ := exists_bullet_eq_cons hNumber
  rw [hBullet]
  simp [Text.allBlank, hc]

/-- A blank line of code is empty: no tab is written before it. -/
theorem IsListing.nil_of_allBlank {ls : List Text} (h : IsListing ls) {m : Text}
    (hm : m ∈ (Stanza.code ls).lines) (hBlank : Text.allBlank m = true) : m = [] := by
  obtain ⟨l, hl, rfl⟩ := List.mem_map.mp hm
  by_cases hNe : l = []
  · rw [hNe]
    rfl
  · rw [if_neg (by simpa using hNe), Text.allBlank, List.all_cons] at hBlank
    exact absurd (h.blank l hl (Bool.and_eq_true_iff.mp hBlank).2) hNe

/-- A blank line of a stanza is empty, so that it is read as blank and not as text. -/
theorem Stanza.nil_of_allBlank {s : Stanza} (hs : s.Sound L bare) {m : Text} (hm : m ∈ s.lines)
    (hBlank : Text.allBlank m = true) : m = [] := by
  have hVisible : Text.allBlank m ≠ false := by simp [hBlank]
  cases s with
  | text ls => exact absurd (hs.allBlank_eq_false hm) hVisible
  | heading t =>
      rw [List.mem_singleton.mp hm] at hVisible
      exact absurd rfl hVisible
  | code ls => exact hs.toIsListing.nil_of_allBlank hm hBlank
  | item number l ls more =>
      rcases line_item_cases hs hm with rfl | hNil | hHung
      · exact absurd (allBlank_bullet hs.1 l) hVisible
      · exact hNil
      · exact absurd hHung.allBlank_eq_false hVisible

theorem nil_of_allBlank_pageLines {page : List (Bool × Stanza)}
    (hSound : ∀ p ∈ page, p.2.Sound L bare) {m : Text} (hm : m ∈ pageLines page)
    (hBlank : Text.allBlank m = true) : m = [] := by
  obtain ⟨p, hp, hm⟩ := List.mem_flatMap.mp hm
  rcases List.mem_append.mp hm with hm | hm
  · split at hm
    · exact List.mem_singleton.mp hm
    · cases hm
  · exact Stanza.nil_of_allBlank (hSound p hp) hm hBlank

/-- The same for a printed page: its blank lines are those between stanzas and those inside, and all
are empty. -/
theorem Printed.nil_of_allBlank {apart : Bool} {s : Stanza} {rest : List (Bool × Stanza)}
    (h : Printed L bare ((apart, s) :: rest)) {m : Text} (hm : m ∈ s.lines ++ pageLines rest)
    (hBlank : Text.allBlank m = true) : m = [] := by
  apply nil_of_allBlank_pageLines h.sound _ hBlank
  rw [pageLines_cons]
  exact List.mem_append_right _ hm

/-- The bullets of a list are of one kind exactly when its stanzas are. The left side is told from
the lines, and the right side from what they were printed from. -/
theorem isNumbered_bullets_iff {apart : Bool} {number : Option Text} {l : Text} {ls : List Text}
    {more : List (List Text)} {items : List (Bool × Stanza)}
    (hPrinted : Printed L bare ((apart, .item number l ls more) :: items))
    (hItems : ∀ p ∈ items, p.2.kind = .list) :
    (∀ m ∈ (Stanza.item number l ls more).lines ++ pageLines items, indentWidth m = 2 →
        isNumbered m = number.isSome) ↔ ∀ p ∈ items, p.2.isNumbered = number.isSome := by
  obtain ⟨hSound, hRest⟩ := List.forall_mem_cons.mp hPrinted.sound
  have hWidth : indentWidth [] ≠ 2 := by decide
  constructor
  · rintro hLines ⟨f, s⟩ hp
    have hKind := hItems _ hp
    have hs := hRest _ hp
    cases s with
    | item m k ks kmore =>
        have hMem : ' ' :: ' ' :: (bullet m ++ k) ∈ pageLines items :=
          List.mem_flatMap.mpr ⟨_, hp, List.mem_append_right _ List.mem_cons_self⟩
        have hLine := hLines _ (List.mem_append_right _ hMem)
          (indentWidth_bullet hs.1 k)
        rwa [isNumbered_bullet hs.2.1 List.mem_cons_self hs.1] at hLine
    | _ => cases hKind
  · intro hKinds m hm hTwo
    rcases List.mem_append.mp hm with hm | hm
    · rcases line_item_cases hSound hm with rfl | rfl | hHung
      · exact isNumbered_bullet hSound.2.1 List.mem_cons_self hSound.1
      · exact absurd hTwo hWidth
      · exact absurd hTwo hHung.indentWidth_ne
    · rcases line_list_cases hRest hItems hm with rfl | hHung | ⟨f, k, t, ts, kmore, hp, rfl⟩
      · exact absurd hTwo hWidth
      · exact absurd hTwo hHung.indentWidth_ne
      · have hs := hRest _ hp
        rw [isNumbered_bullet hs.2.1 List.mem_cons_self hs.1]
        exact hKinds _ hp

theorem isChain_of_forall_tail {ls : List Text} (h : ∀ l ∈ ls.tail, indentWidth l ≠ 2) :
    ls.IsChain fun a b => indentWidth b = 2 → a = [] := by
  have hAny : ls.IsChain fun _ _ => True := (List.pairwise_of_forall fun _ _ => trivial).isChain
  exact hAny.imp_of_mem_tail_imp fun a b _ hb _ hTwo => absurd hTwo (h b hb)

/-- A bullet stands on no line of an item but the first, so within an item there is nothing to
ask. -/
theorem isChain_item {number : Option Text} {l : Text} {ls : List Text} {more : List (List Text)}
    (hs : (Stanza.item number l ls more).Sound L bare) :
    (Stanza.item number l ls more).lines.IsChain fun a b => indentWidth b = 2 → a = [] := by
  have hWidth : indentWidth [] ≠ 2 := by decide
  refine isChain_of_forall_tail fun m hm => ?_
  rcases hung_of_mem_itemTail hs.2.1 hs.2.2 hm with rfl | hHung
  · exact hWidth
  · exact hHung.indentWidth_ne

/-- A blank line stands above every bullet but the first exactly when every stanza has one. What is
in the items does not matter. -/
theorem isChain_bullets_iff {apart : Bool} {number : Option Text} {l : Text} {ls : List Text}
    {more : List (List Text)} {items : List (Bool × Stanza)}
    (hPrinted : Printed L bare ((apart, .item number l ls more) :: items))
    (hItems : ∀ p ∈ items, p.2.kind = .list) :
    ((Stanza.item number l ls more).lines ++ pageLines items).IsChain
        (fun a b => indentWidth b = 2 → a = []) ↔ ∀ p ∈ items, p.1 = true := by
  have hWidth : indentWidth [] ≠ 2 := by decide
  induction items generalizing apart number l ls more with
  | nil =>
      have hSound : (Stanza.item number l ls more).Sound L bare :=
        hPrinted.sound _ List.mem_cons_self
      refine ⟨fun _ => nofun, fun _ => ?_⟩
      rw [show pageLines [] = [] from rfl, List.append_nil]
      exact isChain_item hSound
  | cons p items ih =>
      obtain ⟨hSound, hRest⟩ := List.forall_mem_cons.mp hPrinted.sound
      have hChain := (List.isChain_cons.mp hPrinted.follows).2
      obtain ⟨f, s⟩ := p
      obtain ⟨hItem, hOthers⟩ := List.forall_mem_cons.mp hItems
      cases s with
      | item m k ks kmore =>
          have hOwn : (Stanza.item m k ks kmore).Sound L bare := hRest _ List.mem_cons_self
          have hPrintedBelow : Printed L bare ((f, .item m k ks kmore) :: items) := ⟨hRest, hChain⟩
          have hBelow := ih hPrintedBelow hOthers
          have hTwo := indentWidth_bullet hOwn.1 k
          rw [pageLines_cons, List.isChain_append, List.forall_mem_cons]
          cases f with
          | true =>
              rw [show List.replicate true.toNat ([] : Text) = [[]] from rfl, List.singleton_append,
                List.isChain_cons]
              refine ⟨fun h => ⟨rfl, hBelow.mp h.2.1.2⟩,
                fun h => ⟨isChain_item hSound, ⟨fun _ _ _ => rfl, hBelow.mpr h.2⟩, ?_⟩⟩
              intro a _ b hb hTwo
              rw [← Option.some.inj hb] at hTwo
              exact absurd hTwo hWidth
          | false =>
              refine ⟨fun h => ?_, fun h => by cases h.1⟩
              -- The line above the bullet is the last one of an item, which is not blank.
              obtain ⟨x, hLast⟩ : ∃ x, (Stanza.item number l ls more).lines.getLast? = some x :=
                Option.isSome_iff_exists.mp (by simp [Stanza.lines])
              have hNil := h.2.2 x hLast _ rfl hTwo
              exact absurd (hNil ▸ hLast) (Stanza.edges hSound).2
      | _ => cases hItem

variable {apart : Bool} {number : Option Text} {l : Text} {ls : List Text} {more : List (List Text)}
  {items : List (Bool × Stanza)}
  (hPrinted : Printed L bare ((apart, .item number l ls more) :: items))
  (hItems : ∀ p ∈ items, p.2.kind = .list)
include hPrinted hItems

omit hItems in
/-- The items of a printed list are read with the kind of its first bullet, and at its two
spaces. -/
theorem items_ofLines (detached : Bool) :
    (ItemList.ofLines detached ((Stanza.item number l ls more).lines ++ pageLines items)).items =
      Item.ofEntries (((Stanza.item number l ls more).lines ++ pageLines items).map
        (Entry.ofLine number.isSome 2)) := by
  obtain ⟨hNumber, hFirst, -⟩ := hPrinted.sound _ List.mem_cons_self
  have hHead : ((Stanza.item number l ls more).lines ++ pageLines items).head?.getD [] =
      ' ' :: ' ' :: (bullet number ++ l) := rfl
  have hKind := isNumbered_bullet hFirst List.mem_cons_self hNumber
  rw [isNumbered] at hKind
  simp only [ItemList.ofLines, hHead, hKind, indentWidth_bullet hNumber l]

/-- The span of a printed list is written as it stands if it is legible, and else parts from what
was printed. Legible is said of the lines alone, so it can be evaluated without knowing the
stanzas. -/
theorem recovers_list (detached : Bool) (start : Nat) :
    Recovers
      (Span.Legible ⟨.list, start, (Stanza.item number l ls more).lines ++ pageLines items⟩)
      (blockLines L bare (Block.ofSpan detached
        ⟨.list, start, (Stanza.item number l ls more).lines ++ pageLines items⟩))
      (((Stanza.item number l ls more).lines ++ pageLines items).map (commentLine bare)) := by
  obtain ⟨hNumber, hFirst, -⟩ := hPrinted.sound _ List.mem_cons_self
  have hLoose := blankBetween_ofLines_iff detached fun m => hPrinted.nil_of_allBlank
  have hApart : ∀ p ∈ items, p.1 = true → (ItemList.ofLines detached
      ((Stanza.item number l ls more).lines ++ pageLines items)).blankBetween = true := by
    intro p hp hTrue
    refine hLoose.mpr (List.mem_append_right _ (List.mem_flatMap.mpr ⟨p, hp, ?_⟩))
    simp [hTrue]
  have hRead := recovers_items hPrinted hItems rfl hApart
  rw [← items_ofLines hPrinted detached, ← listLines_eq] at hRead
  refine hRead.congr ?_
  have hHead : ((Stanza.item number l ls more).lines ++ pageLines items).head?.getD [] =
      ' ' :: ' ' :: (bullet number ++ l) := rfl
  have hWidth := indentWidth_bullet hNumber l
  have hKind := isNumbered_bullet hFirst List.mem_cons_self hNumber
  have hKinds := isNumbered_bullets_iff hPrinted hItems
  have hChain := isChain_bullets_iff hPrinted hItems
  simp only [Span.Legible, hHead, hWidth, hKind, reduceCtorEq, false_imp_iff, true_and,
    true_imp_iff]
  rw [hKinds, hChain, ← hLoose, Even]
  exact ⟨fun h => ⟨fun p hp => (h p hp).1, fun hTrue p hp => (h p hp).2 hTrue⟩,
    fun h p hp => ⟨h.1 p hp, fun hTrue => h.2 hTrue p hp⟩⟩

end Items

end Reflow.Doc
