import Reflow.Proofs.Doc.Division
import Reflow.Proofs.Doc.Proper

/-!
What the printer promises: proper blocks are written as a page of stanzas behind the comment marker.
Two blocks of code one after the other become one stanza, since they cannot be told apart.
-/

namespace Reflow.Doc

@[simp] theorem commentLine_nil (bare : Text) : commentLine bare [] = bare := rfl

theorem commentLine_tab (bare l : Text) : commentLine bare ('\t' :: l) = bare ++ '\t' :: l := rfl

/-- A line that does not start with a tab stands behind the marker and a space. -/
theorem commentLine_of_head {bare l : Text} (hNe : l ≠ []) (hHead : l.head? ≠ some '\t') :
    commentLine bare l = textMargin bare ++ l := by
  obtain ⟨c, l, rfl⟩ := List.exists_cons_of_ne_nil hNe
  rw [commentLine, if_neg (by simpa using hHead), textMargin, List.append_assoc]
  rfl

theorem commentLine_of_filled {L : Layout} {margin : Text} {ls : List Text} (h : Filled L margin ls)
    (bare : Text) {l : Text} (hl : l ∈ ls) : commentLine bare l = textMargin bare ++ l := by
  refine commentLine_of_head (h.line_ne_nil hl) fun hHead => ?_
  cases h.isBlank_head hl hHead

theorem commentLine_hang (bare : Text) (number : Option Text) (l : Text) :
    commentLine bare (hang number ++ l) = textMargin bare ++ hang number ++ l := by
  rw [List.append_assoc, hang, Nat.add_comm, List.replicate_succ]
  exact commentLine_of_head (by simp) (by simp)

/-- Prose is wrapped to filled lines, behind one margin or behind two that leave the same room.
There is at least one line. -/
theorem IsProse.exists_filled_wrap {L : Layout} {first next t : Text} (ht : IsProse t)
    (hRoom : L.room first = L.room next) :
    ∃ m ms, Filled L next (m :: ms) ∧ wrapped L next t = m :: ms ∧
      wrap L first next t = (first ++ m) :: ms.map (next ++ ·) := by
  obtain ⟨ls, hNe, rfl, hLines⟩ := ht
  apply Reflow.exists_filled_wrap hRoom hNe
  exact fun l hl => ⟨(hLines l hl).spaced, (hLines l hl).visible, (hLines l hl).feed⟩

/-- The lines of an item's paragraphs behind its hanging indentation. -/
def Item.wrapped (L : Layout) (bare : Text) (item : Item) : List (List Text) :=
  item.paragraphs.map fun p =>
    Reflow.wrapped L (textMargin bare ++ hang item.number) (Inline.flatten p)

/-- The paragraphs of an item below its first one are filled lines behind the hanging indentation,
each below a bare marker. -/
theorem exists_filled_paragraphs {L : Layout} (bare : Text) (number : Option Text)
    {ps : List (List Inline.Span)} (hps : ∀ p ∈ ps, IsProse (Inline.flatten p)) :
    ∃ more : List (List Text),
      (ps.map fun p => wrapped L (textMargin bare ++ hang number) (Inline.flatten p)) = more ∧
      (∀ p ∈ more, Filled L (textMargin bare ++ hang number) p) ∧
      (ps.flatMap fun q => bare :: wrap L (textMargin bare ++ hang number)
        (textMargin bare ++ hang number) (Inline.flatten q)) =
        (more.flatMap fun p => [] :: p.map (hang number ++ ·)).map (commentLine bare) := by
  induction ps with
  | nil => exact ⟨[], rfl, nofun, rfl⟩
  | cons p ps ih =>
      obtain ⟨hProse, hRest⟩ := List.forall_mem_cons.mp hps
      obtain ⟨more, hMap, hFilled, hEq⟩ := ih hRest
      have hRoom : L.room (textMargin bare ++ hang number) =
          L.room (textMargin bare ++ hang number) := rfl
      obtain ⟨m, ms, hOwn, hWrapped, hWrap⟩ := hProse.exists_filled_wrap hRoom
      refine ⟨(m :: ms) :: more, ?_, List.forall_mem_cons.mpr ⟨hOwn, hFilled⟩, ?_⟩
      · rw [List.map_cons, hWrapped, hMap]
      · rw [List.flatMap_cons, hWrap, hEq]
        simp [commentLine_hang]

/-- A proper item is written as a stanza, whose lines are those of its wrapped paragraphs. -/
theorem exists_item_lines {L : Layout} (bare : Text) {numbered : Bool} {item : Item}
    (h : item.Proper numbered) :
    ∃ l ls more, item.wrapped L bare = (l :: ls) :: more ∧
      (Stanza.item item.number l ls more).Sound L bare ∧
      itemLines L bare item = (Stanza.item item.number l ls more).lines.map (commentLine bare) := by
  have hBullet : bulletText item = bullet item.number := rfl
  obtain ⟨p, ps, hParagraphs⟩ := List.exists_cons_of_ne_nil h.ne_nil
  have hAll := h.prose
  rw [hParagraphs] at hAll
  obtain ⟨hProse, hRest⟩ := List.forall_mem_cons.mp hAll
  obtain ⟨l, ls, hFirst, hWrapped, hWrap⟩ := hProse.exists_filled_wrap (room_bullet h.number L bare)
  obtain ⟨more, hMap, hFilled, hEq⟩ := exists_filled_paragraphs (L := L) bare item.number hRest
  refine ⟨l, ls, more, ?_, ⟨h.number, hFirst, hFilled⟩, ?_⟩
  · rw [Item.wrapped, hParagraphs, List.map_cons, hWrapped, hMap]
  have hHang : List.replicate (2 + (bullet item.number).length) ' ' = hang item.number := rfl
  have hLine : textMargin bare ++ [' ', ' '] ++ bullet item.number ++ l =
      commentLine bare (' ' :: ' ' :: (bullet item.number ++ l)) := by
    rw [commentLine_of_head (by simp) (by simp)]
    simp
  rw [itemLines, hParagraphs]
  simp only [hBullet, hHang, hWrap, hEq, hLine, Stanza.lines, itemTail, List.map_cons,
    List.map_append, List.cons_append, List.map_map]
  congr 2
  exact List.map_congr_left fun m _ => (commentLine_hang bare item.number m).symm

namespace Stanza

/-- The kind of block that the stanza is read as. An item is read as a list, with the items below
it. -/
def kind : Stanza → SpanKind
  | text _ => .paragraph
  | heading _ => .heading
  | code _ => .code
  | item .. => .list

theorem follows_of_apart {p q : Bool × Stanza} (hApart : q.1 = true)
    (hCode : p.2.kind = .code → q.2.kind ≠ .code) : Follows p q := by
  obtain ⟨f, s⟩ := p
  obtain ⟨g, t⟩ := q
  cases s <;> cases t <;> first | exact hApart | trivial | exact Or.inl hApart | exact hCode rfl rfl

theorem follows_of_paragraph {p q : Bool × Stanza} (hText : p.2.kind = .paragraph)
    (hItem : q.2.kind = .list) : Follows p q := by
  obtain ⟨f, s⟩ := p
  obtain ⟨g, t⟩ := q
  cases s with
  | text ls =>
      cases t with
      | item => trivial
      | _ => cases hItem
  | _ => cases hText

end Stanza

/-- The kind of span that a block is read from. -/
def Block.kind : Block → SpanKind
  | .paragraph _ => .paragraph
  | .heading _ => .heading
  | .code _ => .code
  | .list _ => .list

/-- The separator between two blocks lets the stanzas of the second follow those of the first,
unless both are code. -/
theorem follows_of_needsSeparator {b c : Block} {p : Bool × Stanza} {s : Stanza}
    (hp : p.2.kind = b.kind) (hs : s.kind = c.kind) (hCode : b.kind = .code → c.kind ≠ .code) :
    Stanza.Follows p (needsSeparator b c, s) := by
  by_cases hSep : needsSeparator b c = true
  · apply Stanza.follows_of_apart hSep
    rw [hp, hs]
    exact hCode
  · cases b with
    | paragraph q =>
        cases c with
        | list l => exact Stanza.follows_of_paragraph hp hs
        | _ => exact absurd rfl hSep
    | _ => exact absurd rfl hSep

theorem map_replicate_toNat (bare : Text) (apart : Bool) :
    (List.replicate apart.toNat []).map (commentLine bare) = if apart then [bare] else [] := by
  cases apart <;> rfl

/-- The stanza of an item, with the lines of its paragraphs. Only the page decides how these are
broken. -/
def Stanza.Shows (L : Layout) (bare : Text) (item : Item) (s : Stanza) : Prop :=
  ∃ l ls more, s = .item item.number l ls more ∧ item.wrapped L bare = (l :: ls) :: more

theorem exists_of_mem_forall₂ {α β : Type} {R : α → β → Prop} {as : List α} {bs : List β}
    (h : List.Forall₂ R as bs) {b : β} (hb : b ∈ bs) : ∃ a ∈ as, R a b := by
  induction h with
  | nil => cases hb
  | @cons a c as bs hR _ ih =>
      rcases List.mem_cons.mp hb with rfl | hb
      · exact ⟨a, List.mem_cons_self, hR⟩
      · obtain ⟨d, hd, hRest⟩ := ih hb
        exact ⟨d, List.mem_cons_of_mem a hd, hRest⟩

theorem kind_eq_of_forall₂_shows {L : Layout} {bare : Text} {items : List Item} {ss : List Stanza}
    (h : List.Forall₂ (Stanza.Shows L bare) items ss) {s : Stanza} (hs : s ∈ ss) :
    s.kind = .list := by
  obtain ⟨item, -, l, ls, more, rfl, -⟩ := exists_of_mem_forall₂ h hs
  rfl

/-- The items of a list below its first one are written as stanzas, each of which may follow another
item of the list. Between two items stands the same, a blank line or nothing. -/
theorem exists_items_page {L : Layout} (bare : Text) {numbered : Bool} (apart : Bool)
    {items : List Item} (hItems : ∀ item ∈ items, item.Proper numbered) :
    ∃ rest : List (Bool × Stanza), Printed L bare rest ∧
      List.Forall₂ (Stanza.Shows L bare) items (rest.map Prod.snd) ∧
      (∀ p ∈ rest, p.1 = apart ∧ ∀ m k ks more, m.isSome = numbered →
        Stanza.Follows (false, .item m k ks more) p) ∧
      (items.flatMap fun item => (if apart then [bare] else []) ++ itemLines L bare item) =
        (pageLines rest).map (commentLine bare) := by
  induction items with
  | nil => exact ⟨[], ⟨nofun, .nil⟩, .nil, nofun, rfl⟩
  | cons item items ih =>
      obtain ⟨hItem, hRest⟩ := List.forall_mem_cons.mp hItems
      obtain ⟨rest, hPrinted, hShows, hFlags, hEq⟩ := ih hRest
      obtain ⟨k, ks, more, hWrapped, hSound, hLines⟩ := exists_item_lines (L := L) bare hItem
      refine ⟨(apart, .item item.number k ks more) :: rest, ⟨?_, ?_⟩, ?_, ?_, ?_⟩
      · exact List.forall_mem_cons.mpr ⟨hSound, hPrinted.sound⟩
      · refine List.isChain_cons.mpr ⟨fun q hq => ?_, hPrinted.follows⟩
        exact (hFlags q (List.mem_of_mem_head? hq)).2 _ k ks more hItem.kind
      · exact .cons ⟨k, ks, more, rfl, hWrapped⟩ hShows
      · refine List.forall_mem_cons.mpr ⟨⟨rfl, fun m _ _ _ hm => ?_⟩, hFlags⟩
        exact Or.inr (hm.trans hItem.kind.symm)
      · rw [List.flatMap_cons, hLines, hEq, pageLines_cons, List.map_append, List.map_append,
          map_replicate_toNat, List.append_assoc]

/-- A proper list is written as stanzas, one for each item. The first may have a blank line above it
or not, as what is above the list decides. -/
theorem exists_list_page {L : Layout} (bare : Text) {l : ItemList} (h : (Block.list l).Proper) :
    ∃ s rest, (∀ apart, Printed L bare ((apart, s) :: rest)) ∧
      List.Forall₂ (Stanza.Shows L bare) l.items (s :: rest.map Prod.snd) ∧
      (∀ p ∈ rest, p.1 = l.blankBetween) ∧
      listLines L bare l = (s.lines ++ pageLines rest).map (commentLine bare) := by
  obtain ⟨hNe, numbered, hItems⟩ := h
  obtain ⟨item, items, hCons⟩ := List.exists_cons_of_ne_nil hNe
  rw [hCons] at hItems
  obtain ⟨hItem, hOthers⟩ := List.forall_mem_cons.mp hItems
  obtain ⟨rest, hPrinted, hShows, hFlags, hEq⟩ :=
    exists_items_page (L := L) bare l.blankBetween hOthers
  obtain ⟨k, ks, more, hWrapped, hSound, hLines⟩ := exists_item_lines (L := L) bare hItem
  refine ⟨.item item.number k ks more, rest, fun apart => ⟨?_, ?_⟩, ?_,
    fun p hp => (hFlags p hp).1, ?_⟩
  · exact List.forall_mem_cons.mpr ⟨hSound, hPrinted.sound⟩
  · refine List.isChain_cons.mpr ⟨fun q hq => ?_, hPrinted.follows⟩
    exact (hFlags q (List.mem_of_mem_head? hq)).2 _ k ks more hItem.kind
  · rw [hCons]
    exact .cons ⟨k, ks, more, rfl, hWrapped⟩ hShows
  · rw [listLines, hCons]
    simp only [hLines, hEq, List.map_append]

theorem blockLines_code (L : Layout) (bare : Text) (ls : List Text) :
    blockLines L bare (.code ls) = (Stanza.code ls).lines.map (commentLine bare) := by
  rw [blockLines, Stanza.lines, List.map_map]
  refine List.map_congr_left fun l _ => ?_
  rw [Function.comp_apply]
  split
  · rfl
  · exact (commentLine_tab bare l).symm

/-- A proper block is written as stanzas of its kind: a list as one for each item, and every other
block as a single one. -/
theorem exists_block_page {L : Layout} (bare : Text) {b : Block} (h : b.Proper) :
    ∃ s rest, (∀ apart, Printed L bare ((apart, s) :: rest)) ∧
      s.kind = b.kind ∧ (∀ p ∈ rest, p.2.kind = b.kind) ∧
      blockLines L bare b = (s.lines ++ pageLines rest).map (commentLine bare) := by
  have hSingle : ∀ s : Stanza, s.Sound L bare → ∀ apart, Printed L bare [(apart, s)] := by
    intro s hs apart
    refine ⟨fun p hp => ?_, List.isChain_singleton _⟩
    rw [List.mem_singleton.mp hp]
    exact hs
  cases b with
  | paragraph p =>
      have hRoom : L.room (textMargin bare) = L.room (textMargin bare) := rfl
      obtain ⟨m, ms, hFilled, -, hWrap⟩ := IsProse.exists_filled_wrap h hRoom
      refine ⟨.text (m :: ms), [], hSingle _ hFilled, rfl, nofun, ?_⟩
      rw [blockLines, hWrap, pageLines, List.flatMap_nil, List.append_nil, Stanza.lines,
        ← List.map_cons]
      exact List.map_congr_left fun l hl => (commentLine_of_filled hFilled bare hl).symm
  | heading p =>
      refine ⟨.heading (Inline.flatten p), [], hSingle _ h, rfl, nofun, ?_⟩
      simp [blockLines, Stanza.lines, pageLines, commentLine, textMargin]
  | code ls =>
      refine ⟨.code ls, [], hSingle _ h, rfl, nofun, ?_⟩
      rw [blockLines_code, pageLines, List.flatMap_nil, List.append_nil]
  | list l =>
      obtain ⟨s, rest, hPrinted, hShows, -, hLines⟩ := exists_list_page (L := L) bare h
      obtain ⟨hFirst, hOthers⟩ := List.forall_mem_cons.mp fun t =>
        kind_eq_of_forall₂_shows hShows (s := t)
      exact ⟨s, rest, hPrinted, hFirst, fun p hp => hOthers p.2 (List.mem_map_of_mem hp), hLines⟩

theorem foldl_commonStart_nil (indents : List Text) : indents.foldl commonStart [] = [] := by
  induction indents with
  | nil => rfl
  | cons indent indents ih => exact ih

theorem sharedIndent_append {ls : List Text} {l : Text} (hl : l ∈ ls) (hNe : l ≠ [])
    (h : sharedIndent ls = []) (ms : List Text) : sharedIndent (ls ++ ms) = [] := by
  have hMem : l.takeWhile isGap ∈ (ls.filter (!List.isEmpty ·)).map fun l => l.takeWhile isGap :=
    List.mem_map_of_mem (List.mem_filter.mpr ⟨hl, by simpa using hNe⟩)
  obtain ⟨indent, indents, hIndents⟩ := List.exists_cons_of_ne_nil (List.ne_nil_of_mem hMem)
  rw [sharedIndent, hIndents] at h
  rw [sharedIndent, List.filter_append, List.map_append, hIndents]
  simp only [List.cons_append, List.foldl_append]
  rw [show indents.foldl commonStart indent = [] from h, foldl_commonStart_nil]

/-- Two blocks of code with a blank line between them are one, since a second pass cannot tell them
apart. -/
theorem isCode_append {ls ms : List Text} (hls : IsCode ls) (hms : IsCode ms) :
    IsCode (ls ++ [] :: ms) := by
  obtain ⟨l, rest, rfl, hNe, hItem⟩ := hls.first
  obtain ⟨m, others, rfl, -, -⟩ := hms.first
  refine ⟨⟨⟨l, _, rfl, hNe, hItem⟩, ?_, fun k hk => ?_, ?_⟩, fun k hk => ?_⟩
  · rw [List.getLast?_append_of_ne_nil _ (by simp), List.getLast?_cons_cons]
    exact hms.last
  · rcases List.mem_append.mp hk with hk | hk
    · exact hls.blank k hk
    · rcases List.mem_cons.mp hk with rfl | hk
      · exact fun _ => rfl
      · exact hms.blank k hk
  · exact sharedIndent_append List.mem_cons_self hNe hls.indent _
  · rcases List.mem_append.mp hk with hk | hk
    · exact hls.plain k hk
    · rcases List.mem_cons.mp hk with rfl | hk
      · rfl
      · exact hms.plain k hk

/-- Code above code is written as one stanza of code, so no page has two of them in a row. -/
theorem Printed.cons_code {L : Layout} {bare : Text} {ls ms : List Text} {f : Bool}
    {below : List (Bool × Stanza)} (h : Printed L bare ((f, .code ms) :: below)) (hls : IsCode ls)
    (apart : Bool) : Printed L bare ((apart, .code (ls ++ [] :: ms)) :: below) := by
  obtain ⟨hms, hBelow⟩ := List.forall_mem_cons.mp h.sound
  have hChain := List.isChain_cons.mp h.follows
  exact ⟨List.forall_mem_cons.mpr ⟨isCode_append hls hms, hBelow⟩,
    List.isChain_cons.mpr ⟨fun q hq => (hChain.1 q hq).of_code, hChain.2⟩⟩

/-- Proper blocks are written as a page of stanzas. There may be fewer stanzas than blocks, where
code stands below code. -/
theorem exists_page {L : Layout} (bare : Text) (b : Block) (bs : List Block)
    (h : ∀ c ∈ b :: bs, c.Proper) :
    ∃ s rest, (∀ apart, Printed L bare ((apart, s) :: rest)) ∧ s.kind = b.kind ∧
      blocksLines L bare (b :: bs) = (s.lines ++ pageLines rest).map (commentLine bare) := by
  induction bs generalizing b with
  | nil =>
      obtain ⟨s, rest, hPrinted, hFirst, -, hLines⟩ :=
        exists_block_page (L := L) bare (h b List.mem_cons_self)
      exact ⟨s, rest, hPrinted, hFirst, hLines⟩
  | cons c bs ih =>
      obtain ⟨hb, hRest⟩ := List.forall_mem_cons.mp h
      obtain ⟨t, below, hBelow, hKind, hLower⟩ := ih c hRest
      -- Two blocks of code in a row are written as one stanza, as they are read back.
      by_cases hCode : b.kind = .code ∧ c.kind = .code
      · obtain ⟨hCode, hOther⟩ := hCode
        rw [hOther] at hKind
        cases b with
        | code ls =>
            cases t with
            | code ms =>
                have hJoin : (Stanza.code (ls ++ [] :: ms)).lines =
                    (Stanza.code ls).lines ++ [] :: (Stanza.code ms).lines := by simp [Stanza.lines]
                refine ⟨.code (ls ++ [] :: ms), below, (hBelow true).cons_code hb, rfl, ?_⟩
                rw [blocksLines, hLower, blockLines_code, hJoin]
                simp [needsSeparator]
            | _ => cases hKind
        | _ => cases hCode
      · obtain ⟨s, rest, hPrinted, hFirst, hKinds, hUpper⟩ := exists_block_page (L := L) bare hb
        refine ⟨s, rest ++ (needsSeparator b c, t) :: below, fun apart => ⟨?_, ?_⟩, hFirst, ?_⟩
        · rw [← List.cons_append, List.forall_mem_append]
          exact ⟨(hPrinted apart).sound, (hBelow _).sound⟩
        · rw [← List.cons_append, List.isChain_append]
          refine ⟨(hPrinted apart).follows, (hBelow _).follows, fun p hp q hq => ?_⟩
          rw [← Option.some.inj hq]
          refine follows_of_needsSeparator ?_ hKind fun hb hc => hCode ⟨hb, hc⟩
          rcases List.mem_cons.mp (List.mem_of_getLast? hp) with rfl | hp
          · exact hFirst
          · exact hKinds p hp
        · rw [blocksLines, hUpper, hLower, pageLines_append, pageLines_cons, ← map_replicate_toNat]
          simp only [List.map_append, List.append_assoc]

/-- A rewrapped comment of single-spaced lines is laid out, on a page of any width. This is what the
second pass starts from. -/
theorem exists_laid_render (L : Layout) (bare : Text) {lines : List Text}
    (h : ∀ l ∈ lines, SingleSpaced l ∧ '\n' ∉ l ∧ isDecoration l = false) :
    ∃ ls, Laid L bare ls ∧ render L bare lines = ls.map (commentLine bare) := by
  have hProper : ∀ b ∈ parse (interior lines), b.Proper := fun b hb =>
    proper_of_mem_parse (fun l hl => h l (List.mem_of_mem_take (List.mem_of_mem_drop hl))) hb
  have hEdge : ∀ n, List.replicate n bare = (List.replicate n []).map (commentLine bare) :=
    fun n => by
    rw [List.map_replicate]
    rfl
  have hFront : ∀ n, ∀ l ∈ List.replicate n ([] : Text), l = [] ∨ Hung l := fun n l hl =>
    Or.inl (List.eq_of_mem_replicate hl)
  rw [render]
  obtain ⟨leading, trailing⟩ := blankEdges lines
  simp only [hEdge]
  cases hBlocks : parse (interior lines) with
  | nil =>
      refine ⟨_,
        ⟨List.replicate leading [], [], trailing, rfl, hFront _, ⟨List.forall_mem_nil _, .nil⟩⟩, ?_⟩
      rw [List.map_append, List.map_append]
      rfl
  | cons b bs =>
      rw [hBlocks] at hProper
      obtain ⟨s, rest, hPrinted, -, hLines⟩ := exists_page (L := L) bare b bs hProper
      refine ⟨_, ⟨List.replicate leading [], (false, s) :: rest, trailing, rfl, hFront _,
        hPrinted false⟩, ?_⟩
      rw [hLines, pageLines_cons]
      simp

end Reflow.Doc
