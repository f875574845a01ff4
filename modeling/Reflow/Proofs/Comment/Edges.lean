import Reflow.Proofs.Comment.Decoration
import Reflow.Proofs.Comment.Plain
import Reflow.Proofs.Doc.Recovery
import Reflow.Proofs.Doc.WellFormed

/-!
The blank edges of a run of line comments. Whatever is written between them starts and ends with a
line that can be seen, so a rewrapped run has as many blank lines at either end as the run had.
-/

namespace Reflow

/-- Something can be seen behind the bare marker. The line is not a separator then, and its content
is not blank. -/
def SeenBehind (bare l : Text) : Prop := ∃ r, l = bare ++ r ∧ Text.allBlank r = false

/-- Neither the first nor the last of the lines is blank behind the bare marker. What stands between
them does not matter, and there is at least one line. -/
structure SeenEdges (bare : Text) (ls : List Text) : Prop where
  head : ∃ l, ls.head? = some l ∧ SeenBehind bare l
  last : ∃ l, ls.getLast? = some l ∧ SeenBehind bare l

theorem allBlank_of_mem {t : Text} {c : Char} (hc : c ∈ t) (hSeen : isBlank c = false) :
    Text.allBlank t = false := by
  rw [← Bool.not_eq_true, Text.allBlank_iff]
  intro hAll
  rw [hAll c hc] at hSeen
  cases hSeen

/-- What is written behind a longer margin is written behind the bare marker, so the margin of an
item serves as well as that of a paragraph. -/
theorem seenBehind_append {bare margin body : Text} (hMargin : bare <+: margin) {c : Char}
    (hc : c ∈ body) (hSeen : isBlank c = false) : SeenBehind bare (margin ++ body) := by
  obtain ⟨gap, rfl⟩ := hMargin
  exact ⟨gap ++ body, List.append_assoc .., allBlank_of_mem (List.mem_append_right gap hc) hSeen⟩

namespace SeenEdges

variable {bare : Text} {xs ys : List Text}

theorem singleton {l : Text} (h : SeenBehind bare l) : SeenEdges bare [l] :=
  ⟨⟨l, rfl, h⟩, ⟨l, rfl, h⟩⟩

/-- Lines between two parts do not matter, so blank lines may be written there. -/
theorem append (hx : SeenEdges bare xs) (hy : SeenEdges bare ys) (between : List Text) :
    SeenEdges bare (xs ++ between ++ ys) := by
  obtain ⟨first, hFirst, hSeenFirst⟩ := hx.head
  obtain ⟨last, hLast, hSeenLast⟩ := hy.last
  constructor
  · exact ⟨first, by rw [List.append_assoc, List.head?_append, hFirst, Option.some_or], hSeenFirst⟩
  · exact ⟨last, by rw [List.getLast?_append, hLast, Option.some_or], hSeenLast⟩

/-- Parts that are set apart by some lines, of which there may be none. Items of a list and blocks
of a comment are written in this way. -/
theorem append_flatMap {α : Type} {parts : List α} {lines : α → List Text}
    (hx : SeenEdges bare xs) (hParts : ∀ a ∈ parts, SeenEdges bare (lines a))
    (between : List Text) :
    SeenEdges bare (xs ++ parts.flatMap fun a => between ++ lines a) := by
  induction parts generalizing xs with
  | nil => simpa using hx
  | cons a parts ih =>
      obtain ⟨ha, hRest⟩ := List.forall_mem_cons.mp hParts
      rw [List.flatMap_cons, ← List.append_assoc, ← List.append_assoc]
      exact ih (hx.append ha between) hRest

end SeenEdges

section Wrapping

open Packing

theorem isBlank_head_of_mem_paragraphs {t p : Text} (h : p ∈ paragraphs t) {c : Char}
    (hc : p.head? = some c) : isBlank c = false := by
  obtain ⟨l, ls, rfl, hLines⟩ := exists_of_mem_paragraphs h
  obtain ⟨hNe, source, -, rfl⟩ := hLines l List.mem_cons_self
  rw [intercalate_cons_eq, List.head?_append_of_ne_nil _ hNe] at hc
  exact Text.isBlank_head_trim hc

theorem isBlank_getLast_of_mem_paragraphs {t p : Text} (h : p ∈ paragraphs t) {c : Char}
    (hc : p.getLast? = some c) : isBlank c = false := by
  obtain ⟨l, ls, rfl, hLines⟩ := exists_of_mem_paragraphs h
  obtain ⟨front, m, hSplit⟩ : ∃ front m, l :: ls = front ++ [m] :=
    ⟨_, _, (List.dropLast_append_getLast (List.cons_ne_nil l ls)).symm⟩
  obtain ⟨hNe, source, -, rfl⟩ := hLines m (by simp [hSplit])
  obtain ⟨before, hEnd⟩ := exists_intercalate_concat [' '] front (Text.trim source)
  rw [hSplit, hEnd, List.getLast?_append_of_ne_nil before hNe] at hc
  exact Text.isBlank_getLast_trim hc

/-- A text that starts with a word starts with its first one, and nothing is written before that. -/
theorem head?_ofText {t : Text} {c : Char} (hc : t.head? = some c) (hSolid : isGap c = false) :
    ∃ u, (Token.ofText t).head? = some u ∧ c ∈ u.word := by
  rcases Token.ofText_cases t with hGaps | ⟨first, rest, hFirst, hRest, rfl⟩
  · have hGap := hGaps c (List.mem_of_mem_head? hc)
    rw [hSolid] at hGap
    cases hGap
  · refine ⟨first, by rw [Token.ofText_append hFirst hRest, List.head?_cons], ?_⟩
    have hGap : first.gap = [] := by
      cases hCons : first.gap with
      | nil => rfl
      | cons d gap =>
          have hd := hFirst.gap_open d (by rw [hCons]; exact List.mem_cons_self)
          rw [Token.text, hCons] at hc
          obtain rfl : d = c := Option.some.inj hc
          rw [hSolid] at hd
          cases hd
    rw [Token.text, hGap, List.nil_append, List.head?_append_of_ne_nil _ hFirst.word_ne_nil] at hc
    exact List.mem_of_mem_head? hc

/-- A text that ends with a word ends with its last one. The induction is along the words, since the
last one is not at hand. -/
theorem getLast?_ofText {t : Text} {c : Char} (hc : t.getLast? = some c)
    (hSolid : isGap c = false) :
    ∃ u, (Token.ofText t).getLast? = some u ∧ c ∈ u.word := by
  induction t using Token.ofText_induction with
  | gaps t hGaps =>
      have hGap := hGaps c (List.mem_of_getLast? hc)
      rw [hSolid] at hGap
      cases hGap
  | word first rest hFirst hRest ih =>
      rw [Token.ofText_append hFirst hRest, List.getLast?_cons]
      cases hEnd : rest.getLast? with
      | none =>
          obtain rfl := List.getLast?_eq_none_iff.mp hEnd
          rw [List.append_nil, Token.text,
            List.getLast?_append_of_ne_nil _ hFirst.word_ne_nil] at hc
          exact ⟨first, by rw [Token.ofText_eq_nil (List.forall_mem_nil _)]; rfl,
            List.mem_of_getLast? hc⟩
      | some d =>
          rw [List.getLast?_append, hEnd] at hc
          obtain ⟨u, hu, hWord⟩ := ih (hEnd.trans hc)
          exact ⟨u, by rw [hu]; rfl, hWord⟩

namespace Packing

theorem mem_lineText_of_mem (L : Layout) {line : List Token} {u : Token} (hu : u ∈ line) {c : Char}
    (hc : c ∈ u.word) : c ∈ lineText L line := by
  cases line with
  | nil => cases hu
  | cons t ts =>
      rw [lineText, List.mem_append, List.mem_flatMap]
      rcases List.mem_cons.mp hu with rfl | hu
      · exact Or.inl hc
      · exact Or.inr ⟨u, hu, List.mem_append_right _ hc⟩

/-- No line of a division is without words, whatever the margins and the room. -/
theorem ne_nil_of_mem_divide {L : Layout} {first next : Text} {ts line : List Token}
    (h : line ∈ divide L first next ts) : line ≠ [] := by
  fun_induction divide L first next ts with
  | case1 => cases h
  | case2 first t ts ih =>
      rcases List.mem_cons.mp h with rfl | h
      · exact List.cons_ne_nil _ _
      · exact ih h

end Packing

variable {bare first next : Text} (hFirst : bare <+: first) (hNext : bare <+: next) (L : Layout)
include hFirst hNext

/-- The first and the last line of a paragraph hold its first and its last word, which are seen
behind the margin. -/
theorem seenEdges_wrapParagraph {t p : Text} (hp : p ∈ paragraphs t) :
    SeenEdges bare (wrapParagraph L first next p) := by
  have hNe : p ≠ [] := by
    rintro rfl
    exact ofText_ne_nil_of_mem_paragraphs hp (Token.ofText_eq_nil (List.forall_mem_nil _))
  have hSolid : ∀ {c}, isBlank c = false → isGap c = false := not_isGap_of_not_isBlank
  have hHead := isBlank_head_of_mem_paragraphs hp (List.head?_eq_some_head hNe)
  have hLast := isBlank_getLast_of_mem_paragraphs hp (List.getLast?_eq_some_getLast hNe)
  obtain ⟨u, hu, hFirstWord⟩ := head?_ofText (List.head?_eq_some_head hNe) (hSolid hHead)
  obtain ⟨v, hv, hLastWord⟩ := getLast?_ofText (List.getLast?_eq_some_getLast hNe) (hSolid hLast)
  have hLines : ∀ line ∈ divide L first next (Token.ofText p), line ≠ [] := fun line =>
    ne_nil_of_mem_divide
  rw [← flatten_divide L first next (Token.ofText p)] at hu hv
  rw [wrapParagraph]
  generalize divide L first next (Token.ofText p) = lines at hu hv hLines
  have hSeen : ∀ {margin line w c}, bare <+: margin → w ∈ line → c ∈ w.word → isBlank c = false →
      SeenBehind bare (margin ++ lineText L line) := fun hMargin hw hc hBlank =>
    seenBehind_append hMargin (mem_lineText_of_mem L hw hc) hBlank
  cases lines with
  | nil => cases hu
  | cons line lines =>
      constructor
      · rw [List.flatten_cons, List.head?_append_of_ne_nil _ (hLines line List.mem_cons_self)] at hu
        exact ⟨_, rfl, hSeen hFirst (List.mem_of_mem_head? hu) hFirstWord hHead⟩
      · rcases List.eq_nil_or_concat lines with rfl | ⟨front, last, rfl⟩
        · rw [List.flatten_singleton] at hv
          exact ⟨_, rfl, hSeen hFirst (List.mem_of_getLast? hv) hLastWord hLast⟩
        · have hLine : last ≠ [] := hLines last (by simp)
          rw [List.concat_eq_append, ← List.cons_append, List.flatten_append,
            List.flatten_singleton, List.getLast?_append_of_ne_nil _ hLine] at hv
          refine ⟨_, ?_, hSeen hNext (List.mem_of_getLast? hv) hLastWord hLast⟩
          rw [write, List.concat_eq_append, List.map_append, ← List.cons_append]
          exact List.getLast?_concat

/-- A wrapped text starts and ends with a line that can be seen, if the text can be seen at all.
Separators stand only between two paragraphs. -/
theorem seenEdges_wrap {t : Text} (hSeen : Text.allBlank t = false) :
    SeenEdges bare (wrap L first next t) := by
  obtain ⟨p, ps, hParagraphs⟩ := List.exists_cons_of_ne_nil (paragraphs_ne_nil hSeen)
  have hMem : ∀ q ∈ p :: ps, q ∈ paragraphs t := fun q hq => hParagraphs ▸ hq
  have hFront := seenEdges_wrapParagraph hFirst hNext L (hMem p List.mem_cons_self)
  have hBehind : ∀ q ∈ ps, SeenEdges bare (wrapParagraph L next next q) := fun q hq =>
    seenEdges_wrapParagraph hNext hNext L (hMem q (List.mem_cons_of_mem p hq))
  rw [wrap, hParagraphs]
  exact hFront.append_flatMap hBehind [Text.dropEndSpaces next]

end Wrapping

namespace Doc

variable {bare : Text} (L : Layout)

/-- An item starts and ends with a line that can be seen, if none of its paragraphs is blank and
there is one. -/
theorem seenEdges_itemLines {item : Item} (hNe : item.paragraphs ≠ [])
    (hSeen : ∀ p ∈ item.paragraphs, Text.allBlank (Inline.flatten p) = false) :
    SeenEdges bare (itemLines L bare item) := by
  obtain ⟨p, ps, hParagraphs⟩ := List.exists_cons_of_ne_nil hNe
  have hFirst : ∀ t, bare <+: textMargin bare ++ t := fun t => by
    rw [textMargin, List.append_assoc]
    exact List.prefix_append _ _
  rw [hParagraphs] at hSeen
  obtain ⟨hp, hps⟩ := List.forall_mem_cons.mp hSeen
  have hFront : SeenEdges bare (wrap L (textMargin bare ++ [' ', ' '] ++ bulletText item)
      (textMargin bare ++ List.replicate (2 + (bulletText item).length) ' ')
      (Inline.flatten p)) := by
    rw [List.append_assoc]
    exact seenEdges_wrap (hFirst _) (hFirst _) L hp
  simp only [itemLines, hParagraphs]
  exact hFront.append_flatMap (fun q hq => seenEdges_wrap (hFirst _) (hFirst _) L (hps q hq)) [bare]

/-- A well-formed block starts and ends with a line that can be seen. This is what well-formedness
is good for here: a heading has text, code has no blank edges, and an item has a paragraph. -/
theorem seenEdges_blockLines {b : Block} (hb : b.WellFormed) :
    SeenEdges bare (blockLines L bare b) := by
  have hMargin : bare <+: textMargin bare := List.prefix_append _ _
  cases b with
  | paragraph p => exact seenEdges_wrap hMargin hMargin L hb
  | heading p =>
      apply SeenEdges.singleton
      rw [List.append_assoc]
      exact seenBehind_append hMargin (c := '#') (by simp) rfl
  | code ls => 
      have hLine : ∀ l, Text.allBlank l = false →
          SeenBehind bare (if l.isEmpty then bare else bare ++ '\t' :: l) := by
        intro l hl
        rw [if_neg (by rintro hNil; rw [List.isEmpty_iff.mp hNil] at hl; cases hl)]
        exact ⟨'\t' :: l,
          rfl, by rw [Text.allBlank, List.all_cons, ← Text.allBlank, hl, Bool.and_false]⟩
      obtain ⟨first, hHead, hFirst⟩ := WellFormedCode.first hb
      obtain ⟨last, hLast, hSeen⟩ := WellFormedCode.last hb
      constructor
      · exact ⟨_, by rw [blockLines, List.head?_map, hHead]; rfl, hLine first hFirst⟩
      · exact ⟨_, by rw [blockLines, List.getLast?_map, hLast]; rfl, hLine last hSeen⟩
  | list l =>
      obtain ⟨item, items, hItems⟩ := List.exists_cons_of_ne_nil (ItemList.WellFormed.items hb)
      have hLines : ∀ i ∈ item :: items, SeenEdges bare (itemLines L bare i) := fun i hi =>
        seenEdges_itemLines L (ItemList.WellFormed.paragraphs hb i (hItems ▸ hi))
          (ItemList.WellFormed.visible hb i (hItems ▸ hi))
      obtain ⟨hItem, hRest⟩ := List.forall_mem_cons.mp hLines
      simp only [blockLines, listLines, hItems]
      exact hItem.append_flatMap hRest _

theorem seenEdges_blocksLines {bs : List Block} (hNe : bs ≠ []) (hbs : ∀ b ∈ bs, b.WellFormed) :
    SeenEdges bare (blocksLines L bare bs) := by
  induction bs with
  | nil => exact absurd rfl hNe
  | cons b bs ih =>
      obtain ⟨hb, hRest⟩ := List.forall_mem_cons.mp hbs
      cases bs with
      | nil => exact seenEdges_blockLines L hb
      | cons c bs => exact (seenEdges_blockLines L hb).append (ih (List.cons_ne_nil c bs) hRest) _

end Doc

section Edges

/-- Blank edges `a` and `b` around the lines `m`, which start and end with a line that can be seen.
The three parts are told from the whole, which the lemmas below make use of. -/
structure Framed (a m b : List Text) : Prop where
  above : ∀ l ∈ a, Text.allBlank l = true
  below : ∀ l ∈ b, Text.allBlank l = true
  trimmed : Doc.Trimmed m
  ne_nil : m ≠ []

namespace Framed

variable {a m b : List Text}

theorem reverse (h : Framed a m b) : Framed b.reverse m.reverse a.reverse where
  above l hl := h.below l (List.mem_reverse.mp hl)
  below l hl := h.above l (List.mem_reverse.mp hl)
  trimmed := by
    constructor
    · intro l hl
      exact h.trimmed.2 l (List.head?_reverse.symm.trans hl)
    · intro l hl
      exact h.trimmed.1 l (List.getLast?_reverse.symm.trans hl)
  ne_nil := fun hNil => h.ne_nil (List.reverse_eq_nil_iff.mp hNil)

/-- The blank lines in front are those of the edge, and not one more. -/
theorem leading (h : Framed a m b) : (a ++ m ++ b).takeWhile Text.allBlank = a := by
  rw [List.append_assoc]
  apply Doc.takeWhile_append_allBlank h.above
  intro l hl
  rw [List.head?_append_of_ne_nil _ h.ne_nil] at hl
  exact h.trimmed.1 l hl

theorem trailing (h : Framed a m b) :
    (a ++ m ++ b).reverse.takeWhile Text.allBlank = b.reverse := by
  rw [List.reverse_append, List.reverse_append, ← List.append_assoc]
  exact h.reverse.leading

theorem not_blank (h : Framed a m b) : ¬∀ l ∈ a ++ m ++ b, Text.allBlank l = true := by
  intro hAll
  obtain ⟨l, rest, rfl⟩ := List.exists_cons_of_ne_nil h.ne_nil
  have hSeen := h.trimmed.1 l rfl
  rw [hAll l (by simp)] at hSeen
  cases hSeen

end Framed

/-- As many blank lines stand at the start of the one list of lines as at the start of the other,
and as many at the end. The last clause tells lines without any text from lines with two edges. -/
structure SameEdges (xs ys : List Text) : Prop where
  leading : (xs.takeWhile Text.allBlank).length = (ys.takeWhile Text.allBlank).length
  trailing :
    (xs.reverse.takeWhile Text.allBlank).length = (ys.reverse.takeWhile Text.allBlank).length
  blank : (∀ l ∈ xs, Text.allBlank l = true) ↔ ∀ l ∈ ys, Text.allBlank l = true

namespace SameEdges

variable {xs ys us vs : List Text}

theorem of_allBlank (hx : ∀ l ∈ xs, Text.allBlank l = true) (hy : ∀ l ∈ ys, Text.allBlank l = true)
    (hLength : xs.length = ys.length) : SameEdges xs ys where
  leading := by rwa [List.takeWhile_eq_self_iff.mpr hx, List.takeWhile_eq_self_iff.mpr hy]
  trailing := by
    rw [List.takeWhile_eq_self_iff.mpr fun l hl => hx l (List.mem_reverse.mp hl),
      List.takeWhile_eq_self_iff.mpr fun l hl => hy l (List.mem_reverse.mp hl), List.length_reverse,
      List.length_reverse, hLength]
  blank := iff_of_true hx hy

/-- Only the length of the edges counts, and not what stands between them. Their blanks may differ,
too. -/
theorem of_framed {a m b c n d : List Text} (h : Framed a m b) (k : Framed c n d)
    (hLeading : a.length = c.length) (hTrailing : b.length = d.length) :
    SameEdges (a ++ m ++ b) (c ++ n ++ d) where
  leading := by rw [h.leading, k.leading, hLeading]
  trailing := by rw [h.trailing, k.trailing, List.length_reverse, List.length_reverse, hTrailing]
  blank := iff_of_false h.not_blank k.not_blank

theorem takeWhile_append_seen {d : Text} (hd : Text.allBlank d = false) (front back : List Text) :
    (front ++ d :: back).takeWhile Text.allBlank = front.takeWhile Text.allBlank := by
  induction front with
  | nil => rw [List.nil_append, List.takeWhile_nil, List.takeWhile_cons_of_neg (by simp [hd])]
  | cons l front ih => rw [List.cons_append, List.takeWhile_cons, List.takeWhile_cons, ih]

/-- A line that can be seen keeps what is above it apart from what is below it. A decoration is such
a line, so the pieces of a run can be treated one by one. -/
theorem append_cons {d : Text} (hd : Text.allBlank d = false) (hAbove : SameEdges xs ys)
    (hBelow : SameEdges us vs) : SameEdges (xs ++ d :: us) (ys ++ d :: vs) := by
  have hTake := takeWhile_append_seen hd
  have hSeen : ∀ front back : List Text, ¬∀ l ∈ front ++ d :: back, Text.allBlank l = true := by
    intro front back hAll
    have hBlank := hAll d (by simp)
    rw [hd] at hBlank
    cases hBlank
  constructor
  · rw [hTake, hTake, hAbove.leading]
  · simp only [List.reverse_append, List.reverse_cons, List.append_assoc, List.singleton_append]
    rw [hTake, hTake, hBelow.trailing]
  · exact iff_of_false (hSeen xs us) (hSeen ys vs)

/-- Lines with the same edges are reported to have the same. Where all lines are blank, all of them
are reported at the start. -/
theorem blankEdges_eq (h : SameEdges xs ys) : Doc.blankEdges xs = Doc.blankEdges ys := by
  have hWhole : ∀ ls : List Text, (ls.takeWhile Text.allBlank).length = ls.length ↔
      ∀ l ∈ ls, Text.allBlank l = true := by
    intro ls
    rw [← List.takeWhile_eq_self_iff]
    exact ⟨(List.takeWhile_prefix Text.allBlank).eq_of_length, congrArg List.length⟩
  simp only [Doc.blankEdges, beq_iff_eq, hWhole, h.blank]
  rw [h.leading, h.trailing]

end SameEdges

end Edges

namespace LineComment

open Doc

section Content

variable {indent base : Text}

/-- A bare marker has no content, also where the token stands without its space. -/
theorem content_bare : content indent base (indent ++ base) = [] := by
  have hContent := content_append indent base []
  rwa [List.append_nil] at hContent

/-- What is seen behind indentation and token is seen in the content of the line, as at most one
space is dropped on the way. -/
theorem allBlank_content {l : Text} (h : SeenBehind (indent ++ base) l) :
    Text.allBlank (content indent base l) = false := by
  obtain ⟨r, rfl, hr⟩ := h
  rw [List.append_assoc, content_append]
  cases hSpace : Text.dropPrefix? [' '] r with
  | none => exact hr
  | some t =>
      rw [Text.dropPrefix?_eq_some hSpace] at hr
      exact hr

/-- The contents of lines between bare markers: blank edges, and a middle that starts and ends with
something seen. -/
theorem framed_content {body : List Text} (h : SeenEdges (indent ++ base) body) (m n : Nat) :
    Framed ((List.replicate m (indent ++ base)).map (content indent base))
      (body.map (content indent base))
      ((List.replicate n (indent ++ base)).map (content indent base)) := by
  obtain ⟨first, hFirst, hSeenFirst⟩ := h.head
  obtain ⟨last, hLast, hSeenLast⟩ := h.last
  have hBare : ∀ k, ∀ l ∈ (List.replicate k (indent ++ base)).map (content indent base),
      Text.allBlank l = true := by
    intro k l hl
    rw [List.map_replicate, content_bare] at hl
    rw [List.eq_of_mem_replicate hl]
    rfl
  refine ⟨hBare m, hBare n, ⟨fun l hl => ?_, fun l hl => ?_⟩, ?_⟩
  · rw [List.head?_map, hFirst] at hl
    exact Option.some.inj hl ▸ allBlank_content hSeenFirst
  · rw [List.getLast?_map, hLast] at hl
    exact Option.some.inj hl ▸ allBlank_content hSeenLast
  · rintro hNil
    rw [List.map_eq_nil_iff.mp hNil] at hFirst
    cases hFirst

end Content

variable (L : Layout) (lang : Language) (indent marker : Text)

/-- A piece of blank lines is written as so many bare markers, in structured and in plain
comments. -/
theorem pieceLines_of_allBlank {contents : List Text} (h : ∀ l ∈ contents, Text.allBlank l = true) :
    pieceLines L lang indent marker contents =
      List.replicate contents.length (indent ++ Text.dropEndSpaces marker) := by
  rw [pieceLines]
  split
  next hNil => rw [List.isEmpty_iff.mp hNil]; rfl
  rw [renderPiece]
  split
  · exact Doc.render_of_allBlank L _ h
  · simp [renderPlain, blankEdges_of_allBlank h, interior_of_allBlank h]

/-- A piece is written between bare markers, one for each blank line at its edges. What is written
between them starts and ends with a line that can be seen, in either kind of comment. -/
theorem exists_pieceLines_eq {a m b : List Text} (h : Framed a m b) :
    ∃ body, SeenEdges (indent ++ Text.dropEndSpaces marker) body ∧
      pieceLines L lang indent marker (a ++ m ++ b) =
        List.replicate a.length (indent ++ Text.dropEndSpaces marker) ++ body ++
          List.replicate b.length (indent ++ Text.dropEndSpaces marker) := by
  have hEdges := blankEdges_append h.above h.below h.trimmed h.ne_nil
  have hInterior := interior_append h.above h.below h.trimmed h.ne_nil
  obtain ⟨l, rest, hCons⟩ := List.exists_cons_of_ne_nil h.ne_nil
  have hl : l ∈ m := by rw [hCons]; exact List.mem_cons_self
  have hSeen : Text.allBlank l = false := h.trimmed.1 l (by rw [hCons]; rfl)
  rw [pieceLines, if_neg (by simp [h.ne_nil]), renderPiece]
  split
  · refine ⟨_,
      seenEdges_blocksLines L ?_ (wellFormed_parse m).1, by rw [Doc.render, hEdges, hInterior]⟩
    intro hNil
    rw [parse_eq_nil_iff m |>.mp hNil l hl] at hSeen
    cases hSeen
  · obtain ⟨n, hMarker⟩ := Text.exists_eq_dropEndSpaces_append marker
    have hMargin : indent ++ Text.dropEndSpaces marker <+: indent ++ marker :=
      (List.prefix_append_right_inj indent).mpr ⟨_, hMarker.symm⟩
    refine ⟨wrap L (indent ++ marker) (indent ++ marker) (Text.unlines m),
      seenEdges_wrap hMargin hMargin L (allBlank_unlines_eq_false hl hSeen), ?_⟩
    simp only [renderPlain, hEdges, hInterior, List.isEmpty_iff, h.ne_nil, if_false]

theorem sameEdges_pieceLines (contents : List Text) :
    SameEdges ((pieceLines L lang indent marker contents).map
      (content indent (Text.dropEndSpaces marker))) contents := by
  rcases edges_cases contents with hBlank | ⟨a, m, b, ha, hb, hm, hNe, rfl⟩
  · rw [pieceLines_of_allBlank L lang indent marker hBlank, List.map_replicate, content_bare]
    apply SameEdges.of_allBlank _ hBlank List.length_replicate
    intro l hl
    rw [List.eq_of_mem_replicate hl]
    rfl
  · have hFramed : Framed a m b := ⟨ha, hb, hm, hNe⟩
    obtain ⟨body, hBody, hLines⟩ := exists_pieceLines_eq L lang indent marker hFramed
    rw [hLines, List.map_append, List.map_append]
    apply SameEdges.of_framed (framed_content hBody a.length b.length) hFramed
    · rw [List.length_map, List.length_replicate]
    · rw [List.length_map, List.length_replicate]

/-- A whole run keeps its edges, since each of its pieces does and each decoration between them can
be seen. -/
theorem sameEdges_render (lines : List Text) :
    SameEdges ((render L lang indent marker lines).map (content indent (Text.dropEndSpaces marker)))
      (lines.map (content indent (Text.dropEndSpaces marker))) := by
  induction lines using division_induction (decorated indent (Text.dropEndSpaces marker)) with
  | plain ls hPlain =>
      rw [render_plain L lang indent marker hPlain]
      exact sameEdges_pieceLines L lang indent marker _
  | cut ls d rest hPlain hd ih =>
      have hSeen : Text.allBlank (content indent (Text.dropEndSpaces marker) d) = false := by
        rw [decorated, isDecoration, Bool.and_eq_true, Bool.not_eq_true',
          List.isEmpty_eq_false_iff] at hd
        rw [← Bool.not_eq_true, ← Text.trim_eq_nil_iff]
        exact hd.1
      rw [render_cut L lang indent marker hPlain hd, List.map_append, List.map_cons,
        List.map_append, List.map_cons]
      exact (sameEdges_pieceLines L lang indent marker _).append_cons hSeen ih

/-- A run keeps the blank lines at its edges, whatever its lines are, whatever divides it and
whichever way it is written: it starts and ends with as many of them as before. Only a run of blank
lines becomes one. -/
theorem blankEdges_render (lines : List Text) :
    blankEdges
      ((render L lang indent marker lines).map (content indent (Text.dropEndSpaces marker))) =
        blankEdges (lines.map (content indent (Text.dropEndSpaces marker))) ∧
      ((∀ l ∈ render L lang indent marker lines,
          Text.allBlank (content indent (Text.dropEndSpaces marker) l) = true) ↔
        ∀ l ∈ lines, Text.allBlank (content indent (Text.dropEndSpaces marker) l) = true) := by
  have hEdges := sameEdges_render L lang indent marker lines
  refine ⟨hEdges.blankEdges_eq, ?_⟩
  simpa only [List.forall_mem_map] using hEdges.blank

end LineComment

end Reflow
