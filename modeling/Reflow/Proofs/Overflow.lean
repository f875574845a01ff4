import Mathlib.Algebra.Order.BigOperators.Group.List
import Mathlib.Algebra.Order.Ring.Nat
import Reflow.Proofs.Width

/-!
Widths that do not overflow. Counted without bound, no column and no sum of widths that wrapping
forms exceeds the number of characters of the text, or of a margin, times the distance of two stops.
While these products stay below the size of the register, it shows every count as it is, and
wrapping in the register is wrapping without bound.
-/

namespace Reflow

section Length

/-- A part of a divided list holds elements of the list in their order, so it is no longer than the
list. -/
theorem sublist_of_mem_splitOnP {β : Type} {p : β → Bool} {xs part : List β}
    (h : part ∈ xs.splitOnP p) : part.Sublist xs := by
  induction xs generalizing part with
  | nil =>
      rw [List.splitOnP_nil, List.mem_singleton] at h
      rw [h]
  | cons x xs ih =>
      obtain ⟨first, rest, hSplit⟩ := List.exists_cons_of_ne_nil (List.splitOnP_ne_nil p xs)
      rw [List.splitOnP_cons_eq_if_modifyHead, hSplit] at h
      rw [hSplit] at ih
      split at h
      · rcases List.mem_cons.mp h with rfl | h
        · exact List.nil_sublist _
        · exact (ih h).cons x
      · rcases List.mem_cons.mp h with rfl | h
        · exact (ih List.mem_cons_self).cons_cons x
        · exact (ih (List.mem_cons_of_mem first h)).cons x

theorem length_intercalate_add_one (c : Char) {ls : List Text} (hNe : ls ≠ []) :
    (List.intercalate [c] ls).length + 1 = (ls.map (·.length + 1)).sum := by
  induction ls with
  | nil => exact absurd rfl hNe
  | cons l ls ih =>
      cases ls with
      | nil => simp
      | cons m ls =>
          have hRest := ih (List.cons_ne_nil m ls)
          rw [List.intercalate_cons_cons, List.map_cons, List.sum_cons, ← hRest]
          simp only [List.length_append, List.length_singleton]
          omega

/-- A paragraph is no longer than the text that it is taken from. Joining lines by spaces adds no
more than the line feeds that were removed. -/
theorem length_le_of_mem_paragraphs {t p : Text} (h : p ∈ paragraphs t) : p.length ≤ t.length := by
  rw [paragraphs, List.mem_map] at h
  obtain ⟨part, hPart, rfl⟩ := h
  obtain ⟨hSplit, hSome⟩ := List.mem_filter.mp hPart
  have hNe : part ≠ [] := by simpa using hSome
  have hParagraph := length_intercalate_add_one ' ' hNe
  have hText := length_intercalate_add_one '\n' (Text.lines_ne_nil t)
  rw [← Text.unlines, Text.unlines_lines] at hText
  have hLines :
      (part.map (·.length + 1)).sum ≤ (((Text.lines t).map Text.trim).map (·.length + 1)).sum :=
    ((sublist_of_mem_splitOnP hSplit).map _).sum_le_sum fun _ _ => Nat.zero_le _
  have hTrim : (((Text.lines t).map Text.trim).map (·.length + 1)).sum ≤
      ((Text.lines t).map (·.length + 1)).sum := by
    rw [List.map_map]
    apply List.sum_le_sum
    intro l _
    exact Nat.succ_le_succ (Text.trim_isInfix_self l).length_le
  exact Nat.le_of_succ_le_succ (hParagraph.le.trans (hLines.trans (hTrim.trans hText.ge)))

namespace Token

theorem gap_ne_nil_of_opensWithGap {t : Text} (ht : OpensWithGap t) {u : Token}
    (hu : u ∈ ofText t) :
    u.gap ≠ [] := by
  induction t using ofText_induction with
  | gaps t hGaps =>
      rw [ofText_eq_nil hGaps] at hu
      cases hu
  | word first rest hFirst hRest ih =>
      rw [ofText_append hFirst hRest] at hu
      rcases List.mem_cons.mp hu with rfl | hu
      · intro hNil
        obtain ⟨c, word, hWord⟩ := List.exists_cons_of_ne_nil hFirst.word_ne_nil
        have hGap : isGap c = true := ht c (by rw [text, hNil, hWord]; rfl)
        rw [hFirst.word_solid c (by rw [hWord]; exact List.mem_cons_self)] at hGap
        cases hGap
      · exact ih hRest hu

/-- Every word but the first has a gap before it. Only such gaps are counted for at most what they
hold; an empty one would count for a column. -/
theorem gap_ne_nil_of_mem_tail {t : Text} {u : Token} (hu : u ∈ (ofText t).tail) : u.gap ≠ [] := by
  rcases ofText_cases t with hGaps | ⟨first, rest, hFirst, hRest, rfl⟩
  · rw [ofText_eq_nil hGaps] at hu
    cases hu
  · rw [ofText_append hFirst hRest] at hu
    exact gap_ne_nil_of_opensWithGap hRest hu

theorem length_flatMap_text_le (t : Text) : ((ofText t).flatMap text).length ≤ t.length := by
  induction t using ofText_induction with
  | gaps t hGaps =>
      rw [ofText_eq_nil hGaps]
      exact Nat.zero_le _
  | word first rest hFirst hRest ih =>
      rw [ofText_append hFirst hRest, List.flatMap_cons, List.length_append, List.length_append]
      exact Nat.add_le_add_left ih _

end Token

end Length

namespace Layout

/-- The same page, on which widths are counted without bound. What a statement about lines calls a
width is the width on this page. -/
def endless (L : Layout) : Layout := { L with modulus := 0 }

/-- The columns that counting the width of a text comes by, from zero on and with its width as the
last. -/
def columns (L : Layout) (t : Text) : List Nat := t.scanl L.advance 0

/-- The register counts up to each of these numbers. Without bound it always does. -/
def CountsAll (L : Layout) (ns : List Nat) : Prop := ∀ n ∈ ns, L.Counts n

instance (L : Layout) (ns : List Nat) : Decidable (L.CountsAll ns) :=
  inferInstanceAs (Decidable (∀ n ∈ ns, L.Counts n))

variable {L : Layout} {t : Text}

theorem countsAll_append {ms ns : List Nat} :
    L.CountsAll (ms ++ ns) ↔ L.CountsAll ms ∧ L.CountsAll ns :=
  List.forall_mem_append

theorem countsAll_flatMap {α : Type} {f : α → List Nat} {xs : List α} :
    L.CountsAll (xs.flatMap f) ↔ ∀ x ∈ xs, L.CountsAll (f x) :=
  List.forall_mem_flatMap

theorem width_endless (L : Layout) (t : Text) : L.endless.width t = L.reach 0 t :=
  width_eq_reach (L := L.endless) (Or.inl rfl)

theorem width_endless_le (L : Layout) (t : Text) : L.endless.width t ≤ L.stop * t.length := by
  rw [width_endless]
  simpa using L.reach_le_add_mul 0 t

/-- No column on the way exceeds the width of the whole text. In a register that is too small for
the width this would be false. -/
theorem le_width_of_mem_columns {n : Nat} (h : n ∈ L.endless.columns t) :
    n ≤ L.endless.width t := by
  obtain ⟨i, hi, rfl⟩ := List.getElem_of_mem h
  have hRest := L.add_length_le_reach (L.reach 0 (t.take i)) (t.drop i)
  rw [← reach_append, List.take_append_drop, ← width_endless, ← width_endless] at hRest
  simp only [columns, List.getElem_scanl]
  exact (Nat.le_add_right _ _).trans hRest

/-- A column is the width of a front part of the text, so the bound by the length holds for each of
them. -/
theorem le_of_mem_columns {n : Nat} (h : n ∈ L.endless.columns t) : n ≤ L.stop * t.length :=
  (le_width_of_mem_columns h).trans (L.width_endless_le t)

/-- Columns only grow, so a register that is large enough for the width of a text is large enough
for all that is counted on the way there. -/
theorem countsAll_columns : L.CountsAll (L.endless.columns t) ↔ L.Counts (L.endless.width t) := by
  constructor
  · intro h
    apply h
    have hLast : (L.endless.columns t)[t.length]? = some (L.endless.width t) := by
      simp [columns, width]
    exact List.mem_of_getElem? hLast
  · exact fun h n hn => h.mono (le_width_of_mem_columns hn)

theorem width_eq_endless (h : L.Counts (L.endless.width t)) : L.width t = L.endless.width t := by
  rw [width_endless] at h ⊢
  exact foldl_advance_eq_reach h

theorem room_eq_endless (h : L.Counts (L.endless.width t)) : L.room t = L.endless.room t := by
  rw [room, room, width_eq_endless h]
  rfl

end Layout

namespace Packing

variable {L : Layout}

/-- What is counted while a line of width `w` is filled. For every word up to the first one without
room these are the columns of its gap and of the word, and the sums that lead to the width of the
line with it. Nothing behind that word is counted for this line; what is counted for it again
belongs to the next line. -/
def fillCounts (L : Layout) (room w : Nat) : List Token → List Nat
  | [] => []
  | t :: ts =>
    L.columns t.gap ++ L.columns t.word ++ [gapWidth L t, L.add w (gapWidth L t), extend L w t] ++
      if extend L w t ≤ room then fillCounts L room (extend L w t) ts else []

/-- What is counted while words are divided into lines: the columns of every margin and of every
first word, and what is counted while the lines are filled. A word that starts a line stands in this
list twice, as it was tried on the line before. -/
def divideCounts (L : Layout) (first next : Text) : List Token → List Nat
  | [] => []
  | t :: ts =>
    L.columns first ++ L.columns t.word ++ fillCounts L (L.room first) (L.width t.word) ts ++
      divideCounts L next next (fill L (L.room first) (L.width t.word) ts).2
termination_by ts => ts.length
decreasing_by
  have h := length_fill_snd_le L (L.room first) (L.width t.word) ts
  simp only [List.length_cons]
  omega

section Token

variable {u : Token}

theorem gapWidth_endless_le (L : Layout) (hGap : u.gap ≠ []) :
    gapWidth L.endless u ≤ L.stop * u.gap.length := by
  have hPos := Nat.mul_pos L.stop_pos (List.length_pos_iff.mpr hGap)
  exact Nat.max_le.mpr ⟨L.width_endless_le u.gap, hPos⟩

theorem extend_endless (L : Layout) (w : Nat) (u : Token) :
    extend L.endless w u = w + gapWidth L.endless u + L.endless.width u.word := by
  rw [extend, Layout.add, Layout.add]
  simp only [Layout.endless, Nat.mod_zero]

theorem extend_endless_le (L : Layout) (w : Nat) (hGap : u.gap ≠ []) :
    extend L.endless w u ≤ w + L.stop * u.text.length := by
  have hGapWidth := gapWidth_endless_le L hGap
  have hWord := L.width_endless_le u.word
  rw [extend_endless, Token.text, List.length_append, Nat.mul_add]
  omega

/-- A register that is large enough for the width of a line with one more word is large enough for
the widths that are added up to it. Checked arithmetic therefore has to be followed at this one sum
only. -/
theorem counts_of_extend {w : Nat} (h : L.Counts (extend L.endless w u)) :
    L.Counts (L.endless.width u.gap) ∧ L.Counts (L.endless.width u.word) ∧
      L.Counts (w + gapWidth L.endless u) := by
  rw [extend_endless] at h
  have hGap : L.endless.width u.gap ≤ gapWidth L.endless u := Nat.le_max_left _ _
  exact ⟨h.mono (by omega), h.mono (by omega), h.mono (by omega)⟩

/-- The register shows the width of a line with one more word, as soon as that width is in it.
Nothing has to be known about the parts of the sum. -/
theorem extend_eq_endless {w : Nat} (h : L.Counts (extend L.endless w u)) :
    extend L w u = extend L.endless w u := by
  obtain ⟨hGap, hWord, hSum⟩ := counts_of_extend h
  have hGapWidth : gapWidth L u = gapWidth L.endless u := by
    rw [gapWidth, gapWidth, Layout.width_eq_endless hGap]
  rw [extend_endless] at h ⊢
  rw [extend, hGapWidth, Layout.width_eq_endless hWord, Layout.add_eq hSum, Layout.add_eq h]

theorem spacer_eq_endless (h : L.Counts (L.endless.width u.gap)) :
    spacer L u = spacer L.endless u := by
  rw [spacer, spacer, Layout.width_eq_endless h]

end Token

section Counts

variable {first next : Text} {room w : Nat} {t : Token} {ts : List Token}

/-- While a line is filled, nothing that is counted leaves the register if the widths of the line do
not that it gets word by word. The last of these is the width that is found too large. -/
theorem countsAll_fillCounts_cons :
    L.CountsAll (fillCounts L.endless room w (t :: ts)) ↔ L.Counts (extend L.endless w t) ∧
      (extend L.endless w t ≤ room →
        L.CountsAll (fillCounts L.endless room (extend L.endless w t) ts)) := by
  have hSum : L.endless.add w (gapWidth L.endless t) = w + gapWidth L.endless t := Nat.mod_zero _
  simp only [fillCounts, Layout.countsAll_append, Layout.countsAll_columns, hSum]
  constructor
  · rintro ⟨⟨-, hOwn⟩, hRest⟩
    refine ⟨hOwn _ (by simp), fun hFits => ?_⟩
    rwa [if_pos hFits] at hRest
  · rintro ⟨hOwn, hRest⟩
    obtain ⟨hGap, hWord, hBehind⟩ := counts_of_extend hOwn
    refine ⟨⟨⟨hGap, hWord⟩, ?_⟩, ?_⟩
    · simp only [Layout.CountsAll, List.forall_mem_cons]
      exact ⟨hBehind.mono (Nat.le_add_left _ _), hBehind, hOwn, List.forall_mem_nil _⟩
    · split
      next hFits => exact hRest hFits
      · exact List.forall_mem_nil _

/-- The counts of a division, line by line: those of the margin and of the first word, those of
filling the line, and those of all lines below it. -/
theorem countsAll_divideCounts_cons :
    L.CountsAll (divideCounts L.endless first next (t :: ts)) ↔
      L.Counts (L.endless.width first) ∧ L.Counts (L.endless.width t.word) ∧
      L.CountsAll (fillCounts L.endless (L.endless.room first) (L.endless.width t.word) ts) ∧
      L.CountsAll (divideCounts L.endless next next
        (fill L.endless (L.endless.room first) (L.endless.width t.word) ts).2) := by
  rw [divideCounts]
  simp only [Layout.countsAll_append, Layout.countsAll_columns, and_assoc]

/-- While nothing that is counted leaves the register, the register fills a line as it is filled
without bound, and between its words stands the same. The words behind the line need no condition
here. -/
theorem fill_eq_endless (h : L.CountsAll (fillCounts L.endless room w ts)) :
    fill L room w ts = fill L.endless room w ts ∧
      ∀ u ∈ (fill L.endless room w ts).1, spacer L u = spacer L.endless u := by
  induction ts generalizing w with
  | nil => exact ⟨rfl, List.forall_mem_nil _⟩
  | cons t ts ih =>
      obtain ⟨hOwn, hRest⟩ := countsAll_fillCounts_cons.mp h
      rw [fill, fill, extend_eq_endless hOwn]
      split
      next hFits =>
        obtain ⟨hFill, hSpacers⟩ := ih (hRest hFits)
        rw [hFill]
        exact ⟨rfl, List.forall_mem_cons.mpr
          ⟨spacer_eq_endless (counts_of_extend hOwn).1, hSpacers⟩⟩
      · exact ⟨rfl, List.forall_mem_nil _⟩

theorem write_same (L : Layout) (next : Text) (ls : List (List Token)) :
    write L next next ls = ls.map fun l => next ++ lineText L l := by
  cases ls <;> rfl

theorem write_cons (L : Layout) (first next : Text) (l : List Token) (ls : List (List Token)) :
    write L first next (l :: ls) = (first ++ lineText L l) :: write L next next ls := by
  rw [write_same, write]

/-- While nothing that is counted leaves the register, the register writes the lines that are
written without bound. The margins need not be alike. -/
theorem write_divide_eq_endless (h : L.CountsAll (divideCounts L.endless first next ts)) :
    write L first next (divide L first next ts) =
      write L.endless first next (divide L.endless first next ts) := by
  fun_induction divide L.endless first next ts with
  | case1 => rw [divide, write, write]
  | case2 first t ts ih =>
      obtain ⟨hFirst, hWord, hFill, hRest⟩ := countsAll_divideCounts_cons.mp h
      obtain ⟨hSame, hSpacers⟩ := fill_eq_endless hFill
      rw [divide, Layout.room_eq_endless hFirst, Layout.width_eq_endless hWord, hSame, write_cons,
        write_cons, ih hRest, lineText, lineText]
      congr 3
      exact List.flatMap_congr fun u hu => by rw [hSpacers u hu]

end Counts

section Length

variable {first next : Text} {ts : List Token}

/-- Whatever is counted while a line is filled, it is no more than the width so far and the bound
for the words that are left. -/
theorem le_of_mem_fillCounts {room w : Nat} {ts : List Token} (hGaps : ∀ u ∈ ts, u.gap ≠ [])
    {n : Nat}
    (hn : n ∈ fillCounts L.endless room w ts) :
    n ≤ w + L.stop * (ts.flatMap Token.text).length := by
  induction ts generalizing w with
  | nil => cases hn
  | cons t ts ih =>
      obtain ⟨hGap, hTail⟩ := List.forall_mem_cons.mp hGaps
      have hGapWidth := gapWidth_endless_le L hGap
      have hExtend := extend_endless_le L w hGap
      have hSum : L.endless.add w (gapWidth L.endless t) ≤ extend L.endless w t := by
        rw [extend_endless, Layout.add, Layout.endless, Nat.mod_zero]
        exact Nat.le_add_right _ _
      rw [List.flatMap_cons, List.length_append, Nat.mul_add]
      have hText : L.stop * t.text.length = L.stop * t.gap.length + L.stop * t.word.length := by
        rw [Token.text, List.length_append, Nat.mul_add]
      simp only [fillCounts, List.mem_append, List.mem_cons, List.not_mem_nil, or_false] at hn
      rcases hn with ((hn | hn) | rfl | rfl | rfl) | hn
      · have hColumn := Layout.le_of_mem_columns hn
        omega
      · have hColumn := Layout.le_of_mem_columns hn
        omega
      · omega
      · omega
      · omega
      · split at hn
        · have hRest := ih hTail hn
          omega
        · cases hn

/-- The words that are left for the next lines have gaps before them, and they take up no more than
all words did. The bound for a line so carries over to the lines below it. -/
theorem fill_rest (L : Layout) (room w : Nat) (hGaps : ∀ u ∈ ts, u.gap ≠ []) :
    (∀ u ∈ (fill L room w ts).2.tail, u.gap ≠ []) ∧
      ((fill L room w ts).2.flatMap Token.text).length ≤ (ts.flatMap Token.text).length := by
  have hAppend := fill_append L room w ts
  constructor
  · intro u hu
    apply hGaps
    rw [← hAppend]
    exact List.mem_append_right _ (List.mem_of_mem_tail hu)
  · have hLength := congrArg (fun us => (us.flatMap Token.text).length) hAppend
    rw [List.flatMap_append, List.length_append] at hLength
    omega

/-- Whatever is counted while words are divided into lines, one of the three lengths bounds it: that
of a margin, or that of all words with their gaps. -/
theorem le_of_mem_divideCounts (hGaps : ∀ u ∈ ts.tail, u.gap ≠ []) {n : Nat}
    (hn : n ∈ divideCounts L.endless first next ts) :
    n ≤ L.stop * first.length ∨ n ≤ L.stop * next.length ∨
      n ≤ L.stop * (ts.flatMap Token.text).length := by
  fun_induction divideCounts L.endless first next ts with
  | case1 => cases hn
  | case2 first t ts ih =>
      rw [List.tail_cons] at hGaps
      obtain ⟨hRestGaps, hRest⟩ :=
        fill_rest L.endless (L.endless.room first) (L.endless.width t.word) hGaps
      have hRestLe := Nat.mul_le_mul_left L.stop hRest
      have hWord := L.width_endless_le t.word
      simp only [List.mem_append] at hn
      rw [List.flatMap_cons, List.length_append, Token.text, List.length_append, Nat.mul_add,
        Nat.mul_add]
      rcases hn with ((hn | hn) | hn) | hn
      · exact Or.inl (Layout.le_of_mem_columns hn)
      · have hColumn := Layout.le_of_mem_columns hn
        omega
      · have hFill := le_of_mem_fillCounts hGaps hn
        omega
      · have hLines := ih hRestGaps hn
        omega

end Length

end Packing

section Wrap

variable {L : Layout} {first next t : Text}

/-- What is counted while a text is wrapped. A text without a paragraph is written as one margin,
and nothing is counted for it. -/
def wrapCounts (L : Layout) (first next t : Text) : List Nat :=
  match paragraphs t with
  | [] => []
  | p :: ps =>
    Packing.divideCounts L first next (Token.ofText p) ++
      ps.flatMap fun q => Packing.divideCounts L next next (Token.ofText q)

/-- What is counted without bound for a paragraph stays below a bound that its length and those of
the margins do not reach, each times the distance of two stops. The three conditions are those of
the result below; nothing is asked of the column, which is only compared with. -/
theorem lt_of_mem_divideCounts {bound n : Nat} (hFirst : L.stop * first.length < bound)
    (hNext : L.stop * next.length < bound) (hText : L.stop * t.length < bound)
    (hn : n ∈ Packing.divideCounts L.endless first next (Token.ofText t)) : n < bound := by
  have hLength := Nat.mul_le_mul_left L.stop (Token.length_flatMap_text_le t)
  have hLe := Packing.le_of_mem_divideCounts (fun _ => Token.gap_ne_nil_of_mem_tail) hn
  omega

/-- What is counted without bound for a text stays below such a bound as well, since its paragraphs
are no longer than it is. -/
theorem lt_of_mem_wrapCounts {bound n : Nat} (hFirst : L.stop * first.length < bound)
    (hNext : L.stop * next.length < bound) (hText : L.stop * t.length < bound)
    (hn : n ∈ wrapCounts L.endless first next t) : n < bound := by
  have hParagraph : ∀ p ∈ paragraphs t, L.stop * p.length < bound := fun p hp =>
    (Nat.mul_le_mul_left L.stop (length_le_of_mem_paragraphs hp)).trans_lt hText
  rw [wrapCounts] at hn
  split at hn
  · cases hn
  next p ps hCons =>
    rw [hCons, List.forall_mem_cons] at hParagraph
    rcases List.mem_append.mp hn with hn | hn
    · exact lt_of_mem_divideCounts hFirst hNext hParagraph.1 hn
    · obtain ⟨q, hq, hn⟩ := List.mem_flatMap.mp hn
      exact lt_of_mem_divideCounts hNext hNext (hParagraph.2 q hq) hn

/-- While nothing that is counted leaves the register, wrapping in the register is wrapping without
bound. This is the exact condition; the lengths below are one way to meet it. -/
theorem wrap_eq_endless (h : L.CountsAll (wrapCounts L.endless first next t)) :
    wrap L first next t = wrap L.endless first next t := by
  rw [wrapCounts] at h
  rw [wrap, wrap]
  split
  · rfl
  next p ps hCons =>
    rw [hCons] at h
    obtain ⟨hHead, hRest⟩ := Layout.countsAll_append.mp h
    rw [wrapParagraph, wrapParagraph, Packing.write_divide_eq_endless hHead]
    congr 1
    apply List.flatMap_congr
    intro q hq
    rw [wrapParagraph, wrapParagraph,
      Packing.write_divide_eq_endless (Layout.countsAll_flatMap.mp hRest q hq)]

end Wrap

/-- While the length of the text and the lengths of the margins, each times the distance of two
stops, stay below `2 ^ 64`, so does everything that is counted for wrapping, and wrapping in the
register is wrapping without bound. The column may be anything: rooms are cut off at it and never
exceed it. -/
theorem wrap_without_overflow (column tab : Nat) (first next t : Text)
    (hText : max tab 1 * t.length < UInt64.size) (hFirst : max tab 1 * first.length < UInt64.size)
    (hNext : max tab 1 * next.length < UInt64.size) :
    (∀ n ∈ wrapCounts { column, tab, modulus := 0 } first next t, n < UInt64.size) ∧
      wrap { column, tab } first next t = wrap { column, tab, modulus := 0 } first next t := by
  let L : Layout := { column, tab }
  have hCounts : ∀ n ∈ wrapCounts L.endless first next t, n < UInt64.size := fun n =>
    lt_of_mem_wrapCounts (L := L) hFirst hNext hText
  exact ⟨hCounts, wrap_eq_endless (L := L) fun n hn => Or.inr (hCounts n hn)⟩

/-- A tab of `2 ^ 61` columns: the sum for the second word is compared with the room as it is. -/
theorem wrap_without_overflow_wide_tab :
    max (2 ^ 61) 1 * "a\tb c".toList.length < UInt64.size ∧
      max (2 ^ 61) 1 * ['\t'].length < UInt64.size ∧
      (∀ n ∈ wrapCounts { column := 2 ^ 62, tab := 2 ^ 61, modulus := 0 } ['\t'] [] "a\tb c".toList,
        n < UInt64.size) ∧
      2 ^ 61 + 2 ∈
        wrapCounts { column := 2 ^ 62, tab := 2 ^ 61, modulus := 0 } ['\t'] [] "a\tb c".toList ∧
      wrap { column := 2 ^ 62, tab := 2 ^ 61, modulus := 0 } ['\t'] [] "a\tb c".toList =
        ["\ta".toList, "b c".toList] ∧
      wrap { column := 2 ^ 62, tab := 2 ^ 61 } ['\t'] [] "a\tb c".toList =
        wrap { column := 2 ^ 62, tab := 2 ^ 61, modulus := 0 } ['\t'] [] "a\tb c".toList := by
  have hText : max (2 ^ 61) 1 * "a\tb c".toList.length < UInt64.size := by decide
  have hFirst : max (2 ^ 61) 1 * ['\t'].length < UInt64.size := by decide
  obtain ⟨hCounts, hWrap⟩ :=
    wrap_without_overflow (2 ^ 62) (2 ^ 61) ['\t'] [] "a\tb c".toList hText hFirst (by decide)
  exact ⟨hText, hFirst, hCounts, by decide +kernel, by decide +kernel, hWrap⟩

end Reflow
