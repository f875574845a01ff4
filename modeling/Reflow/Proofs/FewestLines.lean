import Mathlib.Data.Nat.ModEq
import Reflow.Proofs.Checked

/-!
Packing makes the fewest lines. A division of words into lines is admissible if every line of
several words finds room beside its margin. The division that packing makes is admissible, none of
its lines could take the first word of the next one, and no admissible division has fewer lines,
whatever the two margins. The lemmas about sums hold of every register that counts up to the sum in
question; the result is about the widths without bound, which checked packing works with as long as
it has a result.
-/

namespace Reflow

namespace Packing

/-- The sum of the widths of the words on a line and of the gaps between them. The gap before the
first word does not count. -/
def lineSum (L : Layout) : List Token → Nat
  | [] => 0
  | t :: ts => L.width t.word + (ts.map fun u => gapWidth L u + L.width u.word).sum

/-- Lines with the margins that they stand beside: the first beside `first`, all others beside
`next`. Which margin it is decides how much room the line has. -/
def beside (first next : Text) : List (List Token) → List (Text × List Token)
  | [] => []
  | l :: ls => (first, l) :: ls.map (Prod.mk next)

/-- No line is empty, and every line of several words finds room beside its margin. A word that is
wider than the page may stand on a line by itself. -/
def Admissible (L : Layout) (first next : Text) (ls : List (List Token)) : Prop :=
  ∀ p ∈ beside first next ls, p.2 ≠ [] ∧ (2 ≤ p.2.length → lineSum L p.2 ≤ L.room p.1)

/-- No line could also take the first word of the line below it, behind the gap that the word has in
the text. -/
def Tight (L : Layout) (first next : Text) (ls : List (List Token)) : Prop :=
  (beside first next ls).IsChain fun p q =>
    ∀ u, q.2.head? = some u → L.room p.1 < lineSum L (p.2 ++ [u])

/-- An admissible division of the words `ts` that is tight and has as few lines as any. The last
condition compares it with every admissible division of the same words, and says nothing about where
the breaks of such a division are. -/
structure Optimal (L : Layout) (first next : Text) (ts : List Token) (ls : List (List Token)) :
    Prop where
  flatten : ls.flatten = ts
  admissible : Admissible L first next ls
  tight : Tight L first next ls
  fewest (ms : List (List Token)) (hFlatten : ms.flatten = ts)
    (hms : Admissible L first next ms) : ls.length ≤ ms.length

/-- Below the first line there is only one margin left, so the lines there are again a division
behind equal margins. -/
theorem beside_cons (first next : Text) (l : List Token) (ls : List (List Token)) :
    beside first next (l :: ls) = (first, l) :: beside next next ls := by
  cases ls <;> rfl

theorem mem_of_mem_beside {first next : Text} {ls : List (List Token)} {p : Text × List Token}
    (hp : p ∈ beside first next ls) : p.2 ∈ ls := by
  cases ls with
  | nil => cases hp
  | cons l ls =>
      rcases List.mem_cons.mp hp with rfl | hp
      · exact List.mem_cons_self
      · obtain ⟨m, hm, rfl⟩ := List.mem_map.mp hp
        exact List.mem_cons_of_mem l hm

theorem write_eq_map (L : Layout) (first next : Text) (ls : List (List Token)) :
    write L first next ls = (beside first next ls).map fun p => p.1 ++ lineText L p.2 := by
  cases ls with
  | nil => rfl
  | cons l ls =>
      rw [write, beside, List.map_cons, List.map_map]
      rfl

theorem admissible_cons {L : Layout} {first next : Text} {l : List Token} {ls : List (List Token)} :
    Admissible L first next (l :: ls) ↔
      (l ≠ [] ∧ (2 ≤ l.length → lineSum L l ≤ L.room first)) ∧ Admissible L next next ls := by
  rw [Admissible, beside_cons, List.forall_mem_cons]
  rfl

/-- A line with more words at its end is wider by the gap and the word for each of them. The line
must have a word, as a first word comes without its gap. -/
theorem lineSum_append_cons (L : Layout) {l : List Token} (hl : l ≠ []) (u : Token)
    (us : List Token) :
    lineSum L (l ++ u :: us) =
      lineSum L l + (gapWidth L u + L.width u.word) +
        (us.map fun v => gapWidth L v + L.width v.word).sum := by
  cases l with
  | nil => exact absurd rfl hl
  | cons t ts =>
      simp only [List.cons_append, lineSum, List.map_append, List.map_cons, List.sum_append,
        List.sum_cons]
      omega

theorem lineSum_le_append (L : Layout) (l us : List Token) : lineSum L l ≤ lineSum L (l ++ us) := by
  cases us with
  | nil => rw [List.append_nil]
  | cons u us =>
      by_cases hl : l = []
      · rw [hl]
        exact Nat.zero_le _
      · rw [lineSum_append_cons L hl]
        omega

theorem lineSum_le_of_suffix (L : Layout) {l ts : List Token} (h : l <:+ ts) :
    lineSum L l ≤ lineSum L ts := by
  obtain ⟨front, rfl⟩ := h
  by_cases hFront : front = []
  · rw [hFront]
    exact Nat.le_refl _
  · cases l with
    | nil => exact Nat.zero_le _
    | cons u us =>
        rw [lineSum_append_cons L hFront, lineSum]
        omega

/-- In a register that is large enough, a line is as wide as the sum of its parts. The width is
added up word by word from the left, and the sum is taken at once. -/
theorem lineWidth_eq_lineSum {L : Layout} {l : List Token} (h : L.Counts (lineSum L l)) :
    lineWidth L l = lineSum L l := by
  cases l with
  | nil => rfl
  | cons t ts =>
      rw [lineSum] at h
      rw [lineWidth, lineSum]
      generalize L.width t.word = w at h ⊢
      induction ts generalizing w with
      | nil => rfl
      | cons u us ih =>
          rw [List.map_cons, List.sum_cons] at h ⊢
          have hExtend : extend L w u = w + (gapWidth L u + L.width u.word) := by
            have hGap : L.add w (gapWidth L u) = w + gapWidth L u :=
              Layout.add_eq (h.mono (by omega))
            rw [extend, hGap, Layout.add_eq (h.mono (by omega)), Nat.add_assoc]
          rw [List.foldl_cons, hExtend, ih _ (h.mono (by omega))]
          omega

section Fill

variable {L : Layout} {room : Nat} {t : Token} {ts line rest : List Token}
  (hFill : fill L room (L.width t.word) ts = (line, rest))
include hFill

theorem append_of_fill : line ++ rest = ts := by
  have hAppend := fill_append L room (L.width t.word) ts
  rwa [hFill] at hAppend

theorem lineSum_fill_rest_le : lineSum L rest ≤ lineSum L (t :: ts) := by
  apply lineSum_le_of_suffix
  exact List.IsSuffix.trans ⟨line, append_of_fill hFill⟩ (List.suffix_cons t ts)

variable (h : L.Counts (lineSum L (t :: ts)))
include h

/-- A filled line of several words has room for all of them. A line of one word is left out, for it
is made without asking. -/
theorem lineSum_fill_le (hSeveral : 2 ≤ (t :: line).length) : lineSum L (t :: line) ≤ room := by
  have hFits := (fill_maximal L room (L.width t.word) ts).1
  have hLe := lineSum_le_append L (t :: line) rest
  rw [List.cons_append, append_of_fill hFill] at hLe
  rw [hFill] at hFits
  rw [← lineWidth_eq_lineSum (h.mono hLe)]
  cases line with
  | nil => simp at hSeveral
  | cons u us => exact (foldl_extend_le_of_fits hFits).2

/-- The word behind a filled line finds no room on it, in the sum as it is without bound: the
register is large enough for all words together. -/
theorem room_lt_lineSum_fill {u : Token} {us : List Token} (hRest : rest = u :: us) :
    room < lineSum L (t :: (line ++ [u])) := by
  have hAppend : (line ++ [u]) ++ us = ts := by
    rw [List.append_assoc, List.singleton_append, ← hRest, append_of_fill hFill]
  have hWide := (fill_maximal L room (L.width t.word) ts).2 u us
  have hLe := lineSum_le_append L (t :: (line ++ [u])) us
  rw [List.cons_append, hAppend] at hLe
  rw [hFill] at hWide
  rw [← lineWidth_eq_lineSum (h.mono hLe), lineWidth, List.foldl_append]
  exact hWide hRest

/-- A filled line takes every word that a line with room for its words takes. This is the greedy
choice: no line that starts at the same word gets further. -/
theorem isPrefix_fill {other : List Token} (hPrefix : other <+: ts)
    (hRoom : other ≠ [] → lineSum L (t :: other) ≤ room) : other <+: line := by
  have hAppend := append_of_fill hFill
  rcases List.prefix_or_prefix_of_prefix hPrefix ⟨rest, hAppend⟩ with hShort | ⟨more, rfl⟩
  · exact hShort
  · cases more with
    | nil => simp
    | cons u us =>
        -- The other line would hold the word that found no room.
        obtain ⟨after, hAfter⟩ := hPrefix
        have hRest : rest = u :: (us ++ after) := by
          rw [← hAppend, List.append_assoc] at hAfter
          exact (List.append_cancel_left hAfter).symm
        have hWide := room_lt_lineSum_fill hFill h hRest
        have hLe := lineSum_le_append L (t :: (line ++ [u])) us
        rw [List.cons_append, List.append_assoc, List.singleton_append] at hLe
        have hFits := hRoom (by simp)
        omega

end Fill

theorem admissible_divide {L : Layout} {first next : Text} {ts : List Token}
    (h : L.Counts (lineSum L ts)) : Admissible L first next (divide L first next ts) := by
  fun_induction divide L first next ts with
  | case1 => exact List.forall_mem_nil _
  | case2 first t ts ih =>
      rw [admissible_cons]
      refine ⟨⟨List.cons_ne_nil _ _, lineSum_fill_le rfl h⟩, ?_⟩
      exact ih (h.mono (lineSum_fill_rest_le rfl))

/-- No line that packing makes could take the first word of the next one, whichever margin the line
stands behind. -/
theorem tight_divide {L : Layout} {first next : Text} {ts : List Token}
    (h : L.Counts (lineSum L ts)) : Tight L first next (divide L first next ts) := by
  fun_induction divide L first next ts with
  | case1 => exact .nil
  | case2 first t ts ih =>
      rw [Tight, beside_cons, List.isChain_cons]
      refine ⟨?_, ih (h.mono (lineSum_fill_rest_le rfl))⟩
      intro q hq u hu
      -- The next line starts with the word that found no room.
      cases hOver : (fill L (L.room first) (L.width t.word) ts).2 with
      | nil => simp [hOver, divide, beside] at hq
      | cons v vs =>
          rw [hOver, divide, beside_cons, List.head?_cons, Option.mem_some_iff] at hq
          rw [← hq] at hu
          obtain rfl : v = u := Option.some.inj hu
          exact room_lt_lineSum_fill rfl h hOver

/-- A packed line does not fall behind the line `m` of an admissible division: it takes the words
that `m` still has for it. The words that are left for packing are therefore an end of those that
are left for the other division. -/
theorem isSuffix_of_fill {L : Layout} {room : Nat} {t : Token} {ts line rest m later : List Token}
    (hFill : fill L room (L.width t.word) ts = (line, rest))
    (h : L.Counts (lineSum L (t :: ts))) (hts : t :: ts <:+ m ++ later)
    (hRoom : 2 ≤ m.length → lineSum L m ≤ room) : rest <:+ later := by
  have hAppend := append_of_fill hFill
  have hRest : rest <:+ t :: ts := ⟨t :: line, by rw [List.cons_append, hAppend]⟩
  rcases List.suffix_or_suffix_of_suffix hts
    (List.suffix_append m later) with hLater | ⟨taken, hTaken⟩
  · -- The other division has already set the word `t`.
    exact hRest.trans hLater
  · -- Both lines start among the words of `m`, and packing takes them to its end.
    cases taken with
    | nil =>
        rw [List.nil_append] at hTaken
        rwa [hTaken]
    | cons u taken =>
        rw [List.cons_append] at hTaken
        obtain ⟨rfl, rfl⟩ := List.cons.inj hTaken
        rw [← List.cons_append] at hts
        have hSuffix := List.suffix_append_self_iff.mp hts
        have hLonger := hSuffix.length_le
        have hFits : taken ≠ [] → lineSum L (u :: taken) ≤ room := by
          intro hNe
          have hPos := List.length_pos_iff.mpr hNe
          rw [List.length_cons] at hLonger
          exact (lineSum_le_of_suffix L hSuffix).trans (hRoom (by omega))
        obtain ⟨more, rfl⟩ := isPrefix_fill hFill h (List.prefix_append taken later) hFits
        rw [List.append_assoc] at hAppend
        exact ⟨more, List.append_cancel_left hAppend⟩

/-- Packing is never behind an admissible division: whenever the words that are left for it are
among those that are left for the other, it needs no more lines. The induction is along the lines of
that division, and packing starts anywhere among its words. -/
theorem length_divide_le {L : Layout} {first next : Text} {ms : List (List Token)}
    (hms : Admissible L first next ms) (h : L.Counts (lineSum L ms.flatten)) {ts : List Token}
    (hts : ts <:+ ms.flatten) : (divide L first next ts).length ≤ ms.length := by
  induction ms generalizing first ts with
  | nil => rw [List.suffix_nil.mp hts, divide]
  | cons m ms ih =>
      cases ts with
      | nil =>
          rw [divide]
          exact Nat.zero_le _
      | cons t ts =>
          obtain ⟨⟨-, hRoom⟩, hRest⟩ := admissible_cons.mp hms
          rw [List.flatten_cons] at h hts
          have hWords := h.mono (lineSum_le_of_suffix L hts)
          rw [divide, List.length_cons, List.length_cons]
          cases hFill : fill L (L.room first) (L.width t.word) ts with
          | mk line rest =>
              have hLeft := isSuffix_of_fill hFill hWords hts hRoom
              exact Nat.succ_le_succ
                (ih hRest (h.mono (lineSum_le_of_suffix L (List.suffix_append m ms.flatten))) hLeft)

/-- The division that packing makes is optimal, in any register that counts up to the sum of all its
words and gaps. -/
theorem optimal_divide {L : Layout} {first next : Text} {ts : List Token}
    (h : L.Counts (lineSum L ts)) : Optimal L first next ts (divide L first next ts) where
  flatten := flatten_divide L first next ts
  admissible := admissible_divide h
  tight := tight_divide h
  fewest ms hFlatten hms := by
    subst hFlatten
    exact length_divide_le hms h List.suffix_rfl

end Packing

namespace Layout

/-- A text without tabs takes as many columns as it has characters, up to the size of the register.
Without bound the two are equal. -/
theorem foldl_advance_modEq (L : Layout) {t : Text} (ht : '\t' ∉ t) (w : Nat) :
    t.foldl L.advance w ≡ w + t.length [MOD L.modulus] := by
  induction t generalizing w with
  | nil => rfl
  | cons c t ih =>
      rw [List.mem_cons, not_or] at ht
      have hStep : L.advance w c ≡ w + 1 [MOD L.modulus] := by
        rw [advance, if_neg (Ne.symm ht.1)]
        exact Nat.mod_modEq _ _
      calc (c :: t).foldl L.advance w
          _ ≡ L.advance w c + t.length [MOD L.modulus] := ih ht.2 (L.advance w c)
          _ ≡ w + 1 + t.length [MOD L.modulus] := hStep.add_right t.length
          _ = w + (c :: t).length := by rw [List.length_cons]; omega

/-- A width is a state of the register, so that equality up to its size is equality of widths. -/
theorem width_mod (L : Layout) (t : Text) : L.width t % L.modulus = L.width t := by
  rcases List.eq_nil_or_concat t with rfl | ⟨front, c, rfl⟩
  · rw [width_nil, Nat.zero_mod]
  · rw [width, List.concat_eq_append, List.foldl_append, List.foldl_cons, List.foldl_nil, advance]
    split <;> exact Nat.mod_mod _ _

theorem width_modEq (L : Layout) {t : Text} (ht : '\t' ∉ t) :
    L.width t ≡ t.length [MOD L.modulus] := by
  have hWidth := L.foldl_advance_modEq ht 0
  rwa [Nat.zero_add] at hWidth

end Layout

namespace Packing

/-- Without tabs a gap is counted for as many columns as are written for it. -/
theorem gapWidth_modEq (L : Layout) {u : Token} (hu : '\t' ∉ u.gap) :
    gapWidth L u ≡ (spacer L u).length [MOD L.modulus] := by
  unfold gapWidth spacer
  split
  next hPos =>
    rw [Nat.max_eq_left hPos]
    exact L.width_modEq hu
  next hPos =>
    rw [Nat.max_eq_right (by omega)]
    rfl

/-- Without tabs the widths of a line sum up to its length. With a tab a gap can take more or fewer
columns on the line than it was counted for. -/
theorem lineSum_modEq (L : Layout) {l : List Token} (hl : ∀ u ∈ l, '\t' ∉ u.gap ∧ '\t' ∉ u.word) :
    lineSum L l ≡ (lineText L l).length [MOD L.modulus] := by
  cases l with
  | nil => rfl
  | cons t ts =>
      rw [List.forall_mem_cons] at hl
      rw [lineSum, lineText, List.length_append]
      apply (L.width_modEq hl.1.2).add
      have hTail := hl.2
      clear hl
      induction ts with
      | nil => rfl
      | cons u us ih =>
          rw [List.forall_mem_cons] at hTail
          rw [List.map_cons, List.sum_cons, List.flatMap_cons, List.length_append,
            List.length_append]
          apply Nat.ModEq.add
          · exact (gapWidth_modEq L hTail.1.1).add (L.width_modEq hTail.1.2)
          · exact ih hTail.2

/-- A line without tabs behind its margin is as wide as the margin and the sum of its widths. The
margin itself may hold tabs, as it starts at column zero in either count. -/
theorem width_margin_append {L : Layout} {margin : Text} {l : List Token}
    (hl : ∀ u ∈ l, '\t' ∉ u.gap ∧ '\t' ∉ u.word) (h : L.Counts (L.width margin + lineSum L l)) :
    L.width (margin ++ lineText L l) = L.width margin + lineSum L l := by
  have hText : '\t' ∉ lineText L l := by
    intro hTab
    rcases mem_of_mem_lineText hTab with hSpace | ⟨u, hu, hMem⟩
    · cases hSpace
    · rcases List.mem_append.mp hMem with hGap | hWord
      · exact (hl u hu).1 hGap
      · exact (hl u hu).2 hWord
  have hWidth :
      L.width (margin ++ lineText L l) ≡ L.width margin + lineSum L l [MOD L.modulus] := by
    rw [Layout.width, List.foldl_append]
    exact (L.foldl_advance_modEq hText _).trans ((lineSum_modEq L hl).symm.add_left _)
  rw [← L.width_mod, hWidth]
  exact Layout.add_eq h

end Packing

open Packing

/-- A paragraph is written on the fewest lines that have room for its words, and every line is as
full as it can be. If the paragraph holds no tab, the columns that a line is counted for are those
that it takes. Widths, sums and rooms are those without bound, whatever the register. The paragraph
is written exactly if none of the counts on the way leaves the register, so certainly if its length
and those of the margins, each times the distance of two stops, do not; nothing is said of a
paragraph that is not written. -/
theorem optimal_wrapParagraph (L : Layout) (first next t : Text) :
    ((wrapParagraph? L first next t).isSome ↔
        L.CountsAll (divideCounts L.endless first next (Token.ofText t))) ∧
      (L.Counts (L.stop * t.length) → L.Counts (L.stop * first.length) →
        L.Counts (L.stop * next.length) → (wrapParagraph? L first next t).isSome) ∧
      ∀ lines, wrapParagraph? L first next t = some lines →
        ∃ ls, lines = (beside first next ls).map (fun p => p.1 ++ lineText L.endless p.2) ∧
          Optimal L.endless first next (Token.ofText t) ls ∧
          ('\t' ∉ t → ∀ p ∈ beside first next ls,
            L.endless.width (p.1 ++ lineText L.endless p.2) =
              L.endless.width p.1 + lineSum L.endless p.2) := by
  refine ⟨isSome_wrapParagraph?_iff, isSome_wrapParagraph?, fun lines hLines => ?_⟩
  obtain ⟨-, rfl⟩ := wrapParagraph?_eq_some_iff.mp hLines
  refine ⟨divide L.endless first next (Token.ofText t), write_eq_map L.endless first next _,
    optimal_divide (Or.inl rfl), fun hTab p hp => ?_⟩
  apply width_margin_append _ (Or.inl rfl)
  intro u hu
  have hWord : u ∈ Token.ofText t := by
    rw [← flatten_divide L.endless first next (Token.ofText t)]
    exact List.mem_flatten_of_mem (mem_of_mem_beside hp) hu
  constructor
  · exact fun hMem => hTab (Token.mem_of_mem_ofText hWord (List.mem_append_left _ hMem))
  · exact fun hMem => hTab (Token.mem_of_mem_ofText hWord (List.mem_append_right _ hMem))

/-- Two margins that leave eight and six columns, and a word that is wider than either: the
paragraph is short enough for the register, it is written on three lines, and no fewer have room for
it. -/
theorem optimal_wrapParagraph_hanging :
    (wrapParagraph? { column := 10, tab := 4 } "- ".toList "    ".toList
        "aa  bb c dddddddddd e".toList).isSome ∧
      wrapParagraph? { column := 10, tab := 4 } "- ".toList "    ".toList
          "aa  bb c dddddddddd e".toList =
        some (["- aa  bb c", "    dddddddddd", "    e"].map String.toList) ∧
      ∃ ls, ["- aa  bb c", "    dddddddddd", "    e"].map String.toList =
          (beside "- ".toList "    ".toList ls).map
            (fun p => p.1 ++ lineText { column := 10, tab := 4, modulus := 0 } p.2) ∧
        Optimal { column := 10, tab := 4, modulus := 0 } "- ".toList "    ".toList
          (Token.ofText "aa  bb c dddddddddd e".toList) ls := by
  have hLines : wrapParagraph? { column := 10, tab := 4 } "- ".toList "    ".toList
      "aa  bb c dddddddddd e".toList =
        some (["- aa  bb c", "    dddddddddd", "    e"].map String.toList) := by decide +kernel
  obtain ⟨-, hShort, hWritten⟩ := optimal_wrapParagraph { column := 10, tab := 4 } "- ".toList
    "    ".toList "aa  bb c dddddddddd e".toList
  obtain ⟨ls, hForm, hOptimal, -⟩ := hWritten _ hLines
  exact ⟨hShort (by decide) (by decide) (by decide), hLines, ls, hForm, hOptimal⟩

/-- A tab that fills the register: the sum for the second word leaves it, so nothing is written. -/
example : wrapParagraph? { column := 8, tab := UInt64.size - 1 } [] [] "a\tb".toList = none := by
  decide +kernel

end Reflow
