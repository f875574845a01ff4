import Reflow.Paragraph.Checked
import Reflow.Proofs.Overflow

/-!
What wrapping with checked arithmetic writes. It has a result exactly when nothing that is counted
leaves the register, and then it writes what is written without bound. Arithmetic that is not
checked writes the same then, so the two differ only where the checked one has no result.
-/

namespace Reflow

/-- A result under a condition is still one under this condition after a function was applied. -/
theorem map_eq_some_iff_of_iff {α β : Type} {x : Option α} {p : Prop} {a : α}
    (h : ∀ b, x = some b ↔ p ∧ b = a) (f : α → β) {y : β} :
    x.map f = some y ↔ p ∧ y = f a := by
  simp only [Option.map_eq_some_iff, h]
  constructor
  · rintro ⟨_, ⟨hp, rfl⟩, rfl⟩
    exact ⟨hp, rfl⟩
  · rintro ⟨hp, rfl⟩
    exact ⟨_, ⟨hp, rfl⟩, rfl⟩

/-- Steps that succeed under conditions of their own succeed together under all of these. -/
theorem mapM_eq_some_iff {α β : Type} {f : α → Option β} {p : α → Prop} {g : α → β}
    (h : ∀ x y, f x = some y ↔ p x ∧ y = g x) {xs : List α} {ys : List β} :
    xs.mapM f = some ys ↔ (∀ x ∈ xs, p x) ∧ ys = xs.map g := by
  induction xs generalizing ys with
  | nil => simp [eq_comm]
  | cons x xs ih =>
      simp only [List.mapM_cons, Option.bind_eq_bind, Option.bind_eq_some_iff, Option.pure_def,
        Option.some.injEq, h, ih, List.forall_mem_cons, List.map_cons]
      constructor
      · rintro ⟨_, ⟨hx, rfl⟩, _, ⟨hxs, rfl⟩, rfl⟩
        exact ⟨⟨hx, hxs⟩, rfl⟩
      · rintro ⟨⟨hx, hxs⟩, rfl⟩
        exact ⟨_, ⟨hx, rfl⟩, _, ⟨hxs, rfl⟩, rfl⟩

namespace Layout

variable {L : Layout} {t : Text}

/-- Every register counts up to zero: one of no size counts without bound. -/
theorem counts_zero (L : Layout) : L.Counts 0 := Nat.eq_zero_or_pos L.modulus

theorem add?_eq_some_iff {a b c : Nat} : L.add? a b = some c ↔ L.Counts (a + b) ∧ c = a + b := by
  rw [add?, Option.ite_none_right_eq_some, Option.some.injEq, eq_comm (a := c)]

/-- A checked step to the next column has a result exactly if that column is in the register, and
then it is the column without bound. -/
theorem advance?_eq_some_iff {col n : Nat} {c : Char} :
    L.advance? col c = some n ↔ L.Counts (L.after col c) ∧ n = L.after col c := by
  rw [advance?, after]
  split
  · rw [add?_eq_some_iff, add_stop_sub_mod]
  · exact add?_eq_some_iff

/-- Columns only grow, so a chain of checked steps stops exactly if its end leaves the register.
Where it starts has to be in the register, since a text without characters takes no step that could
tell. -/
theorem foldlM_advance?_eq_some_iff {col n : Nat} (hCol : L.Counts col) :
    t.foldlM L.advance? col = some n ↔ L.Counts (L.reach col t) ∧ n = L.reach col t := by
  induction t generalizing col with
  | nil =>
      rw [List.foldlM_nil, reach_nil, Option.pure_def, Option.some.injEq, eq_comm]
      exact (and_iff_right hCol).symm
  | cons c t ih =>
      rw [List.foldlM_cons, reach_cons, Option.bind_eq_bind, Option.bind_eq_some_iff]
      simp only [advance?_eq_some_iff]
      constructor
      · rintro ⟨_, ⟨hNext, rfl⟩, hRest⟩
        exact (ih hNext).mp hRest
      · intro hEnd
        have hNext := hEnd.1.mono ((Nat.le_add_right _ _).trans (L.add_length_le_reach _ t))
        exact ⟨_, ⟨hNext, rfl⟩, (ih hNext).mpr hEnd⟩

/-- The width of a text is counted exactly, or not at all. There is no text for which a checked
width is a wrong one. -/
theorem width?_eq_some_iff {w : Nat} :
    L.width? t = some w ↔ L.Counts (L.endless.width t) ∧ w = L.endless.width t := by
  rw [width?, foldlM_advance?_eq_some_iff L.counts_zero, width_endless]

/-- The room beside a margin is known exactly if the width of the margin is, also where the margin
is wider than the page. -/
theorem room?_eq_some_iff {room : Nat} :
    L.room? t = some room ↔ L.Counts (L.endless.width t) ∧ room = L.endless.room t :=
  map_eq_some_iff_of_iff (fun _ => width?_eq_some_iff) _

end Layout

open Packing

variable {L : Layout} {first next : Text}

/-- One word more: the width of the line with it is counted, and it decides where the word goes. The
margin of the next line is measured only where a line is started; before that it may be as wide as
it likes. -/
theorem packFrom?_cons_eq_some_iff {margin line : Text} {room w : Nat} {t : Token} {ts : List Token}
    {lines : List Text} :
    packFrom? L next margin room w line (t :: ts) = some lines ↔
      L.Counts (extend L.endless w t) ∧
        if extend L.endless w t ≤ room then
          packFrom? L next margin room (extend L.endless w t)
            (line ++ (spacer L.endless t ++ t.word)) ts = some lines
        else
          L.Counts (L.endless.width next) ∧
            ∃ below,
              packFrom? L next next (L.endless.room next) (L.endless.width t.word) t.word ts =
                some below ∧ lines = (margin ++ line) :: below := by
  simp only [packFrom?, Option.bind_eq_bind, Option.bind_eq_some_iff, Layout.width?_eq_some_iff,
    Layout.add?_eq_some_iff]
  rw [extend_endless, spacer, gapWidth]
  constructor
  · rintro ⟨_, ⟨-, rfl⟩, _, ⟨-, rfl⟩, _, ⟨-, rfl⟩, _, ⟨hWider, rfl⟩, hLines⟩
    refine ⟨hWider, ?_⟩
    split at hLines
    next hFits => rwa [if_pos hFits, ← List.append_assoc]
    next hOver =>
      rw [if_neg hOver]
      simp only [Option.bind_eq_some_iff, Layout.room?_eq_some_iff, Option.pure_def,
        Option.some.injEq] at hLines
      obtain ⟨_, ⟨hNext, rfl⟩, below, hBelow, rfl⟩ := hLines
      exact ⟨hNext, below, hBelow, rfl⟩
  · rintro ⟨hWider, hLines⟩
    obtain ⟨hGap, hWord, hBehind⟩ := counts_of_extend (extend_endless L w t ▸ hWider)
    refine ⟨_, ⟨hWord, rfl⟩, _, ⟨hGap, rfl⟩, _, ⟨hBehind, rfl⟩, _, ⟨hWider, rfl⟩, ?_⟩
    split at hLines
    next hFits => rwa [if_pos hFits, List.append_assoc]
    next hOver =>
      rw [if_neg hOver]
      obtain ⟨hNext, below, hBelow, rfl⟩ := hLines
      simp only [Option.bind_eq_some_iff, Layout.room?_eq_some_iff, Option.pure_def,
        Option.some.injEq]
      exact ⟨_, ⟨hNext, rfl⟩, below, hBelow, rfl⟩

/-- Packing behind a line that is begun has a result exactly if nothing that is counted for the rest
of that line, or for the lines below it, leaves the register. It writes the words that still fit,
and then the lines into which the others are divided without bound. -/
theorem packFrom?_eq_some_iff {margin line : Text} {room w : Nat} {ts : List Token}
    {lines : List Text} :
    packFrom? L next margin room w line ts = some lines ↔
      (L.CountsAll (fillCounts L.endless room w ts) ∧
        L.CountsAll (divideCounts L.endless next next (fill L.endless room w ts).2)) ∧
      lines = (margin ++ (line ++ (fill L.endless room w ts).1.flatMap fun u =>
          spacer L.endless u ++ u.word)) ::
        write L.endless next next (divide L.endless next next (fill L.endless room w ts).2) := by
  induction ts generalizing margin line room w lines with
  | nil =>
      simp [packFrom?, fill, fillCounts, divideCounts, divide, write, Layout.CountsAll, eq_comm]
  | cons t ts ih =>
      rw [packFrom?_cons_eq_some_iff, countsAll_fillCounts_cons, fill]
      by_cases hFits : extend L.endless w t ≤ room
      · rw [if_pos hFits, if_pos hFits, ih]
        simp only [hFits, true_implies, List.flatMap_cons, List.append_assoc, and_assoc]
      · rw [if_neg hFits, if_neg hFits]
        simp only [hFits, false_implies, and_true, ih, countsAll_divideCounts_cons, divide,
          write_cons, lineText, List.flatMap_nil, List.append_nil]
        constructor
        · rintro ⟨hWider, hNext, _, ⟨⟨hFill, hRest⟩, rfl⟩, rfl⟩
          exact ⟨⟨hWider, hNext, (counts_of_extend hWider).2.1, hFill, hRest⟩, rfl⟩
        · rintro ⟨⟨hWider, hNext, -, hFill, hRest⟩, rfl⟩
          exact ⟨hWider, hNext, _, ⟨⟨hFill, hRest⟩, rfl⟩, rfl⟩

/-- **Checked packing.** A paragraph is written exactly if nothing that is counted for it leaves the
register, and then it is written as it is without bound. -/
theorem wrapParagraph?_eq_some_iff {t : Text} {lines : List Text} :
    wrapParagraph? L first next t = some lines ↔
      L.CountsAll (divideCounts L.endless first next (Token.ofText t)) ∧
        lines = wrapParagraph L.endless first next t := by
  rw [wrapParagraph?, wrapParagraph]
  cases Token.ofText t with
  | nil => simp [divideCounts, divide, write, Layout.CountsAll, eq_comm]
  | cons u us =>
      simp only [Option.bind_eq_bind, Option.bind_eq_some_iff, Layout.room?_eq_some_iff,
        Layout.width?_eq_some_iff, packFrom?_eq_some_iff, countsAll_divideCounts_cons, divide,
        write_cons, lineText]
      constructor
      · rintro ⟨_, ⟨hFirst, rfl⟩, _, ⟨hWord, rfl⟩, hCounts, hLines⟩
        exact ⟨⟨hFirst, hWord, hCounts⟩, hLines⟩
      · rintro ⟨⟨hFirst, hWord, hCounts⟩, hLines⟩
        exact ⟨_, ⟨hFirst, rfl⟩, _, ⟨hWord, rfl⟩, hCounts, hLines⟩

/-- Whether a paragraph is written at all is a matter of what is counted for it, and not of how the
lines turn out. -/
theorem isSome_wrapParagraph?_iff {t : Text} : (wrapParagraph? L first next t).isSome ↔
    L.CountsAll (divideCounts L.endless first next (Token.ofText t)) := by
  simp only [Option.isSome_iff_exists, wrapParagraph?_eq_some_iff, exists_and_left, exists_eq,
    and_true]

/-- A paragraph is written if its length and those of the margins, each times the distance of two
stops, are in the register. The condition is not necessary: most words are narrower than that. -/
theorem isSome_wrapParagraph? {t : Text} (hText : L.Counts (L.stop * t.length))
    (hFirst : L.Counts (L.stop * first.length)) (hNext : L.Counts (L.stop * next.length)) :
    (wrapParagraph? L first next t).isSome := by
  rw [isSome_wrapParagraph?_iff]
  intro n hn
  rcases le_of_mem_divideCounts (fun _ => Token.gap_ne_nil_of_mem_tail) hn with hLe | hLe | hLe
  · exact hFirst.mono hLe
  · exact hNext.mono hLe
  · exact hText.mono
      (hLe.trans (Nat.mul_le_mul_left L.stop (Token.length_flatMap_text_le t)))

/-- **Checked wrapping.** A text is wrapped exactly if nothing that is counted for it leaves the
register, and then it is wrapped as it is without bound. One paragraph that cannot be counted is
enough for the whole text to have no result. -/
theorem wrap?_eq_some_iff {t : Text} {lines : List Text} :
    wrap? L first next t = some lines ↔
      L.CountsAll (wrapCounts L.endless first next t) ∧ lines = wrap L.endless first next t := by
  rw [wrap?, wrap, wrapCounts]
  cases paragraphs t with
  | nil => simp [Layout.CountsAll, eq_comm]
  | cons p ps =>
      have hBelow : ∀ q lines, ((wrapParagraph? L next next q).bind fun lines =>
          some (Text.dropEndSpaces next :: lines)) = some lines ↔
            L.CountsAll (divideCounts L.endless next next (Token.ofText q)) ∧
              lines = Text.dropEndSpaces next :: wrapParagraph L.endless next next q := by
        intro q lines
        exact Option.map_eq_bind ▸ map_eq_some_iff_of_iff (fun _ => wrapParagraph?_eq_some_iff)
          (Text.dropEndSpaces next :: ·)
      simp only [Option.bind_eq_bind, Option.pure_def, Option.bind_eq_some_iff,
        wrapParagraph?_eq_some_iff, mapM_eq_some_iff hBelow, Option.some.injEq,
        Layout.countsAll_append, Layout.countsAll_flatMap]
      constructor
      · rintro ⟨_, ⟨hHead, rfl⟩, _, ⟨hRest, rfl⟩, rfl⟩
        exact ⟨⟨hHead, hRest⟩, rfl⟩
      · rintro ⟨⟨hHead, hRest⟩, rfl⟩
        exact ⟨_, ⟨hHead, rfl⟩, _, ⟨hRest, rfl⟩, rfl⟩

/-- Where checked wrapping has a result, wrapping that counts on from zero has the same. So every
law of the unchecked one is a law of the checked one as long as there is a result. -/
theorem wrap_eq_of_wrap? {t : Text} {lines : List Text} (h : wrap? L first next t = some lines) :
    wrap L first next t = lines := by
  obtain ⟨hCounts, rfl⟩ := wrap?_eq_some_iff.mp h
  exact wrap_eq_endless hCounts

end Reflow
