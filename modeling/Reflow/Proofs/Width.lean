import Reflow.Proofs.Wrap

/-!
How wide a wrapped line is. The packer adds up widths that are each counted from column zero, while
a tab on the line goes to the next stop from wherever it stands. The two agree except for a gap that
holds a tab behind spaces: written at another column, such a gap can be wider than it was counted. A
line of several words therefore exceeds the target column by at most the drift of its gaps, and a
line whose gaps do not drift keeps to it.
-/

namespace Reflow

namespace Layout

/-- A register that counts up to a number counts up to every smaller one, so one bound per line is
enough. -/
theorem Counts.mono {L : Layout} {m n : Nat} (h : L.Counts n) (hle : m ≤ n) : L.Counts m :=
  h.imp_right (Nat.lt_of_le_of_lt hle)

theorem add_eq {L : Layout} {a b : Nat} (h : L.Counts (a + b)) : L.add a b = a + b := by
  rcases h with hEndless | hLt
  · rw [add, hEndless, Nat.mod_zero]
  · exact Nat.mod_eq_of_lt hLt

/-- The column after `c` is written in column `col`, counted without bound. A tab goes to the next
multiple of the stop, also from a column that is one. -/
def after (L : Layout) (col : Nat) (c : Char) : Nat :=
  if c = '\t' then L.stop * (col / L.stop + 1) else col + 1

/-- The column after `t` is written from column `col` on, counted without bound. From column zero
this is the width of the text. -/
def reach (L : Layout) (col : Nat) (t : Text) : Nat := t.foldl L.after col

@[simp] theorem reach_nil (L : Layout) (col : Nat) : L.reach col [] = col := rfl

theorem reach_cons (L : Layout) (col : Nat) (c : Char) (t : Text) :
    L.reach col (c :: t) = L.reach (L.after col c) t := rfl

theorem reach_append (L : Layout) (col : Nat) (t u : Text) :
    L.reach col (t ++ u) = L.reach (L.reach col t) u :=
  List.foldl_append

/-- A tab goes to the next multiple of the stop. In this form it is plain that a tab forgets how far
into the stop the column was. -/
theorem add_stop_sub_mod (L : Layout) (col : Nat) :
    col + (L.stop - col % L.stop) = L.stop * (col / L.stop + 1) := by
  have hLt := Nat.mod_lt col L.stop_pos
  have hDiv := Nat.div_add_mod col L.stop
  rw [Nat.mul_add, Nat.mul_one]
  omega

/-- A character takes at least one column and at most the distance of two stops. All bounds on
widths by lengths come from this one. -/
theorem after_bounds (L : Layout) (col : Nat) (c : Char) :
    col + 1 ≤ L.after col c ∧ L.after col c ≤ col + L.stop := by
  have hLt := Nat.mod_lt col L.stop_pos
  have hPos := L.stop_pos
  rw [after, ← add_stop_sub_mod]
  split <;> omega

theorem advance_eq_after {L : Layout} {col : Nat} {c : Char} (h : L.Counts (L.after col c)) :
    L.advance col c = L.after col c := by
  unfold after at h ⊢
  unfold advance
  split
  next hTab =>
    rw [if_pos hTab, ← add_stop_sub_mod] at h
    rw [← add_stop_sub_mod, add_eq h]
  next hTab =>
    rw [if_neg hTab] at h
    exact add_eq h

theorem add_length_le_reach (L : Layout) (col : Nat) (t : Text) :
    col + t.length ≤ L.reach col t := by
  induction t generalizing col with
  | nil => exact Nat.le_refl col
  | cons c t ih =>
      have hNext := (L.after_bounds col c).1
      have hRest := ih (L.after col c)
      rw [reach_cons, List.length_cons]
      omega

theorem reach_le_add_mul (L : Layout) (col : Nat) (t : Text) :
    L.reach col t ≤ col + L.stop * t.length := by
  induction t generalizing col with
  | nil => exact Nat.le_refl col
  | cons c t ih =>
      have hNext := (L.after_bounds col c).2
      have hRest := ih (L.after col c)
      rw [reach_cons, List.length_cons, Nat.mul_succ]
      omega

/-- A register that is large enough shows the column that was reached. Only the last column has to
be in the register, as no column on the way exceeds it. -/
theorem foldl_advance_eq_reach {L : Layout} {col : Nat} {t : Text} (h : L.Counts (L.reach col t)) :
    t.foldl L.advance col = L.reach col t := by
  induction t generalizing col with
  | nil => rfl
  | cons c t ih =>
      have hRest := L.add_length_le_reach (L.after col c) t
      rw [reach_cons] at h ⊢
      rw [List.foldl_cons, advance_eq_after (h.mono (by omega)), ih h]

theorem width_eq_reach {L : Layout} {t : Text} (h : L.Counts (L.stop * t.length)) :
    L.width t = L.reach 0 t :=
  foldl_advance_eq_reach (h.mono (by simpa using L.reach_le_add_mul 0 t))

theorem reach_of_notMem (L : Layout) (col : Nat) {t : Text} (h : '\t' ∉ t) :
    L.reach col t = col + t.length := by
  induction t generalizing col with
  | nil => rfl
  | cons c t ih =>
      have hc : c ≠ '\t' := fun hTab => h (hTab ▸ List.mem_cons_self)
      rw [reach_cons, after, if_neg hc,
        ih _ fun hTab => h (List.mem_cons_of_mem c hTab), List.length_cons]
      omega

/-- From one tab stop on, a text reaches as far as from another. From between two stops it may not,
which is where drift comes from. -/
theorem reach_mul_add (L : Layout) (q col : Nat) (t : Text) :
    L.reach (L.stop * q + col) t = L.stop * q + L.reach col t := by
  induction t generalizing col with
  | nil => rfl
  | cons c t ih =>
      have hStep : L.after (L.stop * q + col) c = L.stop * q + L.after col c := by
        unfold after
        rw [Nat.mul_add_div L.stop_pos]
        split
        · rw [Nat.add_assoc, Nat.mul_add]
        · rfl
      rw [reach_cons, hStep, ih]
      rfl

/-- The columns that a gap can take on a line beyond those that it takes at column zero: spaces
before a tab are lost in the way to its stop, but not if they cross that stop. A gap that starts
with its tab has none. -/
def drift (L : Layout) (gap : Text) : Nat :=
  if '\t' ∈ gap then (gap.takeWhile (· != '\t')).length % L.stop else 0

/-- Written at any column, a text is at most its drift wider than at column zero. It can also be
narrower, if the first tab is near. -/
theorem reach_le_add_drift (L : Layout) (col : Nat) (t : Text) :
    L.reach col t ≤ col + L.reach 0 t + L.drift t := by
  by_cases hTab : '\t' ∈ t
  · obtain ⟨front, rest, rfl, hFront⟩ := List.eq_append_cons_of_mem hTab
    have hTake : (front ++ '\t' :: rest).takeWhile (· != '\t') = front := by
      rw [List.takeWhile_append_of_pos]
      · simp
      · rintro c hc
        simpa using ne_of_mem_of_not_mem hc hFront
    have hReach : ∀ k, L.reach k (front ++ '\t' :: rest) =
        L.stop * ((k + front.length) / L.stop + 1) + L.reach 0 rest := by
      intro k
      have hStop := L.reach_mul_add ((k + front.length) / L.stop + 1) 0 rest
      rwa [reach_append, reach_of_notMem L k hFront, reach_cons, after,
        if_pos rfl]
    rw [drift, if_pos hTab, hTake, hReach, hReach, Nat.zero_add, Nat.mul_add, Nat.mul_add]
    have hLine := Nat.mul_div_le (col + front.length) L.stop
    have hGap := Nat.div_add_mod front.length L.stop
    omega
  · rw [reach_of_notMem L col hTab, reach_of_notMem L 0 hTab]
    omega

end Layout

namespace Packing

theorem notMem_tab_of_solid {t : Text} (h : ∀ c ∈ t, isGap c = false) : '\t' ∉ t := fun hTab => by
  have hGap := h _ hTab
  cases hGap

theorem width_word {L : Layout} {u : Token} (hu : u.Proper)
    (h : L.Counts (L.stop * u.word.length)) : L.width u.word = u.word.length := by
  rw [Layout.width_eq_reach h, Layout.reach_of_notMem L 0 (notMem_tab_of_solid hu.word_solid),
    Nat.zero_add]

/-- A gap is counted for no more than its spacer can take: each character at most the distance of
two stops. -/
theorem gapWidth_le {L : Layout} {u : Token} (h : L.Counts (L.stop * (spacer L u).length)) :
    gapWidth L u ≤ L.stop * (spacer L u).length := by
  have hPos := L.stop_pos
  unfold gapWidth
  unfold spacer at h ⊢
  split
  next hWidth =>
    rw [if_pos hWidth] at h
    have hReach := L.reach_le_add_mul 0 u.gap
    rw [Layout.width_eq_reach h] at hWidth ⊢
    omega
  · simp only [List.length_singleton]
    omega

/-- A gap on a line takes at most its drift more than it was counted for. A gap of no width is
written as one space, and counted for it. -/
theorem reach_spacer_le {L : Layout} {u : Token} (h : L.Counts (L.stop * (spacer L u).length))
    (col : Nat) : L.reach col (spacer L u) ≤ col + gapWidth L u + L.drift u.gap := by
  unfold gapWidth
  unfold spacer at h ⊢
  split
  next hWidth =>
    rw [if_pos hWidth] at h
    have hDrift := L.reach_le_add_drift col u.gap
    rw [Layout.width_eq_reach h]
    omega
  · rw [L.reach_of_notMem col (t := [' ']) (by decide), List.length_singleton]
    omega

/-- The columns by which a line can exceed the sum of its counted widths: what its gaps drift, taken
together. The first gap counts here too, though it is not written. -/
def drift (L : Layout) (ts : List Token) : Nat := ts.foldr (fun u n => L.drift u.gap + n) 0

theorem drift_cons (L : Layout) (u : Token) (ts : List Token) :
    drift L (u :: ts) = L.drift u.gap + drift L ts := rfl

/-- While the register is large enough, a line is widened by the gap and by the characters of the
word, which holds no tab. -/
theorem extend_eq {L : Layout} {w : Nat} {u : Token} (hu : u.Proper)
    (h : L.Counts (w + L.stop * (spacer L u ++ u.word).length)) :
    extend L w u = w + gapWidth L u + u.word.length := by
  rw [List.length_append, Nat.mul_add] at h
  have hGap := gapWidth_le (L := L) (u := u) (h.mono (by omega))
  have hWord := Nat.le_mul_of_pos_left u.word.length L.stop_pos
  have hInner : L.add w (gapWidth L u) = w + gapWidth L u := Layout.add_eq (h.mono (by omega))
  rw [extend, width_word hu (h.mono (by omega)), hInner, Layout.add_eq (h.mono (by omega))]

/-- From any column on, words that were counted up to a width reach at most that width and their
drift further. The column at which the words start is free, as a margin is written before them. -/
theorem reach_add_le_foldl_extend {L : Layout} {ts : List Token} (hts : ∀ u ∈ ts, u.Proper)
    {w : Nat} (h : L.Counts (w + L.stop * (ts.flatMap fun u => spacer L u ++ u.word).length))
    (col : Nat) :
    L.reach col (ts.flatMap fun u => spacer L u ++ u.word) + w ≤
      col + ts.foldl (extend L) w + drift L ts := by
  induction ts generalizing w col with
  | nil => simp [drift]
  | cons u ts ih =>
      have hu := hts u List.mem_cons_self
      rw [List.flatMap_cons, List.length_append, Nat.mul_add] at h
      have hExtend := extend_eq (L := L) (w := w) hu (h.mono (by omega))
      rw [List.length_append, Nat.mul_add] at h
      have hGap := gapWidth_le (L := L) (u := u) (h.mono (by omega))
      have hSpacer := reach_spacer_le (L := L) (u := u) (h.mono (by omega)) col
      have hWord := Nat.le_mul_of_pos_left u.word.length L.stop_pos
      have hRest := ih (fun v hv => hts v (List.mem_cons_of_mem u hv)) (w := extend L w u)
        (h.mono (by omega)) (L.reach col (spacer L u ++ u.word))
      rw [Layout.reach_append, L.reach_of_notMem _ (notMem_tab_of_solid hu.word_solid)] at hRest
      rw [List.flatMap_cons, Layout.reach_append, Layout.reach_append,
        L.reach_of_notMem _ (notMem_tab_of_solid hu.word_solid), List.foldl_cons, drift_cons]
      omega

/-- Two words and a gap need three columns, so a page that is too narrow for them has no line of two
words. This settles the case of a margin that is wider than the page. -/
theorem two_lt_extend {L : Layout} {t u : Token} (ht : t.Proper) (hu : u.Proper)
    (h : L.Counts (L.stop * t.word.length + L.stop * (spacer L u ++ u.word).length)) :
    2 < extend L (L.width t.word) u := by
  have hWidth := width_word ht (L := L) (h.mono (by omega))
  have hWord := Nat.le_mul_of_pos_left t.word.length L.stop_pos
  have hFirst := List.length_pos_iff.mpr ht.word_ne_nil
  have hSecond := List.length_pos_iff.mpr hu.word_ne_nil
  have hGap : 1 ≤ gapWidth L u := Nat.le_max_right _ _
  rw [extend_eq hu (h.mono (by omega))]
  omega

theorem foldl_extend_le_of_fits {L : Layout} {room w : Nat} {u : Token} {us : List Token}
    (h : (fill L room w (u :: us)).2 = []) :
    extend L w u ≤ room ∧ (u :: us).foldl (extend L) w ≤ room := by
  induction us generalizing w u with
  | nil =>
      rw [fill] at h
      split at h
      next hFits => exact ⟨hFits, hFits⟩
      · cases h
  | cons v us ih =>
      rw [fill] at h
      split at h
      next hFits => exact ⟨hFits, (ih h).2⟩
      · cases h

/-- A written line behind its margin is a single word, or it exceeds the column by no more than the
drift of its gaps. A single word is excepted because it is never broken; how wide it is does not
matter. -/
theorem Written.width_le {L : Layout} {margin l : Text} (hl : Written L (L.room margin) l)
    (h : L.Counts (L.stop * (margin ++ l).length)) :
    (∀ c ∈ l, isGap c = false) ∨
      L.width (margin ++ l) ≤ L.column + drift L (Token.ofText l) := by
  have hProper : ∀ u ∈ Token.ofText l, u.Proper := fun u => Token.proper_of_mem_ofText
  have hText := hl.text
  have hFits := hl.fits
  cases hTokens : Token.ofText l with
  | nil => exact absurd hTokens hFits.ne_nil
  | cons t ts =>
      rw [hTokens] at hProper hText hFits
      have ht := hProper t List.mem_cons_self
      rw [lineText] at hText
      cases ts with
      | nil =>
          rw [List.flatMap_nil, List.append_nil] at hText
          exact Or.inl (hText ▸ ht.word_solid)
      | cons u us =>
          right
          have hTail : ∀ v ∈ u :: us, v.Proper := fun v hv => hProper v (List.mem_cons_of_mem t hv)
          have hLength := congrArg (L.stop * ·.length) hText
          simp only [List.length_append, Nat.mul_add] at hLength
          have hWhole := Layout.width_eq_reach h
          rw [List.length_append, Nat.mul_add] at h
          have hMargin := Layout.width_eq_reach (L := L) (t := margin) (h.mono (by omega))
          have hMarginLe := L.reach_le_add_mul 0 margin
          have hWidth := width_word ht (L := L) (h.mono (by omega))
          have hWordLe := Nat.le_mul_of_pos_left t.word.length L.stop_pos
          obtain ⟨hFirst, hRoom⟩ := foldl_extend_le_of_fits hFits
          have hReach := reach_add_le_foldl_extend hTail (w := L.width t.word)
            (h.mono (by rw [hWidth]; omega)) (L.reach 0 margin + t.word.length)
          -- So the margin leaves room for them.
          have hTwo : 2 < extend L (L.width t.word) u := by
            refine two_lt_extend ht (hTail u List.mem_cons_self) (h.mono ?_)
            rw [List.flatMap_cons, List.length_append, Nat.mul_add] at hLength
            omega
          have hSplit : L.reach 0 (margin ++ l) =
              L.reach (L.reach 0 margin + t.word.length)
                ((u :: us).flatMap fun v => spacer L v ++ v.word) := by
            rw [← hText, Layout.reach_append, Layout.reach_append,
              L.reach_of_notMem _ (notMem_tab_of_solid ht.word_solid)]
          have hColumn : L.room margin = L.column - L.width margin := by
            unfold Layout.room at hFirst ⊢
            omega
          rw [hWhole, hSplit, drift_cons]
          omega

end Packing

/-- Every line of a wrapped text that carries words is its margin and a single word, or it exceeds
the column by no more than the drift of its gaps: not at all, if no gap has a tab behind spaces that
end between two stops. The register has to be large enough for the line. Lines that carry no words,
a margin alone or a separator, are as wide as the margin is. -/
theorem width_le_of_mem_wrap (L : Layout) (first next t : Text) {l : Text}
    (hl : l ∈ wrap L first next t) (h : L.Counts (L.stop * l.length)) :
    (paragraphs t = [] ∧ l = first) ∨ l = Text.dropEndSpaces next ∨
      ∃ margin body, (margin = first ∨ margin = next) ∧ l = margin ++ body ∧ body ≠ [] ∧
        ((∀ c ∈ body, isGap c = false) ∨
          L.width l ≤ L.column + Packing.drift L (Token.ofText body)) := by
  refine (exists_written_of_mem_wrap hl).imp_right (Or.imp_right ?_)
  rintro ⟨margin, body, hMargin, rfl, hBody⟩
  exact ⟨margin, body, hMargin, rfl, hBody.bounded.ne_nil, hBody.width_le h⟩

/-- A tab on its own does not drift: the line is nine columns wide and was counted as ten. -/
theorem width_le_of_mem_wrap_tab :
    "// ab\tc".toList ∈
        wrap { column := 12, tab := 4 } "// ".toList "// ".toList "ab\tc def".toList ∧
      ∃ margin body, (margin = "// ".toList ∨ margin = "// ".toList) ∧
        "// ab\tc".toList = margin ++ body ∧ body ≠ [] ∧ ((∀ c ∈ body, isGap c = false) ∨
          Layout.width { column := 12, tab := 4 } "// ab\tc".toList ≤
            12 + Packing.drift { column := 12, tab := 4 } (Token.ofText body)) := by
  have hLine : "// ab\tc".toList ∈
      wrap { column := 12, tab := 4 } "// ".toList "// ".toList "ab\tc def".toList := by
    decide +kernel
  refine ⟨hLine, ?_⟩
  rcases width_le_of_mem_wrap _ _ _ _ hLine (by decide +kernel) with ⟨-, hFirst⟩ | hNext | hWords
  · exact absurd hFirst (by decide +kernel)
  · exact absurd hNext (by decide +kernel)
  · exact hWords

/-- A space and a tab take four columns at column zero and five behind `abc`, so a line of two words
is nine columns wide where eight are allowed. -/
theorem width_not_le_of_mem_wrap :
    ¬ ∀ l ∈ wrap { column := 8, tab := 4 } [] [] "abc \td".toList,
      Layout.width { column := 8, tab := 4 } l ≤ 8 ∨ ∀ c ∈ l, isGap c = false := by
  intro hAll
  have hLine : "abc \td".toList ∈ wrap { column := 8, tab := 4 } [] [] "abc \td".toList := by
    decide +kernel
  rcases hAll _ hLine with hNarrow | hWord
  · exact absurd hNarrow (by decide +kernel)
  · exact absurd (hWord '\t' (by decide)) (by decide)

end Reflow
