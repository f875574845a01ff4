import Mathlib.Data.List.Chain
import Reflow.Proofs.Paragraph

/-!
Greedy division of words into lines. A division is greedy if every line fits and every break is
forced by the word behind it; there is exactly one such division of given words, and it is the one
that is made. A written line is read back as the same words in gaps of the same width.
-/

namespace Reflow.Packing

/-- The width of a line of words, without its margin and without the gap before its first word,
which is not written. -/
def lineWidth (L : Layout) : List Token → Nat
  | [] => 0
  | t :: ts => ts.foldl (extend L) (L.width t.word)

/-- A line has a word, and every word behind the first one finds room. The first word need not: a
word wider than the page gets a line of its own. -/
def Fits (L : Layout) (room : Nat) : List Token → Prop
  | [] => False
  | t :: ts => (fill L room (L.width t.word) ts).2 = []

/-- The first word of line `b` does not find room at the end of line `a`, behind the gap that the
word had in the text. Where that gap is not one space, reading the lines back may decide
otherwise. -/
def Forced (L : Layout) (room : Nat) (a b : List Token) : Prop :=
  ∀ u, b.head? = some u → room < extend L (lineWidth L a) u

/-- Every line fits and every break is forced. Both are said for one room, so for a paragraph whose
first margin is as wide as the others. -/
structure Greedy (L : Layout) (room : Nat) (ls : List (List Token)) : Prop where
  fits : ∀ l ∈ ls, Fits L room l
  forced : ls.IsChain (Forced L room)

theorem Fits.ne_nil {L : Layout} {room : Nat} {l : List Token} (h : Fits L room l) : l ≠ [] := by
  rintro rfl
  exact h

/-- Filling takes all words that fit and goes on with the words behind them, at the width that the
first ones reached. Filling is so cut at any word of a line. -/
theorem fill_append_of_fits {L : Layout} {room w : Nat} {ts : List Token}
    (h : (fill L room w ts).2 = []) (us : List Token) :
    fill L room w (ts ++ us) = (ts ++ (fill L room (ts.foldl (extend L) w) us).1,
      (fill L room (ts.foldl (extend L) w) us).2) := by
  induction ts generalizing w with
  | nil => rfl
  | cons t ts ih =>
      rw [fill] at h
      split at h
      next hFits =>
        rw [List.cons_append, fill, if_pos hFits]
        dsimp only at h ⊢
        rw [ih h]
        rfl
      · cases h

/-- What was filled fits, and the word behind it does not: the two halves of being greedy, for one
line from width `w` on. -/
theorem fill_maximal (L : Layout) (room w : Nat) (ts : List Token) :
    (fill L room w (fill L room w ts).1).2 = [] ∧
      ∀ u us, (fill L room w ts).2 = u :: us →
        room < extend L ((fill L room w ts).1.foldl (extend L) w) u := by
  induction ts generalizing w with
  | nil => exact ⟨rfl, nofun⟩
  | cons t ts ih =>
      rw [fill]
      split
      next hFits =>
        obtain ⟨hFirst, hRest⟩ := ih (extend L w t)
        dsimp only
        rw [fill, if_pos hFits]
        exact ⟨hFirst, hRest⟩
      next hFits =>
        refine ⟨rfl, fun u us hCons => ?_⟩
        obtain ⟨rfl, -⟩ := List.cons.inj hCons
        exact Nat.lt_of_not_le hFits

/-- The division that is made is greedy, if there is the same room on the first line as on all
others. -/
theorem greedy_divide {L : Layout} {room : Nat} {first next : Text} (hFirst : L.room first = room)
    (hNext : L.room next = room) (ts : List Token) : Greedy L room (divide L first next ts) := by
  fun_induction divide L first next ts with
  | case1 => exact ⟨List.forall_mem_nil _, .nil⟩
  | case2 first t ts ih =>
      obtain ⟨hFits, hForced⟩ := fill_maximal L (L.room first) (L.width t.word) ts
      have hRest := ih hNext
      rw [hFirst] at hFits hForced hRest ⊢
      refine ⟨fun l hl => ?_, List.isChain_cons.mpr ⟨fun l hl => ?_, hRest.forced⟩⟩
      · rcases List.mem_cons.mp hl with rfl | hl
        · exact hFits
        · exact hRest.fits l hl
      · -- The next line starts with the word that did not fit.
        cases hOver : (fill L room (L.width t.word) ts).2 with
        | nil => simp [hOver, divide] at hl
        | cons u us =>
            rw [hOver, divide, List.head?_cons, Option.mem_some_iff] at hl
            rw [← hl]
            intro v hv
            obtain rfl : u = v := Option.some.inj hv
            exact hForced u us hOver

/-- A greedy division is the only one: from its words alone the same lines are made again. With the
lemma above, the lines of a paragraph are known by the two conditions of `Greedy`. -/
theorem divide_flatten {L : Layout} {room : Nat} {first next : Text} (hFirst : L.room first = room)
    (hNext : L.room next = room) {ls : List (List Token)} (h : Greedy L room ls) :
    divide L first next ls.flatten = ls := by
  induction ls generalizing first with
  | nil => simp [divide]
  | cons l ls ih =>
      have hFits := h.fits l List.mem_cons_self
      have hTail : Greedy L room ls :=
        ⟨fun m hm => h.fits m (List.mem_cons_of_mem l hm), h.forced.tail⟩
      cases l with
      | nil => exact hFits.elim
      | cons t ts =>
          have hOver : fill L room (ts.foldl (extend L) (L.width t.word)) ls.flatten =
              ([], ls.flatten) := by
            cases ls with
            | nil => rfl
            | cons m ls =>
                obtain ⟨u, us, rfl⟩ :=
                  List.exists_cons_of_ne_nil (hTail.fits m List.mem_cons_self).ne_nil
                have hWide := (List.isChain_cons_cons.mp h.forced).1 u rfl
                rw [lineWidth] at hWide
                rw [List.flatten_cons, List.cons_append, fill, if_neg (Nat.not_le.mpr hWide)]
          rw [List.flatten_cons, List.cons_append, divide, hFirst,
            fill_append_of_fits hFits, hOver, List.append_nil, ih hNext hTail]

/-- A token as it is read back from a written line, where its gap is what was written before it. -/
def respace (L : Layout) (t : Token) : Token := { t with gap := spacer L t }

/-- A line as it is read back: no gap is left before its first word. All other gaps may differ from
those in the text, but not in their width. -/
def reread (L : Layout) : List Token → List Token
  | [] => []
  | t :: ts => { t with gap := [] } :: ts.map (respace L)

theorem gapWidth_respace (L : Layout) (t : Token) : gapWidth L (respace L t) = gapWidth L t := by
  have hSpace : L.width [' '] ≤ 1 := by
    simp only [Layout.width, Layout.advance, Layout.add, List.foldl_cons, List.foldl_nil]
    exact Nat.mod_le _ _
  unfold gapWidth respace spacer
  split
  · rfl
  · dsimp only
    omega

/-- A line is as wide with the gap that was written as with the gap that was read, since a gap of no
width was counted as one space. -/
theorem extend_respace (L : Layout) (w : Nat) (t : Token) :
    extend L w (respace L t) = extend L w t := by
  rw [extend, gapWidth_respace]
  rfl

theorem spacer_respace (L : Layout) (t : Token) : spacer L (respace L t) = spacer L t := by
  unfold respace spacer
  split
  · rfl
  · exact ite_self _

theorem fill_map_respace (L : Layout) (room w : Nat) (ts : List Token) :
    (fill L room w (ts.map (respace L))).2 = (fill L room w ts).2.map (respace L) := by
  induction ts generalizing w with
  | nil => rfl
  | cons t ts ih =>
      rw [List.map_cons, fill, fill, extend_respace]
      split
      · exact ih _
      · rfl

/-- Reading a line back does not change its width, so what fitted on it still does, and what did not
still does not. -/
theorem lineWidth_reread (L : Layout) (l : List Token) :
    lineWidth L (reread L l) = lineWidth L l := by
  cases l with
  | nil => rfl
  | cons t ts =>
      rw [reread, lineWidth, lineWidth, List.foldl_map]
      exact congrArg (fun f => ts.foldl f _) (funext fun w => funext fun u => extend_respace L w u)

theorem fits_reread {L : Layout} {room : Nat} {l : List Token} (h : Fits L room l) :
    Fits L room (reread L l) := by
  cases l with
  | nil => exact h
  | cons t ts =>
      rw [Fits] at h
      rw [reread, Fits, fill_map_respace, h]
      rfl

theorem proper_respace {L : Layout} {t : Token} (ht : t.Proper) : (respace L t).Proper :=
  ⟨ht.word_ne_nil, ht.word_solid, fun _ => isGap_of_mem_spacer L ht⟩

theorem opensWithGap_flatMap_spacer (L : Layout) {ts : List Token} (hts : ∀ t ∈ ts, t.Proper) :
    Token.OpensWithGap (ts.flatMap fun u => spacer L u ++ u.word) := by
  intro c hc
  cases ts with
  | nil => cases hc
  | cons t ts =>
      obtain ⟨d, rest, hSpacer⟩ := List.exists_cons_of_ne_nil (spacer_ne_nil L t)
      rw [List.flatMap_cons, hSpacer] at hc
      obtain rfl : d = c := Option.some.inj hc
      exact isGap_of_mem_spacer L (hts t List.mem_cons_self) (by simp [hSpacer])

/-- The words behind the first one of a line, as they are read back. The first word is apart, as
there is nothing written before it. -/
theorem ofText_flatMap_spacer (L : Layout) {ts : List Token} (hts : ∀ t ∈ ts, t.Proper) :
    Token.ofText (ts.flatMap fun u => spacer L u ++ u.word) = ts.map (respace L) := by
  induction ts with
  | nil => exact Token.ofText_eq_nil nofun
  | cons t ts ih =>
      have hRest := fun u hu => hts u (List.mem_cons_of_mem t hu)
      rw [List.flatMap_cons, List.map_cons, ← ih hRest]
      exact Token.ofText_append (proper_respace (hts t List.mem_cons_self))
        (opensWithGap_flatMap_spacer L hRest)

/-- A written line is read back as its words in gaps of the same width. The words have to be proper:
a word with a space in it would be read as two. -/
theorem ofText_lineText (L : Layout) {l : List Token} (hl : ∀ t ∈ l, t.Proper) :
    Token.ofText (lineText L l) = reread L l := by
  cases l with
  | nil => exact Token.ofText_eq_nil nofun
  | cons t ts =>
      have ht := hl t List.mem_cons_self
      have hts := fun u hu => hl u (List.mem_cons_of_mem t hu)
      have hFirst : Token.Proper { t with gap := [] } := ⟨ht.word_ne_nil, ht.word_solid, nofun⟩
      rw [lineText, reread, ← ofText_flatMap_spacer L hts]
      exact Token.ofText_append hFirst (opensWithGap_flatMap_spacer L hts)

/-- A line that was read back is written as it stands, so writing lines is settled after one
turn. -/
theorem lineText_reread (L : Layout) (l : List Token) : lineText L (reread L l) = lineText L l := by
  cases l with
  | nil => rfl
  | cons t ts =>
      rw [reread, lineText, lineText, List.flatMap_map]
      refine congrArg (t.word ++ ·) (List.flatMap_congr fun u _ => ?_)
      rw [spacer_respace]
      rfl

end Reflow.Packing
