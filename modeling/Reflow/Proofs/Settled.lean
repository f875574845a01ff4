import Reflow.Proofs.Packing

/-!
Lines of text that packing leaves alone. Written lines that are joined again with one space at each
break are divided in the same way exactly when each of them fits and no first word of a line finds
room at the end of the line before it.
-/

namespace Reflow

/-- The words of two texts one after the other, if a word ends where they meet. Otherwise the last
word of the one and the first of the other would be read as one. -/
theorem Token.ofText_append_text {g rest : Text}
    (hLast : ∀ c, g.getLast? = some c → isGap c = false) (hRest : OpensWithGap rest) :
    ofText (g ++ rest) = ofText g ++ ofText rest := by
  induction g using ofText_induction with
  | gaps g hGaps =>
      cases hEnd : g.getLast? with
      | none =>
          rw [List.getLast?_eq_none_iff.mp hEnd, ofText_eq_nil (t := []) nofun]
          rfl
      | some c =>
          have hGap := hGaps c (List.mem_of_getLast? hEnd)
          rw [hLast c hEnd] at hGap
          cases hGap
  | word first tail hFirst hTail ih =>
      have hOpens : OpensWithGap (tail ++ rest) := by
        intro c hc
        cases tail with
        | nil => exact hRest c hc
        | cons d tail => exact hTail c hc
      have hEnd : ∀ c, tail.getLast? = some c → isGap c = false := fun c hc =>
        hLast c (by rw [List.getLast?_append, hc]; rfl)
      rw [List.append_assoc, ofText_append hFirst hOpens, ofText_append hFirst hTail, ih hEnd,
        List.cons_append]

theorem Token.mem_of_mem_ofText {t : Text} {u : Token} (hu : u ∈ ofText t) {c : Char}
    (hc : c ∈ u.text) : c ∈ t := by
  induction t using ofText_induction with
  | gaps t hGaps => simp [ofText_eq_nil hGaps] at hu
  | word first rest hFirst hRest ih =>
      rw [ofText_append hFirst hRest] at hu
      rcases List.mem_cons.mp hu with rfl | hu
      · exact List.mem_append_left rest hc
      · exact List.mem_append_right _ (ih hu)

/-- A text that starts and ends with a word. Joined by single spaces, such texts do not change each
other's words. -/
structure Token.Bounded (l : Text) : Prop where
  words : ofText l ≠ []
  head {c : Char} (hc : l.head? = some c) : isGap c = false
  getLast {c : Char} (hc : l.getLast? = some c) : isGap c = false

theorem Token.Bounded.ne_nil {l : Text} (h : Bounded l) : l ≠ [] := by
  rintro rfl
  exact h.words (ofText_eq_nil nofun)

namespace Packing

theorem isGap_head_lineText (L : Layout) {l : List Token} (hl : ∀ t ∈ l, t.Proper) {c : Char}
    (hc : (lineText L l).head? = some c) : isGap c = false := by
  cases l with
  | nil => cases hc
  | cons t ts =>
      have ht := hl t List.mem_cons_self
      obtain ⟨d, word, hWord⟩ := List.exists_cons_of_ne_nil ht.word_ne_nil
      rw [lineText, hWord] at hc
      obtain rfl : d = c := Option.some.inj hc
      exact ht.word_solid d (by simp [hWord])

/-- A line ends with the end of a word, since nothing is written behind the last one. -/
theorem exists_getLast_lineText (L : Layout) {l : List Token} (hl : ∀ t ∈ l, t.word ≠ []) {c : Char}
    (hc : (lineText L l).getLast? = some c) : ∃ t ∈ l, t.word.getLast? = some c := by
  rcases List.eq_nil_or_concat l with rfl | ⟨ts, t, rfl⟩
  · cases hc
  · have hEnd : ∃ front, lineText L (ts ++ [t]) = front ++ t.word := by
      cases ts with
      | nil => exact ⟨[], by simp [lineText]⟩
      | cons u ts =>
          exact ⟨u.word ++ (ts.flatMap fun v => spacer L v ++ v.word) ++ spacer L t,
            by simp [lineText]⟩
    obtain ⟨front, hFront⟩ := hEnd
    rw [List.concat_eq_append, hFront, List.getLast?_append,
      Option.or_of_isSome (by simpa using hl t (by simp))] at hc
    exact ⟨t, by simp, hc⟩

theorem isGap_getLast_lineText (L : Layout) {l : List Token} (hl : ∀ t ∈ l, t.Proper) {c : Char}
    (hc : (lineText L l).getLast? = some c) : isGap c = false := by
  obtain ⟨t, ht, hLast⟩ := exists_getLast_lineText L (fun t ht => (hl t ht).word_ne_nil) hc
  exact (hl t ht).word_solid c (List.mem_of_getLast? hLast)

/-- A line as it is written: its words in their spacers, and room for all of them. Lines of another
page, or with gaps of no width, are not. -/
structure Written (L : Layout) (room : Nat) (l : Text) : Prop where
  text : lineText L (Token.ofText l) = l
  fits : Fits L room (Token.ofText l)

/-- Proper words that fit make a written line, so this is what one turn of packing gives for each of
its lines. -/
theorem written_lineText {L : Layout} {room : Nat} {l : List Token} (hl : ∀ t ∈ l, t.Proper)
    (hFits : Fits L room l) : Written L room (lineText L l) := by
  refine ⟨?_, ?_⟩
  · rw [ofText_lineText L hl, lineText_reread]
  · rw [ofText_lineText L hl]
    exact fits_reread hFits

theorem Written.bounded {L : Layout} {room : Nat} {l : Text} (h : Written L room l) :
    Token.Bounded l where
  words := h.fits.ne_nil
  head hc := isGap_head_lineText L (fun _ => Token.proper_of_mem_ofText) (h.text.symm ▸ hc)
  getLast hc := isGap_getLast_lineText L (fun _ => Token.proper_of_mem_ofText) (h.text.symm ▸ hc)

/-- The first word of line `b` finds room at the end of line `a`, behind one space. This is the
question that a second pass asks, as it reads each break as one space. -/
def fitsBehind (L : Layout) (room : Nat) (a b : Text) : Bool :=
  match Token.ofText a, Token.ofText b with
  | t :: ts, u :: _ => extend L (lineWidth L (t :: ts)) { u with gap := [' '] } ≤ room
  | _, _ => false

/-- The words of a line behind one space. -/
def behindSpace : List Token → List Token
  | [] => []
  | t :: ts => { t with gap := [' '] } :: ts

/-- The words of lines that are joined by spaces. Only the first word of each line has a new gap. -/
def rejoin : List Text → List (List Token)
  | [] => []
  | l :: ls => Token.ofText l :: ls.map fun m => behindSpace (Token.ofText m)

theorem fits_behindSpace {L : Layout} {room : Nat} {l : List Token} :
    Fits L room (behindSpace l) ↔ Fits L room l := by
  cases l <;> rfl

theorem lineWidth_behindSpace (L : Layout) (l : List Token) :
    lineWidth L (behindSpace l) = lineWidth L l := by
  cases l <;> rfl

theorem lineText_behindSpace (L : Layout) (l : List Token) :
    lineText L (behindSpace l) = lineText L l := by
  cases l <;> rfl

theorem ofText_space_cons {l : Text} (hHead : ∀ c, l.head? = some c → isGap c = false) :
    Token.ofText (' ' :: l) = behindSpace (Token.ofText l) := by
  rcases Token.ofText_cases l with hGaps | ⟨first, rest, hFirst, hRest, rfl⟩
  · rw [Token.ofText_eq_nil hGaps, Token.ofText_eq_nil]
    · rfl
    · intro c hc
      rcases List.mem_cons.mp hc with rfl | hc
      · rfl
      · exact hGaps c hc
  · have hGap : first.gap = [] := by
      cases hFront : first.gap with
      | nil => rfl
      | cons c gap =>
          have hOpen := hFirst.gap_open c (by simp [hFront])
          rw [hHead c (by simp [Token.text, hFront])] at hOpen
          cases hOpen
    have hSpaced : Token.Proper { first with gap := [' '] } :=
      ⟨hFirst.word_ne_nil, hFirst.word_solid, by simp [isGap]⟩
    have hText : ' ' :: (first.text ++ rest) = Token.text { first with gap := [' '] } ++ rest := by
      simp [Token.text, hGap]
    rw [hText, Token.ofText_append hSpaced hRest, Token.ofText_append hFirst hRest]
    rfl

/-- Lines joined by spaces are read as the words of the lines. This is how a paragraph that was
wrapped comes back on a second pass. -/
theorem ofText_intercalate {ls : List Text} (hls : ∀ l ∈ ls, Token.Bounded l) :
    Token.ofText (List.intercalate [' '] ls) = (rejoin ls).flatten := by
  induction ls with
  | nil => exact Token.ofText_eq_nil nofun
  | cons l ls ih =>
      have hl := hls l List.mem_cons_self
      cases ls with
      | nil => simp [rejoin]
      | cons m ls =>
          have hm := hls m (by simp)
          have hHead :
              ∀ c, (List.intercalate [' '] (m :: ls)).head? = some c → isGap c = false := by
            intro c hc
            refine hm.head ?_
            obtain ⟨rest, hRest⟩ : ∃ rest, List.intercalate [' '] (m :: ls) = m ++ rest := by
              cases ls with
              | nil => exact ⟨[], by simp⟩
              | cons k ls => exact ⟨_, by rw [List.intercalate_cons_cons, List.append_assoc]⟩
            rwa [hRest, List.head?_append, Option.or_of_isSome (by simpa using hm.ne_nil)] at hc
          have hOpens : Token.OpensWithGap (' ' :: List.intercalate [' '] (m :: ls)) := by
            intro c hc
            obtain rfl : ' ' = c := Option.some.inj hc
            rfl
          obtain ⟨t, ts, hWords⟩ := List.exists_cons_of_ne_nil hm.words
          rw [List.intercalate_cons_cons, List.append_assoc, List.singleton_append,
            Token.ofText_append_text (fun _ => hl.getLast) hOpens, ofText_space_cons hHead,
            ih fun k hk => hls k (List.mem_cons_of_mem l hk)]
          simp [rejoin, hWords, behindSpace]

theorem lineText_rejoin {L : Layout} {ls : List Text}
    (hls : ∀ l ∈ ls, lineText L (Token.ofText l) = l) : (rejoin ls).map (lineText L) = ls := by
  cases ls with
  | nil => rfl
  | cons l ls =>
      rw [rejoin, List.map_cons, hls l List.mem_cons_self, List.map_map]
      congr 1
      refine (List.map_congr_left fun m hm => ?_).trans (List.map_id ls)
      exact (lineText_behindSpace L _).trans (hls m (List.mem_cons_of_mem l hm))

/-- Only the width of the line before decides whether a line has to start, so the gap before that
line's own first word may be anything. -/
theorem forced_behindSpace_iff {L : Layout} {room : Nat} {x : List Token} {a b : Text}
    (ha : Token.ofText a ≠ []) (hb : Token.ofText b ≠ [])
    (hWidth : lineWidth L x = lineWidth L (Token.ofText a)) :
    Forced L room x (behindSpace (Token.ofText b)) ↔ fitsBehind L room a b = false := by
  obtain ⟨t, ts, hA⟩ := List.exists_cons_of_ne_nil ha
  obtain ⟨u, us, hB⟩ := List.exists_cons_of_ne_nil hb
  simp [Forced, fitsBehind, hWidth, hA, hB, behindSpace]

theorem isChain_behindSpace_iff {L : Layout} {room : Nat} {x : List Token} {l : Text}
    {ls : List Text} (hls : ∀ m ∈ l :: ls, Token.ofText m ≠ [])
    (hWidth : lineWidth L x = lineWidth L (Token.ofText l)) :
    (x :: ls.map fun m => behindSpace (Token.ofText m)).IsChain (Forced L room) ↔
      (l :: ls).IsChain fun a b => fitsBehind L room a b = false := by
  induction ls generalizing x l with
  | nil => simp
  | cons m ls ih =>
      rw [List.map_cons, List.isChain_cons_cons, List.isChain_cons_cons,
        forced_behindSpace_iff (hls l (by simp)) (hls m (by simp)) hWidth,
        ih (fun k hk => hls k (List.mem_cons_of_mem l hk)) (lineWidth_behindSpace L _)]

/-- Joined lines are a greedy division exactly when they fit and no first word fits behind the line
before it. The second condition is the one that may fail for lines that were packed before, if a
break stands where the text had a wide gap. -/
theorem greedy_rejoin_iff (L : Layout) (room : Nat) {ls : List Text}
    (hls : ∀ l ∈ ls, Token.ofText l ≠ []) :
    Greedy L room (rejoin ls) ↔ (∀ l ∈ ls, Fits L room (Token.ofText l)) ∧
      ls.IsChain fun a b => fitsBehind L room a b = false := by
  cases ls with
  | nil => exact ⟨fun _ => ⟨List.forall_mem_nil _, .nil⟩, fun _ => ⟨List.forall_mem_nil _, .nil⟩⟩
  | cons l ls =>
      have hFits : (∀ m ∈ rejoin (l :: ls), Fits L room m) ↔
          ∀ m ∈ l :: ls, Fits L room (Token.ofText m) := by
        simp [rejoin, fits_behindSpace]
      rw [← hFits, ← isChain_behindSpace_iff hls rfl]
      exact ⟨fun h => ⟨h.fits, h.forced⟩, fun h => ⟨h.1, h.2⟩⟩

/-- The lines onto which the words of a paragraph are packed, without their margin. The margin is
given for the room it leaves. -/
def packed (L : Layout) (margin : Text) (t : Text) : List Text :=
  (divide L margin margin (Token.ofText t)).map (lineText L)

theorem proper_of_mem_divide {L : Layout} {first next t : Text} {l : List Token}
    (hl : l ∈ divide L first next (Token.ofText t)) {u : Token} (hu : u ∈ l) : u.Proper :=
  Token.proper_of_mem_ofText (flatten_divide L first next (Token.ofText t) ▸
    List.mem_flatten_of_mem hl hu)

theorem written_of_mem_packed {L : Layout} {margin t l : Text} (h : l ∈ packed L margin t) :
    Written L (L.room margin) l := by
  obtain ⟨line, hLine, rfl⟩ := List.mem_map.mp h
  exact written_lineText (fun u => proper_of_mem_divide hLine)
    ((greedy_divide rfl rfl _).fits line hLine)

/-- Packing written lines again changes nothing exactly when no first word finds room on the line
before it. The lines fit already, as they are written in the same room. -/
theorem packed_intercalate_eq_iff {L : Layout} {margin : Text} {ls : List Text}
    (hls : ∀ l ∈ ls, Written L (L.room margin) l) :
    packed L margin (List.intercalate [' '] ls) = ls ↔
      ls.IsChain fun a b => fitsBehind L (L.room margin) a b = false := by
  have hText := lineText_rejoin fun l hl => (hls l hl).text
  have hWords := ofText_intercalate fun l hl => (hls l hl).bounded
  have hGreedy := greedy_rejoin_iff L (L.room margin) fun l hl => (hls l hl).fits.ne_nil
  constructor
  · intro hPacked
    -- A written line has as many words as it is read to have, so both divisions agree.
    have hLength : ∀ l : List Token, (∀ t ∈ l, t.Proper) →
        l.length = (Token.ofText (lineText L l)).length := by
      intro l hl
      rw [ofText_lineText L hl]
      cases l <;> simp [reread]
    have hProper : ∀ l ∈ rejoin ls, ∀ t ∈ l, t.Proper := fun l hl t ht =>
      Token.proper_of_mem_ofText (hWords ▸ List.mem_flatten_of_mem hl ht)
    have hSame : divide L margin margin (Token.ofText (List.intercalate [' '] ls)) = rejoin ls := by
      refine List.eq_iff_flatten_eq.mpr ⟨by rw [flatten_divide, hWords], ?_⟩
      rw [List.map_congr_left fun l hl => hLength l fun u => proper_of_mem_divide hl,
        List.map_congr_left fun l hl => hLength l (hProper l hl)]
      have hTexts := hPacked.trans hText.symm
      rw [packed] at hTexts
      simpa [Function.comp_def] using congrArg (List.map fun t => (Token.ofText t).length) hTexts
    exact (hGreedy.mp (hSame ▸ greedy_divide rfl rfl _)).2
  · intro hChain
    have hRejoin := hGreedy.mpr ⟨fun l hl => (hls l hl).fits, hChain⟩
    rw [packed, hWords, divide_flatten rfl rfl hRejoin, hText]

end Packing

end Reflow
