import Reflow.Proofs.Spacing

/-!
One paragraph of single-spaced text on lines. A wrapped paragraph is filled: none of its lines is
blank, and no pass changes it. Since margins of equal width leave equal room, the first line may
stand behind another margin than the lines below it.
-/

namespace Reflow

open Packing

namespace Layout

/-- Texts of one length without tabs take the same columns, whatever they hold. -/
theorem foldl_advance_eq (L : Layout) {a b : Text} (ha : '\t' ∉ a) (hb : '\t' ∉ b)
    (hLength : a.length = b.length) (w : Nat) : a.foldl L.advance w = b.foldl L.advance w := by
  induction a generalizing b w with
  | nil => rw [List.length_eq_zero_iff.mp hLength.symm]
  | cons c a ih =>
      cases b with
      | nil => cases hLength
      | cons d b =>
          rw [List.mem_cons, not_or] at ha hb
          obtain ⟨hc, ha⟩ := ha
          obtain ⟨hd, hb⟩ := hb
          have hStep : L.advance w c = L.advance w d := by
            rw [advance, advance, if_neg (Ne.symm hc), if_neg (Ne.symm hd)]
          rw [List.foldl_cons, List.foldl_cons, hStep]
          exact ih ha hb (by simpa using hLength) _

/-- Only the length of what stands behind a common margin counts, unless it holds a tab. A bullet
and the blanks below it therefore leave the same room. -/
theorem room_append_eq (L : Layout) (margin : Text) {a b : Text} (ha : '\t' ∉ a) (hb : '\t' ∉ b)
    (hLength : a.length = b.length) : L.room (margin ++ a) = L.room (margin ++ b) := by
  rw [room, room, width, width, List.foldl_append, List.foldl_append,
    L.foldl_advance_eq ha hb hLength]

end Layout

theorem IsWord.ne_space {w : Text} (hw : IsWord w) : ∀ c ∈ w, c ≠ ' ' := by
  rintro c hc rfl
  cases hw.visible _ hc

theorem head?_intercalate_ne_space {w : Text} (hw : IsWord w) (ws : List Text) :
    ∀ c, (List.intercalate [' '] (w :: ws)).head? = some c → c ≠ ' ' := by
  intro c hc
  rw [intercalate_cons_eq, List.head?_append, Option.or_of_isSome (by simpa using hw.ne_nil)] at hc
  exact hw.ne_space c (List.mem_of_mem_head? hc)

/-- Words joined by single spaces hold no two spaces in a row, since no word starts or ends with
one. -/
theorem isChain_intercalate_words {ws : List Text} (hws : ∀ w ∈ ws, IsWord w) :
    (List.intercalate [' '] ws).IsChain fun a b => a = ' ' → b ≠ ' ' := by
  induction ws with
  | nil => exact .nil
  | cons w ws ih =>
      have hSolid := (hws w List.mem_cons_self).ne_space
      have hWord : w.IsChain fun a b => a = ' ' → b ≠ ' ' :=
        List.Pairwise.isChain (List.pairwise_of_forall_mem_list fun a ha b _ hEq =>
          absurd hEq (hSolid a ha))
      cases ws with
      | nil => simpa using hWord
      | cons v ws =>
          have hRest := ih fun u hu => hws u (List.mem_cons_of_mem w hu)
          have hHead := head?_intercalate_ne_space (hws v (by simp)) ws
          rw [List.intercalate_cons_cons, List.append_assoc, List.singleton_append,
            List.isChain_append, List.isChain_cons]
          refine ⟨hWord, ⟨fun c hc _ => hHead c hc, hRest⟩, fun a ha b _ hEq => ?_⟩
          exact absurd hEq (hSolid a (List.mem_of_getLast? ha))

theorem singleSpaced_intercalate {ws : List Text} (hws : ∀ w ∈ ws, IsWord w) :
    SingleSpaced (List.intercalate [' '] ws) := by
  have hBlank : ∀ c ∈ List.intercalate [' '] ws, isBlank c = true → c = ' ' := by
    intro c hc hBlank
    rcases mem_intercalate hc with hSpace | ⟨w, hw, hc⟩
    · exact hSpace
    · rw [(hws w hw).visible c hc] at hBlank
      cases hBlank
  have hTrim : ∀ c ∈ Text.trim (List.intercalate [' '] ws), c ∈ List.intercalate [' '] ws :=
    fun c => mem_of_mem_trim
  refine ⟨fun c hc => hBlank c (hTrim c hc), ?_⟩
  exact isChain_of_isInfix (isChain_intercalate_words hws) (Text.trim_isInfix_self _)

/-- Words joined by single spaces are a trimmed line, as it starts and ends with a word or is
empty. -/
theorem trim_intercalate_words {ws : List Text} (hws : ∀ w ∈ ws, IsWord w) :
    Text.trim (List.intercalate [' '] ws) = List.intercalate [' '] ws := by
  refine Text.trim_eq_self_iff.mpr ⟨fun c hc => ?_, fun c hc => ?_⟩
  · cases ws with
    | nil => cases hc
    | cons w ws =>
        have hw := hws w List.mem_cons_self
        rw [intercalate_cons_eq, List.head?_append,
          Option.or_of_isSome (by simpa using hw.ne_nil)] at hc
        exact hw.visible c (List.mem_of_mem_head? hc)
  · induction ws with
    | nil => cases hc
    | cons w ws ih =>
        cases ws with
        | nil =>
            rw [List.intercalate_singleton] at hc
            exact (hws w List.mem_cons_self).visible c (List.mem_of_getLast? hc)
        | cons v ws =>
            have hNe : List.intercalate [' '] (v :: ws) ≠ [] := by
              rw [intercalate_cons_eq]
              simp [(hws v (by simp)).ne_nil]
            rw [List.intercalate_cons_cons, List.getLast?_append_of_ne_nil _ hNe] at hc
            exact ih (fun u hu => hws u (List.mem_cons_of_mem w hu)) hc

/-- The words of a line stand behind single spaces if they do so in the text. The gap before the
first word is not written, so it is not asked for. -/
theorem lineText_eq_intercalate (L : Layout) {line : List Token}
    (hGaps : ∀ u ∈ line.tail, u.gap = [' ']) :
    lineText L line = List.intercalate [' '] (line.map Token.word) := by
  cases line with
  | nil => rfl
  | cons t ts =>
      rw [List.map_cons, intercalate_cons_eq, lineText, List.flatMap_map]
      congr 1
      refine List.flatMap_congr fun u hu => ?_
      rw [spacer, hGaps u hu]
      split <;> rfl

/-- Single-spaced text is packed onto lines of its words, in order and with none of the lines empty.
Where the breaks are is left open. -/
theorem exists_packed_eq_map (L : Layout) (margin : Text) {ws : List Text}
    (hws : ∀ w ∈ ws, IsWord w) :
    ∃ wss : List (List Text), wss.flatten = ws ∧ (∀ line ∈ wss, line ≠ []) ∧
      packed L margin (List.intercalate [' '] ws) = wss.map (List.intercalate [' ']) := by
  obtain ⟨hWords, hGaps⟩ := ofText_intercalate_words hws
  generalize hTokens : Token.ofText (List.intercalate [' '] ws) = tokens at hWords hGaps
  have hFlatten := flatten_divide L margin margin tokens
  have hGreedy : Greedy L (L.room margin) (divide L margin margin tokens) :=
    greedy_divide rfl rfl tokens
  refine ⟨(divide L margin margin tokens).map (·.map Token.word), ?_, ?_, ?_⟩
  · rw [← List.map_flatten, hFlatten, hWords]
  · intro line hLine
    obtain ⟨ts, hts, rfl⟩ := List.mem_map.mp hLine
    simpa using (hGreedy.fits ts hts).ne_nil
  · rw [packed, hTokens, List.map_map]
    refine List.map_congr_left fun line hLine => lineText_eq_intercalate L fun u hu => hGaps u ?_
    obtain ⟨front, back, hSplit⟩ := List.append_of_mem hLine
    rw [hSplit, List.flatten_append, List.flatten_cons] at hFlatten
    rw [← hFlatten]
    cases line with
    | nil => cases hu
    | cons t ts =>
        cases front.flatten with
        | nil => exact List.mem_append_left _ hu
        | cons v vs =>
            exact List.mem_append_right _ (List.mem_append_left _ (List.mem_cons_of_mem t hu))

/-- The lines of one paragraph, filled as far as the margin leaves room. Being settled makes any
stretch of them wrap to itself, and without empty lines the stretch is one paragraph. -/
structure Filled (L : Layout) (margin : Text) (ls : List Text) : Prop where
  ne_nil : ls ≠ []
  settled : Settled L margin ls
  visible : [] ∉ ls
  spaced : ∀ l ∈ ls, SingleSpaced l

namespace Filled

variable {L : Layout} {margin : Text} {ls : List Text}

/-- Any lines of a filled paragraph that stand together are filled. An item that a second pass cuts
in two has this for both parts. -/
theorem of_isInfix (h : Filled L margin ls) {ms : List Text} (hInfix : ms <:+: ls) (hNe : ms ≠ []) :
    Filled L margin ms :=
  ⟨hNe, h.settled.of_isInfix hInfix, fun hNil => h.visible (hInfix.subset hNil),
    fun l hl => h.spaced l (hInfix.subset hl)⟩

theorem line (h : Filled L margin ls) {l : Text} (hl : l ∈ ls) :
    Written L (L.room margin) l ∧ Text.trim l = l ∧ '\n' ∉ l :=
  (h.settled.line l hl).resolve_left fun hNil => h.visible (hNil ▸ hl)

theorem line_ne_nil (h : Filled L margin ls) {l : Text} (hl : l ∈ ls) : l ≠ [] :=
  fun hNil => h.visible (hNil ▸ hl)

/-- A filled line starts with a character that is not blank, so behind its margin it is read at the
indentation of the margin. -/
theorem isBlank_head (h : Filled L margin ls) {l : Text} (hl : l ∈ ls) {c : Char}
    (hc : l.head? = some c) : isBlank c = false := by
  rw [← (h.line hl).2.1] at hc
  exact Text.isBlank_head_trim hc

theorem allBlank_eq_false (h : Filled L margin ls) {l : Text} (hl : l ∈ ls) :
    Text.allBlank l = false := by
  cases hBlank : Text.allBlank l with
  | false => rfl
  | true => exact absurd (h.settled.eq_nil_of_allBlank hl hBlank) (h.line_ne_nil hl)

/-- Filled lines are wrapped to themselves, as settled lines with text at both ends. -/
theorem wrapped_eq (h : Filled L margin ls) : wrapped L margin (Text.unlines ls) = ls := by
  apply h.settled.wrapped_eq h.ne_nil
  · exact fun hHead => h.visible (List.mem_of_mem_head? hHead)
  · exact fun hLast => h.visible (List.mem_of_getLast? hLast)

theorem map_mark (h : Filled L margin ls) : ls.map (mark margin) = ls.map (margin ++ ·) :=
  List.map_congr_left fun _ hl => if_neg (by simpa using h.line_ne_nil hl)

end Filled

/-- Lines none of which is blank are one paragraph, namely the trimmed lines joined by spaces. No
line may hold a line feed, or it would be read as two. -/
theorem paragraphs_unlines {ls : List Text} (hNe : ls ≠ [])
    (hls : ∀ l ∈ ls, Text.allBlank l = false ∧ '\n' ∉ l) :
    paragraphs (Text.unlines ls) = [List.intercalate [' '] (ls.map Text.trim)] := by
  have hVisible : ∀ m ∈ ls.map Text.trim, m.isEmpty = false := by
    intro m hm
    obtain ⟨l, hl, rfl⟩ := List.mem_map.mp hm
    have hBlank := (hls l hl).1
    rw [List.isEmpty_eq_false_iff]
    intro hNil
    rw [Text.trim_eq_nil_iff.mp hNil] at hBlank
    cases hBlank
  rw [paragraphs_eq_map, Text.lines_unlines (fun l hl => (hls l hl).2) hNe, stretches,
    List.splitOnP_eq_singleton hVisible]
  simp [hNe]

/-- Wrapping a single-spaced paragraph fills its lines. None of the lines may be blank, as that
would make two paragraphs of them. -/
theorem filled_wrapped (L : Layout) (margin : Text) {ls : List Text} (hNe : ls ≠ [])
    (hls : ∀ l ∈ ls, SingleSpaced l ∧ Text.allBlank l = false ∧ '\n' ∉ l) :
    Filled L margin (wrapped L margin (Text.unlines ls)) := by
  have hLines : Text.lines (Text.unlines ls) = ls :=
    Text.lines_unlines (fun l hl => (hls l hl).2.2) hNe
  have hSpaced : ∀ l ∈ Text.lines (Text.unlines ls), SingleSpaced l := by
    rw [hLines]
    exact fun l hl => (hls l hl).1
  have hParagraphs := paragraphs_unlines hNe fun l hl => (hls l hl).2
  have hMem : List.intercalate [' '] (ls.map Text.trim) ∈ paragraphs (Text.unlines ls) := by
    rw [hParagraphs]
    exact List.mem_cons_self
  have hWrapped : wrapped L margin (Text.unlines ls) =
      packed L margin (List.intercalate [' '] (ls.map Text.trim)) := by
    rw [wrapped, hParagraphs]
    exact List.append_nil _
  obtain ⟨ws, hWords, hws⟩ := exists_words_of_mem_paragraphs hSpaced hMem
  refine ⟨?_, settled_wrapped L margin hSpaced, ?_, ?_⟩
  · rw [hWrapped]
    exact packed_ne_nil (ofText_ne_nil_of_mem_paragraphs hMem)
  · rw [hWrapped]
    exact fun hNil => (written_of_mem_packed hNil).bounded.ne_nil rfl
  · rw [hWrapped, hWords]
    intro l hl
    obtain ⟨wss, hFlatten, -, hLines⟩ := exists_packed_eq_map L margin hws
    rw [hLines] at hl
    obtain ⟨line, hLine, rfl⟩ := List.mem_map.mp hl
    refine singleSpaced_intercalate fun w hw => hws w ?_
    rw [← hFlatten]
    exact List.mem_flatten_of_mem hLine hw

/-- Where both margins leave the same room, only the first line tells which stands before it. The
first line of an item can so be treated as one below it. -/
theorem exists_wrap_eq_cons {L : Layout} {first next t : Text} (hRoom : L.room first = L.room next)
    (ht : paragraphs t ≠ []) :
    ∃ l ls, wrap L first next t = (first ++ l) :: ls ∧ wrap L next next t = (next ++ l) :: ls := by
  obtain ⟨p, ps, hParagraphs⟩ := List.exists_cons_of_ne_nil ht
  obtain ⟨u, us, hWords⟩ := List.exists_cons_of_ne_nil
    (ofText_ne_nil_of_mem_paragraphs (t := t) (p := p) (by simp [hParagraphs]))
  have hParagraph : ∀ margin, L.room margin = L.room next → wrapParagraph L margin next p =
      (margin ++ lineText L (u :: (fill L (L.room next) (L.width u.word) us).1)) ::
        (divide L next next (fill L (L.room next) (L.width u.word) us).2).map
          fun m => next ++ lineText L m := by
    intro margin hMargin
    rw [wrapParagraph, hWords, divide, write, hMargin]
  rw [wrap, wrap, hParagraphs]
  simp only [hParagraph first hRoom, hParagraph next rfl, List.cons_append]
  exact ⟨_, _, rfl, rfl⟩

/-- Filled lines are wrapped to themselves behind their margins, the first of them behind another
margin as long as that leaves the same room. -/
theorem Filled.wrap_unlines {L : Layout} {first next l : Text} {ls : List Text}
    (h : Filled L next (l :: ls)) (hRoom : L.room first = L.room next) :
    wrap L first next (Text.unlines (l :: ls)) = (first ++ l) :: ls.map (next ++ ·) := by
  have hParagraphs : paragraphs (Text.unlines (l :: ls)) ≠ [] := by
    rw [paragraphs_unlines (by simp) fun m hm => ⟨h.allBlank_eq_false hm, (h.line hm).2.2⟩]
    simp
  obtain ⟨m, ms, hFirst, hNext⟩ := exists_wrap_eq_cons hRoom hParagraphs
  rw [wrap_eq_map L next hParagraphs, h.wrapped_eq, h.map_mark, List.map_cons] at hNext
  obtain ⟨hHead, rfl⟩ := List.cons.inj hNext
  rw [hFirst, List.append_cancel_left hHead]

/-- A single-spaced paragraph is wrapped to filled lines, behind one margin or behind two that leave
the same room. All that is printed in a structured comment is written this way, headings and code
aside. -/
theorem exists_filled_wrap {L : Layout} {first next : Text} (hRoom : L.room first = L.room next)
    {ls : List Text} (hNe : ls ≠ [])
    (hls : ∀ l ∈ ls, SingleSpaced l ∧ Text.allBlank l = false ∧ '\n' ∉ l) :
    ∃ m ms, Filled L next (m :: ms) ∧ wrapped L next (Text.unlines ls) = m :: ms ∧
      wrap L first next (Text.unlines ls) = (first ++ m) :: ms.map (next ++ ·) := by
  have hFilled := filled_wrapped L next hNe hls
  have hParagraphs : paragraphs (Text.unlines ls) ≠ [] := by
    rw [paragraphs_unlines hNe fun l hl => (hls l hl).2]
    simp
  obtain ⟨l, after, hFirst, hNext⟩ := exists_wrap_eq_cons hRoom hParagraphs
  obtain ⟨m, ms, hWrapped⟩ := List.exists_cons_of_ne_nil hFilled.ne_nil
  rw [wrap_eq_map L next hParagraphs, hFilled.map_mark, hWrapped, List.map_cons] at hNext
  obtain ⟨hHead, rfl⟩ := List.cons.inj hNext
  refine ⟨m, ms, hWrapped ▸ hFilled, hWrapped, ?_⟩
  rw [hFirst, List.append_cancel_left hHead]

end Reflow
